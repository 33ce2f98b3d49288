import ScipRuby.Infer.EnvironmentFlow
import ScipRuby.Lib.StateRuns

namespace Infer
open ReverseIndex PartialRuns Traces

section Index

def TypeTestReverseIndex.Sorted (index : TypeTestReverseIndex) : Prop := ∀ x, (index.get x).Pairwise (· < ·)

def TypeTestReverseIndex.values (index : TypeTestReverseIndex) (x : LocalRef) : Set LocalRef := {v | v ∈ index.get x}

variable {index : TypeTestReverseIndex} {list : List LocalRef} {x y v w : LocalRef}

theorem get_replace_self : (index.replace x list).get x = list := by
  unfold TypeTestReverseIndex.get TypeTestReverseIndex.replace
  dsimp only
  rw [Function.update_self,Option.getD_some]

theorem get_replace_of_ne (other : y ≠ x) : (index.replace x list).get y = index.get y := by
  unfold TypeTestReverseIndex.get TypeTestReverseIndex.replace
  dsimp only
  rw [Function.update_of_ne other]

theorem TypeTestReverseIndex.Sorted.replace (sorted : index.Sorted) (own : list.Pairwise (· < ·)) :
    (index.replace x list).Sorted := by
  intro y
  by_cases same : y = x
  · subst same
    rwa [get_replace_self]
  · rw [get_replace_of_ne same]
    exact sorted y

theorem TypeTestReverseIndex.Sorted.addToIndex (sorted : index.Sorted) : (index.addToIndex x v).Sorted :=
  sorted.replace (insertSorted_sorted (sorted x))

theorem mem_addToIndex : v ∈ (index.addToIndex x w).get y ↔ (y = x ∧ v = w) ∨ v ∈ index.get y := by
  unfold TypeTestReverseIndex.addToIndex
  by_cases same : y = x
  · subst same
    rw [get_replace_self,mem_insertSorted]
    simp
  · rw [get_replace_of_ne same]
    simp [same]

end Index

section Changes
variable {Ty Class : Type} {T : TypeOps Ty Class}

-- What a change of the knowledge of a local must do: every test that it adds is entered.
structure Change.Enters (v : LocalRef) (change : Change Ty) : Prop where
  more : ∀ knowledge index x, index.values x ⊆ (change knowledge index).2.values x
  entered : ∀ knowledge index, ∀ x ∈ (change knowledge index).1.tests,
    x ∈ knowledge.tests ∨ v ∈ (change knowledge index).2.get x
  sorted : ∀ knowledge index, index.Sorted → (change knowledge index).2.Sorted

variable {v x : LocalRef} {knowledge : TestedKnowledge Ty} {fact : KnowledgeFact Ty} {side : Side} {index : TypeTestReverseIndex}

theorem tests_side (member : x ∈ (knowledge.side side).tests) : x ∈ knowledge.tests := by
  cases side with
  | truthy => exact List.mem_append_left _ member
  | falsy => exact List.mem_append_right _ member

theorem tests_setSide (member : x ∈ (knowledge.setSide fact side).tests) : x ∈ fact.tests ∨ x ∈ knowledge.tests := by
  cases side with
  | truthy => exact (List.mem_append.mp member).imp_right (List.mem_append_right _)
  | falsy => exact (List.mem_append.mp member).symm.imp_right (List.mem_append_left _)

-- A change that adds one test to a fact, and enters it.
theorem enters_one (ref : LocalRef) (fact : KnowledgeFact Ty → KnowledgeFact Ty)
    (one : ∀ old, ∀ x ∈ (fact old).tests, x ∈ old.tests ∨ x = ref) :
    Change.Enters v fun knowledge index => (knowledge.setSide (fact (knowledge.side side)) side,index.addToIndex ref v) where
  more _ _ _ _ member := mem_addToIndex.mpr (.inr member)
  sorted _ _ sorted := sorted.addToIndex
  entered knowledge index x member := by
    rcases tests_setSide member with added | old
    · rcases one _ x added with old | rfl
      · exact .inl (tests_side old)
      · exact .inr (mem_addToIndex.mpr (.inl ⟨rfl,rfl⟩))
    · exact .inl old

theorem addYesTypeTest_enters (ref : LocalRef) (type : Ty) : (addYesTypeTest side v ref type).Enters v := by
  apply enters_one ref fun old => {old with yesTypeTests := old.yesTypeTests ++ [(ref,type)]}
  intro old x member
  simp only [KnowledgeFact.tests,List.map_append,List.mem_append,List.map_cons,List.map_nil,List.mem_singleton] at member ⊢
  rcases member with (yes | added) | no
  · exact .inl (.inl yes)
  · exact .inr added
  · exact .inl (.inr no)

theorem addNoTypeTest_enters (ref : LocalRef) (type : Ty) : (addNoTypeTest side v ref type).Enters v := by
  apply enters_one ref fun old => {old with noTypeTests := old.noTypeTests ++ [(ref,type)]}
  intro old x member
  simp only [KnowledgeFact.tests,List.map_append,List.mem_append,List.map_cons,List.map_nil,List.mem_singleton] at member ⊢
  rcases member with yes | no | added
  · exact .inl (.inl yes)
  · exact .inl (.inr no)
  · exact .inr added

-- The loop of replaceTruthy and replaceFalsy over one list.
theorem mem_addEntries {tests : TypeTests Ty} {w : LocalRef} :
    w ∈ (addEntries v tests index).get x ↔ (x ∈ tests.map Prod.fst ∧ w = v) ∨ w ∈ index.get x := by
  unfold addEntries
  induction tests generalizing index with
  | nil => simp
  | cons entry tests ih =>
    rw [List.foldl_cons,ih,mem_addToIndex,List.map_cons,List.mem_cons]
    tauto

theorem addEntries_sorted {tests : TypeTests Ty} (sorted : index.Sorted) : (addEntries v tests index).Sorted := by
  unfold addEntries
  induction tests generalizing index with
  | nil => exact sorted
  | cons entry tests ih => exact ih sorted.addToIndex

theorem replaceSide_enters (fact : KnowledgeFact Ty) : (replaceSide side v fact).Enters v where
  more _ _ _ _ member := mem_addEntries.mpr (.inr (mem_addEntries.mpr (.inr member)))
  sorted _ _ sorted := addEntries_sorted (addEntries_sorted sorted)
  entered knowledge index x member := by
    rcases tests_setSide member with own | old
    · right
      rcases List.mem_append.mp own with yes | no
      · exact mem_addEntries.mpr (.inr (mem_addEntries.mpr (.inl ⟨yes,rfl⟩)))
      · exact mem_addEntries.mpr (.inl ⟨no,rfl⟩)
    · exact .inl old

-- A change that only drops tests needs no entry.
theorem Change.Enters.dropping {change : Change Ty} (same : ∀ knowledge index, (change knowledge index).2 = index)
    (fewer : ∀ knowledge index, ∀ x ∈ (change knowledge index).1.tests, x ∈ knowledge.tests) : change.Enters v where
  more knowledge index x _ member := by rwa [same]
  sorted knowledge index sorted := by rwa [same]
  entered knowledge index x member := .inl (fewer knowledge index x member)

theorem Change.Enters.andThen {first second : Change Ty} (one : first.Enters v) (two : second.Enters v) :
    (first.andThen second).Enters v where
  more knowledge index x _ member := two.more _ _ x (one.more knowledge index x member)
  sorted knowledge index sorted := two.sorted _ _ (one.sorted knowledge index sorted)
  entered knowledge index x member := by
    rcases two.entered _ _ x member with earlier | new
    · exact (one.entered knowledge index x earlier).imp_right fun entry => two.more _ _ x entry
    · exact .inr new

theorem replaceKnowledge_enters (other : TestedKnowledge Ty) : (replaceKnowledge v other).Enters v := by
  have seen : (replaceSeen other).Enters v := .dropping (fun _ _ => rfl) fun _ _ _ member => member
  exact seen.andThen ((replaceSide_enters other.falsy).andThen (replaceSide_enters other.truthy))

theorem minTests_subset {combine : Ty → Ty → Ty} {other tests : TypeTests Ty}
    (member : x ∈ (minTests combine other tests).map Prod.fst) : x ∈ tests.map Prod.fst := by
  induction tests with
  | nil => exact member
  | cons entry tests ih =>
    obtain ⟨local_,type⟩ := entry
    rw [minTests] at member
    split at member
    · exact List.mem_cons_of_mem _ (ih member)
    · rcases List.mem_cons.mp member with rfl | later
      · exact List.mem_cons_self
      · exact List.mem_cons_of_mem _ (ih later)

theorem minSide_enters (other : KnowledgeFact Ty) : (minSide T side other).Enters v := by
  apply Change.Enters.dropping
  · exact fun _ _ => rfl
  · intro knowledge index x member
    rcases tests_setSide member with own | old
    · rcases List.mem_append.mp own with yes | no
      · exact tests_side (List.mem_append_left _ (minTests_subset yes))
      · exact tests_side (List.mem_append_right _ (minTests_subset no))
    · exact old

theorem setSeen_tests : (knowledge.setSeen side).tests = knowledge.tests := by cases side <;> rfl

theorem mergeSide_cases (other : KnowledgeFact Ty) (knowledge : TestedKnowledge Ty) (index : TypeTestReverseIndex) :
    mergeSide T side v other knowledge index = (knowledge,index) ∨
    mergeSide T side v other knowledge index = minSide T side other knowledge index ∨
    mergeSide T side v other knowledge index = replaceSide side v other (knowledge.setSeen side) index := by
  unfold mergeSide
  by_cases dead : other.isDead = true
  · exact .inl (if_pos dead)
  · rw [if_neg dead]
    by_cases seen : knowledge.seen side = true
    · exact .inr (.inl (if_pos seen))
    · exact .inr (.inr (if_neg seen))

theorem mergeSide_enters (other : KnowledgeFact Ty) : (mergeSide T side v other).Enters v := by
  have min := @minSide_enters Ty Class T v side other
  have replace := @replaceSide_enters Ty v side other
  constructor
  · intro knowledge index x w member
    rcases mergeSide_cases other knowledge index with kept | kept | kept
    · rwa [kept]
    · exact kept ▸ min.more _ _ x member
    · exact kept ▸ replace.more _ _ x member
  · intro knowledge index x member
    rcases mergeSide_cases other knowledge index with kept | kept | kept
    · rw [kept] at member
      exact .inl member
    · rw [kept] at member ⊢
      exact min.entered _ _ x member
    · rw [kept] at member ⊢
      have entered := replace.entered _ _ x member
      rwa [setSeen_tests] at entered
  · intro knowledge index sorted
    rcases mergeSide_cases other knowledge index with kept | kept | kept
    · rwa [kept]
    · exact kept ▸ min.sorted _ _ sorted
    · exact kept ▸ replace.sorted _ _ sorted

end Changes

section Environments
variable {Ty Class : Type} {T : TypeOps Ty Class} {env other : Environment Ty} {v w x : LocalRef} {isNeeded : LocalRef → Bool}

-- The locals that the knowledge of a local tests.
def Environment.uses (env : Environment Ty) (v : LocalRef) : Set LocalRef :=
  {x | ∃ state, env.vars v = some state ∧ x ∈ state.knowledge.tests}

structure Environment.Indexed (env : Environment Ty) : Prop where
  covers : Covers env.typeTestsWithVar.values env.uses
  sorted : env.typeTestsWithVar.Sorted

namespace Environment

theorem fresh_indexed : (fresh : Environment Ty).Indexed where
  covers := by
    rintro v x ⟨state,found,_⟩
    cases found
  sorted x := List.Pairwise.nil

theorem uses_state : x ∈ (env.state v).knowledge.tests ↔ x ∈ env.uses v := by
  unfold state uses
  cases found : env.vars v with
  | none => simp [VariableState.fresh,TestedKnowledge.empty,KnowledgeFact.empty,TestedKnowledge.tests,KnowledgeFact.tests]
  | some state => simp

theorem uses_set_self {state : VariableState Ty} : x ∈ (env.set v state).uses v ↔ x ∈ state.knowledge.tests := by
  unfold set uses
  simp

theorem uses_set_of_ne {state : VariableState Ty} (ne : w ≠ v) : (env.set v state).uses w = env.uses w := by
  unfold set uses
  dsimp only
  rw [Function.update_of_ne ne]

-- The types and flags of a local are not knowledge.
theorem Indexed.set (inv : env.Indexed) {state : VariableState Ty} (same : state.knowledge = (env.state v).knowledge) :
    (env.set v state).Indexed where
  sorted := inv.sorted
  covers := by
    refine inv.covers.mono (fun _ => subset_rfl) ?_
    intro w x used
    by_cases own : w = v
    · subst own
      rw [uses_set_self,same,uses_state] at used
      exact used
    · rwa [uses_set_of_ne own] at used

theorem Indexed.setType (inv : env.Indexed) (type : Option Ty) : (env.setType v type).Indexed := inv.set rfl

-- One variable's knowledge changes, and what it gains is entered.
theorem Indexed.change (inv : env.Indexed) {change : Change Ty} (enters : change.Enters v) :
    Holds Indexed (env.change v change) := by
  intro env' ran
  obtain ⟨state,found,rfl⟩ := Option.map_eq_some_iff.mp ran
  refine ⟨?_,enters.sorted _ _ inv.sorted⟩
  refine inv.covers.gain (enters.more _ _) ?_
  intro w x used
  by_cases own : w = v
  · subst own
    have member : x ∈ (change state.knowledge env.typeTestsWithVar).1.tests := uses_set_self.mp used
    exact (enters.entered _ _ x member).imp_left fun old => ⟨state,found,old⟩
  · left
    have same := @uses_set_of_ne Ty env v w {state with knowledge := (change state.knowledge env.typeTestsWithVar).1} own
    exact same ▸ used

theorem Indexed.when (inv : env.Indexed) {condition : Bool} {action : Environment Ty → Option (Environment Ty)}
    (kept : ∀ e : Environment Ty, e.Indexed → Holds Indexed (action e)) : Holds Indexed (env.when condition action) := by
  unfold Environment.when
  cases condition with
  | true => exact kept env inv
  | false => exact holds_some inv

theorem references_iff {tests : TypeTests Ty} : typeTestReferencesVar tests v = true ↔ v ∈ tests.map Prod.fst := by
  unfold typeTestReferencesVar
  simp

theorem mem_filtered {tests : TypeTests Ty} : x ∈ (tests.filter (·.1 ≠ v)).map Prod.fst ↔ x ∈ tests.map Prod.fst ∧ x ≠ v := by
  constructor
  · intro member
    obtain ⟨entry,kept,rfl⟩ := List.mem_map.mp member
    obtain ⟨listed,other⟩ := List.mem_filter.mp kept
    exact ⟨List.mem_map_of_mem listed,of_decide_eq_true other⟩
  · rintro ⟨member,other⟩
    obtain ⟨entry,listed,rfl⟩ := List.mem_map.mp member
    exact List.mem_map_of_mem (List.mem_filter.mpr ⟨listed,decide_eq_true other⟩)

theorem mem_removed {fact : KnowledgeFact Ty} : x ∈ (fact.removeReferencesToVar v).tests ↔ x ∈ fact.tests ∧ x ≠ v := by
  unfold KnowledgeFact.removeReferencesToVar
  by_cases referenced : (typeTestReferencesVar fact.yesTypeTests v || typeTestReferencesVar fact.noTypeTests v) = true
  · rw [if_pos referenced,KnowledgeFact.tests,List.mem_append,mem_filtered,mem_filtered,← or_and_right,← List.mem_append]
    rfl
  · rw [if_neg referenced]
    refine ⟨?_,And.left⟩
    intro member
    refine ⟨member,?_⟩
    rintro rfl
    apply referenced
    rw [Bool.or_eq_true,references_iff,references_iff]
    exact List.mem_append.mp member

theorem change_removed {env' : Environment Ty} (ran : env.change w (removeReferencesToVar v) = some env') :
    env'.typeTestsWithVar = env.typeTestsWithVar ∧ (∀ u, env'.uses u ⊆ env.uses u) ∧ v ∉ env'.uses w := by
  obtain ⟨state,found,rfl⟩ := Option.map_eq_some_iff.mp ran
  have left : ∀ x, x ∈ (removeReferencesToVar v state.knowledge env.typeTestsWithVar).1.tests → x ∈ state.knowledge.tests ∧ x ≠ v := by
    intro x member
    rcases List.mem_append.mp member with truthy | falsy
    · obtain ⟨listed,other⟩ := mem_removed.mp truthy
      exact ⟨List.mem_append_left _ listed,other⟩
    · obtain ⟨listed,other⟩ := mem_removed.mp falsy
      exact ⟨List.mem_append_right _ listed,other⟩
  refine ⟨rfl,?_,?_⟩
  · intro u x used
    by_cases own : u = w
    · subst own
      exact ⟨state,found,(left x (uses_set_self.mp used)).1⟩
    · have same := @uses_set_of_ne Ty env w u {state with knowledge := (removeReferencesToVar v state.knowledge env.typeTestsWithVar).1} own
      exact same ▸ used
  · intro used
    exact (left v (uses_set_self.mp used)).2 rfl

-- The loop forgets the reassigned local in all that are needed and keeps the entries of the others.
theorem clearLoop_spec {list replacement kept : List LocalRef} {env' : Environment Ty}
    (ran : clearLoop isNeeded v list env replacement = some (env',kept)) :
    kept = replacement ++ list.filter (fun w => !isNeeded w) ∧ env'.typeTestsWithVar = env.typeTestsWithVar ∧
      (∀ u, env'.uses u ⊆ env.uses u) ∧ ∀ w ∈ list, isNeeded w = true → v ∉ env'.uses w := by
  induction list generalizing env replacement with
  | nil =>
    cases ran
    exact ⟨(List.append_nil _).symm,rfl,fun _ => subset_rfl,fun _ => (nomatch ·)⟩
  | cons w rest ih =>
    rw [clearLoop] at ran
    by_cases needed : isNeeded w = true
    · rw [if_pos needed] at ran
      obtain ⟨middle,removed,ran⟩ := Option.bind_eq_some_iff.mp ran
      obtain ⟨same,fewer,gone⟩ := change_removed removed
      obtain ⟨entries,same',fewer',gone'⟩ := ih ran
      refine ⟨?_,same'.trans same,fun u => (fewer' u).trans (fewer u),?_⟩
      · rw [entries,List.filter_cons_of_neg (by rw [needed]; exact Bool.false_ne_true)]
      · intro u member
        rcases List.mem_cons.mp member with rfl | later
        · exact fun _ used => gone (fewer' u used)
        · exact gone' u later
    · rw [if_neg needed] at ran
      obtain ⟨entries,same,fewer,gone⟩ := ih ran
      refine ⟨?_,same,fewer,?_⟩
      · rw [entries,List.filter_cons_of_pos (by rw [Bool.eq_false_iff.mpr needed]; rfl),List.append_assoc]
        rfl
      · intro u member required
        rcases List.mem_cons.mp member with rfl | later
        · exact absurd required needed
        · exact gone u later required

theorem Indexed.forgetTruth (inv : env.Indexed) : Holds Indexed (env.forgetTruth v) := by
  intro env' ran
  obtain ⟨state,found,rfl⟩ := Option.map_eq_some_iff.mp ran
  apply inv.set
  unfold Environment.state
  rw [found]
  rfl

theorem Indexed.clearKnowledge (inv : env.Indexed) : Holds Indexed (env.clearKnowledge isNeeded v) := by
  unfold Environment.clearKnowledge
  dsimp only
  split
  · exact inv.forgetTruth
  · apply holds_lookup
    rintro ⟨middle,kept⟩ ran
    obtain ⟨entries,same,fewer,gone⟩ := clearLoop_spec ran
    rw [List.nil_append] at entries
    apply Indexed.forgetTruth
    constructor
    · refine inv.covers.prune v ?_ fewer ?_
      · intro k other
        ext w
        change w ∈ (middle.typeTestsWithVar.replace v kept).get k ↔ _
        rw [get_replace_of_ne other,same]
        rfl
      · intro w listed dropped
        apply gone w listed
        by_contra free
        apply dropped
        change w ∈ (middle.typeTestsWithVar.replace v kept).get v
        rw [get_replace_self,entries]
        exact List.mem_filter.mpr ⟨listed,by rw [Bool.eq_false_iff.mpr free]; rfl⟩
    · have sorted : middle.typeTestsWithVar.Sorted := same ▸ inv.sorted
      apply sorted.replace
      rw [entries]
      exact (inv.sorted v).sublist List.filter_sublist

end Environment
end Environments
end Infer
