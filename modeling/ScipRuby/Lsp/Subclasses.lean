import ScipRuby.Ancestry.Preservation

namespace Lsp
open Ancestry Relation
variable {gs : GlobalState} {roots : List ClassOrModuleRef} {pending : ClassOrModuleRef → Prop}
variable {c d m s : ClassOrModuleRef} {fuel : Nat}

-- The two vectors of bool that a search shares with all its calls.
structure Memo where
  memoized : ClassOrModuleRef → Bool
  visited : ClassOrModuleRef → Bool

namespace Memo

def visit (memo : Memo) (s : ClassOrModuleRef) : Memo := {memo with visited := Function.update memo.visited s true}

def record (memo : Memo) (s : ClassOrModuleRef) (found : Bool) : Memo :=
  {memo with memoized := Function.update memo.memoized s found}

variable {memo : Memo} {x : ClassOrModuleRef} {found : Bool}

@[simp] theorem visit_memoized : (memo.visit s).memoized = memo.memoized := rfl
@[simp] theorem record_visited : (memo.record s found).visited = memo.visited := rfl
@[simp] theorem visit_self : (memo.visit s).visited s = true := Function.update_self ..
@[simp] theorem record_self : (memo.record s found).memoized s = found := Function.update_self ..

theorem visit_other (other : x ≠ s) : (memo.visit s).visited x = memo.visited x := Function.update_of_ne other ..
theorem record_other (other : x ≠ s) : (memo.record s found).memoized x = memo.memoized x := Function.update_of_ne other ..

theorem visit_keeps (seen : memo.visited x = true) : (memo.visit s).visited x = true := by
  by_cases same : x = s
  · rw [same,visit_self]
  · rw [visit_other same,seen]

end Memo

def isSubclassOrMixin (gs : GlobalState) : Nat → ClassOrModuleRef → Memo → Option (Bool × Memo)
  | 0,_,_ => none
  | fuel + 1,s,memo =>
    -- don't visit the same class twice
    if memo.visited s then some (memo.memoized s,memo)
    else
      let memo := memo.visit s
      if (gs.mixins s).any memo.memoized then some (true,memo.record s true)
      else
        match gs.superClass s with
        | some superClass => (isSubclassOrMixin gs fuel superClass memo).map fun (found,memo) => (found,memo.record s found)
        | none => some (memo.memoized s,memo)

def seeded (roots : List ClassOrModuleRef) : Memo :=
  roots.foldl (fun memo root => (memo.record root true).visit root) ⟨fun _ => false,fun _ => false⟩

def subclassesRound (gs : GlobalState) (fuel : Nat) (skip : ClassOrModuleRef → Bool) :
    List ClassOrModuleRef × Memo → ClassOrModuleRef → Option (List ClassOrModuleRef × Memo)
  | (subclasses,memo),s =>
    if skip s then some (subclasses,memo)
    else (isSubclassOrMixin gs fuel s memo).map fun (found,memo) => (if found then subclasses ++ [s] else subclasses,memo)

-- The loop over the table, from its second entry on.
def getSubclasses (gs : GlobalState) (roots : List ClassOrModuleRef) (skip : ClassOrModuleRef → Bool) :
    Option (List ClassOrModuleRef) :=
  ((List.range' 1 (gs.classAndModulesUsed - 1)).foldlM (subclassesRound gs (gs.classAndModulesUsed + 1) skip)
    ([],seeded roots)).map Prod.fst

def getSubclassesSlow (gs : GlobalState) (root : ClassOrModuleRef) (includeRoot : Bool) : Option (List ClassOrModuleRef) :=
  getSubclasses gs [root] fun s => !includeRoot && s == root

def getSubclassesSlowMulti (gs : GlobalState) (roots : List ClassOrModuleRef) : Option (List ClassOrModuleRef) :=
  getSubclasses gs roots fun _ => false

-- Every class has been linearized, and superclasses do not go round.
structure Linearized (gs : GlobalState) : Prop where
  computed : ∀ c, gs.Exists c → gs.isLinearizationComputed c = true
  inside : ∀ c d, Edge gs c d → gs.Exists c ∧ gs.Exists d
  acyclic : ∀ c, ¬ TransGen (SuperEdge gs) c c

-- What derivesFrom looks for in a linearized state.
inductive Derives (gs : GlobalState) : ClassOrModuleRef → ClassOrModuleRef → Prop
  | mixin {c d : ClassOrModuleRef} (member : d ∈ gs.mixins c) : Derives gs c d
  | superClass {c d : ClassOrModuleRef} (found : gs.superClass c = some d) : Derives gs c d
  | above {c s d : ClassOrModuleRef} (found : gs.superClass c = some s) (derives : Derives gs s d) : Derives gs c d

def Under (gs : GlobalState) (roots : List ClassOrModuleRef) (c : ClassOrModuleRef) : Prop :=
  c ∈ roots ∨ ∃ r ∈ roots, Derives gs c r

-- Mixing in a class below a root puts a class below a root.
def Flattened (gs : GlobalState) (roots : List ClassOrModuleRef) : Prop :=
  ∀ c, ∀ m ∈ gs.mixins c, Under gs roots m → Under gs roots c

section Deriving

theorem derives_iff : Derives gs c d ↔ d ∈ gs.mixins c ∨ ∃ s, gs.superClass c = some s ∧ (d = s ∨ Derives gs s d) := by
  constructor
  · rintro (member | found | ⟨found,derives⟩)
    · exact .inl member
    · exact .inr ⟨d,found,.inl rfl⟩
    · exact .inr ⟨_,found,.inr derives⟩
  · rintro (member | ⟨s,found,rfl | derives⟩)
    · exact .mixin member
    · exact .superClass found
    · exact .above found derives

theorem under_iff : Under gs roots c ↔
    c ∈ roots ∨ (∃ r ∈ roots, r ∈ gs.mixins c) ∨ ∃ s, gs.superClass c = some s ∧ Under gs roots s := by
  constructor
  · rintro (member | ⟨r,root,derives⟩)
    · exact .inl member
    · obtain member | ⟨s,found,rfl | derives'⟩ := derives_iff.mp derives
      · exact .inr (.inl ⟨r,root,member⟩)
      · exact .inr (.inr ⟨r,found,.inl root⟩)
      · exact .inr (.inr ⟨s,found,.inr ⟨r,root,derives'⟩⟩)
  · rintro (member | ⟨r,root,member⟩ | ⟨s,found,root | ⟨r,root,derives⟩⟩)
    · exact .inl member
    · exact .inr ⟨r,root,.mixin member⟩
    · exact .inr ⟨s,root,.superClass found⟩
    · exact .inr ⟨r,root,.above found derives⟩

theorem Linearized.descends (linearized : Linearized gs) (c d : ClassOrModuleRef) (edge : SuperEdge gs c d) :
    height (SuperEdge gs) gs.classAndModulesUsed d < height (SuperEdge gs) gs.classAndModulesUsed c :=
  height_lt (fun c d edge => (linearized.inside c d (.inl edge)).2.2) linearized.acyclic edge

theorem Linearized.fueled (c : ClassOrModuleRef) :
    height (SuperEdge gs) gs.classAndModulesUsed c < gs.classAndModulesUsed + 1 :=
  Nat.lt_succ_of_le (height_le _)

-- An entry outside the table has no mixins.
theorem Linearized.looksUp (linearized : Linearized gs) (fuel : Nat) (c d : ClassOrModuleRef) :
    (if gs.isLinearizationComputed c then some (decide (d ∈ gs.mixins c))
      else (gs.mixins c).anyM fun a => if a = d then some true else gs.derivesFrom fuel a d) =
    some (decide (d ∈ gs.mixins c)) := by
  split
  · rfl
  · rename_i waiting
    have none_ : gs.mixins c = [] := by
      apply List.eq_nil_iff_forall_not_mem.mpr
      intro m member
      exact waiting (linearized.computed c (linearized.inside c m (.inr member)).1)
    rw [none_]
    rfl

theorem derivesFrom_derives (linearized : Linearized gs)
    (enough : height (SuperEdge gs) gs.classAndModulesUsed c < fuel) :
    ∃ derived, gs.derivesFrom fuel c d = some derived ∧ (derived = true ↔ Derives gs c d) := by
  induction fuel generalizing c with
  | zero => cases enough
  | succ fuel ih =>
    rw [GlobalState.derivesFrom,linearized.looksUp,Option.bind_some,derives_iff]
    by_cases member : d ∈ gs.mixins c
    · exact ⟨true,by simp [member],by simp [member]⟩
    · rw [decide_eq_false member]
      cases superClass : gs.superClass c with
      | none => exact ⟨false,by simp,by simp [member]⟩
      | some s =>
        by_cases same : d = s
        · exact ⟨true,by simp [same],by simp [same]⟩
        · have lower := linearized.descends c s superClass
          obtain ⟨derived,result,holds⟩ := @ih s (by omega)
          exact ⟨derived,by simp [same,result],by simp [member,same,holds]⟩

theorem derivesFrom_true (linearized : Linearized gs) :
    gs.derivesFrom (gs.classAndModulesUsed + 1) c d = some true ↔ Derives gs c d := by
  obtain ⟨derived,result,holds⟩ := @derivesFrom_derives _ c d _ linearized (Linearized.fueled c)
  rw [result,Option.some_inj,holds]

end Deriving

section Recursion
variable {memo memo' : Memo} {found : Bool}

-- What has been visited is decided, but for the classes whose superclass is being asked.
structure Kept (gs : GlobalState) (roots : List ClassOrModuleRef) (pending : ClassOrModuleRef → Prop) (memo : Memo) : Prop where
  seen : ∀ x, memo.memoized x = true → memo.visited x = true
  rooted : ∀ r ∈ roots, memo.memoized r = true
  complete : ∀ x, memo.visited x = true → Under gs roots x → memo.memoized x = true ∨ pending x

structure Grows (memo memo' : Memo) : Prop where
  visited : ∀ x, memo.visited x = true → memo'.visited x = true
  memoized : ∀ x, memo.visited x = true → memo'.memoized x = memo.memoized x

theorem Grows.refl (memo : Memo) : Grows memo memo := ⟨fun _ => id,fun _ _ => rfl⟩

theorem Grows.trans {memo'' : Memo} (first : Grows memo memo') (second : Grows memo' memo'') : Grows memo memo'' :=
  ⟨fun x seen => second.visited x (first.visited x seen),
    fun x seen => (second.memoized x (first.visited x seen)).trans (first.memoized x seen)⟩

theorem Grows.visit (memo : Memo) (s : ClassOrModuleRef) : Grows memo (memo.visit s) :=
  ⟨fun _ => Memo.visit_keeps,fun _ _ => rfl⟩

theorem Grows.record (fresh : memo.visited s = false) (grows : Grows (memo.visit s) memo') :
    Grows memo (memo'.record s found) := by
  refine ⟨fun x seen => grows.visited x (Memo.visit_keeps seen),fun x seen => ?_⟩
  have other : x ≠ s := by
    rintro rfl
    rw [fresh] at seen
    cases seen
  rw [Memo.record_other other]
  exact grows.memoized x (Memo.visit_keeps seen)

-- A class is pending from its visit on until its result is recorded.
theorem Kept.visit (kept : Kept gs roots pending memo) : Kept gs roots (fun x => pending x ∨ x = s) (memo.visit s) := by
  refine ⟨fun x holds => Memo.visit_keeps (kept.seen x holds),kept.rooted,fun x seen under => ?_⟩
  by_cases same : x = s
  · exact .inr (.inr same)
  · rw [Memo.visit_other same] at seen
    exact (kept.complete x seen under).imp_right .inl

theorem Kept.record (kept : Kept gs roots (fun x => pending x ∨ x = s) memo) (seen : memo.visited s = true) (other : s ∉ roots)
    (complete : Under gs roots s → found = true) : Kept gs roots pending (memo.record s found) := by
  refine ⟨fun x holds => ?_,fun r root => ?_,fun x seen' under => ?_⟩
  · by_cases same : x = s
    · rw [same]
      exact seen
    · rw [Memo.record_other same] at holds
      exact kept.seen x holds
  · have apart : r ≠ s := fun same => other (same ▸ root)
    rw [Memo.record_other apart]
    exact kept.rooted r root
  · by_cases same : x = s
    · subst same
      rw [Memo.record_self]
      exact .inl (complete under)
    · rw [Memo.record_other same]
      exact (kept.complete x seen' under).imp_right fun waits => waits.resolve_right same

-- Roots have been visited before the loop starts.
theorem Kept.fresh (kept : Kept gs roots pending memo) (fresh : memo.visited s = false) : s ∉ roots := by
  intro root
  have seen := kept.seen s (kept.rooted s root)
  rw [fresh] at seen
  cases seen

-- A class that lists no memoized mixin can only be below a root by its superclass.
theorem Kept.above (kept : Kept gs roots pending memo) (fresh : memo.visited s = false)
    (missed : (gs.mixins s).any memo.memoized = false) (under : Under gs roots s) :
    ∃ superClass, gs.superClass s = some superClass ∧ Under gs roots superClass := by
  obtain root | ⟨r,root,member⟩ | found := under_iff.mp under
  · exact absurd root (kept.fresh fresh)
  · have hit := List.any_eq_true.mpr ⟨r,member,kept.rooted r root⟩
    rw [missed] at hit
    cases hit
  · exact found

structure Searched (gs : GlobalState) (roots : List ClassOrModuleRef) (pending : ClassOrModuleRef → Prop)
    (memo : Memo) (s : ClassOrModuleRef) (found : Bool) (memo' : Memo) : Prop where
  kept : Kept gs roots pending memo'
  grows : Grows memo memo'
  visited : memo'.visited s = true
  result : memo'.memoized s = found
  stays : Under gs roots s → ∀ x, memo'.visited x = true → memo.visited x = true ∨ Under gs roots x

theorem visits_one {x : ClassOrModuleRef} (under : Under gs roots s) (seen : (memo.visit s).visited x = true) :
    memo.visited x = true ∨ Under gs roots x := by
  by_cases same : x = s
  · exact .inr (same ▸ under)
  · rw [Memo.visit_other same] at seen
    exact .inl seen

-- The induction is on the fuel; superclasses do not lead back to a class that waits.
theorem isSubclassOrMixin_searched (linearized : Linearized gs)
    (enough : height (SuperEdge gs) gs.classAndModulesUsed s < fuel) (kept : Kept gs roots pending memo)
    (below : ∀ p, pending p → TransGen (SuperEdge gs) p s) :
    ∃ found memo', isSubclassOrMixin gs fuel s memo = some (found,memo') ∧ Searched gs roots pending memo s found memo' := by
  induction fuel generalizing s memo pending with
  | zero => cases enough
  | succ fuel ih =>
    rw [isSubclassOrMixin]
    cases fresh : memo.visited s with
    | true =>
      refine ⟨memo.memoized s,memo,rfl,kept,.refl memo,fresh,rfl,?_⟩
      exact fun _ x seen => .inl seen
    | false =>
      have other := kept.fresh fresh
      have waiting := kept.visit (s := s)
      rw [if_neg Bool.false_ne_true]
      dsimp only
      cases hit : (gs.mixins s).any (memo.visit s).memoized with
      | true =>
        refine ⟨true,_,rfl,waiting.record Memo.visit_self other fun _ => rfl,(Grows.refl _).record fresh,?_,?_,?_⟩
        · exact Memo.visit_self
        · exact Memo.record_self
        · exact fun under x seen => visits_one under seen
      | false =>
        have above := kept.above fresh hit
        rw [if_neg Bool.false_ne_true]
        cases superClass : gs.superClass s with
        | none =>
          have outside : ¬ Under gs roots s := by
            intro under
            obtain ⟨parent,found,_⟩ := above under
            rw [superClass] at found
            cases found
          refine ⟨_,_,rfl,⟨waiting.seen,waiting.rooted,fun x seen under => ?_⟩,Grows.visit memo s,Memo.visit_self,rfl,?_⟩
          · refine (waiting.complete x seen under).imp_right fun waits => waits.resolve_right ?_
            rintro rfl
            exact outside under
          · exact fun under => absurd under outside
        | some parent =>
          have edge : SuperEdge gs s parent := superClass
          have lower := linearized.descends s parent edge
          have below' : ∀ p, pending p ∨ p = s → TransGen (SuperEdge gs) p parent := by
            rintro p (waits | rfl)
            · exact (below p waits).tail edge
            · exact .single edge
          obtain ⟨found,memo',result,searched⟩ := ih (by omega) waiting below'
          have complete : Under gs roots s → found = true := by
            intro under
            obtain ⟨_,found',under'⟩ := above under
            obtain rfl := Option.some.inj (superClass.symm.trans found')
            rw [← searched.result]
            refine (searched.kept.complete parent searched.visited under').resolve_right fun waits => ?_
            exact linearized.acyclic parent (below' parent waits)
          have seen := searched.grows.visited s Memo.visit_self
          dsimp only
          rw [result]
          refine ⟨found,_,rfl,searched.kept.record seen other complete,searched.grows.record fresh,seen,Memo.record_self,?_⟩
          intro under x seen'
          obtain ⟨_,found',under'⟩ := above under
          obtain rfl := Option.some.inj (superClass.symm.trans found')
          obtain old | inside := searched.stays under' x seen'
          · exact visits_one under old
          · exact .inr inside

-- What is found is below a root, if mixing in never loses one.
theorem isSubclassOrMixin_sound (flattened : Flattened gs roots) (sound : ∀ x, memo.memoized x = true → Under gs roots x)
    (result : isSubclassOrMixin gs fuel s memo = some (found,memo')) :
    (found = true → Under gs roots s) ∧ ∀ x, memo'.memoized x = true → Under gs roots x := by
  induction fuel generalizing s memo found memo' with
  | zero => cases result
  | succ fuel ih =>
    have recorded : ∀ {memo : Memo} {found : Bool}, (∀ x, memo.memoized x = true → Under gs roots x) →
        (found = true → Under gs roots s) → ∀ x, (memo.record s found).memoized x = true → Under gs roots x := by
      intro memo found sound here x holds
      by_cases same : x = s
      · rw [same,Memo.record_self] at holds
        exact same ▸ here holds
      · rw [Memo.record_other same] at holds
        exact sound x holds
    rw [isSubclassOrMixin] at result
    split at result
    · cases result
      exact ⟨sound s,sound⟩
    · dsimp only at result
      split at result
      · rename_i hit
        obtain ⟨m,member,holds⟩ := List.any_eq_true.mp hit
        have under := flattened s m member (sound m holds)
        cases result
        exact ⟨fun _ => under,recorded sound fun _ => under⟩
      · split at result
        · rename_i parent superClass
          obtain ⟨⟨found',memo''⟩,inner,same⟩ := Option.map_eq_some_iff.mp result
          have visiting : ∀ x, (memo.visit s).memoized x = true → Under gs roots x := sound
          obtain ⟨here,sound'⟩ := ih visiting inner
          have under : found' = true → Under gs roots s :=
            fun holds => under_iff.mpr (.inr (.inr ⟨parent,superClass,here holds⟩))
          cases same
          exact ⟨under,recorded sound' under⟩
        · cases result
          exact ⟨sound s,sound⟩

-- Once a mixin has been found, every class that lists it is.
def Caught (m c : ClassOrModuleRef) (memo : Memo) : Prop :=
  memo.visited m = true ∧ memo.memoized m = true ∧ (memo.visited c = true → memo.memoized c = true)

theorem isSubclassOrMixin_caught (member : m ∈ gs.mixins c) (caught : Caught m c memo)
    (result : isSubclassOrMixin gs fuel s memo = some (found,memo')) : Caught m c memo' := by
  induction fuel generalizing s memo found memo' with
  | zero => cases result
  | succ fuel ih =>
    rw [isSubclassOrMixin] at result
    split at result
    · cases result
      exact caught
    · rename_i fresh
      obtain ⟨seen,holds,listed⟩ := caught
      have apart : m ≠ s := fun same => fresh (same ▸ seen)
      have seen' : (memo.visit s).visited m = true := Memo.visit_keeps seen
      dsimp only at result
      split at result
      · cases result
        refine ⟨seen',by rwa [Memo.record_other apart],fun seen'' => ?_⟩
        by_cases same : c = s
        · rw [same,Memo.record_self]
        · rw [Memo.record_other same]
          rw [Memo.record_visited,Memo.visit_other same] at seen''
          exact listed seen''
      · rename_i missed
        have other : c ≠ s := by
          rintro rfl
          exact missed (List.any_eq_true.mpr ⟨m,member,holds⟩)
        have visiting : Caught m c (memo.visit s) := by
          refine ⟨seen',holds,fun seen'' => ?_⟩
          rw [Memo.visit_other other] at seen''
          exact listed seen''
        split at result
        · obtain ⟨⟨found',memo''⟩,inner,same⟩ := Option.map_eq_some_iff.mp result
          obtain ⟨seen₁,holds₁,listed₁⟩ := ih visiting inner
          cases same
          refine ⟨seen₁,by rwa [Memo.record_other apart],?_⟩
          rwa [Memo.record_other other]
        · cases result
          exact visiting

end Recursion

section Loop
variable {memo : Memo} {skip : ClassOrModuleRef → Bool}

theorem seeded_tables (x : ClassOrModuleRef) :
    (seeded roots).memoized x = decide (x ∈ roots) ∧ (seeded roots).visited x = decide (x ∈ roots) := by
  have run : ∀ memo : Memo, memo.memoized x = memo.visited x →
      let memo' := roots.foldl (fun memo root => (memo.record root true).visit root) memo
      memo'.memoized x = (memo.memoized x || decide (x ∈ roots)) ∧ memo'.visited x = (memo.visited x || decide (x ∈ roots)) := by
    induction roots with
    | nil => simp
    | cons root rest ih =>
      intro memo same
      by_cases here : x = root
      · subst here
        have both : ((memo.record x true).visit x).memoized x = true ∧ ((memo.record x true).visit x).visited x = true :=
          ⟨Memo.record_self,Memo.visit_self⟩
        have later := ih _ (both.1.trans both.2.symm)
        simpa [both] using later
      · have both : ((memo.record root true).visit root).memoized x = memo.memoized x ∧
            ((memo.record root true).visit root).visited x = memo.visited x :=
          ⟨Memo.record_other here,Memo.visit_other here⟩
        have later := ih ((memo.record root true).visit root) (by rw [both.1,both.2,same])
        simpa [both,here] using later
  simpa [seeded] using run ⟨fun _ => false,fun _ => false⟩ rfl

theorem seeded_kept : Kept gs roots (fun _ => False) (seeded roots) := by
  refine ⟨fun x holds => ?_,fun r root => ?_,fun x seen under => ?_⟩
  · rw [(seeded_tables x).2,← (seeded_tables x).1]
    exact holds
  · rw [(seeded_tables r).1]
    exact decide_eq_true root
  · rw [(seeded_tables x).1,← (seeded_tables x).2]
    exact .inl seen

-- The list is what has been found among the classes that the loop has passed.
structure Listed (gs : GlobalState) (roots : List ClassOrModuleRef) (skip : ClassOrModuleRef → Bool)
    (done : List ClassOrModuleRef) (state : List ClassOrModuleRef × Memo) : Prop where
  kept : Kept gs roots (fun _ => False) state.2
  visited : ∀ s ∈ done, skip s = false → state.2.visited s = true
  list : state.1 = done.filter fun s => !skip s && state.2.memoized s
  sound : Flattened gs roots → ∀ x, state.2.memoized x = true → Under gs roots x
  caught : ∀ c m, m ∈ gs.mixins c → Under gs roots m → ¬ Under gs roots c → done.head? = some m → Caught m c state.2
  start : done = [] → state.2 = seeded roots

theorem Listed.pass {done : List ClassOrModuleRef} {state : List ClassOrModuleRef × Memo} (listed : Listed gs roots skip done state)
    (skips : ∀ s, skip s = true → s ∈ roots) (passed : skip s = true) : Listed gs roots skip (done ++ [s]) state := by
  refine ⟨listed.kept,?_,?_,listed.sound,?_,by simp⟩
  · intro x member other
    obtain old | new := List.mem_append.mp member
    · exact listed.visited x old other
    · obtain rfl := List.mem_singleton.mp new
      rw [passed] at other
      cases other
  · rw [List.filter_append,← listed.list]
    simp [passed]
  · intro c m member under outside first
    cases done with
    | nil =>
      -- A root that a class mixes in has that class below it.
      obtain rfl : s = m := by simpa using first
      exact absurd (.inr ⟨s,skips s passed,.mixin member⟩) outside
    | cons head rest => exact listed.caught c m member under outside (by simpa using first)

theorem subclassesRound_listed (linearized : Linearized gs) (skips : ∀ s, skip s = true → s ∈ roots)
    {done : List ClassOrModuleRef} {state : List ClassOrModuleRef × Memo} (listed : Listed gs roots skip done state) :
    ∃ state', subclassesRound gs (gs.classAndModulesUsed + 1) skip state s = some state' ∧
      Listed gs roots skip (done ++ [s]) state' := by
  obtain ⟨subclasses,memo⟩ := state
  rw [subclassesRound]
  cases passed : skip s with
  | true => exact ⟨_,rfl,listed.pass skips passed⟩
  | false =>
    obtain ⟨found,memo',result,searched⟩ :=
      isSubclassOrMixin_searched linearized (Linearized.fueled s) listed.kept fun _ waits => waits.elim
    rw [result]
    refine ⟨_,rfl,searched.kept,?_,?_,?_,?_,by simp⟩
    · intro x member other
      obtain old | new := List.mem_append.mp member
      · exact searched.grows.visited x (listed.visited x old other)
      · obtain rfl := List.mem_singleton.mp new
        exact searched.visited
    · have before : (done.filter fun x => !skip x && memo'.memoized x) = subclasses := by
        refine Eq.trans ?_ listed.list.symm
        apply List.filter_congr
        intro x member
        cases other : skip x with
        | true => rfl
        | false => rw [searched.grows.memoized x (listed.visited x member other)]
      rw [List.filter_append,before,List.filter_singleton,passed,searched.result]
      cases found <;> simp
    · exact fun flattened => (isSubclassOrMixin_sound flattened (listed.sound flattened) result).2
    · intro c m member under outside first
      cases done with
      | nil =>
        obtain rfl : s = m := by simpa using first
        have found_ := (searched.kept.complete s searched.visited under).resolve_right id
        refine ⟨searched.visited,found_,fun seen => ?_⟩
        obtain old | inside := searched.stays under c seen
        · rw [listed.start rfl,(seeded_tables c).2] at old
          exact absurd (.inl (of_decide_eq_true old)) outside
        · exact absurd inside outside
      | cons head rest =>
        exact isSubclassOrMixin_caught member (listed.caught c m member under outside (by simpa using first)) result

-- The whole loop.
theorem getSubclasses_run (linearized : Linearized gs) (skips : ∀ s, skip s = true → s ∈ roots) :
    ∃ subclasses memo, getSubclasses gs roots skip = some subclasses ∧
      Listed gs roots skip (List.range' 1 (gs.classAndModulesUsed - 1)) (subclasses,memo) := by
  have start : Listed gs roots skip [] ([],seeded roots) := by
    refine ⟨seeded_kept,by simp,rfl,?_,by simp,fun _ => rfl⟩
    intro _ x holds
    rw [(seeded_tables x).1] at holds
    exact .inl (of_decide_eq_true holds)
  obtain ⟨⟨subclasses,memo⟩,run,listed⟩ := foldlM_invariant (Listed gs roots skip)
    (fun done s rest state _ listed => subclassesRound_listed linearized skips listed) start
  exact ⟨subclasses,memo,by rw [getSubclasses,run]; rfl,listed⟩

end Loop

end Lsp
