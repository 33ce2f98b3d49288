import ScipRuby.Infer.IndexInvariant

namespace Infer
open ReverseIndex PartialRuns Traces

namespace Environment
variable {Ty Class : Type} {T : TypeOps Ty Class} {env : Environment Ty} {isNeeded : LocalRef → Bool}

section Knowledge
variable {v w : LocalRef}

theorem Indexed.addYes (inv : env.Indexed) (side : Side) (ref : LocalRef) (type : Ty) :
    Holds Indexed (env.change v (addYesTypeTest side v ref type)) := inv.change (addYesTypeTest_enters ref type)

theorem Indexed.addNo (inv : env.Indexed) (side : Side) (ref : LocalRef) (type : Ty) :
    Holds Indexed (env.change v (addNoTypeTest side v ref type)) := inv.change (addNoTypeTest_enters ref type)

theorem Indexed.addBoth (inv : env.Indexed) (yes no : Side) (ref ref' : LocalRef) (type type' : Ty) :
    Holds Indexed (env.change v (addYesTypeTest yes v ref type) >>= fun e => e.change v (addNoTypeTest no v ref' type')) :=
  (inv.addYes yes ref type).bind fun _ inv => inv.addNo no ref' type'

theorem Indexed.fillNil (inv : env.Indexed) (v : LocalRef) : (env.fillNil T v).Indexed := inv.set rfl

theorem Indexed.propagateKnowledge (inv : env.Indexed) : Holds Indexed (env.propagateKnowledge T isNeeded v w) := by
  unfold Environment.propagateKnowledge
  split
  · have touched : (env.set w (env.state w)).Indexed := inv.set rfl
    have started : ((env.set w (env.state w)).set v {(env.set w (env.state w)).state v with
      knownTruthy := ((env.set w (env.state w)).state w).knownTruthy}).Indexed := touched.set rfl
    have filled := (started.fillNil (T := T) w).fillNil (T := T) v
    refine (filled.change (replaceKnowledge_enters _)).bind ?_
    intro _ inv
    refine (inv.addNo .truthy w T.falsyTypes).bind ?_
    intro _ inv
    refine (inv.addYes .falsy w T.falsyTypes).bind ?_
    intro _ inv
    refine (inv.addNo .truthy v T.falsyTypes).bind ?_
    intro _ inv
    exact inv.addYes .falsy v T.falsyTypes
  · exact holds_some inv

theorem Indexed.updateKnowledgeKindOf {ref : LocalRef} {fun_ : FunName} {rounds : Nat} {klassType : Ty} (inv : env.Indexed) :
    Holds Indexed (env.updateKnowledgeKindOf T v ref fun_ rounds klassType) := by
  induction rounds generalizing klassType with
  | zero => exact holds_none
  | succ rounds ih =>
    rw [Environment.updateKnowledgeKindOf]
    refine holds_lookup ?_
    intro _ _
    cases T.getRepresentedClass klassType with
    | some klass =>
      dsimp only
      split
      · exact holds_some inv
      · refine (inv.addYes .truthy ref _).bind ?_
        exact fun _ inv => inv.when fun _ inv => inv.addNo .falsy ref _
    | none =>
      dsimp only
      cases T.attachedClass klassType with
      | some instanceTy => exact inv.when fun _ inv => inv.addYes .truthy ref instanceTy
      | none =>
        dsimp only
        cases T.upperBound klassType with
        | some upperBound => exact ih
        | none => exact holds_some inv

theorem Indexed.updateBang (inv : env.Indexed) : Holds Indexed (env.updateBang T v w) := by
  have changed : Holds Indexed (env.when (env.vars w).isSome fun env => do
      let env ← env.change v (replaceTruthy v (env.state w).knowledge.falsy)
      let env ← env.change v (replaceFalsy v (env.state w).knowledge.truthy)
      let env ← env.change w (addYesTypeTest .truthy w v T.falsyTypes)
      env.change w (addNoTypeTest .falsy w v T.falsyTypes)) := by
    refine inv.when ?_
    intro _ inv
    refine (inv.change (replaceSide_enters _)).bind ?_
    intro _ inv
    refine (inv.change (replaceSide_enters _)).bind ?_
    exact fun _ inv => inv.addBoth .truthy .falsy v v T.falsyTypes T.falsyTypes
  exact changed.bind fun _ inv => inv.addBoth .truthy .falsy w w T.falsyTypes T.falsyTypes

theorem Indexed.updateEq (inv : env.Indexed) (truthy falsy : Side) (tested : LocalRef) (type : Ty) :
    Holds Indexed (env.updateEq T v truthy falsy tested type) := by
  refine inv.when ?_
  intro _ inv
  refine (inv.addYes truthy tested type).bind ?_
  exact fun _ inv => inv.when fun _ inv => inv.addNo falsy tested type

theorem Indexed.updateLess {recvType argType : Ty} {isLeq : Bool} (inv : env.Indexed) :
    Holds Indexed (env.updateLess T v w recvType argType isLeq) := by
  unfold Environment.updateLess
  split
  · exact holds_some inv
  · split
    · exact holds_some inv
    · refine (inv.addYes .truthy w _).bind ?_
      exact fun _ inv => inv.when fun _ inv => inv.addNo .falsy w _

theorem Indexed.updateMatchArray {matched : Ty} (inv : env.Indexed) : Holds Indexed (env.updateMatchArray T v w matched) := by
  unfold Environment.updateMatchArray
  split
  · exact holds_some inv
  · exact inv.addBoth .truthy .falsy w w _ _

theorem Indexed.updateKnowledge {rounds : Nat} {send : Send Ty} (inv : env.Indexed) :
    Holds Indexed (env.updateKnowledge T isNeeded rounds v send) := by
  unfold Environment.updateKnowledge
  split
  · exact holds_some inv
  · refine holds_lookup ?_
    intro _ _
    split
    · exact inv.updateBang
    · exact inv.addBoth .truthy .falsy _ _ _ _
    · exact inv.addNo .falsy _ _
    · exact inv.addNo .truthy _ _
    · exact holds_some inv
    · exact inv.updateKnowledgeKindOf
    · exact inv.updateKnowledgeKindOf
    · exact inv.updateKnowledgeKindOf
    · exact (inv.updateEq .truthy .falsy _ _).bind fun _ inv => inv.updateEq .truthy .falsy _ _
    · exact (inv.updateEq .truthy .falsy _ _).bind fun _ inv => inv.updateEq .truthy .falsy _ _
    · exact (inv.updateEq .falsy .truthy _ _).bind fun _ inv => inv.updateEq .falsy .truthy _ _
    · refine inv.updateKnowledgeKindOf.bind ?_
      exact fun _ inv => inv.when fun _ inv => inv.addBoth .truthy .falsy _ _ _ _
    · exact inv.updateLess
    · exact inv.updateLess
    · exact inv.updateMatchArray
    · exact holds_none
    · exact holds_some inv

end Knowledge

section Flow
variable {other : Environment Ty} {vars : Vars Ty} {bb : BasicBlock} {var : LocalRef}

theorem state_of_found {state : VariableState Ty} (found : env.vars var = some state) : env.state var = state := by
  unfold Environment.state
  rw [found]
  rfl

theorem Indexed.mergeFact {side : Side} {possible needed : Bool} {fact : KnowledgeFact Ty} (inv : env.Indexed) :
    Holds Indexed (mergeFact T side possible other vars bb needed fact var env) := by
  refine inv.when ?_
  intro _ inv
  refine holds_lookup ?_
  exact fun otherFact _ => inv.change (mergeSide_enters otherFact)

theorem Indexed.mergeVar (inv : env.Indexed) : Holds Indexed (mergeVar T isNeeded other vars bb env var) := by
  unfold Environment.mergeVar
  refine holds_lookup ?_
  intro state found
  refine holds_lookup ?_
  intro merged made
  have same : merged.knowledge = (env.state var).knowledge := by
    rw [state_of_found found]
    unfold mergeState at made
    split at made
    · obtain ⟨_,_,rfl⟩ := Option.map_eq_some_iff.mp made
      rfl
    · cases made
      rfl
  have placed : (env.set var merged).Indexed := inv.set same
  split
  · exact holds_some placed
  · refine holds_lookup ?_
    intro otherType _
    exact placed.mergeFact.bind fun _ inv => inv.mergeFact

theorem Indexed.mergeWith {own : List LocalRef} (inv : env.Indexed) :
    Holds Indexed (mergeWith T isNeeded other vars bb own env) :=
  holds_foldlM (P := Indexed) ⟨inv.covers,inv.sorted⟩ fun _ _ inv => inv.mergeVar

theorem Indexed.populateVar (inv : env.Indexed) : Holds Indexed (populateVar T other env var) := by
  unfold Environment.populateVar
  refine holds_lookup ?_
  intro state found
  have placed : (env.set var {state with type := (other.getRefInfo T var).type}).Indexed := by
    apply inv.set
    rw [state_of_found found]
  refine (placed.change (replaceKnowledge_enters _)).bind ?_
  intro changed inv
  refine holds_lookup ?_
  intro state found
  apply holds_some
  apply inv.set
  rw [state_of_found found]

theorem Indexed.populateFrom {own : List LocalRef} (inv : env.Indexed) : Holds Indexed (populateFrom T other own env) :=
  holds_foldlM (P := Indexed) ⟨inv.covers,inv.sorted⟩ fun _ _ inv => inv.populateVar

theorem Indexed.processBinding {rounds : Nat} {type : Ty} {value : Instruction Ty} (inv : env.Indexed) :
    Holds Indexed (env.processBinding T isNeeded rounds var type value) := by
  unfold Environment.processBinding
  refine (inv.setType (some type)).clearKnowledge.bind ?_
  intro _ inv
  cases value with
  | send send => exact inv.updateKnowledge
  | ident what => exact inv.propagateKnowledge
  | loadArg isBlock declared => exact inv.when fun _ inv => inv.addNo .falsy var T.falseClass
  | other => exact holds_some inv

theorem Indexed.initializeBasicBlockArgs {args : List LocalRef} (inv : env.Indexed) : (env.initializeBasicBlockArgs args).Indexed := by
  unfold Environment.initializeBasicBlockArgs
  induction args generalizing env with
  | nil => exact inv
  | cons arg args ih => exact ih (inv.setType none)

theorem Indexed.setUninitializedVarsToNil (inv : env.Indexed) : (env.setUninitializedVarsToNil T).Indexed where
  sorted := inv.sorted
  covers := by
    refine inv.covers.mono (fun _ => subset_rfl) ?_
    rintro v x ⟨state,filled,member⟩
    obtain ⟨before,found,rfl⟩ := Option.map_eq_some_iff.mp filled
    exact ⟨before,found,member⟩

theorem Indexed.setDead (inv : env.Indexed) (isDead : Bool) : ({env with isDead := isDead} : Environment Ty).Indexed :=
  ⟨inv.covers,inv.sorted⟩

theorem Indexed.assumeYes {filter : LocalRef → Bool} {tests : TypeTests Ty} (inv : env.Indexed) :
    Holds Indexed (env.assumeYes T filter tests) := by
  induction tests generalizing env with
  | nil => exact holds_some inv
  | cons entry rest ih =>
    obtain ⟨var,tested⟩ := entry
    rw [Environment.assumeYes]
    split
    · exact ih inv
    · refine holds_lookup ?_
      intro type _
      dsimp only
      split
      · exact holds_some ((inv.setType _).setDead true)
      · exact ih (inv.setType _)

theorem Indexed.assumeNo {filter : LocalRef → Bool} {tests : TypeTests Ty} (inv : env.Indexed) :
    Holds Indexed (env.assumeNo T filter tests) := by
  induction tests generalizing env with
  | nil => exact holds_some inv
  | cons entry rest ih =>
    obtain ⟨var,tested⟩ := entry
    rw [Environment.assumeNo]
    split
    · exact ih inv
    · refine holds_lookup ?_
      intro type _
      dsimp only
      split
      · exact ih inv
      · split
        · exact holds_some ((inv.setType _).setDead true)
        · exact ih (inv.setType _)

theorem Indexed.assumeTests {fact : KnowledgeFact Ty} {filter : LocalRef → Bool} (inv : env.Indexed) :
    Holds Indexed (env.assumeTests T fact filter) := by
  unfold Environment.assumeTests
  split
  · exact holds_some inv
  · refine inv.assumeYes.bind ?_
    intro _ inv
    split
    · exact holds_some inv
    · exact inv.assumeNo

theorem Indexed.noteTruth (inv : env.Indexed) (isTrue_ : Bool) : (env.noteTruth isTrue_ var).Indexed := by
  cases isTrue_ with
  | true => exact inv.set rfl
  | false => exact inv

theorem Indexed.assumeKnowledge {isTrue_ : Bool} {cond : LocalRef} {filter : LocalRef → Bool} (inv : env.Indexed) :
    Holds Indexed (env.assumeKnowledge T isTrue_ cond filter) := by
  unfold Environment.assumeKnowledge
  dsimp only
  split
  · exact holds_some (inv.setDead true)
  · refine holds_lookup ?_
    intro type _
    split
    · exact holds_some (inv.setDead true)
    · exact ((inv.setType (some (assumedType T isTrue_ type))).noteTruth isTrue_).assumeTests

end Flow
end Environment

section Main
variable {Ty Class : Type}

theorem Operation.apply_indexed {T : TypeOps Ty Class} {isNeeded : LocalRef → Bool} {envs : Nat → Environment Ty}
    (all : ∀ i, (envs i).Indexed) (op : Operation Ty) (i : Nat) :
    Holds Environment.Indexed (op.apply T isNeeded envs (envs i)) := by
  have inv := all i
  cases op with
  | propagateKnowledge => exact inv.propagateKnowledge
  | updateKnowledge => exact inv.updateKnowledge
  | clearKnowledge => exact inv.clearKnowledge
  | cloneFrom rhs => exact holds_some ⟨(all rhs).covers,(all rhs).sorted⟩
  | populateFrom => exact inv.populateFrom
  | mergeWith => exact inv.mergeWith
  | processBinding => exact inv.processBinding
  | initializeBasicBlockArgs => exact holds_some inv.initializeBasicBlockArgs
  | setUninitializedVarsToNil => exact holds_some inv.setUninitializedVarsToNil
  | assumeKnowledge => exact inv.assumeKnowledge
  | setDead isDead => exact holds_some (inv.setDead isDead)

theorem Step.indexed {T : TypeOps Ty Class} {isNeeded : LocalRef → Bool} {envs envs' : Nat → Environment Ty}
    {event : Nat × Operation Ty} (all : ∀ i, (envs i).Indexed) (step : Step T isNeeded envs event envs') (j : Nat) :
    (envs' j).Indexed := by
  obtain @⟨i,op,env,_,ran⟩ := step
  by_cases own : j = i
  · subst own
    rw [Function.update_self]
    exact op.apply_indexed all j env ran
  · rw [Function.update_of_ne own]
    exact all j

-- In every environment that any operations on any environments lead to, a
-- local whose knowledge tests another is listed for it, whether or not the
-- filter needs it, and all lists are sorted.
theorem typeTestsWithVar_covers (T : TypeOps Ty Class) (isNeeded : LocalRef → Bool) (trace : List (Nat × Operation Ty))
    (envs : Nat → Environment Ty) (ran : Runs (Step T isNeeded) (fun _ => Environment.fresh) trace envs) (i : Nat) :
    (∀ v state x, (envs i).vars v = some state →
      x ∈ state.knowledge.truthy.tests ∨ x ∈ state.knowledge.falsy.tests → v ∈ (envs i).typeTestsWithVar.get x) ∧
    ∀ x, ((envs i).typeTestsWithVar.get x).Pairwise (· < ·) := by
  have inv : ∀ j, (envs j).Indexed := by
    apply ran.history fun _ envs => ∀ j, (envs j).Indexed
    · exact fun _ => Environment.fresh_indexed
    · intro _ before event after all step
      exact step.indexed all
  refine ⟨?_,(inv i).sorted⟩
  intro v state x found tested
  exact (inv i).covers v x ⟨state,found,List.mem_append.mpr tested⟩

-- Types with a bottom, and no classes.
def plainOps : TypeOps Bool Unit where
  isUntyped _ := false
  isBottom := not
  isMetaType _ := false
  canBeFalsy := id
  canBeTruthy := id
  any := or
  all := and
  approximateSubtract type _ := type
  dropFalsySubtypes := id
  nilClass := true
  falseClass := true
  falsyTypes := true
  bottom := false
  getRepresentedClass _ := none
  externalType _ := true
  isFinal _ := false
  isModule _ := false
  tModule := id
  isSingleton _ _ := false
  isClassOrAppliedType _ := false
  derivesFromModule _ := false
  attachedClass _ := none
  upperBound _ := none
  tupleElems _ := none

-- Local 3 becomes the negation of the argument 2, and the environment is cloned.
theorem typeTestsWithVar_covers_bang : ∃ (envs : Nat → Environment Bool) (state : VariableState Bool),
    (envs 1).vars 3 = some state ∧ 2 ∈ state.knowledge.truthy.tests ∧ 3 ∈ (envs 1).typeTestsWithVar.get 2 := by
  have none_ : Runs (Step plainOps fun _ => true) (fun _ => Environment.fresh) [] fun _ => Environment.fresh := .nil
  have started := none_.snoc (@Step.apply Bool Unit plainOps _ _ 0 (.initializeBasicBlockArgs [2]) _ trivial rfl)
  have bound := started.snoc (@Step.apply Bool Unit plainOps _ _ 0 (.processBinding 1 3 true (.send ⟨.bang,2,true,[]⟩)) _ trivial rfl)
  have cloned := bound.snoc (@Step.apply Bool Unit plainOps _ _ 1 (.cloneFrom 0) _ trivial rfl)
  have ends : ∀ envs trace, Runs (Step plainOps fun _ => true) (fun _ => Environment.fresh) trace envs →
      ∀ state, (envs 1).vars 3 = some state → 2 ∈ state.knowledge.truthy.tests →
      ∃ (envs : Nat → Environment Bool) (state : VariableState Bool),
        (envs 1).vars 3 = some state ∧ 2 ∈ state.knowledge.truthy.tests ∧ 3 ∈ (envs 1).typeTestsWithVar.get 2 := by
    intro envs trace ran state found tested
    exact ⟨envs,state,found,tested,(typeTestsWithVar_covers plainOps _ trace envs ran 1).1 3 state 2 found (.inl tested)⟩
  exact ends _ _ cloned _ rfl (List.mem_singleton.mpr rfl)

end Main
end Infer
