import Mathlib.Data.List.Perm.Basic
import ScipRuby.Scip.FieldResolve

namespace Scip

-- An alias instruction of a method of a class, for an undeclared field or for a
-- field symbol; the other aliases do not reach the relationships.
structure FieldAccess where
  klass : SymbolRef
  declared : Bool
  name : NameRef
  deriving DecidableEq

def FieldAccess.query (file : FileRef) (access : FieldAccess) : FieldQuery := ⟨file,access.klass,access.name⟩

-- FieldResolver, and the relationships of the file.
structure Relating where
  cache : FieldQuery → Option FieldQueryResult
  relMap : RelationshipsMap

section Populate
variable (table : FieldTable) (fuel : Nat) (file : FileRef)

def resolveField (query : FieldQuery) : Option FieldQueryResult :=
  (findUnresolvedFieldInInheritanceChain table fuel query).map fun inherited =>
    ⟨inherited,findUnresolvedFieldInMixinsTransitive table query⟩

def findUnresolvedFieldTransitive (cache : FieldQuery → Option FieldQueryResult) (query : FieldQuery) :
    Option (FieldQueryResult × (FieldQuery → Option FieldQueryResult)) :=
  match cache query with
  | some result => some (result,cache)
  | none => (resolveField table fuel query).map fun result => (result,Function.update cache query (some result))

-- The entry that an access asks for; globals and other names have none.
def FieldAccess.key (access : FieldAccess) : Option UntypedGenericSymbolRef :=
  let text := table.gs.shortName access.name
  let normalized := normalizeParentForClassVar table access.klass text
  if access.declared then if text.head? = some '@' then some ⟨normalized,access.name⟩ else none
  else if text.head? = some '$' then none else some ⟨normalized,access.name⟩

-- Only the branch of declared fields normalizes the class it has found.
def FieldAccess.adjust (access : FieldAccess) (result : FieldQueryResult) : FieldQueryResult :=
  if access.declared then
    { result with inherited := normalizeParentForClassVar table result.inherited (table.gs.shortName access.name) }
  else result

def populateField (state : Relating) (access : FieldAccess) : Option Relating :=
  match access.key table with
  | none => some state
  | some key =>
    match state.relMap key with
    | some _ => some state
    | none =>
      (findUnresolvedFieldTransitive table fuel state.cache (access.query file)).map fun (result,cache) =>
        ⟨cache,Function.update state.relMap key (some (access.adjust table result))⟩

def populate (accesses : List FieldAccess) : Option RelationshipsMap :=
  (accesses.foldlM (populateField table fuel file) ⟨fun _ => none,fun _ => none⟩).map (·.relMap)

end Populate

section Runs
variable {table : FieldTable} {fuel : Nat} {file : FileRef} {access : FieldAccess} {accesses : List FieldAccess}
  {state : Relating} {cache : FieldQuery → Option FieldQueryResult} {asked : FieldQuery}

-- The cache holds what the resolver would compute.
def Sound (table : FieldTable) (fuel : Nat) (cache : FieldQuery → Option FieldQueryResult) : Prop :=
  ∀ query result, cache query = some result → resolveField table fuel query = some result

-- The relationships that an access gives to its entry.
def FieldAccess.related (table : FieldTable) (fuel : Nat) (file : FileRef) (access : FieldAccess) : Option FieldQueryResult :=
  (resolveField table fuel (access.query file)).map (access.adjust table)

def Resolved (table : FieldTable) (fuel : Nat) (file : FileRef) (access : FieldAccess) : Prop :=
  (resolveField table fuel (access.query file)).isSome = true

theorem findUnresolvedFieldTransitive_sound (sound : Sound table fuel cache) {result : FieldQueryResult}
    (resolved : resolveField table fuel asked = some result) :
    ∃ cache', findUnresolvedFieldTransitive table fuel cache asked = some (result,cache') ∧ Sound table fuel cache' := by
  unfold findUnresolvedFieldTransitive
  cases cached : cache asked with
  | some old =>
    obtain rfl : old = result := Option.some.inj ((sound _ _ cached).symm.trans resolved)
    exact ⟨cache,rfl,sound⟩
  | none =>
    refine ⟨_,by rw [resolved]; rfl,fun other found hit => ?_⟩
    by_cases same : other = asked
    · subst same
      rw [Function.update_self] at hit
      rw [resolved,hit]
    · rw [Function.update_of_ne same] at hit
      exact sound other found hit

theorem populateField_spec (sound : Sound table fuel state.cache) (resolved : Resolved table fuel file access) :
    ∃ state', populateField table fuel file state access = some state' ∧ Sound table fuel state'.cache ∧
      ∀ key, state'.relMap key = (state.relMap key).or (if access.key table = some key then access.related table fuel file else none) := by
  obtain ⟨result,found⟩ := Option.isSome_iff_exists.mp resolved
  have value : access.related table fuel file = some (access.adjust table result) := by
    rw [FieldAccess.related,found]
    rfl
  unfold populateField
  cases keyed : access.key table with
  | none => exact ⟨state,rfl,sound,fun key => by simp⟩
  | some key =>
    dsimp only
    cases present : state.relMap key with
    | some old =>
      refine ⟨state,rfl,sound,fun other => ?_⟩
      by_cases same : key = other
      · subst same
        rw [present]
        rfl
      · simp [same]
    | none =>
      obtain ⟨cache',run,sound'⟩ := findUnresolvedFieldTransitive_sound sound found
      refine ⟨⟨cache',Function.update state.relMap key (some (access.adjust table result))⟩,by rw [run]; rfl,sound',fun other => ?_⟩
      by_cases same : key = other
      · subst same
        simp [present,value]
      · simp [same,Function.update_of_ne (Ne.symm same)]

-- What the first access to an entry gives to it.
def firstRelated (table : FieldTable) (fuel : Nat) (file : FileRef) (accesses : List FieldAccess) : RelationshipsMap :=
  fun key => (accesses.find? fun access => access.key table = some key).bind (·.related table fuel file)

theorem populate_run (sound : Sound table fuel state.cache) (resolved : ∀ access ∈ accesses, Resolved table fuel file access) :
    ∃ state', accesses.foldlM (populateField table fuel file) state = some state' ∧
      ∀ key, state'.relMap key = (state.relMap key).or (firstRelated table fuel file accesses key) := by
  induction accesses generalizing state with
  | nil => exact ⟨state,rfl,fun key => by simp [firstRelated]⟩
  | cons access rest ih =>
    obtain ⟨first,others⟩ := List.forall_mem_cons.mp resolved
    obtain ⟨middle,step,sound',entry⟩ := populateField_spec sound first
    obtain ⟨last,run,entries⟩ := ih sound' others
    refine ⟨last,by rw [List.foldlM_cons,step]; exact run,fun key => ?_⟩
    obtain ⟨result,found⟩ := Option.isSome_iff_exists.mp first
    have value : access.related table fuel file = some (access.adjust table result) := by
      rw [FieldAccess.related,found]
      rfl
    rw [entries,entry,Option.or_assoc,firstRelated,firstRelated]
    by_cases here : access.key table = some key
    · rw [if_pos here,List.find?_cons_of_pos (by simpa using here)]
      simp [value]
    · rw [if_neg here,List.find?_cons_of_neg (by simpa using here)]
      rfl

theorem populate_eq (resolved : ∀ access ∈ accesses, Resolved table fuel file access) :
    populate table fuel file accesses = some (firstRelated table fuel file accesses) := by
  obtain ⟨state,run,entries⟩ := @populate_run table fuel file accesses ⟨fun _ => none,fun _ => none⟩ (fun _ _ hit => by cases hit) resolved
  rw [populate,run]
  exact congrArg some (funext fun key => entries key)

-- Finitely many walks that end all end within one bound.
theorem eventually_all {α : Type*} {P : α → Nat → Prop} (each : List α)
    (ends : ∀ x ∈ each, ∃ enough, ∀ fuel, enough ≤ fuel → P x fuel) :
    ∃ enough, ∀ fuel, enough ≤ fuel → ∀ x ∈ each, P x fuel := by
  induction each with
  | nil => exact ⟨0,by simp⟩
  | cons x rest ih =>
    obtain ⟨⟨enough,first⟩,others⟩ := List.forall_mem_cons.mp ends
    obtain ⟨enough',rest⟩ := ih others
    exact ⟨max enough enough',fun fuel more => List.forall_mem_cons.mpr ⟨first fuel (by omega),rest fuel (by omega)⟩⟩

theorem resolved_enough (acyclic : Acyclic table) (accesses : List FieldAccess) :
    ∃ enough, ∀ fuel, enough ≤ fuel → ∀ access ∈ accesses, Resolved table fuel file access := by
  apply eventually_all
  intro access _
  obtain ⟨enough,answer,runs,_⟩ := inheritanceChain_finds acyclic (access.query file)
  refine ⟨enough,fun fuel more => ?_⟩
  rw [Resolved,resolveField,runs fuel more]
  rfl

end Runs

-- Every order of the accesses gives the same relationships.
def OrderFree (table : FieldTable) (file : FileRef) (accesses : List FieldAccess) : Prop :=
  ∃ enough, ∀ fuel, enough ≤ fuel → ∃ relMap, ∀ order, order.Perm accesses → populate table fuel file order = some relMap

def FieldAccess.start (table : FieldTable) (access : FieldAccess) : SymbolRef :=
  normalizeParentForClassVar table access.klass (table.gs.shortName access.name)

def FieldAccess.mentioning (table : FieldTable) (access : FieldAccess) : List SymbolRef :=
  (table.mixins access.klass).filter fun mixin => table.findMember mixin access.name || table.unresolvedFields mixin access.name

-- Two accesses to one class variable of one class see the same modules, and if
-- only one of them is declared, it resolves to a class that is its own
-- normalization.
def Agreeing (table : FieldTable) (accesses : List FieldAccess) : Prop :=
  ∀ a ∈ accesses, ∀ b ∈ accesses, a.name = b.name → isClassVar (table.gs.shortName a.name) = true →
    a.start table = b.start table →
    a.mentioning table = b.mentioning table ∧
      (a.declared = false → b.declared = true → ∀ klass, Finds table (a.start table) a.name (a.start table) klass →
        normalizeParentForClassVar table klass (table.gs.shortName a.name) = klass)

section Orders
variable {table : FieldTable} {fuel : Nat} {file : FileRef} {a b : FieldAccess} {accesses order : List FieldAccess}

theorem isClassVar_head {text : Str} (classVar : isClassVar text = true) :
    text.head? = some '@' ∧ isInstanceVar text = false := by
  unfold isClassVar at classVar
  split at classVar
  · exact ⟨rfl,rfl⟩
  · cases classVar

theorem key_classVar (classVar : isClassVar (table.gs.shortName a.name) = true) :
    a.key table = some ⟨a.start table,a.name⟩ := by
  have head := (isClassVar_head classVar).1
  unfold FieldAccess.key
  dsimp only
  rw [head]
  cases a.declared <;> rfl

theorem key_start {key : UntypedGenericSymbolRef} (keyed : a.key table = some key) : key = ⟨a.start table,a.name⟩ := by
  unfold FieldAccess.key at keyed
  dsimp only at keyed
  split at keyed
  · split at keyed
    · exact (Option.some.inj keyed).symm
    · cases keyed
  · split at keyed
    · cases keyed
    · exact (Option.some.inj keyed).symm

theorem normalize_other {klass : SymbolRef} {text : Str} (other : isClassVar text = false) :
    normalizeParentForClassVar table klass text = klass := by
  rw [normalizeParentForClassVar,other]
  rfl

theorem adjust_other {result : FieldQueryResult} (other : isClassVar (table.gs.shortName a.name) = false) :
    a.adjust table result = result := by
  rw [FieldAccess.adjust,normalize_other other]
  split <;> rfl

theorem related_other (other : isClassVar (table.gs.shortName a.name) = false) (name : a.name = b.name)
    (start : a.start table = b.start table) : a.related table fuel file = b.related table fuel file := by
  have other' : isClassVar (table.gs.shortName b.name) = false := name ▸ other
  have klass : a.klass = b.klass := by
    rw [FieldAccess.start,FieldAccess.start,normalize_other other,normalize_other other'] at start
    exact start
  have query : a.query file = b.query file := by
    rw [FieldAccess.query,FieldAccess.query,klass,name]
  rw [FieldAccess.related,FieldAccess.related,query]
  congr 1
  funext result
  rw [adjust_other other,adjust_other other']

theorem chain_classVar (classVar : isClassVar (table.gs.shortName a.name) = true) :
    findUnresolvedFieldInInheritanceChain table fuel (a.query file) =
      inheritanceLoop table a.name fuel (a.start table) (a.start table) := by
  have own : isClassInstanceVar table (a.query file) = false := by
    rw [isClassInstanceVar,show table.gs.shortName (a.query file).field = table.gs.shortName a.name from rfl,
      (isClassVar_head classVar).2]
    rfl
  rw [findUnresolvedFieldInInheritanceChain,own,if_neg Bool.false_ne_true]
  rfl

-- The relationships of a class variable, with the class that the walk finds.
theorem related_classVar (acyclic : Acyclic table) (classVar : isClassVar (table.gs.shortName a.name) = true) :
    ∃ enough answer, Finds table (a.start table) a.name (a.start table) answer ∧ ∀ fuel, enough ≤ fuel →
      a.related table fuel file = some ⟨if a.declared then normalizeParentForClassVar table answer (table.gs.shortName a.name)
        else answer,a.mentioning table⟩ := by
  obtain ⟨enough,answer,runs,finds⟩ := @inheritanceLoop_finds table a.name acyclic (a.start table) (a.start table)
  refine ⟨enough,answer,finds,fun fuel more => ?_⟩
  rw [FieldAccess.related,resolveField,chain_classVar classVar,runs fuel more]
  change some (a.adjust table ⟨answer,a.mentioning table⟩) = _
  rw [FieldAccess.adjust]
  split <;> rfl

theorem related_agreeing (acyclic : Acyclic table) (agreeing : Agreeing table accesses) (first : a ∈ accesses)
    (second : b ∈ accesses) (name : a.name = b.name) (start : a.start table = b.start table) :
    ∃ enough, ∀ fuel, enough ≤ fuel → a.related table fuel file = b.related table fuel file := by
  cases classVar : isClassVar (table.gs.shortName a.name) with
  | false => exact ⟨0,fun fuel _ => related_other classVar name start⟩
  | true =>
    have classVar' : isClassVar (table.gs.shortName b.name) = true := name ▸ classVar
    obtain ⟨enough,answer,finds,runs⟩ := @related_classVar table file a acyclic classVar
    obtain ⟨enough',answer',finds',runs'⟩ := @related_classVar table file b acyclic classVar'
    obtain rfl : answer = answer' := finds.unique acyclic (by rwa [start,name])
    obtain ⟨modules,alone⟩ := agreeing a first b second name classVar start
    obtain ⟨_,alone'⟩ := agreeing b second a first name.symm classVar' start.symm
    refine ⟨max enough enough',fun fuel more => ?_⟩
    rw [runs fuel (by omega),runs' fuel (by omega),modules]
    cases kind : a.declared with
    | false =>
      cases kind' : b.declared with
      | false => rfl
      | true => simp [← name,alone kind kind' answer finds]
    | true =>
      cases kind' : b.declared with
      | false => simp [name,alone' kind' kind answer finds']
      | true => simp [name]

theorem firstRelated_head {key : UntypedGenericSymbolRef} (keyed : a.key table = some key) (rest : List FieldAccess) :
    firstRelated table fuel file (a :: rest) key = a.related table fuel file := by
  rw [firstRelated,List.find?_cons_of_pos (by simpa using keyed)]
  rfl

-- Orders agree on an entry when all accesses to it give the same.
theorem firstRelated_perm (perm : order.Perm accesses)
    (same : ∀ a ∈ accesses, ∀ b ∈ accesses, a.name = b.name → a.start table = b.start table →
      a.related table fuel file = b.related table fuel file) :
    firstRelated table fuel file order = firstRelated table fuel file accesses := by
  funext key
  unfold firstRelated
  cases found : order.find? fun access => access.key table = some key with
  | none =>
    have none' : accesses.find? (fun access => access.key table = some key) = none := by
      rw [List.find?_eq_none] at found ⊢
      exact fun access member => found access (perm.mem_iff.mpr member)
    rw [none']
  | some a =>
    have keyed := List.find?_some found
    have member := perm.mem_iff.mp (List.mem_of_find?_eq_some found)
    cases found' : accesses.find? fun access => access.key table = some key with
    | none => exact absurd keyed (List.find?_eq_none.mp found' a member)
    | some b =>
      have keyed' := List.find?_some found'
      have start := (key_start (of_decide_eq_true keyed)).symm.trans (key_start (of_decide_eq_true keyed'))
      obtain ⟨start,name⟩ := UntypedGenericSymbolRef.mk.injEq .. ▸ start
      exact same a member b (List.mem_of_find?_eq_some found') name start

end Orders

-- The relationships of a file do not depend on the order of the accesses exactly
-- when the accesses to each class variable agree.
theorem populate_orderFree_iff (table : FieldTable) (acyclic : Acyclic table) (file : FileRef)
    (accesses : List FieldAccess) : OrderFree table file accesses ↔ Agreeing table accesses := by
  obtain ⟨ready,resolved⟩ := @resolved_enough table file acyclic accesses
  constructor
  · rintro ⟨enough,independent⟩ a first b second name classVar start
    have classVar' : isClassVar (table.gs.shortName b.name) = true := name ▸ classVar
    obtain ⟨one,answer,finds,runs⟩ := @related_classVar table file a acyclic classVar
    obtain ⟨two,answer',finds',runs'⟩ := @related_classVar table file b acyclic classVar'
    obtain rfl : answer = answer' := finds.unique acyclic (by rwa [start,name])
    obtain ⟨relMap,orders⟩ := independent (max (max enough ready) (max one two)) (by omega)
    have resolved' := resolved (max (max enough ready) (max one two)) (by omega)
    -- Each of the two accesses can come first.
    have leading : ∀ x ∈ accesses, x.key table = some ⟨a.start table,a.name⟩ →
        relMap ⟨a.start table,a.name⟩ = x.related table (max (max enough ready) (max one two)) file := by
      intro x member keyed
      have perm : (x :: accesses.erase x).Perm accesses := (List.perm_cons_erase member).symm
      have run := orders _ perm
      rw [populate_eq fun access inside => resolved' access (perm.mem_iff.mp inside)] at run
      rw [← Option.some.inj run,firstRelated_head keyed]
    have same := (leading a first (key_classVar classVar)).symm.trans
      (leading b second (by rw [key_classVar classVar',start,name]))
    rw [runs _ (by omega),runs' _ (by omega)] at same
    obtain ⟨inherited,modules⟩ := FieldQueryResult.mk.injEq .. ▸ Option.some.inj same
    refine ⟨modules,fun kind kind' klass finds'' => ?_⟩
    obtain rfl : answer = klass := finds.unique acyclic finds''
    rw [kind,kind'] at inherited
    simpa [name] using inherited.symm
  · intro agreeing
    have pairs : ∃ enough, ∀ fuel, enough ≤ fuel → ∀ a ∈ accesses, ∀ b ∈ accesses, a.name = b.name →
        a.start table = b.start table → a.related table fuel file = b.related table fuel file := by
      apply eventually_all
      intro a first
      apply eventually_all
      intro b second
      by_cases both : a.name = b.name ∧ a.start table = b.start table
      · obtain ⟨enough,same⟩ := @related_agreeing table file a b accesses acyclic agreeing first second both.1 both.2
        exact ⟨enough,fun fuel more _ _ => same fuel more⟩
      · exact ⟨0,fun fuel _ name start => absurd ⟨name,start⟩ both⟩
    obtain ⟨enough,same⟩ := pairs
    refine ⟨max ready enough,fun fuel more => ⟨firstRelated table fuel file accesses,fun order perm => ?_⟩⟩
    rw [populate_eq fun access inside => resolved fuel (by omega) access (perm.mem_iff.mp inside),
      firstRelated_perm perm (same fuel (by omega))]

-- A class variable read in an instance method and in a method of the singleton class.
def readTwice (id : Nat) (name : NameRef) : List FieldAccess :=
  [⟨fieldClass id,false,name⟩,⟨fieldClass (id + 1000),false,name⟩]

theorem populate_orderFree_iff_sample : OrderFree fieldTable 1 (readTwice 101 20) := by
  apply (populate_orderFree_iff fieldTable fieldTable_acyclic 1 _).mpr
  have undeclared : ∀ a ∈ readTwice 101 20, a.declared = false ∧ a.mentioning fieldTable = [] := by decide
  intro a first b second _ _ _
  refine ⟨(undeclared a first).2.trans (undeclared b second).2.symm,fun _ kind => ?_⟩
  rw [(undeclared b second).1] at kind
  cases kind

-- The module that the class includes is seen from the instance method only.
theorem populate_depends : ¬ OrderFree fieldTable 1 (readTwice 100 22) := by
  rintro ⟨enough,independent⟩
  obtain ⟨one,_,_,runs⟩ := @related_classVar fieldTable 1 ⟨fieldClass 100,false,22⟩ fieldTable_acyclic (by decide)
  obtain ⟨two,_,_,runs'⟩ := @related_classVar fieldTable 1 ⟨fieldClass 1100,false,22⟩ fieldTable_acyclic (by decide)
  obtain ⟨ready,resolved⟩ := @resolved_enough fieldTable 1 fieldTable_acyclic (readTwice 100 22)
  obtain ⟨relMap,orders⟩ := independent (max (max enough ready) (max one two)) (by omega)
  have resolved' := resolved (max (max enough ready) (max one two)) (by omega)
  have swapped := List.Perm.swap (⟨fieldClass 100,false,22⟩ : FieldAccess) ⟨fieldClass 1100,false,22⟩ []
  have first := orders _ (.refl _)
  have second := orders _ swapped
  rw [populate_eq resolved'] at first
  rw [populate_eq fun access inside => resolved' access (swapped.mem_iff.mp inside)] at second
  have same := congrFun (Option.some.inj (first.trans second.symm)) ⟨fieldClass 1100,22⟩
  rw [readTwice,firstRelated_head rfl,firstRelated_head rfl,runs _ (by omega),runs' _ (by omega)] at same
  have modules : [fieldClass 50] = [] := congrArg FieldQueryResult.mixedIn (Option.some.inj same)
  cases modules

end Scip
