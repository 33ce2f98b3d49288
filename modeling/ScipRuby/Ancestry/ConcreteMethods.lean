import Mathlib.Data.List.Nodup
import ScipRuby.Ancestry.Hierarchy

namespace Ancestry

abbrev MethodRef := Nat

structure Method where
  isOverloaded : Bool
  isAbstract : Bool

-- overloadName is lookupNameUnique for the first overload of a name, which the name
-- table need not have.
structure MethodTable extends GlobalState where
  asMethodRef : SymbolRef → Option MethodRef
  methods : MethodRef → Method
  overloadName : NameRef → Option NameRef

namespace MethodTable
variable (gs : MethodTable) (name : NameRef)

def findMethod (c : ClassOrModuleRef) (name : NameRef) : Option MethodRef := (gs.findMember c name).bind gs.asMethodRef

def findOverload (c : ClassOrModuleRef) : Option MethodRef := (gs.overloadName name).bind (gs.findMethod c)

-- The method that klass has, or the first overload that scope has in its place.
def findCandidate (klass scope : ClassOrModuleRef) : Option MethodRef :=
  match gs.findMethod klass name with
  | none => none
  | some result => if (gs.methods result).isOverloaded then gs.findOverload name scope else some result

def concrete (result : Option MethodRef) : Option MethodRef := result.filter fun method => !(gs.methods method).isAbstract

-- Nothing where the source raises an exception because of a loop; some none is noMethod.
def findConcreteMethodTransitiveInternal : Nat → ClassOrModuleRef → Option (Option MethodRef)
  | 0,_ => none
  | maxDepth + 1,owner =>
    match gs.concrete (gs.findCandidate name owner owner) with
    | some result => some (some result)
    | none =>
      -- In the loop the overload of a mixin's method is looked up in the owner again.
      match (gs.mixins owner).findSome? fun sym => gs.concrete (gs.findCandidate name sym owner) with
      | some result => some (some result)
      | none =>
        match gs.superClass owner with
        | none => some none
        | some superClass => findConcreteMethodTransitiveInternal maxDepth superClass

def findConcreteMethodTransitive (c : ClassOrModuleRef) : Option (Option MethodRef) :=
  gs.findConcreteMethodTransitiveInternal name 100 c

-- A class and its superclasses.
inductive Superclasses : ClassOrModuleRef → List ClassOrModuleRef → Prop where
  | last {c : ClassOrModuleRef} : gs.superClass c = none → Superclasses c [c]
  | step {c superClass : ClassOrModuleRef} {chain : List ClassOrModuleRef} : gs.superClass c = some superClass →
      Superclasses superClass chain → Superclasses c (c :: chain)

-- The places of the search: a class or one of its mixins, beside that class.
def placesOf (owner : ClassOrModuleRef) : List (ClassOrModuleRef × ClassOrModuleRef) :=
  (owner,owner) :: (gs.mixins owner).map fun sym => (owner,sym)

def places (chain : List ClassOrModuleRef) : List (ClassOrModuleRef × ClassOrModuleRef) := chain.flatMap gs.placesOf

def ancestors (chain : List ClassOrModuleRef) : List ClassOrModuleRef := chain.flatMap fun c => c :: gs.mixins c

-- What the search is for: the candidate of each class is its own.
def firstConcrete (order : List ClassOrModuleRef) : Option MethodRef :=
  order.findSome? fun klass => gs.concrete (gs.findCandidate name klass klass)

-- The method of the mixin is overloaded, and the mixin or the owner has a concrete overload.
def misled : ClassOrModuleRef × ClassOrModuleRef → Bool
  | (owner,sym) =>
    sym ≠ owner ∧ (gs.findMethod sym name).any (fun result => (gs.methods result).isOverloaded) ∧
      ((gs.concrete (gs.findOverload name owner)).isSome ∨ (gs.concrete (gs.findOverload name sym)).isSome)

def Straight (chain : List ClassOrModuleRef) : Prop :=
  ∀ before owner sym after, gs.places chain = before ++ (owner,sym) :: after →
    (∀ place ∈ before, gs.concrete (gs.findCandidate name place.2 place.2) = none) → gs.misled name (owner,sym) = false

-- An overload is a symbol of its own, in one class, and each ancestor is listed once.
structure Linearized (chain : List ClassOrModuleRef) : Prop where
  once : (gs.ancestors chain).Nodup
  owned : ∀ c d method, gs.findOverload name c = some method → gs.findOverload name d = some method → c = d
  apart : ∀ c d method, gs.findOverload name c = some method → gs.findMethod d name ≠ some method

section Search
variable {gs name} {c owner sym scope : ClassOrModuleRef} {chain : List ClassOrModuleRef} {method : MethodRef}

theorem concrete_eq_some {result : Option MethodRef} :
    gs.concrete result = some method ↔ result = some method ∧ (gs.methods method).isAbstract = false := by
  unfold concrete
  rw [Option.filter_eq_some_iff,Bool.not_eq_true']

theorem findCandidate_cases (found : gs.findCandidate name sym scope = some method) :
    gs.findMethod sym name = some method ∨ gs.findOverload name scope = some method := by
  unfold findCandidate at found
  split at found
  · cases found
  · rename_i result own
    split at found
    · exact .inr found
    · exact .inl (own.trans found)

theorem findCandidate_overloaded
    (overloaded : (gs.findMethod sym name).any (fun result => (gs.methods result).isOverloaded) = true) :
    gs.findCandidate name sym scope = gs.findOverload name scope := by
  unfold findCandidate
  cases own : gs.findMethod sym name with
  | none =>
    rw [own] at overloaded
    cases overloaded
  | some result =>
    rw [own] at overloaded
    exact if_pos overloaded

theorem findCandidate_single
    (single : (gs.findMethod sym name).any (fun result => (gs.methods result).isOverloaded) = false) :
    gs.findCandidate name sym scope = gs.findMethod sym name := by
  unfold findCandidate
  cases own : gs.findMethod sym name with
  | none => rfl
  | some result =>
    rw [own] at single
    exact if_neg (Bool.not_eq_true _ ▸ single)

theorem findCandidate_straight (straight : gs.misled name (owner,sym) = false) :
    gs.concrete (gs.findCandidate name sym owner) = gs.concrete (gs.findCandidate name sym sym) := by
  by_cases same : sym = owner
  · rw [same]
  cases overloaded : (gs.findMethod sym name).any (fun result => (gs.methods result).isOverloaded) with
  | false => rw [findCandidate_single overloaded,findCandidate_single overloaded]
  | true =>
    rw [findCandidate_overloaded overloaded,findCandidate_overloaded overloaded]
    have neither : ¬((gs.concrete (gs.findOverload name owner)).isSome ∨ (gs.concrete (gs.findOverload name sym)).isSome) :=
      fun either => (of_decide_eq_false straight) ⟨same,overloaded,either⟩
    rw [not_or,Option.not_isSome_iff_eq_none,Option.not_isSome_iff_eq_none] at neither
    rw [neither.1,neither.2]

theorem findConcreteMethodTransitiveInternal_succ (maxDepth : Nat) :
    gs.findConcreteMethodTransitiveInternal name (maxDepth + 1) owner =
      ((gs.placesOf owner).findSome? fun place => gs.concrete (gs.findCandidate name place.2 place.1)).elim
        ((gs.superClass owner).elim (some none) (gs.findConcreteMethodTransitiveInternal name maxDepth))
        fun result => some (some result) := by
  rw [findConcreteMethodTransitiveInternal,placesOf,List.findSome?_cons,List.findSome?_map]
  cases gs.concrete (gs.findCandidate name owner owner) with
  | some result => rfl
  | none =>
    simp only [Function.comp_def]
    cases (gs.mixins owner).findSome? fun sym => gs.concrete (gs.findCandidate name sym owner) with
    | some result => rfl
    | none => cases gs.superClass owner <;> rfl

theorem findConcreteMethodTransitiveInternal_eq {maxDepth : Nat} (superclasses : gs.Superclasses c chain)
    (short : chain.length ≤ maxDepth) : gs.findConcreteMethodTransitiveInternal name maxDepth c
      = some ((gs.places chain).findSome? fun place => gs.concrete (gs.findCandidate name place.2 place.1)) := by
  induction superclasses generalizing maxDepth with
  | last top =>
    obtain ⟨maxDepth,rfl⟩ := Nat.exists_eq_succ_of_ne_zero (Nat.ne_of_gt short)
    rw [findConcreteMethodTransitiveInternal_succ,top,places,List.flatMap_singleton]
    cases (gs.placesOf _).findSome? _ <;> rfl
  | step above _ ih =>
    obtain ⟨maxDepth,rfl⟩ := Nat.exists_eq_succ_of_ne_zero (Nat.ne_of_gt (Nat.lt_of_lt_of_le (Nat.succ_pos _) short))
    rw [findConcreteMethodTransitiveInternal_succ,above,places,List.flatMap_cons,List.findSome?_append]
    cases (gs.placesOf _).findSome? _ with
    | some result => rfl
    | none => exact ih (Nat.le_of_succ_le_succ short)

theorem map_places (chain : List ClassOrModuleRef) : (gs.places chain).map Prod.snd = gs.ancestors chain := by
  unfold places ancestors placesOf
  induction chain with
  | nil => rfl
  | cons c chain ih => simp [ih]

theorem firstConcrete_eq (chain : List ClassOrModuleRef) : gs.firstConcrete name (gs.ancestors chain)
    = (gs.places chain).findSome? fun place => gs.concrete (gs.findCandidate name place.2 place.2) := by
  rw [← map_places,firstConcrete,List.findSome?_map]
  rfl

theorem owner_mem (member : (owner,sym) ∈ gs.places chain) : (owner,owner) ∈ gs.places chain := by
  obtain ⟨c,listed,place⟩ := List.mem_flatMap.mp member
  refine List.mem_flatMap.mpr ⟨c,listed,?_⟩
  rcases List.mem_cons.mp place with equal | mixin
  · cases equal
    exact List.mem_cons_self
  · obtain ⟨d,_,equal⟩ := List.mem_map.mp mixin
    cases equal
    exact List.mem_cons_self

-- A class stands before its mixins.
theorem owner_before {before after : List (ClassOrModuleRef × ClassOrModuleRef)} (other : sym ≠ owner)
    (places : gs.places chain = before ++ (owner,sym) :: after) : (owner,owner) ∈ before := by
  induction chain generalizing before with
  | nil => simp [MethodTable.places] at places
  | cons c chain ih =>
    cases before with
    | nil =>
      cases (List.cons.inj places).1
      exact absurd rfl other
    | cons place before =>
      obtain ⟨rfl,rest⟩ := List.cons.inj places
      rcases List.append_eq_append_iff.mp rest with ⟨between,equal,tail⟩ | ⟨between,block,tail⟩
      · rw [equal]
        exact List.mem_cons_of_mem _ (List.mem_append_right _ (ih tail))
      · cases between with
        | nil => exact absurd (@ih [] tail.symm) List.not_mem_nil
        | cons place between =>
          cases (List.cons.inj tail).1
          obtain ⟨_,_,equal⟩ := List.mem_map.mp (block ▸ List.mem_append_right before List.mem_cons_self)
          cases equal
          exact List.mem_cons_self

theorem findSome_head {α β : Type} {f : α → Option β} {item : α} {result : β} (found : f item = some result) (items : List α) :
    (item :: items).findSome? f = some result := by
  rw [List.findSome?_cons,found]

theorem findSome_congr_first {α β : Type} {f g : α → Option β} {items : List α}
    (agree : ∀ before item after, items = before ++ item :: after → (∀ other ∈ before, g other = none) → f item = g item) :
    items.findSome? f = items.findSome? g := by
  induction items with
  | nil => rfl
  | cons item items ih =>
    have head := agree [] item items rfl (List.forall_mem_nil _)
    rw [List.findSome?_cons,List.findSome?_cons,head]
    cases absent : g item with
    | some result => rfl
    | none =>
      refine ih fun before other after split none => agree (item :: before) other after (by rw [split]; rfl) ?_
      exact List.forall_mem_cons.mpr ⟨absent,none⟩

theorem find_of_straight (straight : gs.Straight name chain) :
    ((gs.places chain).findSome? fun place => gs.concrete (gs.findCandidate name place.2 place.1))
      = gs.firstConcrete name (gs.ancestors chain) := by
  rw [firstConcrete_eq]
  refine findSome_congr_first fun before place after split none => ?_
  exact findCandidate_straight (straight before place.1 place.2 after split none)

-- The first place that misleads the search is reached with nothing found.
theorem first_misled (crooked : ¬gs.Straight name chain) : ∃ before owner sym after,
    gs.places chain = before ++ (owner,sym) :: after ∧ gs.misled name (owner,sym) = true ∧
    (∀ place ∈ before, gs.concrete (gs.findCandidate name place.2 place.2) = none) ∧
    ∀ place ∈ before, gs.concrete (gs.findCandidate name place.2 place.1) = none := by
  simp only [Straight,not_forall,Bool.not_eq_false] at crooked
  obtain ⟨before,owner,sym,after,split,none,misled⟩ := crooked
  cases first : before.find? (gs.misled name) with
  | none =>
    refine ⟨before,owner,sym,after,split,misled,none,fun place member => ?_⟩
    have straight := List.find?_eq_none.mp first place member
    rw [findCandidate_straight (Bool.not_eq_true _ ▸ straight)]
    exact none place member
  | some place =>
    obtain ⟨here,start,rest,equal,earlier⟩ := List.find?_eq_some_iff_append.mp first
    have inside : ∀ other ∈ start, other ∈ before := fun other member => equal ▸ List.mem_append_left _ member
    refine ⟨start,place.1,place.2,rest ++ (owner,sym) :: after,?_,here,fun other member => none other (inside other member),?_⟩
    · rw [split,equal,List.append_assoc]
      rfl
    · intro other member
      rw [findCandidate_straight ((Bool.not_eq_true' _).mp (earlier other member))]
      exact none other (inside other member)

theorem straight_of_find (linearized : gs.Linearized name chain)
    (equal : ((gs.places chain).findSome? fun place => gs.concrete (gs.findCandidate name place.2 place.1))
      = gs.firstConcrete name (gs.ancestors chain)) : gs.Straight name chain := by
  by_contra crooked
  obtain ⟨before,owner,sym,after,split,misled,own,picked⟩ := first_misled crooked
  obtain ⟨other,overloaded,either⟩ := of_decide_eq_true misled
  rw [firstConcrete_eq,split,List.findSome?_append,List.findSome?_append,List.findSome?_eq_none_iff.mpr own,
    List.findSome?_eq_none_iff.mpr picked,Option.none_or,Option.none_or] at equal
  cases ownerFound : gs.concrete (gs.findOverload name owner) with
  | some method =>
    -- The overload of the owner is returned, which no other class has.
    rw [findSome_head (by rw [findCandidate_overloaded overloaded,ownerFound])] at equal
    obtain ⟨place,_,found⟩ := List.exists_of_findSome?_eq_some equal.symm
    obtain ⟨ownerOverload,_⟩ := concrete_eq_some.mp ownerFound
    rcases findCandidate_cases (concrete_eq_some.mp found).1 with single | overload
    · exact linearized.apart _ _ _ ownerOverload single
    · rw [← linearized.owned _ _ _ ownerOverload overload] at found
      cases found.symm.trans (own _ (owner_before other split))
  | none =>
    -- The overload of the mixin is passed over, and found in no other class.
    rw [ownerFound] at either
    obtain ⟨method,symFound⟩ := Option.isSome_iff_exists.mp (either.resolve_left Bool.false_ne_true)
    rw [List.findSome?_cons_of_isNone (by rw [findCandidate_overloaded overloaded,ownerFound]; rfl),
      findSome_head (by rw [findCandidate_overloaded overloaded,symFound])] at equal
    obtain ⟨place,member,found⟩ := List.exists_of_findSome?_eq_some equal
    obtain ⟨symOverload,_⟩ := concrete_eq_some.mp symFound
    rcases findCandidate_cases (concrete_eq_some.mp found).1 with single | overload
    · exact linearized.apart _ _ _ symOverload single
    · have same := linearized.owned _ _ _ symOverload overload
      have here : (owner,sym) ∈ gs.places chain := split ▸ List.mem_append_right _ List.mem_cons_self
      have there : (place.1,place.1) ∈ gs.places chain :=
        owner_mem (split ▸ List.mem_append_right _ (List.mem_cons_of_mem _ member))
      have once := List.inj_on_of_nodup_map (map_places chain ▸ linearized.once) here there same
      exact other (same.trans (congrArg Prod.fst once).symm)

end Search

-- Without a misleading place the search is right; the converse needs that an overload
-- is found in one class only.
theorem findConcreteMethodTransitive_first_iff (c : ClassOrModuleRef) (chain : List ClassOrModuleRef)
    (superclasses : gs.Superclasses c chain) (depth : chain.length ≤ 100) :
    (gs.Straight name chain → gs.findConcreteMethodTransitive name c = some (gs.firstConcrete name (gs.ancestors chain))) ∧
    (gs.Linearized name chain →
      (gs.findConcreteMethodTransitive name c = some (gs.firstConcrete name (gs.ancestors chain)) ↔ gs.Straight name chain)) := by
  have search := @findConcreteMethodTransitiveInternal_eq gs name _ _ _ superclasses depth
  unfold findConcreteMethodTransitive
  rw [search,Option.some_inj]
  exact ⟨find_of_straight,fun linearized => ⟨straight_of_find linearized,find_of_straight⟩⟩

section Samples

-- The class 1 has the module 2, whose method 10 has the concrete overload 11. The class 3
-- below it has the method 12.
def mixedOverload : MethodTable where
  classAndModules := fun
    | 1 => ⟨none,[2],false,true,fun _ => none⟩
    | 2 => ⟨none,[],true,true,fun name => [10,11][name]?⟩
    | 3 => ⟨some 1,[],false,true,fun name => [12][name]?⟩
    | _ => ⟨none,[],false,true,fun _ => none⟩
  classAndModulesUsed := 4
  dealias := id
  asMethodRef := some
  methods := fun method => ⟨method = 10,false⟩
  overloadName := fun name => [1][name]?

theorem mixedOverload_findOverload {c : ClassOrModuleRef} {method : MethodRef}
    (found : mixedOverload.findOverload 0 c = some method) : c = 2 ∧ method = 11 := by
  have member : mixedOverload.findMember c 1 = some method := (Option.bind_fun_some _).symm.trans found
  unfold GlobalState.findMember mixedOverload at member
  dsimp only at member
  split at member
  all_goals simp at member
  exact ⟨rfl,member.symm⟩

theorem mixedOverload_linearized {chain : List ClassOrModuleRef} (once : (mixedOverload.ancestors chain).Nodup) :
    mixedOverload.Linearized 0 chain where
  once := once
  owned c d method found found' :=
    (mixedOverload_findOverload found).1.trans (mixedOverload_findOverload found').1.symm
  apart c d method found single := by
    cases (mixedOverload_findOverload found).2
    have member : mixedOverload.findMember d 0 = some 11 := (Option.bind_fun_some _).symm.trans single
    unfold GlobalState.findMember mixedOverload at member
    dsimp only at member
    split at member
    all_goals simp at member

theorem findConcreteMethodTransitive_mixin_missed : mixedOverload.Superclasses 1 [1] ∧ mixedOverload.Linearized 0 [1] ∧
    mixedOverload.findConcreteMethodTransitive 0 1 = some none ∧
    mixedOverload.firstConcrete 0 (mixedOverload.ancestors [1]) = some 11 :=
  ⟨.last rfl,mixedOverload_linearized (by decide),by decide,by decide⟩

theorem mixedOverload_straight : mixedOverload.Straight 0 [3,1] := by
  intro before owner sym after split none
  cases before with
  | nil =>
    cases (List.cons.inj split).1
    decide
  | cons place before =>
    have first := none place List.mem_cons_self
    rw [← (List.cons.inj split).1] at first
    exact absurd first (by decide)

theorem findConcreteMethodTransitive_own : mixedOverload.findConcreteMethodTransitive 0 3
    = some (mixedOverload.firstConcrete 0 (mixedOverload.ancestors [3,1])) :=
  ((findConcreteMethodTransitive_first_iff mixedOverload 0 3 [3,1] (.step rfl (.last rfl)) (by decide)).2
    (mixedOverload_linearized (by decide))).mpr mixedOverload_straight

end Samples

end MethodTable

end Ancestry
