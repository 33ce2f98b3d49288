import Mathlib.Logic.Relation
import Mathlib.Order.WellFounded
import ScipRuby.Scip.Saves

namespace Scip
open Relation

-- What the resolution of fields reads of the symbol table besides the names and
-- superclasses: whether a class has a member of a name, and whether the resolver
-- has met the name in it as an undeclared field.
structure FieldTable where
  gs : GlobalState
  mixins : SymbolRef → List SymbolRef
  lookupSingletonClass : SymbolRef → SymbolRef
  findMember : SymbolRef → NameRef → Bool
  unresolvedFields : SymbolRef → NameRef → Bool

structure FieldQuery where
  file : FileRef
  start : SymbolRef
  field : NameRef
  deriving DecidableEq,Repr

def isClassVar : Str → Bool
  | '@' :: '@' :: _ => true
  | _ => false

def isInstanceVar : Str → Bool
  | '@' :: c :: _ => c != '@'
  | _ => false

section Resolving
variable (table : FieldTable)

def normalizeParentForClassVar (klass : SymbolRef) (name : Str) : SymbolRef :=
  if isClassVar name && !table.gs.isSingletonClass klass then table.lookupSingletonClass klass else klass

-- The walk up the superclasses; none stands for a walk that still runs.
def inheritanceLoop (field : NameRef) : Nat → SymbolRef → SymbolRef → Option SymbolRef
  | 0,_,_ => none
  | fuel + 1,best,cur =>
    if !cur.exists then some best
    else if table.findMember cur field then some cur
    else
      let best := if table.unresolvedFields cur field then cur else best
      if cur = table.gs.superClass cur then some best else inheritanceLoop field fuel best (table.gs.superClass cur)

def isClassInstanceVar (query : FieldQuery) : Bool :=
  isInstanceVar (table.gs.shortName query.field) && table.gs.isSingletonClass query.start

def findUnresolvedFieldInInheritanceChain (fuel : Nat) (query : FieldQuery) : Option SymbolRef :=
  if isClassInstanceVar table query then some query.start
  else
    let start := normalizeParentForClassVar table query.start (table.gs.shortName query.field)
    inheritanceLoop table query.field fuel start start

-- The queue holds the mixins of the start only: nothing is added to it later.
def findUnresolvedFieldInMixinsTransitive (query : FieldQuery) : List SymbolRef :=
  (table.mixins query.start).filter fun mixin =>
    table.findMember mixin query.field || table.unresolvedFields mixin query.field

end Resolving

section Specification
variable (table : FieldTable)

def Parent (child parent : SymbolRef) : Prop := table.gs.superClass child = parent ∧ parent.exists ∧ parent ≠ child

def Acyclic : Prop := WellFounded fun parent child => Parent table child parent

def AtOrAbove (start klass : SymbolRef) : Prop := start.exists = true ∧ ReflTransGen (Parent table) start klass

-- The nearest class that declares the field: every other one is above it.
def Nearest (start : SymbolRef) (field : NameRef) (klass : SymbolRef) : Prop :=
  AtOrAbove table start klass ∧ table.findMember klass field = true ∧
    ∀ other, AtOrAbove table start other → table.findMember other field = true → AtOrAbove table klass other

-- A class that mentions it and has no class above that does.
def Topmost (field : NameRef) (klass : SymbolRef) : Prop :=
  table.unresolvedFields klass field = true ∧
    ∀ other, AtOrAbove table klass other → table.unresolvedFields other field = true → other = klass

def Undeclared (start : SymbolRef) (field : NameRef) : Prop :=
  ∀ klass, AtOrAbove table start klass → table.findMember klass field = false

def Unmentioned (start : SymbolRef) (field : NameRef) : Prop :=
  ∀ klass, AtOrAbove table start klass → table.unresolvedFields klass field = false

-- What a walk from a class finds, where otherwise is its answer for an unknown field.
def Finds (start : SymbolRef) (field : NameRef) (otherwise answer : SymbolRef) : Prop :=
  Nearest table start field answer ∨
    (Undeclared table start field ∧ AtOrAbove table start answer ∧ Topmost table field answer) ∨
    (Undeclared table start field ∧ Unmentioned table start field ∧ answer = otherwise)

end Specification

section Walk
variable {table : FieldTable} {field : NameRef} {best cur start parent klass answer : SymbolRef}

theorem atOrAbove_self (present : cur.exists = true) : AtOrAbove table cur cur := ⟨present,.refl⟩

theorem atOrAbove_parent (present : cur.exists = true) (step : Parent table cur parent) :
    AtOrAbove table cur klass ↔ klass = cur ∨ AtOrAbove table parent klass := by
  constructor
  · rintro ⟨_,path⟩
    obtain rfl | ⟨next,first,rest⟩ := ReflTransGen.cases_head path
    · exact .inl rfl
    · obtain rfl : parent = next := step.1.symm.trans first.1
      exact .inr ⟨step.2.1,rest⟩
  · rintro (rfl | ⟨_,path⟩)
    · exact atOrAbove_self present
    · exact ⟨present,path.head step⟩

theorem atOrAbove_last (last : ∀ parent, ¬ Parent table cur parent) (above : AtOrAbove table cur klass) : klass = cur := by
  obtain rfl | ⟨next,first,_⟩ := ReflTransGen.cases_head above.2
  · rfl
  · exact absurd first (last next)

theorem Finds.here (present : cur.exists = true) (declared : table.findMember cur field = true) :
    Finds table cur field best cur :=
  .inl ⟨atOrAbove_self present,declared,fun _ above _ => above⟩

-- The class itself adds its own mention to what is found above it.
theorem Finds.above (present : cur.exists = true) (undeclared : table.findMember cur field = false) (step : Parent table cur parent)
    (finds : Finds table parent field (if table.unresolvedFields cur field then cur else best) answer) :
    Finds table cur field best answer := by
  have undeclared' : Undeclared table parent field → Undeclared table cur field := by
    intro none klass above
    obtain rfl | above := (atOrAbove_parent present step).mp above
    · exact undeclared
    · exact none klass above
  have lift : ∀ {klass}, AtOrAbove table parent klass → AtOrAbove table cur klass :=
    fun above => (atOrAbove_parent present step).mpr (.inr above)
  obtain ⟨above,declared,nearest⟩ | ⟨none,above,topmost⟩ | ⟨none,unmentioned,rfl⟩ := finds
  · refine .inl ⟨lift above,declared,fun other above' declared' => ?_⟩
    obtain rfl | above' := (atOrAbove_parent present step).mp above'
    · rw [undeclared] at declared'
      cases declared'
    · exact nearest other above' declared'
  · exact .inr (.inl ⟨undeclared' none,lift above,topmost⟩)
  · cases mentioned : table.unresolvedFields cur field with
    | true =>
      refine .inr (.inl ⟨undeclared' none,atOrAbove_self present,mentioned,fun other above mentioned' => ?_⟩)
      obtain rfl | above := (atOrAbove_parent present step).mp above
      · rfl
      · rw [unmentioned other above] at mentioned'
        cases mentioned'
    | false =>
      refine .inr (.inr ⟨undeclared' none,fun klass above => ?_,rfl⟩)
      obtain rfl | above := (atOrAbove_parent present step).mp above
      · exact mentioned
      · exact unmentioned klass above

theorem Finds.last (present : cur.exists = true) (undeclared : table.findMember cur field = false)
    (last : ∀ parent, ¬ Parent table cur parent) :
    Finds table cur field best (if table.unresolvedFields cur field then cur else best) := by
  have none : Undeclared table cur field := fun klass above => atOrAbove_last last above ▸ undeclared
  cases mentioned : table.unresolvedFields cur field with
  | true => exact .inr (.inl ⟨none,atOrAbove_self present,mentioned,fun other above _ => atOrAbove_last last above⟩)
  | false => exact .inr (.inr ⟨none,fun klass above => atOrAbove_last last above ▸ mentioned,rfl⟩)

theorem Finds.absent (absent : cur.exists = false) : Finds table cur field best best := by
  have nothing : ∀ klass, ¬ AtOrAbove table cur klass := by
    rintro klass ⟨present,_⟩
    rw [absent] at present
    cases present
  exact .inr (.inr ⟨fun klass above => absurd above (nothing klass),fun klass above => absurd above (nothing klass),rfl⟩)

theorem inheritanceLoop_finds (acyclic : Acyclic table) (best cur : SymbolRef) :
    ∃ enough answer, (∀ fuel, enough ≤ fuel → inheritanceLoop table field fuel best cur = some answer) ∧
      Finds table cur field best answer := by
  induction cur using acyclic.induction generalizing best with
  | _ cur ih =>
  cases present : cur.exists with
  | false =>
    refine ⟨1,best,fun fuel more => ?_,.absent present⟩
    obtain ⟨fuel,rfl⟩ := Nat.exists_eq_add_of_le' more
    simp [inheritanceLoop,present]
  | true =>
    cases declared : table.findMember cur field with
    | true =>
      refine ⟨1,cur,fun fuel more => ?_,.here present declared⟩
      obtain ⟨fuel,rfl⟩ := Nat.exists_eq_add_of_le' more
      simp [inheritanceLoop,present,declared]
    | false =>
      by_cases root : cur = table.gs.superClass cur
      · have last : ∀ parent, ¬ Parent table cur parent := fun parent step => step.2.2 (step.1.symm.trans root.symm)
        refine ⟨1,_,fun fuel more => ?_,.last present declared last⟩
        obtain ⟨fuel,rfl⟩ := Nat.exists_eq_add_of_le' more
        simp [inheritanceLoop,present,declared,← root]
      · cases parent : (table.gs.superClass cur).exists with
        | true =>
          have step : Parent table cur (table.gs.superClass cur) := ⟨rfl,parent,Ne.symm root⟩
          obtain ⟨enough,answer,runs,finds⟩ := ih _ step (if table.unresolvedFields cur field then cur else best)
          refine ⟨enough + 1,answer,fun fuel more => ?_,finds.above present declared step⟩
          obtain ⟨fuel,rfl⟩ := Nat.exists_eq_add_of_le' more
          have run := runs (fuel + enough) (by omega)
          simpa [inheritanceLoop,present,declared,root] using run
        | false =>
          have last : ∀ parent, ¬ Parent table cur parent := by
            rintro _ ⟨rfl,there,_⟩
            rw [parent] at there
            cases there
          refine ⟨2,_,fun fuel more => ?_,.last present declared last⟩
          obtain ⟨fuel,rfl⟩ := Nat.exists_eq_add_of_le' more
          simp [inheritanceLoop,present,declared,root,parent]

theorem parent_unique : Relator.RightUnique (Parent table) := fun _ _ _ first second => first.1.symm.trans second.1

-- Of two classes above one class the one is above the other.
theorem Topmost.unique {other : SymbolRef} (topmost : Topmost table field klass) (topmost' : Topmost table field other)
    (above : AtOrAbove table start klass) (above' : AtOrAbove table start other) (present : klass.exists = true)
    (present' : other.exists = true) : klass = other := by
  obtain path | path := ReflTransGen.total_of_right_unique parent_unique above.2 above'.2
  · exact (topmost.2 other ⟨present,path⟩ topmost'.1).symm
  · exact topmost'.2 klass ⟨present',path⟩ topmost.1

theorem AtOrAbove.exists (above : AtOrAbove table start klass) : klass.exists = true := by
  obtain ⟨present,path⟩ := above
  induction path with
  | refl => exact present
  | tail _ step _ => exact step.2.1

theorem AtOrAbove.antisymm (acyclic : Acyclic table) (first : AtOrAbove table klass answer) (second : AtOrAbove table answer klass) :
    klass = answer := by
  obtain same | path := reflTransGen_iff_eq_or_transGen.mp first.2
  · exact same.symm
  · have around : TransGen (fun parent child => Parent table child parent) klass klass :=
      transGen_swap.mpr (path.trans_left second.2)
    exact (acyclic.transGen.asymmetric klass klass around around).elim

theorem Finds.unique {other : SymbolRef} (acyclic : Acyclic table) (finds : Finds table start field best answer)
    (finds' : Finds table start field best other) : answer = other := by
  obtain ⟨above,declared,nearest⟩ | ⟨none,above,topmost⟩ | ⟨none,unmentioned,rfl⟩ := finds
  · obtain ⟨above',declared',nearest'⟩ | ⟨none',_⟩ | ⟨none',_⟩ := finds'
    · exact (nearest other above' declared').antisymm acyclic (nearest' answer above declared)
    · rw [none' answer above] at declared
      cases declared
    · rw [none' answer above] at declared
      cases declared
  · obtain ⟨above',declared',_⟩ | ⟨_,above',topmost'⟩ | ⟨_,unmentioned',_⟩ := finds'
    · rw [none other above'] at declared'
      cases declared'
    · exact topmost.unique topmost' above above' above.exists above'.exists
    · have mentioned := topmost.1
      rw [unmentioned' answer above] at mentioned
      cases mentioned
  · obtain ⟨above',declared',_⟩ | ⟨_,above',topmost'⟩ | ⟨_,_,rfl⟩ := finds'
    · rw [none other above'] at declared'
      cases declared'
    · have mentioned := topmost'.1
      rw [unmentioned other above'] at mentioned
      cases mentioned
    · rfl

theorem inheritanceChain_finds (acyclic : Acyclic table) (query : FieldQuery) :
    ∃ enough answer,
      (∀ fuel, enough ≤ fuel → findUnresolvedFieldInInheritanceChain table fuel query = some answer) ∧
      (isClassInstanceVar table query = true → answer = query.start) ∧
      (isClassInstanceVar table query = false →
        Finds table (normalizeParentForClassVar table query.start (table.gs.shortName query.field)) query.field
          (normalizeParentForClassVar table query.start (table.gs.shortName query.field)) answer) := by
  cases own : isClassInstanceVar table query with
  | true =>
    refine ⟨0,query.start,fun fuel _ => ?_,fun _ => rfl,by simp⟩
    rw [findUnresolvedFieldInInheritanceChain,if_pos own]
  | false =>
    obtain ⟨enough,answer,runs,finds⟩ := inheritanceLoop_finds acyclic
      (normalizeParentForClassVar table query.start (table.gs.shortName query.field))
      (normalizeParentForClassVar table query.start (table.gs.shortName query.field))
    refine ⟨enough,answer,fun fuel more => ?_,by simp,fun _ => finds⟩
    rw [findUnresolvedFieldInInheritanceChain,own,if_neg Bool.false_ne_true]
    exact runs fuel more

end Walk

-- The walk ends, finds the nearest declaration or else the topmost mention, and
-- so agrees for all classes below one topmost mention.
theorem findUnresolvedFieldInInheritanceChain_coherent (table : FieldTable) (acyclic : Acyclic table) (query : FieldQuery) :
    ∃ enough answer,
      (∀ fuel, enough ≤ fuel → findUnresolvedFieldInInheritanceChain table fuel query = some answer) ∧
      (isClassInstanceVar table query = true → answer = query.start) ∧
      (isClassInstanceVar table query = false →
        Finds table (normalizeParentForClassVar table query.start (table.gs.shortName query.field)) query.field
          (normalizeParentForClassVar table query.start (table.gs.shortName query.field)) answer) ∧
      (isClassInstanceVar table query = false → (∀ klass, table.findMember klass query.field = false) →
        ∀ top, Topmost table query.field top →
          AtOrAbove table (normalizeParentForClassVar table query.start (table.gs.shortName query.field)) top → answer = top) := by
  obtain ⟨enough,answer,runs,owned,inherited⟩ := inheritanceChain_finds acyclic query
  refine ⟨enough,answer,runs,owned,inherited,fun own undeclared top topmost above => ?_⟩
  obtain ⟨_,declared,_⟩ | ⟨_,above',topmost'⟩ | ⟨_,unmentioned,_⟩ := inherited own
  · rw [undeclared answer] at declared
    cases declared
  · exact topmost'.unique topmost above' above above'.exists above.exists
  · have mentioned := topmost.1
    rw [unmentioned top above] at mentioned
    cases mentioned

-- A class 100 below 101, with singleton classes 1100 and 1101 below Class, which
-- is 10. The class variable 20 is undeclared in both singleton classes; 100
-- includes a module 50, which declares the class variable 22.
def fieldClass (id : Nat) : SymbolRef := ⟨.classOrModule,id⟩

def fieldParent (id : Nat) : Nat := if id = 100 then 101 else if id = 1100 then 1101 else if id = 1101 then 10 else 0

def fieldTable : FieldTable where
  gs :=
    {sampleTable with
      shortName := fun name => if name = 20 then "@@x".toList else if name = 22 then "@@y".toList else "@x".toList
      superClass := fun sym => fieldClass (fieldParent sym.id)
      isSingletonClass := fun sym => 1000 ≤ sym.id}
  mixins := fun sym => if sym.id = 100 then [fieldClass 50] else []
  lookupSingletonClass := fun sym => ⟨sym.kind,sym.id + 1000⟩
  findMember := fun sym name => sym.id = 50 && name = 22
  unresolvedFields := fun sym name => name = 20 && (sym.id = 1100 || sym.id = 1101)

theorem fieldTable_acyclic : Acyclic fieldTable := by
  apply Subrelation.wf (r := InvImage (· < ·) fun sym : SymbolRef =>
    if sym.id = 1100 then 3 else if sym.id = 1101 then 2 else if sym.id = 100 then 1 else 0)
  · rintro parent child ⟨rfl,present,_⟩
    have filled : fieldParent child.id ≠ 0 := by simpa [fieldTable,fieldClass,SymbolRef.exists] using present
    change (if fieldParent child.id = 1100 then 3 else if fieldParent child.id = 1101 then 2
      else if fieldParent child.id = 100 then 1 else 0) < _
    unfold fieldParent at filled ⊢
    grind
  · exact InvImage.wf _ Nat.lt_wfRel.wf

theorem findUnresolvedFieldInInheritanceChain_coherent_sample :
    ∃ enough answer,(∀ fuel, enough ≤ fuel →
      findUnresolvedFieldInInheritanceChain fieldTable fuel ⟨1,fieldClass 100,20⟩ = some answer) ∧ answer = fieldClass 1101 := by
  obtain ⟨enough,answer,runs,_,_,same⟩ := findUnresolvedFieldInInheritanceChain_coherent fieldTable fieldTable_acyclic
    ⟨1,fieldClass 100,20⟩
  have above : AtOrAbove fieldTable (fieldClass 1100) (fieldClass 1101) := ⟨rfl,.single ⟨rfl,rfl,by decide⟩⟩
  have topmost : Topmost fieldTable 20 (fieldClass 1101) := by
    refine ⟨rfl,fun other above mentioned => ?_⟩
    have step : Parent fieldTable (fieldClass 1101) (fieldClass 10) := ⟨rfl,rfl,by decide⟩
    have last : ∀ parent, ¬ Parent fieldTable (fieldClass 10) parent := by
      rintro _ ⟨rfl,present,_⟩
      cases present
    obtain same | above := (atOrAbove_parent rfl step).mp above
    · exact same
    · rw [atOrAbove_last last above] at mentioned
      cases mentioned
  exact ⟨enough,answer,runs,same (by decide) (fun klass => by simp [fieldTable]) _ topmost above⟩

end Scip
