import ScipRuby.Scip.Documents

namespace Scip

open Std

-- Comparing by length first and then element by element is the lexicographic
-- order among lists of one length.
theorem compareEach_lex {α : Type} (cmp : α → α → Ordering) (s t : List α) (even : s.length = t.length) :
    compareEach cmp s t = List.compareLex cmp s t := by
  induction s generalizing t with
  | nil =>
    cases t with
    | nil => rfl
    | cons b t => cases even
  | cons a s ih =>
    cases t with
    | nil => cases even
    | cons b t =>
      rw [List.compareLex_cons_cons,compareEach,ih t (Nat.succ.inj even)]

theorem compareRepeated_lex {α : Type} (cmp : α → α → Ordering) :
    compareRepeated cmp = compareLex (compareOn List.length) (List.compareLex cmp) := by
  funext s t
  unfold compareRepeated compareLex compareOn
  by_cases even : s.length = t.length
  · rw [compareEach_lex cmp s t even]
  · cases ordered : compare s.length t.length with
    | lt => rfl
    | gt => rfl
    | eq => exact absurd (Nat.compare_eq_eq.mp ordered) even

instance {α : Type} (cmp : α → α → Ordering) [TransCmp cmp] : TransCmp (compareRepeated cmp) := by
  rw [compareRepeated_lex]
  infer_instance

theorem compareRepeated_eq {α : Type} (cmp : α → α → Ordering) [LawfulEqCmp cmp] {s t : List α}
    (same : compareRepeated cmp s t = .eq) : s = t := by
  rw [compareRepeated_lex,compareLex_eq_eq] at same
  exact LawfulEqCmp.eq_of_compare same.2

theorem compareText_lex : compareText = List.compareLex (compareOn Char.toNat) := by
  funext s t
  induction s generalizing t with
  | nil => cases t <;> rfl
  | cons a s ih =>
    cases t with
    | nil => rfl
    | cons b t =>
      rw [List.compareLex_cons_cons,compareText,ih t]
      rfl

instance : TransCmp compareText := by
  rw [compareText_lex]
  infer_instance

instance charCode_lawful : LawfulEqCmp (compareOn Char.toNat) where
  compare_self := Nat.compare_eq_eq.mpr rfl
  eq_of_compare same := Char.toNat_inj.mp (Nat.compare_eq_eq.mp same)

instance : LawfulEqCmp compareText := by
  rw [compareText_lex]
  infer_instance

theorem compared_trans {α β : Type} (field : α → β) (cmp : β → β → Ordering) [TransCmp cmp] :
    TransCmp (fun a b => cmp (field a) (field b)) where
  eq_swap := OrientedCmp.eq_swap
  isLE_trans := TransCmp.isLE_trans

-- The comparators test one field after another.
theorem then_trans {α : Type} {first second : α → α → Ordering} (left : TransCmp first) (right : TransCmp second) :
    TransCmp (fun a b => (first a b).then (second a b)) := inferInstanceAs (TransCmp (compareLex first second))

instance : TransCmp compareDocument := compared_trans Document.relativePath compareText

instance : TransCmp compareOccurrence :=
  then_trans (then_trans (then_trans (compared_trans Occurrence.range (compareRepeated compare))
    (compared_trans Occurrence.symbol compareText)) (compared_trans Occurrence.symbolRoles compare))
    (compared_trans Occurrence.overrideDocumentation (compareRepeated compareText))

instance : TransCmp compareRelationship :=
  then_trans (then_trans (then_trans (then_trans (compared_trans Relationship.symbol compareText)
    (compared_trans Relationship.isReference compare)) (compared_trans Relationship.isImplementation compare))
    (compared_trans Relationship.isTypeDefinition compare)) (compared_trans Relationship.isDefinition compare)

instance : TransCmp compareSymbolInformation :=
  then_trans (then_trans (compared_trans SymbolInformation.symbol compareText)
    (compared_trans SymbolInformation.documentation (compareRepeated compareText)))
    (compared_trans SymbolInformation.relationships (compareRepeated compareRelationship))

instance : LawfulEqCmp compareRelationship where
  compare_self := ReflCmp.compare_self
  eq_of_compare {r1 r2} same := by
    simp only [compareRelationship,Ordering.then_eq_eq] at same
    obtain ⟨⟨⟨⟨symbol,reference⟩,implementation⟩,typeDefinition⟩,definition⟩ := same
    cases r1
    cases r2
    simp only [Relationship.mk.injEq]
    exact ⟨LawfulEqCmp.eq_of_compare symbol,LawfulEqCmp.eq_of_compare reference,
      LawfulEqCmp.eq_of_compare implementation,LawfulEqCmp.eq_of_compare typeDefinition,
      LawfulEqCmp.eq_of_compare definition⟩

-- Different symbol informations are never taken for equal.
theorem compareSymbolInformation_eq (same : compareSymbolInformation s1 s2 = .eq) : s1 = s2 := by
  simp only [compareSymbolInformation,Ordering.then_eq_eq] at same
  obtain ⟨⟨symbol,documentation⟩,relationships⟩ := same
  cases s1
  cases s2
  simp only [SymbolInformation.mk.injEq]
  exact ⟨LawfulEqCmp.eq_of_compare symbol,compareRepeated_eq compareText documentation,
    compareRepeated_eq compareRelationship relationships⟩

-- Different occurrences are, when they differ in their enclosing ranges alone.
theorem compareOccurrence_eq (same : compareOccurrence o1 o2 = .eq) :
    o1 = { o2 with enclosingRange := o1.enclosingRange } := by
  simp only [compareOccurrence,Ordering.then_eq_eq] at same
  obtain ⟨⟨⟨range,symbol⟩,roles⟩,docs⟩ := same
  cases o1
  cases o2
  simp only [Occurrence.mk.injEq,true_and]
  exact ⟨LawfulEqCmp.eq_of_compare symbol,LawfulEqCmp.eq_of_compare roles,compareRepeated_eq compare range,
    compareRepeated_eq compareText docs⟩

-- An unstable sort is still a function of the elements when the comparator
-- tells all of them apart.
theorem FastSort.sort_perm (sorting : FastSort) {α : Type} (cmp : α → α → Ordering) [TransCmp cmp] {l l' : List α}
    (perm : l.Perm l') (apart : ∀ a ∈ l, ∀ b ∈ l, cmp a b = .eq → a = b) :
    sorting.sort cmp l = sorting.sort cmp l' := by
  have both : (sorting.sort cmp l).Perm (sorting.sort cmp l') :=
    (sorting.perm cmp l).trans (perm.trans (sorting.perm cmp l').symm)
  apply both.eq_of_pairwise ?_ (sorting.sorted cmp l) (sorting.sorted cmp l')
  intro a b here there below above
  have inside : a ∈ l := (sorting.perm cmp l).subset here
  have inside' : b ∈ l := perm.symm.subset ((sorting.perm cmp l').subset there)
  apply apart a inside b inside'
  have mirrored : cmp b a = (cmp a b).swap := OrientedCmp.eq_swap
  rw [mirrored] at above
  cases outcome : cmp a b <;> simp_all

-- Insertion sort, which pdqsort falls back to on short inputs, as an instance.
def insertionSorting : FastSort where
  sort cmp l := l.insertionSort (fun a b => (cmp a b).isLE)
  perm cmp l := List.perm_insertionSort _ l
  sorted cmp _ l := by
    have total : Std.Total (fun a b => (cmp a b).isLE = true) := ⟨fun a b => by
      have mirrored : cmp b a = (cmp a b).swap := OrientedCmp.eq_swap
      rw [mirrored]
      cases cmp a b <;> simp⟩
    have trans : IsTrans _ (fun a b => (cmp a b).isLE = true) := ⟨fun _ _ _ => TransCmp.isLE_trans⟩
    exact List.pairwise_insertionSort _ l

end Scip

namespace Scip

-- A symbol as the symbol table files it, without a look at any cache.
def UntypedGenericSymbolRef.tabled (gs : GlobalState) (gemMap : GemMapping) (s : UntypedGenericSymbolRef) : Option Str :=
  s.freshString gs gemMap none

-- The spellings met while a definition is recorded, whose own string is known.
def spelling (gs : GlobalState) (gemMap : GemMapping) (own : UntypedGenericSymbolRef) (text : Str)
    (s : UntypedGenericSymbolRef) : Option Str := if s = own then some text else s.tabled gs gemMap

def relate (strings : UntypedGenericSymbolRef → Option Str) (name : NameRef) (target : SymbolRef × Relationship) :
    Option Relationship :=
  (strings ⟨target.1,name⟩).map (fun text => { target.2 with symbol := text })

def parentRelationships (strings : UntypedGenericSymbolRef → Option Str) (relationships : RelationshipsMap)
    (symRef : UntypedGenericSymbolRef) : List Relationship :=
  match relationships symRef with
  | none => []
  | some result => ((SCIPState.parentTargets symRef result).filterMap (relate strings symRef.name)).insertionSort
      (fun r1 r2 => compareRelationship r1 r2 ≠ .gt)

def aliasRelationships (strings : UntypedGenericSymbolRef → Option Str) (aliased : Option UntypedGenericSymbolRef) :
    List Relationship :=
  (aliased.bind strings).toList.map (fun text => { isReference := true,symbol := text })

def Definition.relationships (gs : GlobalState) (gemMap : GemMapping) (related : RelationshipsMap) (d : Definition)
    (text : Str) : List Relationship :=
  parentRelationships (spelling gs gemMap d.symRef.withoutType text) related d.symRef.withoutType ++
    aliasRelationships (spelling gs gemMap d.symRef.withoutType text) d.aliasedSymbol

def Reference.overrideDocs (gs : GlobalState) (r : Reference) : List Str :=
  match r.symRef.kind with
  | .type | .classOrModule | .method => []
  | .parameter | .field =>
    match r.overrideType with
    | some type => r.symRef.saveDocStrings gs (some type) r.loc
    | none => []

def definitionOccurrence (gs : GlobalState) (text : Str) (occLoc : Loc) (enclosingLoc : Option Loc) : Option Occurrence :=
  if occLoc.usable then (occurrenceRange gs.files occLoc).map (fun range =>
    { symbol := text,symbolRoles := definitionRole,range := range
      enclosingRange := match enclosingLoc with
        | some loc => if loc.empty then [] else fromSorbetLoc gs.files loc
        | none => [] })
  else none

def referenceOccurrence (gs : GlobalState) (text : Str) (docs : List Str) (occLoc : Loc) (roles : Nat) : Option Occurrence :=
  (occurrenceRange gs.files occLoc).map (fun range =>
    { symbol := text,symbolRoles := roles,range := range,overrideDocumentation := docs.map gs.escapeInvalidUtf8 })

-- What an index of one file is built from. It has no part in other files and
-- no symbol strings but those of its own saves.
structure FileIndex where
  occurrences : List Occurrence := []
  symbols : List SymbolInformation := []
  waiting : List UntypedGenericSymbolRef := []
  related : RelationshipsMap := fun _ => none
  locals : LocOffsets × Nat → List Nat := fun _ => []
  seen : List (UntypedGenericSymbolRef × Loc × Nat) := []

namespace FileIndex

section
variable (gs : GlobalState) (gemMap : GemMapping)

def define (index : FileIndex) (text : Str) (occLoc : Loc) (docs : List Str) (rels : List Relationship)
    (enclosingLoc : Option Loc) : FileIndex :=
  match definitionOccurrence gs text occLoc enclosingLoc with
  | none => index
  | some occurrence => { index with
      occurrences := index.occurrences ++ [occurrence]
      symbols := index.symbols ++ [⟨text,docs.map gs.escapeInvalidUtf8,rels⟩] }

def refer (index : FileIndex) (occurrence : Option Occurrence) : FileIndex :=
  { index with occurrences := index.occurrences ++ occurrence.toList }

def await (index : FileIndex) (s : UntypedGenericSymbolRef) : FileIndex :=
  if (index.related s).isSome ∧ s ∉ index.waiting then { index with waiting := index.waiting ++ [s] } else index

def enter (index : FileIndex) (s : UntypedGenericSymbolRef) (result : FieldQueryResult) : FileIndex :=
  if (index.related s).isSome then index
  else { index with related := Function.update index.related s (some result) }

def remember (index : FileIndex) (key : UntypedGenericSymbolRef × Loc × Nat) : FileIndex :=
  { index with seen := key :: index.seen }

def step (index : FileIndex) : Step → FileIndex
  | .localDefinition d =>
    if d.occ.counter ∈ index.locals (d.occ.offsets,definitionRole) then index
    else { index with locals := append index.locals (d.occ.offsets,definitionRole) d.occ.counter }.define gs
      (d.occ.toSCIPString gs) ⟨d.file,d.occ.offsets⟩ (localDocs gs d.file d.occ d.type) [] d.enclosingLoc
  | .localReference r =>
    if r.occ.counter ∈ index.locals (r.occ.offsets,r.symbolRoles) then index
    else { index with locals := append index.locals (r.occ.offsets,r.symbolRoles) r.occ.counter }.refer
      (referenceOccurrence gs (r.occ.toSCIPString gs) (localDocs gs r.file r.occ r.overrideType)
        ⟨r.file,r.occ.offsets⟩ r.symbolRoles)
  | .definition d =>
    match d.spelled gs gemMap with
    | none => index
    | some text => index.define gs text (d.occLoc gs)
        (d.symRef.saveDocStrings gs d.symRef.definitionType (d.occLoc gs))
        (d.relationships gs gemMap index.related text) d.enclosingLoc
  | .reference r =>
    if r.hidden gs || index.seen.contains r.key then index
    else match r.symRef.withoutType.tabled gs gemMap with
      | none => index.remember r.key
      | some text => ((index.remember r.key).await r.symRef.withoutType).refer
          (referenceOccurrence gs text (r.overrideDocs gs) r.loc r.symbolRoles)
  | .enterRelationships _ s result => index.enter s result
  | .clearFunctionLocalCaches => { index with locals := fun _ => [] }
  | .finalizeRefOnlySymbolInfos _ _ => index

theorem step_passed (index : FileIndex) (r : Reference) (passed : r.hidden gs = true ∨ r.key ∈ index.seen) :
    index.step gs gemMap (.reference r) = index := by
  have skipped : (r.hidden gs || index.seen.contains r.key) = true := by simpa using passed
  simp only [step,skipped,if_true]

theorem step_referred (index : FileIndex) (r : Reference) (visible : r.hidden gs = false) (unseen : r.key ∉ index.seen) :
    index.step gs gemMap (.reference r) =
      match r.symRef.withoutType.tabled gs gemMap with
      | none => index.remember r.key
      | some text => ((index.remember r.key).await r.symRef.withoutType).refer
          (referenceOccurrence gs text (r.overrideDocs gs) r.loc r.symbolRoles) := by
  have fresh : (r.hidden gs || index.seen.contains r.key) = false := by simp [visible,unseen]
  simp only [step,fresh,Bool.false_eq_true,if_false]

def refOnlyInfo (index : FileIndex) (s : UntypedGenericSymbolRef) : Option SymbolInformation :=
  (s.tabled gs gemMap).map (fun text => ⟨text,[],parentRelationships (UntypedGenericSymbolRef.tabled gs gemMap) index.related s⟩)

-- The symbols of the document, in no particular order.
def allSymbols (index : FileIndex) : List SymbolInformation :=
  index.symbols ++ index.waiting.filterMap (index.refOnlyInfo gs gemMap)

def ofSteps (steps : List Step) : FileIndex := steps.foldl (step gs gemMap) {}

def document (currentPath : Str) (sorting : FastSort) (visit : FileVisit) : Document :=
  let index := ofSteps gs gemMap visit.steps
  ⟨documentPath currentPath (gs.files visit.file).path,sorting.sort compareOccurrence index.occurrences,
    sorting.sort compareSymbolInformation (index.allSymbols gs gemMap)⟩

end

end FileIndex

end Scip
