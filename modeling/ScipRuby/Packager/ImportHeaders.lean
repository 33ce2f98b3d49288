import ScipRuby.Packager.RenderPackageRb

namespace Packager.PackageInfo
open StrictDependenciesLevel
variable {Name : Type}

section Pieces
variable {pieces later : List (Piece Name)} {under : Option Text}

theorem headers_append (pieces later : List (Piece Name)) : headers (pieces ++ later) = headers pieces ++ headers later := by
  induction pieces with
  | nil => rfl
  | cons piece pieces ih => cases piece <;> simp [headers,ih]

theorem standing_append (under : Option Text) (pieces later : List (Piece Name)) :
    standing under (pieces ++ later) = standing under pieces ++ standing ((headers pieces).getLast?.or under) later := by
  induction pieces generalizing under with
  | nil => rfl
  | cons piece pieces ih =>
    cases piece with
    | text written => simp [standing,headers,ih]
    | importLine imp written => simp [standing,headers,ih]
    | header written =>
      rw [List.cons_append,standing,standing,headers,ih,List.getLast?_cons]
      cases (headers pieces).getLast? <;> rfl

-- Pieces that neither are headers nor stand under one.
def Plain (pieces : List (Piece Name)) : Prop := ∀ piece ∈ pieces, ∃ written, piece = .text written

theorem plain_headers (plain : Plain pieces) : headers pieces = [] := by
  induction pieces with
  | nil => rfl
  | cons piece pieces ih =>
    obtain ⟨written,rfl⟩ := plain piece List.mem_cons_self
    exact ih fun other member => plain other (List.mem_cons_of_mem _ member)

theorem plain_standing (plain : Plain pieces) (under : Option Text) : standing under pieces = [] := by
  induction pieces with
  | nil => rfl
  | cons piece pieces ih =>
    obtain ⟨written,rfl⟩ := plain piece List.mem_cons_self
    exact ih fun other member => plain other (List.mem_cons_of_mem _ member)

theorem Plain.append (plain : Plain pieces) (plain' : Plain later) : Plain (pieces ++ later) :=
  fun piece member => (List.mem_append.mp member).elim (plain piece) (plain' piece)

theorem plain_nil : Plain ([] : List (Piece Name)) := fun _ member => by cases member

theorem plain_one (written : Text) : Plain [(.text written : Piece Name)] :=
  fun _ member => ⟨written,List.mem_singleton.mp member⟩

theorem plain_if {c : Prop} [Decidable c] (plain : Plain pieces) (plain' : Plain later) : Plain (if c then pieces else later) := by
  split
  · exact plain
  · exact plain'

theorem plain_map {α : Type} {f : α → Piece Name} (texts : ∀ a, ∃ written, f a = .text written) (as : List α) :
    Plain (as.map f) := by
  intro piece member
  obtain ⟨a,_,rfl⟩ := List.mem_map.mp member
  exact texts a

end Pieces

section Parts
variable (db : PackageDB Name) (this : PackageInfo Name) (show_ : Name → Text)
variable (newStrictnessByPkg : Name → StrictDependenciesLevel) (showLayer : NameRef → Text) (decl : Declarations Name)

theorem renderDeclarations_plain : Plain (this.renderDeclarations db newStrictnessByPkg showLayer decl) := by
  unfold renderDeclarations
  apply Plain.append
  · apply Plain.append
    · apply Plain.append
      · exact plain_if (plain_one _) plain_nil
      · exact plain_map (fun directive => ⟨_,rfl⟩) _
    · apply plain_if
      · cases this.layer with
        | none => exact plain_one _
        | some layer => exact (plain_one _).append (plain_one _)
      · exact plain_nil
  · cases decl.minTypedLevel with
    | none => exact plain_nil
    | some min => cases decl.testsMinTypedLevel <;> exact plain_one _

theorem renderExports_plain (newExports : List Text) : Plain (this.renderExports decl newExports) := by
  unfold renderExports
  apply Plain.append
  · exact plain_if (plain_one _) plain_nil
  · exact plain_if (plain_one _) (plain_map (fun export_ => ⟨_,rfl⟩) _)

theorem renderVisibleTo_plain : Plain (renderVisibleTo show_ decl) := by
  unfold renderVisibleTo
  apply Plain.append
  · apply Plain.append
    · exact plain_if (plain_one _) plain_nil
    · apply plain_map
      intro visibleTo
      cases visibleTo.type <;> exact ⟨_,rfl⟩
  · exact plain_if (plain_one _) plain_nil

-- Only the imports have headers.
theorem renderPackageRb_standing [DecidableEq Name] (newImports : List (Import Name)) (newExports : List Text) :
    let pieces := this.renderImports db show_ newStrictnessByPkg ⟨false,false,headerMap (newStrictnessByPkg this.mangledName)⟩ newImports
    let whole := this.renderPackageRb db show_ newStrictnessByPkg showLayer decl newImports newExports
    headers whole = headers pieces ∧ standing none whole = standing none pieces := by
  intro pieces whole
  have before := renderDeclarations_plain db this newStrictnessByPkg showLayer decl
  have after := renderExports_plain this decl newExports
  have last := renderVisibleTo_plain show_ decl
  constructor
  · simp only [whole,renderPackageRb,headers_append,plain_headers before,plain_headers after,plain_headers last]
    simp [pieces]
  · simp only [whole,renderPackageRb,standing_append,headers_append,plain_headers before,plain_standing before,
      plain_standing after,plain_standing last]
    simp [pieces]

end Parts

section Shown
variable [DecidableEq Name] {db : PackageDB Name} {this : PackageInfo Name} {show_ : Name → Text}
variable {newStrictnessByPkg : Name → StrictDependenciesLevel}

theorem headerToPrint_eq (strictness : StrictDependenciesLevel) (headersIt : List (StrictDependenciesLevel × Text)) (last : Text) :
    headerToPrint strictness headersIt last =
      ((((headersIt.takeWhile (·.1 ≤ strictness)).getLast?).map Prod.snd).getD last,Headings.rest headersIt strictness) := by
  induction headersIt generalizing last with
  | nil => rfl
  | cons entry headersIt ih =>
    rw [headerToPrint]
    split
    · rename_i low
      rw [ih,Headings.rest,Headings.rest,List.takeWhile_cons_of_pos (by simpa using low),
        List.dropWhile_cons_of_pos (by simpa using low),List.getLast?_cons]
      cases (headersIt.takeWhile (·.1 ≤ strictness)).getLast? <;> rfl
    · rename_i high
      rw [Headings.rest,List.takeWhile_cons_of_neg (by simpa using high),List.dropWhile_cons_of_neg (by simpa using high)]
      rfl

-- The header that is printed for an import, if any, and the state afterwards.
def shownHeader (db : PackageDB Name) (this : PackageInfo Name) (newStrictnessByPkg : Name → StrictDependenciesLevel)
    (st : RenderState) (imp : Import Name) : Option Text × RenderState :=
  if imp.type ≠ .Normal then (none,st)
  else if this.importViolates db imp then
    (if st.layeringViolationsHeaderShown then none else some layeringViolations,{st with layeringViolationsHeaderShown := true})
  else
    (((st.headersIt.takeWhile (·.1 ≤ newStrictnessByPkg imp.mangledName)).getLast?).map Prod.snd,
      {st with headersIt := Headings.rest st.headersIt (newStrictnessByPkg imp.mangledName)})

omit [DecidableEq Name] in
theorem renderHeader_eq (enforced : db.enforceLayering = true) (st : RenderState) (imp : Import Name)
    (texts : ∀ entry ∈ st.headersIt, entry.2 ≠ []) :
    this.renderHeader db newStrictnessByPkg st imp =
      ((shownHeader db this newStrictnessByPkg st imp).1.toList.map Piece.header,
        (shownHeader db this newStrictnessByPkg st imp).2) := by
  unfold renderHeader shownHeader
  by_cases normal : imp.type = .Normal
  · simp only [enforced,normal,decide_true,Bool.and_self,if_true,ne_eq,not_true_eq_false,if_false]
    split
    · split
      · rename_i shown
        cases st
        cases shown
        rfl
      · rfl
    · rw [headerToPrint_eq]
      cases last : (st.headersIt.takeWhile (·.1 ≤ newStrictnessByPkg imp.mangledName)).getLast? with
      | none => rfl
      | some entry =>
        have member := (List.takeWhile_sublist _).subset (List.mem_of_getLast? last)
        simp [texts entry member]
  · simp [normal]

def afterImport (db : PackageDB Name) (this : PackageInfo Name) (newStrictnessByPkg : Name → StrictDependenciesLevel)
    (st : RenderState) (imp : Import Name) : RenderState :=
  {(shownHeader db this newStrictnessByPkg st imp).2 with
    testImportNewLineAdded := st.testImportNewLineAdded || imp.isTestImport}

theorem renderImport_eq (enforced : db.enforceLayering = true) (st : RenderState) (imp : Import Name)
    (texts : ∀ entry ∈ st.headersIt, entry.2 ≠ []) :
    this.renderImport db show_ newStrictnessByPkg st imp =
      ((shownHeader db this newStrictnessByPkg st imp).1.toList.map Piece.header ++
        (if !st.testImportNewLineAdded && imp.isTestImport then [.text "\n".toList] else []) ++
        [.importLine imp (this.importText show_ imp)],afterImport db this newStrictnessByPkg st imp) := by
  have unchanged : (shownHeader db this newStrictnessByPkg st imp).2.testImportNewLineAdded = st.testImportNewLineAdded := by
    unfold shownHeader
    split
    · rfl
    · split <;> rfl
  rw [renderImport,renderHeader_eq enforced st imp texts]
  simp only [renderTestNewLine,unchanged,afterImport]
  generalize shownHeader db this newStrictnessByPkg st imp = shown at unchanged
  obtain ⟨header,shown,added,headersIt⟩ := shown
  have same : st.testImportNewLineAdded = added := unchanged.symm
  rw [same]
  cases added <;> cases imp.isTestImport <;> rfl

-- An import is printed under the header that is shown for it, or else under the last one.
theorem renderImports_headers (enforced : db.enforceLayering = true) (st : RenderState) (imp : Import Name)
    (newImports : List (Import Name)) (texts : ∀ entry ∈ st.headersIt, entry.2 ≠ []) :
    headers (this.renderImports db show_ newStrictnessByPkg st (imp :: newImports)) =
      (shownHeader db this newStrictnessByPkg st imp).1.toList ++
        headers (this.renderImports db show_ newStrictnessByPkg (afterImport db this newStrictnessByPkg st imp) newImports) := by
  rw [renderImports,headers_append,renderImport_eq enforced st imp texts]
  congr 1
  cases (shownHeader db this newStrictnessByPkg st imp).1 <;> dsimp only <;> split <;> rfl

theorem renderImports_standing (enforced : db.enforceLayering = true) (st : RenderState) (imp : Import Name)
    (newImports : List (Import Name)) (texts : ∀ entry ∈ st.headersIt, entry.2 ≠ []) (under : Option Text) :
    let shown := (shownHeader db this newStrictnessByPkg st imp).1.or under
    standing under (this.renderImports db show_ newStrictnessByPkg st (imp :: newImports)) =
      (imp,shown) :: standing shown
        (this.renderImports db show_ newStrictnessByPkg (afterImport db this newStrictnessByPkg st imp) newImports) := by
  intro shown
  rw [renderImports,standing_append,renderImport_eq enforced st imp texts]
  cases header : (shownHeader db this newStrictnessByPkg st imp).1 <;> simp only [shown,header] <;> split <;> rfl

end Shown

section Phases
variable [DecidableEq Name] {db : PackageDB Name} {this : PackageInfo Name} {show_ : Name → Text}
variable {newStrictnessByPkg : Name → StrictDependenciesLevel} {table : List (StrictDependenciesLevel × Text)}
variable {violating others tests newImports : List (Import Name)}

-- A header is shown instead of those it skips.
theorem last_sublist (entries : List (StrictDependenciesLevel × Text)) :
    (entries.getLast?.map Prod.snd).toList.Sublist (entries.map Prod.snd) := by
  cases last : entries.getLast? with
  | none => exact List.nil_sublist _
  | some entry => exact List.singleton_sublist.mpr (List.mem_map_of_mem (List.mem_of_getLast? last))

theorem tests_phase (enforced : db.enforceLayering = true) (only : ∀ imp ∈ tests, imp.type ≠ .Normal) (st : RenderState)
    (texts : ∀ entry ∈ st.headersIt, entry.2 ≠ []) (under : Option Text) :
    headers (this.renderImports db show_ newStrictnessByPkg st tests) = [] ∧
      standing under (this.renderImports db show_ newStrictnessByPkg st tests) = tests.map (·,under) := by
  induction tests generalizing st with
  | nil => exact ⟨rfl,rfl⟩
  | cons imp tests ih =>
    have same : shownHeader db this newStrictnessByPkg st imp = (none,st) := if_pos (only imp List.mem_cons_self)
    have rest := ih (fun other member => only other (List.mem_cons_of_mem _ member))
      (afterImport db this newStrictnessByPkg st imp) (by simpa [afterImport,same] using texts)
    rw [renderImports_headers enforced st imp tests texts,renderImports_standing enforced st imp tests texts,same]
    exact ⟨rest.1,congrArg ((imp,under) :: ·) rest.2⟩

-- The pass over the headers, from the level m on. The header before it is start.
theorem others_phase (show_ : Name → Text) (newStrictnessByPkg : Name → StrictDependenciesLevel)
    (enforced : db.enforceLayering = true) (rising : Headings.Rising table) (texts : ∀ entry ∈ table, entry.2 ≠ [])
    (kept : ∀ imp ∈ others, imp.type = .Normal ∧ this.importViolates db imp = false)
    (only : ∀ imp ∈ tests, imp.type ≠ .Normal) (m : StrictDependenciesLevel) (start : Option Text) (st : RenderState)
    (its : st.headersIt = Headings.rest table m) :
    (headers (this.renderImports db show_ newStrictnessByPkg st (others ++ tests))).Sublist ((Headings.rest table m).map Prod.snd) ∧
      ∃ last, standing ((Headings.heading table m).or start) (this.renderImports db show_ newStrictnessByPkg st (others ++ tests)) =
        others.zip ((Headings.running table m (others.map fun imp => newStrictnessByPkg imp.mangledName)).map (·.or start)) ++
          tests.map (·,last) := by
  have texts' : ∀ entry ∈ st.headersIt, entry.2 ≠ [] := by
    rw [its]
    exact fun entry member => texts entry ((List.dropWhile_sublist _).subset member)
  induction others generalizing m st with
  | nil =>
    obtain ⟨none_,standing_⟩ := tests_phase enforced only st texts' ((Headings.heading table m).or start)
    refine ⟨?_,_,standing_⟩
    rw [List.nil_append,none_]
    exact List.nil_sublist _
  | cons imp others ih =>
    obtain ⟨normal,keeps⟩ := kept imp List.mem_cons_self
    let k := newStrictnessByPkg imp.mangledName
    have shown : shownHeader db this newStrictnessByPkg st imp =
        ((((Headings.rest table m).takeWhile (·.1 ≤ k)).getLast?).map Prod.snd,
          {st with headersIt := Headings.rest table (max m k)}) := by
      rw [shownHeader,if_neg (not_not.mpr normal),keeps,its,Headings.rest_rest rising]
      rfl
    have its' : (afterImport db this newStrictnessByPkg st imp).headersIt = Headings.rest table (max m k) := by
      rw [afterImport,shown]
    obtain ⟨few,last,ih⟩ := ih (fun other member => kept other (List.mem_cons_of_mem _ member)) (max m k)
      (afterImport db this newStrictnessByPkg st imp) its' (by
        rw [its']
        exact fun entry member => texts entry ((List.dropWhile_sublist _).subset member))
    constructor
    · have pieces : (Headings.rest table m).map Prod.snd =
          ((Headings.rest table m).takeWhile (·.1 ≤ k)).map Prod.snd ++ (Headings.rest table (max m k)).map Prod.snd := by
        rw [← Headings.rest_rest rising,← List.map_append]
        exact congrArg (List.map Prod.snd) List.takeWhile_append_dropWhile.symm
      rw [List.cons_append,renderImports_headers enforced st imp _ texts',shown,pieces]
      exact (last_sublist _).append few
    · refine ⟨last,?_⟩
      rw [List.cons_append,renderImports_standing enforced st imp _ texts',shown,← Option.or_assoc,
        ← Headings.heading_max rising,ih]
      rfl

-- Once the header of the violations is shown it stays.
theorem violations_run (show_ : Name → Text) (newImports : List (Import Name)) (enforced : db.enforceLayering = true)
    (only : ∀ imp ∈ violating, imp.type = .Normal ∧ this.importViolates db imp = true) (st : RenderState)
    (texts : ∀ entry ∈ st.headersIt, entry.2 ≠ []) (shown : st.layeringViolationsHeaderShown = true) :
    ∃ st' : RenderState, st'.headersIt = st.headersIt ∧
      headers (this.renderImports db show_ newStrictnessByPkg st (violating ++ newImports)) =
        headers (this.renderImports db show_ newStrictnessByPkg st' newImports) ∧
      standing (some layeringViolations) (this.renderImports db show_ newStrictnessByPkg st (violating ++ newImports)) =
        violating.map (·,some layeringViolations) ++
          standing (some layeringViolations) (this.renderImports db show_ newStrictnessByPkg st' newImports) := by
  induction violating generalizing st with
  | nil => exact ⟨st,rfl,rfl,rfl⟩
  | cons imp violating ih =>
    obtain ⟨normal,violates⟩ := only imp List.mem_cons_self
    have same : shownHeader db this newStrictnessByPkg st imp = (none,st) := by
      cases st
      cases shown
      rw [shownHeader,if_neg (not_not.mpr normal),if_pos violates]
      rfl
    obtain ⟨st',its,headers_,standing_⟩ := ih (fun other member => only other (List.mem_cons_of_mem _ member))
      (afterImport db this newStrictnessByPkg st imp) (by simpa [afterImport,same] using texts) (by simp [afterImport,same,shown])
    refine ⟨st',?_,?_,?_⟩
    · rw [its,afterImport,same]
    · rw [List.cons_append,renderImports_headers enforced st imp _ texts,same,headers_]
      rfl
    · rw [List.cons_append,renderImports_standing enforced st imp _ texts,same]
      exact congrArg ((imp,some layeringViolations) :: ·) standing_

theorem violations_phase (show_ : Name → Text) (newStrictnessByPkg : Name → StrictDependenciesLevel)
    (newImports : List (Import Name)) (enforced : db.enforceLayering = true)
    (only : ∀ imp ∈ violating, imp.type = .Normal ∧ this.importViolates db imp = true) (st : RenderState)
    (texts : ∀ entry ∈ st.headersIt, entry.2 ≠ []) (shown : st.layeringViolationsHeaderShown = false) :
    ∃ (st' : RenderState) (under : Option Text), st'.headersIt = st.headersIt ∧
      (headers (this.renderImports db show_ newStrictnessByPkg st (violating ++ newImports))).Sublist
        (layeringViolations :: headers (this.renderImports db show_ newStrictnessByPkg st' newImports)) ∧
      standing none (this.renderImports db show_ newStrictnessByPkg st (violating ++ newImports)) =
        violating.map (·,some layeringViolations) ++
          standing under (this.renderImports db show_ newStrictnessByPkg st' newImports) := by
  cases violating with
  | nil => exact ⟨st,none,rfl,List.sublist_cons_self _ _,rfl⟩
  | cons imp violating =>
    obtain ⟨normal,violates⟩ := only imp List.mem_cons_self
    have first : shownHeader db this newStrictnessByPkg st imp =
        (some layeringViolations,{st with layeringViolationsHeaderShown := true}) := by
      rw [shownHeader,if_neg (not_not.mpr normal),if_pos violates,shown]
      rfl
    obtain ⟨st',its,headers_,standing_⟩ := violations_run show_ newImports enforced
      (fun other member => only other (List.mem_cons_of_mem _ member))
      (afterImport db this newStrictnessByPkg st imp) (by simpa [afterImport,first] using texts) (by rw [afterImport,first])
    refine ⟨st',some layeringViolations,?_,?_,?_⟩
    · rw [its,afterImport,first]
    · rw [List.cons_append,renderImports_headers enforced st imp _ texts,first,headers_]
      exact List.Sublist.refl _
    · rw [List.cons_append,renderImports_standing enforced st imp _ texts,first]
      exact congrArg ((imp,some layeringViolations) :: ·) standing_

end Phases

end Packager.PackageInfo
