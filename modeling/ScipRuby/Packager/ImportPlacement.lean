import ScipRuby.Packager.ImportHeaders

namespace Packager.PackageInfo
open Arrangements StrictDependenciesLevel
variable {Name : Type}

-- The header of the category of a level, for a package of the level own.
def categoryHeader (own level : StrictDependenciesLevel) : Text :=
  match own,level with
  | .None,_ | _,.None => []
  | .False,.False | .Layered,.False | .LayeredDag,.False => "  # strict_dependencies 'false':\n".toList
  | .False,_ => "  # strict_dependencies 'layered' or more strict:\n".toList
  | .Layered,.Dag | .LayeredDag,.Dag | .Dag,.Dag => "  # strict_dependencies 'dag':\n".toList
  | .Layered,_ | .LayeredDag,_ => "  # strict_dependencies 'layered' or 'layered_dag':\n".toList
  | .Dag,_ => "  # strict_dependencies 'false', 'layered', or 'layered_dag':\n".toList

section Levels
variable {own new a b : StrictDependenciesLevel}

theorem none_le (level : StrictDependenciesLevel) : .None ≤ level := by
  cases level <;> decide

theorem heading_category (new : StrictDependenciesLevel) (set : new ≠ .None) (level : a ≠ .None) :
    Headings.heading (headerMap new) a = some (categoryHeader new a) := by
  cases new <;> cases a <;> first | rfl | exact absurd rfl set | exact absurd rfl level

theorem headerMap_rising (new : StrictDependenciesLevel) : Headings.Rising (headerMap new) := by
  unfold Headings.Rising
  cases new <;> decide

theorem headerMap_texts (new : StrictDependenciesLevel) : ∀ entry ∈ headerMap new, entry.2 ≠ [] := by
  cases new <;> simp [headerMap]

theorem headerMap_distinct (new : StrictDependenciesLevel) :
    (layeringViolations :: (headerMap new).map Prod.snd).Nodup := by
  cases new <;> decide

theorem headerMap_none (new : StrictDependenciesLevel) :
    Headings.heading (headerMap new) .None = none ∧ Headings.rest (headerMap new) .None = headerMap new ∧
      Headings.reach (headerMap new) .None = 0 := by
  cases new <;> exact ⟨rfl,rfl,rfl⟩

-- The categories of a level are its sections.
theorem reach_section (set : new ≠ .None) (level : a ≠ .None) : Headings.reach (headerMap new) a = levelSection new a := by
  cases new <;> cases a <;> first | rfl | exact absurd rfl set | exact absurd rfl level

-- The sections of the level before and those of the level afterwards agree, except that for
-- a package that was false one section may have two categories.
theorem section_raised (set : own ≠ .None) (raised : own ≤ new) (aSet : a ≠ .None) (bSet : b ≠ .None)
    (le : levelSection own a ≤ levelSection own b) :
    levelSection new a ≤ levelSection new b ∨
      (own = .False ∧ new ≠ .False ∧ a = .Dag ∧ (b = .Layered ∨ b = .LayeredDag)) := by
  revert aSet bSet le
  cases own <;> cases new <;> first | exact absurd rfl set | exact absurd raised (by decide) | skip
  all_goals cases a <;> cases b <;> decide

theorem section_split (raised : .False ≤ new) (other : new ≠ .False) (layered : b = .Layered ∨ b = .LayeredDag) :
    levelSection .False .Dag = levelSection .False b ∧ ¬levelSection new .Dag ≤ levelSection new b := by
  revert raised other layered
  cases new <;> cases b <;> decide

end Levels

section Order
variable (db : PackageDB Name) (this : PackageInfo Name) (show_ : Name → Text)
variable (newStrictnessByPkg : Name → StrictDependenciesLevel)

-- The caller's side: with layering enforced a package that had a level has not lost it, and
-- every import is of a package with a layer and a new level.
structure Renderable (newImports : List (Import Name)) : Prop where
  enforced : db.enforceLayering = true
  current : this.strictDependenciesLevel ≠ .None
  raised : this.strictDependenciesLevel ≤ newStrictnessByPkg this.mangledName
  imports : ∀ imp ∈ newImports, ∃ info layer, db.getPackageInfo imp.mangledName = some info ∧ info.layer = some layer ∧
    newStrictnessByPkg imp.mangledName ≠ .None

def sectionOf (imp : Import Name) : Option Nat := (importItem db newStrictnessByPkg imp).bind (this.importSection db)

-- The number of the section of an import that is not a test import.
def sectionNumber (imp : Import Name) : Nat :=
  if this.importViolates db imp then 0 else levelSection this.strictDependenciesLevel (newStrictnessByPkg imp.mangledName)

def sortName (imp : Import Name) : Text := (db.getPackageInfo imp.mangledName).elim [] fun info => show_ info.mangledName

variable {db this show_ newStrictnessByPkg} {newImports : List (Import Name)} {a b : Import Name}

theorem sectionOf_test (test : a.isTestImport = true) : sectionOf db this newStrictnessByPkg a = none := by
  unfold sectionOf importItem
  cases db.getPackageInfo a.mangledName with
  | none => rfl
  | some info => exact importSection_test test

theorem sectionOf_normal (ready : Renderable db this newStrictnessByPkg newImports) (member : a ∈ newImports)
    (normal : a.isTestImport = false) :
    sectionOf db this newStrictnessByPkg a = some (sectionNumber db this newStrictnessByPkg a) := by
  obtain ⟨info,layer,stored,there,set⟩ := ready.imports a member
  simp [sectionOf,sectionNumber,importItem,importSection,importViolates,causesLayeringViolationOf,ImportItem.strictness,stored,there,normal,
    ready.enforced,ready.current,set]

theorem compareImports_neg (ready : Renderable db this newStrictnessByPkg newImports) (aThere : a ∈ newImports)
    (bThere : b ∈ newImports) : this.compareImports db show_ newStrictnessByPkg a b < 0 ↔
      GradedOrder.Before Import.isTestImport (sectionOf db this newStrictnessByPkg) (sortName db show_) a b := by
  obtain ⟨info,_,stored,_⟩ := ready.imports a aThere
  obtain ⟨info',_,stored',_⟩ := ready.imports b bThere
  have items := @orderImports_neg Name db this show_
    ⟨info,a.isTestImport,some (newStrictnessByPkg a.mangledName)⟩ ⟨info',b.isTestImport,some (newStrictnessByPkg b.mangledName)⟩
  simpa [compareImports,importItem,stored,stored',GradedOrder.Before,GradedOrder.Level,GradedOrder.Ahead,sectionOf,sortName] using items

theorem isTestImport_false : a.isTestImport = false ↔ a.type = .Normal := by simp [Import.isTestImport]

theorem sectionNumber_eq_zero (ready : Renderable db this newStrictnessByPkg newImports) :
    sectionNumber db this newStrictnessByPkg a = 0 ↔ this.importViolates db a = true := by
  have pos := levelSection_pos ready.current (newStrictnessByPkg a.mangledName)
  unfold sectionNumber
  split
  · simp [*]
  · simp [*]
    omega

-- Of two normal imports in their order, the second is in a later section or not before the
-- first by name.
theorem sections_ordered (ready : Renderable db this newStrictnessByPkg newImports) (aThere : a ∈ newImports)
    (bThere : b ∈ newImports) (aNormal : a.isTestImport = false) (bNormal : b.isTestImport = false) :
    let section_ := sectionNumber db this newStrictnessByPkg
    ¬this.compareImports db show_ newStrictnessByPkg b a < 0 ↔
      section_ a < section_ b ∨ (section_ a = section_ b ∧ ¬sortName db show_ b < sortName db show_ a) := by
  intro section_
  rw [compareImports_neg ready bThere aThere]
  exact GradedOrder.not_before_iff (aNormal.trans bNormal.symm) (sectionOf_normal ready aThere aNormal)
    (sectionOf_normal ready bThere bNormal)

-- The comparison has no tangles here: an import without a section is a test import.
theorem compareImports_connected (show_ : Name → Text) (ready : Renderable db this newStrictnessByPkg newImports) :
    (∀ x ∈ newImports, ∀ y ∈ newImports, this.compareImports db show_ newStrictnessByPkg x y < 0 →
      ¬this.compareImports db show_ newStrictnessByPkg y x < 0) ∧
    ∀ x ∈ newImports, ∀ y ∈ newImports, ∀ z ∈ newImports, this.compareImports db show_ newStrictnessByPkg x z < 0 →
      this.compareImports db show_ newStrictnessByPkg x y < 0 ∨ this.compareImports db show_ newStrictnessByPkg y z < 0 := by
  have free : ¬GradedOrder.Knot Import.isTestImport (sectionOf db this newStrictnessByPkg) (sortName db show_)
      {imp | imp ∈ newImports} := by
    rintro ⟨u,there,x,_,_,_,same,_,ungraded,ahead,_⟩
    cases kind : x.isTestImport with
    | true => exact ahead.graded.1 (sectionOf_test kind)
    | false =>
      rw [sectionOf_normal ready there (same.trans kind)] at ungraded
      cases ungraded
  constructor
  · intro x xThere y yThere before
    rw [compareImports_neg ready xThere yThere] at before
    rw [compareImports_neg ready yThere xThere]
    exact before.asymm
  · intro x xThere y yThere z zThere before
    rw [compareImports_neg ready xThere zThere] at before
    rw [compareImports_neg ready xThere yThere,compareImports_neg ready yThere zThere]
    exact GradedOrder.before_connected free xThere yThere zThere before

end Order

section Sections
variable {db : PackageDB Name} {this : PackageInfo Name} {show_ : Name → Text}
variable {newStrictnessByPkg : Name → StrictDependenciesLevel} {newImports : List (Import Name)}

def Kept (db : PackageDB Name) (this : PackageInfo Name) (imp : Import Name) : Bool :=
  !imp.isTestImport && !this.importViolates db imp

-- An arrangement has the violations first, then the other normal imports, then the tests.
theorem sorted_sections (ready : Renderable db this newStrictnessByPkg newImports)
    (sorted : SortedImports db this show_ newStrictnessByPkg newImports) :
    sorted.imports = sorted.imports.filter (fun imp => !imp.isTestImport && this.importViolates db imp) ++
      (sorted.imports.filter (Kept db this) ++ sorted.imports.filter Import.isTestImport) := by
  obtain ⟨perm,ordered⟩ := sorted.arranged
  have normal : sorted.imports.Pairwise fun x y => (!y.isTestImport) = true → (!x.isTestImport) = true := by
    apply ordered.imp_of_mem
    intro x y xThere yThere keeps yNormal
    cases xTest : x.isTestImport with
    | false => rfl
    | true =>
      have before : this.compareImports db show_ newStrictnessByPkg y x < 0 := by
        rw [compareImports_neg ready (perm.mem_iff.mp yThere) (perm.mem_iff.mp xThere)]
        have yNormal : y.isTestImport = false := by simpa using yNormal
        refine .inl ?_
        rw [xTest,yNormal]
        exact Bool.false_lt_true
      exact absurd before keeps
  have violating : (sorted.imports.filter fun imp => !imp.isTestImport).Pairwise fun x y =>
      this.importViolates db y = true → this.importViolates db x = true := by
    apply (ordered.sublist List.filter_sublist).imp_of_mem
    intro x y xThere yThere keeps yViolates
    obtain ⟨xThere,xNormal⟩ := List.mem_filter.mp xThere
    obtain ⟨yThere,yNormal⟩ := List.mem_filter.mp yThere
    have sections := (sections_ordered ready (perm.mem_iff.mp xThere) (perm.mem_iff.mp yThere) (by simpa using xNormal)
      (by simpa using yNormal)).mp keeps
    rw [(sectionNumber_eq_zero ready).mpr yViolates] at sections
    apply (sectionNumber_eq_zero ready).mp
    omega
  have split := split_of_pairwise violating
  rw [List.filter_filter,List.filter_filter] at split
  have whole := split_of_pairwise normal
  rw [split,List.append_assoc] at whole
  refine whole.trans ?_
  congr 1
  · apply List.filter_congr
    intro imp _
    exact Bool.and_comm _ _
  · congr 1
    · apply List.filter_congr
      intro imp _
      exact Bool.and_comm _ _
    · apply List.filter_congr
      intro imp _
      exact Bool.not_not _

end Sections

section Placement
variable {db : PackageDB Name} {this : PackageInfo Name} {newStrictnessByPkg : Name → StrictDependenciesLevel}
variable {newImports : List (Import Name)}

-- The header for an import: of the violations, or of the category of its new level.
def headerOf (db : PackageDB Name) (this : PackageInfo Name) (newStrictnessByPkg : Name → StrictDependenciesLevel)
    (imp : Import Name) : Text :=
  if this.importViolates db imp then layeringViolations
  else categoryHeader (newStrictnessByPkg this.mangledName) (newStrictnessByPkg imp.mangledName)

structure WellHeaded (db : PackageDB Name) (this : PackageInfo Name) (newStrictnessByPkg : Name → StrictDependenciesLevel)
    (newImports : List (Import Name)) (pieces : List (Piece Name)) : Prop where
  once : (headers pieces).Nodup
  printed : ((standing none pieces).map Prod.fst).Perm newImports
  placed : ∀ entry ∈ standing none pieces, entry.1.type = .Normal → entry.2 = some (headerOf db this newStrictnessByPkg entry.1)

theorem zip_all_iff {α β : Type} {f : α → β} {xs : List α} {hs : List β} (same : hs.length = xs.length) :
    (∀ entry ∈ xs.zip hs, entry.2 = f entry.1) ↔ hs = xs.map f := by
  induction xs generalizing hs with
  | nil => simp [List.length_eq_zero_iff.mp same]
  | cons x xs ih =>
    cases hs with
    | nil => cases same
    | cons h hs => rw [List.zip_cons_cons,List.forall_mem_cons,ih (Nat.succ.inj same),List.map_cons,List.cons.injEq]

theorem running_set {new : StrictDependenciesLevel} (set : new ≠ .None) {ks : List StrictDependenciesLevel}
    (levels : ∀ k ∈ ks, k ≠ .None) (start : Option Text) (m : StrictDependenciesLevel) :
    (Headings.running (headerMap new) m ks).map (·.or start) = Headings.running (headerMap new) m ks := by
  induction ks generalizing m with
  | nil => rfl
  | cons k ks ih =>
    obtain ⟨level,levels⟩ := List.forall_mem_cons.mp levels
    have high : max m k ≠ .None := fun low => level (le_antisymm (low ▸ le_max_right m k) (none_le k))
    rw [Headings.running,List.map_cons,ih levels,heading_category new set high]
    rfl

theorem kept_normal {imp : Import Name} (kept : Kept db this imp = true) : imp.type = .Normal ∧ this.importViolates db imp = false := by
  simpa [Kept,Import.isTestImport] using kept

theorem Renderable.set (ready : Renderable db this newStrictnessByPkg newImports) : newStrictnessByPkg this.mangledName ≠ .None :=
  fun none_ => ready.current (le_antisymm (ready.raised.trans_eq none_) (none_le _))

theorem Renderable.level (ready : Renderable db this newStrictnessByPkg newImports) {imp : Import Name} (member : imp ∈ newImports) :
    newStrictnessByPkg imp.mangledName ≠ .None := by
  obtain ⟨_,_,_,_,level⟩ := ready.imports imp member
  exact level

-- The imports that violate no layering stand under their headers just when their categories
-- come in order.
theorem categories_iff (ready : Renderable db this newStrictnessByPkg newImports) (others : List (Import Name))
    (there : ∀ imp ∈ others, imp ∈ newImports ∧ Kept db this imp = true) :
    let new := newStrictnessByPkg this.mangledName
    (∀ entry ∈ others.zip (Headings.running (headerMap new) .None (others.map fun imp => newStrictnessByPkg imp.mangledName)),
        entry.2 = some (headerOf db this newStrictnessByPkg entry.1)) ↔
      others.Pairwise fun a b =>
        levelSection new (newStrictnessByPkg a.mangledName) ≤ levelSection new (newStrictnessByPkg b.mangledName) := by
  intro new
  have set : new ≠ .None := ready.set
  have level : ∀ imp ∈ others, newStrictnessByPkg imp.mangledName ≠ .None := fun imp member => ready.level (there imp member).1
  have rightHeaders : (others.map fun imp => some (headerOf db this newStrictnessByPkg imp)) =
      (others.map fun imp => newStrictnessByPkg imp.mangledName).map (Headings.heading (headerMap new)) := by
    rw [List.map_map]
    apply List.map_congr_left
    intro imp member
    have keeps := (kept_normal (there imp member).2).2
    rw [headerOf,keeps]
    exact (heading_category new set (level imp member)).symm
  have length := Headings.running_length (headerMap new) .None (others.map fun imp => newStrictnessByPkg imp.mangledName)
  rw [List.length_map] at length
  refine (zip_all_iff (f := fun imp => some (headerOf db this newStrictnessByPkg imp)) length).trans ?_
  rw [rightHeaders,Headings.running_right_iff (headerMap_rising new) (List.nodup_cons.mp (headerMap_distinct new)).2,(headerMap_none new).2.2,List.pairwise_map]
  constructor
  · rintro ⟨_,pairs⟩
    apply pairs.imp_of_mem
    intro a b aThere bThere le
    rwa [reach_section set (level a aThere),reach_section set (level b bThere)] at le
  · intro pairs
    refine ⟨fun _ _ => Nat.zero_le _,?_⟩
    apply pairs.imp_of_mem
    intro a b aThere bThere le
    rwa [reach_section set (level a aThere),reach_section set (level b bThere)]

section Writes
variable [DecidableEq Name] {show_ : Name → Text}

-- What is printed from the imports in their three parts.
theorem renderImports_parts (enforced : db.enforceLayering = true) {violating others tests : List (Import Name)}
    (only : ∀ imp ∈ violating, imp.type = .Normal ∧ this.importViolates db imp = true)
    (kept : ∀ imp ∈ others, imp.type = .Normal ∧ this.importViolates db imp = false)
    (last : ∀ imp ∈ tests, imp.type ≠ .Normal) (show_ : Name → Text) {new : StrictDependenciesLevel} (set : new ≠ .None)
    (levels : ∀ imp ∈ others, newStrictnessByPkg imp.mangledName ≠ .None) :
    let pieces := this.renderImports db show_ newStrictnessByPkg ⟨false,false,headerMap new⟩ (violating ++ (others ++ tests))
    (headers pieces).Nodup ∧ ∃ under, standing none pieces = violating.map (·,some layeringViolations) ++
      (others.zip (Headings.running (headerMap new) .None (others.map fun imp => newStrictnessByPkg imp.mangledName)) ++
        tests.map (·,under)) := by
  intro pieces
  obtain ⟨before,all,_⟩ := headerMap_none new
  obtain ⟨st,start,its,few,standing_⟩ := violations_phase show_ newStrictnessByPkg (others ++ tests) enforced only ⟨false,false,headerMap new⟩ (headerMap_texts new) rfl
  obtain ⟨fewer,under,standing'⟩ := others_phase show_ newStrictnessByPkg enforced (headerMap_rising new)
    (headerMap_texts new) kept last .None start st (its.trans all.symm)
  rw [all] at fewer
  rw [before,Option.none_or,running_set set (by simpa using levels)] at standing'
  refine ⟨(headerMap_distinct new).sublist (few.trans (fewer.cons_cons _)),under,?_⟩
  rw [← standing']
  exact standing_

theorem wellHeaded_iff (ready : Renderable db this newStrictnessByPkg newImports)
    (sorted : SortedImports db this show_ newStrictnessByPkg newImports) (showLayer : NameRef → Text) (decl : Declarations Name)
    (newExports : List Text) :
    let new := newStrictnessByPkg this.mangledName
    WellHeaded db this newStrictnessByPkg newImports
        (this.renderPackageRb db show_ newStrictnessByPkg showLayer decl sorted.imports newExports) ↔
      (sorted.imports.filter (Kept db this)).Pairwise fun a b =>
        levelSection new (newStrictnessByPkg a.mangledName) ≤ levelSection new (newStrictnessByPkg b.mangledName) := by
  intro new
  obtain ⟨headers_,standing_⟩ := renderPackageRb_standing db this show_ newStrictnessByPkg showLayer decl sorted.imports newExports
  have sections := sorted_sections ready sorted
  have perm := sorted.arranged.1
  let others := sorted.imports.filter (Kept db this)
  have there : ∀ imp ∈ others, imp ∈ newImports ∧ Kept db this imp = true := fun imp member =>
    ⟨perm.mem_iff.mp (List.mem_filter.mp member).1,(List.mem_filter.mp member).2⟩
  have set : new ≠ .None := ready.set
  have violating : ∀ imp ∈ sorted.imports.filter (fun imp => !imp.isTestImport && this.importViolates db imp),
      imp.type = .Normal ∧ this.importViolates db imp = true := by
    intro imp member
    simpa [Import.isTestImport] using (List.mem_filter.mp member).2
  have tests : ∀ imp ∈ sorted.imports.filter Import.isTestImport, imp.type ≠ .Normal := by
    intro imp member
    simpa [Import.isTestImport] using (List.mem_filter.mp member).2
  have levels : ∀ imp ∈ others, newStrictnessByPkg imp.mangledName ≠ .None := fun imp member => ready.level (there imp member).1
  obtain ⟨once,under,parts⟩ := renderImports_parts ready.enforced violating (fun imp member => kept_normal (there imp member).2)
    tests show_ set levels
  rw [← sections] at once parts
  have length := Headings.running_length (headerMap new) .None (others.map fun imp => newStrictnessByPkg imp.mangledName)
  rw [List.length_map] at length
  refine Iff.trans ?_ (categories_iff ready others there)
  constructor
  · intro wellHeaded entry member
    apply wellHeaded.placed entry
    · rw [standing_,parts]
      exact List.mem_append_right _ (List.mem_append_left _ member)
    · exact (kept_normal (there entry.1 (List.of_mem_zip member).1).2).1
  · intro right
    refine ⟨headers_ ▸ once,?_,?_⟩
    · rw [standing_,parts,List.map_append,List.map_append,List.map_fst_zip length.ge,List.map_map,List.map_map]
      simpa [Function.comp_def,others] using sections ▸ perm
    · rw [standing_,parts]
      intro entry member normal
      rcases List.mem_append.mp member with first | later
      · obtain ⟨imp,violates,rfl⟩ := List.mem_map.mp first
        rw [headerOf,if_pos (violating imp violates).2]
      · rcases List.mem_append.mp later with category | test
        · exact right entry category
        · obtain ⟨imp,isTest,rfl⟩ := List.mem_map.mp test
          exact absurd normal (tests imp isTest)

-- A package that was false becomes stricter, and an import whose package becomes dag comes by
-- its name before one whose package becomes layered or layered_dag.
def Misordered (db : PackageDB Name) (this : PackageInfo Name) (show_ : Name → Text)
    (newStrictnessByPkg : Name → StrictDependenciesLevel) (newImports : List (Import Name)) : Prop :=
  this.strictDependenciesLevel = .False ∧ newStrictnessByPkg this.mangledName ≠ .False ∧
    ∃ a ∈ newImports,∃ b ∈ newImports,Kept db this a = true ∧ Kept db this b = true ∧
      newStrictnessByPkg a.mangledName = .Dag ∧
      (newStrictnessByPkg b.mangledName = .Layered ∨ newStrictnessByPkg b.mangledName = .LayeredDag) ∧
      ¬sortName db show_ b < sortName db show_ a

omit [DecidableEq Name] in
theorem sectionNumber_kept {imp : Import Name} (kept : Kept db this imp = true) :
    sectionNumber db this newStrictnessByPkg imp = levelSection this.strictDependenciesLevel (newStrictnessByPkg imp.mangledName) := by
  rw [sectionNumber,(kept_normal kept).2]
  rfl

omit [DecidableEq Name] in
theorem categories_ordered (ready : Renderable db this newStrictnessByPkg newImports)
    (fine : ¬Misordered db this show_ newStrictnessByPkg newImports) {a b : Import Name} (aThere : a ∈ newImports)
    (bThere : b ∈ newImports) (aKept : Kept db this a = true) (bKept : Kept db this b = true)
    (ordered : ¬this.compareImports db show_ newStrictnessByPkg b a < 0) :
    levelSection (newStrictnessByPkg this.mangledName) (newStrictnessByPkg a.mangledName) ≤
      levelSection (newStrictnessByPkg this.mangledName) (newStrictnessByPkg b.mangledName) := by
  have sections := (sections_ordered ready aThere bThere (isTestImport_false.mpr (kept_normal aKept).1)
    (isTestImport_false.mpr (kept_normal bKept).1)).mp ordered
  simp only [sectionNumber_kept aKept,sectionNumber_kept bKept] at sections
  have le : levelSection this.strictDependenciesLevel (newStrictnessByPkg a.mangledName) ≤
      levelSection this.strictDependenciesLevel (newStrictnessByPkg b.mangledName) :=
    sections.elim Nat.le_of_lt fun same => Nat.le_of_eq same.1
  rcases section_raised ready.current ready.raised (ready.level aThere) (ready.level bThere) le with right | ⟨own,new,aDag,bLayered⟩
  · exact right
  · have raised : .False ≤ newStrictnessByPkg this.mangledName := own ▸ ready.raised
    have same := (section_split raised new bLayered).1
    rw [own,aDag,same] at sections
    exact absurd ⟨own,new,a,aThere,b,bThere,aKept,bKept,aDag,bLayered,(sections.resolve_left (lt_irrefl _)).2⟩ fine

theorem renderPackageRb_wellHeaded_iff (showLayer : NameRef → Text) (decl : Declarations Name) (newExports : List Text)
    (ready : Renderable db this newStrictnessByPkg newImports) :
    (∀ sorted : SortedImports db this show_ newStrictnessByPkg newImports,
      WellHeaded db this newStrictnessByPkg newImports
        (this.renderPackageRb db show_ newStrictnessByPkg showLayer decl sorted.imports newExports)) ↔
      ¬Misordered db this show_ newStrictnessByPkg newImports := by
  constructor
  · rintro wellHeaded ⟨own,new,a,aThere,b,bThere,aKept,bKept,aDag,bLayered,names⟩
    have raised : .False ≤ newStrictnessByPkg this.mangledName := own ▸ ready.raised
    obtain ⟨same,wrong⟩ := section_split raised new bLayered
    have apart : b ≠ a := by
      rintro rfl
      rw [aDag] at bLayered
      exact bLayered.elim nofun nofun
    have free : ¬this.compareImports db show_ newStrictnessByPkg b a < 0 := by
      apply (sections_ordered ready aThere bThere (isTestImport_false.mpr (kept_normal aKept).1)
        (isTestImport_false.mpr (kept_normal bKept).1)).mpr
      refine .inr ⟨?_,names⟩
      rw [sectionNumber_kept aKept,sectionNumber_kept bKept,own,aDag,same]
    obtain ⟨asymm,connected⟩ := compareImports_connected show_ ready
    obtain ⟨imports,arranged,pair⟩ := exists_arranged asymm connected aThere bThere apart free
    have ordered := (wellHeaded_iff ready ⟨imports,arranged⟩ showLayer decl newExports).mp (wellHeaded ⟨imports,arranged⟩)
    have both := pair.filter (Kept db this)
    rw [List.filter_cons_of_pos aKept,List.filter_cons_of_pos bKept] at both
    have le := (List.pairwise_cons.mp (ordered.sublist both)).1 b List.mem_cons_self
    rw [aDag] at le
    exact wrong le
  · intro fine sorted
    apply (wellHeaded_iff ready sorted showLayer decl newExports).mpr
    obtain ⟨perm,ordered⟩ := sorted.arranged
    apply (ordered.sublist List.filter_sublist).imp_of_mem
    intro a b aThere bThere keeps
    obtain ⟨aThere,aKept⟩ := List.mem_filter.mp aThere
    obtain ⟨bThere,bKept⟩ := List.mem_filter.mp bThere
    exact categories_ordered ready fine (perm.mem_iff.mp aThere) (perm.mem_iff.mp bThere) aKept bKept keeps

end Writes

end Placement

-- Package 1 is false and becomes layered_dag. It imports package 2, A, which becomes dag, and
-- package 3, B, which becomes layered.
def raisedInfo (name : Nat) : PackageInfo Nat :=
  {mangledName := name,packagePathPrefixes := [],importedPackageNames := [],exportAll := false,layer := some 0,
    sccID := none,strictDependenciesLevel := .False}

def raisedDB : PackageDB Nat :=
  {PackageDB.initial.setPackagerOptions {PackagerOptions.initial with layers := [0]} with packages_ := fun name => some (raisedInfo name)}

def raisedShow : Nat → Text
  | 2 => ['A']
  | 3 => ['B']
  | _ => []

def raisedStrictness : Nat → StrictDependenciesLevel
  | 1 => .LayeredDag
  | 2 => .Dag
  | _ => .Layered

def raisedImports : List (Import Nat) := [⟨2,.Normal,false⟩,⟨3,.Normal,false⟩]

theorem raised_renderable : Renderable raisedDB (raisedInfo 1) raisedStrictness raisedImports := by
  refine ⟨rfl,by decide,by decide,?_⟩
  intro imp member
  rcases List.mem_pair.mp member with rfl | rfl
  · exact ⟨raisedInfo 2,0,rfl,rfl,by decide⟩
  · exact ⟨raisedInfo 3,0,rfl,rfl,by decide⟩

def raisedSorted : SortedImports raisedDB (raisedInfo 1) raisedShow raisedStrictness raisedImports :=
  ⟨raisedImports,List.Perm.refl _,List.pairwise_pair.mpr (by decide)⟩

example : ((raisedInfo 1).renderImports raisedDB raisedShow raisedStrictness ⟨false,false,headerMap .LayeredDag⟩ raisedImports).flatMap
    Piece.contents = "\n  # strict_dependencies 'dag':\n  import A\n  import B\n".toList := by decide

theorem renderPackageRb_wellHeaded_iff_raised :
    (∀ sorted : SortedImports raisedDB (raisedInfo 1) raisedShow raisedStrictness raisedImports,
      WellHeaded raisedDB (raisedInfo 1) raisedStrictness raisedImports
        ((raisedInfo 1).renderPackageRb raisedDB raisedShow raisedStrictness (fun _ => ['l']) .initial sorted.imports [])) ↔
      ¬Misordered raisedDB (raisedInfo 1) raisedShow raisedStrictness raisedImports :=
  renderPackageRb_wellHeaded_iff (fun _ => ['l']) .initial [] raised_renderable

-- B stands under the header of the category dag.
theorem renderPackageRb_raised : Renderable raisedDB (raisedInfo 1) raisedStrictness raisedImports ∧
    ¬WellHeaded raisedDB (raisedInfo 1) raisedStrictness raisedImports
      ((raisedInfo 1).renderPackageRb raisedDB raisedShow raisedStrictness (fun _ => ['l']) .initial raisedSorted.imports []) := by
  refine ⟨raised_renderable,fun wellHeaded => ?_⟩
  have wrong := wellHeaded.placed (⟨3,.Normal,false⟩,some (categoryHeader .LayeredDag .Dag)) (.tail _ (.head _)) rfl
  exact absurd wrong (by decide)

end Packager.PackageInfo
