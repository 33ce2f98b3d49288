import ScipRuby.Packager.ReferenceChecks

namespace Packager.PackageInfo
open Packages (ImportType)
variable {Name : Type} [DecidableEq Name]

-- The places in the package file that addImport looks at: its text, where its first export
-- begins, and where the class of the package ends.
structure PackageFile where
  source : Text
  firstExport : Option Nat
  locEnd : Nat

-- Where the new line goes. An import is given by its place in the list.
inductive Insertion where
  | beforeImports
  | afterImport (index : Nat)
  | atOffset (offset : Nat)
  deriving DecidableEq,Repr

structure ImportEdit (Name : Type) where
  imported : Name
  type : ImportType
  insertion : Insertion
  text : Text
  deletedImport : Option Nat

-- The order of the enumeration in the source.
def importTypeRank : ImportType → Nat
  | .Normal => 0
  | .TestHelper => 1
  | .TestUnit => 2

def isSpace (c : Char) : Bool := c = ' ' || ('\t' ≤ c && c ≤ '\r')

section Insertions

-- The end of the last line that is not empty, going back from an offset.
def lastNonSpace (source : Text) : Nat → Option Nat
  | 0 => none
  | offset + 1 =>
    match source[offset + 1]? with
    | none => none
    | some c => if isSpace c then lastNonSpace source offset else some (offset + 1)

def offsetWithoutImports (file : PackageFile) : Option Nat :=
  let exportOffset := match file.firstExport with
    | some beginPos => beginPos - 1
    | none => file.locEnd - 4
  if exportOffset = 0 ∨ file.source.length ≤ exportOffset then none
  else (lastNonSpace file.source exportOffset).map (· + 1)

-- An import of the package that is there already is converted when the new one is for more files.
def upgrades (importType old : ImportType) : Bool :=
  (decide (importType = .Normal) && decide (old ≠ .Normal)) || (decide (importType = .TestHelper) && decide (old = .TestUnit))

variable (db : PackageDB Name) (show_ : Name → Text) (this info : PackageInfo Name) (importType : ImportType)

def insertsAfter (imp : Import Name) : Bool :=
  match db.getPackageInfo imp.mangledName with
  | none => true
  | some importInfo =>
    decide (0 ≤ this.orderImports db show_ ⟨info,decide (importType ≠ .Normal),none⟩ ⟨importInfo,imp.isTestImport,none⟩)

-- The import to insert after and the one to delete, or nothing when the package is imported already.
def findInsertion : List (Import Name × Nat) → Option Nat → Option Nat → Option (Option Nat × Option Nat)
  | [],importToInsertAfter,deleted => some (importToInsertAfter,deleted)
  | (imp,index) :: imports,importToInsertAfter,deleted =>
    let after := if this.insertsAfter db show_ info importType imp then some index else importToInsertAfter
    if imp.mangledName = info.mangledName then
      if upgrades importType imp.type then
        if importType = .TestHelper then some (importToInsertAfter,some index)
        else findInsertion imports after (some index)
      else none
    else findInsertion imports after deleted

def importEditText : Text :=
  match importType with
  | .Normal => "\n  import ".toList ++ show_ info.mangledName
  | .TestUnit => "\n  test_import ".toList ++ show_ info.mangledName ++ ", only: \"test_rb\"".toList
  | .TestHelper => "\n  test_import ".toList ++ show_ info.mangledName

def addImport (file : PackageFile) (usesTestPackages : Bool) : Option (ImportEdit Name) :=
  if usesTestPackages && decide (importType ≠ .Normal) then none
  else
    let edit (insertion : Insertion) (deleted : Option Nat) : ImportEdit Name :=
      ⟨info.mangledName,importType,insertion,importEditText show_ info importType,deleted⟩
    if this.importedPackageNames.isEmpty then
      (offsetWithoutImports file).map fun offset => edit (.atOffset offset) none
    else
      (this.findInsertion db show_ info importType this.importedPackageNames.zipIdx none none).map fun (after,deleted) =>
        edit (after.elim .beforeImports .afterImport) deleted

end Insertions

section Aggregate
variable (gs : PackageState Name) (show_ : Name → Text) (this : PackageInfo Name) (file : PackageFile)

-- An import that is needed, fits the layers, and is allowed or is about to be.
def wantsImport (importType : ImportType) (packageName : Name) (info : PackageReferenceInfo) : Bool :=
  match gs.packageDB.getPackageInfo packageName with
  | none => false
  | some pkgInfo => info.importNeeded && !info.causesModularityError &&
    (pkgInfo.isVisibleTo gs this importType || gs.packageDB.updateVisibilityFor packageName)

abbrev ToImport (Name : Type) := AList fun _ : Name => ImportType

def broadestImport (importType : ImportType) : Option ImportType → ImportType
  | none => importType
  | some current => if importTypeRank importType < importTypeRank current then importType else current

def collectImport (toImport : ToImport Name) (reference : FileRef × Name × PackageReferenceInfo) : ToImport Name :=
  let (file,packageName,info) := reference
  let importType := this.fileToImportType gs file
  if this.wantsImport gs importType packageName info then
    toImport.insert packageName (broadestImport importType (toImport.lookup packageName))
  else toImport

-- The references in the order of the two loops.
def allReferences (referenced : References Name) : List (FileRef × Name × PackageReferenceInfo) :=
  referenced.entries.flatMap fun ⟨file,references⟩ => references.entries.map fun ⟨name,info⟩ => (file,name,info)

def importsToAdd (referenced : References Name) : ToImport Name :=
  (allReferences referenced).foldl (this.collectImport gs) ∅

def computeImportEdits (toImport : ToImport Name) : List (ImportEdit Name) :=
  toImport.entries.filterMap fun ⟨packageName,importType⟩ =>
    (gs.packageDB.getPackageInfo packageName).bind fun otherPkgInfo =>
      this.addImport gs.packageDB show_ otherPkgInfo importType file (this.usesTestPackages gs)

-- The imports of packages that do not exist.
def deletedImports : List Nat :=
  (this.importedPackageNames.zipIdx.filter fun (imp,_) => (gs.packageDB.getPackageInfo imp.mangledName).isNone).map Prod.snd

-- The lines to delete and the imports to add, before their edits are merged.
def aggregateMissingImports (referenced : References Name) : Option (List Nat × List (ImportEdit Name)) :=
  let deleted := this.deletedImports gs
  let edits := this.computeImportEdits gs show_ file (this.importsToAdd gs referenced)
  if deleted.isEmpty && edits.isEmpty then none else some (deleted,edits)

end Aggregate

end Packager.PackageInfo

namespace Packager.PackageInfo
open Relation BreadthFirst Packages PackageDB
variable {Name : Type} [DecidableEq Name]

-- A package is stored under its own name.
def Stored (db : PackageDB Name) : Prop := ∀ name info, db.getPackageInfo name = some info → info.mangledName = name

section Paths
variable {db : PackageDB Name}

omit [DecidableEq Name] in
theorem initial_stored : Stored (PackageDB.initial : PackageDB Name) := fun _ _ found => by cases found

theorem enterPackage_stored (stored : Stored db) (pkg : PackageInfo Name) : Stored (db.enterPackage pkg) := by
  have packages : (db.enterPackage pkg).packages_ = Function.update db.packages_ pkg.mangledName (some pkg) := by
    unfold enterPackage
    cases db.packages_ pkg.mangledName <;> rfl
  intro name info found
  rw [getPackageInfo,packages,Function.update_apply] at found
  split at found
  · cases found
    exact Eq.symm ‹_›
  · exact stored name info found

-- The searches from all packages end, and each decides what is imported.
def Searches (db : PackageDB Name) (show_ : Name → Text) (fuel : Nat) : Prop :=
  ∀ name pkg, db.getPackageInfo name = some pkg → ∀ dest, ∃ path,
    db.pathTo show_ fuel pkg dest = some path ∧ (path.isSome = true ↔ ReflTransGen db.NormalImport name dest)

theorem pathTo_decides (stored : Stored db) (finite : {name | db.getPackageInfo name ≠ none}.Finite) (show_ : Name → Text) :
    ∃ bound, ∀ fuel, bound ≤ fuel → Searches db show_ fuel := by
  let names := finite.toFinset.toList
  refine ⟨db.work names [] + names.length + 2,fun fuel enough name pkg found dest => ?_⟩
  have own := stored name pkg found
  have present : ∀ other, db.getPackageInfo other ≠ none → other ∈ names := fun other present =>
    Finset.mem_toList.mpr (finite.mem_toFinset.mpr present)
  have covers : Covers db pkg.mangledName names := ⟨present _ (by rw [own,found]; exact Option.some_ne_none pkg),present⟩
  obtain ⟨result,computed,shortest⟩ := @findPath_found _ _ db pkg.mangledName dest names covers fuel fuel (by omega) _ _ _ _ _ _
    (layered_start db.successors pkg.mangledName) List.not_mem_nil (by rw [List.length_singleton]; omega)
  refine ⟨result.map (renderPath show_),?_,?_⟩
  · rw [pathTo,computed]
    rfl
  · rw [← successors_eq,← own,Option.isSome_map]
    cases result with
    | none => exact iff_of_false Bool.false_ne_true shortest
    | some path => exact iff_of_true rfl shortest.1.reaches

end Paths

section Tracking
variable {gs : PackageState Name} {show_ : Name → Text} {this : PackageInfo Name} {fuel : Nat}

-- What is tracked for a reference that has been checked.
def trackedInfo (gs : PackageState Name) (show_ : Name → Text) (this : PackageInfo Name) (fuel : Nat) (file : FileRef) (name : Name) :
    PackageReferenceInfo :=
  (((this.checkReferenceAgainstImports gs show_ fuel file name).getD none).map Prod.fst).getD ⟨false,false⟩

-- The entries are those of the references seen so far.
def Tracks (gs : PackageState Name) (show_ : Name → Text) (this : PackageInfo Name) (fuel : Nat) (seen : List (FileRef × Name))
    (referenced : References Name) : Prop :=
  ∀ file name info, (∃ references, referenced.lookup file = some references ∧ references.lookup name = some info) ↔
    (file,name) ∈ seen ∧ info = trackedInfo gs show_ this fuel file name

theorem trackPackageReference_tracks {seen : List (FileRef × Name)} {referenced : References Name}
    (tracks : Tracks gs show_ this fuel seen referenced) (file : FileRef) (package : Name) :
    Tracks gs show_ this fuel (seen ++ [(file,package)])
      (trackPackageReference referenced file package (trackedInfo gs show_ this fuel file package)) := by
  have kept (name : Name) (info : PackageReferenceInfo) : ((referenced.lookup file).getD ∅).lookup name = some info ↔
      (file,name) ∈ seen ∧ info = trackedInfo gs show_ this fuel file name := by
    rw [← tracks]
    cases referenced.lookup file with
    | none => simp
    | some references => simp
  have merged : trackPackageReference referenced file package (trackedInfo gs show_ this fuel file package) =
      referenced.insert file (((referenced.lookup file).getD ∅).insert package (trackedInfo gs show_ this fuel file package)) := by
    unfold trackPackageReference
    cases found : ((referenced.lookup file).getD ∅).lookup package with
    | none => simp [found]
    | some existing =>
      have same := ((kept package existing).mp found).2
      simp [found,same]
  intro other name info
  rw [merged]
  by_cases here : other = file
  · subst here
    rw [AList.lookup_insert]
    simp only [Option.some.injEq,exists_eq_left']
    by_cases again : name = package
    · subst again
      rw [AList.lookup_insert]
      simp [eq_comm]
    · rw [AList.lookup_insert_ne again,kept]
      simp [again]
  · rw [AList.lookup_insert_ne here,tracks]
    simp [here]

theorem trackReferences_tracks (refs : List (FileRef × Name))
    (checked : ∀ file name, (this.checkReferenceAgainstImports gs show_ fuel file name).isSome = true)
    {seen : List (FileRef × Name)} {referenced : References Name} (tracks : Tracks gs show_ this fuel seen referenced) :
    ∃ referenced', this.trackReferences gs show_ fuel referenced refs = some referenced' ∧
      Tracks gs show_ this fuel (seen ++ refs) referenced' := by
  induction refs generalizing seen referenced with
  | nil => exact ⟨referenced,rfl,by rwa [List.append_nil]⟩
  | cons reference refs ih =>
    obtain ⟨file,package⟩ := reference
    obtain ⟨result,found⟩ := Option.isSome_iff_exists.mp (checked file package)
    obtain ⟨referenced',run,tracks'⟩ := ih (trackPackageReference_tracks tracks file package)
    refine ⟨referenced',?_,by rwa [List.append_assoc] at tracks'⟩
    rw [trackedInfo,found] at run
    rw [trackReferences,found]
    exact run

theorem mem_allReferences (referenced : References Name) (file : FileRef) (name : Name) (info : PackageReferenceInfo) :
    (file,name,info) ∈ allReferences referenced ↔
      ∃ references, referenced.lookup file = some references ∧ references.lookup name = some info := by
  simp only [allReferences,List.mem_flatMap,List.mem_map]
  constructor
  · rintro ⟨⟨_,references⟩,outer,⟨_,_⟩,inner,same⟩
    cases same
    exact ⟨references,AList.mem_lookup_iff.mpr outer,AList.mem_lookup_iff.mpr inner⟩
  · rintro ⟨references,outer,inner⟩
    exact ⟨⟨file,references⟩,AList.mem_lookup_iff.mp outer,⟨name,info⟩,AList.mem_lookup_iff.mp inner,rfl⟩

end Tracking

section Edits
variable {gs : PackageState Name} {show_ : Name → Text} {this : PackageInfo Name} {file : PackageFile}

theorem broadestImport_normal (importType : ImportType) (current : Option ImportType) :
    broadestImport importType current = .Normal ↔ importType = .Normal ∨ current = some .Normal := by
  cases current with
  | none => simp [broadestImport]
  | some current => cases importType <;> cases current <;> decide

-- A normal import is collected when one reference asks for it.
theorem collectImports_normal (references : List (FileRef × Name × PackageReferenceInfo)) (toImport : ToImport Name) (name : Name) :
    (references.foldl (this.collectImport gs) toImport).lookup name = some .Normal ↔
      toImport.lookup name = some .Normal ∨ ∃ file info, (file,name,info) ∈ references ∧ this.fileToImportType gs file = .Normal ∧
        this.wantsImport gs .Normal name info = true := by
  induction references generalizing toImport with
  | nil => simp
  | cons reference references ih =>
    obtain ⟨file,packageName,info⟩ := reference
    have step : (this.collectImport gs toImport (file,packageName,info)).lookup name = some .Normal ↔
        toImport.lookup name = some .Normal ∨ (packageName = name ∧ this.fileToImportType gs file = .Normal ∧
          this.wantsImport gs .Normal name info = true) := by
      unfold collectImport
      dsimp only
      by_cases same : packageName = name
      · subst same
        split
        · rename_i wants
          rw [AList.lookup_insert,Option.some.injEq,broadestImport_normal]
          constructor
          · rintro (normal | before)
            · exact .inr ⟨rfl,normal,normal ▸ wants⟩
            · exact .inl before
          · rintro (before | ⟨_,normal,_⟩)
            · exact .inr before
            · exact .inl normal
        · rename_i refuses
          refine (or_iff_left ?_).symm
          rintro ⟨_,normal,wants⟩
          exact refuses (normal ▸ wants)
      · split
        · rw [AList.lookup_insert_ne (Ne.symm same)]
          simp [same]
        · simp [same]
    rw [List.foldl_cons,ih,step,or_assoc]
    apply or_congr_right
    constructor
    · rintro (⟨rfl,normal,wants⟩ | ⟨file',info',member,rest⟩)
      · exact ⟨file,info,List.mem_cons_self,normal,wants⟩
      · exact ⟨file',info',List.mem_cons_of_mem _ member,rest⟩
    · rintro ⟨file',info',member,normal,wants⟩
      rcases List.mem_cons.mp member with same | later
      · cases same
        exact .inl ⟨rfl,normal,wants⟩
      · exact .inr ⟨file',info',later,normal,wants⟩

-- There is a place for a normal import: the package is not imported normally yet, and where
-- there is no import the file has something to insert after.
structure Insertable (this : PackageInfo Name) (file : PackageFile) (name : Name) : Prop where
  fresh : ∀ imp ∈ this.importedPackageNames, imp.mangledName = name → imp.type ≠ .Normal
  place : this.importedPackageNames = [] → (offsetWithoutImports file).isSome = true

theorem findInsertion_normal (db : PackageDB Name) (info : PackageInfo Name) (imports : List (Import Name × Nat)) (after deleted : Option Nat) :
    (this.findInsertion db show_ info .Normal imports after deleted).isSome = true ↔
      ∀ entry ∈ imports, entry.1.mangledName = info.mangledName → entry.1.type ≠ .Normal := by
  induction imports generalizing after deleted with
  | nil => simp [findInsertion]
  | cons entry imports ih =>
    obtain ⟨imp,index⟩ := entry
    rw [findInsertion,List.forall_mem_cons]
    dsimp only
    split
    · rename_i same
      split
      · rename_i test
        have test : imp.type ≠ .Normal := by simpa [upgrades] using test
        rw [if_neg (by decide),ih]
        exact (and_iff_right fun _ => test).symm
      · rename_i normal
        have normal : imp.type = .Normal := by simpa [upgrades] using normal
        exact iff_of_false Bool.false_ne_true fun all => all.1 same normal
    · rename_i other
      rw [ih]
      exact (and_iff_right fun same => absurd same other).symm

theorem addImport_normal (show_ : Name → Text) (db : PackageDB Name) (info : PackageInfo Name) (usesTestPackages : Bool) :
    (this.addImport db show_ info .Normal file usesTestPackages).isSome = true ↔ Insertable this file info.mangledName := by
  unfold addImport
  rw [if_neg (by simp)]
  dsimp only
  split
  · rename_i empty
    have empty : this.importedPackageNames = [] := List.isEmpty_iff.mp empty
    rw [Option.isSome_map]
    constructor
    · intro place
      refine ⟨?_,fun _ => place⟩
      rw [empty]
      nofun
    · exact fun insertable => insertable.place empty
  · rename_i some_
    rw [Option.isSome_map,findInsertion_normal]
    constructor
    · intro all
      refine ⟨fun imp member => ?_,fun empty => absurd (List.isEmpty_iff.mpr empty) some_⟩
      obtain ⟨index,there⟩ := List.mem_iff_getElem?.mp member
      exact all (imp,index) (List.mk_mem_zipIdx_iff_getElem?.mpr there)
    · intro insertable entry member
      exact insertable.fresh entry.1 (List.fst_mem_of_mem_zipIdx member)

theorem addImport_fields {db : PackageDB Name} {info : PackageInfo Name} {importType : ImportType} {usesTestPackages : Bool}
    {edit : ImportEdit Name} (added : this.addImport db show_ info importType file usesTestPackages = some edit) :
    edit.imported = info.mangledName ∧ edit.type = importType := by
  unfold addImport at added
  split at added
  · cases added
  · dsimp only at added
    split at added
    · obtain ⟨_,_,rfl⟩ := Option.map_eq_some_iff.mp added
      exact ⟨rfl,rfl⟩
    · obtain ⟨_,_,rfl⟩ := Option.map_eq_some_iff.mp added
      exact ⟨rfl,rfl⟩

-- The normal imports that are added are those collected that there is a place for.
theorem mem_computeImportEdits (stored : Stored gs.packageDB) (toImport : ToImport Name) (name : Name) :
    (∃ edit ∈ this.computeImportEdits gs show_ file toImport, edit.type = .Normal ∧ edit.imported = name) ↔
      toImport.lookup name = some .Normal ∧ (gs.packageDB.getPackageInfo name).isSome = true ∧ Insertable this file name := by
  simp only [computeImportEdits,List.mem_filterMap]
  constructor
  · rintro ⟨edit,⟨⟨packageName,importType⟩,entry,added⟩,normal,rfl⟩
    obtain ⟨info,found,added⟩ := Option.bind_eq_some_iff.mp added
    obtain ⟨imported,type⟩ := addImport_fields added
    have own := stored packageName info found
    rw [type] at normal
    subst normal
    rw [imported,own]
    refine ⟨AList.mem_lookup_iff.mpr entry,by rw [found]; rfl,?_⟩
    have insertable := (addImport_normal show_ _ info _).mp (Option.isSome_iff_exists.mpr ⟨edit,added⟩)
    rwa [own] at insertable
  · rintro ⟨collected,present,insertable⟩
    obtain ⟨info,found⟩ := Option.isSome_iff_exists.mp present
    have own := stored name info found
    obtain ⟨edit,added⟩ := Option.isSome_iff_exists.mp
      ((addImport_normal show_ gs.packageDB info (this.usesTestPackages gs)).mpr (by rwa [own]))
    obtain ⟨imported,type⟩ := addImport_fields added
    refine ⟨edit,⟨⟨name,.Normal⟩,AList.mem_lookup_iff.mp collected,?_⟩,type,imported.trans own⟩
    exact Option.bind_eq_some_iff.mpr ⟨info,found,added⟩

end Edits

end Packager.PackageInfo

-- Whether there is a violation besides a visibility error.
def Packager.Violations.otherError (v : Packager.Violations) : Bool :=
  v.layeringViolation || v.strictDependenciesTooLow || v.causesCycle || v.badTestReference

namespace Packager.PackageInfo
open Relation Packages PackageDB
variable {Name : Type} [DecidableEq Name]

section Modularity
variable {gs : PackageState Name} {show_ : Name → Text} {this pkg : PackageInfo Name} {file : FileRef} {packageFile : PackageFile}

-- What importing pkg normally must respect, in the import graph as it is.
structure Modular (gs : PackageState Name) (this pkg : PackageInfo Name) : Prop where
  layering : .False < this.strictDependenciesLevel → this.causesLayeringViolationOf gs.packageDB pkg = false
  strictness : pkg.strictDependenciesLevel ≠ .None →
    minimumStrictDependenciesLevel this.strictDependenciesLevel ≤ pkg.strictDependenciesLevel
  acyclic : .LayeredDag ≤ this.strictDependenciesLevel → ¬ReflTransGen gs.packageDB.NormalImport pkg.mangledName this.mangledName
  migrated : this.usesTestPackages gs = true → (gs.declarations this.mangledName).testPackage = false →
    (gs.declarations pkg.mangledName).testPackage = false

omit [DecidableEq Name] in
theorem fileToImportType_normal : this.fileToImportType gs file = .Normal ↔
    ((gs.files file).isPackagedTest && !this.usesTestPackages gs) = false := by
  unfold fileToImportType File.isPackagedTestHelper File.isPackagedTest
  cases this.usesTestPackages gs <;> cases (gs.files file).isTestFile <;> cases (gs.files file).isTestPath <;> decide

theorem violations_visible (normal : this.fileToImportType gs file = .Normal) (path : Option Text) :
    (this.violations gs file pkg path).causesVisibilityError = !pkg.isVisibleTo gs this .Normal := by
  unfold violations
  rw [fileToImportType_normal.mp normal]
  rfl

theorem violations_modular (enforced : gs.packageDB.enforceLayering = true) (normal : this.fileToImportType gs file = .Normal)
    {path : Option Text} (decided : path.isSome = true ↔ ReflTransGen gs.packageDB.NormalImport pkg.mangledName this.mangledName) :
    (this.violations gs file pkg path).otherError = false ↔ Modular gs this pkg := by
  generalize same : this.violations gs file pkg path = v
  have layering : v.layeringViolation = false ↔
      (.False < this.strictDependenciesLevel → this.causesLayeringViolationOf gs.packageDB pkg = false) := by
    simp [← same,violations,fileToImportType_normal.mp normal,enforced]
  have strictness : v.strictDependenciesTooLow = false ↔ (pkg.strictDependenciesLevel ≠ .None →
      minimumStrictDependenciesLevel this.strictDependenciesLevel ≤ pkg.strictDependenciesLevel) := by
    simp [← same,violations,fileToImportType_normal.mp normal,enforced]
  have acyclic : v.causesCycle = false ↔ (.LayeredDag ≤ this.strictDependenciesLevel →
      ¬ReflTransGen gs.packageDB.NormalImport pkg.mangledName this.mangledName) := by
    rw [← decided]
    simp [← same,violations,fileToImportType_normal.mp normal,enforced]
  have migrated : v.badTestReference = false ↔ (this.usesTestPackages gs = true →
      (gs.declarations this.mangledName).testPackage = false → (gs.declarations pkg.mangledName).testPackage = false) := by
    cases uses : this.usesTestPackages gs <;> cases own : (gs.declarations this.mangledName).testPackage <;>
      simp [← same,violations,uses,own]
  rw [Violations.otherError,Bool.or_eq_false_iff,Bool.or_eq_false_iff,Bool.or_eq_false_iff,layering,strictness,acyclic,migrated]
  constructor
  · rintro ⟨⟨⟨first,second⟩,third⟩,fourth⟩
    exact ⟨first,second,third,fourth⟩
  · rintro ⟨first,second,third,fourth⟩
    exact ⟨⟨⟨first,second⟩,third⟩,fourth⟩

-- A visibility error hides the other violations from the flag.
theorem causesModularityError_iff (v : Violations) :
    v.causesModularityError = false ↔ v.causesVisibilityError = true ∨ v.otherError = false := by
  obtain ⟨layering,tooLow,cycle,visibility,test⟩ := v
  cases layering <;> cases tooLow <;> cases cycle <;> cases visibility <;> cases test <;> decide

theorem checkReference_isSome {fuel : Nat} (searches : Searches gs.packageDB show_ fuel) (file : FileRef) (name : Name) :
    (this.checkReferenceAgainstImports gs show_ fuel file name).isSome = true := by
  unfold checkReferenceAgainstImports
  cases found : gs.packageDB.getPackageInfo name with
  | none => rfl
  | some pkg =>
    dsimp only
    split
    · rfl
    · obtain ⟨path,computed,_⟩ := searches name pkg found this.mangledName
      rw [computed]
      rfl

theorem wantsImport_tracked (stored : Stored gs.packageDB) (enforced : gs.packageDB.enforceLayering = true) {fuel : Nat}
    (searches : Searches gs.packageDB show_ fuel) (normal : this.fileToImportType gs file = .Normal) {name : Name} (found : gs.packageDB.getPackageInfo name = some pkg) :
    this.wantsImport gs .Normal name (trackedInfo gs show_ this fuel file name) = true ↔
      this.importNeeded gs file name = true ∧ (pkg.isVisibleTo gs this .Normal = false ∨ Modular gs this pkg) ∧
        (pkg.isVisibleTo gs this .Normal = true ∨ gs.packageDB.updateVisibilityFor name = true) := by
  obtain ⟨path,computed,decided⟩ := searches name pkg found this.mangledName
  rw [← stored name pkg found] at decided
  have flag : (this.violations gs file pkg path).causesModularityError = false ↔
      pkg.isVisibleTo gs this .Normal = false ∨ Modular gs this pkg := by
    rw [causesModularityError_iff,violations_modular enforced normal decided,violations_visible normal]
    simp
  unfold wantsImport trackedInfo checkReferenceAgainstImports
  rw [found]
  dsimp only
  cases needed : this.importNeeded gs file name with
  | false => simp
  | true =>
    rw [computed]
    simp [flag]

-- A reference to a package that is not visible but is going to be, and that must not be
-- imported for another reason.
def Masked (gs : PackageState Name) (this : PackageInfo Name) (packageFile : PackageFile) (refs : List (FileRef × Name)) : Prop :=
  ∃ file name, (file,name) ∈ refs ∧ ∃ pkg, gs.packageDB.getPackageInfo name = some pkg ∧
    this.fileToImportType gs file = .Normal ∧ this.importNeeded gs file name = true ∧ Insertable this packageFile name ∧
    pkg.isVisibleTo gs this .Normal = false ∧ gs.packageDB.updateVisibilityFor name = true ∧ ¬Modular gs this pkg

theorem aggregateMissingImports_modular_iff (show_ : Name → Text) (this : PackageInfo Name) (packageFile : PackageFile)
    (refs : List (FileRef × Name)) (stored : Stored gs.packageDB) (finite : {name | gs.packageDB.getPackageInfo name ≠ none}.Finite)
    (enforced : gs.packageDB.enforceLayering = true) :
    ∃ bound, ∀ fuel, bound ≤ fuel → ∃ referenced, this.trackReferences gs show_ fuel ∅ refs = some referenced ∧
      ((∀ deleted edits, this.aggregateMissingImports gs show_ packageFile referenced = some (deleted,edits) →
        ∀ edit ∈ edits, edit.type = .Normal → ∀ pkg, gs.packageDB.getPackageInfo edit.imported = some pkg → Modular gs this pkg) ↔
      ¬Masked gs this packageFile refs) := by
  obtain ⟨bound,searches⟩ := pathTo_decides stored finite show_
  refine ⟨bound,fun fuel enough => ?_⟩
  have searches := searches fuel enough
  have start : Tracks gs show_ this fuel [] ∅ := by simp [Tracks]
  obtain ⟨referenced,run,tracks⟩ := trackReferences_tracks refs (checkReference_isSome searches) start
  refine ⟨referenced,run,?_⟩
  rw [List.nil_append] at tracks
  have collected (name : Name) : (this.importsToAdd gs referenced).lookup name = some .Normal ↔
      ∃ file, (file,name) ∈ refs ∧ this.fileToImportType gs file = .Normal ∧
        this.wantsImport gs .Normal name (trackedInfo gs show_ this fuel file name) = true := by
    rw [importsToAdd,collectImports_normal,AList.lookup_empty]
    simp only [mem_allReferences]
    constructor
    · rintro (none_ | ⟨file,info,entry,normal,wants⟩)
      · cases none_
      · obtain ⟨member,rfl⟩ := (tracks file name info).mp entry
        exact ⟨file,member,normal,wants⟩
    · rintro ⟨file,member,normal,wants⟩
      exact .inr ⟨file,_,(tracks file name _).mpr ⟨member,rfl⟩,normal,wants⟩
  have added := @mem_computeImportEdits _ _ gs show_ this packageFile stored (this.importsToAdd gs referenced)
  constructor
  · rintro all ⟨file,name,member,pkg,found,normal,needed,insertable,hidden,update,bad⟩
    have wants := (wantsImport_tracked stored enforced searches normal found).mpr ⟨needed,.inl hidden,.inr update⟩
    obtain ⟨edit,there,type,rfl⟩ := (added name).mpr ⟨(collected name).mpr ⟨file,member,normal,wants⟩,by rw [found]; rfl,insertable⟩
    refine bad (all (this.deletedImports gs) _ ?_ edit there type pkg found)
    have some_ : (this.computeImportEdits gs show_ packageFile (this.importsToAdd gs referenced)).isEmpty = false := by
      rw [List.isEmpty_eq_false_iff]
      exact List.ne_nil_of_mem there
    rw [aggregateMissingImports,some_,Bool.and_false]
    rfl
  · intro fine deleted edits result edit there type pkg found
    have there : edit ∈ this.computeImportEdits gs show_ packageFile (this.importsToAdd gs referenced) := by
      unfold aggregateMissingImports at result
      dsimp only at result
      split at result
      · cases result
      · cases result
        exact there
    obtain ⟨asked,_,insertable⟩ := (added edit.imported).mp ⟨edit,there,type,rfl⟩
    obtain ⟨file,member,normal,wants⟩ := (collected edit.imported).mp asked
    obtain ⟨needed,allowed,visible⟩ := (wantsImport_tracked stored enforced searches normal found).mp wants
    rcases allowed with hidden | modular
    · by_contra bad
      have update := visible.resolve_left (by simp [hidden])
      exact fine ⟨file,edit.imported,member,pkg,found,normal,needed,insertable,hidden,update,bad⟩
    · exact modular

end Modularity

section Sample

-- Package 1 is layered and in the lower layer. Package 2 is in the upper layer and visible to
-- tests only, but a visible_to is going to be added. One file of package 1 refers to it.
def importing : PackageInfo Nat :=
  {mangledName := 1,packagePathPrefixes := [],importedPackageNames := [],exportAll := false,layer := some 0,
    sccID := none,strictDependenciesLevel := .Layered}

def hidden : PackageInfo Nat :=
  {mangledName := 2,packagePathPrefixes := [],importedPackageNames := [],exportAll := false,layer := some 1,sccID := none,
    strictDependenciesLevel := .Layered}

def layeredDB : PackageDB Nat := initial.setPackagerOptions {PackagerOptions.initial with layers := [0,1]}

def hiddenDB : PackageDB Nat := {(layeredDB.enterPackage importing).enterPackage hidden with packagesToUpdateVisibilityFor := [some 2]}

def hiddenState : PackageState Nat :=
  {packageDB := hiddenDB
   declarations := fun name => if name = 2 then ⟨false,false,false,[],none,none,[],[],true⟩ else .initial
   files := fun _ => ⟨false,false⟩
   symbols := ⟨fun _ => 0,0,fun _ => 0,fun _ top => absurd rfl top⟩}

def importingFile : PackageFile := ⟨"class P < PackageSpec\nend\n".toList,none,25⟩

def hiddenShow : Nat → Text
  | 2 => ['H']
  | _ => []

theorem hidden_stored : Stored hiddenState.packageDB := by
  have empty : Stored layeredDB := initial_stored
  exact enterPackage_stored (enterPackage_stored empty importing) hidden

theorem hidden_finite : {name | hiddenState.packageDB.getPackageInfo name ≠ none}.Finite := by
  apply ([1,2] : List Nat).finite_toSet.subset
  intro name present
  by_contra absent
  change name ∉ [1,2] at absent
  rw [List.mem_pair,not_or] at absent
  apply present
  change Function.update (Function.update (fun _ => none) 1 (some importing)) 2 (some hidden) name = none
  rw [Function.update_of_ne absent.2,Function.update_of_ne absent.1]

theorem aggregateMissingImports_modular_iff_hidden :
    ∃ bound, ∀ fuel, bound ≤ fuel → ∃ referenced,
      importing.trackReferences hiddenState hiddenShow fuel ∅ [(0,2)] = some referenced ∧
      ((∀ deleted edits, importing.aggregateMissingImports hiddenState hiddenShow importingFile referenced = some (deleted,edits) →
        ∀ edit ∈ edits, edit.type = .Normal → ∀ pkg, hiddenState.packageDB.getPackageInfo edit.imported = some pkg →
          Modular hiddenState importing pkg) ↔
      ¬Masked hiddenState importing importingFile [(0,2)]) :=
  aggregateMissingImports_modular_iff hiddenShow importing importingFile [(0,2)] hidden_stored hidden_finite rfl

-- The violation is reported, but the import is added.
theorem aggregateMissingImports_hidden : hiddenState.packageDB.enforceLayering = true ∧
    importing.checkReferenceAgainstImports hiddenState hiddenShow 3 0 2 =
      some (some (⟨true,false⟩,some (.LayeringViolation,[.layeringViolation]))) ∧
    ∃ referenced deleted edits edit, importing.trackReferences hiddenState hiddenShow 3 ∅ [(0,2)] = some referenced ∧
      importing.aggregateMissingImports hiddenState hiddenShow importingFile referenced = some (deleted,edits) ∧ edit ∈ edits ∧
      edit.type = .Normal ∧ hiddenState.packageDB.getPackageInfo edit.imported = some hidden ∧
      ¬Modular hiddenState importing hidden := by
  refine ⟨rfl,by decide,_,_,_,_,rfl,rfl,.head _,rfl,rfl,fun modular => ?_⟩
  exact absurd (modular.layering (by decide)) (by decide)

end Sample

end Packager.PackageInfo
