import Mathlib.Data.List.AList
import ScipRuby.Packager.Declarations
import ScipRuby.Packager.ImportPath

namespace Packager
open Relation

-- The owners of the symbols that packages are named by. Going up ends at the root.
structure Owners (Name : Type) where
  owner : Name → Name
  root : Name
  depth : Name → Nat
  deeper : ∀ name, owner name ≠ root → depth (owner name) < depth name

-- The flags of a file that its path gives.
structure File where
  isTestFile : Bool
  isTestPath : Bool

namespace File

def isPackagedTest (file : File) : Bool := file.isTestFile || file.isTestPath
def isPackagedTestHelper (file : File) : Bool := file.isTestPath && !file.isTestFile

end File

structure PackageState (Name : Type) where
  packageDB : PackageDB Name
  declarations : Name → Declarations Name
  files : FileRef → File
  symbols : Owners Name

structure PackageReferenceInfo where
  importNeeded : Bool
  causesModularityError : Bool
  deriving DecidableEq,Repr

inductive ErrorClass where
  | MissingImport
  | UsedTestOnlyName
  | StrictDependenciesViolation
  | LayeringViolation
  | TestImportMismatch
  deriving DecidableEq,Repr

-- Why a package cannot be referenced, in the order of the message.
inductive Reason where
  | notVisible
  | badTestReference
  | causesCycle
  | layeringViolation
  | strictDependenciesTooLow
  deriving DecidableEq,Repr

structure Violations where
  layeringViolation : Bool
  strictDependenciesTooLow : Bool
  causesCycle : Bool
  causesVisibilityError : Bool
  badTestReference : Bool

def Import.isAvailableTo {Name : Type} (imp : Import Name) (file : File) : Bool :=
  if imp.type = .Normal then true
  else if !file.isPackagedTest then false
  else decide (imp.type ≠ .TestUnit) || !file.isPackagedTestHelper

namespace PackageInfo
variable {Name : Type} [DecidableEq Name]

section Visible
variable (symbols : Owners Name)

-- A wildcard matches when its package is the importing one or owns it.
def wildcardMatches (pre : Name) : Nat → Name → Bool
  | 0,_ => false
  | fuel + 1,curPkg =>
    decide (curPkg = pre) || (decide (symbols.owner curPkg ≠ symbols.root) && wildcardMatches pre fuel (symbols.owner curPkg))

-- The fuel is enough: matching goes up from owner to owner below the root.
theorem wildcardMatches_iff (pre : Name) {fuel : Nat} (curPkg : Name) (enough : symbols.depth curPkg < fuel) :
    wildcardMatches symbols pre fuel curPkg = true ↔
      ReflTransGen (fun name other => symbols.owner name = other ∧ other ≠ symbols.root) curPkg pre := by
  induction fuel generalizing curPkg with
  | zero => exact absurd enough (Nat.not_lt_zero _)
  | succ fuel ih =>
    rw [wildcardMatches,ReflTransGen.cases_head_iff]
    by_cases top : symbols.owner curPkg = symbols.root
    · simp [top]
    · have deeper := symbols.deeper curPkg top
      simp [top,ih (symbols.owner curPkg) (by omega)]

variable (gs : PackageState Name) (this importingPkgInfo : PackageInfo Name)

def isVisibleTo (importType : Packages.ImportType) : Bool :=
  let decl := gs.declarations this.mangledName
  let importingDecl := gs.declarations importingPkgInfo.mangledName
  (decl.visibleTo.isEmpty && !decl.visibleToTests) ||
  (decl.visibleToTests && if importingDecl.usesTestPackages then importingDecl.testPackage else decide (importType ≠ .Normal)) ||
  decl.visibleTo.any fun vt =>
    match vt.type with
    | .Wildcard =>
      wildcardMatches gs.symbols vt.mangledName (gs.symbols.depth importingPkgInfo.mangledName + 1) importingPkgInfo.mangledName
    | .Normal => decide (vt.mangledName = importingPkgInfo.mangledName)

end Visible

def minimumStrictDependenciesLevel : StrictDependenciesLevel → StrictDependenciesLevel
  | .None | .False => .False
  | .Layered | .LayeredDag => .Layered
  | .Dag => .Dag

section Check
variable (gs : PackageState Name) (show_ : Name → Text) (this : PackageInfo Name) (file : FileRef)

def usesTestPackages : Bool := (gs.declarations this.mangledName).usesTestPackages

def fileToImportType : Packages.ImportType :=
  if this.usesTestPackages gs then .Normal
  else if (gs.files file).isPackagedTestHelper then .TestHelper
  else if (gs.files file).isPackagedTest then .TestUnit
  else .Normal

def importNeeded (otherPackage : Name) : Bool :=
  match this.importsPackage otherPackage with
  | none => true
  | some imp => !imp.isAvailableTo (gs.files file)

-- The five violations, where path is what pathTo has found. The source looks for a path only
-- where layering is enforced.
def violations (pkg : PackageInfo Name) (path : Option Text) : Violations :=
  let isTestImport := (gs.files file).isPackagedTest && !this.usesTestPackages gs
  let autocorrectedImportType : Packages.ImportType :=
    if isTestImport then if (gs.files file).isPackagedTestHelper then .TestHelper else .TestUnit else .Normal
  let enforced := !isTestImport && gs.packageDB.enforceLayering
  {layeringViolation := enforced && decide (.False < this.strictDependenciesLevel) && this.causesLayeringViolationOf gs.packageDB pkg
   strictDependenciesTooLow := enforced && decide (pkg.strictDependenciesLevel ≠ .None) &&
     decide (pkg.strictDependenciesLevel < minimumStrictDependenciesLevel this.strictDependenciesLevel)
   causesCycle := enforced && decide (.LayeredDag ≤ this.strictDependenciesLevel) && path.isSome
   causesVisibilityError := !pkg.isVisibleTo gs this autocorrectedImportType
   badTestReference := this.usesTestPackages gs && (gs.declarations pkg.mangledName).testPackage &&
     !(gs.declarations this.mangledName).testPackage}

end Check

end PackageInfo

namespace Violations
variable (v : Violations)

def hasModularityError : Bool :=
  v.layeringViolation || v.strictDependenciesTooLow || v.causesCycle || v.badTestReference || v.causesVisibilityError

def causesModularityError : Bool := v.hasModularityError && !v.causesVisibilityError

-- A visibility error is no reason when a visible_to is going to be added.
def reasons (updateVisibilityFor : Bool) : List Reason :=
  (if v.causesVisibilityError && !updateVisibilityFor then [.notVisible] else []) ++
  (if v.badTestReference then [.badTestReference] else []) ++
  (if v.causesCycle then [.causesCycle] else []) ++
  (if v.layeringViolation then [.layeringViolation] else []) ++
  if v.strictDependenciesTooLow then [.strictDependenciesTooLow] else []

def errorClass : ErrorClass :=
  if v.causesCycle then .StrictDependenciesViolation
  else if v.layeringViolation then .LayeringViolation
  else if v.badTestReference then .TestImportMismatch
  else .StrictDependenciesViolation

end Violations

namespace PackageInfo
variable {Name : Type} [DecidableEq Name] (gs : PackageState Name) (show_ : Name → Text) (this : PackageInfo Name)

section Track

-- The error that is reported, if any, with its reasons.
def referenceError (otherPackage : Name) (v : Violations) : Option (ErrorClass × List Reason) :=
  if v.hasModularityError then
    let reasons := v.reasons (gs.packageDB.updateVisibilityFor otherPackage)
    if reasons.isEmpty then none else some (v.errorClass,reasons)
  else if gs.packageDB.genPackagesMode ≠ .Disabled then none
  else if (this.importsPackage otherPackage).isSome then some (.UsedTestOnlyName,[])
  else some (.MissingImport,[])

-- Nothing when the search for a path has no fuel left. A reference is to a package that exists.
def checkReferenceAgainstImports (fuel : Nat) (file : FileRef) (otherPackage : Name) :
    Option (Option (PackageReferenceInfo × Option (ErrorClass × List Reason))) :=
  match gs.packageDB.getPackageInfo otherPackage with
  | none => some none
  | some pkg =>
    if !this.importNeeded gs file otherPackage then some none
    else (gs.packageDB.pathTo show_ fuel pkg this.mangledName).map fun path =>
      let v := this.violations gs file pkg path
      some (⟨true,v.causesModularityError⟩,this.referenceError gs otherPackage v)

abbrev References (Name : Type) := AList fun _ : FileRef => AList fun _ : Name => PackageReferenceInfo

def trackPackageReference (referenced : References Name) (file : FileRef) (package : Name) (referenceInfo : PackageReferenceInfo) :
    References Name :=
  let references := (referenced.lookup file).getD ∅
  let info := match references.lookup package with
    | none => referenceInfo
    | some existing => ⟨existing.importNeeded || referenceInfo.importNeeded,
        existing.causesModularityError || referenceInfo.causesModularityError⟩
  referenced.insert file (references.insert package info)

-- A reference that is fine is tracked with neither flag set.
def trackReferences (fuel : Nat) : References Name → List (FileRef × Name) → Option (References Name)
  | referenced,[] => some referenced
  | referenced,(file,package) :: references =>
    match this.checkReferenceAgainstImports gs show_ fuel file package with
    | none => none
    | some result =>
      let referenceInfo := (result.map Prod.fst).getD ⟨false,false⟩
      trackReferences fuel (trackPackageReference referenced file package referenceInfo) references

end Track

end PackageInfo

end Packager
