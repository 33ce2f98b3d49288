import ScipRuby.Packages.Condensation

namespace Packager
open Packages (ImportType Condensation)

-- Layers are names that were entered for the options; here their ids.
abbrev NameRef := Nat
abbrev FileRef := Nat
abbrev Text := List Char

inductive StrictDependenciesLevel where
  | None
  | False
  | Layered
  | LayeredDag
  | Dag
  deriving DecidableEq,Repr

inductive GenPackagesMode where
  | Disabled
  | Normal
  | Strict
  deriving DecidableEq,Repr

structure Import (Name : Type) where
  mangledName : Name
  type : ImportType
  usesInternals : Bool

def Import.isTestImport {Name : Type} (imp : Import Name) : Bool := imp.type ≠ .Normal

-- A package that exists. A layer or an SCC id that is not set is none.
structure PackageInfo (Name : Type) where
  mangledName : Name
  packagePathPrefixes : List Text
  importedPackageNames : List (Import Name)
  exportAll : Bool
  layer : Option NameRef
  sccID : Option Nat
  strictDependenciesLevel : StrictDependenciesLevel

structure PackagerOptions where
  extraPackageFilesDirectoryUnderscorePrefixes : List Text
  extraPackageFilesDirectorySlashDeprecatedPrefixes : List Text
  extraPackageFilesDirectorySlashPrefixes : List Text
  skipRBIExportEnforcementDirs : List Text
  allowRelaxedPackagerChecksFor : List Text
  updateVisibilityFor : List Text
  layers : List NameRef
  errorHint : Text
  genPackagesMode : GenPackagesMode
  allowRelaxingTestVisibility : Bool
  packageAttributedErrors : Bool
  testPackages : Bool

-- The two maps as functions; the options as setPackagerOptions leaves them. A mangled name that
-- does not exist is none.
structure PackageDB (Name : Type) where
  enabled : Bool
  options : PackagerOptions
  packagesWithRelaxedChecks : List (Option Name)
  packagesToUpdateVisibilityFor : List (Option Name)
  packageForFile : List (Option Name)
  packages_ : Name → Option (PackageInfo Name)
  packagesByPathPrefix : Text → Option Name
  mangledNames : List Name
  frozen : Bool
  condensation : Condensation Name

namespace PackagerOptions

def initial : PackagerOptions := ⟨[],[],[],[],[],[],[],[],.Disabled,false,false,false⟩

end PackagerOptions

namespace PackageDB
variable {Name : Type}

def initial : PackageDB Name := ⟨false,.initial,[],[],[],fun _ => none,fun _ => none,[],true,[]⟩

section Operations
variable [DecidableEq Name] (db : PackageDB Name)

-- The layers are appended to those already there.
def setPackagerOptions (options : PackagerOptions) : PackageDB Name :=
  {db with enabled := true,options := {options with layers := db.options.layers ++ options.layers}}

def enterPackage (pkg : PackageInfo Name) : PackageDB Name :=
  let stored := {db with packages_ := Function.update db.packages_ pkg.mangledName (some pkg)}
  match db.packages_ pkg.mangledName with
  | some _ => stored
  | none => {stored with
      packagesByPathPrefix := fun path => if path ∈ pkg.packagePathPrefixes then some pkg.mangledName else db.packagesByPathPrefix path
      mangledNames := db.mangledNames ++ [pkg.mangledName]}

def setPackageNameForFile (file : FileRef) (mangledName : Option Name) : PackageDB Name :=
  let resized := db.packageForFile ++ List.replicate (file + 1 - db.packageForFile.length) none
  {db with packageForFile := resized.set file mangledName}

variable (lookupMangledName : Text → Option Name)

def resolvePackagesWithRelaxedChecks : PackageDB Name :=
  {db with packagesWithRelaxedChecks := db.options.allowRelaxedPackagerChecksFor.map lookupMangledName}

def resolvePackagesToUpdateVisibilityFor : PackageDB Name :=
  if db.options.updateVisibilityFor.isEmpty then db
  else {db with packagesToUpdateVisibilityFor := db.options.updateVisibilityFor.map lookupMangledName}

def setCondensation (condensation : Condensation Name) : PackageDB Name := {db with condensation := condensation}

end Operations

section Queries
variable [DecidableEq Name] (db : PackageDB Name)

def testPackages : Bool := db.options.testPackages
def packageAttributedErrors : Bool := db.options.packageAttributedErrors
def genPackagesMode : GenPackagesMode := db.options.genPackagesMode
def allowRelaxingTestVisibility : Bool := db.options.allowRelaxingTestVisibility
def layers : List NameRef := db.options.layers

-- A layer that is not configured, which ENFORCE excludes, has the index past the end.
def layerIndex (layer : NameRef) : Nat := db.layers.idxOf layer

def enforceLayering : Bool := !db.layers.isEmpty
def errorHint : Text := db.options.errorHint
def allowRelaxedPackagerChecksFor (mangledName : Option Name) : Bool := mangledName ∈ db.packagesWithRelaxedChecks
def updateVisibilityFor (mangledName : Option Name) : Bool := mangledName ∈ db.packagesToUpdateVisibilityFor
def packages : List Name := db.mangledNames
def getPackageInfo (mangledName : Name) : Option (PackageInfo Name) := db.packages_ mangledName
def getPackageNameForFile (file : FileRef) : Option Name := (db.packageForFile[file]?).join

end Queries

inductive Operation (Name : Type) where
  | setPackagerOptions (options : PackagerOptions)
  | enterPackage (pkg : PackageInfo Name)
  | setPackageNameForFile (file : FileRef) (mangledName : Option Name)
  | resolvePackagesWithRelaxedChecks
  | resolvePackagesToUpdateVisibilityFor
  | setCondensation (condensation : Condensation Name)

section Runs
variable [DecidableEq Name] (lookupMangledName : Text → Option Name)

def step (db : PackageDB Name) : Operation Name → PackageDB Name
  | .setPackagerOptions options => db.setPackagerOptions options
  | .enterPackage pkg => db.enterPackage pkg
  | .setPackageNameForFile file mangledName => db.setPackageNameForFile file mangledName
  | .resolvePackagesWithRelaxedChecks => db.resolvePackagesWithRelaxedChecks lookupMangledName
  | .resolvePackagesToUpdateVisibilityFor => db.resolvePackagesToUpdateVisibilityFor lookupMangledName
  | .setCondensation condensation => db.setCondensation condensation

def run (operations : List (Operation Name)) : PackageDB Name := operations.foldl (step lookupMangledName) initial

end Runs

section Answers

variable {db : PackageDB Name}

end Answers

section Results

end Results

end PackageDB

end Packager
