import ScipRuby.Packager.PackageDB

namespace Packager
variable {Name : Type} [DecidableEq Name]

abbrev ClassOrModuleRef := Nat
abbrev FieldRef := Nat

inductive SymbolRef where
  | classOrModule (ref : ClassOrModuleRef)
  | field (ref : FieldRef)
  deriving DecidableEq,Repr

def root : ClassOrModuleRef := 3

structure ClassOrModule (Name : Type) where
  owner : ClassOrModuleRef
  package : Option Name
  superClass : Option ClassOrModuleRef

structure Field where
  owner : ClassOrModuleRef
  isStaticField : Bool

-- The part of the symbol table that the exports depend on. T_Enum is the class T::Enum.
structure GlobalState (Name : Type) where
  classAndModules : ClassOrModuleRef → ClassOrModule Name
  classAndModulesUsed : Nat
  fields : FieldRef → Field
  fieldsUsed : Nat
  T_Enum : ClassOrModuleRef
  filesUsed : Nat
  symbolsReferencedByFile : FileRef → List SymbolRef
  packageDB : PackageDB Name

abbrev Exports (Name : Type) := Name → List SymbolRef

section Exporting
variable (gs : GlobalState Name)

def getEnumClassForEnumValue : SymbolRef → Option ClassOrModuleRef
  | .classOrModule _ => none
  | .field field =>
    let owner := (gs.fields field).owner
    if (gs.fields field).isStaticField ∧ (gs.classAndModules owner).superClass = some gs.T_Enum then some owner else none

-- Ids fall along the owners, so that the id of the owner bounds the loop.
def ownerWillBeExported (alreadyExported : List SymbolRef) : Nat → ClassOrModuleRef → Bool
  | 0,_ => false
  | fuel + 1,owner =>
    if owner = root then false
    else if .classOrModule owner ∈ alreadyExported then true
    else ownerWillBeExported alreadyExported fuel (gs.classAndModules owner).owner

def ownerOf : SymbolRef → ClassOrModuleRef
  | .classOrModule ref => (gs.classAndModules ref).owner
  | .field ref => (gs.fields ref).owner

def packageOf : SymbolRef → Option Name
  | .classOrModule ref => (gs.classAndModules ref).package
  | .field ref => (gs.classAndModules (gs.fields ref).owner).package

def importsPackage (pkg : PackageInfo Name) (mangledName : Name) : Option (Import Name) :=
  pkg.importedPackageNames.find? fun imp => imp.mangledName = mangledName

-- The files that the loops over the references pass over.
def skipsFile (owningPackage : Name) (f : FileRef) : Bool :=
  let packageForF := gs.packageDB.getPackageNameForFile f
  packageForF = some owningPackage || gs.packageDB.allowRelaxedPackagerChecksFor packageForF ||
    ((packageForF.bind gs.packageDB.getPackageInfo).bind (importsPackage · owningPackage)).any Import.usesInternals

-- The loop of exportClassOrModule and of exportField. They differ in what they push.
def exportReferenced (toExport : Exports Name) (owningPackage : Name) (symbol pushed : SymbolRef) : List FileRef → Exports Name
  | [] => toExport
  | f :: referencingFiles =>
    if skipsFile gs owningPackage f then exportReferenced toExport owningPackage symbol pushed referencingFiles
    else
      let owner := ownerOf gs symbol
      if ownerWillBeExported gs (toExport owningPackage) (owner + 1) owner then toExport
      else Function.update toExport owningPackage (toExport owningPackage ++ [pushed])

def exportsAll (mangledName : Name) : Bool := (gs.packageDB.getPackageInfo mangledName).any PackageInfo.exportAll

def exportSymbol (toExport : Exports Name) (symbol pushed : SymbolRef) (referencingFiles : List FileRef) : Exports Name :=
  match packageOf gs symbol with
  | none => toExport
  | some owningPackage =>
    if exportsAll gs owningPackage then toExport
    else exportReferenced gs toExport owningPackage symbol pushed referencingFiles

def exportClassOrModule (toExport : Exports Name) (symbol : ClassOrModuleRef) (referencingFiles : List FileRef) : Exports Name :=
  exportSymbol gs toExport (.classOrModule symbol) (.classOrModule symbol) referencingFiles

def exportField (toExport : Exports Name) (symbol : FieldRef) (referencingFiles : List FileRef) : Exports Name :=
  let pushed := (getEnumClassForEnumValue gs (.field symbol)).elim (.field symbol) .classOrModule
  exportSymbol gs toExport (.field symbol) pushed referencingFiles

def computeReferencingFiles (symbol : SymbolRef) : List FileRef :=
  (List.range' 1 (gs.filesUsed - 1)).filter fun f => symbol ∈ gs.symbolsReferencedByFile f

def exportsByPackage : Exports Name :=
  let toExport := (List.range' 1 (gs.classAndModulesUsed - 1)).foldl
    (fun toExport i => exportClassOrModule gs toExport i (computeReferencingFiles gs (.classOrModule i))) fun _ => []
  (List.range' 1 (gs.fieldsUsed - 1)).foldl
    (fun toExport i => exportField gs toExport i (computeReferencingFiles gs (.field i))) toExport

end Exporting

end Packager
