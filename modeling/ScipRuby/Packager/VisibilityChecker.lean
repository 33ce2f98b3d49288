import ScipRuby.Lib.Preorder
import ScipRuby.Packager.ExportsByPackage

namespace Packager.Visibility

abbrev MethodRef := Nat
abbrev TypeParameterRef := Nat
abbrev TypeMemberRef := Nat

inductive SymbolRef where
  | classOrModule (ref : ClassOrModuleRef)
  | method (ref : MethodRef)
  | field (ref : FieldRef)
  | typeParameter (ref : TypeParameterRef)
  | typeMember (ref : TypeMemberRef)
  deriving DecidableEq,Repr

structure LocOffsets where
  beginLoc : Nat
  endLoc : Nat
  deriving DecidableEq,Repr

namespace LocOffsets

def invalidPosLoc : Nat := 0xffffffff

def none : LocOffsets := ⟨invalidPosLoc,invalidPosLoc⟩

def Existing (loc : LocOffsets) : Prop := loc.endLoc ≠ invalidPosLoc ∧ loc.beginLoc ≠ invalidPosLoc

instance (loc : LocOffsets) : Decidable loc.Existing := inferInstanceAs (Decidable (_ ∧ _))

end LocOffsets

def noClassOrModule : ClassOrModuleRef := 0
def packageSpecRegistry : ClassOrModuleRef := 81

def untyped : ClassOrModuleRef := 16
def badAliasMethodStub : MethodRef := 3

-- Names that are known ahead. Only that they differ matters.
namespace Names
def attached : NameRef := 1
def singleton : NameRef := 2
def testNamespace : NameRef := 3
end Names

-- The members in the order of an iteration over them. The package is the owner in its mangled
-- name. Whether the class is a singleton class can be read off its name in the source.
structure ClassOrModule where
  name : NameRef
  owner : ClassOrModuleRef
  members : List (NameRef × SymbolRef)
  package : Option ClassOrModuleRef
  isSingletonClass : Bool
  isBehaviorDefining : Bool

structure Field where
  name : NameRef
  owner : ClassOrModuleRef
  isStaticField : Bool

-- The target of an alias is the symbol of the AliasType that the symbol has as its result type.
structure GlobalState where
  classAndModules : ClassOrModuleRef → ClassOrModule
  alias_ : SymbolRef → Option SymbolRef
  classAndModulesUsed : Nat
  fields : FieldRef → Field
  methodOwner : MethodRef → ClassOrModuleRef
  typeParameterOwner : TypeParameterRef → MethodRef
  typeMemberOwner : TypeMemberRef → ClassOrModuleRef

structure PackageInfo where
  mangledName : ClassOrModuleRef
  usesTestPackages : Bool

structure ExportBlame where
  exportedBy : SymbolRef
  firstExportedAt : LocOffsets
  deriving DecidableEq,Repr

structure DuplicateExportError where
  duplicate : SymbolRef
  exportedPrefix : SymbolRef
  firstExportedAt : LocOffsets
  deriving DecidableEq,Repr

-- The exported flags of the symbols, and the two maps of the pass. Two locations are the same
-- key for COMPARE_EXPORT_LOCS when both ends agree.
structure State where
  isExported : SymbolRef → Bool
  explicitlyExported : SymbolRef → Option ExportBlame
  duplicateExports : LocOffsets → Option DuplicateExportError

def State.setIsExported (st : State) (sym : SymbolRef) (setExportedTo : Bool) : State :=
  {st with isExported := Function.update st.isExported sym setExportedTo}

-- An `export` with one constant that the resolver has found.
structure ExportLine where
  symbol : SymbolRef
  loc : LocOffsets

section Scopes
variable (gs : GlobalState)

def dealiasWithDefault (default_ : SymbolRef) : Nat → SymbolRef → SymbolRef
  | 0,symbol => if (gs.alias_ symbol).isSome then default_ else symbol
  | depthLimit + 1,symbol => (gs.alias_ symbol).elim symbol (dealiasWithDefault default_ depthLimit)

def dealias : SymbolRef → SymbolRef
  | .method ref => dealiasWithDefault gs (.method badAliasMethodStub) 42 (.method ref)
  | symbol => dealiasWithDefault gs (.classOrModule untyped) 42 symbol

def findMember (klass : ClassOrModuleRef) (name : NameRef) : Option SymbolRef :=
  ((gs.classAndModules klass).members.lookup name).map (dealias gs)

-- The parts from the outermost on, where the source iterates from the back.
def getScopeForPackage : List NameRef → ClassOrModuleRef → ClassOrModuleRef
  | [],result => if result = root then noClassOrModule else result
  | part :: parts,result =>
    match findMember gs result part with
    | some (.classOrModule nextScope) =>
      if nextScope = noClassOrModule then noClassOrModule else getScopeForPackage parts nextScope
    | _ => noClassOrModule

-- The names of the package from the innermost on.
def packageParts : Nat → ClassOrModuleRef → Option (List NameRef)
  | 0,_ => none
  | fuel + 1,owner =>
    if owner = root ∨ owner = packageSpecRegistry then some []
    else (packageParts fuel (gs.classAndModules owner).owner).map ((gs.classAndModules owner).name :: ·)

def getScopesForPackage (package : PackageInfo) (fuel : Nat) : Option (ClassOrModuleRef × ClassOrModuleRef) :=
  (packageParts gs fuel package.mangledName).map fun parts =>
    let nonTestScope := getScopeForPackage gs parts.reverse root
    match package.usesTestPackages,findMember gs root Names.testNamespace with
    | false,some (.classOrModule testNamespace) =>
      if testNamespace = noClassOrModule then (nonTestScope,noClassOrModule)
      else (nonTestScope,getScopeForPackage gs parts.reverse testNamespace)
    | _,_ => (nonTestScope,noClassOrModule)

end Scopes

section PropagateVisibility
variable (gs : GlobalState) (package : PackageInfo)

def enclosingClass : SymbolRef → ClassOrModuleRef
  | .classOrModule ref => ref
  | .method ref => gs.methodOwner ref
  | .field ref => (gs.fields ref).owner
  | .typeParameter ref => gs.methodOwner (gs.typeParameterOwner ref)
  | .typeMember ref => gs.typeMemberOwner ref

def isSingletonClass : SymbolRef → Bool
  | .classOrModule ref => (gs.classAndModules ref).isSingletonClass
  | _ => false

def checkDuplicateExport (currentExportLineSym : SymbolRef) (currentExportLineLoc : LocOffsets) (sym : SymbolRef)
    (alreadyExported : Bool) (st : State) : State :=
  match st.explicitlyExported sym with
  | some blame =>
    -- If the symbol is not at the top then the current export is more general, and the line that
    -- exported it before is at fault.
    let atTop := decide (sym = currentExportLineSym)
    let errLoc := if atTop then currentExportLineLoc else blame.firstExportedAt
    if alreadyExported = true ∧ st.duplicateExports errLoc = none then
      let firstExportedAt := if atTop then blame.firstExportedAt else currentExportLineLoc
      {st with duplicateExports :=
        Function.update st.duplicateExports errLoc (some ⟨sym,currentExportLineSym,firstExportedAt⟩)}
    else st
  | none =>
    if currentExportLineLoc.Existing ∧ isSingletonClass gs sym = false then
      {st with explicitlyExported :=
        Function.update st.explicitlyExported sym (some ⟨currentExportLineSym,currentExportLineLoc⟩)}
    else st

-- What both kinds of symbols do before the recursion goes on.
def visit (setExportedTo : Bool) (currentExportLineSym : SymbolRef) (currentExportLineLoc : LocOffsets) (st : State)
    (sym : SymbolRef) : State :=
  let st :=
    if setExportedTo then
      checkDuplicateExport gs currentExportLineSym currentExportLineLoc sym (st.isExported sym) st
    else st
  st.setIsExported sym setExportedTo

def recursiveSetIsExported (setExportedTo : Bool) (currentExportLineSym : SymbolRef) (currentExportLineLoc : LocOffsets) :
    Nat → SymbolRef → State → Option State
  | 0,_,_ => none
  | fuel + 1,sym,st =>
    if (gs.classAndModules (enclosingClass gs sym)).package ≠ some package.mangledName then some st
    else
      match sym with
      | .classOrModule klass =>
        (gs.classAndModules klass).members.foldlM
          (fun st member =>
            if member.1 = Names.attached then some st
            else recursiveSetIsExported setExportedTo currentExportLineSym currentExportLineLoc fuel member.2 st)
          (visit gs setExportedTo currentExportLineSym currentExportLineLoc st sym)
      | .field field =>
        if (gs.fields field).isStaticField then
          some (visit gs setExportedTo currentExportLineSym currentExportLineLoc st sym)
        else some st
      | _ => some st

-- An owner that the loop goes on from.
def implicitlyExported (st : State) (owner : ClassOrModuleRef) : Bool :=
  owner ≠ noClassOrModule && !st.isExported (.classOrModule owner) && !(gs.classAndModules owner).isBehaviorDefining &&
    (gs.classAndModules owner).package = some package.mangledName

def exportParentNamespace : Nat → ClassOrModuleRef → State → Option State
  | 0,_,_ => none
  | fuel + 1,owner,st =>
    if implicitlyExported gs package st owner then
      exportParentNamespace fuel (gs.classAndModules owner).owner (st.setIsExported (.classOrModule owner) true)
    else some st

def unsetScope (fuel : Nat) (scope : ClassOrModuleRef) (st : State) : Option State :=
  if scope = noClassOrModule then some st
  else recursiveSetIsExported gs package false (.classOrModule scope) .none fuel (.classOrModule scope) st

def unsetAllExportedInPackage (fuel : Nat) (st : State) : Option State :=
  (getScopesForPackage gs package fuel).bind fun (nonTestScope,testScope) =>
    (unsetScope gs package fuel nonTestScope st).bind fun st =>
      (unsetScope gs package fuel testScope st).map fun st => {st with explicitlyExported := fun _ => none}

-- The errors about what may be exported change neither the flags nor the maps.
def postTransformSend (fuel : Nat) (st : State) (send : ExportLine) : Option State :=
  match send.symbol with
  | .classOrModule klass =>
    (recursiveSetIsExported gs package true send.symbol send.loc fuel send.symbol st).bind
      (exportParentNamespace gs package fuel (gs.classAndModules klass).owner)
  | .field field =>
    (recursiveSetIsExported gs package true send.symbol send.loc fuel send.symbol st).bind
      (exportParentNamespace gs package fuel (gs.fields field).owner)
  | _ => some st

-- The pass over one file, which starts with empty maps.
def run (fuel : Nat) (isExported : SymbolRef → Bool) (sends : List ExportLine) : Option State :=
  (unsetAllExportedInPackage gs package fuel ⟨isExported,fun _ => none,fun _ => none⟩).bind fun st =>
    sends.foldlM (postTransformSend gs package fuel) st

end PropagateVisibility

end Packager.Visibility
