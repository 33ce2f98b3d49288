import ScipRuby.Lib.Arrangements
import ScipRuby.Lib.Headings
import ScipRuby.Packager.Declarations

namespace Packager.PackageInfo
variable {Name : Type} [DecidableEq Name]

-- One write to the buffer. The text of a header is without the empty line before it.
inductive Piece (Name : Type) where
  | text (written : Text)
  | header (written : Text)
  | importLine (imp : Import Name) (written : Text)

def Piece.contents : Piece Name → Text
  | .text written => written
  | .header written => '\n' :: written
  | .importLine _ written => written

def layeringViolations : Text := "  # layering violations:\n".toList

def headerMap : StrictDependenciesLevel → List (StrictDependenciesLevel × Text)
  | .None => []
  | .False =>
    [(.False,"  # strict_dependencies 'false':\n".toList),
      (.Layered,"  # strict_dependencies 'layered' or more strict:\n".toList)]
  | .Layered | .LayeredDag =>
    [(.False,"  # strict_dependencies 'false':\n".toList),
      (.Layered,"  # strict_dependencies 'layered' or 'layered_dag':\n".toList),
      (.Dag,"  # strict_dependencies 'dag':\n".toList)]
  | .Dag =>
    [(.False,"  # strict_dependencies 'false', 'layered', or 'layered_dag':\n".toList),
      (.Dag,"  # strict_dependencies 'dag':\n".toList)]

-- The last header up to the strictness of the import, and the headers after it.
def headerToPrint (strictness : StrictDependenciesLevel) :
    List (StrictDependenciesLevel × Text) → Text → Text × List (StrictDependenciesLevel × Text)
  | [],last => (last,[])
  | (level,header) :: headersIt,last =>
    if level ≤ strictness then headerToPrint strictness headersIt header else (last,(level,header) :: headersIt)

structure RenderState where
  layeringViolationsHeaderShown : Bool
  testImportNewLineAdded : Bool
  headersIt : List (StrictDependenciesLevel × Text)

section Render
variable (db : PackageDB Name) (this : PackageInfo Name) (show_ : Name → Text)
variable (newStrictnessByPkg : Name → StrictDependenciesLevel)

def importItem (imp : Import Name) : Option (ImportItem Name) :=
  (db.getPackageInfo imp.mangledName).map fun info => ⟨info,imp.isTestImport,some (newStrictnessByPkg imp.mangledName)⟩

-- ENFORCE excludes imports of packages that do not exist.
def compareImports (a b : Import Name) : Int :=
  match importItem db newStrictnessByPkg a,importItem db newStrictnessByPkg b with
  | some a,some b => this.orderImports db show_ a b
  | _,_ => 0

-- The sort is not stable: which of the arrangements that agree with the comparison it
-- leaves is not known.
structure SortedImports (newImports : List (Import Name)) where
  imports : List (Import Name)
  arranged : Arrangements.Arranged (fun a b => this.compareImports db show_ newStrictnessByPkg a b < 0) newImports imports

def importViolates (imp : Import Name) : Bool :=
  (db.getPackageInfo imp.mangledName).elim false (this.causesLayeringViolationOf db)

def renderHeader (st : RenderState) (imp : Import Name) : List (Piece Name) × RenderState :=
  if db.enforceLayering && decide (imp.type = .Normal) then
    if this.importViolates db imp then
      if st.layeringViolationsHeaderShown then ([],st)
      else ([.header layeringViolations],{st with layeringViolationsHeaderShown := true})
    else
      let (header,headersIt) := headerToPrint (newStrictnessByPkg imp.mangledName) st.headersIt []
      (if header = [] then [] else [.header header],{st with headersIt := headersIt})
  else ([],st)

def renderTestNewLine (st : RenderState) (imp : Import Name) : List (Piece Name) × RenderState :=
  if !st.testImportNewLineAdded && imp.isTestImport then ([.text "\n".toList],{st with testImportNewLineAdded := true})
  else ([],st)

def importText (imp : Import Name) : Text :=
  let impPackageName := show_ imp.mangledName
  match imp.type with
  | .Normal =>
    match this.importsPackage imp.mangledName with
    | some existingImport =>
      if existingImport.usesInternals then "  import ".toList ++ impPackageName ++ ", uses_internals: true\n".toList
      else "  import ".toList ++ impPackageName ++ "\n".toList
    | none => "  import ".toList ++ impPackageName ++ "\n".toList
  | .TestHelper => "  test_import ".toList ++ impPackageName ++ "\n".toList
  | .TestUnit => "  test_import ".toList ++ impPackageName ++ ", only: \"test_rb\"\n".toList

def renderImport (st : RenderState) (imp : Import Name) : List (Piece Name) × RenderState :=
  let (header,st) := this.renderHeader db newStrictnessByPkg st imp
  let (newLine,st) := renderTestNewLine st imp
  (header ++ newLine ++ [.importLine imp (this.importText show_ imp)],st)

def renderImports : RenderState → List (Import Name) → List (Piece Name)
  | _,[] => []
  | st,imp :: newImports =>
    (this.renderImport db show_ newStrictnessByPkg st imp).1 ++
      renderImports (this.renderImport db show_ newStrictnessByPkg st imp).2 newImports

variable (showLayer : NameRef → Text) (decl : Declarations Name)

-- The locations of the layer and of the typed levels are set together with their values.
def renderDeclarations : List (Piece Name) :=
  (if decl.preludePackage then [.text "  prelude!\n\n".toList] else []) ++
  decl.extraDirectives.map (fun directive => .text ("  ".toList ++ directive ++ "\n".toList)) ++
  (if db.enforceLayering then
    this.layer.elim [] (fun layer => [.text ("  layer '".toList ++ showLayer layer ++ "'\n".toList)]) ++
    [.text ("  strict_dependencies '".toList ++ strictDependenciesLevelToString (newStrictnessByPkg this.mangledName) ++ "'\n".toList)]
  else []) ++
  match decl.minTypedLevel,decl.testsMinTypedLevel with
  | some min,some testsMin =>
    [.text ("  sorbet min_typed_level: '".toList ++ min ++ "', tests_min_typed_level: '".toList ++ testsMin ++ "'\n".toList)]
  | some min,none => [.text ("  sorbet min_typed_level: '".toList ++ min ++ "'\n".toList)]
  | none,_ => []

def renderExports (newExports : List Text) : List (Piece Name) :=
  (if this.exportAll || !decl.exports.isEmpty then [.text "\n".toList] else []) ++
  if this.exportAll then [.text "  export_all!\n".toList]
  else (newExports.mergeSort fun l r => decide (l ≤ r)).map fun export_ => .text ("  export ".toList ++ export_ ++ "\n".toList)

def renderVisibleTo : List (Piece Name) :=
  (if !decl.visibleTo.isEmpty || decl.visibleToTests then [.text "\n".toList] else []) ++
  decl.visibleTo.map (fun visibleTo =>
    match visibleTo.type with
    | .Normal => .text ("  visible_to ".toList ++ show_ visibleTo.mangledName ++ "\n".toList)
    | .Wildcard => .text ("  visible_to ".toList ++ show_ visibleTo.mangledName ++ "::*\n".toList)) ++
  if decl.visibleToTests then [.text "  visible_to 'tests'\n".toList] else []

-- The writes of renderPackageRbContents, with the imports as the sort has left them.
def renderPackageRb (newImports : List (Import Name)) (newExports : List Text) : List (Piece Name) :=
  this.renderDeclarations db newStrictnessByPkg showLayer decl ++
  this.renderImports db show_ newStrictnessByPkg ⟨false,false,headerMap (newStrictnessByPkg this.mangledName)⟩ newImports ++
  this.renderExports decl newExports ++
  renderVisibleTo show_ decl

def renderPackageRbContents (newImports : List (Import Name)) (newExports : List Text) : Text :=
  (this.renderPackageRb db show_ newStrictnessByPkg showLayer decl newImports newExports).flatMap Piece.contents

end Render

section Standing

-- The headers that are printed, and each import with the header that it stands under.
def headers : List (Piece Name) → List Text
  | [] => []
  | .header written :: pieces => written :: headers pieces
  | _ :: pieces => headers pieces

def standing : Option Text → List (Piece Name) → List (Import Name × Option Text)
  | _,[] => []
  | under,.text _ :: pieces => standing under pieces
  | _,.header written :: pieces => standing (some written) pieces
  | under,.importLine imp _ :: pieces => (imp,under) :: standing under pieces

end Standing

end Packager.PackageInfo
