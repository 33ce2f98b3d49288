import ScipRuby.Scip.Location

namespace Scip

-- Index 0 is noName.
abbrev NameRef := Nat

def NameRef.noName : NameRef := 0
def NameRef.exists (name : NameRef) : Bool := name != 0

inductive SymbolKind where
  | classOrModule
  | method
  | fieldOrStaticField
  | typeParameter
  | typeMember
  deriving DecidableEq,Repr

structure SymbolRef where
  kind : SymbolKind
  id : Nat
  deriving DecidableEq,Repr

def SymbolRef.exists (sym : SymbolRef) : Bool := sym.id != 0
def SymbolRef.isMethod (sym : SymbolRef) : Bool := sym.kind == .method
def SymbolRef.isClassOrModule (sym : SymbolRef) : Bool := sym.kind == .classOrModule
def SymbolRef.isTypeParameter (sym : SymbolRef) : Bool := sym.kind == .typeParameter

namespace Symbols
def root : SymbolRef := ⟨.classOrModule,3⟩
def Object : SymbolRef := ⟨.classOrModule,6⟩
def T : SymbolRef := ⟨.classOrModule,17⟩
def SorbetPrivate : SymbolRef := ⟨.classOrModule,40⟩
end Symbols

-- The indexer only prints types; a TypePtr is the text that show gives for it.
structure TypePtr where
  shown : Str
  deriving DecidableEq,Repr

-- What the indexer reads of core::GlobalState. The last two fields say that
-- every chain of owners ends in the root, after depth steps.
structure GlobalState where
  files : Files
  shortName : NameRef → Str
  showName : NameRef → Str
  showAsSymbolLiteral : NameRef → Str
  staticInit : NameRef
  name : SymbolRef → NameRef
  owner : SymbolRef → SymbolRef
  loc : SymbolRef → Loc
  nameLoc : SymbolRef → Loc
  parameters : SymbolRef → List (NameRef × Loc)
  superClass : SymbolRef → SymbolRef
  isClass : SymbolRef → Bool
  isSingletonClass : SymbolRef → Bool
  isTypeAlias : SymbolRef → Bool
  resultType : SymbolRef → TypePtr
  singletonOfT : SymbolRef
  show' : SymbolRef → Str
  showFullName : SymbolRef → Str
  prettyTypeForMethod : SymbolRef → Str
  findDocumentation : Str → Nat → Option Str
  escapeInvalidUtf8 : Str → Str
  depth : SymbolRef → Nat
  owned : ∀ sym, sym ≠ Symbols.root → depth sym = depth (owner sym) + 1

structure GemMetadata where
  name : Str
  version : Str
  deriving DecidableEq,Repr

def splitAt (separator : Char) : Str → List Str
  | [] => [[]]
  | c :: rest =>
    if c = separator then [] :: splitAt separator rest
    else match splitAt separator rest with
      | [] => [[c]]
      | first :: others => (c :: first) :: others

def GemMetadata.tryParse (nameAndVersion : Str) : Option GemMetadata :=
  match splitAt '@' nameAndVersion with
  | [name,version] => if name = [] ∨ version = [] then none else some ⟨name,version⟩
  | _ => none

def stdlibGem : GemMetadata := ⟨"ruby".toList,"latest".toList⟩
def globalPlaceholderGem : GemMetadata := ⟨"_global_".toList,"latest".toList⟩

structure GemMapping where
  currentGem : Option GemMetadata
  map : FileRef → Option GemMetadata

def strContains (text needle : Str) : Bool := (rfind needle text).isSome

def urlPrefix : Str := "https://github.com/sorbet/sorbet/tree/master/".toList

-- The error is the bad_optional_access of metadata.value(), which ends the process.
def tryParseFilepath (filepath : Str) : Except Str (Option GemMetadata) :=
  let filename := match rfind ['/'] filepath with
    | some slash => filepath.drop (slash + 1)
    | none => filepath
  match rfind ['.'] filename with
  | none => .ok none
  | some dotIndex =>
    let basename := filename.take dotIndex
    if '@' ∈ basename then
      match GemMetadata.tryParse basename with
      | some metadata => .ok (some metadata)
      | none => .error "bad_optional_access".toList
    else .ok (some ⟨basename,"latest".toList⟩)

def GemMapping.lookupGemForFile (gemMap : GemMapping) (gs : GlobalState) (file : FileRef) :
    Except Str (Option GemMetadata) :=
  match gemMap.map file with
  | some gem => .ok (some gem)
  | none =>
    let filepath := (gs.files file).path
    if urlPrefix.isPrefixOf filepath then .ok (some stdlibGem)
    else if strContains filepath "sorbet/rbi/".toList &&
        (strContains filepath "sorbet/rbi/gems/".toList || strContains filepath "sorbet/rbi/annotations/".toList ||
          strContains filepath "sorbet/rbi/dsl/".toList) then
      match tryParseFilepath filepath with
      | .error message => .error message
      | .ok (some metadata) => .ok (some metadata)
      | .ok none => .ok gemMap.currentGem
    else .ok gemMap.currentGem

-- utils::Result, with the value that a success leaves in the output argument, or the
-- exception that leaves the function instead. Nothing catches it: it ends the process.
inductive Result (α : Type) where
  | ok (value : α)
  | skip
  | status (message : Str)
  | thrown (what : Str)
  deriving DecidableEq,Repr

structure UntypedGenericSymbolRef where
  selfOrOwner : SymbolRef
  name : NameRef
  deriving DecidableEq,Repr

def isGlobal (gs : GlobalState) (name : NameRef) : Bool :=
  name.exists && (gs.shortName name).head? == some '$'

def SymbolKind.suffix : SymbolKind → Suffix
  | .method => .methodSuffix
  | .classOrModule => .typeSuffix
  | .typeParameter => .typeParameterSuffix
  | .fieldOrStaticField => .termSuffix
  | .typeMember => .typeSuffix

def ownDescriptor (gs : GlobalState) (sym : SymbolRef) : Descriptor :=
  { name := gs.showName (gs.name sym),suffix := sym.kind.suffix }

-- The loop over owners, which the depth of the symbol bounds; innermost first.
def ownerDescriptors (gs : GlobalState) : Nat → SymbolRef → List Descriptor
  | 0,_ => []
  | fuel + 1,cur => if cur = Symbols.root then [] else ownDescriptor gs cur :: ownerDescriptors gs fuel (gs.owner cur)

-- The gem a symbol is filed under: that of the given location, else that of the
-- place where the symbol table has it.
def UntypedGenericSymbolRef.owningGem (gs : GlobalState) (gemMap : GemMapping) (loc : Option Loc)
    (symRef : UntypedGenericSymbolRef) : Result GemMetadata :=
  if isGlobal gs symRef.name then .ok globalPlaceholderGem
  else
    let owningFile := match loc with
      | some loc => loc.file
      | none => (gs.loc symRef.selfOrOwner).file
    if !owningFile.exists then .skip
    else match gemMap.lookupGemForFile gs owningFile with
      | .error what => .thrown what
      | .ok none => .skip
      | .ok (some metadata) => .ok metadata

def UntypedGenericSymbolRef.descriptors (gs : GlobalState) (symRef : UntypedGenericSymbolRef) : List Descriptor :=
  (ownerDescriptors gs (gs.depth symRef.selfOrOwner) symRef.selfOrOwner).reverse ++
    if symRef.name ≠ NameRef.noName then
      [{ name := gs.shortName symRef.name,
         suffix := if symRef.selfOrOwner.isMethod then .parameterSuffix else .termSuffix }]
    else []

def UntypedGenericSymbolRef.symbolForExpr (gs : GlobalState) (gemMap : GemMapping) (loc : Option Loc)
    (symRef : UntypedGenericSymbolRef) : Result Symbol :=
  match symRef.owningGem gs gemMap loc with
  | .ok metadata => .ok ⟨some ⟨metadata.name,metadata.version⟩,symRef.descriptors gs⟩
  | .skip => .skip
  | .status message => .status message
  | .thrown what => .thrown what

inductive GenericSymbolKind where
  | classOrModule
  | field
  | method
  | parameter
  | type
  deriving DecidableEq,Repr

structure GenericSymbolRef where
  selfOrOwner : SymbolRef
  name : NameRef
  definitionType : Option TypePtr
  deriving DecidableEq,Repr

namespace GenericSymbolRef

def kind (symRef : GenericSymbolRef) : GenericSymbolKind :=
  if symRef.name.exists then (if symRef.selfOrOwner.isMethod then .parameter else .field)
  else if symRef.selfOrOwner.isMethod then .method
  else if !symRef.selfOrOwner.isClassOrModule then .type
  else .classOrModule

def withoutType (symRef : GenericSymbolRef) : UntypedGenericSymbolRef :=
  match symRef.kind with
  | .parameter => ⟨symRef.selfOrOwner,symRef.name⟩
  | .field => ⟨symRef.selfOrOwner,symRef.name⟩
  | .type | .method | .classOrModule => ⟨symRef.selfOrOwner,NameRef.noName⟩

-- The equality that hash sets of these use leaves the type out, and so does withoutType.
theorem withoutType_eq (symRef : GenericSymbolRef) : symRef.withoutType = ⟨symRef.selfOrOwner,symRef.name⟩ := by
  unfold withoutType kind
  by_cases named : symRef.name.exists
  · cases symRef.selfOrOwner.isMethod <;> simp [named]
  · have unnamed : symRef.name = NameRef.noName := by simpa [NameRef.exists,NameRef.noName] using named
    rw [if_neg named,unnamed]
    cases symRef.selfOrOwner.isMethod <;> cases symRef.selfOrOwner.isClassOrModule <;> rfl

def isInternalClass (gs : GlobalState) (sym : SymbolRef) : Bool :=
  sym.isClassOrModule && (sym == Symbols.SorbetPrivate || sym == Symbols.T || sym == gs.singletonOfT)

-- The visited set only serves to stop at the root, which owns itself.
def isSorbetInternal (gs : GlobalState) : Nat → SymbolRef → Bool
  | 0,sym => sym.exists && isInternalClass gs sym
  | fuel + 1,sym =>
    sym.exists && (isInternalClass gs sym || (sym ≠ Symbols.root && isSorbetInternal gs fuel (gs.owner sym)))

def isSorbetInternalClassOrMethod (gs : GlobalState) (symRef : GenericSymbolRef) : Bool :=
  match symRef.kind with
  | .field | .parameter => false
  | .type | .classOrModule | .method => isSorbetInternal gs (gs.depth symRef.selfOrOwner) symRef.selfOrOwner

-- absl::StrReplaceAll for patterns that start with different characters; the
-- counter passes over the rest of a match.
def strReplaceAll (rules : List (Str × Str)) : Nat → Str → Str
  | _,[] => []
  | skip + 1,_ :: rest => strReplaceAll rules skip rest
  | 0,c :: rest =>
    match rules.find? (fun rule => rule.1.isPrefixOf (c :: rest)) with
    | some (old,new) => new ++ strReplaceAll rules (old.length - 1) rest
    | none => c :: strReplaceAll rules 0 rest

def markdown (gs : GlobalState) (fieldType : Option TypePtr) (symRef : GenericSymbolRef) : Str :=
  let sym := symRef.selfOrOwner
  let shownName := gs.showName (gs.name sym)
  match symRef.kind with
  | .parameter | .field =>
    gs.showName symRef.name ++ " (".toList ++ (fieldType.map TypePtr.shown).getD [] ++ ")".toList
  | .type =>
    if gs.isTypeAlias sym then
      shownName ++ " = T.type_alias \x7b ".toList ++ (gs.resultType sym).shown ++ " \x7d".toList
    else if sym.isTypeParameter then "T.type_parameter(".toList ++ gs.showAsSymbolLiteral (gs.name sym) ++ ")".toList
    else shownName ++ " = ".toList ++
      (if gs.isSingletonClass (gs.owner sym) then "type_template".toList else "type_member".toList)
  | .classOrModule =>
    if gs.isClass sym then
      let super := gs.superClass sym
      if super.exists && super ≠ Symbols.Object then "class ".toList ++ gs.show' sym ++ " < ".toList ++ gs.show' super
      else "class ".toList ++ gs.show' sym
    else "module ".toList ++ gs.show' sym
  | .method =>
    strReplaceAll [("private def".toList,"def".toList),("; end".toList,[])] 0 (gs.prettyTypeForMethod sym)

def rubyBlock (text : Str) : Str := "```ruby\n".toList ++ text ++ "\n```".toList

def saveDocStrings (gs : GlobalState) (fieldType : Option TypePtr) (loc : Loc) (symRef : GenericSymbolRef) : List Str :=
  let text := symRef.markdown gs fieldType
  let block := if text ≠ [] then [rubyBlock text] else []
  if symRef.kind = .parameter ∨ !loc.file.exists then block
  else match gs.findDocumentation (gs.files loc.file).source loc.offsets.beginLoc with
    | some doc => block ++ [doc]
    | none => block

def symbolLoc (gs : GlobalState) (symRef : GenericSymbolRef) : Loc :=
  match symRef.kind with
  | .parameter =>
    match (gs.parameters symRef.selfOrOwner).find? (fun param => param.1 == symRef.name) with
    | some param => param.2
    | none => Loc.none
  | .method =>
    let nameLoc := gs.nameLoc symRef.selfOrOwner
    if !nameLoc.exists || nameLoc.empty then gs.loc symRef.selfOrOwner else nameLoc
  | .type | .classOrModule => gs.loc symRef.selfOrOwner
  | .field => Loc.none

end GenericSymbolRef

end Scip
