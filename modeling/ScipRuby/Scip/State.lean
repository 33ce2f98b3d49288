import Mathlib.Data.List.Sort
import ScipRuby.Scip.SymbolRef

namespace Scip

structure Relationship where
  symbol : Str := []
  isReference : Bool := false
  isImplementation : Bool := false
  isTypeDefinition : Bool := false
  isDefinition : Bool := false
  deriving DecidableEq,Repr

-- std::string::compare.
def compareText : Str → Str → Ordering
  | [],[] => .eq
  | [],_ :: _ => .lt
  | _ :: _,[] => .gt
  | a :: s,b :: t => (compare a.toNat b.toNat).then (compareText s t)

def compareRelationship (r1 r2 : Relationship) : Ordering :=
  ((((compareText r1.symbol r2.symbol).then (compare r1.isReference r2.isReference)).then
    (compare r1.isImplementation r2.isImplementation)).then
    (compare r1.isTypeDefinition r2.isTypeDefinition)).then (compare r1.isDefinition r2.isDefinition)

structure SymbolInformation where
  symbol : Str
  documentation : List Str
  relationships : List Relationship
  deriving DecidableEq,Repr

structure Occurrence where
  symbol : Str
  symbolRoles : Nat
  range : List Nat
  enclosingRange : List Nat := []
  overrideDocumentation : List Str := []
  deriving DecidableEq,Repr

def definitionRole : Nat := 1

inductive Status where
  | ok
  | invalidArgument (message : Str)
  | thrown (what : Str)
  deriving DecidableEq,Repr

def Status.isThrown : Status → Bool
  | .thrown _ => true
  | .ok | .invalidArgument _ => false

def Result.toStatus {α : Type} : Result α → Status
  | .ok _ | .skip => .ok
  | .status message => .invalidArgument message
  | .thrown what => .thrown what

structure FieldQueryResult where
  inherited : SymbolRef
  mixedIn : List SymbolRef
  deriving DecidableEq,Repr

abbrev RelationshipsMap := UntypedGenericSymbolRef → Option FieldQueryResult

inductive Emitted where
  | now
  | earlier
  deriving DecidableEq,Repr

structure OwnedLocal where
  owner : SymbolRef
  counter : Nat
  offsets : LocOffsets
  deriving DecidableEq

-- A signed char widens with its sign before the xor.
def fnv1a32 (text : Str) : UInt32 :=
  text.foldl (fun h c =>
    let byte := c.toNat % 256
    (h ^^^ UInt32.ofNat (if byte < 128 then byte else byte + 4294967040)) * 16777619) 2166136261

def OwnedLocal.toSCIPString (gs : GlobalState) (occ : OwnedLocal) : Str :=
  "local ".toList ++ (Nat.repr occ.counter).toList ++ ['$'] ++
    (Nat.repr (fnv1a32 (gs.showFullName occ.owner)).toNat).toList

-- The hash maps are functions and the hash sets lists; where a set is walked,
-- the order is an argument of its own.
structure SCIPState where
  symbolStringCache : UntypedGenericSymbolRef → Option Str
  localOccurrenceCache : LocOffsets × Nat → List Nat
  symbolOccurrenceCache : List (UntypedGenericSymbolRef × Loc × Nat)
  potentialRefOnlySymbols : FileRef → List UntypedGenericSymbolRef
  gemMap : GemMapping
  occurrenceMap : FileRef → List Occurrence
  emittedSymbols : List (FileRef × Str)
  symbolMap : FileRef → List SymbolInformation
  relationshipsMap : FileRef → RelationshipsMap

def SCIPState.initial (gemMap : GemMapping) : SCIPState where
  symbolStringCache := fun _ => none
  localOccurrenceCache := fun _ => []
  symbolOccurrenceCache := []
  potentialRefOnlySymbols := fun _ => []
  gemMap := gemMap
  occurrenceMap := fun _ => []
  emittedSymbols := []
  symbolMap := fun _ => []
  relationshipsMap := fun _ _ => none

-- A new state whose relationships AliasMap has already entered.
def SCIPState.related (gemMap : GemMapping) (relationships : FileRef → RelationshipsMap) : SCIPState :=
  { SCIPState.initial gemMap with relationshipsMap := relationships }

def append {α β : Type} [DecidableEq α] (map : α → List β) (key : α) (value : β) : α → List β :=
  Function.update map key (map key ++ [value])

namespace SCIPState

def clearFunctionLocalCaches (state : SCIPState) : SCIPState := { state with localOccurrenceCache := fun _ => [] }

-- The last component is what the call leaves in its output argument, to which
-- the emitter appends.
def saveSymbolString (gs : GlobalState) (state : SCIPState) (symRef : UntypedGenericSymbolRef)
    (symbol : Option Symbol) (output : Str) : SCIPState × Result Unit × Str :=
  match state.symbolStringCache symRef with
  | some cached => (state,.ok (),cached)
  | none =>
    let computed : Result Symbol := match symbol with
      | some symbol => .ok symbol
      | none => symRef.symbolForExpr gs state.gemMap none
    match computed with
    | .skip => (state,.skip,output)
    | .status message => (state,.status message,output)
    | .thrown what => (state,.thrown what,output)
    | .ok symbol =>
      match emitSymbolString symbol output with
      -- The emitter can only fail here for want of descriptors, after the package.
      | .error message => (state,.status message,emitPackageString symbol.package (output ++ "scip-ruby gem ".toList))
      | .ok text =>
        ({ state with symbolStringCache := Function.update state.symbolStringCache symRef (some text) },.ok (),text)

def alreadyEmittedSymbolInfo (state : SCIPState) (file : FileRef) (symbolString : Str) : Bool :=
  (file,symbolString) ∈ state.emittedSymbols

def saveSymbolInfo (gs : GlobalState) (state : SCIPState) (file : FileRef) (symbolString : Str) (docs : List Str)
    (rels : List Relationship) : SCIPState × Emitted :=
  if state.alreadyEmittedSymbolInfo file symbolString then (state,.earlier)
  else
    let symbolInfo : SymbolInformation := ⟨symbolString,docs.map gs.escapeInvalidUtf8,rels⟩
    ({ state with symbolMap := append state.symbolMap file symbolInfo },.now)

def saveDefinitionImpl (gs : GlobalState) (state : SCIPState) (file : FileRef) (symbolString : Str) (occLoc : Loc)
    (docs : List Str) (rels : List Relationship) (enclosingLoc : Option Loc) : SCIPState × Status :=
  if !occLoc.usable then (state,.ok)
  else match occurrenceRange gs.files occLoc with
    | none => (state,.ok)
    | some range =>
      let (state,emitted) := state.saveSymbolInfo gs file symbolString docs rels
      let enclosingRange := match enclosingLoc with
        | some loc => if loc.empty then [] else fromSorbetLoc gs.files loc
        | none => []
      let overrideDocumentation := match emitted with
        | .now => []
        | .earlier => docs.map gs.escapeInvalidUtf8
      let occurrence : Occurrence := ⟨symbolString,definitionRole,range,enclosingRange,overrideDocumentation⟩
      ({ state with occurrenceMap := append state.occurrenceMap file occurrence },.ok)

def saveReferenceImpl (gs : GlobalState) (state : SCIPState) (file : FileRef) (symbolString : Str)
    (overrideDocs : List Str) (occLocOffsets : LocOffsets) (symbolRoles : Nat) : SCIPState :=
  match occurrenceRange gs.files ⟨file,occLocOffsets⟩ with
  | none => state
  | some range =>
    let occurrence : Occurrence :=
      { symbol := symbolString,symbolRoles := symbolRoles,range := range
        overrideDocumentation := overrideDocs.map gs.escapeInvalidUtf8 }
    { state with occurrenceMap := append state.occurrenceMap file occurrence }

-- cacheOccurrence for locals; true on a hit.
def cacheLocalOccurrence (state : SCIPState) (occ : OwnedLocal) (symbolRoles : Nat) : SCIPState × Bool :=
  if occ.counter ∈ state.localOccurrenceCache (occ.offsets,symbolRoles) then (state,true)
  else ({ state with
    localOccurrenceCache := append state.localOccurrenceCache (occ.offsets,symbolRoles) occ.counter },false)

-- cacheOccurrence for symbols; true on a hit. The key holds the untrimmed location.
def cacheSymbolOccurrence (state : SCIPState) (loc : Loc) (sym : GenericSymbolRef) (symbolRoles : Nat) :
    SCIPState × Bool :=
  let key := (⟨sym.selfOrOwner,sym.name⟩,loc,symbolRoles)
  if key ∈ state.symbolOccurrenceCache then (state,true)
  else ({ state with symbolOccurrenceCache := key :: state.symbolOccurrenceCache },false)

-- The lambda saveSymbol of saveParentRelationships, over one class.
def saveRelationship (gs : GlobalState) (name : NameRef) (acc : SCIPState × List Relationship)
    (target : SymbolRef × Relationship) : SCIPState × List Relationship :=
  match acc.1.saveSymbolString gs ⟨target.1,name⟩ none target.2.symbol with
  | (state,.ok _,text) => (state,acc.2 ++ [{ target.2 with symbol := text }])
  | (state,_,_) => (state,acc.2)

def parentTargets (symRef : UntypedGenericSymbolRef) (result : FieldQueryResult) : List (SymbolRef × Relationship) :=
  (if result.inherited ≠ symRef.selfOrOwner then [(result.inherited,{ isDefinition := true })] else []) ++
    result.mixedIn.map (fun mixin => (mixin,{ isReference := true }))

def saveParentRelationships (gs : GlobalState) (state : SCIPState) (file : FileRef)
    (symRef : UntypedGenericSymbolRef) : SCIPState × List Relationship :=
  match state.relationshipsMap file symRef with
  | none => (state,[])
  | some result =>
    let (state,rels) := (parentTargets symRef result).foldl (saveRelationship gs symRef.name) (state,[])
    (state,rels.insertionSort (fun r1 r2 => compareRelationship r1 r2 ≠ .gt))

def saveAliasRelationship (gs : GlobalState) (state : SCIPState) (aliasedSymbol : UntypedGenericSymbolRef)
    (rels : List Relationship) : SCIPState × List Relationship :=
  match state.saveSymbolString gs aliasedSymbol none [] with
  | (state,.ok _,text) => (state,rels ++ [{ isReference := true,symbol := text }])
  | (state,_,_) => (state,rels)

def lookupThrown (gs : GlobalState) (state : SCIPState) (symRef : UntypedGenericSymbolRef) : Option Str :=
  match state.saveSymbolString gs symRef none [] with
  | (_,.thrown what,_) => some what
  | _ => none

-- The exception in which the lookups of relationships end. What the functions above do
-- with the lookups after it is not seen, since the process has ended.
def relationshipsThrown (gs : GlobalState) : SCIPState → List UntypedGenericSymbolRef → Option Str
  | _,[] => none
  | state,symRef :: rest =>
    (state.lookupThrown gs symRef).or (relationshipsThrown gs (state.saveSymbolString gs symRef none []).1 rest)

end SCIPState

-- The symbols that a definition's relationships name.
def parentsOf (relationships : RelationshipsMap) (symRef : UntypedGenericSymbolRef) : List UntypedGenericSymbolRef :=
  match relationships symRef with
  | none => []
  | some result => (SCIPState.parentTargets symRef result).map (fun target => ⟨target.1,symRef.name⟩)

-- The arguments of the four saves.
structure LocalDefinition where
  file : FileRef
  occ : OwnedLocal
  type : Option TypePtr
  enclosingLoc : Option Loc

structure LocalReference where
  file : FileRef
  occ : OwnedLocal
  overrideType : Option TypePtr
  symbolRoles : Nat

structure Definition where
  file : FileRef
  symRef : GenericSymbolRef
  aliasedSymbol : Option UntypedGenericSymbolRef
  loc : Option LocOffsets
  enclosingLoc : Option Loc
  deriving DecidableEq

-- The owner is that of the context in which the reference stands.
structure Reference where
  owner : SymbolRef
  file : FileRef
  symRef : GenericSymbolRef
  overrideType : Option TypePtr
  occLoc : LocOffsets
  symbolRoles : Nat
  deriving DecidableEq

def Definition.names (relationships : FileRef → RelationshipsMap) (d : Definition) : List UntypedGenericSymbolRef :=
  parentsOf (relationships d.file) d.symRef.withoutType ++ d.aliasedSymbol.toList

def Definition.occLoc (gs : GlobalState) (d : Definition) : Loc :=
  match d.loc with
  | some loc => ⟨d.file,loc⟩
  | none => d.symRef.symbolLoc gs

def Reference.loc (r : Reference) : Loc := ⟨r.file,r.occLoc⟩

-- Noise of <static-init> that is left out of the index.
def Reference.hidden (gs : GlobalState) (r : Reference) : Bool :=
  gs.name r.owner == gs.staticInit && r.symRef.isSorbetInternalClassOrMethod gs

def localDocs (gs : GlobalState) (file : FileRef) (occ : OwnedLocal) (type : Option TypePtr) : List Str :=
  match type with
  | none => []
  | some type =>
    let var := ((Loc.mk file occ.offsets).source gs.files).getD []
    [GenericSymbolRef.rubyBlock (var ++ " (".toList ++ type.shown ++ ")".toList)]

namespace SCIPState

-- saveDefinition for a local variable.
def saveLocalDefinition (gs : GlobalState) (state : SCIPState) (d : LocalDefinition) : SCIPState × Status :=
  match state.cacheLocalOccurrence d.occ definitionRole with
  | (state,true) => (state,.ok)
  | (state,false) =>
    state.saveDefinitionImpl gs d.file (d.occ.toSCIPString gs) ⟨d.file,d.occ.offsets⟩
      (localDocs gs d.file d.occ d.type) [] d.enclosingLoc

-- saveReference for a local variable.
def saveLocalReference (gs : GlobalState) (state : SCIPState) (r : LocalReference) : SCIPState × Status :=
  match state.cacheLocalOccurrence r.occ r.symbolRoles with
  | (state,true) => (state,.ok)
  | (state,false) =>
    (state.saveReferenceImpl gs r.file (r.occ.toSCIPString gs) (localDocs gs r.file r.occ r.overrideType)
      r.occ.offsets r.symbolRoles,.ok)

-- The part of saveDefinition after the symbol string is known.
def recordDefinition (gs : GlobalState) (state : SCIPState) (d : Definition) (symbolString : Str) :
    SCIPState × Status :=
  let docs := d.symRef.saveDocStrings gs d.symRef.definitionType (d.occLoc gs)
  let thrown := relationshipsThrown gs state (d.names state.relationshipsMap)
  let (state,rels) := state.saveParentRelationships gs d.file d.symRef.withoutType
  let (state,rels) := match d.aliasedSymbol with
    | some aliased => state.saveAliasRelationship gs aliased rels
    | none => (state,rels)
  let (state,status) := state.saveDefinitionImpl gs d.file symbolString (d.occLoc gs) docs rels d.enclosingLoc
  (state,(thrown.map Status.thrown).getD status)

def saveDefinition (gs : GlobalState) (state : SCIPState) (d : Definition) : SCIPState × Status :=
  if !(d.occLoc gs).usable then (state,.ok)
  else match d.symRef.withoutType.symbolForExpr gs state.gemMap (some (d.occLoc gs)) with
    | .skip => (state,.ok)
    | .status message => (state,.invalidArgument message)
    | .thrown what => (state,.thrown what)
    | .ok symbol =>
      match state.saveSymbolString gs d.symRef.withoutType (some symbol) [] with
      | (state,.ok _,symbolString) => state.recordDefinition gs d symbolString
      | (state,other,_) => (state,other.toStatus)

-- The part of saveReference after the symbol string is known.
def recordReference (gs : GlobalState) (state : SCIPState) (r : Reference) (symbolString : Str) : SCIPState :=
  let overrideDocs := match r.symRef.kind with
    | .type | .classOrModule | .method => []
    | .parameter | .field =>
      match r.overrideType with
      | some type => r.symRef.saveDocStrings gs (some type) r.loc
      | none => []
  let untyped := r.symRef.withoutType
  let state :=
    if !state.alreadyEmittedSymbolInfo r.file symbolString && (state.relationshipsMap r.file untyped).isSome &&
        untyped ∉ state.potentialRefOnlySymbols r.file then
      { state with potentialRefOnlySymbols := append state.potentialRefOnlySymbols r.file untyped }
    else state
  state.saveReferenceImpl gs r.file symbolString overrideDocs r.occLoc r.symbolRoles

def saveReference (gs : GlobalState) (state : SCIPState) (r : Reference) : SCIPState × Status :=
  if r.hidden gs then (state,.ok)
  else match state.cacheSymbolOccurrence r.loc r.symRef r.symbolRoles with
    | (state,true) => (state,.ok)
    | (state,false) =>
      match state.saveSymbolString gs r.symRef.withoutType none [] with
      | (state,.ok _,symbolString) => (state.recordReference gs r symbolString,.ok)
      | (state,other,_) => (state,other.toStatus)

-- One turn of the loop of finalizeRefOnlySymbolInfos. The string is declared
-- outside the loop, so each turn starts from what the last one left in it.
def finalizeSymbol (gs : GlobalState) (file : FileRef) (acc : SCIPState × Str) (symRef : UntypedGenericSymbolRef) :
    SCIPState × Str :=
  match acc.1.saveSymbolString gs symRef none acc.2 with
  | (state,.ok _,symbolString) =>
    if state.alreadyEmittedSymbolInfo file symbolString then (state,symbolString)
    else
      let (state,rels) := state.saveParentRelationships gs file symRef
      ((state.saveSymbolInfo gs file symbolString [] rels).1,symbolString)
  | (state,_,symbolString) => (state,symbolString)

end SCIPState

-- The order in which a walk over a hash set meets its elements.
structure HashOrder where
  visit : List UntypedGenericSymbolRef → List UntypedGenericSymbolRef
  complete : ∀ members, (visit members).Perm members

namespace SCIPState

def finalizeRefOnlySymbolInfos (gs : GlobalState) (state : SCIPState) (file : FileRef) (order : HashOrder) : SCIPState :=
  ((order.visit (state.potentialRefOnlySymbols file)).foldl (finalizeSymbol gs file) (state,[])).1

-- AliasMap::populate enters a field of the file unless it is there already.
def enterRelationships (state : SCIPState) (file : FileRef) (symRef : UntypedGenericSymbolRef)
    (result : FieldQueryResult) : SCIPState :=
  if (state.relationshipsMap file symRef).isSome then state
  else
    let entered := Function.update (state.relationshipsMap file) symRef (some result)
    { state with relationshipsMap := Function.update state.relationshipsMap file entered }

end SCIPState

end Scip
