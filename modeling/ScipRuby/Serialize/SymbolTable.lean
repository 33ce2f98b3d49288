import Mathlib.Data.Nat.Bitwise
import ScipRuby.Serialize.TypePickle

namespace Serialize

section Bits

-- Bit fields take the bits from the lowest on.
def packBits : List Bool → Nat
  | [] => 0
  | b :: bits => Nat.bit b (packBits bits)

def boolByte (b : Bool) : UInt8 := if b then 1 else 0
def byteBool (byte : UInt8) : Bool := byte != 0

end Bits

section Locations

structure LocOffsets where
  beginLoc : UInt32
  endLoc : UInt32
  deriving DecidableEq,Repr

structure Loc where
  file : UInt32
  offsets : LocOffsets
  deriving DecidableEq,Repr

def pickleLocOffsets (loc : LocOffsets) : List Put := [.u4 loc.beginLoc,.u4 (loc.endLoc - loc.beginLoc)]

def unpickleLocOffsets : Reader LocOffsets := do
  let start ← .u4
  let length ← .u4
  pure ⟨start,start + length⟩

def pickleLoc (loc : Loc) : List Put := .u4 loc.file :: pickleLocOffsets loc.offsets

def unpickleLoc : Reader Loc := do
  let file ← .u4
  let offsets ← unpickleLocOffsets
  pure ⟨file,offsets⟩

def pickleLocs (locs : List Loc) : List Put := size locs :: locs.flatMap pickleLoc

-- A loop of an int up to an unsigned bound, which must be an int.
def unpickleLocs : Reader (List Loc) := do
  let locCount ← .int
  unpickleLoc.times locCount

-- References to symbols and names in a list.
def pickleRefs (refs : List UInt32) : List Put := size refs :: refs.map .u4

end Locations

section Files

structure SymbolHash where
  nameHash : UInt32
  symbolHash : UInt32
  deriving DecidableEq,Repr

structure LocalSymbolTableHashes where
  hierarchyHash : UInt32
  classModuleHash : UInt32
  typeMemberHash : UInt32
  fieldHash : UInt32
  staticFieldHash : UInt32
  classAliasHash : UInt32
  methodHash : UInt32
  retypecheckableSymbolHashes : List SymbolHash
  deriving DecidableEq,Repr

structure FoundStaticFieldHash where
  ownerIdx : BitVec 28
  ownerIsSymbol : Bool
  nameHash : UInt32
  deriving DecidableEq,Repr

structure FoundTypeMemberHash where
  ownerIdx : BitVec 28
  ownerIsSymbol : Bool
  isTypeTemplate : Bool
  nameHash : UInt32
  deriving DecidableEq,Repr

structure FoundMethodHash where
  ownerIdx : BitVec 28
  ownerIsSymbol : Bool
  useSingletonClass : Bool
  nameHash : UInt32
  arityHash : UInt32
  deriving DecidableEq,Repr

structure FoundFieldHash where
  ownerIdx : BitVec 28
  ownerIsSymbol : Bool
  onSingletonClass : Bool
  isInstanceVariable : Bool
  fromWithinMethod : Bool
  nameHash : UInt32
  deriving DecidableEq,Repr

structure FoundDefHashes where
  staticFieldHashes : List FoundStaticFieldHash
  typeMemberHashes : List FoundTypeMemberHash
  methodHashes : List FoundMethodHash
  fieldHashes : List FoundFieldHash
  deriving DecidableEq,Repr

structure FileHash where
  localSymbolTableHashes : LocalSymbolTableHashes
  nameHashes : List UInt32
  foundHashes : FoundDefHashes
  deriving DecidableEq,Repr

def ownerOps (ownerIdx : BitVec 28) (ownerIsSymbol : Bool) : List Put :=
  [.u4 (UInt32.ofNat ownerIdx.toNat),.u1 (boolByte ownerIsSymbol)]

def pickleSymbolHash (h : SymbolHash) : List Put := [.u4 h.nameHash,.u4 h.symbolHash]
def pickleStaticField (h : FoundStaticFieldHash) : List Put := ownerOps h.ownerIdx h.ownerIsSymbol ++ [.u4 h.nameHash]
def pickleTypeMember (h : FoundTypeMemberHash) : List Put :=
  ownerOps h.ownerIdx h.ownerIsSymbol ++ [.u1 (boolByte h.isTypeTemplate),.u4 h.nameHash]
def pickleFoundMethod (h : FoundMethodHash) : List Put :=
  ownerOps h.ownerIdx h.ownerIsSymbol ++ [.u1 (boolByte h.useSingletonClass),.u4 h.nameHash,.u4 h.arityHash]
def pickleFoundField (h : FoundFieldHash) : List Put :=
  ownerOps h.ownerIdx h.ownerIsSymbol ++
    [.u1 (boolByte h.onSingletonClass),.u1 (boolByte h.isInstanceVariable),.u1 (boolByte h.fromWithinMethod),.u4 h.nameHash]

def pickleFileHash : Option FileHash → List Put
  | none => [.u1 0]
  | some fh =>
    let hashes := fh.localSymbolTableHashes
    let found := fh.foundHashes
    .u1 1 :: .u4 hashes.hierarchyHash :: .u4 hashes.classModuleHash :: .u4 hashes.typeMemberHash :: .u4 hashes.fieldHash ::
      .u4 hashes.staticFieldHash :: .u4 hashes.classAliasHash :: .u4 hashes.methodHash ::
      size hashes.retypecheckableSymbolHashes :: (hashes.retypecheckableSymbolHashes.flatMap pickleSymbolHash ++
      (size fh.nameHashes :: (fh.nameHashes.flatMap (fun h => [.u4 h]) ++
      (size found.staticFieldHashes :: (found.staticFieldHashes.flatMap pickleStaticField ++
      (size found.typeMemberHashes :: (found.typeMemberHashes.flatMap pickleTypeMember ++
      (size found.methodHashes :: (found.methodHashes.flatMap pickleFoundMethod ++
      (size found.fieldHashes :: found.fieldHashes.flatMap pickleFoundField))))))))))

def unpickleSymbolHash : Reader SymbolHash := do
  let key ← .u4
  let value ← .u4
  pure ⟨key,value⟩

def unpickleStaticField : Reader FoundStaticFieldHash := do
  let ownerIdx ← .u4
  let ownerIsSymbol ← .u1
  let fullNameHash ← .u4
  pure ⟨BitVec.ofNat 28 ownerIdx.toNat,byteBool ownerIsSymbol,fullNameHash⟩

def unpickleTypeMember : Reader FoundTypeMemberHash := do
  let ownerIdx ← .u4
  let ownerIsSymbol ← .u1
  let isTypeTemplate ← .u1
  let fullNameHash ← .u4
  pure ⟨BitVec.ofNat 28 ownerIdx.toNat,byteBool ownerIsSymbol,byteBool isTypeTemplate,fullNameHash⟩

def unpickleFoundMethod : Reader FoundMethodHash := do
  let ownerIdx ← .u4
  let ownerIsSymbol ← .u1
  let useSingletonClass ← .u1
  let fullNameHash ← .u4
  let arityHash ← .u4
  pure ⟨BitVec.ofNat 28 ownerIdx.toNat,byteBool ownerIsSymbol,byteBool useSingletonClass,fullNameHash,arityHash⟩

def unpickleFoundField : Reader FoundFieldHash := do
  let ownerIdx ← .u4
  let ownerIsSymbol ← .u1
  let onSingletonClass ← .u1
  let isInstanceVariable ← .u1
  let fromWithinMethod ← .u1
  let fullNameHash ← .u4
  pure ⟨BitVec.ofNat 28 ownerIdx.toNat,byteBool ownerIsSymbol,byteBool onSingletonClass,byteBool isInstanceVariable,
    byteBool fromWithinMethod,fullNameHash⟩

def unpickleFileHash : Reader (Option FileHash) := do
  let hadIt ← .u1
  if hadIt = 0 then pure none else do
  let hierarchyHash ← .u4
  let classModuleHash ← .u4
  let typeMemberHash ← .u4
  let fieldHash ← .u4
  let staticFieldHash ← .u4
  let classAliasHash ← .u4
  let methodHash ← .u4
  let retypecheckableSymbolHashSize ← .int
  let retypecheckableSymbolHashes ← unpickleSymbolHash.times retypecheckableSymbolHashSize
  let constantsSize ← .int
  let nameHashes ← Reader.u4.times constantsSize
  let foundStaticFieldHashesSize ← .int
  let staticFieldHashes ← unpickleStaticField.times foundStaticFieldHashesSize
  let foundTypeMemberHashesSize ← .int
  let typeMemberHashes ← unpickleTypeMember.times foundTypeMemberHashesSize
  let foundMethodHashesSize ← .int
  let methodHashes ← unpickleFoundMethod.times foundMethodHashesSize
  let foundFieldHashesSize ← .int
  let fieldHashes ← unpickleFoundField.times foundFieldHashesSize
  pure (some ⟨⟨hierarchyHash,classModuleHash,typeMemberHash,fieldHash,staticFieldHash,classAliasHash,methodHash,
    retypecheckableSymbolHashes⟩,nameHashes,⟨staticFieldHashes,typeMemberHashes,methodHashes,fieldHashes⟩⟩)

end Files

section Symbols

structure ParamFlags where
  isKeyword : Bool
  isRepeated : Bool
  isDefault : Bool
  isShadow : Bool
  isBlock : Bool
  deriving DecidableEq,Repr

def ParamFlags.toU1 (flags : ParamFlags) : UInt8 :=
  (if flags.isKeyword then 1 else 0) + (if flags.isRepeated then 2 else 0) + (if flags.isDefault then 4 else 0) +
    (if flags.isShadow then 8 else 0) + (if flags.isBlock then 16 else 0)

def ParamFlags.setFromU1 (flags : UInt8) : ParamFlags where
  isKeyword := byteBool (flags &&& 1)
  isRepeated := byteBool (flags &&& 2)
  isDefault := byteBool (flags &&& 4)
  isShadow := byteBool (flags &&& 8)
  isBlock := byteBool (flags &&& 16)

structure ParamInfo where
  flags : ParamFlags
  name : UInt32
  rebind : UInt32
  loc : Loc
  type : TypePtr

structure MethodFlags where
  isRewriterSynthesized : Bool
  isProtected : Bool
  isPrivate : Bool
  isOverloaded : Bool
  isAbstract : Bool
  isGenericMethod : Bool
  isOverridable : Bool
  isFinal : Bool
  isOverride : Bool
  allowIncompatibleOverrideAll : Bool
  allowIncompatibleOverrideVisibility : Bool
  isPackagePrivate : Bool
  deriving DecidableEq,Repr

def MethodFlags.bits (f : MethodFlags) : List Bool :=
  [f.isRewriterSynthesized,f.isProtected,f.isPrivate,f.isOverloaded,f.isAbstract,f.isGenericMethod,f.isOverridable,
    f.isFinal,f.isOverride,f.allowIncompatibleOverrideAll,f.allowIncompatibleOverrideVisibility,f.isPackagePrivate]

-- The bits that are read back as flags.
def MethodFlags.ofBits (bit : Nat → Bool) : MethodFlags :=
  ⟨bit 0,bit 1,bit 2,bit 3,bit 4,bit 5,bit 6,bit 7,bit 8,bit 9,bit 10,bit 11⟩

-- The type parameters as typeParameters() gives them: no vector is an empty one.
structure Method where
  owner : UInt32
  name : UInt32
  nameLoc : Loc
  rebind : UInt32
  flags : MethodFlags
  intrinsicOffset : UInt16
  resultType : TypePtr
  parameters : List ParamInfo
  locs : List Loc
  typeParams : List UInt32

structure FieldFlags where
  isField : Bool
  isStaticField : Bool
  isStaticFieldTypeAlias : Bool
  isStaticFieldPrivate : Bool
  isExported : Bool
  deriving DecidableEq,Repr

def FieldFlags.bits (f : FieldFlags) : List Bool :=
  [f.isField,f.isStaticField,f.isStaticFieldTypeAlias,f.isStaticFieldPrivate,f.isExported]

def FieldFlags.ofBits (bit : Nat → Bool) : FieldFlags := ⟨bit 0,bit 1,bit 2,bit 3,bit 4⟩

structure Field where
  name : UInt32
  owner : UInt32
  resultType : TypePtr
  locs : List Loc
  flags : FieldFlags

structure TypeParameterFlags where
  isTypeParameter : Bool
  isTypeMember : Bool
  isCovariant : Bool
  isInvariant : Bool
  isContravariant : Bool
  isFixed : Bool
  deriving DecidableEq,Repr

def TypeParameterFlags.bits (f : TypeParameterFlags) : List Bool :=
  [f.isTypeParameter,f.isTypeMember,f.isCovariant,f.isInvariant,f.isContravariant,f.isFixed]

def TypeParameterFlags.ofBits (bit : Nat → Bool) : TypeParameterFlags := ⟨bit 0,bit 1,bit 2,bit 3,bit 4,bit 5⟩

structure TypeParameter where
  flags : TypeParameterFlags
  owner : UInt32
  name : UInt32
  resultType : TypePtr
  locs : List Loc

structure ClassFlags where
  isClass : Bool
  isModule : Bool
  isAbstract : Bool
  isInterface : Bool
  isLinearizationComputed : Bool
  isFinal : Bool
  isSealed : Bool
  isPrivate : Bool
  isDeclared : Bool
  isDeclaredInPackage : Bool
  isExported : Bool
  isBehaviorDefining : Bool
  deriving DecidableEq,Repr

def ClassFlags.bits (f : ClassFlags) : List Bool :=
  [f.isClass,f.isModule,f.isAbstract,f.isInterface,f.isLinearizationComputed,f.isFinal,f.isSealed,f.isPrivate,f.isDeclared,
    f.isDeclaredInPackage,f.isExported,f.isBehaviorDefining]

def ClassFlags.ofBits (bit : Nat → Bool) : ClassFlags :=
  ⟨bit 0,bit 1,bit 2,bit 3,bit 4,bit 5,bit 6,bit 7,bit 8,bit 9,bit 10,bit 11⟩

-- A map from names to symbols, in the order of its own iteration.
structure Members where
  entries : List (UInt32 × UInt32)
  distinct : (entries.map Prod.fst).Nodup

-- members()[name] = sym.
def Members.assign (members : Members) (member : UInt32 × UInt32) : Members :=
  if present : member.1 ∈ members.entries.map Prod.fst then
    { entries := members.entries.map fun other => if other.1 = member.1 then member else other
      distinct := by
        have keys : (members.entries.map fun other => if other.1 = member.1 then member else other).map Prod.fst =
            members.entries.map Prod.fst := by
          rw [List.map_map]
          refine List.map_congr_left fun other _ => ?_
          by_cases same : other.1 = member.1
          · simp [same]
          · simp [same]
        rw [keys]
        exact members.distinct }
  else
    { entries := members.entries ++ [member]
      distinct := by
        rw [List.map_append,List.nodup_append]
        refine ⟨members.distinct,List.pairwise_singleton _ _,?_⟩
        intro key old new equal same
        cases List.mem_singleton.mp equal
        exact present (same ▸ old) }

structure ClassOrModule where
  packageRegistryOwner : UInt32
  package : UInt32
  owner : UInt32
  superClass : UInt32
  flags : ClassFlags
  name : UInt32
  resultType : TypePtr
  members : Members
  locs : List Loc
  mixins : List UInt32
  typeParams : List UInt32

structure SymbolTable where
  classAndModules : List ClassOrModule
  methods : List Method
  fields : List Field
  typeParameters : List TypeParameter
  typeMembers : List TypeParameter

end Symbols

section Pickling

-- Flags of two bytes and of one byte, masked to the ones in use.
def flags4 (bits : List Bool) : Put := .u4 (UInt32.ofNat (packBits bits))
def flags1 (bits : List Bool) : Put := .u1 (UInt8.ofNat (packBits bits))

def pickleParamInfo (what : ParamInfo) : Option (List Put) := do
  let type ← pickleType what.type
  some (.u4 what.name :: .u4 what.rebind :: (pickleLoc what.loc ++ (.u1 what.flags.toU1 :: type)))

def pickleMethod (what : Method) : Option (List Put) := do
  let params ← concat pickleParamInfo what.parameters
  let type ← pickleType what.resultType
  some (pickleLoc what.nameLoc ++ (.u4 what.owner :: .u4 what.name :: .u4 what.rebind :: flags4 what.flags.bits ::
    (pickleRefs what.typeParams ++ (size what.parameters :: (params ++ (type ++
      (.u4 what.intrinsicOffset.toUInt32 :: pickleLocs what.locs)))))))

def sortedMembers (members : Members) : List (UInt32 × UInt32) :=
  members.entries.mergeSort fun lhs rhs => lhs.1 ≤ rhs.1

def pickleMember (member : UInt32 × UInt32) : List Put := [.u4 member.1,.u4 member.2]

def pickleClassOrModule (what : ClassOrModule) : Option (List Put) := do
  let type ← pickleType what.resultType
  some (.u4 what.packageRegistryOwner :: .u4 what.package :: .u4 what.owner :: .u4 what.name :: .u4 what.superClass ::
    flags4 what.flags.bits :: (pickleRefs what.mixins ++ (pickleRefs what.typeParams ++ (size what.members.entries ::
      ((sortedMembers what.members).flatMap pickleMember ++ (type ++ pickleLocs what.locs))))))

def pickleField (what : Field) : Option (List Put) := do
  let type ← pickleType what.resultType
  some (.u4 what.owner :: .u4 what.name :: flags1 what.flags.bits :: (type ++ pickleLocs what.locs))

def pickleTypeParameter (what : TypeParameter) : Option (List Put) := do
  let type ← pickleType what.resultType
  some (.u4 what.owner :: .u4 what.name :: flags1 what.flags.bits :: (type ++ pickleLocs what.locs))

def pickleSymbolTable (gs : SymbolTable) : Option (List Put) := do
  let classAndModules ← concat pickleClassOrModule gs.classAndModules
  let methods ← concat pickleMethod gs.methods
  let fields ← concat pickleField gs.fields
  let typeParameters ← concat pickleTypeParameter gs.typeParameters
  let typeMembers ← concat pickleTypeParameter gs.typeMembers
  some (size gs.classAndModules :: (classAndModules ++ (size gs.methods :: (methods ++ (size gs.fields :: (fields ++
    (size gs.typeParameters :: (typeParameters ++ (size gs.typeMembers :: typeMembers)))))))))

end Pickling

section Unpickling
variable (depth : Nat)

def unpickleArgInfo : Reader ParamInfo := do
  let name ← .u4
  let rebind ← .u4
  let loc ← unpickleLoc
  let flags ← .u1
  let type ← unpickleType depth
  pure ⟨.setFromU1 flags,name,rebind,loc,type⟩

def unpickleMethod : Reader Method := do
  let nameLoc ← unpickleLoc
  let owner ← .u4
  let name ← .u4
  let rebind ← .u4
  let flagsU2 ← .u4
  let typeParamsSize ← .count
  let typeParams ← Reader.u4.times typeParamsSize
  let parametersSize ← .count
  let parameters ← (unpickleArgInfo depth).times parametersSize
  let resultType ← unpickleType depth
  let intrinsicOffset ← .u4
  let locs ← unpickleLocs
  pure ⟨owner,name,nameLoc,rebind,.ofBits flagsU2.toUInt16.toNat.testBit,intrinsicOffset.toUInt16,resultType,parameters,locs,
    typeParams⟩

def unpickleMember : Reader (UInt32 × UInt32) := do
  let name ← .u4
  let sym ← .u4
  pure (name,sym)

def unpickleClassOrModule : Reader ClassOrModule := do
  let packageRegistryOwner ← .u4
  let package ← .u4
  let owner ← .u4
  let name ← .u4
  let superClass ← .u4
  let flagsRaw ← .u4
  let mixinsSize ← .int
  let mixins ← Reader.u4.times mixinsSize
  let typeParamsSize ← .int
  let typeParams ← Reader.u4.times typeParamsSize
  let membersSize ← .int
  let members ← unpickleMember.times membersSize
  let resultType ← unpickleType depth
  let locs ← unpickleLocs
  pure ⟨packageRegistryOwner,package,owner,superClass,.ofBits flagsRaw.toUInt16.toNat.testBit,name,resultType,
    members.foldl Members.assign ⟨[],List.nodup_nil⟩,locs,mixins,typeParams⟩

def unpickleField : Reader Field := do
  let owner ← .u4
  let name ← .u4
  let flagsU1 ← .u1
  let resultType ← unpickleType depth
  let locs ← unpickleLocs
  pure ⟨name,owner,resultType,locs,.ofBits flagsU1.toNat.testBit⟩

def unpickleTypeParameter : Reader TypeParameter := do
  let owner ← .u4
  let name ← .u4
  let flagsU1 ← .u1
  let resultType ← unpickleType depth
  let locs ← unpickleLocs
  pure ⟨.ofBits flagsU1.toNat.testBit,owner,name,resultType,locs⟩

def unpickleSymbolTable : Reader SymbolTable := do
  let classAndModuleSize ← .count
  let classAndModules ← (unpickleClassOrModule depth).times classAndModuleSize
  let methodSize ← .count
  let methods ← (unpickleMethod depth).times methodSize
  let fieldSize ← .count
  let fields ← (unpickleField depth).times fieldSize
  let typeParameterSize ← .count
  let typeParameters ← (unpickleTypeParameter depth).times typeParameterSize
  let typeMemberSize ← .count
  let typeMembers ← (unpickleTypeParameter depth).times typeMemberSize
  pure ⟨classAndModules,methods,fields,typeParameters,typeMembers⟩

end Unpickling

end Serialize
