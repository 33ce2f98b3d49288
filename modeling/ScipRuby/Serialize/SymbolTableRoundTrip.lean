import Mathlib.Data.List.Sort
import ScipRuby.Serialize.SymbolTable

namespace Serialize

section Flags
variable {bits : List Bool}

theorem packBits_testBit (bits : List Bool) (i : Nat) : (packBits bits).testBit i = bits.getD i false := by
  induction bits generalizing i with
  | nil => simp [packBits]
  | cons b bits ih =>
    cases i with
    | zero => simp [packBits]
    | succ i =>
      rw [packBits,Nat.testBit_bit_succ,ih]
      rfl

theorem packBits_lt (bits : List Bool) : packBits bits < 2 ^ bits.length := by
  induction bits with
  | nil => decide
  | cons b bits ih =>
    rw [packBits,List.length_cons,Nat.pow_succ]
    cases b <;> simp [Nat.bit] <;> omega

theorem packBits_u4 (few : bits.length ≤ 16) :
    (UInt32.ofNat (packBits bits)).toUInt16.toNat.testBit = fun i => bits.getD i false := by
  have small : packBits bits < 2 ^ 16 := (packBits_lt bits).trans_le (Nat.pow_le_pow_right (by decide) few)
  funext i
  rw [UInt32.toNat_toUInt16,UInt32.toNat_ofNat_of_lt' (small.trans (by decide)),Nat.mod_eq_of_lt small,packBits_testBit]

theorem packBits_u1 (few : bits.length ≤ 8) :
    (UInt8.ofNat (packBits bits)).toNat.testBit = fun i => bits.getD i false := by
  have small : packBits bits < 2 ^ 8 := (packBits_lt bits).trans_le (Nat.pow_le_pow_right (by decide) few)
  funext i
  rw [UInt8.toNat_ofNat_of_lt' small,packBits_testBit]

theorem byteBool_boolByte (b : Bool) : byteBool (boolByte b) = b := by
  cases b <;> rfl

theorem ownerIdx_back (ownerIdx : BitVec 28) : BitVec.ofNat 28 (UInt32.ofNat ownerIdx.toNat).toNat = ownerIdx := by
  rw [UInt32.toNat_ofNat_of_lt' (ownerIdx.isLt.trans (by decide)),BitVec.ofNat_toNat,BitVec.setWidth_eq]

theorem setFromU1_toU1 (flags : ParamFlags) : ParamFlags.setFromU1 flags.toU1 = flags := by
  obtain ⟨isKeyword,isRepeated,isDefault,isShadow,isBlock⟩ := flags
  revert isKeyword isRepeated isDefault isShadow isBlock
  decide

end Flags

section Parts
variable {β : Type} {ops : List Put} {b : β}

theorem decodes_locOffsets (loc : LocOffsets) : Decodes unpickleLocOffsets (pickleLocOffsets loc) loc := by
  have back : (⟨loc.beginLoc,loc.beginLoc + (loc.endLoc - loc.beginLoc)⟩ : LocOffsets) = loc := by
    rw [UInt32.add_comm,UInt32.sub_add_cancel]
  have read : Decodes unpickleLocOffsets (pickleLocOffsets loc) ⟨loc.beginLoc,loc.beginLoc + (loc.endLoc - loc.beginLoc)⟩ :=
    .u4_bind (.u4_bind (decodes_pure _))
  rwa [back] at read

theorem decodes_loc (loc : Loc) : Decodes unpickleLoc (pickleLoc loc) loc :=
  .u4_bind ((decodes_locOffsets loc.offsets).map _)

theorem decodes_locs {locs : List Loc} (short : locs.length < 2 ^ 31) : Decodes unpickleLocs (pickleLocs locs) locs :=
  .int_bind short (decodes_times locs fun loc _ => decodes_loc loc)

theorem decodes_refs (refs : List UInt32) : Decodes (Reader.u4.times refs.length) (refs.map .u4) refs := by
  rw [List.map_eq_flatMap]
  exact decodes_times refs fun ref _ => decodes_u4 ref

end Parts

section Files

theorem decodes_symbolHash (h : SymbolHash) : Decodes unpickleSymbolHash (pickleSymbolHash h) h :=
  .u4_bind (.u4_bind (decodes_pure _))

theorem decodes_staticField (h : FoundStaticFieldHash) : Decodes unpickleStaticField (pickleStaticField h) h := by
  refine .u4_bind (.u1_bind (.u4_bind ?_))
  rw [ownerIdx_back,byteBool_boolByte]
  exact decodes_pure _

theorem decodes_typeMember (h : FoundTypeMemberHash) : Decodes unpickleTypeMember (pickleTypeMember h) h := by
  refine .u4_bind (.u1_bind (.u1_bind (.u4_bind ?_)))
  rw [ownerIdx_back,byteBool_boolByte,byteBool_boolByte]
  exact decodes_pure _

theorem decodes_foundMethod (h : FoundMethodHash) : Decodes unpickleFoundMethod (pickleFoundMethod h) h := by
  refine .u4_bind (.u1_bind (.u1_bind (.u4_bind (.u4_bind ?_))))
  rw [ownerIdx_back,byteBool_boolByte,byteBool_boolByte]
  exact decodes_pure _

theorem decodes_foundField (h : FoundFieldHash) : Decodes unpickleFoundField (pickleFoundField h) h := by
  refine .u4_bind (.u1_bind (.u1_bind (.u1_bind (.u1_bind (.u4_bind ?_)))))
  rw [ownerIdx_back,byteBool_boolByte,byteBool_boolByte,byteBool_boolByte,byteBool_boolByte]
  exact decodes_pure _

-- The sizes fit in the int they are read into.
structure FileHash.Sized (fh : FileHash) : Prop where
  symbols : fh.localSymbolTableHashes.retypecheckableSymbolHashes.length < 2 ^ 31
  names : fh.nameHashes.length < 2 ^ 31
  staticFields : fh.foundHashes.staticFieldHashes.length < 2 ^ 31
  typeMembers : fh.foundHashes.typeMemberHashes.length < 2 ^ 31
  methods : fh.foundHashes.methodHashes.length < 2 ^ 31
  fields : fh.foundHashes.fieldHashes.length < 2 ^ 31

theorem decodes_fileHash (fh : Option FileHash) (sized : ∀ present ∈ fh, present.Sized) :
    Decodes unpickleFileHash (pickleFileHash fh) fh := by
  cases fh with
  | none => exact .u1_bind (decodes_pure _)
  | some fh =>
    have sized := sized fh rfl
    have symbols := decodes_times fh.localSymbolTableHashes.retypecheckableSymbolHashes fun h _ => decodes_symbolHash h
    have names := decodes_times fh.nameHashes fun h _ => decodes_u4 h
    have staticFields := decodes_times fh.foundHashes.staticFieldHashes fun h _ => decodes_staticField h
    have typeMembers := decodes_times fh.foundHashes.typeMemberHashes fun h _ => decodes_typeMember h
    have methods := decodes_times fh.foundHashes.methodHashes fun h _ => decodes_foundMethod h
    have fields := decodes_times fh.foundHashes.fieldHashes fun h _ => decodes_foundField h
    refine .u1_bind ?_
    rw [if_neg (by decide)]
    refine .u4_bind (.u4_bind (.u4_bind (.u4_bind (.u4_bind (.u4_bind (.u4_bind ?_))))))
    refine .int_bind sized.symbols (symbols.bind (.int_bind sized.names (names.bind ?_)))
    refine .int_bind sized.staticFields (staticFields.bind (.int_bind sized.typeMembers (typeMembers.bind ?_)))
    exact .int_bind sized.methods (methods.bind (.int_bind sized.fields (fields.map _)))

end Files

section Members

theorem foldl_assign {members : Members} {rest : List (UInt32 × UInt32)}
    (distinct : ((members.entries ++ rest).map Prod.fst).Nodup) :
    (rest.foldl Members.assign members).entries = members.entries ++ rest := by
  induction rest generalizing members with
  | nil => rw [List.foldl_nil,List.append_nil]
  | cons member rest ih =>
    have absent : member.1 ∉ members.entries.map Prod.fst := by
      intro present
      rw [List.map_append,List.nodup_append] at distinct
      exact distinct.2.2 _ present _ List.mem_cons_self rfl
    have appended : (members.assign member).entries = members.entries ++ [member] := by
      rw [Members.assign,dif_neg absent]
    have onward : (members.assign member).entries ++ rest = members.entries ++ member :: rest := by
      rw [appended,List.append_assoc,List.singleton_append]
    rw [List.foldl_cons,ih (onward ▸ distinct),onward]

def Members.reread (members : Members) : Members where
  entries := sortedMembers members
  distinct := ((List.mergeSort_perm _ _).map Prod.fst).nodup_iff.mpr members.distinct

theorem foldl_sorted (members : Members) : (sortedMembers members).foldl Members.assign ⟨[],List.nodup_nil⟩ = members.reread := by
  have entries : ((sortedMembers members).foldl Members.assign ⟨[],List.nodup_nil⟩).entries = [] ++ sortedMembers members :=
    foldl_assign members.reread.distinct
  rw [Members.reread]
  cases equal : (sortedMembers members).foldl Members.assign ⟨[],List.nodup_nil⟩ with
  | mk found distinct =>
    rw [equal] at entries
    cases entries
    rfl

theorem decodes_members (members : Members) :
    Decodes (unpickleMember.times members.entries.length) ((sortedMembers members).flatMap pickleMember) (sortedMembers members) := by
  have read := decodes_times (sortedMembers members) fun member _ =>
    (Decodes.u4_bind (.u4_bind (decodes_pure _)) : Decodes unpickleMember (pickleMember member) member)
  rwa [sortedMembers,List.length_mergeSort] at read

end Members

section Symbols
variable {depth : Nat}

def ParamInfo.reread (what : ParamInfo) : ParamInfo := {what with type := Serialize.reread what.type}
def Method.reread (what : Method) : Method :=
  {what with resultType := Serialize.reread what.resultType,parameters := what.parameters.map ParamInfo.reread}
def Field.reread (what : Field) : Field := {what with resultType := Serialize.reread what.resultType}
def TypeParameter.reread (what : TypeParameter) : TypeParameter := {what with resultType := Serialize.reread what.resultType}
def ClassOrModule.reread (what : ClassOrModule) : ClassOrModule :=
  {what with resultType := Serialize.reread what.resultType,members := what.members.reread}

def Method.types (what : Method) : List TypePtr := what.resultType :: what.parameters.map ParamInfo.type

structure Method.Sized (what : Method) : Prop where
  typeParams : what.typeParams.length < 2 ^ 31
  parameters : what.parameters.length < 2 ^ 31
  locs : what.locs.length < 2 ^ 31

structure ClassOrModule.Sized (what : ClassOrModule) : Prop where
  mixins : what.mixins.length < 2 ^ 31
  typeParams : what.typeParams.length < 2 ^ 31
  members : what.members.entries.length < 2 ^ 31
  locs : what.locs.length < 2 ^ 31

theorem decodes_paramInfo {what : ParamInfo} (comes : Comes depth what.type) :
    ∃ ops, pickleParamInfo what = some ops ∧ Decodes (unpickleArgInfo depth) ops what.reread := by
  obtain ⟨type,written,read⟩ := comes
  refine ⟨_,by rw [pickleParamInfo,written]; rfl,?_⟩
  refine .u4_bind (.u4_bind ((decodes_loc what.loc).bind (.u1_bind ?_)))
  rw [setFromU1_toU1]
  exact read.map _

theorem decodes_field {what : Field} (short : what.locs.length < 2 ^ 31) (comes : Comes depth what.resultType) :
    ∃ ops, pickleField what = some ops ∧ Decodes (unpickleField depth) ops what.reread := by
  obtain ⟨type,written,read⟩ := comes
  refine ⟨_,by rw [pickleField,written]; rfl,?_⟩
  refine .u4_bind (.u4_bind (.u1_bind ?_))
  rw [packBits_u1 (Nat.le_of_ble_eq_true rfl)]
  exact read.bind ((decodes_locs short).map _)

theorem decodes_typeParameter {what : TypeParameter} (short : what.locs.length < 2 ^ 31) (comes : Comes depth what.resultType) :
    ∃ ops, pickleTypeParameter what = some ops ∧ Decodes (unpickleTypeParameter depth) ops what.reread := by
  obtain ⟨type,written,read⟩ := comes
  refine ⟨_,by rw [pickleTypeParameter,written]; rfl,?_⟩
  refine .u4_bind (.u4_bind (.u1_bind ?_))
  rw [packBits_u1 (Nat.le_of_ble_eq_true rfl)]
  exact read.bind ((decodes_locs short).map _)

theorem decodes_method {what : Method} (sized : what.Sized) (comes : ∀ t ∈ what.types, Comes depth t) :
    ∃ ops, pickleMethod what = some ops ∧ Decodes (unpickleMethod depth) ops what.reread := by
  obtain ⟨type,written,read⟩ := comes _ List.mem_cons_self
  obtain ⟨params,writes,reads⟩ := concat_decodes (f := ParamInfo.reread) what.parameters fun param present =>
    decodes_paramInfo (comes _ (List.mem_cons_of_mem _ (List.mem_map_of_mem present)))
  refine ⟨_,by rw [pickleMethod,writes,written]; rfl,?_⟩
  refine (decodes_loc what.nameLoc).bind (.u4_bind (.u4_bind (.u4_bind (.u4_bind ?_))))
  rw [packBits_u4 (Nat.le_of_ble_eq_true rfl)]
  refine .count_bind sized.typeParams ((decodes_refs what.typeParams).bind (.count_bind sized.parameters (reads.bind ?_)))
  refine read.bind (.u4_bind ?_)
  rw [UInt16.toUInt16_toUInt32]
  exact (decodes_locs sized.locs).map _

theorem decodes_classOrModule {what : ClassOrModule} (sized : what.Sized) (comes : Comes depth what.resultType) :
    ∃ ops, pickleClassOrModule what = some ops ∧ Decodes (unpickleClassOrModule depth) ops what.reread := by
  obtain ⟨type,written,read⟩ := comes
  refine ⟨_,by rw [pickleClassOrModule,written]; rfl,?_⟩
  refine .u4_bind (.u4_bind (.u4_bind (.u4_bind (.u4_bind (.u4_bind ?_)))))
  rw [packBits_u4 (Nat.le_of_ble_eq_true rfl)]
  refine .int_bind sized.mixins ((decodes_refs what.mixins).bind (.int_bind sized.typeParams ?_))
  refine (decodes_refs what.typeParams).bind (.int_bind sized.members ((decodes_members what.members).bind ?_))
  rw [foldl_sorted]
  exact read.bind ((decodes_locs sized.locs).map _)

end Symbols

section Tables
variable {gs back : SymbolTable} {depth : Nat}

def SymbolTable.reread (gs : SymbolTable) : SymbolTable where
  classAndModules := gs.classAndModules.map ClassOrModule.reread
  methods := gs.methods.map Method.reread
  fields := gs.fields.map Field.reread
  typeParameters := gs.typeParameters.map TypeParameter.reread
  typeMembers := gs.typeMembers.map TypeParameter.reread

-- Every type that the symbols of the table mention.
def SymbolTable.types (gs : SymbolTable) : List TypePtr :=
  gs.classAndModules.map ClassOrModule.resultType ++ (gs.methods.flatMap Method.types ++ (gs.fields.map Field.resultType ++
    (gs.typeParameters.map TypeParameter.resultType ++ gs.typeMembers.map TypeParameter.resultType)))

structure SymbolTable.Sized (gs : SymbolTable) : Prop where
  classAndModules : gs.classAndModules.length < 2 ^ 31
  methods : gs.methods.length < 2 ^ 31
  fields : gs.fields.length < 2 ^ 31
  typeParameters : gs.typeParameters.length < 2 ^ 31
  typeMembers : gs.typeMembers.length < 2 ^ 31
  classOrModule : ∀ what ∈ gs.classAndModules, what.Sized
  method : ∀ what ∈ gs.methods, what.Sized
  field : ∀ what ∈ gs.fields, what.locs.length < 2 ^ 31
  typeParameter : ∀ what ∈ gs.typeParameters ++ gs.typeMembers, what.locs.length < 2 ^ 31

theorem decodes_symbolTable (sized : gs.Sized) (comes : ∀ t ∈ gs.types, Comes depth t) :
    ∃ ops, pickleSymbolTable gs = some ops ∧ Decodes (unpickleSymbolTable depth) ops gs.reread := by
  simp only [SymbolTable.types,List.mem_append,List.mem_map,List.mem_flatMap] at comes
  obtain ⟨classes,wrote1,read1⟩ := concat_decodes (f := ClassOrModule.reread) gs.classAndModules fun what present =>
    decodes_classOrModule (sized.classOrModule what present) (comes _ (.inl ⟨what,present,rfl⟩))
  obtain ⟨methods,wrote2,read2⟩ := concat_decodes (f := Method.reread) gs.methods fun what present =>
    decodes_method (sized.method what present) fun t mentioned => comes t (.inr (.inl ⟨what,present,mentioned⟩))
  obtain ⟨fields,wrote3,read3⟩ := concat_decodes (f := Field.reread) gs.fields fun what present =>
    decodes_field (sized.field what present) (comes _ (.inr (.inr (.inl ⟨what,present,rfl⟩))))
  obtain ⟨parameters,wrote4,read4⟩ := concat_decodes (f := TypeParameter.reread) gs.typeParameters fun what present =>
    decodes_typeParameter (sized.typeParameter what (List.mem_append_left _ present))
      (comes _ (.inr (.inr (.inr (.inl ⟨what,present,rfl⟩)))))
  obtain ⟨members,wrote5,read5⟩ := concat_decodes (f := TypeParameter.reread) gs.typeMembers fun what present =>
    decodes_typeParameter (sized.typeParameter what (List.mem_append_right _ present))
      (comes _ (.inr (.inr (.inr (.inr ⟨what,present,rfl⟩)))))
  refine ⟨_,by rw [pickleSymbolTable,wrote1,wrote2,wrote3,wrote4,wrote5]; rfl,?_⟩
  refine .count_bind sized.classAndModules (read1.bind (.count_bind sized.methods (read2.bind ?_)))
  refine .count_bind sized.fields (read3.bind (.count_bind sized.typeParameters (read4.bind ?_)))
  exact .count_bind sized.typeMembers (read5.map _)

-- Equal field by field; the members are the same map, in an order of its own.
structure ClassOrModule.Same (what back : ClassOrModule) : Prop where
  members : what.members.entries.Perm back.members.entries
  rest : back = {what with members := back.members}

structure SymbolTable.Same (gs back : SymbolTable) : Prop where
  classAndModules : List.Forall₂ ClassOrModule.Same gs.classAndModules back.classAndModules
  rest : back = {gs with classAndModules := back.classAndModules}

theorem map_fixed {α : Type} {f : α → α} {items : List α} (fixed : ∀ a ∈ items, f a = a) : items.map f = items :=
  (List.map_congr_left fixed).trans (List.map_id items)

theorem Method.reread_plain {what : Method} (plain : ∀ t ∈ what.types, t.Plain) : what.reread = what := by
  have params : what.parameters.map ParamInfo.reread = what.parameters := by
    refine map_fixed fun param present => ?_
    rw [ParamInfo.reread,Serialize.reread_plain _ (plain _ (List.mem_cons_of_mem _ (List.mem_map_of_mem present)))]
  rw [Method.reread,params,Serialize.reread_plain _ (plain _ List.mem_cons_self)]

theorem ClassOrModule.reread_same {what : ClassOrModule} (plain : what.resultType.Plain) : what.Same what.reread where
  members := (List.mergeSort_perm _ _).symm
  rest := by rw [ClassOrModule.reread,Serialize.reread_plain _ plain]

theorem SymbolTable.reread_same (plain : ∀ t ∈ gs.types, t.Plain) : gs.Same gs.reread := by
  simp only [SymbolTable.types,List.mem_append,List.mem_map,List.mem_flatMap] at plain
  have methods : gs.methods.map Method.reread = gs.methods := map_fixed fun what present =>
    Method.reread_plain fun t mentioned => plain t (.inr (.inl ⟨what,present,mentioned⟩))
  have fields : gs.fields.map Field.reread = gs.fields := by
    refine map_fixed fun what present => ?_
    rw [Field.reread,Serialize.reread_plain _ (plain _ (.inr (.inr (.inl ⟨what,present,rfl⟩))))]
  have parameters : gs.typeParameters.map TypeParameter.reread = gs.typeParameters := by
    refine map_fixed fun what present => ?_
    rw [TypeParameter.reread,Serialize.reread_plain _ (plain _ (.inr (.inr (.inr (.inl ⟨what,present,rfl⟩)))))]
  have members : gs.typeMembers.map TypeParameter.reread = gs.typeMembers := by
    refine map_fixed fun what present => ?_
    rw [TypeParameter.reread,Serialize.reread_plain _ (plain _ (.inr (.inr (.inr (.inr ⟨what,present,rfl⟩)))))]
  refine ⟨?_,by rw [SymbolTable.reread,methods,fields,parameters,members]⟩
  rw [SymbolTable.reread,List.forall₂_map_right_iff,List.forall₂_same]
  exact fun what present => ClassOrModule.reread_same (plain _ (.inl ⟨what,present,rfl⟩))

theorem symbolTable_fileHash_roundtrip :
    (∀ gs : SymbolTable, gs.Sized → (∀ t ∈ gs.types, t.Plain ∧ t.Sized) →
      ∃ ops back, pickleSymbolTable gs = some ops ∧ gs.Same back ∧
        ∀ depth, (∀ t ∈ gs.types, t.depth ≤ depth) → Decodes (unpickleSymbolTable depth) ops back) ∧
    ∀ fh : Option FileHash, (∀ present ∈ fh, present.Sized) → Decodes unpickleFileHash (pickleFileHash fh) fh := by
  refine ⟨fun gs sized whole => ?_,decodes_fileHash⟩
  have comes : ∀ depth, (∀ t ∈ gs.types, t.depth ≤ depth) → ∀ t ∈ gs.types, Comes depth t := fun depth deep t mentioned =>
    comes_plain (whole t mentioned).1 (whole t mentioned).2 (deep t mentioned)
  obtain ⟨ops,written,_⟩ := decodes_symbolTable sized (comes _ (depths_le_iff.mp le_rfl))
  refine ⟨ops,gs.reread,written,SymbolTable.reread_same fun t mentioned => (whole t mentioned).1,fun depth deep => ?_⟩
  obtain ⟨ops',written',read⟩ := decodes_symbolTable sized (comes depth deep)
  cases written.symm.trans written'
  exact read

end Tables

section Samples

def sampleLoc : Loc := ⟨3,⟨120,128⟩⟩

def sampleMethod (resultType : TypePtr) : Method where
  owner := 1
  name := 9
  nameLoc := sampleLoc
  rebind := 0
  flags := .ofBits fun i => i = 2
  intrinsicOffset := 0
  resultType := resultType
  parameters := [⟨⟨true,false,true,false,false⟩,13,0,sampleLoc,.tupleType [.classType 5,.orType (.classType 6) (.typeVar 1)]⟩]
  locs := [sampleLoc]
  typeParams := [1]

def sampleTable (resultType : TypePtr) : SymbolTable where
  classAndModules :=
    [⟨0,0,0,2,.ofBits fun i => i = 0,17,.null,⟨[(9,4),(5,8)],by decide⟩,[sampleLoc],[3],[1]⟩]
  methods := [sampleMethod resultType]
  fields := [⟨21,1,.shapeType [.namedLiteralType .symbol 5] [.integerLiteralType (-1)],[sampleLoc],.ofBits fun i => i = 0⟩]
  typeParameters := [⟨.ofBits fun i => i = 0,1,25,.typeVar 1,[sampleLoc]⟩]
  typeMembers := [⟨.ofBits fun i => i = 1,1,29,.lambdaParam 1 (.classType 7) (.classType 8),[sampleLoc]⟩]

def sampleFileHash : FileHash where
  localSymbolTableHashes := ⟨1,2,3,4,5,6,7,[⟨8,9⟩]⟩
  nameHashes := [10]
  foundHashes := ⟨[⟨11,true,12⟩],[⟨13,false,true,14⟩],[⟨15,true,false,16,17⟩],[⟨18,false,true,false,true,19⟩]⟩

theorem sampleTable_sized (resultType : TypePtr) : (sampleTable resultType).Sized := by
  constructor <;> simp [sampleTable]
  · constructor <;> simp
  · constructor <;> simp [sampleMethod]

theorem symbolTable_fileHash_roundtrip_sample :
    (∃ ops back, pickleSymbolTable (sampleTable (.appliedType 30 [.selfType])) = some ops ∧
      (sampleTable (.appliedType 30 [.selfType])).Same back ∧ Decodes (unpickleSymbolTable 3) ops back) ∧
    Decodes unpickleFileHash (pickleFileHash (some sampleFileHash)) (some sampleFileHash) := by
  have whole : ∀ t ∈ (sampleTable (.appliedType 30 [.selfType])).types, t.Plain ∧ t.Sized := by
    simp [SymbolTable.types,Method.types,sampleTable,sampleMethod,TypePtr.Plain,AllPlain,TypePtr.Sized,AllSized]
  have deep : ∀ t ∈ (sampleTable (.appliedType 30 [.selfType])).types, t.depth ≤ 3 := by
    simp [SymbolTable.types,Method.types,sampleTable,sampleMethod,TypePtr.depth,depths]
  have sized : ∀ present ∈ some sampleFileHash, present.Sized := by
    rintro _ ⟨⟩
    constructor <;> decide
  obtain ⟨ops,back,written,same,read⟩ := symbolTable_fileHash_roundtrip.1 _ (sampleTable_sized _) whole
  exact ⟨⟨ops,back,written,same,read 3 deep⟩,symbolTable_fileHash_roundtrip.2 _ sized⟩

-- An unresolved result type comes back as a class; a meta type is refused.
theorem symbolTable_unresolved_lost :
    (∃ ops back, pickleSymbolTable (sampleTable (.unresolvedClassType 4 [9])) = some ops ∧
      Decodes (unpickleSymbolTable 3) ops back ∧ ¬(sampleTable (.unresolvedClassType 4 [9])).Same back) ∧
    pickleSymbolTable (sampleTable (.metaType (.classType 4))) = none := by
  have comes : ∀ t ∈ (sampleTable (.unresolvedClassType 4 [9])).types, Comes 3 t := by
    intro t mentioned
    by_cases unresolved : t = .unresolvedClassType 4 [9]
    · cases unresolved
      exact ⟨_,rfl,.tagged (.u4_bind (decodes_pure _))⟩
    · refine comes_plain ?_ ?_ ?_ <;> revert t <;>
        simp [SymbolTable.types,Method.types,sampleTable,sampleMethod,TypePtr.Plain,AllPlain,TypePtr.Sized,AllSized,TypePtr.depth,depths]
  obtain ⟨ops,written,read⟩ := decodes_symbolTable (sampleTable_sized _) comes
  refine ⟨⟨ops,_,written,read,fun same => ?_⟩,rfl⟩
  have methods := congrArg (·.methods.map Method.resultType) same.rest
  simp [SymbolTable.reread,Method.reread,sampleTable,sampleMethod,reread] at methods

end Samples

end Serialize
