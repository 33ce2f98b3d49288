import ScipRuby.Serialize.Codec

namespace Serialize

section Sizes
variable {α β : Type}

-- The size of a vector, an int: a vector of negative size is an exception.
def Reader.int : Reader Nat := do
  let sz ← .u4
  if sz.toNat < 2 ^ 31 then pure sz.toNat else .fail

-- The bound of a loop over an int: a negative one means no round.
def Reader.count : Reader Nat := do
  let size ← .u4
  pure (if size.toNat < 2 ^ 31 then size.toNat else 0)

def size (items : List α) : Put := .u4 (UInt32.ofNat items.length)

-- Items one after the other; none when one of them is refused.
def concat (write : α → Option (List Put)) : List α → Option (List Put)
  | [] => some []
  | a :: items => do
    let first ← write a
    let rest ← concat write items
    some (first ++ rest)

variable {r : Reader α} {k : Nat → Reader β} {items : List α} {ops : List Put} {b : β}

theorem toNat_size (small : items.length < 2 ^ 31) : (UInt32.ofNat items.length).toNat = items.length :=
  UInt32.toNat_ofNat_of_lt' (Nat.lt_trans small (by decide))

theorem Decodes.int_bind (small : items.length < 2 ^ 31) (next : Decodes (k items.length) ops b) :
    Decodes (Reader.int >>= k) (size items :: ops) b := by
  have read : Decodes Reader.int [size items] items.length := by
    refine .u4_bind ?_
    rw [toNat_size small,if_pos small]
    exact decodes_pure _
  exact read.bind next

theorem Decodes.count_bind (small : items.length < 2 ^ 31) (next : Decodes (k items.length) ops b) :
    Decodes (Reader.count >>= k) (size items :: ops) b := by
  have read : Decodes Reader.count [size items] items.length := by
    refine .u4_bind ?_
    rw [toNat_size small,if_pos small]
    exact decodes_pure _
  exact read.bind next

-- A loop reads the items that were written, each as far as it comes back.
theorem decodes_concat {write : α → Option (List Put)} {s : Reader β} {f : α → β} (items : List α) {ops : List Put}
    (each : ∀ a ∈ items, ∀ ops, write a = some ops → Decodes s ops (f a)) (written : concat write items = some ops) :
    Decodes (s.times items.length) ops (items.map f) := by
  induction items generalizing ops with
  | nil =>
    cases written
    exact decodes_pure []
  | cons a items ih =>
    simp only [concat,Option.bind_eq_bind,Option.bind_eq_some_iff,Option.some.injEq] at written
    obtain ⟨first,writes,rest,others,rfl⟩ := written
    have here := each a List.mem_cons_self first writes
    have further := ih (fun c member => each c (List.mem_cons_of_mem _ member)) others
    exact here.bind (further.map (f a :: ·))

-- Items that are written and come back as they are, in a loop.
theorem concat_decodes {write : α → Option (List Put)} {s : Reader β} {f : α → β} (items : List α)
    (each : ∀ a ∈ items, ∃ ops, write a = some ops ∧ Decodes s ops (f a)) :
    ∃ ops, concat write items = some ops ∧ Decodes (s.times items.length) ops (items.map f) := by
  induction items with
  | nil => exact ⟨[],rfl,decodes_pure []⟩
  | cons a items ih =>
    obtain ⟨first,writes,here⟩ := each a List.mem_cons_self
    obtain ⟨rest,others,further⟩ := ih fun c member => each c (List.mem_cons_of_mem _ member)
    exact ⟨first ++ rest,by rw [concat,writes,others]; rfl,here.bind (further.map (f a :: ·))⟩

end Sizes

inductive LiteralKind where
  | string
  | symbol
  deriving DecidableEq,Repr

def LiteralKind.byte : LiteralKind → UInt8
  | .string => 0
  | .symbol => 1

def LiteralKind.ofByte (byte : UInt8) : Option LiteralKind :=
  if byte = 0 then some .string else if byte = 1 then some .symbol else none

theorem LiteralKind.ofByte_byte (kind : LiteralKind) : ofByte kind.byte = some kind := by
  cases kind <;> rfl

inductive TypeTag where
  | classType
  | blamedUntyped
  | unresolvedClassType
  | unresolvedAppliedType
  | lambdaParam
  | selfTypeParam
  | aliasType
  | selfType
  | integerLiteralType
  | floatLiteralType
  | namedLiteralType
  | typeVar
  | orType
  | andType
  | shapeType
  | tupleType
  | appliedType
  | metaType
  deriving DecidableEq,Repr

def TypeTag.all : List TypeTag :=
  [.classType,.blamedUntyped,.unresolvedClassType,.unresolvedAppliedType,.lambdaParam,.selfTypeParam,.aliasType,.selfType,
    .integerLiteralType,.floatLiteralType,.namedLiteralType,.typeVar,.orType,.andType,.shapeType,.tupleType,.appliedType,
    .metaType]

-- The enumerators start with 1; 0 stands for the null pointer.
def TypeTag.code (tag : TypeTag) : UInt32 := UInt32.ofNat (tag.ctorIdx + 1)
def TypeTag.ofCode (code : UInt32) : Option TypeTag := TypeTag.all[code.toNat - 1]?

theorem TypeTag.ofCode_code (tag : TypeTag) : ofCode tag.code = some tag := by
  cases tag <;> rfl

theorem TypeTag.code_ne_zero (tag : TypeTag) : tag.code ≠ 0 := by
  cases tag <;> decide

-- The types of the source with their references as numbers; a floating-point
-- value is its bits.
inductive TypePtr where
  | null
  | classType (symbol : UInt32)
  | blamedUntyped (blame : UInt32)
  | unresolvedClassType (scope : UInt32) (names : List UInt32)
  | unresolvedAppliedType (klass : UInt32) (targs : List TypePtr)
  | lambdaParam (definition : UInt32) (lowerBound upperBound : TypePtr)
  | selfTypeParam (definition : UInt32)
  | aliasType (symbol : UInt32)
  | selfType
  | integerLiteralType (value : Int64)
  | floatLiteralType (value : Int64)
  | namedLiteralType (kind : LiteralKind) (name : UInt32)
  | typeVar (sym : UInt32)
  | orType (left right : TypePtr)
  | andType (left right : TypePtr)
  | shapeType (keys values : List TypePtr)
  | tupleType (elems : List TypePtr)
  | appliedType (klass : UInt32) (targs : List TypePtr)
  | metaType (wrapped : TypePtr)

def noSymbol : UInt32 := 0

-- Only a blamed type has somebody to blame.
def TypePtr.untypedBlame : TypePtr → UInt32
  | .blamedUntyped blame => blame
  | _ => noSymbol

mutual
-- none is the exception for a type that is not implemented.
def pickleType : TypePtr → Option (List Put)
  | .null => some [.u4 0]
  | .unresolvedAppliedType klass targs =>
    some [.u4 TypeTag.unresolvedAppliedType.code,.u4 (TypePtr.unresolvedAppliedType klass targs).untypedBlame]
  | .unresolvedClassType scope names =>
    some [.u4 TypeTag.unresolvedClassType.code,.u4 (TypePtr.unresolvedClassType scope names).untypedBlame]
  | .blamedUntyped blame => some [.u4 TypeTag.blamedUntyped.code,.u4 (TypePtr.blamedUntyped blame).untypedBlame]
  | .classType symbol => some [.u4 TypeTag.classType.code,.u4 symbol]
  | .orType left right => do
    let first ← pickleType left
    let second ← pickleType right
    some (.u4 TypeTag.orType.code :: (first ++ second))
  | .namedLiteralType kind name => some [.u4 TypeTag.namedLiteralType.code,.u1 kind.byte,.u4 name]
  | .integerLiteralType value => some [.u4 TypeTag.integerLiteralType.code,.s8 value]
  | .floatLiteralType value => some [.u4 TypeTag.floatLiteralType.code,.s8 value]
  | .andType left right => do
    let first ← pickleType left
    let second ← pickleType right
    some (.u4 TypeTag.andType.code :: (first ++ second))
  | .tupleType elems => do
    let ops ← pickleTypes elems
    some (.u4 TypeTag.tupleType.code :: size elems :: ops)
  | .shapeType keys values => do
    let first ← pickleTypes keys
    let second ← pickleTypes values
    some (.u4 TypeTag.shapeType.code :: size keys :: (first ++ second))
  | .aliasType symbol => some [.u4 TypeTag.aliasType.code,.u4 symbol]
  | .lambdaParam definition lowerBound upperBound => do
    let first ← pickleType lowerBound
    let second ← pickleType upperBound
    some (.u4 TypeTag.lambdaParam.code :: (first ++ (second ++ [.u4 definition])))
  | .appliedType klass targs => do
    let ops ← pickleTypes targs
    some (.u4 TypeTag.appliedType.code :: .u4 klass :: size targs :: ops)
  | .typeVar sym => some [.u4 TypeTag.typeVar.code,.u4 sym]
  | .selfType => some [.u4 TypeTag.selfType.code]
  | .metaType _ => none
  | .selfTypeParam _ => none
def pickleTypes : List TypePtr → Option (List Put)
  | [] => some []
  | t :: types => do
    let first ← pickleType t
    let rest ← pickleTypes types
    some (first ++ rest)
end

-- The cases of unpickleType, with the recursive call as an argument.
def unpickleTypeOf (unpickle : Reader TypePtr) : TypeTag → Reader TypePtr
  | .blamedUntyped => do
    let blame ← .u4
    pure (.blamedUntyped blame)
  | .unresolvedClassType | .unresolvedAppliedType | .classType => do
    let symbol ← .u4
    pure (.classType symbol)
  | .orType => do
    let left ← unpickle
    let right ← unpickle
    pure (.orType left right)
  | .namedLiteralType => do
    let byte ← .u1
    let name ← .u4
    let kind ← .ofOption (LiteralKind.ofByte byte)
    pure (.namedLiteralType kind name)
  | .integerLiteralType => do
    let value ← .s8
    pure (.integerLiteralType value)
  | .floatLiteralType => do
    let value ← .s8
    pure (.floatLiteralType value)
  | .andType => do
    let left ← unpickle
    let right ← unpickle
    pure (.andType left right)
  | .tupleType => do
    let sz ← .int
    let elems ← unpickle.times sz
    pure (.tupleType elems)
  | .shapeType => do
    let sz ← .int
    let keys ← unpickle.times sz
    let values ← unpickle.times sz
    pure (.shapeType keys values)
  | .aliasType => do
    let symbol ← .u4
    pure (.aliasType symbol)
  | .lambdaParam => do
    let lower ← unpickle
    let upper ← unpickle
    let definition ← .u4
    pure (.lambdaParam definition lower upper)
  | .appliedType => do
    let klass ← .u4
    let sz ← .int
    let targs ← unpickle.times sz
    pure (.appliedType klass targs)
  | .typeVar => do
    let sym ← .u4
    pure (.typeVar sym)
  | .selfType => pure .selfType
  | .metaType | .selfTypeParam => .fail

-- A depth of the type that was written is enough for the recursion.
def unpickleType : Nat → Reader TypePtr
  | 0 => .fail
  | depth + 1 => do
    let tag ← .u4
    if tag = 0 then pure .null else do
    let tag ← .ofOption (TypeTag.ofCode tag)
    unpickleTypeOf (unpickleType depth) tag

mutual
def TypePtr.depth : TypePtr → Nat
  | .orType left right | .andType left right | .lambdaParam _ left right => max left.depth right.depth + 1
  | .tupleType elems | .appliedType _ elems => depths elems + 1
  | .shapeType keys values => max (depths keys) (depths values) + 1
  | _ => 1
def depths : List TypePtr → Nat
  | [] => 0
  | t :: types => max t.depth (depths types)
end

mutual
-- Sizes that an int can hold, and as many values as keys in a shape.
def TypePtr.Sized : TypePtr → Prop
  | .orType left right | .andType left right | .lambdaParam _ left right => left.Sized ∧ right.Sized
  | .tupleType elems | .appliedType _ elems => elems.length < 2 ^ 31 ∧ AllSized elems
  | .shapeType keys values => keys.length < 2 ^ 31 ∧ values.length = keys.length ∧ AllSized keys ∧ AllSized values
  | _ => True
def AllSized : List TypePtr → Prop
  | [] => True
  | t :: types => t.Sized ∧ AllSized types
end

mutual
-- What comes back: an unresolved type is written without its contents and read
-- as the class of nobody to blame.
def reread : TypePtr → TypePtr
  | .unresolvedClassType _ _ => .classType noSymbol
  | .unresolvedAppliedType _ _ => .classType noSymbol
  | .orType left right => .orType (reread left) (reread right)
  | .andType left right => .andType (reread left) (reread right)
  | .lambdaParam definition lower upper => .lambdaParam definition (reread lower) (reread upper)
  | .tupleType elems => .tupleType (rereads elems)
  | .shapeType keys values => .shapeType (rereads keys) (rereads values)
  | .appliedType klass targs => .appliedType klass (rereads targs)
  | .metaType wrapped => .metaType (reread wrapped)
  | t => t
def rereads : List TypePtr → List TypePtr
  | [] => []
  | t :: types => reread t :: rereads types
end

mutual
-- Every part of the type is written whole.
def TypePtr.Plain : TypePtr → Prop
  | .unresolvedClassType _ _ | .unresolvedAppliedType _ _ | .metaType _ | .selfTypeParam _ => False
  | .orType left right | .andType left right | .lambdaParam _ left right => left.Plain ∧ right.Plain
  | .tupleType elems | .appliedType _ elems => AllPlain elems
  | .shapeType keys values => AllPlain keys ∧ AllPlain values
  | _ => True
def AllPlain : List TypePtr → Prop
  | [] => True
  | t :: types => t.Plain ∧ AllPlain types
end

section Lists
variable {types : List TypePtr} {t : TypePtr} {n : Nat}

theorem pickleTypes_eq (types : List TypePtr) : pickleTypes types = concat pickleType types := by
  induction types with
  | nil => rfl
  | cons t types ih => rw [pickleTypes,concat,ih]

theorem rereads_eq (types : List TypePtr) : rereads types = types.map reread := by
  induction types with
  | nil => rfl
  | cons t types ih => rw [rereads,ih,List.map_cons]

theorem allSized_iff : AllSized types ↔ ∀ t ∈ types, t.Sized := by
  induction types with
  | nil => simp [AllSized]
  | cons t types ih => simp [AllSized,ih]

theorem depths_le_iff : depths types ≤ n ↔ ∀ t ∈ types, t.depth ≤ n := by
  induction types with
  | nil => simp [depths]
  | cons t types ih => simp [depths,ih]

end Lists

section RoundTrip
variable {t left right : TypePtr} {types : List TypePtr} {ops : List Put} {depth : Nat} {tag : TypeTag}

theorem Decodes.tagged (body : Decodes (unpickleTypeOf (unpickleType depth) tag) ops t) :
    Decodes (unpickleType (depth + 1)) (.u4 tag.code :: ops) t := by
  refine .u4_bind ?_
  rw [if_neg tag.code_ne_zero]
  exact .option_bind tag.ofCode_code body

-- By induction on the depth that is left to the reader.
theorem decodes_type (written : pickleType t = some ops) (sized : t.Sized) (deep : t.depth ≤ depth) :
    Decodes (unpickleType depth) ops (reread t) := by
  induction depth generalizing t ops with
  | zero => cases t <;> simp [TypePtr.depth] at deep
  | succ depth ih =>
    have list : ∀ {types ops}, pickleTypes types = some ops → AllSized types → depths types ≤ depth →
        Decodes ((unpickleType depth).times types.length) ops (rereads types) := by
      intro types ops written sized deep
      rw [pickleTypes_eq] at written
      rw [rereads_eq]
      refine decodes_concat types (fun t present ops written => ?_) written
      exact ih written (allSized_iff.mp sized t present) (depths_le_iff.mp deep t present)
    cases t with
    | null =>
      cases written
      exact .u4_bind (decodes_pure _)
    | classType symbol =>
      cases written
      exact .tagged (.u4_bind (decodes_pure _))
    | blamedUntyped blame =>
      cases written
      exact .tagged (.u4_bind (decodes_pure _))
    | unresolvedClassType scope names =>
      cases written
      exact .tagged (.u4_bind (decodes_pure _))
    | unresolvedAppliedType klass targs =>
      cases written
      exact .tagged (.u4_bind (decodes_pure _))
    | aliasType symbol =>
      cases written
      exact .tagged (.u4_bind (decodes_pure _))
    | typeVar sym =>
      cases written
      exact .tagged (.u4_bind (decodes_pure _))
    | selfType =>
      cases written
      exact .tagged (decodes_pure _)
    | integerLiteralType value =>
      cases written
      exact .tagged (.s8_bind (decodes_pure _))
    | floatLiteralType value =>
      cases written
      exact .tagged (.s8_bind (decodes_pure _))
    | namedLiteralType kind name =>
      cases written
      exact .tagged (.u1_bind (.u4_bind (.option_bind kind.ofByte_byte (decodes_pure _))))
    | metaType wrapped => cases written
    | selfTypeParam definition => cases written
    | orType left right =>
      simp only [pickleType,Option.bind_eq_bind,Option.bind_eq_some_iff,Option.some.injEq] at written
      obtain ⟨first,writes,second,writes',rfl⟩ := written
      obtain ⟨deep1,deep2⟩ := Nat.max_le.mp (Nat.le_of_succ_le_succ deep)
      exact .tagged ((ih writes sized.1 deep1).bind ((ih writes' sized.2 deep2).map _))
    | andType left right =>
      simp only [pickleType,Option.bind_eq_bind,Option.bind_eq_some_iff,Option.some.injEq] at written
      obtain ⟨first,writes,second,writes',rfl⟩ := written
      obtain ⟨deep1,deep2⟩ := Nat.max_le.mp (Nat.le_of_succ_le_succ deep)
      exact .tagged ((ih writes sized.1 deep1).bind ((ih writes' sized.2 deep2).map _))
    | lambdaParam definition lower upper =>
      simp only [pickleType,Option.bind_eq_bind,Option.bind_eq_some_iff,Option.some.injEq] at written
      obtain ⟨first,writes,second,writes',rfl⟩ := written
      obtain ⟨deep1,deep2⟩ := Nat.max_le.mp (Nat.le_of_succ_le_succ deep)
      exact .tagged ((ih writes sized.1 deep1).bind ((ih writes' sized.2 deep2).bind (.u4_bind (decodes_pure _))))
    | tupleType elems =>
      simp only [pickleType,Option.bind_eq_bind,Option.bind_eq_some_iff,Option.some.injEq] at written
      obtain ⟨inner,writes,rfl⟩ := written
      exact .tagged (.int_bind sized.1 ((list writes sized.2 (Nat.le_of_succ_le_succ deep)).map _))
    | appliedType klass targs =>
      simp only [pickleType,Option.bind_eq_bind,Option.bind_eq_some_iff,Option.some.injEq] at written
      obtain ⟨inner,writes,rfl⟩ := written
      exact .tagged (.u4_bind (.int_bind sized.1 ((list writes sized.2 (Nat.le_of_succ_le_succ deep)).map _)))
    | shapeType keys values =>
      simp only [pickleType,Option.bind_eq_bind,Option.bind_eq_some_iff,Option.some.injEq] at written
      obtain ⟨first,writes,second,writes',rfl⟩ := written
      obtain ⟨deep1,deep2⟩ := Nat.max_le.mp (Nat.le_of_succ_le_succ deep)
      obtain ⟨small,same,sized1,sized2⟩ := sized
      have rest := list writes' sized2 deep2
      rw [same] at rest
      exact .tagged (.int_bind small ((list writes sized1 deep1).bind (rest.map _)))

end RoundTrip

section Plain

mutual
theorem reread_plain : (t : TypePtr) → t.Plain → reread t = t
  | .null,_ | .classType _,_ | .blamedUntyped _,_ | .aliasType _,_ | .selfType,_ | .integerLiteralType _,_
  | .floatLiteralType _,_ | .namedLiteralType _ _,_ | .typeVar _,_ => rfl
  | .lambdaParam definition lower upper,plain => by
    rw [reread,reread_plain lower plain.1,reread_plain upper plain.2]
  | .orType left right,plain => by rw [reread,reread_plain left plain.1,reread_plain right plain.2]
  | .andType left right,plain => by rw [reread,reread_plain left plain.1,reread_plain right plain.2]
  | .shapeType keys values,plain => by rw [reread,rereads_plain keys plain.1,rereads_plain values plain.2]
  | .tupleType elems,plain => by rw [reread,rereads_plain elems plain]
  | .appliedType klass targs,plain => by rw [reread,rereads_plain targs plain]
theorem rereads_plain : (types : List TypePtr) → AllPlain types → rereads types = types
  | [],_ => rfl
  | t :: types,plain => by rw [rereads,reread_plain t plain.1,rereads_plain types plain.2]
end

mutual
theorem pickleType_plain : (t : TypePtr) → t.Plain → ∃ ops, pickleType t = some ops
  | .null,_ | .classType _,_ | .blamedUntyped _,_ | .aliasType _,_ | .selfType,_ | .integerLiteralType _,_
  | .floatLiteralType _,_ | .namedLiteralType _ _,_ | .typeVar _,_ => ⟨_,rfl⟩
  | .lambdaParam definition lower upper,plain => by
    obtain ⟨first,writes⟩ := pickleType_plain lower plain.1
    obtain ⟨second,writes'⟩ := pickleType_plain upper plain.2
    exact ⟨_,by rw [pickleType,writes,writes']; rfl⟩
  | .orType left right,plain => by
    obtain ⟨first,writes⟩ := pickleType_plain left plain.1
    obtain ⟨second,writes'⟩ := pickleType_plain right plain.2
    exact ⟨_,by rw [pickleType,writes,writes']; rfl⟩
  | .andType left right,plain => by
    obtain ⟨first,writes⟩ := pickleType_plain left plain.1
    obtain ⟨second,writes'⟩ := pickleType_plain right plain.2
    exact ⟨_,by rw [pickleType,writes,writes']; rfl⟩
  | .shapeType keys values,plain => by
    obtain ⟨first,writes⟩ := pickleTypes_plain keys plain.1
    obtain ⟨second,writes'⟩ := pickleTypes_plain values plain.2
    exact ⟨_,by rw [pickleType,writes,writes']; rfl⟩
  | .tupleType elems,plain => by
    obtain ⟨ops,writes⟩ := pickleTypes_plain elems plain
    exact ⟨_,by rw [pickleType,writes]; rfl⟩
  | .appliedType klass targs,plain => by
    obtain ⟨ops,writes⟩ := pickleTypes_plain targs plain
    exact ⟨_,by rw [pickleType,writes]; rfl⟩
theorem pickleTypes_plain : (types : List TypePtr) → AllPlain types → ∃ ops, pickleTypes types = some ops
  | [],_ => ⟨_,rfl⟩
  | t :: types,plain => by
    obtain ⟨first,writes⟩ := pickleType_plain t plain.1
    obtain ⟨rest,others⟩ := pickleTypes_plain types plain.2
    exact ⟨_,by rw [pickleTypes,writes,others]; rfl⟩
end

end Plain

section Comes
variable {t : TypePtr} {depth : Nat}

-- The type is written, and reading at this depth gives what comes back of it.
def Comes (depth : Nat) (t : TypePtr) : Prop :=
  ∃ ops, pickleType t = some ops ∧ Decodes (unpickleType depth) ops (reread t)

theorem comes_plain (plain : t.Plain) (sized : t.Sized) (deep : t.depth ≤ depth) : Comes depth t := by
  obtain ⟨ops,written⟩ := pickleType_plain t plain
  exact ⟨ops,written,decodes_type written sized deep⟩

end Comes

end Serialize
