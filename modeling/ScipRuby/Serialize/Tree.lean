import ScipRuby.Serialize.SymbolTable

namespace Serialize

section Trees

inductive TreeTag where
  | emptyTree
  | send
  | classDef
  | methodDef
  | if_
  | while_
  | break_
  | retry
  | next
  | return_
  | rescueCase
  | rescue
  | local_
  | unresolvedIdent
  | restParam
  | keywordArg
  | optionalParam
  | blockParam
  | shadowArg
  | assign
  | cast
  | hash
  | array
  | literal
  | unresolvedConstantLit
  | constantLit
  | zSuperArgs
  | block
  | insSeq
  | runtimeMethodDefinition
  | self
  deriving DecidableEq,Repr

def TreeTag.all : List TreeTag :=
  [.emptyTree,.send,.classDef,.methodDef,.if_,.while_,.break_,.retry,.next,.return_,.rescueCase,.rescue,.local_,
    .unresolvedIdent,.restParam,.keywordArg,.optionalParam,.blockParam,.shadowArg,.assign,.cast,.hash,.array,.literal,
    .unresolvedConstantLit,.constantLit,.zSuperArgs,.block,.insSeq,.runtimeMethodDefinition,.self]

-- As for types, 0 stands for the null pointer.
def TreeTag.code (tag : TreeTag) : UInt32 := UInt32.ofNat (tag.ctorIdx + 1)
def TreeTag.ofCode (code : UInt32) : Option TreeTag := TreeTag.all[code.toNat - 1]?

theorem TreeTag.ofCode_code (tag : TreeTag) : ofCode tag.code = some tag := by
  cases tag <;> rfl

theorem TreeTag.code_ne_zero (tag : TreeTag) : tag.code ≠ 0 := by
  cases tag <;> decide

structure SendFlags where
  isPrivateOk : Bool
  isRewriterSynthesized : Bool
  hasBlock : Bool
  deriving DecidableEq,Repr

def SendFlags.bits (f : SendFlags) : List Bool := [f.isPrivateOk,f.isRewriterSynthesized,f.hasBlock]
def SendFlags.ofBits (bit : Nat → Bool) : SendFlags := ⟨bit 0,bit 1,bit 2⟩

structure MethodDefFlags where
  isSelfMethod : Bool
  isRewriterSynthesized : Bool
  isAttrBestEffortUIOnly : Bool
  discardDef : Bool
  genericPropGetter : Bool
  hasHandwrittenBody : Bool
  deriving DecidableEq,Repr

def MethodDefFlags.bits (f : MethodDefFlags) : List Bool :=
  [f.isSelfMethod,f.isRewriterSynthesized,f.isAttrBestEffortUIOnly,f.discardDef,f.genericPropGetter,f.hasHandwrittenBody]

def MethodDefFlags.ofBits (bit : Nat → Bool) : MethodDefFlags := ⟨bit 0,bit 1,bit 2,bit 3,bit 4,bit 5⟩

inductive ClassDefKind where
  | module_
  | class_
  deriving DecidableEq,Repr

def ClassDefKind.byte : ClassDefKind → UInt8
  | .module_ => 0
  | .class_ => 1

def ClassDefKind.ofByte (byte : UInt8) : Option ClassDefKind :=
  if byte = 0 then some .module_ else if byte = 1 then some .class_ else none

inductive IdentKind where
  | local_
  | instance_
  | class_
  | global_
  deriving DecidableEq,Repr

def IdentKind.byte : IdentKind → UInt8
  | .local_ => 0
  | .instance_ => 1
  | .class_ => 2
  | .global_ => 3

def IdentKind.ofByte (byte : UInt8) : Option IdentKind :=
  if byte = 0 then some .local_ else if byte = 1 then some .instance_ else if byte = 2 then some .class_
  else if byte = 3 then some .global_ else none

theorem ClassDefKind.ofByte_byte (kind : ClassDefKind) : ofByte kind.byte = some kind := by
  cases kind <;> rfl

theorem IdentKind.ofByte_byte (kind : IdentKind) : ofByte kind.byte = some kind := by
  cases kind <;> rfl

-- The three states of a ConstantLit are its last three constructors; the
-- original of the last two is given by its fields.
inductive ExpressionPtr where
  | null
  | emptyTree
  | send (loc : LocOffsets) (fun_ : UInt32) (funLoc : LocOffsets) (flags : SendFlags) (numPosArgs : UInt16)
    (recv : ExpressionPtr) (args : List ExpressionPtr)
  | classDef (loc declLoc : LocOffsets) (kind : ClassDefKind) (symbol : UInt32) (name : ExpressionPtr)
    (ancestors singletonAncestors rhs : List ExpressionPtr)
  | methodDef (loc declLoc nameLoc : LocOffsets) (flags : MethodDefFlags) (name symbol : UInt32) (rhs : ExpressionPtr)
    (params : List ExpressionPtr)
  | if_ (loc : LocOffsets) (cond thenp elsep : ExpressionPtr)
  | while_ (loc : LocOffsets) (cond body : ExpressionPtr)
  | break_ (loc : LocOffsets) (expr : ExpressionPtr)
  | retry (loc : LocOffsets)
  | next (loc : LocOffsets) (expr : ExpressionPtr)
  | return_ (loc : LocOffsets) (expr : ExpressionPtr)
  | rescueCase (loc : LocOffsets) (exceptions : List ExpressionPtr) (var body : ExpressionPtr)
  | rescue (loc : LocOffsets) (body : ExpressionPtr) (rescueCases : List ExpressionPtr) (else_ ensure : ExpressionPtr)
  | local_ (loc : LocOffsets) (name unique : UInt32)
  | unresolvedIdent (loc : LocOffsets) (kind : IdentKind) (name : UInt32)
  | restParam (loc : LocOffsets) (expr : ExpressionPtr)
  | keywordArg (loc : LocOffsets) (expr : ExpressionPtr)
  | optionalParam (loc : LocOffsets) (expr default_ : ExpressionPtr)
  | blockParam (loc : LocOffsets) (expr : ExpressionPtr)
  | shadowArg (loc : LocOffsets) (expr : ExpressionPtr)
  | assign (loc : LocOffsets) (lhs rhs : ExpressionPtr)
  | cast (loc : LocOffsets) (cast : UInt32) (type : TypePtr) (arg typeExpr : ExpressionPtr)
  | hash (loc : LocOffsets) (keys values : List ExpressionPtr)
  | array (loc : LocOffsets) (elems : List ExpressionPtr)
  | literal (loc : LocOffsets) (value : TypePtr)
  | unresolvedConstantLit (loc : LocOffsets) (cnst : UInt32) (scope : ExpressionPtr)
  | zSuperArgs (loc : LocOffsets)
  | block (loc : LocOffsets) (params : List ExpressionPtr) (body : ExpressionPtr)
  | insSeq (loc : LocOffsets) (stats : List ExpressionPtr) (expr : ExpressionPtr)
  | runtimeMethodDefinition (loc : LocOffsets) (name : UInt32) (isSelfMethod : Bool)
  | self (loc : LocOffsets)
  | knownSymbol (loc : LocOffsets) (symbol : UInt32)
  | resolvedSymbol (symbol : UInt32) (loc : LocOffsets) (cnst : UInt32) (scope : ExpressionPtr)
  | failedResolutionSymbol (loc : LocOffsets) (cnst : UInt32) (scope : ExpressionPtr) (resolutionScopes : List UInt32)

end Trees

section Arguments
variable (numPosArgs : UInt16) (hasBlock : Bool) (args : List ExpressionPtr)

-- The counts of a Send are uint16_t. _sanityCheck keeps the differences of sizes
-- from wrapping.
def kwSplats : Nat := (args.length - numPosArgs.toNat - hasBlock.toNat) % 2
def numKwArgs : Nat := (args.length - numPosArgs.toNat - kwSplats numPosArgs hasBlock args - hasBlock.toNat) % 2 ^ 16 / 2

def numNonBlockArgs : Nat :=
  (numPosArgs.toNat + numKwArgs numPosArgs hasBlock args * 2 + kwSplats numPosArgs hasBlock args) % 2 ^ 16

end Arguments

section Making

def ExpressionPtr.addPosArg : ExpressionPtr → ExpressionPtr → ExpressionPtr
  | .send loc name funLoc flags numPosArgs recv args,arg =>
    .send loc name funLoc flags (numPosArgs + 1) recv (args.insertIdx numPosArgs.toNat arg)
  | e,_ => e

-- MK::Assign
def mkAssign (loc : LocOffsets) (lhs rhs : ExpressionPtr) : ExpressionPtr :=
  match lhs with
  | .send .. => lhs.addPosArg rhs
  | .insSeq seqLoc stats (.if_ ifLoc cond thenp (.send sendLoc name funLoc flags numPosArgs recv args)) =>
    .insSeq seqLoc stats (.if_ ifLoc cond thenp
      ((ExpressionPtr.send sendLoc name funLoc flags numPosArgs recv args).addPosArg rhs))
  | _ => .assign loc lhs rhs

-- MK::InsSeq
def mkInsSeq (loc : LocOffsets) (stats : List ExpressionPtr) (expr : ExpressionPtr) : ExpressionPtr :=
  if stats.isEmpty then expr else .insSeq loc stats expr

def noLoc : LocOffsets := ⟨0xffffffff,0xffffffff⟩

def ExpressionPtr.isBlockParam : ExpressionPtr → Bool
  | .local_ .. | .blockParam .. => true
  | _ => false

-- What MK::Method does with the parameters: the last one is the block.
def withBlockParam (blkArg : UInt32) (params : List ExpressionPtr) : List ExpressionPtr :=
  if params.getLast?.any ExpressionPtr.isBlockParam then params
  else params ++ [.blockParam noLoc (.unresolvedIdent noLoc .local_ blkArg)]

end Making

section Pickling

def SendFlags.put (flags : SendFlags) : Put := flags1 flags.bits
def MethodDefFlags.put (flags : MethodDefFlags) : Put := flags1 flags.bits

mutual
-- none is an exception or a failed ENFORCE.
def pickleExpr : ExpressionPtr → Option (List Put)
  | .null => some [.u4 0]
  | .send loc name funLoc flags numPosArgs recv args => do
    let receiver ← pickleExpr recv
    let nonBlockArgs := numNonBlockArgs numPosArgs flags.hasBlock args
    let rawBlock := if flags.hasBlock then (pickleEach args).getLast?.toList else []
    let written ← concat id ((pickleEach args).take nonBlockArgs ++ rawBlock)
    some (.u4 TreeTag.send.code :: (pickleLocOffsets loc ++ (.u4 name :: (pickleLocOffsets funLoc ++ (flags.put ::
      .u4 numPosArgs.toUInt32 :: .u4 (UInt32.ofNat (nonBlockArgs + flags.hasBlock.toNat)) :: (receiver ++ written))))))
  | .block loc params body => do
    let first ← pickleExpr body
    let rest ← concat id (pickleEach params)
    some (.u4 TreeTag.block.code :: (pickleLocOffsets loc ++ (size params :: (first ++ rest))))
  | .literal loc value => do
    let type ← pickleType value
    some (.u4 TreeTag.literal.code :: (pickleLocOffsets loc ++ type))
  | .while_ loc cond body => do
    let first ← pickleExpr cond
    let second ← pickleExpr body
    some (.u4 TreeTag.while_.code :: (pickleLocOffsets loc ++ (first ++ second)))
  | .return_ loc expr => do
    let only ← pickleExpr expr
    some (.u4 TreeTag.return_.code :: (pickleLocOffsets loc ++ only))
  | .if_ loc cond thenp elsep => do
    let first ← pickleExpr cond
    let second ← pickleExpr thenp
    let third ← pickleExpr elsep
    some (.u4 TreeTag.if_.code :: (pickleLocOffsets loc ++ (first ++ (second ++ third))))
  | .unresolvedConstantLit loc cnst scope => do
    let only ← pickleExpr scope
    some (.u4 TreeTag.unresolvedConstantLit.code :: (pickleLocOffsets loc ++ (.u4 cnst :: only)))
  | .local_ loc name unique => some (.u4 TreeTag.local_.code :: (pickleLocOffsets loc ++ [.u4 name,.u4 unique]))
  | .assign loc lhs rhs => do
    let first ← pickleExpr lhs
    let second ← pickleExpr rhs
    some (.u4 TreeTag.assign.code :: (pickleLocOffsets loc ++ (first ++ second)))
  | .insSeq loc stats expr => do
    let first ← pickleExpr expr
    let rest ← concat id (pickleEach stats)
    some (.u4 TreeTag.insSeq.code :: (pickleLocOffsets loc ++ (size stats :: (first ++ rest))))
  | .next loc expr => do
    let only ← pickleExpr expr
    some (.u4 TreeTag.next.code :: (pickleLocOffsets loc ++ only))
  | .break_ loc expr => do
    let only ← pickleExpr expr
    some (.u4 TreeTag.break_.code :: (pickleLocOffsets loc ++ only))
  | .retry loc => some (.u4 TreeTag.retry.code :: pickleLocOffsets loc)
  | .hash loc keys values => do
    let first ← concat id (pickleEach values)
    let second ← concat id (pickleEach keys)
    some (.u4 TreeTag.hash.code :: (pickleLocOffsets loc ++ (size values :: (first ++ second))))
  | .array loc elems => do
    let all ← concat id (pickleEach elems)
    some (.u4 TreeTag.array.code :: (pickleLocOffsets loc ++ (size elems :: all)))
  | .cast loc cast type arg typeExpr => do
    let first ← pickleType type
    let second ← pickleExpr arg
    let third ← pickleExpr typeExpr
    some (.u4 TreeTag.cast.code :: (pickleLocOffsets loc ++ (.u4 cast :: (first ++ (second ++ third)))))
  | .emptyTree => some [.u4 TreeTag.emptyTree.code]
  | .classDef loc declLoc kind symbol name ancestors singletonAncestors rhs => do
    let first ← pickleExpr name
    let second ← concat id (pickleEach ancestors)
    let third ← concat id (pickleEach singletonAncestors)
    let fourth ← concat id (pickleEach rhs)
    some (.u4 TreeTag.classDef.code :: (pickleLocOffsets loc ++ (pickleLocOffsets declLoc ++ (.u1 kind.byte :: .u4 symbol ::
      size ancestors :: size singletonAncestors :: size rhs :: (first ++ (second ++ (third ++ fourth)))))))
  | .methodDef loc declLoc nameLoc flags name symbol rhs params => do
    let first ← pickleExpr rhs
    let rest ← concat id (pickleEach params)
    some (.u4 TreeTag.methodDef.code :: (pickleLocOffsets loc ++ (pickleLocOffsets declLoc ++ (pickleLocOffsets nameLoc ++
      (flags.put :: .u4 name :: .u4 symbol :: size params :: (first ++ rest))))))
  | .rescue loc body rescueCases else_ ensure => do
    let first ← pickleExpr ensure
    let second ← pickleExpr else_
    let third ← pickleExpr body
    let rest ← concat id (pickleEach rescueCases)
    some (.u4 TreeTag.rescue.code :: (pickleLocOffsets loc ++ (size rescueCases :: (first ++ (second ++ (third ++ rest))))))
  | .rescueCase loc exceptions var body => do
    let first ← pickleExpr var
    let second ← pickleExpr body
    let rest ← concat id (pickleEach exceptions)
    some (.u4 TreeTag.rescueCase.code :: (pickleLocOffsets loc ++ (size exceptions :: (first ++ (second ++ rest)))))
  | .restParam loc expr => do
    let only ← pickleExpr expr
    some (.u4 TreeTag.restParam.code :: (pickleLocOffsets loc ++ only))
  | .keywordArg loc expr => do
    let only ← pickleExpr expr
    some (.u4 TreeTag.keywordArg.code :: (pickleLocOffsets loc ++ only))
  | .shadowArg loc expr => do
    let only ← pickleExpr expr
    some (.u4 TreeTag.shadowArg.code :: (pickleLocOffsets loc ++ only))
  | .blockParam loc expr => do
    let only ← pickleExpr expr
    some (.u4 TreeTag.blockParam.code :: (pickleLocOffsets loc ++ only))
  | .optionalParam loc expr default_ => do
    let first ← pickleExpr expr
    let second ← pickleExpr default_
    some (.u4 TreeTag.optionalParam.code :: (pickleLocOffsets loc ++ (first ++ second)))
  | .zSuperArgs loc => some (.u4 TreeTag.zSuperArgs.code :: pickleLocOffsets loc)
  | .unresolvedIdent loc kind name =>
    some (.u4 TreeTag.unresolvedIdent.code :: (pickleLocOffsets loc ++ [.u1 kind.byte,.u4 name]))
  | .knownSymbol loc symbol => some (.u4 TreeTag.constantLit.code :: (pickleLocOffsets loc ++ [.u4 symbol,.u4 0]))
  | .resolvedSymbol symbol loc cnst scope => do
    let only ← pickleExpr scope
    some (.u4 TreeTag.constantLit.code :: (pickleLocOffsets loc ++ (.u4 symbol :: .u4 TreeTag.unresolvedConstantLit.code ::
      (pickleLocOffsets loc ++ (.u4 cnst :: only)))))
  | .failedResolutionSymbol .. => none
  | .runtimeMethodDefinition loc name isSelfMethod =>
    some (.u4 TreeTag.runtimeMethodDefinition.code :: (pickleLocOffsets loc ++ [.u4 name,.u1 (boolByte isSelfMethod)]))
  | .self loc => some (.u4 TreeTag.self.code :: pickleLocOffsets loc)
def pickleEach : List ExpressionPtr → List (Option (List Put))
  | [] => []
  | e :: exprs => pickleExpr e :: pickleEach exprs
end

end Pickling

section Unpickling
variable (blkArg : UInt32) (depth : Nat) (unpickle : Reader ExpressionPtr)

structure UnresolvedConstantLit where
  loc : LocOffsets
  cnst : UInt32
  scope : ExpressionPtr

def unpickleUnresolvedConstantLit : Reader UnresolvedConstantLit := do
  let loc ← unpickleLocOffsets
  let cnst ← .u4
  let scope ← unpickle
  pure ⟨loc,cnst,scope⟩

-- The nodes with a location and one tree below.
def unpickleOne (make : LocOffsets → ExpressionPtr → ExpressionPtr) : Reader ExpressionPtr := do
  let loc ← unpickleLocOffsets
  let expr ← unpickle
  pure (make loc expr)

-- The cases of unpickleExpr, with the recursive call as an argument.
def unpickleExprOf : TreeTag → Reader ExpressionPtr
  | .send => do
    let loc ← unpickleLocOffsets
    let name ← .u4
    let funLoc ← unpickleLocOffsets
    let flagsU1 ← .u1
    let numPosArgs ← .u4
    let argsSize ← .u4
    let recv ← unpickle
    let args ← unpickle.times argsSize.toNat
    pure (.send loc name funLoc (.ofBits flagsU1.toNat.testBit) numPosArgs.toUInt16 recv args)
  | .block => do
    let loc ← unpickleLocOffsets
    let paramsSize ← .u4
    let body ← unpickle
    let params ← unpickle.times paramsSize.toNat
    pure (.block loc params body)
  | .literal => do
    let loc ← unpickleLocOffsets
    let tpe ← unpickleType depth
    pure (.literal loc tpe)
  | .while_ => do
    let loc ← unpickleLocOffsets
    let cond ← unpickle
    let body ← unpickle
    pure (.while_ loc cond body)
  | .return_ => unpickleOne unpickle .return_
  | .if_ => do
    let loc ← unpickleLocOffsets
    let cond ← unpickle
    let thenp ← unpickle
    let elsep ← unpickle
    pure (.if_ loc cond thenp elsep)
  | .unresolvedConstantLit => do
    let lit ← unpickleUnresolvedConstantLit unpickle
    pure (.unresolvedConstantLit lit.loc lit.cnst lit.scope)
  | .local_ => do
    let loc ← unpickleLocOffsets
    let name ← .u4
    let unique ← .u4
    pure (.local_ loc name unique)
  | .assign => do
    let loc ← unpickleLocOffsets
    let lhs ← unpickle
    let rhs ← unpickle
    pure (mkAssign loc lhs rhs)
  | .insSeq => do
    let loc ← unpickleLocOffsets
    let insSize ← .u4
    let expr ← unpickle
    let stats ← unpickle.times insSize.toNat
    pure (mkInsSeq loc stats expr)
  | .next => unpickleOne unpickle .next
  | .break_ => unpickleOne unpickle .break_
  | .retry => do
    let loc ← unpickleLocOffsets
    pure (.retry loc)
  | .hash => do
    let loc ← unpickleLocOffsets
    let sz ← .u4
    let values ← unpickle.times sz.toNat
    let keys ← unpickle.times sz.toNat
    pure (.hash loc keys values)
  | .array => do
    let loc ← unpickleLocOffsets
    let sz ← .u4
    let elems ← unpickle.times sz.toNat
    pure (.array loc elems)
  | .cast => do
    let loc ← unpickleLocOffsets
    let kind ← .u4
    let type ← unpickleType depth
    let arg ← unpickle
    let typeExpr ← unpickle
    pure (.cast loc kind type arg typeExpr)
  | .emptyTree => pure .emptyTree
  | .classDef => do
    let loc ← unpickleLocOffsets
    let declLoc ← unpickleLocOffsets
    let kind ← .u1
    let symbol ← .u4
    let ancestorsSize ← .u4
    let singletonAncestorsSize ← .u4
    let rhsSize ← .u4
    let name ← unpickle
    let ancestors ← unpickle.times ancestorsSize.toNat
    let singletonAncestors ← unpickle.times singletonAncestorsSize.toNat
    let rhs ← unpickle.times rhsSize.toNat
    let kind ← .ofOption (ClassDefKind.ofByte kind)
    pure (.classDef loc declLoc kind symbol name ancestors singletonAncestors rhs)
  | .methodDef => do
    let loc ← unpickleLocOffsets
    let declLoc ← unpickleLocOffsets
    let nameLoc ← unpickleLocOffsets
    let flagsU1 ← .u1
    let name ← .u4
    let symbol ← .u4
    let argsSize ← .u4
    let rhs ← unpickle
    let params ← unpickle.times argsSize.toNat
    pure (.methodDef loc declLoc nameLoc (.ofBits flagsU1.toNat.testBit) name symbol rhs (withBlockParam blkArg params))
  | .rescue => do
    let loc ← unpickleLocOffsets
    let rescueCasesSize ← .u4
    let ensure ← unpickle
    let else_ ← unpickle
    let body_ ← unpickle
    let cases_ ← unpickle.times rescueCasesSize.toNat
    pure (.rescue loc body_ cases_ else_ ensure)
  | .rescueCase => do
    let loc ← unpickleLocOffsets
    let exceptionsSize ← .u4
    let var ← unpickle
    let body ← unpickle
    let exceptions ← unpickle.times exceptionsSize.toNat
    pure (.rescueCase loc exceptions var body)
  | .restParam => unpickleOne unpickle .restParam
  | .keywordArg => unpickleOne unpickle .keywordArg
  | .shadowArg => unpickleOne unpickle .shadowArg
  | .blockParam => unpickleOne unpickle .blockParam
  | .optionalParam => do
    let loc ← unpickleLocOffsets
    let ref ← unpickle
    let default_ ← unpickle
    pure (.optionalParam loc ref default_)
  | .zSuperArgs => do
    let loc ← unpickleLocOffsets
    pure (.zSuperArgs loc)
  | .unresolvedIdent => do
    let loc ← unpickleLocOffsets
    let kind ← .u1
    let name ← .u4
    let kind ← .ofOption (IdentKind.ofByte kind)
    pure (.unresolvedIdent loc kind name)
  | .constantLit => do
    let loc ← unpickleLocOffsets
    let sym ← .u4
    let litTag ← .u4
    if litTag = TreeTag.unresolvedConstantLit.code then do
      let orig ← unpickleUnresolvedConstantLit unpickle
      pure (.resolvedSymbol sym orig.loc orig.cnst orig.scope)
    else if litTag = 0 then pure (.knownSymbol loc sym) else .fail
  | .runtimeMethodDefinition => do
    let loc ← unpickleLocOffsets
    let name ← .u4
    let isSelfMethod ← .u1
    pure (.runtimeMethodDefinition loc name (byteBool isSelfMethod))
  | .self => do
    let loc ← unpickleLocOffsets
    pure (.self loc)

-- A depth of the tree that was written is enough for the recursion.
def unpickleExpr : Nat → Reader ExpressionPtr
  | 0 => .fail
  | depth + 1 => do
    let kind ← .u4
    if kind = 0 then pure .null else do
    let kind ← .ofOption (TreeTag.ofCode kind)
    unpickleExprOf blkArg depth (unpickleExpr depth) kind

end Unpickling

end Serialize
