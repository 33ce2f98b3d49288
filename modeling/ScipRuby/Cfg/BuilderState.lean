import ScipRuby.Serialize.Tree

namespace CFGBuilder
open Serialize (LocOffsets TypePtr ParamFlags noLoc)

abbrev NameRef := UInt32
abbrev SymbolRef := UInt32
abbrev BlockId := Nat
abbrev LinkRef := Nat

section Locations

def copyWithZeroLength (loc : LocOffsets) : LocOffsets := ⟨loc.beginLoc,loc.beginLoc⟩
def copyEndWithZeroLength (loc : LocOffsets) : LocOffsets := ⟨loc.endLoc,loc.endLoc⟩

def exists_ (loc : LocOffsets) : Bool :=
  loc.endLoc ≠ noLoc.endLoc ∧ loc.beginLoc ≠ noLoc.beginLoc

-- Loc::adjust and Loc::adjustLen in a file of the given length.
def adjust (fileLength : Nat) (loc : LocOffsets) (beginAdjust endAdjust : Int) : LocOffsets :=
  let first : Int := loc.beginLoc.toNat + beginAdjust
  let last : Int := loc.endLoc.toNat + endAdjust
  if ¬ exists_ loc ∨ first < 0 ∨ first > last ∨ last > fileLength then noLoc
  else ⟨UInt32.ofNat first.toNat,UInt32.ofNat last.toNat⟩

def adjustLen (fileLength : Nat) (loc : LocOffsets) (beginAdjust len : Int) : LocOffsets :=
  let first : Int := loc.beginLoc.toNat + beginAdjust
  if ¬ exists_ loc ∨ first < 0 ∨ first + len > fileLength then noLoc
  else ⟨UInt32.ofNat first.toNat,UInt32.ofNat (first + len).toNat⟩

-- Loc::source
def sourceAt (file : List UInt8) (loc : LocOffsets) : Option (List UInt8) :=
  if exists_ loc then some ((file.drop loc.beginLoc.toNat).take (loc.endLoc - loc.beginLoc).toNat) else none

end Locations

section Instructions

structure LocalVariable where
  name : NameRef
  unique : Nat
  deriving DecidableEq,Repr,Inhabited

-- A LocalRef is the place of a variable in localVariables. Each variable has one, so that the variable stands for it.
abbrev LocalRef := LocalVariable

def LocalVariable.exists_ (v : LocalVariable) : Bool := v.name ≠ 0

structure LocalOccurrence where
  variable_ : LocalRef
  loc : LocOffsets
  deriving DecidableEq,Repr

def LocalOccurrence.synthetic (v : LocalRef) : LocalOccurrence := ⟨v,noLoc⟩

structure SendInsn where
  isPrivateOk : Bool
  numPosArgs : Nat
  fun_ : NameRef
  recv : LocalRef
  funLoc : LocOffsets
  receiverLoc : LocOffsets
  link : LinkRef
  argRefs : List LocalRef
  argLocs : List LocOffsets

inductive Instruction where
  | ident (what : LocalRef)
  | alias (what : SymbolRef) (name : NameRef)
  | solveConstraint (link : LinkRef) (send : LocalRef)
  | send (snd : SendInsn)
  | return_ (what : LocalRef) (whatLoc : LocOffsets)
  | blockReturn (link : LinkRef) (what : LocalOccurrence)
  | loadSelf (link : LinkRef) (fallback : LocalRef)
  | literal (value : TypePtr)
  | getCurrentException
  | loadArg (method : SymbolRef) (argId : UInt16)
  | argPresent (method : SymbolRef) (argId : UInt16)
  | loadYieldParams (link : LinkRef)
  | yieldParamPresent (argId : UInt16)
  | yieldLoadArg (argId : UInt16) (flags : ParamFlags) (yieldParam : LocalOccurrence)
  | cast (value : LocalRef) (valueLoc : LocOffsets) (type : TypePtr) (cast : NameRef)
  | tAbsurd (what : LocalRef)
  | keepAlive (what : LocalRef)

structure Binding where
  bind : LocalOccurrence
  loc : LocOffsets
  value : Instruction
  isSynthetic : Bool := false

-- Send::make and asInsnPtr, with the arguments that were written in between. None is a failed ENFORCE.
def SendInsn.make (recv : LocalRef) (receiverLoc : LocOffsets) (fun_ : NameRef) (funLoc : LocOffsets) (numPosArgs : Nat)
    (isPrivateOk : Bool) (numArgs : Nat) (args : List (LocalRef × LocOffsets)) : Option SendInsn :=
  if numPosArgs ≤ numArgs ∧ args.length = numArgs then
    some ⟨isPrivateOk,numPosArgs,fun_,recv,funLoc,receiverLoc,0,args.map (·.1),args.map (·.2)⟩
  else none

end Instructions

section Blocks

structure BlockExit where
  cond : LocalOccurrence
  thenb : BlockId
  elseb : BlockId
  loc : LocOffsets

structure BasicBlock where
  wasJumpDestination : Bool := false
  outerLoops : Int
  exprs : List Binding := []
  -- none until the condition and both successors are set
  bexit : Option BlockExit := none
  backEdges : List BlockId := []

structure SendAndBlockLink where
  fun_ : NameRef
  loc : LocOffsets
  paramFlags : List ParamFlags

inductive Problem where
  | noNextScope
  | undeclaredVariable
  | malformedTAbsurd
  | malformedTBind
  | unknownTypeParameter
  | abstractClassInstantiated
  deriving DecidableEq,Repr

-- An error that was begun: its header, its further lines and its notes.
structure ErrorReport where
  loc : LocOffsets
  what : Problem
  header : String
  lines : List (Serialize.Loc × String) := []
  notes : List String := []

-- The CFG under construction, and what CFGContext refers to: the aliases, the undeclared fields and the counter.
-- A block is named by its place in basicBlocks.
structure State where
  basicBlocks : List BasicBlock
  localVariables : List LocalVariable
  minLoops : LocalRef → Int
  links : List (Option SendAndBlockLink)
  aliases : List (SymbolRef × LocalOccurrence)
  discoveredUndeclaredFields : List (NameRef × LocalOccurrence)
  temporaryCounter : Nat
  errors : List ErrorReport

-- The first two blocks.
def entry : BlockId := 0
def deadBlock : BlockId := 1

abbrev Build := StateT State Option

end Blocks

section Names

-- The names of core::Names that the builder uses.
structure Names where
  blockCall : NameRef
  selfLocal : NameRef
  unconditional : NameRef
  finalReturn : NameRef
  statTemp : NameRef
  ifTemp : NameRef
  whileTemp : NameRef
  returnTemp : NameRef
  returnMethodTemp : NameRef
  nextTemp : NameRef
  hashTemp : NameRef
  arrayTemp : NameRef
  castTemp : NameRef
  cfgAlias : NameRef
  keepForIde : NameRef
  keepForCfgTemp : NameRef
  exceptionValue : NameRef
  exceptionClassTemp : NameRef
  isaCheckTemp : NameRef
  gotoDeadTemp : NameRef
  throwAwayTemp : NameRef
  blockBreakAssign : NameRef
  blockBreak : NameRef
  blockPreCallTemp : NameRef
  blockReturnTemp : NameRef
  selfRestore : NameRef
  blkArg : NameRef
  argPresent : NameRef
  retryTemp : NameRef
  magic : NameRef
  tripleEq : NameRef
  buildHash : NameRef
  buildArray : NameRef
  retry : NameRef
  absurd : NameRef
  typeParameter : NameRef
  new_ : NameRef
  lambda : NameRef
  lambdaTLet : NameRef
  unsafe_ : NameRef
  suggestFieldType : NameRef
  let_ : NameRef
  uncheckedLet : NameRef
  bind : NameRef
  syntheticBind : NameRef
  cast : NameRef
  ivarNameMissing : NameRef
  cvarNameMissing : NameRef
  class_ : NameRef
  instance_ : NameRef
  singletonClassInstance : NameRef
  ifTemp_exists : ifTemp ≠ 0
  whileTemp_exists : whileTemp ≠ 0
  blockCall_exists : blockCall ≠ 0
  argPresent_exists : argPresent ≠ 0
  exceptionValue_exists : exceptionValue ≠ 0
  isaCheckTemp_exists : isaCheckTemp ≠ 0
  gotoDeadTemp_exists : gotoDeadTemp ≠ 0
  unconditional_exists : unconditional ≠ 0
  blockCall_apart : blockCall ≠ unconditional
  unsafe_apart : unsafe_ ≠ absurd ∧ unsafe_ ≠ typeParameter

-- The symbols of core::Symbols that the builder uses.
structure Symbols where
  stubModule : SymbolRef
  t : SymbolRef
  kernel : SymbolRef
  magic : SymbolRef
  class_ : SymbolRef
  root : SymbolRef
  untyped : SymbolRef
  standardError : SymbolRef
  undeclaredFieldStub : SymbolRef
  nilClass : SymbolRef
  trueClass : SymbolRef

-- What the builder asks of core::Context: the names and symbols, the owner, the method and the file, and the symbol
-- table as far as it is read.
structure Context where
  names : Names
  symbols : Symbols
  file : UInt32
  source : List UInt8
  show_ : NameRef → String
  showLiteral : TypePtr → String
  showSymbol : SymbolRef → String
  symbolLoc : SymbolRef → Serialize.Loc
  symbolName : SymbolRef → NameRef
  isFieldOrStaticField : SymbolRef → Bool
  isTypeMember : SymbolRef → Bool
  -- 0 where there is none
  findMemberTransitive : SymbolRef → NameRef → SymbolRef
  isAbstractClass : SymbolRef → Bool
  -- the owner of the method new of the singleton class, where there is such a class
  newOwner : SymbolRef → Option SymbolRef
  ownerIsMethod : Bool
  ownerName : NameRef
  -- the enclosing class without its singletons, and the owner of the owner
  attachedClass : SymbolRef
  instanceClass : SymbolRef
  isSingletonClass : SymbolRef → Bool
  shouldReportErrorOn : Bool
  -- the method that the graph is built for
  symbol : SymbolRef
  isGenericMethod : Bool
  isAnyStaticInitName : Bool
  lookupTypeVarName : NameRef → Option NameRef
  typeParameters : List (NameRef × SymbolRef)

end Names

variable (ctx : Context)

def selfVariable : LocalRef := ⟨ctx.names.selfLocal,0⟩
def blockCall : LocalRef := ⟨ctx.names.blockCall,0⟩
def unconditional : LocalRef := ⟨ctx.names.unconditional,0⟩
def finalReturn : LocalRef := ⟨ctx.names.finalReturn,0⟩

section Operations

def modifyBlock (b : BlockId) (f : BasicBlock → BasicBlock) : Build Unit :=
  modify fun s => {s with basicBlocks := s.basicBlocks.modify b f}

def freshBlock (outerLoops : Int) : Build BlockId := do
  let id := (← get).basicBlocks.length
  modify fun s => {s with basicBlocks := s.basicBlocks ++ [{outerLoops}]}
  pure id

def noVariable : LocalRef := ⟨0,0⟩

def enterLocal (v : LocalVariable) : Build LocalRef :=
  if ¬ v.exists_ then pure noVariable
  else do
    modify fun s => if v ∈ s.localVariables then s else {s with localVariables := s.localVariables ++ [v]}
    pure v

def newTemporary (name : NameRef) : Build LocalRef := do
  modify fun s => {s with temporaryCounter := s.temporaryCounter + 1}
  enterLocal ⟨name,(← get).temporaryCounter⟩

def newTemporaryOccurrence (name : NameRef) : Build LocalOccurrence := .synthetic <$> newTemporary name

def enterLink (fun_ : NameRef) (loc : LocOffsets) (paramFlags : List ParamFlags) : Build LinkRef := do
  let id := (← get).links.length
  modify fun s => {s with links := s.links ++ [some ⟨fun_,loc,paramFlags⟩]}
  pure id

def setMinLoops (v : LocalRef) (loops : Int) : Build Unit :=
  modify fun s => {s with minLoops := Function.update s.minLoops v loops}

def report (error : ErrorReport) : Build Unit := modify fun s => {s with errors := s.errors ++ [error]}

def emplace (b : BlockId) (binding : Binding) : Build Unit :=
  modifyBlock b fun block => {block with exprs := block.exprs ++ [binding]}

def emplaceBack (b : BlockId) (bind : LocalOccurrence) (loc : LocOffsets) (value : Instruction) : Build Unit :=
  emplace b ⟨bind,loc,value,false⟩

def synthesizeExpr (b : BlockId) (bind : LocalOccurrence) (loc : LocOffsets) (value : Instruction) : Build Unit :=
  emplace b ⟨bind,loc,value,true⟩

def ensure (holds : Prop) [Decidable holds] : Build Unit := if holds then pure () else failure

def setWasJumpDestination (b : BlockId) : Build Unit := modifyBlock b fun block => {block with wasJumpDestination := true}
def addBackEdge (b from_ : BlockId) : Build Unit :=
  modifyBlock b fun block => {block with backEdges := block.backEdges ++ [from_]}

def setExit (from_ : BlockId) (exit : BlockExit) : Build Unit := do
  let s ← get
  ensure (s.basicBlocks[from_]?.any (·.bexit.isNone))
  modifyBlock from_ fun block => {block with bexit := some exit}

def conditionalJump (from_ : BlockId) (cond : LocalRef) (thenb elseb : BlockId) (loc : LocOffsets) : Build Unit := do
  setWasJumpDestination thenb
  setWasJumpDestination elseb
  if from_ ≠ deadBlock then do
    setExit from_ ⟨.synthetic cond,thenb,elseb,loc⟩
    addBackEdge thenb from_
    addBackEdge elseb from_
  else pure ()

def unconditionalJump (from_ to_ : BlockId) (loc : LocOffsets) : Build Unit := do
  setWasJumpDestination to_
  if from_ ≠ deadBlock then do
    setExit from_ ⟨.synthetic (unconditional ctx),to_,to_,loc⟩
    addBackEdge to_ from_
  else pure ()

def jumpToDead (from_ : BlockId) (loc : LocOffsets) : Build Unit :=
  if from_ ≠ deadBlock then do
    setExit from_ ⟨.synthetic (unconditional ctx),deadBlock,deadBlock,loc⟩
    addBackEdge deadBlock from_
  else pure ()

def joinBlocks (loops : Int) (a b : BlockId) : Build BlockId := do
  let join ← freshBlock loops
  unconditionalJump ctx a join noLoc
  unconditionalJump ctx b join noLoc
  pure join

end Operations

open Serialize (ExpressionPtr IdentKind LiteralKind)

section Trees

-- ExpressionPtr::loc; a failed ENFORCE for the null pointer.
def locOf : ExpressionPtr → LocOffsets
  | .null | .emptyTree => noLoc
  | .send loc .. | .classDef loc .. | .methodDef loc .. | .if_ loc .. | .while_ loc .. | .break_ loc .. | .retry loc
  | .next loc .. | .return_ loc .. | .rescueCase loc .. | .rescue loc .. | .local_ loc .. | .unresolvedIdent loc ..
  | .restParam loc .. | .keywordArg loc .. | .optionalParam loc .. | .blockParam loc .. | .shadowArg loc .. | .assign loc ..
  | .cast loc .. | .hash loc .. | .array loc .. | .literal loc .. | .unresolvedConstantLit loc .. | .zSuperArgs loc
  | .block loc .. | .insSeq loc .. | .runtimeMethodDefinition loc .. | .self loc | .knownSymbol loc ..
  | .failedResolutionSymbol loc .. => loc
  | .resolvedSymbol _ loc .. => loc

def isEmptyTree : ExpressionPtr → Bool
  | .emptyTree => true
  | _ => false

def isSelfReference : ExpressionPtr → Bool
  | .self _ => true
  | _ => false

-- ConstantLit::symbol, for constants only.
def constantSymbol (stubModule : SymbolRef) : ExpressionPtr → Option SymbolRef
  | .knownSymbol _ symbol | .resolvedSymbol symbol .. => some symbol
  | .failedResolutionSymbol .. => some stubModule
  | _ => none

structure ParsedParam where
  loc : LocOffsets
  local_ : LocalVariable
  flags : ParamFlags

def noFlags : ParamFlags := ⟨false,false,false,false,false⟩

-- ParamParsing::parseParam; none is a failed ENFORCE.
def parseParam : ExpressionPtr → Option ParsedParam
  | .restParam _ expr => (parseParam expr).map fun p => {p with flags := {p.flags with isRepeated := true}}
  | .keywordArg _ expr => (parseParam expr).map fun p => {p with flags := {p.flags with isKeyword := true}}
  | .optionalParam _ expr _ => (parseParam expr).map fun p => {p with flags := {p.flags with isDefault := true}}
  | .blockParam _ expr => (parseParam expr).map fun p => {p with flags := {p.flags with isBlock := true}}
  | .shadowArg _ expr => (parseParam expr).map fun p => {p with flags := {p.flags with isShadow := true}}
  | .local_ loc name unique => some ⟨loc,⟨name,unique.toNat⟩,noFlags⟩
  | _ => none

-- A subtree with what is made of it.
structure Sub (α : Type) where
  tree : ExpressionPtr
  sem : α

-- A block that is passed to a call, with the defaults of its parameters.
structure BlockSub (α : Type) where
  loc : LocOffsets
  params : List ExpressionPtr
  defaults : List (Option (Sub α))
  body : Sub α

structure CaseSub (α : Type) where
  loc : LocOffsets
  exceptions : List (Sub α)
  var : ExpressionPtr
  body : Sub α

-- The arguments of a Send, and its last one if it is a Block.
structure SendSub (α : Type) where
  loc : LocOffsets
  fun_ : NameRef
  funLoc : LocOffsets
  isPrivateOk : Bool
  hasBlock : Bool
  numPosArgs : UInt16
  recv : Sub α
  args : List (Sub α)
  lastBlock : Option (BlockSub α)

variable {α : Type}

def Sub.loc (sub : Sub α) : LocOffsets := locOf sub.tree

namespace SendSub
variable (s : SendSub α)

def trees : List ExpressionPtr := s.args.map (·.tree)
def numKwArgs : Nat := Serialize.numKwArgs s.numPosArgs s.hasBlock s.trees
def numNonBlockArgs : Nat := Serialize.numNonBlockArgs s.numPosArgs s.hasBlock s.trees
def hasKwSplat : Bool := Serialize.kwSplats s.numPosArgs s.hasBlock s.trees = 1
def hasKwArgs : Bool := s.args.length > s.numPosArgs.toNat + s.hasBlock.toNat

def posArgs : List (Sub α) := s.args.take s.numPosArgs.toNat
def kwArgPairs : List (Sub α) := (s.args.drop s.numPosArgs.toNat).take (s.numKwArgs * 2)
def kwSplat : Option (Sub α) := if s.hasKwSplat then s.args[s.args.length - 1 - s.hasBlock.toNat]? else none

end SendSub

def interleave : List (Sub α) → List (Sub α) → List (Sub α)
  | key :: keys,val :: vals => key :: val :: interleave keys vals
  | _,_ => []

-- The scope of the original constant, if it has one that is kept for the IDE.
def keptScope (scope : ExpressionPtr) (sem : α) : Option α :=
  match scope with
  | .knownSymbol .. | .resolvedSymbol .. | .failedResolutionSymbol .. | .send .. => some sem
  | _ => none

def isVariable : ExpressionPtr → Bool
  | .local_ .. | .unresolvedIdent .. | .self _ => true
  | _ => false

end Trees

section Questions
variable {α : Type} (ctx : Context)

-- The symbols whose locals are kept track of over loops.
def isPinned (what : SymbolRef) : Bool := ctx.isFieldOrStaticField what || ctx.isTypeMember what

def sendRecvIsT (s : SendSub α) : Bool := constantSymbol ctx.symbols.stubModule s.recv.tree = some ctx.symbols.t

def isKernelLambda (s : SendSub α) : Bool :=
  (s.fun_ = ctx.names.lambda ∨ s.fun_ = ctx.names.lambdaTLet) ∧
    constantSymbol ctx.symbols.stubModule s.recv.tree = some ctx.symbols.kernel

def isLambdaTLet : ExpressionPtr → Bool
  | .send _ fun_ _ _ _ recv _ =>
    constantSymbol ctx.symbols.stubModule recv = some ctx.symbols.kernel ∧ fun_ = ctx.names.lambdaTLet
  | _ => false

-- The symbol that a literal names.
def literalSymbol : ExpressionPtr → Option NameRef
  | .literal _ (.namedLiteralType .symbol name) => some name
  | _ => none

def definedHere : Serialize.Loc × String :=
  (ctx.symbolLoc ctx.symbol,"`" ++ ctx.showSymbol ctx.symbol ++ "` defined here")

def unknownTypeParameter (literal : ExpressionPtr) : ErrorReport where
  loc := locOf literal
  what := .unknownTypeParameter
  header := "Type parameter `" ++ (match literal with
    | .literal _ value => ctx.showLiteral value
    | _ => "") ++ "` does not exist on `" ++ ctx.showSymbol ctx.symbol ++ "`"
  lines := [definedHere ctx]

def noTypeParameters (loc : LocOffsets) : ErrorReport where
  loc := loc
  what := .unknownTypeParameter
  header := "Method `" ++ ctx.showSymbol ctx.symbol ++ "` does not declare any type parameters"
  lines := [definedHere ctx]

-- maybeMakeTypeParameterAlias: the parameter that is meant, and what is reported.
def typeParameterAlias (s : SendSub α) : Option SymbolRef × List ErrorReport :=
  if ¬ ctx.isGenericMethod then (none,if ctx.isAnyStaticInitName then [] else [noTypeParameters ctx s.loc])
  else match s.posArgs with
    | [namedLiteral] =>
      match literalSymbol namedLiteral.tree with
      | none => (none,[])
      | some name =>
        match ctx.lookupTypeVarName name with
        | none => (none,[unknownTypeParameter ctx namedLiteral.tree])
        | some typeVarName =>
          -- the last one of that name
          match (ctx.typeParameters.filter (·.1 = typeVarName)).getLast? with
          | none => (none,[unknownTypeParameter ctx namedLiteral.tree])
          | some typeParam => (some typeParam.2,[])
    | _ => (none,[])

end Questions

end CFGBuilder
