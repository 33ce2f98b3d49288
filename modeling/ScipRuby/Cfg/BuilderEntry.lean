import ScipRuby.Cfg.BuilderWalk
import ScipRuby.Cfg.TopoSort

namespace CFGBuilder
open Serialize (LocOffsets TypePtr ParamFlags ExpressionPtr noLoc)

section Methods

structure ParamInfo where
  flags : ParamFlags
  type : Option TypePtr

-- The method that a graph is built for, with what is asked of its symbol. 0 stands for no rebind.
structure Method where
  loc : LocOffsets
  declLoc : LocOffsets
  symbol : SymbolRef
  rebind : SymbolRef
  owner : SymbolRef
  selfType : SymbolRef → TypePtr
  parameters : List ParamInfo
  isAbstract : Bool
  isSCIPRuby : Bool

-- CFG::CFG
def emptyCFG (ctx : Context) : State where
  basicBlocks := [{outerLoops := 0},
    {outerLoops := 0,bexit := some ⟨.synthetic (unconditional ctx),deadBlock,deadBlock,noLoc⟩}]
  localVariables := [noVariable,blockCall ctx,selfVariable ctx,unconditional ctx,finalReturn ctx]
  minLoops := fun _ => Cfg.INT_MAX
  links := [none]
  aliases := []
  discoveredUndeclaredFields := []
  temporaryCounter := 1
  errors := []

-- The context that a method starts in.
def methodContext : CFGContext where
  target := .synthetic noVariable
  blockBreakTarget := noVariable
  loops := 0
  isInsideRubyBlock := false
  isInsideLambda := false
  breakIsJump := false
  nextScope := none
  breakScope := none
  rescueScope := none
  link := 0

-- MK::arg2Local; none is unreachable there.
def arg2Local : ExpressionPtr → Option (LocOffsets × LocalVariable)
  | .restParam _ expr | .keywordArg _ expr | .optionalParam _ expr _ | .blockParam _ expr | .shadowArg _ expr => arg2Local expr
  | .local_ loc name unique => some (loc,⟨name,unique.toNat⟩)
  | _ => none

def shouldBuildFor : ExpressionPtr → Bool
  | .methodDef .. | .classDef .. | .emptyTree => false
  | .assign _ (.unresolvedConstantLit ..) _ => false
  | _ => true

end Methods

variable (ctx : Context)

section Params

def fallThrough (defaultCont : Option BlockId) (defaultNext : BlockId) : Build Unit :=
  match defaultCont with
  | some defaultCont => unconditionalJump ctx defaultCont defaultNext noLoc
  | none => pure ()

-- The type of the default is checked, but the result of the cast is not used.
def checkDefault (type : Option TypePtr) (result : LocalRef) (loc : LocOffsets) (defaultNext : BlockId) : Build Unit :=
  match type with
  | some type => do
    let tmp ← newTemporary ctx.names.castTemp
    synthesizeExpr defaultNext (.synthetic tmp) loc (.cast result loc type ctx.names.let_)
    setMinLoops tmp MIN_LOOP_LET
  | none => pure ()

-- The default of a parameter is computed where it is not given, and where no earlier one of its row is.
def walkDefault (method : Method) (cctx : CFGContext) (paramIndex : UInt16) (paramInfo : ParamInfo) (paramLoc : LocOffsets)
    (def_ : Sub Walk) (presentCont : BlockId) (defaultCont : Option BlockId) : Build (LocalRef × BlockId × BlockId) := do
  let presentNext ← freshBlock cctx.loops
  let defaultNext ← freshBlock cctx.loops
  let present ← newTemporary ctx.names.argPresent
  synthesizeExpr presentCont (.synthetic present) paramLoc (.argPresent method.symbol paramIndex)
  conditionalJump presentCont present presentNext defaultNext paramLoc
  fallThrough ctx defaultCont defaultNext
  let result ← newTemporary ctx.names.statTemp
  let defaultNext ← def_.sem (cctx.withTarget (.synthetic result)) defaultNext
  checkDefault ctx paramInfo.type result def_.loc defaultNext
  pure (result,presentNext,defaultNext)

-- Whether the parameter ends a row of optional ones.
def endsRow (seenKeyword : Bool) (flags : ParamFlags) : Bool :=
  seenKeyword || flags.isBlock || flags.isRepeated || !flags.isDefault

def joinRow (cctx : CFGContext) (presentCont : BlockId) (defaultCont : Option BlockId) : Build BlockId :=
  match defaultCont with
  | some defaultCont => joinBlocks ctx cctx.loops presentCont defaultCont
  | none => pure presentCont

-- If the parameter has a default: where it is present, and where it is not.
def walkOptional (method : Method) (cctx : CFGContext) (i : Nat) (paramInfo : ParamInfo) (local_ : LocalRef) (loc : LocOffsets)
    (default_ : Option (Sub Walk)) (presentCont : BlockId) (defaultCont : Option BlockId) :
    Build (BlockId × Option BlockId) :=
  match default_ with
  | some def_ => do
    let (result,presentNext,defaultNext) ←
      walkDefault ctx method cctx (UInt16.ofNat i) paramInfo loc def_ presentCont defaultCont
    synthesizeExpr defaultNext (.synthetic local_) loc (.ident result)
    pure (presentNext,some defaultNext)
  | none => pure (presentCont,defaultCont)

def walkParams (method : Method) (cctx : CFGContext) :
    List (Nat × ExpressionPtr × Option (Sub Walk)) → Bool → BlockId → Option BlockId → Build BlockId
  | [],_,presentCont,defaultCont => joinRow ctx cctx presentCont defaultCont
  | (i,paramExpr,default_) :: params,seenKeyword,presentCont,defaultCont =>
    match arg2Local paramExpr,method.parameters[i]? with
    | some (loc,variable_),some paramInfo => do
      let local_ ← enterLocal variable_
      let seenKeyword := seenKeyword || paramInfo.flags.isKeyword
      let ends := endsRow seenKeyword paramInfo.flags
      let presentCont ← joinRow ctx cctx presentCont (if ends then defaultCont else none)
      let defaultCont := if ends then none else defaultCont
      -- abstract methods do not have bodies and are not called
      let default_ := if method.isAbstract && !method.isSCIPRuby then none else default_
      let (presentCont,defaultCont) ← walkOptional ctx method cctx i paramInfo local_ loc default_ presentCont defaultCont
      synthesizeExpr presentCont (.synthetic local_) loc (.loadArg method.symbol (UInt16.ofNat i))
      walkParams method cctx params seenKeyword presentCont defaultCont
    | _,_ => failure

def methodParams (params : List ExpressionPtr) : List (Nat × ExpressionPtr × Option (Sub Walk)) :=
  (params.zip (defaults ctx params)).mapIdx fun i param => (i,param)

end Params

section Bodies

-- The statements of a class, or the body of a method.
def walkBody (stats : List ExpressionPtr) (expr : ExpressionPtr) (retSym : LocalOccurrence) : Walk := fun cctx cont =>
  match (stats.filter shouldBuildFor).getLast? with
  | some lastStat => do
    ensure (isEmptyTree expr = true)
    let cont ← walkStats ctx (subs ctx (stats.filter shouldBuildFor).dropLast) cctx cont
    walk ctx lastStat (cctx.withTarget retSym) cont
  | none => walk ctx expr (cctx.withTarget retSym) cont

-- Where a method returns that has no code at its end: at its end keyword, which is implicitReturnLoc then.
def implicitReturn (method : Method) : Build (LocOffsets × LocOffsets) := do
  ensure (exists_ method.loc = true)
  let beginAdjust := (method.loc.endLoc - method.loc.beginLoc - 3).toInt32.toInt
  let endLoc := adjust ctx.source.length method.loc beginAdjust 0
  if sourceAt ctx.source endLoc = some [101,110,100] then pure (endLoc,endLoc) else pure (method.loc,noLoc)

def returnLocs (method : Method) (exprs : List Binding) : Build (LocOffsets × LocOffsets) :=
  match exprs.getLast? with
  | none => implicitReturn ctx method
  | some last =>
    match last.value with
    | .loadArg .. => implicitReturn ctx method
    | _ => pure (last.loc,noLoc)

-- CFG::MIN_LOOP_FIELD
def MIN_LOOP_FIELD : Int := -1

def pinAlias (global : SymbolRef) (local_ : LocalOccurrence) : Build Unit :=
  if ctx.isFieldOrStaticField global then setMinLoops local_.variable_ MIN_LOOP_FIELD
  else ensure (ctx.isTypeMember global = true)

def pinAliases : List (SymbolRef × LocalOccurrence) → Build Unit
  | [] => pure ()
  | (global,local_) :: aliases => do
    pinAlias ctx global local_
    pinAliases aliases

def pinFields : List (NameRef × LocalOccurrence) → Build Unit
  | [] => pure ()
  | (_,local_) :: fields => do
    setMinLoops local_.variable_ MIN_LOOP_FIELD
    pinFields fields

-- LocalRef::id
def State.localId (s : State) (v : LocalRef) : Nat := s.localVariables.idxOf v

-- What the locals of globals and fields stand for.
def aliasesPrefix (s : State) : List Binding :=
  let globals := s.aliases.map fun (global,local_) => ⟨.synthetic local_.variable_,local_.loc,.alias global 0,false⟩
  let fields := s.discoveredUndeclaredFields.map fun (name,local_) =>
    ⟨.synthetic local_.variable_,local_.loc,.alias ctx.symbols.undeclaredFieldStub name,false⟩
  (globals ++ fields).mergeSort fun l r => s.localId l.bind.variable_ ≤ s.localId r.bind.variable_

def prependExprs (b : BlockId) (exprs : List Binding) : Build Unit :=
  modifyBlock b fun block => {block with exprs := exprs ++ block.exprs}

end Bodies

section SanityChecks
variable (s : State)

def backEdgesOf (b : BlockId) : List BlockId := ((s.basicBlocks[b]?).map (·.backEdges)).getD []

-- Both checks at one block.
def exitChecked (b : BlockId) (block : BasicBlock) : Bool :=
  match block.bexit with
  | none => false
  | some exit =>
    exit.cond.variable_.exists_ && (b == deadBlock ||
      ((backEdgesOf s exit.thenb).count b == 1 && (backEdgesOf s exit.elseb).count b == 1 &&
        (if exit.thenb = exit.elseb then exit.cond.variable_ == unconditional ctx
        else exit.cond.variable_.exists_ && exit.cond.variable_ != unconditional ctx)))

def jumpsTo (b c : BlockId) : Bool :=
  ((s.basicBlocks[b]?).bind (·.bexit)).any fun exit => exit.thenb == c || exit.elseb == c

def linkChecked (b : BlockId) (block : BasicBlock) : Bool :=
  block.backEdges.all (fun parent => jumpsTo s parent b) && (b == deadBlock ||
    ((b == entry || block.wasJumpDestination) &&
      block.bexit.any fun exit => (backEdgesOf s exit.thenb).contains b && (backEdgesOf s exit.elseb).contains b))

def everyBlock (checked : BlockId → BasicBlock → Bool) : Bool := (s.basicBlocks.mapIdx checked).all id

-- CFG::sanityCheck, and then CFGBuilder::sanityCheck
def sanityCheck : Bool := everyBlock s (exitChecked ctx s) && everyBlock s (linkChecked s)

end SanityChecks

section Building

-- CFGBuilder::buildFor as far as the graph is built: it hands back implicitReturnLoc.
def buildFor (method : Method) (params stats : List ExpressionPtr) (expr : ExpressionPtr) : Build LocOffsets := do
  let retSym ← newTemporaryOccurrence ctx.names.returnMethodTemp
  let selfClaz := if method.rebind ≠ 0 then method.rebind else method.owner
  let declLoc := copyWithZeroLength method.declLoc
  synthesizeExpr entry (.synthetic (selfVariable ctx)) declLoc
    (.cast (selfVariable ctx) declLoc (method.selfType selfClaz) ctx.names.cast)
  let cont ← walkParams ctx method methodContext (methodParams ctx params) false entry none
  let cont ← walkBody ctx stats expr retSym methodContext cont
  let (rvLoc,implicitReturnLoc) ← returnLocs ctx method (((← get).basicBlocks[cont]?).map (·.exprs)|>.getD [])
  synthesizeExpr cont (.synthetic (finalReturn ctx)) rvLoc (.return_ retSym.variable_ rvLoc)
  jumpToDead ctx cont rvLoc
  pinAliases ctx (← get).aliases
  pinFields (← get).discoveredUndeclaredFields
  prependExprs entry (aliasesPrefix ctx (← get))
  ensure (sanityCheck ctx (← get) = true)
  pure implicitReturnLoc

-- The graph of a MethodDef, and that of the body of a ClassDef, whose one parameter is a block.
def buildForMethod (method : Method) (mdSymbol : SymbolRef) (isOverloaded : Bool) (params : List ExpressionPtr)
    (rhs : ExpressionPtr) : Build LocOffsets := do
  ensure (mdSymbol ≠ 0)
  ensure (isOverloaded = false)
  buildFor ctx method params [] rhs

def buildForClass (method : Method) (rhs : List ExpressionPtr) : Build LocOffsets :=
  buildFor ctx method [.local_ noLoc ctx.names.blkArg 0] rhs .emptyTree

end Building

end CFGBuilder
