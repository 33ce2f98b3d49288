import ScipRuby.Cfg.BuilderState

namespace CFGBuilder
open Serialize (LocOffsets TypePtr ParamFlags ExpressionPtr IdentKind LiteralKind noLoc)

section Contexts

structure CFGContext where
  target : LocalOccurrence
  blockBreakTarget : LocalRef
  loops : Int
  isInsideRubyBlock : Bool
  isInsideLambda : Bool
  breakIsJump : Bool
  nextScope : Option BlockId
  breakScope : Option BlockId
  rescueScope : Option BlockId
  link : LinkRef

namespace CFGContext
variable (cctx : CFGContext)

def withTarget (target : LocalOccurrence) : CFGContext := {cctx with target}
def withBlockBreakTarget (blockBreakTarget : LocalRef) : CFGContext := {cctx with blockBreakTarget,breakIsJump := false}
def withLoopBreakTarget (blockBreakTarget : LocalRef) : CFGContext := {cctx with blockBreakTarget,breakIsJump := true}

def withLoopScope (nextScope breakScope : BlockId) (insideRubyBlock : Bool) : CFGContext :=
  {cctx with nextScope,breakScope,isInsideRubyBlock := insideRubyBlock,loops := cctx.loops + 1}

def withSendAndBlockLink (link : LinkRef) : CFGContext := {cctx with link}

end CFGContext

abbrev Walk := CFGContext → BlockId → Build BlockId

end Contexts

variable (ctx : Context)

section Identifiers

def reportAll (errors : List ErrorReport) : Build Unit := modify fun s => {s with errors := s.errors ++ errors}

def global2Local (what : SymbolRef) (loc : LocOffsets) : Build LocalRef :=
  if what = ctx.symbols.stubModule then newTemporary (ctx.symbolName what)
  else do
    match ((← get).aliases.lookup what).filter (·.variable_.exists_) with
    | some known => pure known.variable_
    | none => do
      let v ← newTemporary (ctx.symbolName what)
      modify fun s => {s with aliases := (what,⟨v,loc⟩) :: s.aliases.filter (·.1 ≠ what)}
      pure v

def undeclaredVariable (loc : LocOffsets) (name : NameRef) : ErrorReport where
  loc := loc
  what := .undeclaredVariable
  header := "Use of undeclared variable `" ++ ctx.show_ name ++ "`"
  notes := ["Use `T.let` to declare this variable.\n    For more information, see https://sorbet.org/docs/type-annotations"]

-- The class that is asked for a field.
def fieldClass : IdentKind → Build SymbolRef
  | .class_ => pure ctx.attachedClass
  | .instance_ => do
    ensure (ctx.ownerIsMethod = true)
    pure ctx.instanceClass
  | .global_ => pure ctx.symbols.root
  | .local_ => failure

def unresolvedIdent2Local (loc : LocOffsets) (kind : IdentKind) (name : NameRef) (isAssign : Bool) :
    Build (LocalRef × Bool) := do
  let klass ← fieldClass ctx kind
  let sym := ctx.findMemberTransitive klass name
  if sym = 0 then do
    let hasError : Bool := kind ≠ .global_ ∧ name ≠ ctx.names.ivarNameMissing ∧ name ≠ ctx.names.cvarNameMissing
    match (← get).discoveredUndeclaredFields.lookup name with
    | none => do
      reportAll (if hasError && !isAssign then [undeclaredVariable ctx loc name] else [])
      let ret ← newTemporary name
      modify fun s => {s with discoveredUndeclaredFields := (name,⟨ret,loc⟩) :: s.discoveredUndeclaredFields}
      pure (ret,hasError && isAssign)
    | some fnd => pure (fnd.variable_,hasError && isAssign)
  else do
    let v ← global2Local ctx sym loc
    pure (v,false)

end Identifiers

section Simple

def walkLiteral (loc : LocOffsets) (value : TypePtr) : Walk := fun cctx current => do
  emplaceBack current cctx.target loc (.literal value)
  pure current

def walkUnresolvedIdent (loc : LocOffsets) (kind : IdentKind) (name : NameRef) : Walk := fun cctx current => do
  let (v,_) ← unresolvedIdent2Local ctx loc kind name false
  ensure (v.exists_ = true)
  emplaceBack current cctx.target loc (.ident v)
  pure current

def walkConstantLit (loc : LocOffsets) (sym : SymbolRef) (scope : Option Walk) : Walk := fun cctx current => do
  let aliasName ← newTemporaryOccurrence ctx.names.cfgAlias
  emplaceBack current aliasName loc (.alias (if sym = ctx.symbols.stubModule then ctx.symbols.untyped else sym) 0)
  synthesizeExpr current cctx.target loc (.ident aliasName.variable_)
  match scope with
  | some scope => do
    let deadSym ← newTemporary ctx.names.keepForIde
    scope (cctx.withTarget (.synthetic deadSym)) current
  | none => pure current

def walkLocal (loc : LocOffsets) (v : LocalVariable) : Walk := fun cctx current => do
  let v ← enterLocal v
  emplaceBack current cctx.target loc (.ident v)
  pure current

def walkSelf (loc : LocOffsets) : Walk := fun cctx current => do
  emplaceBack current cctx.target loc (.ident (selfVariable ctx))
  pure current

def walkRuntimeMethodDefinition (loc : LocOffsets) (name : NameRef) : Walk := fun cctx current => do
  emplaceBack current cctx.target (copyWithZeroLength loc) (.literal (.namedLiteralType .symbol name))
  pure current

def walkStats : List (Sub Walk) → Walk
  | [],_,current => pure current
  | exp :: stats,cctx,current => do
    let temp ← newTemporary ctx.names.statTemp
    let current ← exp.sem (cctx.withTarget (.synthetic temp)) current
    walkStats stats cctx current

def walkInsSeq (stats : List (Sub Walk)) (expr : Sub Walk) : Walk := fun cctx current => do
  let current ← walkStats ctx stats cctx current
  expr.sem cctx current

end Simple

section Assignments

def walkAssign (rhs : Sub Walk) (assignLoc : LocOffsets) (lhs : LocalOccurrence) : Walk := fun cctx current => do
  let rhsCont ← rhs.sem (cctx.withTarget lhs) current
  emplaceBack rhsCont cctx.target assignLoc (.ident lhs.variable_)
  pure rhsCont

-- The right side is wrapped into a call of a method that suggests a type for the field.
def walkSuggestFieldType (loc : LocOffsets) (lhs : LocalOccurrence) (kind : IdentKind) (name : NameRef) (rhs : Sub Walk) : Walk :=
    fun cctx current => do
  ensure (kind = .class_ ∨ ctx.ownerIsMethod = true)
  let fieldKind :=
    if kind = .class_ then ctx.names.class_
    else if ctx.isSingletonClass ctx.instanceClass then ctx.names.singletonClassInstance
    else ctx.names.instance_
  let zeroLoc := copyWithZeroLength loc
  let recvTemp ← newTemporary ctx.names.statTemp
  let current ← walkConstantLit ctx zeroLoc ctx.symbols.magic none (cctx.withTarget (.synthetic recvTemp)) current
  let rhsTemp ← newTemporary ctx.names.statTemp
  let current ← rhs.sem (cctx.withTarget (.synthetic rhsTemp)) current
  let fieldKindTemp ← newTemporary ctx.names.statTemp
  let current ← walkLiteral zeroLoc (.namedLiteralType .string fieldKind) (cctx.withTarget (.synthetic fieldKindTemp)) current
  let ownerTemp ← newTemporary ctx.names.statTemp
  let current ← walkLiteral zeroLoc (.namedLiteralType .string ctx.ownerName) (cctx.withTarget (.synthetic ownerTemp)) current
  let identTemp ← newTemporary ctx.names.statTemp
  let current ← walkLiteral zeroLoc (.namedLiteralType .symbol name) (cctx.withTarget (.synthetic identTemp)) current
  match SendInsn.make recvTemp zeroLoc ctx.names.suggestFieldType zeroLoc 4 true 4
      [(rhsTemp,rhs.loc),(fieldKindTemp,zeroLoc),(ownerTemp,zeroLoc),(identTemp,zeroLoc)] with
  | some snd => do
    emplaceBack current lhs lhs.loc (.send snd)
    emplaceBack current cctx.target loc (.ident lhs.variable_)
    pure current
  | none => failure

def walkAssignTo (loc : LocOffsets) (lhs : ExpressionPtr) (rhs : Sub Walk) : Walk := fun cctx current =>
  match constantSymbol ctx.symbols.stubModule lhs with
  | some symbol => do
    let v ← global2Local ctx symbol (locOf lhs)
    walkAssign rhs loc ⟨v,locOf lhs⟩ cctx current
  | none =>
    match lhs with
    | .local_ lhsLoc name unique => do
      let v ← enterLocal ⟨name,unique.toNat⟩
      walkAssign rhs loc ⟨v,lhsLoc⟩ cctx current
    | .unresolvedIdent lhsLoc kind name => do
      let (v,foundError) ← unresolvedIdent2Local ctx lhsLoc kind name true
      if ¬ foundError ∨ ¬ ctx.shouldReportErrorOn then walkAssign rhs loc ⟨v,lhsLoc⟩ cctx current
      else walkSuggestFieldType ctx loc ⟨v,lhsLoc⟩ kind name rhs cctx current
    | _ => failure

end Assignments

section Jumps

def noScope (loc : LocOffsets) (around what : String) : ErrorReport where
  loc := loc
  what := .noNextScope
  header := "No `" ++ around ++ "` block around `" ++ what ++ "`"

-- The jump out of a block or a loop; without one, into the dead block.
def leaveTo (scope : Option BlockId) (from_ : BlockId) (loc : LocOffsets) (missing : ErrorReport) : Build Unit :=
  match scope with
  | none => do
    report missing
    unconditionalJump ctx from_ deadBlock loc
  | some scope => unconditionalJump ctx from_ scope loc

def emitBlockReturn (loc whatLoc : LocOffsets) (exprSym : LocalRef) (cctx : CFGContext) (afterNext : BlockId) : Build Unit :=
  if afterNext ≠ deadBlock ∧ cctx.isInsideRubyBlock then do
    let dead ← newTemporary ctx.names.nextTemp
    ensure ((← get).links[cctx.link]?.any (·.isSome))
    emplaceBack afterNext (.synthetic dead) loc (.blockReturn cctx.link ⟨exprSym,whatLoc⟩)
  else pure ()

def walkBlockReturn (loc : LocOffsets) (expr : Sub Walk) : Walk := fun cctx current => do
  let exprSym ← newTemporary ctx.names.nextTemp
  let afterNext ← expr.sem (cctx.withTarget (.synthetic exprSym)) current
  emitBlockReturn ctx loc expr.loc exprSym cctx afterNext
  leaveTo ctx cctx.nextScope afterNext loc (noScope loc "do" "next")
  pure deadBlock

def walkReturn (loc : LocOffsets) (expr : Sub Walk) : Walk := fun cctx current =>
  if cctx.isInsideLambda then walkBlockReturn ctx loc expr cctx current
  else do
    let retSym ← newTemporaryOccurrence ctx.names.returnTemp
    let cont ← expr.sem (cctx.withTarget retSym) current
    emplaceBack cont cctx.target loc (.return_ retSym.variable_ expr.loc)
    jumpToDead ctx cont loc
    pure deadBlock

-- The throw to the frame of the call, in a block only.
def emitBlockBreak (loc : LocOffsets) (exprSym : LocalRef) (cctx : CFGContext) (afterBreak : BlockId) : Build Unit :=
  if cctx.breakIsJump then pure ()
  else do
    let magic ← newTemporary ctx.names.magic
    let ignored ← newTemporary ctx.names.blockBreak
    synthesizeExpr afterBreak (.synthetic magic) loc (.alias ctx.symbols.magic 0)
    match SendInsn.make magic noLoc ctx.names.blockBreak noLoc 1 false 1 [(exprSym,noLoc)] with
    | some snd => synthesizeExpr afterBreak (.synthetic ignored) noLoc (.send snd)
    | none => failure

def walkBreak (loc : LocOffsets) (expr : Sub Walk) : Walk := fun cctx current => do
  let exprSym ← newTemporary ctx.names.returnTemp
  let afterBreak ← expr.sem (cctx.withTarget (.synthetic exprSym)) current
  let blockBreakAssign ← newTemporary ctx.names.blockBreakAssign
  emplaceBack afterBreak (.synthetic blockBreakAssign) loc (.ident exprSym)
  emitBlockBreak ctx loc exprSym cctx afterBreak
  emplaceBack afterBreak (.synthetic cctx.blockBreakTarget) loc (.ident blockBreakAssign)
  leaveTo ctx cctx.breakScope afterBreak loc (noScope loc "do" "break")
  pure deadBlock

def walkRetry (loc : LocOffsets) : Walk := fun cctx current =>
  match cctx.rescueScope with
  | none => do
    report (noScope loc "begin" "retry")
    unconditionalJump ctx current deadBlock loc
    pure deadBlock
  | some scope => do
    let magic ← newTemporary ctx.names.magic
    synthesizeExpr current (.synthetic magic) noLoc (.alias ctx.symbols.magic 0)
    let retryTemp ← newTemporary ctx.names.retryTemp
    match SendInsn.make magic loc ctx.names.retry noLoc 0 false 0 [] with
    | some snd => do
      synthesizeExpr current (.synthetic retryTemp) noLoc (.send snd)
      unconditionalJump ctx current scope loc
      pure deadBlock
    | none => failure

end Jumps

section Branches

def walkEmptyTreeInIf (loc : LocOffsets) : Walk := fun cctx current => do
  synthesizeExpr current cctx.target loc (.literal (.classType ctx.symbols.nilClass))
  pure current

def walkBranch (loc : LocOffsets) (branch : Sub Walk) : Walk :=
  if isEmptyTree branch.tree then walkEmptyTreeInIf ctx loc else branch.sem

def walkIf (loc : LocOffsets) (cond thenp elsep : Sub Walk) : Walk := fun cctx current => do
  let ifSym ← newTemporary ctx.names.ifTemp
  ensure (ifSym.exists_ = true)
  let cont ← cond.sem (cctx.withTarget (.synthetic ifSym)) current
  let thenBlock ← freshBlock cctx.loops
  let elseBlock ← freshBlock cctx.loops
  conditionalJump cont ifSym thenBlock elseBlock cond.loc
  let thenEnd ← walkBranch ctx loc thenp cctx thenBlock
  let elseEnd ← walkBranch ctx loc elsep cctx elseBlock
  if thenEnd = deadBlock then pure elseEnd
  else if elseEnd = deadBlock then pure thenEnd
  else do
    let ret ← freshBlock cctx.loops
    unconditionalJump ctx thenEnd ret loc
    unconditionalJump ctx elseEnd ret loc
    pure ret

def walkWhile (loc : LocOffsets) (cond body : Sub Walk) : Walk := fun cctx current => do
  let headerBlock ← freshBlock (cctx.loops + 1)
  -- breakNotCalledBlock is only entered if break is not called in the loop body
  let breakNotCalledBlock ← freshBlock cctx.loops
  let continueBlock ← freshBlock cctx.loops
  unconditionalJump ctx current headerBlock loc
  let condSym ← newTemporary ctx.names.whileTemp
  let headerEnd ← cond.sem ((cctx.withTarget (.synthetic condSym)).withLoopScope headerBlock continueBlock false) headerBlock
  let bodyBlock ← freshBlock (cctx.loops + 1)
  conditionalJump headerEnd condSym bodyBlock breakNotCalledBlock cond.loc
  let bodySym ← newTemporary ctx.names.statTemp
  let body ← body.sem (((cctx.withTarget (.synthetic bodySym)).withLoopScope headerBlock continueBlock
    false).withLoopBreakTarget cctx.target.variable_) bodyBlock
  unconditionalJump ctx body headerBlock loc
  synthesizeExpr breakNotCalledBlock cctx.target loc (.literal (.classType ctx.symbols.nilClass))
  unconditionalJump ctx breakNotCalledBlock continueBlock loc
  pure continueBlock

end Branches

section Calls

-- Positional arguments, with the locals that they are in.
def walkPosArgs (temp : NameRef) (cctx : CFGContext) : List (Sub Walk) → BlockId → Build (BlockId × List (LocalRef × LocOffsets))
  | [],current => pure (current,[])
  | exp :: args,current => do
    let tmp ← newTemporary temp
    let current ← exp.sem (cctx.withTarget (.synthetic tmp)) current
    let (current,refs) ← walkPosArgs temp cctx args current
    pure (current,(tmp,exp.loc) :: refs)

-- Keys and values in turn.
def walkPairs (cctx : CFGContext) : List (Sub Walk) → BlockId → Build (BlockId × List (LocalRef × LocOffsets))
  | key :: val :: rest,current => do
    let keyTmp ← newTemporary ctx.names.hashTemp
    let valTmp ← newTemporary ctx.names.hashTemp
    let current ← key.sem (cctx.withTarget (.synthetic keyTmp)) current
    let current ← val.sem (cctx.withTarget (.synthetic valTmp)) current
    let (current,refs) ← walkPairs cctx rest current
    pure (current,(keyTmp,key.loc) :: (valTmp,val.loc) :: refs)
  | _,current => pure (current,[])

-- buildHash and buildArray are called on a Magic that is named afterwards.
def emitMagicCall (magic : LocalRef) (loc : LocOffsets) (method : NameRef) (numArgs : Nat)
    (args : List (LocalRef × LocOffsets)) : Walk := fun cctx current => do
  synthesizeExpr current (.synthetic magic) noLoc (.alias ctx.symbols.magic 0)
  match SendInsn.make magic loc method noLoc numArgs false numArgs args with
  | some snd => do
    emplaceBack current cctx.target loc (.send snd)
    pure current
  | none => failure

def walkHash (loc : LocOffsets) (keys values : List (Sub Walk)) : Walk := fun cctx current => do
  let magic ← newTemporary ctx.names.magic
  let (current,args) ← walkPairs ctx cctx (interleave keys values) current
  emitMagicCall ctx magic loc ctx.names.buildHash (2 * keys.length) args cctx current

def walkArray (loc : LocOffsets) (elems : List (Sub Walk)) : Walk := fun cctx current => do
  let magic ← newTemporary ctx.names.magic
  let (current,args) ← walkPosArgs ctx.names.arrayTemp cctx elems current
  emitMagicCall ctx magic loc ctx.names.buildArray elems.length (args.map fun arg => (arg.1,loc)) cctx current

def tAbsurd (loc : LocOffsets) (header : String) (lines : List (Serialize.Loc × String)) : ErrorReport where
  loc := loc
  what := .malformedTAbsurd
  header := header
  lines := lines

def notVariable (s : SendSub Walk) (posArg0 : ExpressionPtr) : ErrorReport :=
  tAbsurd s.loc
    (match posArg0 with
    | .send .. => "`T.absurd` expects to be called on a variable, not a method call"
    | _ => "`T.absurd` expects to be called on a variable")
    [(⟨ctx.file,locOf posArg0⟩,
      "Assign this expression to a variable, and use it in both the conditional and the `T.absurd` call")]

def walkTAbsurd (s : SendSub Walk) : Walk := fun cctx current =>
  if s.hasKwArgs then do
    report (tAbsurd s.loc "`T.absurd` does not accept keyword arguments" [])
    pure current
  else match s.posArgs with
    | [posArg0] =>
      if isVariable posArg0.tree then do
        let temp ← newTemporary ctx.names.statTemp
        let current ← posArg0.sem (cctx.withTarget (.synthetic temp)) current
        emplaceBack current cctx.target s.loc (.tAbsurd temp)
        pure current
      else do
        report (notVariable ctx s posArg0.tree)
        pure current
    | _ => do
      report (tAbsurd s.loc ("`T.absurd` expects exactly one argument but got `" ++ toString s.numPosArgs.toNat ++ "`") [])
      pure current

def checkNew (s : SendSub Walk) : Build Unit :=
  match constantSymbol ctx.symbols.stubModule s.recv.tree with
  | none => pure ()
  | some symbol =>
    if ctx.isAbstractClass symbol ∧ ctx.newOwner symbol = some ctx.symbols.class_ then
      report {loc := s.loc,what := .abstractClassInstantiated,
              header := "Attempting to instantiate abstract class `" ++ ctx.showSymbol symbol ++ "`",
              lines := [(ctx.symbolLoc symbol,"`" ++ ctx.showSymbol symbol ++ "` defined here")]}
    else pure ()

-- None where the call is an ordinary one.
def handleSpecialMethods (s : SendSub Walk) : CFGContext → BlockId → Build (Option BlockId) := fun cctx current =>
  if s.fun_ = ctx.names.absurd then
    if sendRecvIsT ctx s then some <$> walkTAbsurd ctx s cctx current else pure none
  else if s.fun_ = ctx.names.typeParameter then
    if sendRecvIsT ctx s then do
      let (typeParam,errors) := typeParameterAlias ctx s
      reportAll errors
      match typeParam with
      | some typeParam => do
        emplaceBack current cctx.target s.loc (.alias typeParam 0)
        pure (some current)
      | none => pure none
    else pure none
  else if s.fun_ = ctx.names.new_ then do
    checkNew ctx s
    pure none
  else pure none

-- Where a block that comes to its end returns.
def blockReturnLoc (exprs : List Binding) (blockLoc : LocOffsets) : LocOffsets :=
  let atKeyword :=
    let blockEndPos := copyEndWithZeroLength blockLoc
    let endKwLoc := adjustLen ctx.source.length blockEndPos (-3) 3
    let endBraceLoc := adjustLen ctx.source.length blockEndPos (-1) 1
    if sourceAt ctx.source endKwLoc = some [101,110,100] then endKwLoc
    else if sourceAt ctx.source endBraceLoc = some [125] then endBraceLoc
    else blockLoc
  match exprs.getLast? with
  | none => atKeyword
  | some last =>
    match last.value with
    | .loadSelf .. | .yieldLoadArg .. => atKeyword
    | _ => last.loc

-- The arguments of a block, each with its index, the walk of its default and its place in argBlock.
def walkBlockParams (cctx : CFGContext) (bodyLoops : Int) (argTemp : LocalOccurrence) :
    List (Nat × ParsedParam × Option (Sub Walk)) → BlockId → Build BlockId
  | [],argBlock => pure argBlock
  | (i,arg,default_) :: rest,argBlock => do
    let v ← enterLocal arg.local_
    let argLoc : LocalOccurrence := ⟨v,arg.loc⟩
    let load := Instruction.yieldLoadArg (UInt16.ofNat i) arg.flags argTemp
    match (if arg.flags.isRepeated then none else default_) with
    | some default_ => do
      let presentBlock ← freshBlock bodyLoops
      let missingBlock ← freshBlock bodyLoops
      let present ← newTemporary ctx.names.argPresent
      synthesizeExpr argBlock (.synthetic present) arg.loc (.yieldParamPresent (UInt16.ofNat i))
      conditionalJump argBlock present presentBlock missingBlock arg.loc
      -- the present and missing blocks join again
      let argBlock ← freshBlock bodyLoops
      emplaceBack presentBlock argLoc arg.loc load
      unconditionalJump ctx presentBlock argBlock arg.loc
      let missingLast ← default_.sem (cctx.withTarget argLoc) missingBlock
      unconditionalJump ctx missingLast argBlock arg.loc
      walkBlockParams cctx bodyLoops argTemp rest argBlock
    | none => do
      emplaceBack argBlock argLoc arg.loc load
      walkBlockParams cctx bodyLoops argTemp rest argBlock

def parseParams : List ExpressionPtr → Build (List ParsedParam)
  | [] => pure []
  | param :: params => do
    match parseParam param with
    | none => failure
    | some parsed => do
      let rest ← parseParams params
      pure (parsed :: rest)

def walkBlockArgs (block : BlockSub Walk) (blockParamFlags : List ParsedParam) (link : LinkRef) (cctx : CFGContext)
    (bodyBlock : BlockId) : Build BlockId :=
  if blockParamFlags.isEmpty then pure bodyBlock
  else do
    let argTemp ← newTemporaryOccurrence ctx.names.blkArg
    emplaceBack bodyBlock argTemp block.loc (.loadYieldParams link)
    walkBlockParams ctx cctx (cctx.loops + 1) argTemp
      ((blockParamFlags.zip block.defaults).mapIdx fun i param => (i,param)) bodyBlock

def emitBlockEnd (blockLoc : LocOffsets) (link : LinkRef) (blockrv : LocalRef) (blockLast : BlockId) : Build Unit :=
  if blockLast ≠ deadBlock then do
    let dead ← newTemporary ctx.names.blockReturnTemp
    let exprs := ((← get).basicBlocks[blockLast]?.map (·.exprs)).getD []
    synthesizeExpr blockLast (.synthetic dead) (blockReturnLoc ctx exprs blockLoc) (.blockReturn link (.synthetic blockrv))
  else pure ()

def walkSendWithBlock (s : SendSub Walk) (block : BlockSub Walk) (snd : SendInsn) : Walk := fun cctx current => do
  let blockParamFlags ← parseParams block.params
  let link ← enterLink s.fun_ block.loc (blockParamFlags.map (·.flags))
  let sendTemp ← newTemporary ctx.names.blockPreCallTemp
  emplaceBack current (.synthetic sendTemp) s.loc (.send {snd with link})
  let restoreSelf ← newTemporary ctx.names.selfRestore
  synthesizeExpr current (.synthetic restoreSelf) noLoc (.ident (selfVariable ctx))
  let headerBlock ← freshBlock (cctx.loops + 1)
  -- solveConstraintBlock is only entered if break is not called in the block body
  let solveConstraintBlock ← freshBlock cctx.loops
  let postBlock ← freshBlock cctx.loops
  let bodyBlock ← freshBlock (cctx.loops + 1)
  emplaceBack bodyBlock (.synthetic (selfVariable ctx)) s.loc (.loadSelf link (selfVariable ctx))
  let argBlock ← walkBlockArgs ctx block blockParamFlags link cctx bodyBlock
  conditionalJump headerBlock (blockCall ctx) bodyBlock solveConstraintBlock s.loc
  unconditionalJump ctx current headerBlock s.loc
  let blockrv ← newTemporary ctx.names.blockReturnTemp
  let newCctx := (((cctx.withTarget (.synthetic blockrv)).withBlockBreakTarget cctx.target.variable_).withLoopScope headerBlock
    postBlock true).withSendAndBlockLink link
  let newCctx := if isKernelLambda ctx s then {newCctx with isInsideLambda := true} else newCctx
  let blockLast ← block.body.sem newCctx argBlock
  emitBlockEnd ctx block.loc link blockrv blockLast
  unconditionalJump ctx blockLast headerBlock s.loc
  unconditionalJump ctx solveConstraintBlock postBlock s.loc
  emplaceBack solveConstraintBlock cctx.target s.loc (.solveConstraint link sendTemp)
  synthesizeExpr postBlock (.synthetic (selfVariable ctx)) s.loc (.ident restoreSelf)
  pure postBlock

def walkSend (s : SendSub Walk) : Walk := fun cctx current => do
  match (← handleSpecialMethods ctx s cctx current) with
  | some special => pure special
  | none => do
    let recv ← newTemporary ctx.names.statTemp
    let current ← s.recv.sem (cctx.withTarget (.synthetic recv)) current
    let (current,posArgs) ← walkPosArgs ctx.names.statTemp cctx s.posArgs current
    let (current,kwArgs) ← walkPairs ctx cctx s.kwArgPairs current
    let (current,kwSplat) ← walkPosArgs ctx.names.statTemp cctx s.kwSplat.toList current
    match SendInsn.make recv s.recv.loc s.fun_ s.funLoc s.numPosArgs.toNat s.isPrivateOk s.numNonBlockArgs
        (posArgs ++ kwArgs ++ kwSplat) with
    | none => failure
    | some snd =>
      if s.hasBlock then
        match s.lastBlock with
        | none => failure
        | some block => walkSendWithBlock ctx s block snd cctx current
      else do
        emplaceBack current cctx.target s.loc (.send snd)
        pure current

end Calls

section Exceptions

def buildExceptionHandler (ex : Sub Walk) (caseBody : BlockId) (exceptionValue : LocalRef) (cctx : CFGContext)
    (rescueHandlersBlock : BlockId) : Build BlockId := do
  let exceptionClass ← newTemporary ctx.names.exceptionClassTemp
  let rescueHandlersBlock ← ex.sem (cctx.withTarget (.synthetic exceptionClass)) rescueHandlersBlock
  let isaCheck ← newTemporary ctx.names.isaCheckTemp
  match SendInsn.make exceptionClass ex.loc ctx.names.tripleEq (copyWithZeroLength ex.loc) 1 false 1
      [(exceptionValue,ex.loc)] with
  | none => failure
  | some snd => do
    emplaceBack rescueHandlersBlock (.synthetic isaCheck) ex.loc (.send snd)
    let otherHandlerBlock ← freshBlock cctx.loops
    conditionalJump rescueHandlersBlock isaCheck caseBody otherHandlerBlock ex.loc
    pure otherHandlerBlock

def buildExceptionHandlers (caseBody : BlockId) (exceptionValue : LocalRef) (cctx : CFGContext) :
    List (Sub Walk) → BlockId → Build BlockId
  | [],rescueHandlersBlock => pure rescueHandlersBlock
  | ex :: exceptions,rescueHandlersBlock => do
    let rescueHandlersBlock ← buildExceptionHandler ctx ex caseBody exceptionValue cctx rescueHandlersBlock
    buildExceptionHandlers caseBody exceptionValue cctx exceptions rescueHandlersBlock

-- MK::Unsafe of a local, as a call that is walked like any other.
def unsafeOf (zloc : LocOffsets) (v : LocalVariable) : SendSub Walk where
  loc := zloc
  fun_ := ctx.names.unsafe_
  funLoc := zloc
  isPrivateOk := false
  hasBlock := false
  numPosArgs := 1
  recv := ⟨.knownSymbol zloc ctx.symbols.t,walkConstantLit ctx zloc ctx.symbols.t none⟩
  args := [⟨.local_ zloc v.name (UInt32.ofNat v.unique),walkLocal zloc v⟩]
  lastBlock := none

-- rescue without a class catches StandardError
def rescuedClasses (loc : LocOffsets) : List (Sub Walk) → List (Sub Walk)
  | [] => [⟨.knownSymbol loc ctx.symbols.standardError,walkConstantLit ctx loc ctx.symbols.standardError none⟩]
  | exceptions => exceptions

-- We don't support typed exceptions in ensure yet: there the variable of the clause is untyped.
def walkExceptionVar (hasEnsure : Bool) (exceptionValue : LocalRef) (localVar : LocalOccurrence) (cctx : CFGContext)
    (ensureBody : BlockId) : Build BlockId :=
  if hasEnsure then
    walkSend ctx (unsafeOf ctx (copyWithZeroLength localVar.loc) exceptionValue) (cctx.withTarget localVar) ensureBody
  else pure ensureBody

-- One rescue clause: where the next clause is checked, and where the ensure goes on.
def walkRescueCase (loc : LocOffsets) (hasEnsure : Bool) (exceptionValue : LocalRef) (case_ : CaseSub Walk) (cctx : CFGContext)
    (rescueHandlersBlock ensureBody : BlockId) : Build (BlockId × BlockId) := do
  let caseBody ← freshBlock cctx.loops
  match case_.var with
  | .local_ varLoc name unique => do
    let localVar ← enterLocal ⟨name,unique.toNat⟩
    emplaceBack caseBody ⟨localVar,varLoc⟩ varLoc (.ident exceptionValue)
    let ensureBody ← walkExceptionVar ctx hasEnsure exceptionValue ⟨localVar,varLoc⟩ cctx ensureBody
    synthesizeExpr caseBody (.synthetic exceptionValue) noLoc (.literal (.classType ctx.symbols.nilClass))
    let res ← newTemporary ctx.names.keepForCfgTemp
    synthesizeExpr caseBody (.synthetic res) case_.loc (.keepAlive exceptionValue)
    let rescueHandlersBlock ←
      buildExceptionHandlers ctx caseBody exceptionValue cctx (rescuedClasses ctx varLoc case_.exceptions) rescueHandlersBlock
    let caseBody ← case_.body.sem cctx caseBody
    unconditionalJump ctx caseBody ensureBody loc
    pure (rescueHandlersBlock,ensureBody)
  | _ => failure

def walkRescueCases (loc : LocOffsets) (hasEnsure : Bool) (exceptionValue : LocalRef) (cctx : CFGContext) :
    List (Option (CaseSub Walk)) → BlockId → BlockId → Build (BlockId × BlockId)
  | [],rescueHandlersBlock,ensureBody => pure (rescueHandlersBlock,ensureBody)
  | none :: _,_,_ => failure
  | some case_ :: rest,rescueHandlersBlock,ensureBody => do
    let (rescueHandlersBlock,ensureBody) ←
      walkRescueCase ctx loc hasEnsure exceptionValue case_ cctx rescueHandlersBlock ensureBody
    walkRescueCases loc hasEnsure exceptionValue cctx rest rescueHandlersBlock ensureBody

-- The word rescue of the first clause.
def rescueKeywordLoc (loc : LocOffsets) (rescueCases : List (Option (CaseSub Walk))) : LocOffsets :=
  match rescueCases with
  | some front :: _ =>
    if front.loc.endLoc - front.loc.beginLoc > 6 then ⟨front.loc.beginLoc,front.loc.beginLoc + 6⟩
    else copyWithZeroLength loc
  | _ => copyWithZeroLength loc

-- The control flow is simplified: nothing of the body has run when a clause is entered, or all of it.
def walkRescue (loc : LocOffsets) (body : Sub Walk) (rescueCases : List (Option (CaseSub Walk))) (else_ ensureTree : Sub Walk) : Walk :=
    fun cctx current => do
  let rescueHeaderBlock ← freshBlock cctx.loops
  unconditionalJump ctx current rescueHeaderBlock loc
  let cctx := {cctx with rescueScope := some rescueHeaderBlock}
  let rescueHandlersBlock ← freshBlock cctx.loops
  let bodyBlock ← freshBlock cctx.loops
  let exceptionValue ← newTemporary ctx.names.exceptionValue
  let keywordLoc := rescueKeywordLoc loc rescueCases
  synthesizeExpr rescueHeaderBlock (.synthetic exceptionValue) keywordLoc .getCurrentException
  conditionalJump rescueHeaderBlock exceptionValue rescueHandlersBlock bodyBlock keywordLoc
  let bodyBlock ← body.sem cctx bodyBlock
  -- else is only executed if body didn't raise an exception
  let elseBody ← freshBlock cctx.loops
  synthesizeExpr bodyBlock (.synthetic exceptionValue) keywordLoc .getCurrentException
  conditionalJump bodyBlock exceptionValue rescueHandlersBlock elseBody keywordLoc
  let elseBody ← else_.sem cctx elseBody
  let ensureBody ← freshBlock cctx.loops
  unconditionalJump ctx elseBody ensureBody loc
  let (rescueHandlersBlock,ensureBody) ←
    walkRescueCases ctx loc (¬ isEmptyTree ensureTree.tree) exceptionValue cctx rescueCases rescueHandlersBlock ensureBody
  -- remembers that no clause matched: after the ensure the exception goes up the stack
  let gotoDeadTemp ← newTemporary ctx.names.gotoDeadTemp
  synthesizeExpr rescueHandlersBlock (.synthetic gotoDeadTemp) loc (.literal (.classType ctx.symbols.trueClass))
  unconditionalJump ctx rescueHandlersBlock ensureBody loc
  let throwAway ← newTemporary ctx.names.throwAwayTemp
  let ensureBody ← ensureTree.sem (cctx.withTarget (.synthetic throwAway)) ensureBody
  let ret ← freshBlock cctx.loops
  conditionalJump ensureBody gotoDeadTemp deadBlock ret loc
  pure ret

end Exceptions

section Casts

def malformedTBind (loc : LocOffsets) : ErrorReport where
  loc := loc
  what := .malformedTBind
  header := "`T.bind` can only be used with `self`"

-- Where an enclosing rescue is tried again, self has the type too.
def bindAgain (loc : LocOffsets) (bound : Instruction) (cctx : CFGContext) : Build Unit :=
  match cctx.rescueScope with
  | some scope => do
    emplaceBack scope (.synthetic (selfVariable ctx)) loc bound
    emplaceBack scope cctx.target loc (.ident (selfVariable ctx))
  | none => pure ()

def walkBind (loc : LocOffsets) (cast : NameRef) (type : TypePtr) (tmp : LocalRef) (arg : Sub Walk) : Walk := fun cctx current =>
  if isSelfReference arg.tree then do
    let bound := Instruction.cast tmp arg.loc type ctx.names.cast
    emplace current ⟨.synthetic (selfVariable ctx),loc,bound,cast = ctx.names.syntheticBind⟩
    emplaceBack current cctx.target loc (.ident (selfVariable ctx))
    bindAgain ctx loc bound cctx
    pure current
  else do
    report (malformedTBind loc)
    pure current

-- The type stays for the IDE.
def walkTypeExpr (arg typeExpr : Sub Walk) : Walk := fun cctx current =>
  if isEmptyTree typeExpr.tree then do
    ensure (isLambdaTLet ctx arg.tree = true)
    pure current
  else do
    let deadSym ← newTemporary ctx.names.keepForIde
    let current ← typeExpr.sem (cctx.withTarget (.synthetic deadSym)) current
    emplaceBack current (.synthetic deadSym) noLoc (.keepAlive deadSym)
    pure current

def finishCast (loc : LocOffsets) (cast : NameRef) (type : TypePtr) (tmp : LocalRef) (arg : Sub Walk) : Walk := fun cctx current =>
  if cast = ctx.names.uncheckedLet then do
    emplaceBack current cctx.target loc (.ident tmp)
    pure current
  else if cast = ctx.names.bind ∨ cast = ctx.names.syntheticBind then walkBind ctx loc cast type tmp arg cctx current
  else do
    emplaceBack current cctx.target loc (.cast tmp arg.loc type cast)
    pure current

-- CFG::MIN_LOOP_LET
def MIN_LOOP_LET : Int := -3

def markLet (cast : NameRef) (target : LocalRef) : Build Unit :=
  if cast = ctx.names.let_ then setMinLoops target MIN_LOOP_LET else pure ()

def walkCast (loc : LocOffsets) (cast : NameRef) (type : TypePtr) (arg typeExpr : Sub Walk) : Walk := fun cctx current => do
  let current ← walkTypeExpr ctx arg typeExpr cctx current
  let tmp ← newTemporary ctx.names.castTemp
  let current ← arg.sem (cctx.withTarget (.synthetic tmp)) current
  let current ← finishCast ctx loc cast type tmp arg cctx current
  markLet ctx cast cctx.target.variable_
  pure current

end Casts

section Walking

-- The block to go on in has no exit yet, unless it is the dead block.
def entered (walk : Walk) : Walk := fun cctx current => do
  ensure (current = deadBlock ∨ (← get).basicBlocks[current]?.any (·.bexit.isNone))
  walk cctx current

mutual
-- What the resolver and the flattening removed, and what is never walked on its own, is an exception.
def walk (e : ExpressionPtr) : Walk := entered (match e with
  | .while_ loc cond body => walkWhile ctx loc ⟨cond,walk cond⟩ ⟨body,walk body⟩
  | .return_ loc expr => walkReturn ctx loc ⟨expr,walk expr⟩
  | .if_ loc cond thenp elsep => walkIf ctx loc ⟨cond,walk cond⟩ ⟨thenp,walk thenp⟩ ⟨elsep,walk elsep⟩
  | .literal loc value => walkLiteral loc value
  | .unresolvedIdent loc kind name => walkUnresolvedIdent ctx loc kind name
  | .knownSymbol loc symbol => walkConstantLit ctx loc symbol none
  | .resolvedSymbol symbol loc _ scope => walkConstantLit ctx loc symbol (keptScope scope (walk scope))
  | .failedResolutionSymbol loc _ scope _ =>
    walkConstantLit ctx loc ctx.symbols.stubModule (keptScope scope (walk scope))
  | .local_ loc name unique => walkLocal loc ⟨name,unique.toNat⟩
  | .self loc => walkSelf ctx loc
  | .assign loc lhs rhs => walkAssignTo ctx loc lhs ⟨rhs,walk rhs⟩
  | .insSeq _ stats expr => walkInsSeq ctx (subs stats) ⟨expr,walk expr⟩
  | .send loc fun_ funLoc flags numPosArgs recv args =>
    walkSend ctx ⟨loc,fun_,funLoc,flags.isPrivateOk,flags.hasBlock,numPosArgs,⟨recv,walk recv⟩,subs args,lastBlock args⟩
  | .next loc expr => walkBlockReturn ctx loc ⟨expr,walk expr⟩
  | .break_ loc expr => walkBreak ctx loc ⟨expr,walk expr⟩
  | .retry loc => walkRetry ctx loc
  | .rescue loc body rescueCases else_ ensure_ =>
    walkRescue ctx loc ⟨body,walk body⟩ (caseSubs rescueCases) ⟨else_,walk else_⟩ ⟨ensure_,walk ensure_⟩
  | .hash loc keys values => walkHash ctx loc (subs keys) (subs values)
  | .array loc elems => walkArray ctx loc (subs elems)
  | .cast loc cast type arg typeExpr => walkCast ctx loc cast type ⟨arg,walk arg⟩ ⟨typeExpr,walk typeExpr⟩
  | .runtimeMethodDefinition loc name _ => walkRuntimeMethodDefinition loc name
  | .emptyTree | .classDef .. => fun _ current => pure current
  | _ => fun _ _ => failure)
def subs : List ExpressionPtr → List (Sub Walk)
  | [] => []
  | e :: exprs => ⟨e,walk e⟩ :: subs exprs
def asBlock : ExpressionPtr → Option (BlockSub Walk)
  | .block loc params body => some ⟨loc,params,defaults params,⟨body,walk body⟩⟩
  | _ => none
def lastBlock : List ExpressionPtr → Option (BlockSub Walk)
  | [] => none
  | [e] => asBlock e
  | _ :: e :: exprs => lastBlock (e :: exprs)
def asDefault : ExpressionPtr → Option (Sub Walk)
  | .optionalParam _ _ default_ => some ⟨default_,walk default_⟩
  | _ => none
def defaults : List ExpressionPtr → List (Option (Sub Walk))
  | [] => []
  | e :: exprs => asDefault e :: defaults exprs
def asCase : ExpressionPtr → Option (CaseSub Walk)
  | .rescueCase loc exceptions var body => some ⟨loc,subs exceptions,var,⟨body,walk body⟩⟩
  | _ => none
def caseSubs : List ExpressionPtr → List (Option (CaseSub Walk))
  | [] => []
  | e :: exprs => asCase e :: caseSubs exprs
end

end Walking

end CFGBuilder
