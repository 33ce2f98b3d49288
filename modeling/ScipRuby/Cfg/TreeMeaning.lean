import ScipRuby.Cfg.BuilderState
import ScipRuby.Lib.FlowGraphs

namespace CFGBuilder
open FlowGraphs
open Serialize (LocOffsets TypePtr ParamFlags ExpressionPtr IdentKind noLoc)

-- What a program shows when it is run.
inductive Event where
  | read (name : NameRef) (loc : LocOffsets)
  | constant (symbol : SymbolRef) (loc : LocOffsets)
  | literal (value : TypePtr) (loc : LocOffsets)
  | call (fun_ : NameRef) (loc funLoc receiverLoc : LocOffsets) (argLocs : List LocOffsets) (numPosArgs : Nat)
    (isPrivateOk hasBlock : Bool)
  | callDone (loc : LocOffsets)
  | blockSelf (loc : LocOffsets)
  | blockParams (loc : LocOffsets)
  | blockParam (argId : UInt16) (flags : ParamFlags) (loc : LocOffsets)
  | blockReturn (loc whatLoc : LocOffsets)
  | cast (cast : NameRef) (type : TypePtr) (loc valueLoc : LocOffsets)
  | absurd (loc : LocOffsets)
  | return_ (loc whatLoc : LocOffsets)

-- How a piece of code is left other than by coming to its end. The last two are those of a call with a block: the block
-- is called again, or the call is over.
inductive Leave where
  | next
  | break_
  | retry
  | halt
  | again
  | done
  deriving DecidableEq

structure Scope where
  insideRubyBlock : Bool
  insideLambda : Bool

abbrev Behaviour := FlowGraphs.Behaviour Event Leave
abbrev Meaning := Scope → Behaviour

open FlowGraphs.Behaviour

section Meanings
variable (ctx : Context)

-- Locals that only hold what was just computed, and self. Reading them is not an event.
def moved (name : NameRef) : Bool :=
  name ∈ [ctx.names.castTemp,ctx.names.returnTemp,ctx.names.blockBreakAssign,ctx.names.exceptionValue,ctx.names.selfLocal]

def readEvent (name : NameRef) (loc : LocOffsets) : Option Event := if moved ctx name then none else some (.read name loc)

-- T.bind and T.cast leave the same instruction behind. Neither is an event.
def castEvent (cast : NameRef) (type : TypePtr) (loc valueLoc : LocOffsets) : Option Event :=
  if cast = ctx.names.cast then none else some (.cast cast type loc valueLoc)

-- One after the other.
def inOrder : List Behaviour → Behaviour
  | [] => skip
  | A :: rest => A.seq (inOrder rest)

-- The rounds of a loop: next starts the next one, break is the end of it.
def rounds (round : Behaviour) : Behaviour :=
  (round.loop .next).redirect fun o => if o = some .break_ then none else o

-- The body of a block, seen from the call.
def blockBody (body : Behaviour) : Behaviour :=
  body.redirect fun o => if o = some .next then some .again else if o = some .break_ then some .done else o

def calls (round : Behaviour) : Behaviour :=
  (round.loop .again).redirect fun o => if o = some .done then none else o

def meanConstant (loc : LocOffsets) (symbol : SymbolRef) (scope : Option Meaning) : Meaning := fun sc =>
  (emit (.constant (if symbol = ctx.symbols.stubModule then ctx.symbols.untyped else symbol) loc)).seq
    (match scope with
    | some scope => scope sc
    | none => skip)

def meanLocal (loc : LocOffsets) (name : NameRef) : Meaning := fun _ => emits (readEvent ctx name loc)

def fieldOwner : IdentKind → SymbolRef
  | .class_ => ctx.attachedClass
  | .instance_ => ctx.instanceClass
  | _ => ctx.symbols.root

-- The local that stands for a field is called like its symbol, or like the field if it is not declared.
def fieldName (kind : IdentKind) (name : NameRef) : NameRef :=
  let sym := ctx.findMemberTransitive (fieldOwner ctx kind) name
  if sym = 0 then name else ctx.symbolName sym

def isUndeclared (kind : IdentKind) (name : NameRef) : Bool :=
  ctx.findMemberTransitive (fieldOwner ctx kind) name = 0 ∧ kind ≠ .global_ ∧ name ≠ ctx.names.ivarNameMissing ∧
    name ≠ ctx.names.cvarNameMissing

def meanBlockReturn (loc : LocOffsets) (expr : Sub Meaning) : Meaning := fun sc =>
  inOrder [expr.sem sc,if sc.insideRubyBlock then emit (.blockReturn loc expr.loc) else skip,leave .next]

def meanReturn (loc : LocOffsets) (expr : Sub Meaning) : Meaning := fun sc =>
  if sc.insideLambda then meanBlockReturn loc expr sc
  else inOrder [expr.sem sc,emit (.return_ loc expr.loc),leave .halt]

def meanIf (cond thenp elsep : Sub Meaning) : Meaning := fun sc => (cond.sem sc).seq (thenp.sem sc ∪ elsep.sem sc)

def meanWhile (cond body : Sub Meaning) : Meaning := fun sc =>
  let inner := {sc with insideRubyBlock := false}
  rounds ((cond.sem inner).seq ((body.sem inner).seq (leave .next) ∪ leave .break_))

-- The name of what is assigned to, where there is one.
def assignedName (lhs : ExpressionPtr) : NameRef :=
  match constantSymbol ctx.symbols.stubModule lhs with
  | some symbol => ctx.symbolName symbol
  | none =>
    match lhs with
    | .local_ _ name _ => name
    | .unresolvedIdent _ kind name => fieldName ctx kind name
    | _ => 0

def suggested (lhs : ExpressionPtr) : Option (IdentKind × NameRef) :=
  match lhs with
  | .unresolvedIdent _ kind name => if isUndeclared ctx kind name ∧ ctx.shouldReportErrorOn then some (kind,name) else none
  | _ => none

def fieldKind (kind : IdentKind) : NameRef :=
  if kind = .class_ then ctx.names.class_
  else if ctx.isSingletonClass ctx.instanceClass then ctx.names.singletonClassInstance
  else ctx.names.instance_

def meanAssign (loc : LocOffsets) (lhs : ExpressionPtr) (rhs : Sub Meaning) : Meaning := fun sc =>
  let assigned := emits (readEvent ctx (assignedName ctx lhs) loc)
  match suggested ctx lhs with
  | none => (rhs.sem sc).seq assigned
  | some (kind,name) =>
    let zeroLoc := copyWithZeroLength loc
    inOrder [meanConstant ctx zeroLoc ctx.symbols.magic none sc,rhs.sem sc,
      emit (.literal (.namedLiteralType .string (fieldKind ctx kind)) zeroLoc),
      emit (.literal (.namedLiteralType .string ctx.ownerName) zeroLoc),
      emit (.literal (.namedLiteralType .symbol name) zeroLoc),
      emit (.call ctx.names.suggestFieldType (locOf lhs) zeroLoc zeroLoc [rhs.loc,zeroLoc,zeroLoc,zeroLoc] 4 true false),
      assigned]

def meanAll (exprs : List (Sub Meaning)) : Meaning := fun sc => inOrder (exprs.map (·.sem sc))

def meanInsSeq (stats : List (Sub Meaning)) (expr : Sub Meaning) : Meaning := fun sc =>
  (meanAll stats sc).seq (expr.sem sc)

def meanHash (loc : LocOffsets) (keys values : List (Sub Meaning)) : Meaning := fun sc =>
  let args := interleave keys values
  (meanAll args sc).seq (emit (.call ctx.names.buildHash loc noLoc loc (args.map (·.loc)) (2 * keys.length) false false))

def meanArray (loc : LocOffsets) (elems : List (Sub Meaning)) : Meaning := fun sc =>
  (meanAll elems sc).seq
    (emit (.call ctx.names.buildArray loc noLoc loc (elems.map fun _ => loc) elems.length false false))

def meanTAbsurd (s : SendSub Meaning) : Meaning := fun sc =>
  if s.hasKwArgs then skip
  else match s.posArgs with
    | [posArg0] => if isVariable posArg0.tree then (posArg0.sem sc).seq (emit (.absurd s.loc)) else skip
    | _ => skip

-- The calls that are not calls.
def meanSpecial (s : SendSub Meaning) : Option Meaning :=
  if s.fun_ = ctx.names.absurd then if sendRecvIsT ctx s then some (meanTAbsurd s) else none
  else if s.fun_ = ctx.names.typeParameter then
    if sendRecvIsT ctx s then
      (typeParameterAlias ctx s).1.map fun typeParam _ => emit (.constant typeParam s.loc)
    else none
  else none

-- A parameter with a default is given, or its default is computed.
def meanBlockParams (sc : Scope) : List (Nat × ParsedParam × Option (Sub Meaning)) → Behaviour
  | [] => skip
  | (i,arg,default_) :: rest =>
    let given := emit (.blockParam (UInt16.ofNat i) arg.flags arg.loc)
    let param := match (if arg.flags.isRepeated then none else default_) with
      | some default_ => given ∪ default_.sem sc
      | none => given
    param.seq (meanBlockParams sc rest)

def meanBlock (s : SendSub Meaning) (block : BlockSub Meaning) : Meaning := fun sc =>
  let params := block.params.filterMap parseParam
  let inner : Scope := ⟨true,sc.insideLambda ∨ isKernelLambda ctx s⟩
  let round := inOrder [emit (.blockSelf s.loc),if params.isEmpty then skip else emit (.blockParams block.loc),
    meanBlockParams sc ((params.zip block.defaults).mapIdx fun i param => (i,param)),
    blockBody (block.body.sem inner),leave .again]
  calls (round ∪ (emit (.callDone s.loc)).seq (leave .done))

-- Every argument but the block, in the order of the source.
def SendSub.nonBlockArgs {α : Type} (s : SendSub α) : List (Sub α) := s.args.take (s.args.length - s.hasBlock.toNat)

def meanSend (s : SendSub Meaning) : Meaning :=
  match meanSpecial ctx s with
  | some special => special
  | none => fun sc =>
    inOrder [s.recv.sem sc,meanAll s.nonBlockArgs sc,
      emit (.call s.fun_ s.loc s.funLoc s.recv.loc (s.nonBlockArgs.map (·.loc)) s.numPosArgs.toNat s.isPrivateOk s.hasBlock),
      match s.hasBlock,s.lastBlock with
      | true,some block => meanBlock ctx s block sc
      | _,_ => skip]

-- The classes of a clause are asked one after the other. The last entry is what comes after them.
def meanHandlers (sc : Scope) (caseBody : Behaviour) : List (Sub Meaning) → Behaviour → Behaviour
  | [],other => other
  | ex :: exceptions,other =>
    inOrder [ex.sem sc,emit (.call ctx.names.tripleEq ex.loc (copyWithZeroLength ex.loc) ex.loc [ex.loc] 1 false false),
      caseBody ∪ meanHandlers sc caseBody exceptions other]

def meanRescued (loc : LocOffsets) : List (Sub Meaning) → List (Sub Meaning)
  | [] => [⟨.knownSymbol loc ctx.symbols.standardError,meanConstant ctx loc ctx.symbols.standardError none⟩]
  | exceptions => exceptions

-- Where no clause matches, the exception is still there.
def meanRescueCases (sc : Scope) (unmatched : Behaviour) : List (Option (CaseSub Meaning)) → Behaviour
  | [] => unmatched
  | case_ :: rest =>
    match case_ with
    | some case_ =>
      meanHandlers ctx sc (case_.body.sem sc) (meanRescued ctx (locOf case_.var) case_.exceptions)
        (meanRescueCases sc unmatched rest)
    | none => skip

-- Before the ensure runs, the variable of each clause is set to the exception, of unknown type.
def meanExceptionVar (var : ExpressionPtr) : Meaning := fun sc =>
  let zloc := copyWithZeroLength (locOf var)
  (meanConstant ctx zloc ctx.symbols.t none sc).seq (emit (.call ctx.names.unsafe_ zloc zloc zloc [zloc] 1 false false))

def meanExceptionVars (sc : Scope) : List (Option (CaseSub Meaning)) → Behaviour
  | [] => skip
  | case_ :: rest =>
    match case_ with
    | some case_ => (meanExceptionVar ctx case_.var sc).seq (meanExceptionVars sc rest)
    | none => skip

-- After the ensure the exception that no clause matched goes on.
def meanRescue (body : Sub Meaning) (rescueCases : List (Option (CaseSub Meaning))) (else_ ensureTree : Sub Meaning) :
    Meaning := fun sc =>
  let handlers := meanRescueCases ctx sc skip rescueCases
  let attempt := handlers ∪ (body.sem sc).seq (handlers ∪ else_.sem sc)
  let vars := if isEmptyTree ensureTree.tree then skip else meanExceptionVars ctx sc rescueCases
  (inOrder [attempt,vars,ensureTree.sem sc,leave .halt ∪ skip]).loop .retry

def meanCast (loc : LocOffsets) (cast : NameRef) (type : TypePtr) (arg typeExpr : Sub Meaning) : Meaning := fun sc =>
  let checked :=
    if cast = ctx.names.uncheckedLet ∨ cast = ctx.names.bind ∨ cast = ctx.names.syntheticBind then none
    else castEvent ctx cast type loc arg.loc
  inOrder [if isEmptyTree typeExpr.tree then skip else typeExpr.sem sc,arg.sem sc,emits checked]

mutual
-- What a tree does, in the order of Ruby's evaluation.
def mean : ExpressionPtr → Meaning
  | .while_ _ cond body => meanWhile ⟨cond,mean cond⟩ ⟨body,mean body⟩
  | .return_ loc expr => meanReturn loc ⟨expr,mean expr⟩
  | .if_ _ cond thenp elsep => meanIf ⟨cond,mean cond⟩ ⟨thenp,mean thenp⟩ ⟨elsep,mean elsep⟩
  | .literal loc value => fun _ => emit (.literal value loc)
  | .unresolvedIdent loc kind name => meanLocal ctx loc (fieldName ctx kind name)
  | .knownSymbol loc symbol => meanConstant ctx loc symbol none
  | .resolvedSymbol symbol loc _ scope => meanConstant ctx loc symbol (keptScope scope (mean scope))
  | .failedResolutionSymbol loc _ scope _ =>
    meanConstant ctx loc ctx.symbols.stubModule (keptScope scope (mean scope))
  | .local_ loc name _ => meanLocal ctx loc name
  | .assign loc lhs rhs => meanAssign ctx loc lhs ⟨rhs,mean rhs⟩
  | .insSeq _ stats expr => meanInsSeq (meanSubs stats) ⟨expr,mean expr⟩
  | .send loc fun_ funLoc flags numPosArgs recv args =>
    meanSend ctx
      ⟨loc,fun_,funLoc,flags.isPrivateOk,flags.hasBlock,numPosArgs,⟨recv,mean recv⟩,meanSubs args,meanLastBlock args⟩
  | .next loc expr => meanBlockReturn loc ⟨expr,mean expr⟩
  | .break_ _ expr => fun sc => (mean expr sc).seq (leave .break_)
  | .retry _ => fun _ => leave .retry
  | .rescue _ body rescueCases else_ ensure_ =>
    meanRescue ctx ⟨body,mean body⟩ (meanCaseSubs rescueCases) ⟨else_,mean else_⟩ ⟨ensure_,mean ensure_⟩
  | .hash loc keys values => meanHash ctx loc (meanSubs keys) (meanSubs values)
  | .array loc elems => meanArray ctx loc (meanSubs elems)
  | .cast loc cast type arg typeExpr => meanCast ctx loc cast type ⟨arg,mean arg⟩ ⟨typeExpr,mean typeExpr⟩
  | .runtimeMethodDefinition loc name _ =>
    fun _ => emit (.literal (.namedLiteralType .symbol name) (copyWithZeroLength loc))
  | _ => fun _ => skip
def meanSubs : List ExpressionPtr → List (Sub Meaning)
  | [] => []
  | e :: exprs => ⟨e,mean e⟩ :: meanSubs exprs
def meanAsBlock : ExpressionPtr → Option (BlockSub Meaning)
  | .block loc params body => some ⟨loc,params,meanDefaults params,⟨body,mean body⟩⟩
  | _ => none
def meanLastBlock : List ExpressionPtr → Option (BlockSub Meaning)
  | [] => none
  | [e] => meanAsBlock e
  | _ :: e :: exprs => meanLastBlock (e :: exprs)
def meanAsDefault : ExpressionPtr → Option (Sub Meaning)
  | .optionalParam _ _ default_ => some ⟨default_,mean default_⟩
  | _ => none
def meanDefaults : List ExpressionPtr → List (Option (Sub Meaning))
  | [] => []
  | e :: exprs => meanAsDefault e :: meanDefaults exprs
def meanAsCase : ExpressionPtr → Option (CaseSub Meaning)
  | .rescueCase loc exceptions var body => some ⟨loc,meanSubs exceptions,var,⟨body,mean body⟩⟩
  | _ => none
def meanCaseSubs : List ExpressionPtr → List (Option (CaseSub Meaning))
  | [] => []
  | e :: exprs => meanAsCase e :: meanCaseSubs exprs
end

end Meanings

end CFGBuilder
