import ScipRuby.Cfg.BuilderExceptions

namespace CFGBuilder
open FlowGraphs TotalRuns FlowGraphs.Behaviour
open Serialize (LocOffsets TypePtr ExpressionPtr SendFlags IdentKind)

variable {ctx : Context}

section Trees

def isClause : ExpressionPtr → Bool
  | .rescueCase _ _ (.local_ _ _ _) _ => true
  | _ => false

-- The trees that the ENFORCEs of the builder let through, as the resolver and the flattening leave them.
inductive Buildable (ctx : Context) : ExpressionPtr → Prop where
  | emptyTree : Buildable ctx .emptyTree
  | classDef {loc declLoc kind symbol name ancestors singletonAncestors rhs} :
      Buildable ctx (.classDef loc declLoc kind symbol name ancestors singletonAncestors rhs)
  | while_ {loc cond body} : Buildable ctx cond → Buildable ctx body → Buildable ctx (.while_ loc cond body)
  | return_ {loc expr} : Buildable ctx expr → Buildable ctx (.return_ loc expr)
  | if_ {loc cond thenp elsep} : Buildable ctx cond → Buildable ctx thenp → Buildable ctx elsep →
      Buildable ctx (.if_ loc cond thenp elsep)
  | literal {loc value} : Buildable ctx (.literal loc value)
  | unresolvedIdent {loc kind name} : FieldAllowed ctx kind name → Buildable ctx (.unresolvedIdent loc kind name)
  | knownSymbol {loc symbol} : Buildable ctx (.knownSymbol loc symbol)
  | resolvedSymbol {symbol loc cnst scope} : (keptScope scope () = some () → Buildable ctx scope) →
      Buildable ctx (.resolvedSymbol symbol loc cnst scope)
  | failedResolutionSymbol {loc cnst scope scopes} : (keptScope scope () = some () → Buildable ctx scope) →
      Buildable ctx (.failedResolutionSymbol loc cnst scope scopes)
  | local_ {loc name unique} : Buildable ctx (.local_ loc name unique)
  | self {loc} : Buildable ctx (.self loc)
  | assign {loc lhs rhs} : Assignable ctx lhs → Buildable ctx rhs → Buildable ctx (.assign loc lhs rhs)
  | insSeq {loc stats expr} : (∀ e ∈ stats, Buildable ctx e) → Buildable ctx expr → Buildable ctx (.insSeq loc stats expr)
  | send {loc fun_ funLoc flags recv args} {numPosArgs : UInt16} : flags.hasBlock = false → numPosArgs.toNat ≤ args.length →
      args.length < 2 ^ 16 → Buildable ctx recv → (∀ e ∈ args, Buildable ctx e) →
      Buildable ctx (.send loc fun_ funLoc flags numPosArgs recv args)
  | sendWithBlock {loc fun_ funLoc flags recv args blockLoc params body} {numPosArgs : UInt16} : flags.hasBlock = true →
      numPosArgs.toNat ≤ args.length → args.length < 2 ^ 16 → Buildable ctx recv → (∀ e ∈ args, Buildable ctx e) →
      (∀ param ∈ params, (parseParam param).isSome = true) →
      (∀ paramLoc expr default_, ExpressionPtr.optionalParam paramLoc expr default_ ∈ params → Buildable ctx default_) →
      Buildable ctx body → Buildable ctx (.send loc fun_ funLoc flags numPosArgs recv (args ++ [.block blockLoc params body]))
  | next {loc expr} : Buildable ctx expr → Buildable ctx (.next loc expr)
  | break_ {loc expr} : Buildable ctx expr → Buildable ctx (.break_ loc expr)
  | retry {loc} : Buildable ctx (.retry loc)
  | rescue {loc body rescueCases else_ ensure_} : Buildable ctx body → (∀ case_ ∈ rescueCases, isClause case_ = true) →
      (∀ caseLoc exceptions var caseBody, ExpressionPtr.rescueCase caseLoc exceptions var caseBody ∈ rescueCases →
        ∀ e ∈ exceptions, Buildable ctx e) →
      (∀ caseLoc exceptions var caseBody, ExpressionPtr.rescueCase caseLoc exceptions var caseBody ∈ rescueCases →
        Buildable ctx caseBody) →
      Buildable ctx else_ → Buildable ctx ensure_ → Buildable ctx (.rescue loc body rescueCases else_ ensure_)
  | hash {loc keys values} : keys.length = values.length → (∀ e ∈ keys, Buildable ctx e) → (∀ e ∈ values, Buildable ctx e) →
      Buildable ctx (.hash loc keys values)
  | array {loc elems} : (∀ e ∈ elems, Buildable ctx e) → Buildable ctx (.array loc elems)
  | cast {loc cast type arg typeExpr} : Buildable ctx arg → Buildable ctx typeExpr →
      (isEmptyTree typeExpr = true → isLambdaTLet ctx arg = true) → Buildable ctx (.cast loc cast type arg typeExpr)
  | runtimeMethodDefinition {loc name isSelfMethod} : Buildable ctx (.runtimeMethodDefinition loc name isSelfMethod)

end Trees

section Parts

-- What is built from a tree does what the tree does.
def Faithful (ctx : Context) (e : ExpressionPtr) : Prop := Implements ctx (walk ctx e) (mean ctx e)

variable {e : ExpressionPtr} {exprs params rescueCases : List ExpressionPtr}

theorem Implements.entered {w : Walk} {m : Meaning} (impl : Implements ctx w m) : Implements ctx (entered w) m := by
  intro cctx s cur T sound open_ suits
  refine achieves_get_bind (achieves_ensure_bind ?_ (impl cctx s cur T sound open_ suits))
  refine open_.imp id fun ⟨block,here,unset⟩ => ?_
  rw [here,Option.any_some,unset]
  rfl

theorem Implements.stays : Implements ctx (fun _ current => pure current) fun _ => skip :=
  fun _ _ _ T sound open_ _ => achieves_pure (Doing.start T sound open_)

theorem Faithful.renders (faithful : Faithful ctx e) : Renders ctx ⟨e,walk ctx e⟩ ⟨e,mean ctx e⟩ := ⟨rfl,faithful⟩

theorem subs_renders (all : ∀ e ∈ exprs, Faithful ctx e) : List.Forall₂ (Renders ctx) (subs ctx exprs) (meanSubs ctx exprs) := by
  induction exprs with
  | nil => exact .nil
  | cons e exprs ih =>
    exact .cons (all e List.mem_cons_self).renders (ih fun e member => all e (List.mem_cons_of_mem _ member))

theorem keptScope_renders (kept : keptScope e () = some () → Faithful ctx e) :
    Option.Rel (Implements ctx) (keptScope e (walk ctx e)) (keptScope e (mean ctx e)) := by
  unfold keptScope at kept ⊢
  split
  all_goals first | exact .some (kept rfl) | exact .none

theorem defaults_renders (all : ∀ loc expr default_, ExpressionPtr.optionalParam loc expr default_ ∈ params → Faithful ctx default_) :
    List.Forall₂ (Option.Rel (Renders ctx)) (defaults ctx params) (meanDefaults ctx params) := by
  induction params with
  | nil => exact .nil
  | cons param params ih =>
    refine .cons ?_ (ih fun loc expr default_ member => all loc expr default_ (List.mem_cons_of_mem _ member))
    cases param with
    | optionalParam loc expr default_ => exact .some (all loc expr default_ List.mem_cons_self).renders
    | _ => exact .none

theorem caseSubs_same (clauses : ∀ case_ ∈ rescueCases, isClause case_ = true)
    (exceptions : ∀ loc exceptions var body, ExpressionPtr.rescueCase loc exceptions var body ∈ rescueCases →
      ∀ e ∈ exceptions, Faithful ctx e)
    (bodies : ∀ loc exceptions var body, ExpressionPtr.rescueCase loc exceptions var body ∈ rescueCases → Faithful ctx body) :
    List.Forall₂ (SameCase ctx) (caseSubs ctx rescueCases) (meanCaseSubs ctx rescueCases) := by
  induction rescueCases with
  | nil => exact .nil
  | cons case_ rest ih =>
    refine .cons ?_ (ih (fun case_ member => clauses case_ (List.mem_cons_of_mem _ member))
      (fun loc _ var body member => exceptions loc _ var body (List.mem_cons_of_mem _ member))
      fun loc _ var body member => bodies loc _ var body (List.mem_cons_of_mem _ member))
    have clause := clauses case_ List.mem_cons_self
    unfold isClause at clause
    split at clause
    · rename_i loc raised varLoc name unique body
      exact .some ⟨subs_renders (exceptions _ _ _ _ List.mem_cons_self),rfl,(bodies _ _ _ _ List.mem_cons_self).renders,_,_,_,rfl⟩
    · cases clause

theorem subs_append (first second : List ExpressionPtr) : subs ctx (first ++ second) = subs ctx first ++ subs ctx second := by
  induction first with
  | nil => rfl
  | cons e first ih => exact congrArg (List.cons _) ih

theorem meanSubs_append (first second : List ExpressionPtr) :
    meanSubs ctx (first ++ second) = meanSubs ctx first ++ meanSubs ctx second := by
  induction first with
  | nil => rfl
  | cons e first ih => exact congrArg (List.cons _) ih

theorem lastBlock_append (exprs : List ExpressionPtr) (e : ExpressionPtr) : lastBlock ctx (exprs ++ [e]) = asBlock ctx e := by
  induction exprs with
  | nil => rfl
  | cons first exprs ih =>
    cases exprs with
    | nil => rfl
    | cons second exprs => exact ih

theorem meanLastBlock_append (exprs : List ExpressionPtr) (e : ExpressionPtr) :
    meanLastBlock ctx (exprs ++ [e]) = meanAsBlock ctx e := by
  induction exprs with
  | nil => rfl
  | cons first exprs ih =>
    cases exprs with
    | nil => rfl
    | cons second exprs => exact ih

@[simp] theorem subs_length (exprs : List ExpressionPtr) : (subs ctx exprs).length = exprs.length := by
  induction exprs with
  | nil => rfl
  | cons e exprs ih => exact congrArg Nat.succ ih

theorem subs_trees (exprs : List ExpressionPtr) : (subs ctx exprs).map (·.tree) = exprs := by
  induction exprs with
  | nil => rfl
  | cons e exprs ih => exact congrArg (List.cons e) ih

theorem meanSubs_trees (exprs : List ExpressionPtr) : (meanSubs ctx exprs).map (·.tree) = exprs := by
  induction exprs with
  | nil => rfl
  | cons e exprs ih => exact congrArg (List.cons e) ih

@[simp] theorem meanSubs_length (exprs : List ExpressionPtr) : (meanSubs ctx exprs).length = exprs.length := by
  rw [←List.length_map (f := (·.tree)),meanSubs_trees]

end Parts

section Sends
variable {loc funLoc blockLoc : LocOffsets} {fun_ : NameRef} {flags : SendFlags} {numPosArgs : UInt16} {recv body : ExpressionPtr}
  {args params : List ExpressionPtr}

-- The send of a tree, with what is made of its parts.
def sendSub (loc : LocOffsets) (fun_ : NameRef) (funLoc : LocOffsets) (flags : SendFlags) (numPosArgs : UInt16) {α : Type}
    (recv : Sub α) (args : List (Sub α)) (lastBlock : Option (BlockSub α)) : SendSub α :=
  ⟨loc,fun_,funLoc,flags.isPrivateOk,flags.hasBlock,numPosArgs,recv,args,lastBlock⟩

theorem rendersSend (plain : flags.hasBlock = false) (positional : numPosArgs.toNat ≤ args.length) (small : args.length < 2 ^ 16)
    (receiver : Faithful ctx recv) (all : ∀ e ∈ args, Faithful ctx e) :
    RendersSend ctx (sendSub loc fun_ funLoc flags numPosArgs ⟨recv,walk ctx recv⟩ (subs ctx args) (lastBlock ctx args))
      (sendSub loc fun_ funLoc flags numPosArgs ⟨recv,mean ctx recv⟩ (meanSubs ctx args) (meanLastBlock ctx args)) where
  loc := rfl
  fun_ := rfl
  funLoc := rfl
  isPrivateOk := rfl
  hasBlock := rfl
  numPosArgs := rfl
  recv := receiver.renders
  trees := (subs_trees args).trans (meanSubs_trees args).symm
  nonBlockArgs := by
    simp only [SendSub.nonBlockArgs,sendSub,plain,Bool.toNat_false,Nat.sub_zero,List.take_length]
    exact subs_renders all
  lastBlock := fun hasBlock => absurd (plain.symm.trans hasBlock) Bool.false_ne_true
  counted := by
    constructor
    · simpa [sendSub,plain] using positional
    · simpa [sendSub,plain] using small

theorem rendersSend_withBlock (hasBlock : flags.hasBlock = true) (positional : numPosArgs.toNat ≤ args.length)
    (small : args.length < 2 ^ 16) (receiver : Faithful ctx recv) (all : ∀ e ∈ args, Faithful ctx e)
    (parsed : ∀ param ∈ params, (parseParam param).isSome = true)
    (given : ∀ loc expr default_, ExpressionPtr.optionalParam loc expr default_ ∈ params → Faithful ctx default_)
    (inner : Faithful ctx body) :
    RendersSend ctx
      (sendSub loc fun_ funLoc flags numPosArgs ⟨recv,walk ctx recv⟩ (subs ctx (args ++ [.block blockLoc params body]))
        (lastBlock ctx (args ++ [.block blockLoc params body])))
      (sendSub loc fun_ funLoc flags numPosArgs ⟨recv,mean ctx recv⟩ (meanSubs ctx (args ++ [.block blockLoc params body]))
        (meanLastBlock ctx (args ++ [.block blockLoc params body]))) where
  loc := rfl
  fun_ := rfl
  funLoc := rfl
  isPrivateOk := rfl
  hasBlock := rfl
  numPosArgs := rfl
  recv := receiver.renders
  trees := (subs_trees _).trans (meanSubs_trees _).symm
  nonBlockArgs := by
    have others : args.length + 1 - Bool.toNat true = args.length := Nat.add_sub_cancel ..
    simp only [SendSub.nonBlockArgs,sendSub,hasBlock,subs_length,meanSubs_length,List.length_append,List.length_singleton,others]
    rw [subs_append,meanSubs_append,List.take_left' (subs_length args),List.take_left' (meanSubs_length args)]
    exact subs_renders all
  lastBlock := fun _ => by
    refine ⟨_,_,lastBlock_append args _,meanLastBlock_append args _,?_⟩
    exact ⟨rfl,rfl,defaults_renders given,inner.renders,parsed⟩
  counted := by
    constructor
    · simpa [sendSub,hasBlock] using positional
    · simpa [sendSub,hasBlock] using small

end Sends

section Walks

theorem emptyTree_means {e : ExpressionPtr} (empty : isEmptyTree e = true) : mean ctx e = fun _ => skip := by
  unfold isEmptyTree at empty
  split at empty
  · rfl
  · cases empty

-- Whatever a tree does is what the paths through the graph built from it show, and nothing else.
theorem walk_faithful {e : ExpressionPtr} (buildable : Buildable ctx e) : Faithful ctx e := by
  induction buildable with
  | emptyTree => exact Implements.stays.entered
  | classDef => exact Implements.stays.entered
  | while_ _ _ cond body => exact (walkWhile_implements cond.renders body.renders).entered
  | return_ _ expr => exact (walkReturn_implements _ expr.renders).entered
  | if_ _ _ _ cond thenp elsep =>
    exact (walkIf_implements cond.renders (walkBranch_implements thenp.renders emptyTree_means)
      (walkBranch_implements elsep.renders emptyTree_means)).entered
  | literal => exact (walkLiteral_implements _ _).entered
  | unresolvedIdent allowed => exact (walkUnresolvedIdent_implements _ allowed).entered
  | knownSymbol => exact (walkConstantLit_implements _ _ .none).entered
  | resolvedSymbol _ kept => exact (walkConstantLit_implements _ _ (keptScope_renders kept)).entered
  | failedResolutionSymbol _ kept => exact (walkConstantLit_implements _ _ (keptScope_renders kept)).entered
  | local_ => exact (walkLocal_implements _ _).entered
  | self => exact (walkSelf_implements _).entered
  | assign assignable _ rhs => exact (walkAssignTo_implements _ assignable rhs.renders).entered
  | insSeq _ _ stats expr => exact (walkInsSeq_implements (subs_renders stats) expr.renders).entered
  | send plain positional small _ _ recv args =>
    exact (walkSend_implements (rendersSend plain positional small recv args)).entered
  | sendWithBlock hasBlock positional small _ _ parsed _ _ recv args given body =>
    exact (walkSend_implements (rendersSend_withBlock hasBlock positional small recv args parsed given body)).entered
  | next _ expr => exact (walkBlockReturn_implements _ expr.renders).entered
  | break_ _ expr => exact (walkBreak_implements _ expr.renders).entered
  | retry => exact (walkRetry_implements _).entered
  | rescue _ clauses _ _ _ _ body exceptions bodies else_ ensure_ =>
    exact (walkRescue_implements body.renders (caseSubs_same clauses exceptions bodies) else_.renders ensure_.renders).entered
  | hash pairs _ _ keys values => exact (walkHash_implements (subs_renders keys) (subs_renders values) (by simpa using pairs)).entered
  | array _ elems => exact (walkArray_implements (subs_renders elems)).entered
  | cast _ _ typed arg typeExpr => exact (walkCast_implements arg.renders typeExpr.renders typed).entered
  | runtimeMethodDefinition => exact (walkRuntimeMethodDefinition_implements _ _).entered

end Walks

end CFGBuilder
