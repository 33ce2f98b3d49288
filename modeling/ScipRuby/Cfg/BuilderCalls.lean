import Mathlib.Data.List.Forall2
import ScipRuby.Cfg.BuilderStatements

namespace CFGBuilder
open FlowGraphs TotalRuns FlowGraphs.Behaviour
open Serialize (LocOffsets TypePtr ParamFlags ExpressionPtr noLoc)

variable {ctx : Context} {s s' s₀ : State} {b c cur : BlockId} {live : List (BlockId × List Event)} {pending : List BlockId}
  {A : Behaviour} {st : Stretch} {T : Leave → Nat × Nat} {loc : LocOffsets} {cctx : CFGContext}

section Arguments
variable {args : List (Sub Walk)} {args' : List (Sub Meaning)}

theorem Renders.locs {w : Sub Walk} {m : Sub Meaning} (same : Renders ctx w m) : w.loc = m.loc := congrArg locOf same.tree

theorem Doing.posArgs (doing : Doing ctx st A s b live pending) (suits : Suits cctx st.target st.since) (temp : NameRef)
    (same : List.Forall₂ (Renders ctx) args args') : Achieves (walkPosArgs temp cctx args b) s fun r s' =>
      r.2.map (·.2) = args'.map (·.loc) ∧ Doing ctx st (A.seq (meanAll args' cctx.scope)) s' r.1 live pending := by
  induction same generalizing A s b with
  | nil => exact achieves_pure ⟨rfl,doing.as (seq_skip _).symm⟩
  | cons first _ ih =>
    refine Achieves.bind (doing.temp _) fun tmp s₁ ⟨_,_,doing⟩ => ?_
    refine Achieves.bind (first.sem.run (cctx.withTarget (.synthetic tmp)) doing suits) fun b' s₂ doing => ?_
    refine Achieves.bind (ih doing) fun (b'',refs) s₃ ⟨locs,doing⟩ => ?_
    refine achieves_pure ⟨?_,doing.as (seq_assoc ..)⟩
    simp only [List.map_cons,locs,first.locs]

theorem Doing.pairs (doing : Doing ctx st A s b live pending) (suits : Suits cctx st.target st.since)
    (same : List.Forall₂ (Renders ctx) args args') (n : Nat) (even : args.length = 2 * n) :
    Achieves (walkPairs ctx cctx args b) s fun r s' =>
      r.2.map (·.2) = args'.map (·.loc) ∧ Doing ctx st (A.seq (meanAll args' cctx.scope)) s' r.1 live pending := by
  induction n generalizing A s b args args' with
  | zero =>
    obtain rfl := List.length_eq_zero_iff.mp even
    cases same
    exact achieves_pure ⟨rfl,doing.as (seq_skip _).symm⟩
  | succ n ih =>
    match args,args',same with
    | key :: val :: rest,_,.cons sameKey (.cons sameVal more) =>
      refine Achieves.bind (doing.temp _) fun keyTmp s₁ ⟨_,_,doing⟩ => ?_
      refine Achieves.bind (doing.temp _) fun valTmp s₂ ⟨_,_,doing⟩ => ?_
      refine Achieves.bind (sameKey.sem.run (cctx.withTarget (.synthetic keyTmp)) doing suits) fun b₁ s₃ doing => ?_
      refine Achieves.bind (sameVal.sem.run (cctx.withTarget (.synthetic valTmp)) doing suits) fun b₂ s₄ doing => ?_
      have left : rest.length = 2 * n := by
        simp only [List.length_cons] at even
        omega
      refine Achieves.bind (ih doing more left) fun (b₃,refs) s₅ ⟨locs,doing⟩ => ?_
      refine achieves_pure ⟨by simp only [List.map_cons,locs,sameKey.locs,sameVal.locs],doing.as ?_⟩
      simp only [meanAll,List.map_cons,inOrder,seq_assoc]
      rfl
    | [_],_,_ =>
      simp only [List.length_singleton] at even
      omega
    | [],_,_ =>
      simp only [List.length_nil] at even
      omega

theorem forall₂_interleave {keys values : List (Sub Walk)} {keys' values' : List (Sub Meaning)}
    (same : List.Forall₂ (Renders ctx) keys keys') (same' : List.Forall₂ (Renders ctx) values values') :
    List.Forall₂ (Renders ctx) (interleave keys values) (interleave keys' values') := by
  induction same generalizing values values' with
  | nil => exact .nil
  | cons first _ ih =>
    cases same' with
    | nil => exact .nil
    | cons first' more' => exact .cons first (.cons first' (ih more'))

theorem interleave_length {α : Type} {keys values : List (Sub α)} (pairs : keys.length = values.length) :
    (interleave keys values).length = 2 * keys.length := by
  induction keys generalizing values with
  | nil => rfl
  | cons key keys ih =>
    cases values with
    | nil => cases pairs
    | cons value values =>
      simp only [interleave,List.length_cons,ih (Nat.succ.inj pairs)]
      omega

theorem Doing.magicCall {magic : LocalRef} {method : NameRef} {numArgs : Nat} {refs : List (LocalRef × LocOffsets)}
    (doing : Doing ctx st A s b live pending) (all : refs.length = numArgs) :
    Achieves (emitMagicCall ctx magic loc method numArgs refs cctx b) s fun ret s' =>
      Doing ctx st (A.seq (emit (.call method loc noLoc loc (refs.map (·.2)) numArgs false false))) s' ret live pending := by
  refine Achieves.bind (doing.hidden rfl) fun _ s₁ doing => ?_
  rw [make_eq (Nat.le_refl _) all]
  refine Achieves.bind (doing.shows rfl) fun _ s₂ doing => ?_
  exact achieves_pure doing

theorem walkHash_implements {keys values : List (Sub Walk)} {keys' values' : List (Sub Meaning)}
    (same : List.Forall₂ (Renders ctx) keys keys') (same' : List.Forall₂ (Renders ctx) values values')
    (pairs : keys.length = values.length) : Implements ctx (walkHash ctx loc keys values) (meanHash ctx loc keys' values') := by
  intro cctx s cur T sound open_ suits
  refine Achieves.bind ((Doing.start T sound open_).temp _) fun magic s₁ ⟨_,_,doing⟩ => ?_
  have even := interleave_length pairs
  refine Achieves.bind (doing.pairs suits (forall₂_interleave same same') _ even) fun (b,refs) s₂ ⟨locs,doing⟩ => ?_
  have all : refs.length = 2 * keys.length := by
    have count := congrArg List.length locs
    rw [List.length_map,List.length_map,←(forall₂_interleave same same').length_eq,even] at count
    exact count
  refine (doing.magicCall all).imp fun ret s₃ doing => doing.as ?_
  rw [skip_seq,meanHash,locs,same.length_eq]

theorem walkArray_implements {elems : List (Sub Walk)} {elems' : List (Sub Meaning)}
    (same : List.Forall₂ (Renders ctx) elems elems') :
    Implements ctx (walkArray ctx loc elems) (meanArray ctx loc elems') := by
  intro cctx s cur T sound open_ suits
  refine Achieves.bind ((Doing.start T sound open_).temp _) fun magic s₁ ⟨_,_,doing⟩ => ?_
  refine Achieves.bind (doing.posArgs suits _ same) fun (b,refs) s₂ ⟨locs,doing⟩ => ?_
  have count : refs.length = elems'.length := by simpa using congrArg List.length locs
  have all : (refs.map fun arg => (arg.1,loc)).length = elems.length := by rw [List.length_map,count,same.length_eq]
  have locs' : (refs.map fun arg => (arg.1,loc)).map (·.2) = elems'.map fun _ => loc := by
    rw [List.map_map,List.map_const',←count]
    exact List.map_const' ..
  refine (doing.magicCall all).imp fun ret s₃ doing => doing.as ?_
  rw [skip_seq,meanArray,locs',same.length_eq]

end Arguments

section BlockParameters

abbrev Param (α : Type) := Nat × ParsedParam × Option (Sub α)

-- The same parameter, with the walk of its default or with its meaning.
structure SameParam (ctx : Context) (w : Param Walk) (m : Param Meaning) : Prop where
  index : w.1 = m.1
  parsed : w.2.1 = m.2.1
  default_ : Option.Rel (Renders ctx) w.2.2 m.2.2

def meanParam (sc : Scope) (param : Param Meaning) : Behaviour :=
  let given := emit (.blockParam (UInt16.ofNat param.1) param.2.1.flags param.2.1.loc)
  match (if param.2.1.flags.isRepeated then none else param.2.2) with
  | some default_ => given ∪ default_.sem sc
  | none => given

theorem meanBlockParams_cons (sc : Scope) (param : Param Meaning) (rest : List (Param Meaning)) :
    meanBlockParams sc (param :: rest) = (meanParam sc param).seq (meanBlockParams sc rest) := rfl

variable {argTemp argLoc : LocalOccurrence} {bodyLoops : Int} {i : Nat} {arg : ParsedParam}

-- The argument is there, or its default is computed; then both go on.
theorem Doing.defaulted {default_ : Sub Walk} {default_' : Sub Meaning} (doing : Doing ctx st A s b live pending)
    (suits : Suits cctx st.target st.since) (same : Renders ctx default_ default_') {k : BlockId → Build BlockId}
    {Q : BlockId → State → Prop}
    (next : ∀ argBlock s', Doing ctx st
      (A.seq (emit (.blockParam (UInt16.ofNat i) arg.flags arg.loc) ∪ default_'.sem cctx.scope)) s' argBlock live pending →
      Achieves (k argBlock) s' Q) :
    Achieves (do
      let presentBlock ← freshBlock bodyLoops
      let missingBlock ← freshBlock bodyLoops
      let present ← newTemporary ctx.names.argPresent
      synthesizeExpr b (.synthetic present) arg.loc (.yieldParamPresent (UInt16.ofNat i))
      conditionalJump b present presentBlock missingBlock arg.loc
      let argBlock ← freshBlock bodyLoops
      emplaceBack presentBlock argLoc arg.loc (.yieldLoadArg (UInt16.ofNat i) arg.flags argTemp)
      unconditionalJump ctx presentBlock argBlock arg.loc
      let missingLast ← default_.sem (cctx.withTarget argLoc) missingBlock
      unconditionalJump ctx missingLast argBlock arg.loc
      k argBlock) s Q := by
  refine Achieves.bind (doing.holding.freshened _) fun presentBlock s₁ ⟨fresh₁,held,later₁⟩ => ?_
  refine Achieves.bind (held.freshened _) fun missingBlock s₂ ⟨fresh₂,held,later₂⟩ => ?_
  refine Achieves.bind (newTemporary_quiet ctx _) fun present s₃ ⟨_,apart,quiet⟩ => ?_
  obtain ⟨held,later₃⟩ := held.quiet quiet
  refine Achieves.bind (held.note b rfl) fun _ s₄ ⟨held,later₄⟩ => ?_
  replace held := held.perm (List.perm_middle : ([(missingBlock,[]),(presentBlock,[])] ++ (b,_) :: live).Perm _)
  have later := later₃.trans later₄
  refine Achieves.bind (held.branch pending (fresh₁.inside (later₂.trans later)) (fresh₂.inside later)
    (fresh₂.apart fresh₁.below) (apart ctx.names.argPresent_exists) (by simp +contextual)) fun _ s₅ ⟨held,later₅,leads⟩ => ?_
  refine Achieves.bind (held.freshened _) fun argBlock s₆ ⟨fresh₃,held,later₆⟩ => ?_
  -- the argument
  replace held := held.perm (List.perm_middle : ([(argBlock,[]),(missingBlock,[])] ++ (presentBlock,[]) :: live).Perm _)
  refine Achieves.bind ((held.stretch st.target).shows rfl) fun _ s₇ given => ?_
  refine Achieves.bind (given.holding.jump pending (fresh₃.inside given.since).1 fresh₃.inner (by simp +contextual))
    fun _ s₈ ⟨held,later₈,leads₁⟩ => ?_
  -- the default
  replace held := held.perm (List.Perm.swap _ _ _)
  have sofar := (((((later₁.trans later₂).trans later).trans later₅).trans later₆).trans given.since).trans later₈
  refine Achieves.bind (same.sem.run (cctx.withTarget argLoc) (held.stretch st.target)
    (suits.later (doing.since.trans sofar))) fun missingLast s₉ missing => ?_
  have later₆₉ := (given.since.trans later₈).trans missing.since
  refine Achieves.bind (missing.holding.jump pending (fresh₃.inside later₆₉).1 fresh₃.inner
    fun _ member _ => member) fun _ s₁₀ ⟨held,later₁₀,leads₂⟩ => ?_
  have later₅₁₀ := (later₆.trans later₆₉).trans later₁₀
  refine next argBlock s₁₀ (doing.then ⟨held,(sofar.trans missing.since).trans later₁₀⟩
    (.branch (leads.mono later₅₁₀.extends_) ?_ ?_))
  · have covers := (given.covers fresh₁.alive).mono ((later₈.trans missing.since).trans later₁₀).extends_
    rw [skip_seq] at covers
    exact covers.enter (.jump (leads₁.mono (missing.since.trans later₁₀).extends_) fresh₃.alive)
  · have covers := (missing.covers fresh₂.alive).mono later₁₀.extends_
    rw [skip_seq] at covers
    exact covers.enter (.jump leads₂ fresh₃.alive)

theorem Doing.blockParams {params : List (Param Walk)} {params' : List (Param Meaning)}
    (doing : Doing ctx st A s b live pending) (suits : Suits cctx st.target st.since)
    (same : List.Forall₂ (SameParam ctx) params params') :
    Achieves (walkBlockParams ctx cctx bodyLoops argTemp params b) s fun ret s' =>
      Doing ctx st (A.seq (meanBlockParams cctx.scope params')) s' ret live pending := by
  induction same generalizing A s b with
  | nil => exact achieves_pure (doing.as (seq_skip _).symm)
  | cons first _ ih =>
    rename_i param param' rest rest' _
    obtain ⟨i,arg,default_⟩ := param
    obtain ⟨i',arg',default_'⟩ := param'
    obtain ⟨rfl,rfl,known⟩ : i = i' ∧ arg = arg' ∧ Option.Rel (Renders ctx) default_ default_' :=
      ⟨first.index,first.parsed,first.default_⟩
    refine Achieves.bind (doing.entered _) fun v s₁ ⟨_,doing⟩ => ?_
    rw [meanBlockParams_cons,←seq_assoc]
    have chosen : Option.Rel (Renders ctx) (if arg.flags.isRepeated then none else default_)
        (if arg.flags.isRepeated then none else default_') := by
      split
      · exact .none
      · exact known
    unfold meanParam
    dsimp only
    generalize (if arg.flags.isRepeated then none else default_) = given at chosen ⊢
    generalize (if arg.flags.isRepeated then none else default_') = given' at chosen ⊢
    cases chosen with
    | none =>
      refine Achieves.bind (doing.shows rfl) fun _ s₂ doing => ?_
      exact ih doing
    | some same => exact doing.defaulted suits same fun argBlock s' doing => ih doing

theorem parseParams_quiet {params : List ExpressionPtr} (parsed : ∀ param ∈ params, (parseParam param).isSome = true) :
    Achieves (parseParams params) s fun flags s' => flags = params.filterMap parseParam ∧ s' = s := by
  induction params with
  | nil => exact achieves_pure ⟨rfl,rfl⟩
  | cons param params ih =>
    obtain ⟨known,more⟩ := List.forall_mem_cons.mp parsed
    obtain ⟨p,same⟩ := Option.isSome_iff_exists.mp known
    unfold parseParams
    rw [same]
    refine (ih more).bind fun flags s' ⟨same',unchanged⟩ => achieves_pure ⟨?_,unchanged⟩
    rw [List.filterMap_cons,same,same']

theorem sameParams {defaults : List (Option (Sub Walk))} {defaults' : List (Option (Sub Meaning))}
    (same : List.Forall₂ (Option.Rel (Renders ctx)) defaults defaults') (flags : List ParsedParam) (k : Nat) :
    List.Forall₂ (SameParam ctx) ((flags.zip defaults).mapIdx fun i param => (i + k,param))
      ((flags.zip defaults').mapIdx fun i param => (i + k,param)) := by
  induction same generalizing flags k with
  | nil => simp
  | cons first _ ih =>
    cases flags with
    | nil => exact .nil
    | cons flag flags =>
      simp only [List.zip_cons_cons,List.mapIdx_cons]
      refine .cons ⟨rfl,rfl,first⟩ ?_
      simpa only [Nat.add_right_comm _ 1 k,Nat.add_assoc] using ih flags (k + 1)

structure RendersBlock (ctx : Context) (w : BlockSub Walk) (m : BlockSub Meaning) : Prop where
  loc : w.loc = m.loc
  params : w.params = m.params
  defaults : List.Forall₂ (Option.Rel (Renders ctx)) w.defaults m.defaults
  body : Renders ctx w.body m.body
  parsed : ∀ param ∈ w.params, (parseParam param).isSome = true

def meanBlockArgs (block : BlockSub Meaning) (sc : Scope) : Behaviour :=
  let params := block.params.filterMap parseParam
  (if params.isEmpty then skip else emit (.blockParams block.loc)).seq
    (meanBlockParams sc ((params.zip block.defaults).mapIdx fun i param => (i,param)))

theorem Doing.blockArgs {block : BlockSub Walk} {block' : BlockSub Meaning} {link : LinkRef}
    (doing : Doing ctx st A s b live pending) (suits : Suits cctx st.target st.since) (same : RendersBlock ctx block block') :
    Achieves (walkBlockArgs ctx block (block.params.filterMap parseParam) link cctx b) s fun ret s' =>
      Doing ctx st (A.seq (meanBlockArgs block' cctx.scope)) s' ret live pending := by
  unfold meanBlockArgs
  rw [←same.params,←same.loc]
  refine achieves_ite (fun empty => ?_) fun given => ?_
  · obtain none_ := List.isEmpty_iff.mp empty
    simp only [none_,List.isEmpty_nil,if_true,List.zip_nil_left,List.mapIdx_nil]
    exact achieves_pure (doing.as (by rw [skip_seq]; exact (seq_skip A).symm))
  · simp only [given]
    refine Achieves.bind (doing.tempOccurrence _) fun argTemp s₁ ⟨_,_,doing⟩ => ?_
    refine Achieves.bind (doing.shows rfl) fun _ s₂ doing => ?_
    exact (doing.blockParams suits (sameParams same.defaults _ 0)).imp fun ret s₃ doing => doing.as (seq_assoc ..)

end BlockParameters

section Blocks
variable {binding : Binding} {ev : List Event} {to_ : BlockId} {pending' : List BlockId}

theorem onBlock_comm {f g : BasicBlock → BasicBlock} (comm : ∀ block, f (g block) = g (f block)) :
    onBlock b f (onBlock c g s) = onBlock c g (onBlock b f s) := by
  have blocks : (onBlock b f (onBlock c g s)).basicBlocks = (onBlock c g (onBlock b f s)).basicBlocks := by
    refine List.ext_getElem? fun i => ?_
    simp only [onBlock_get]
    split_ifs <;> simp only [Option.map_map,Function.comp_def,comm]
  exact congrArg (fun blocks => ({s with basicBlocks := blocks} : State)) blocks

theorem unconditionalJump_run (open_ : Open s b) (alive : b ≠ deadBlock) : unconditionalJump ctx b to_ loc s =
    some ((),withBackEdge to_ b (withExit b ⟨.synthetic (unconditional ctx),to_,to_,loc⟩ (marked to_ s))) := by
  have runs : Achieves (unconditionalJump ctx b to_ loc) s fun _ s' =>
      s' = withBackEdge to_ b (withExit b ⟨.synthetic (unconditional ctx),to_,to_,loc⟩ (marked to_ s)) := by
    refine achieves_modify_bind ?_
    rw [if_pos alive]
    refine Achieves.bind (achieves_setExit (marked_open open_) alive rfl) fun _ s₁ (same : s₁ = _) => ?_
    subst same
    exact achieves_modify rfl
  obtain ⟨_,_,ran,rfl⟩ := runs
  exact ran

-- What is written into a block after it ended could have been written before.
theorem unconditionalJump_emplace (open_ : Open s b) (alive : b ≠ deadBlock) :
    (unconditionalJump ctx b to_ loc >>= fun _ => emplace b binding) s =
      (emplace b binding >>= fun _ => unconditionalJump ctx b to_ loc) s := by
  have same : SameGraph ctx s (withBinding b binding s) := withBinding_same
  have open' : Open (withBinding b binding s) b := same.open_iff.mpr open_
  change (unconditionalJump ctx b to_ loc s).bind (fun p => emplace b binding p.2) =
    unconditionalJump ctx b to_ loc (withBinding b binding s)
  rw [unconditionalJump_run open_ alive,unconditionalJump_run open' alive]
  refine congrArg (fun s => some ((),s)) ?_
  have past_edge (s : State) : withBinding b binding (withBackEdge to_ b s) = withBackEdge to_ b (withBinding b binding s) :=
    onBlock_comm fun _ => rfl
  have past_exit (exit : BlockExit) (s : State) :
      withBinding b binding (withExit b exit s) = withExit b exit (withBinding b binding s) := onBlock_comm fun _ => rfl
  have past_mark (s : State) : withBinding b binding (marked to_ s) = marked to_ (withBinding b binding s) :=
    onBlock_comm fun _ => rfl
  exact (past_edge _).trans (congrArg _ ((past_exit _ _).trans (congrArg _ (past_mark s))))

theorem Doing.jump_late {e : Event} (doing : Doing ctx st A s b live pending) (pending' : List BlockId)
    (inside : to_ < s.basicBlocks.length ∧ to_ ≠ entry) (alive : b ≠ deadBlock) (seen : visible ctx binding = some e)
    (await : ∀ c ∈ pending, c ≠ to_ → c ∈ pending') :
    Achieves (unconditionalJump ctx b to_ loc >>= fun _ => emplace b binding) s fun _ s' =>
      (Holding ctx st.first st.cur s' live pending' ∧ Later ctx s s') ∧ ∃ q,
        Fragment deadBlock st.target (flow ctx s') st.place (A.seq (emit e)) q ∧ Leads deadBlock (flow ctx s') q to_ to_ := by
  have open_ := (doing.holding.open_ _ List.mem_cons_self).1
  unfold Achieves
  rw [unconditionalJump_emplace open_ alive]
  refine Achieves.bind (doing.resume.shows seen) fun _ s₁ doing => ?_
  have inside' : to_ < s₁.basicBlocks.length := Nat.lt_of_lt_of_le inside.1 doing.since.length
  refine (doing.holding.jump pending' inside' inside.2 await).imp fun _ s₂ ⟨held,later,leads⟩ => ?_
  exact ⟨⟨held,doing.since.trans later⟩,_,doing.fragment.mono later.extends_,leads⟩

theorem scope_lambda {inner : CFGContext} {lambda : Bool} :
    (if lambda then {inner with isInsideLambda := true} else inner : CFGContext).scope =
      ⟨inner.isInsideRubyBlock,inner.isInsideLambda ∨ lambda⟩ := by
  cases lambda <;> simp [CFGContext.scope]

-- Where the end of a call with a block goes, and the next call of the block.
def inCall (T : Leave → Nat × Nat) (header after : BlockId) : Leave → Nat × Nat :=
  Function.update (Function.update T .again (header,0)) .done (after,0)

theorem inCall_other {header after : BlockId} {l : Leave} (again : l ≠ .again) (done : l ≠ .done) :
    inCall T header after l = T l := (Function.update_of_ne done ..).trans (Function.update_of_ne again ..)

theorem Suits.inCall {header after : BlockId} (suits : Suits cctx T s) : Suits cctx (inCall T header after) s :=
  ⟨suits.1,(inCall_other (by decide) (by decide)).trans suits.2.1,(inCall_other (by decide) (by decide)).trans suits.2.2.1,
    (inCall_other (by decide) (by decide)).trans suits.2.2.2.1,(inCall_other (by decide) (by decide)).trans suits.2.2.2.2⟩

-- Out of the block: next is the end of this call of it, and break that of the whole call.
theorem fragment_blockBody {F : Flow Event} {header after : BlockId} {p q : Nat × Nat}
    (fragment : Fragment deadBlock (inLoop (inCall T header after) header after) F p A q) :
    Fragment deadBlock (inCall T header after) F p (blockBody A) q := by
  intro alive
  refine (fragment alive).redirect (fun t o _ => ?_) fun gone t o mem ended => (fragment alive).stuck gone ⟨t,?_⟩
  · cases o with
    | none => exact ⟨rfl,fun _ => rfl⟩
    | some l => cases l <;> simp [dest,inLoop,CFGBuilder.inCall,Function.update]
  · cases o with
    | none => exact mem
    | some l => cases l <;> simp at ended

theorem Doing.blockEnds {blockLoc : LocOffsets} {link : LinkRef} {blockrv : LocalRef} (doing : Doing ctx st A s b live pending) :
    Achieves (emitBlockEnd ctx blockLoc link blockrv b) s fun _ s' => Doing ctx st A s' b live pending := by
  refine achieves_ite (fun _ => ?_) fun _ => achieves_pure doing
  refine Achieves.bind (doing.temp _) fun dead s₁ ⟨_,_,doing⟩ => ?_
  exact achieves_get_bind (doing.hidden rfl)

variable {w : SendSub Walk} {m : SendSub Meaning} {block : BlockSub Walk} {block' : BlockSub Meaning}

theorem meanBlock_eq (sc : Scope) : meanBlock ctx m block' sc =
    calls (inOrder [emit (.blockSelf m.loc),meanBlockArgs block' sc,
      blockBody (block'.body.sem ⟨true,sc.insideLambda ∨ isKernelLambda ctx m⟩),leave .again] ∪
        (emit (.callDone m.loc)).seq (leave .done)) := by
  simp only [meanBlock,meanBlockArgs,inOrder,seq_assoc]

theorem blockCall_condition (ctx : Context) : Condition ctx (blockCall ctx) :=
  ⟨decide_eq_true ctx.names.blockCall_exists,fun same => ctx.names.blockCall_apart (congrArg LocalVariable.name same)⟩

theorem Doing.sendWithBlock {snd : SendInsn} (doing : Doing ctx st A s b live pending) (suits : Suits cctx st.target st.since)
    (same : RendersBlock ctx block block') (here : w.loc = m.loc) (lambda : isKernelLambda ctx w = isKernelLambda ctx m) :
    Achieves (walkSendWithBlock ctx w block snd cctx b) s fun ret s' => Doing ctx st
      ((A.seq (emit (.call snd.fun_ m.loc snd.funLoc snd.receiverLoc snd.argLocs snd.numPosArgs snd.isPrivateOk true))).seq
        (meanBlock ctx m block' cctx.scope)) s' ret live pending := by
  refine Achieves.bind (parseParams_quiet same.parsed) fun flags s₀ ⟨parsed,unchanged⟩ => ?_
  subst parsed unchanged
  refine Achieves.bind (enterLink_quiet ctx doing.holding.sound _ _ _) fun link s₁ ⟨linked,nonzero,quiet⟩ => ?_
  have start := doing.since.trans (doing.holding.quiet quiet).2
  refine Achieves.bind ((doing.quiet quiet).resume.temp _) fun sendTemp s₂ ⟨_,_,doing⟩ => ?_
  refine Achieves.bind (doing.shows (e := .call snd.fun_ m.loc snd.funLoc snd.receiverLoc snd.argLocs snd.numPosArgs
    snd.isPrivateOk true) ?_) fun _ s₃ doing => ?_
  · simp [visible,nonzero,here]
  refine Achieves.bind (doing.temp _) fun restoreSelf s₄ ⟨_,_,doing⟩ => ?_
  refine Achieves.bind (doing.hidden rfl) fun _ s₅ doing => ?_
  -- the blocks of the call
  refine Achieves.bind (doing.holding.freshened _) fun header s₆ ⟨fresh₁,held,later₆⟩ => ?_
  refine Achieves.bind (held.freshened _) fun solve s₇ ⟨fresh₂,held,later₇⟩ => ?_
  refine Achieves.bind (held.freshened _) fun post s₈ ⟨fresh₃,held,later₈⟩ => ?_
  refine Achieves.bind (held.freshened _) fun bodyBlock s₉ ⟨fresh₄,held,later₉⟩ => ?_
  have callSuits : Suits cctx (CFGBuilder.inCall st.target header post) s₉ :=
    (suits.later (start.trans (doing.since.trans ((later₆.trans later₇).trans (later₈.trans later₉))))).inCall
  refine Achieves.bind ((held.stretch (CFGBuilder.inCall st.target header post)).shows rfl) fun _ s₁₀ body => ?_
  refine Achieves.bind (body.blockArgs callSuits same) fun argBlock s₁₁ body => ?_
  -- the header
  have later₆₁₁ := ((later₇.trans later₈).trans later₉).trans body.since
  have held := body.holding.perm (List.perm_middle : ([(argBlock,_),(post,[]),(solve,[])] ++ (header,[]) :: (b,_) :: live).Perm _)
  refine Achieves.bind (held.branch (post :: header :: pending) (fresh₄.inside body.since)
    (fresh₂.inside ((later₈.trans later₉).trans body.since)) (fresh₄.apart (fresh₂.inside later₈).1).symm
    (blockCall_condition ctx) (by simp +contextual))
    fun _ s₁₂ ⟨held,later₁₂,leads₁⟩ => ?_
  replace held := held.perm (List.perm_middle : ([(argBlock,_),(post,[]),(solve,[])] ++ (b,_) :: live).Perm _)
  refine Achieves.bind (held.jump (post :: pending) (fresh₁.inside (later₆₁₁.trans later₁₂)).1 fresh₁.inner
    (by simp +contextual)) fun _ s₁₃ ⟨held,later₁₃,leads₂⟩ => ?_
  refine Achieves.bind (newTemporary_quiet ctx _) fun blockrv s₁₄ ⟨_,_,quiet'⟩ => ?_
  obtain ⟨held,later₁₄⟩ := held.quiet quiet'
  -- the body of the block
  have later₁₁₁₄ := (later₁₂.trans later₁₃).trans later₁₄
  have sofar := (((doing.since.trans later₆).trans later₆₁₁).trans later₁₁₁₄)
  have linked' : Linked s₁₄ link := linked.mono sofar.links
  have linkSuits : Suits (cctx.withSendAndBlockLink link) (CFGBuilder.inCall st.target header post) s₁₄ :=
    ⟨⟨(callSuits.later (body.since.trans later₁₁₁₄)).1.1,fun _ => linked'⟩,callSuits.2⟩
  have bodySuits := linkSuits.inLoop (fresh₁.inside (later₆₁₁.trans later₁₁₁₄))
    (fresh₃.inside ((later₉.trans body.since).trans later₁₁₁₄)) true fun _ => linked'
  let inner := (((cctx.withTarget (.synthetic blockrv)).withBlockBreakTarget cctx.target.variable_).withLoopScope header
    post true).withSendAndBlockLink link
  have newSuits : Suits (if isKernelLambda ctx w then {inner with isInsideLambda := true} else inner)
      (inLoop (CFGBuilder.inCall st.target header post) header post) s₁₄ := by
    split
    · exact bodySuits
    · exact bodySuits
  have newScope : (if isKernelLambda ctx w then {inner with isInsideLambda := true} else inner : CFGContext).scope =
      ⟨true,cctx.scope.insideLambda ∨ isKernelLambda ctx m⟩ := by
    rw [scope_lambda,lambda]
    rfl
  refine Achieves.bind (same.body.sem.run (if isKernelLambda ctx w then {inner with isInsideLambda := true} else inner)
    (held.stretch (inLoop (CFGBuilder.inCall st.target header post) header post)) newSuits) fun blockLast s₁₅ last => ?_
  refine Achieves.bind last.blockEnds fun _ s₁₆ last => ?_
  refine Achieves.bind (last.holding.jump (post :: pending) (fresh₁.inside ((later₆₁₁.trans later₁₁₁₄).trans last.since)).1
    fresh₁.inner fun _ member _ => member) fun _ s₁₇ ⟨held,later₁₇,leads₃⟩ => ?_
  -- the end of the call
  replace held := held.perm (List.Perm.swap _ _ _)
  have later₁₁₁₇ := (later₁₁₁₄.trans last.since).trans later₁₇
  refine achieves_bind_assoc (Achieves.bind ((held.stretch (CFGBuilder.inCall st.target header post)).jump_late (e := .callDone m.loc)
    pending (fresh₃.inside ((later₉.trans body.since).trans later₁₁₁₇)) fresh₂.alive
    (congrArg (fun loc => some (Event.callDone loc)) here) (by simp +contextual)) ?_)
  rintro _ s₁₈ ⟨⟨held,later₁₈⟩,q,solved,leads₄⟩
  refine Achieves.bind (held.note post rfl) fun _ s₁₉ ⟨held,later₁₉⟩ => ?_
  have later₁₇₁₉ := later₁₈.trans later₁₉
  have later₁₆₁₉ := later₁₇.trans later₁₇₁₉
  have later₁₂₁₉ := ((later₁₃.trans later₁₄).trans last.since).trans later₁₆₁₉
  have later₁₁₁₉ := later₁₂.trans later₁₂₁₉
  -- one call of the block
  have again : CFGBuilder.inCall st.target header post .again = (header,0) :=
    (Function.update_of_ne (by decide) ..).trans (Function.update_self ..)
  have done : CFGBuilder.inCall st.target header post .done = (post,0) := Function.update_self ..
  have called := (fragment_blockBody last.fragment).mono later₁₆₁₉.extends_
  have ended : Fragment deadBlock (CFGBuilder.inCall st.target header post) (flow ctx s₁₉) _ (leave .again) (post,0) :=
    .goto (leads₃.mono later₁₇₁₉.extends_) again
  have round := ((body.fragment.mono later₁₁₁₉.extends_).seq called).seq ended
  have left : Fragment deadBlock (CFGBuilder.inCall st.target header post) (flow ctx s₁₉) _ (leave .done) (post,0) :=
    .goto (leads₄.mono later₁₉.extends_) done
  have over_ := (solved.mono later₁₉.extends_).seq left
  have rounds := (Fragment.branch (leads₁.mono later₁₂₁₉.extends_) (round fresh₄.alive).free
    (over_ fresh₂.alive).free).rounds (by decide) fresh₃.alive
  have entered := leads₂.mono ((later₁₄.trans last.since).trans later₁₆₁₉).extends_
  have whole := (later₆.trans later₆₁₁).trans later₁₁₁₉
  refine achieves_pure (((doing.then ⟨held,whole⟩ (.enter entered (rounds fresh₁.alive).free)).restore start).as ?_)
  rw [meanBlock_eq,newScope]
  simp only [calls,inOrder,Behaviour.seq_assoc,skip_seq,seq_skip,here]

end Blocks

variable {w : SendSub Walk} {m : SendSub Meaning}

section Arguments

-- The counts of a send fit its arguments.
structure Counted {α : Type} (s : SendSub α) : Prop where
  fits : s.numPosArgs.toNat + s.hasBlock.toNat ≤ s.args.length
  small : s.args.length - s.hasBlock.toNat < 2 ^ 16

structure RendersSend (ctx : Context) (w : SendSub Walk) (m : SendSub Meaning) : Prop where
  loc : w.loc = m.loc
  fun_ : w.fun_ = m.fun_
  funLoc : w.funLoc = m.funLoc
  isPrivateOk : w.isPrivateOk = m.isPrivateOk
  hasBlock : w.hasBlock = m.hasBlock
  numPosArgs : w.numPosArgs = m.numPosArgs
  recv : Renders ctx w.recv m.recv
  trees : w.trees = m.trees
  nonBlockArgs : List.Forall₂ (Renders ctx) w.nonBlockArgs m.nonBlockArgs
  lastBlock : w.hasBlock = true → ∃ block block', w.lastBlock = some block ∧ m.lastBlock = some block' ∧
    RendersBlock ctx block block'
  counted : Counted w

theorem kwSplats_le {α : Type} (s : SendSub α) : Serialize.kwSplats s.numPosArgs s.hasBlock s.trees ≤ 1 :=
  Nat.lt_succ_iff.mp (Nat.mod_lt _ Nat.two_pos)

namespace Counted
variable {α : Type} {s : SendSub α} (counted : Counted s)
include counted

theorem numKwArgs_eq : s.numPosArgs.toNat + s.numKwArgs * 2 + Serialize.kwSplats s.numPosArgs s.hasBlock s.trees =
    s.args.length - s.hasBlock.toNat := by
  obtain ⟨fits,small⟩ := counted
  simp only [SendSub.numKwArgs,Serialize.numKwArgs,Serialize.kwSplats,SendSub.trees,List.length_map]
  omega

theorem numNonBlockArgs_eq : s.numNonBlockArgs = s.args.length - s.hasBlock.toNat := by
  have whole := counted.numKwArgs_eq
  have small := counted.small
  rw [SendSub.numKwArgs] at whole
  rw [SendSub.numNonBlockArgs,Serialize.numNonBlockArgs,whole,Nat.mod_eq_of_lt small]

theorem kwArgPairs_length : s.kwArgPairs.length = 2 * s.numKwArgs := by
  have whole := counted.numKwArgs_eq
  simp only [SendSub.kwArgPairs,List.length_take,List.length_drop]
  omega

-- The double splat is the last argument but the block.
theorem kwSplat_eq : s.kwSplat.toList = (s.args.drop (s.numPosArgs.toNat + s.numKwArgs * 2)).take
    (Serialize.kwSplats s.numPosArgs s.hasBlock s.trees) := by
  have whole := counted.numKwArgs_eq
  have fits := counted.fits
  unfold SendSub.kwSplat SendSub.hasKwSplat
  rcases Nat.le_one_iff_eq_zero_or_eq_one.mp (kwSplats_le s) with none_ | one
  · simp [none_]
  · rw [one] at whole ⊢
    simp only [decide_true,if_true]
    have inside : s.args.length - 1 - s.hasBlock.toNat < s.args.length := by omega
    have there : s.numPosArgs.toNat + s.numKwArgs * 2 = s.args.length - 1 - s.hasBlock.toNat := by omega
    rw [there,List.drop_eq_getElem_cons inside,List.getElem?_eq_getElem inside]
    rfl

theorem nonBlockArgs_eq : s.posArgs ++ s.kwArgPairs ++ s.kwSplat.toList = s.nonBlockArgs := by
  rw [counted.kwSplat_eq,SendSub.nonBlockArgs,←counted.numKwArgs_eq,List.take_add,List.take_add]
  rfl

theorem posArgs_length : s.posArgs.length = s.numPosArgs.toNat := by
  have fits := counted.fits
  rw [SendSub.posArgs,List.length_take]
  omega

theorem posArgs_eq : s.posArgs = s.nonBlockArgs.take s.numPosArgs.toNat := by
  rw [←counted.nonBlockArgs_eq,List.append_assoc,List.take_left' counted.posArgs_length]

theorem afterPosArgs_eq : s.kwArgPairs ++ s.kwSplat.toList = s.nonBlockArgs.drop s.numPosArgs.toNat := by
  rw [←counted.nonBlockArgs_eq,List.append_assoc,List.drop_left' counted.posArgs_length]

theorem kwArgPairs_eq : s.kwArgPairs = (s.nonBlockArgs.drop s.numPosArgs.toNat).take (2 * s.numKwArgs) := by
  rw [←counted.afterPosArgs_eq,List.take_left' counted.kwArgPairs_length]

theorem kwSplat_toList : s.kwSplat.toList = (s.nonBlockArgs.drop s.numPosArgs.toNat).drop (2 * s.numKwArgs) := by
  rw [←counted.afterPosArgs_eq,List.drop_left' counted.kwArgPairs_length]

end Counted

namespace RendersSend
variable (same : RendersSend ctx w m)
include same

theorem args_length : w.args.length = m.args.length := by
  have count := congrArg List.length same.trees
  simpa [SendSub.trees] using count

theorem counted' : Counted m := by
  refine ⟨?_,?_⟩
  · rw [←same.numPosArgs,←same.hasBlock,←same.args_length]
    exact same.counted.fits
  · rw [←same.hasBlock,←same.args_length]
    exact same.counted.small

theorem numKwArgs : w.numKwArgs = m.numKwArgs := by
  rw [SendSub.numKwArgs,same.trees,same.numPosArgs,same.hasBlock]
  rfl

theorem posArgs : List.Forall₂ (Renders ctx) w.posArgs m.posArgs := by
  rw [same.counted.posArgs_eq,same.counted'.posArgs_eq,same.numPosArgs]
  exact List.forall₂_take _ same.nonBlockArgs

theorem kwArgPairs : List.Forall₂ (Renders ctx) w.kwArgPairs m.kwArgPairs := by
  rw [same.counted.kwArgPairs_eq,same.counted'.kwArgPairs_eq,same.numPosArgs,same.numKwArgs]
  exact List.forall₂_take _ (List.forall₂_drop _ same.nonBlockArgs)

theorem kwSplat : List.Forall₂ (Renders ctx) w.kwSplat.toList m.kwSplat.toList := by
  rw [same.counted.kwSplat_toList,same.counted'.kwSplat_toList,same.numPosArgs,same.numKwArgs]
  exact List.forall₂_drop _ (List.forall₂_drop _ same.nonBlockArgs)

theorem recv_symbol : constantSymbol ctx.symbols.stubModule w.recv.tree = constantSymbol ctx.symbols.stubModule m.recv.tree := by
  rw [same.recv.tree]

theorem recvIsT : sendRecvIsT ctx w = sendRecvIsT ctx m := by
  unfold sendRecvIsT
  rw [same.recv_symbol]

theorem kernelLambda : isKernelLambda ctx w = isKernelLambda ctx m := by
  unfold isKernelLambda
  rw [same.recv_symbol,same.fun_]

theorem kwArgs : w.hasKwArgs = m.hasKwArgs := by
  unfold SendSub.hasKwArgs
  rw [same.args_length,same.numPosArgs,same.hasBlock]

theorem typeParameter : typeParameterAlias ctx w = typeParameterAlias ctx m := by
  have args := same.posArgs
  unfold typeParameterAlias
  rw [same.loc]
  generalize w.posArgs = left at args ⊢
  generalize m.posArgs = right at args ⊢
  match args with
  | .nil => rfl
  | .cons (b := b) first .nil =>
    dsimp only
    rw [first.tree]
  | .cons _ (.cons _ _) => rfl

end RendersSend

end Arguments

section Specials

theorem Doing.absurds (doing : Doing ctx st A s b live pending) (suits : Suits cctx st.target st.since)
    (same : RendersSend ctx w m) : Achieves (walkTAbsurd ctx w cctx b) s fun ret s' =>
      Doing ctx st (A.seq (meanTAbsurd m cctx.scope)) s' ret live pending := by
  have args := same.posArgs
  unfold walkTAbsurd meanTAbsurd
  rw [same.kwArgs]
  refine achieves_ite (fun keywords => ?_) fun positional => ?_
  · rw [if_pos keywords]
    refine Achieves.bind (report_quiet ctx _) fun _ s₁ quiet => ?_
    exact achieves_pure ((doing.quiet quiet).as (seq_skip A).symm)
  rw [if_neg positional]
  generalize w.posArgs = left at args ⊢
  generalize m.posArgs = right at args ⊢
  match args with
  | .nil =>
    refine Achieves.bind (report_quiet ctx _) fun _ s₁ quiet => ?_
    exact achieves_pure ((doing.quiet quiet).as (seq_skip A).symm)
  | .cons first .nil =>
    dsimp only
    rw [first.tree]
    refine achieves_ite (fun variable_ => ?_) fun other => ?_
    · rw [if_pos variable_]
      refine Achieves.bind (doing.temp _) fun temp s₁ ⟨_,_,doing⟩ => ?_
      refine Achieves.bind (first.sem.run (cctx.withTarget (.synthetic temp)) doing suits) fun b' s₂ doing => ?_
      refine Achieves.bind (doing.shows rfl) fun _ s₃ doing => ?_
      refine achieves_pure (doing.as ?_)
      rw [Behaviour.seq_assoc,same.loc]
      rfl
    · rw [if_neg other]
      refine Achieves.bind (report_quiet ctx _) fun _ s₁ quiet => ?_
      exact achieves_pure ((doing.quiet quiet).as (seq_skip A).symm)
  | .cons _ (.cons _ _) =>
    refine Achieves.bind (report_quiet ctx _) fun _ s₁ quiet => ?_
    exact achieves_pure ((doing.quiet quiet).as (seq_skip A).symm)

theorem checkNew_quiet (w : SendSub Walk) : Achieves (checkNew ctx w) s fun _ s' => Quiet ctx s s' := by
  unfold checkNew
  split
  · exact achieves_pure (.refl s)
  · exact achieves_ite (fun _ => report_quiet ctx _) fun _ => achieves_pure (.refl s)

-- A call that is not one is built as such, and otherwise nothing is done yet.
theorem Doing.specials (doing : Doing ctx st A s b live pending) (suits : Suits cctx st.target st.since)
    (same : RendersSend ctx w m) : Achieves (handleSpecialMethods ctx w cctx b) s fun r s' =>
      match r,meanSpecial ctx m with
      | some ret,some special => Doing ctx st (A.seq (special cctx.scope)) s' ret live pending
      | none,none => Doing ctx st A s' b live pending
      | _,_ => False := by
  unfold handleSpecialMethods meanSpecial
  rw [same.fun_,same.recvIsT]
  refine achieves_ite (fun absurd_ => ?_) fun other => achieves_ite (fun parameter => ?_) fun other' => ?_
  · rw [if_pos absurd_]
    refine achieves_ite (fun isT => ?_) fun notT => ?_
    · rw [if_pos isT]
      exact (doing.absurds suits same).map fun ret s' doing => doing
    · rw [if_neg notT]
      exact achieves_pure doing
  · rw [if_neg other,if_pos parameter]
    refine achieves_ite (fun isT => ?_) fun notT => ?_
    · rw [if_pos isT,←same.typeParameter]
      generalize typeParameterAlias ctx w = found
      obtain ⟨typeParam,errors⟩ := found
      refine Achieves.bind (reportAll_quiet ctx _) fun _ s₁ quiet => ?_
      have doing := doing.quiet quiet
      cases typeParam with
      | none => exact achieves_pure doing
      | some typeParam =>
        refine Achieves.bind (doing.shows rfl) fun _ s₂ doing => ?_
        exact achieves_pure (doing.as (by rw [same.loc]))
    · rw [if_neg notT]
      exact achieves_pure doing
  · rw [if_neg other,if_neg other']
    refine achieves_ite (fun _ => ?_) fun _ => achieves_pure doing
    exact Achieves.bind (checkNew_quiet w) fun _ s₁ quiet => achieves_pure (doing.quiet quiet)

end Specials

section Sends

theorem inOrder_append (A B : List Behaviour) : inOrder (A ++ B) = (inOrder A).seq (inOrder B) := by
  induction A with
  | nil => exact (skip_seq _).symm
  | cons first _ ih => exact (congrArg first.seq ih).trans (Behaviour.seq_assoc ..).symm

theorem meanAll_append (first second : List (Sub Meaning)) (sc : Scope) :
    meanAll (first ++ second) sc = (meanAll first sc).seq (meanAll second sc) := by
  rw [meanAll,List.map_append,inOrder_append]
  rfl

theorem walkSend_implements (same : RendersSend ctx w m) : Implements ctx (walkSend ctx w) (meanSend ctx m) := by
  intro cctx s cur T sound open_ suits
  have counted := same.counted
  have counted' := same.counted'
  refine Achieves.bind ((Doing.start T sound open_).specials suits same) fun special s₁ doing => ?_
  unfold meanSend
  revert doing
  cases meanSpecial ctx m with
  | some meant =>
    cases special with
    | none => exact False.elim
    | some ret => exact fun doing => achieves_pure (doing.as (skip_seq _))
  | none =>
    cases special with
    | some ret => exact False.elim
    | none =>
      intro doing
      refine Achieves.bind (doing.temp _) fun recv s₂ ⟨_,_,doing⟩ => ?_
      refine Achieves.bind (same.recv.sem.run (cctx.withTarget (.synthetic recv)) doing suits) fun b₁ s₃ doing => ?_
      refine Achieves.bind (doing.posArgs suits _ same.posArgs) fun (b₂,posRefs) s₄ ⟨posLocs,doing⟩ => ?_
      refine Achieves.bind (doing.pairs suits same.kwArgPairs _ counted.kwArgPairs_length) fun (b₃,kwRefs) s₅ ⟨kwLocs,doing⟩ => ?_
      refine Achieves.bind (doing.posArgs suits _ same.kwSplat) fun (b₄,splatRefs) s₆ ⟨splatLocs,doing⟩ => ?_
      have locs : (posRefs ++ kwRefs ++ splatRefs).map (·.2) = m.nonBlockArgs.map (·.loc) := by
        rw [←counted'.nonBlockArgs_eq]
        simp only [List.map_append]
        rw [posLocs,kwLocs,splatLocs]
      have all : (posRefs ++ kwRefs ++ splatRefs).length = w.numNonBlockArgs := by
        have count := congrArg List.length locs
        rw [List.length_map,List.length_map,←same.nonBlockArgs.length_eq] at count
        rw [count,counted.numNonBlockArgs_eq,SendSub.nonBlockArgs,List.length_take]
        exact Nat.min_eq_left (Nat.sub_le ..)
      have positional : w.numPosArgs.toNat ≤ w.numNonBlockArgs := by
        rw [counted.numNonBlockArgs_eq]
        exact Nat.le_sub_of_add_le counted.fits
      replace doing := doing.as (B := (m.recv.sem cctx.scope).seq (meanAll m.nonBlockArgs cctx.scope)) (by
        rw [←counted'.nonBlockArgs_eq,meanAll_append,meanAll_append]
        simp only [Behaviour.seq_assoc,skip_seq]
        rfl)
      dsimp only
      rw [make_eq positional all,locs]
      by_cases hasBlock : w.hasBlock = true
      · obtain ⟨block,block',known,known',sameBlock⟩ := same.lastBlock hasBlock
        rw [←same.hasBlock,hasBlock,known,known']
        refine (doing.sendWithBlock suits sameBlock same.loc same.kernelLambda).imp fun ret s₇ doing => doing.as ?_
        simp only [inOrder,Behaviour.seq_assoc,seq_skip,same.fun_,same.funLoc,same.recv.locs,same.numPosArgs,same.isPrivateOk]
      · have plain : w.hasBlock = false := Bool.not_eq_true _ ▸ hasBlock
        rw [←same.hasBlock,plain]
        refine Achieves.bind (doing.shows rfl) fun _ s₇ doing => ?_
        refine achieves_pure (doing.as ?_)
        simp only [inOrder,Behaviour.seq_assoc,seq_skip,same.fun_,same.funLoc,same.recv.locs,same.numPosArgs,same.isPrivateOk,
          same.loc]
        rfl

end Sends

end CFGBuilder
