import ScipRuby.Cfg.BuilderCalls

namespace CFGBuilder
open FlowGraphs TotalRuns FlowGraphs.Behaviour
open Serialize (LocOffsets ExpressionPtr noLoc)

variable {ctx : Context} {s s' s₀ : State} {b c cur : BlockId} {live : List (BlockId × List Event)}
  {pending pending' : List BlockId} {A : Behaviour} {st : Stretch} {T : Leave → Nat × Nat} {cctx : CFGContext}
  {loc : LocOffsets}

section Handlers
variable {exceptionValue : LocalRef} {ex : Sub Walk} {ex' : Sub Meaning}

def handlerCall (ctx : Context) (loc : LocOffsets) : Event :=
  .call ctx.names.tripleEq loc (copyWithZeroLength loc) loc [loc] 1 false false

-- Where a class is asked for, the clause is entered or the next class is asked for.
theorem Doing.handler (doing : Doing ctx st A s b live pending) (suits : Suits cctx st.target st.since)
    (same : Renders ctx ex ex') (pending' : List BlockId) (inside : c < s.basicBlocks.length ∧ c ≠ entry)
    (await : ∀ x ∈ pending, x ≠ c → x ∈ pending') :
    Achieves (buildExceptionHandler ctx ex c exceptionValue cctx b) s fun other s' =>
      (Holding ctx st.first st.cur s' ((other,[]) :: live) pending' ∧ Later ctx s s') ∧ other ≠ deadBlock ∧ ∃ q,
        Fragment deadBlock st.target (flow ctx s') st.place
          (A.seq ((ex'.sem cctx.scope).seq (emit (handlerCall ctx ex'.loc)))) q ∧
        Leads deadBlock (flow ctx s') q c other := by
  have suits := suits.later doing.since
  refine Achieves.bind (doing.resume.temp _) fun exceptionClass s₁ ⟨_,_,doing⟩ => ?_
  refine Achieves.bind (same.sem.run (cctx.withTarget (.synthetic exceptionClass)) doing suits) fun b₁ s₂ doing => ?_
  refine Achieves.bind (doing.temp _) fun isaCheck s₃ ⟨_,apart,doing⟩ => ?_
  rw [make_eq (Nat.le_refl 1) rfl]
  refine Achieves.bind (doing.shows rfl) fun _ s₄ doing => ?_
  refine Achieves.bind (doing.holding.freshened _) fun other s₅ ⟨fresh,held,later₅⟩ => ?_
  replace held := held.perm (List.Perm.swap _ _ _)
  have inside' : c < s₄.basicBlocks.length := Nat.lt_of_lt_of_le inside.1 doing.since.length
  refine Achieves.bind (held.branch pending' ⟨Nat.lt_of_lt_of_le inside' later₅.length,inside.2⟩ ⟨fresh.below,fresh.inner⟩
    (fresh.apart inside') (apart ctx.names.isaCheckTemp_exists) ?_) fun _ s₆ ⟨held,later₆,leads⟩ => ?_
  · intro x member left right
    rcases List.mem_cons.mp member with new | member
    · exact absurd new right
    · exact await x member left
  have later := later₅.trans later₆
  refine achieves_pure ⟨⟨held,doing.since.trans later⟩,fresh.alive,_,?_,leads⟩
  have fragment := doing.fragment.mono later.extends_
  rw [Behaviour.seq_assoc] at fragment
  simp only [handlerCall,←same.locs]
  exact fragment

-- The classes of a clause are asked for in turn. What the clause does, and what is done where none of them matches, is known
-- only when they are.
theorem Doing.handlers {exceptions : List (Sub Walk)} {exceptions' : List (Sub Meaning)}
    (doing : Doing ctx st A s b live pending) (suits : Suits cctx st.target st.since)
    (same : List.Forall₂ (Renders ctx) exceptions exceptions') (pending' : List BlockId)
    (inside : c < s.basicBlocks.length ∧ c ≠ entry) (alive : c ≠ deadBlock) (await : ∀ x ∈ pending, x ≠ c → x ∈ pending')
    (empty : exceptions = [] → pending = pending') :
    Achieves (buildExceptionHandlers ctx c exceptionValue cctx exceptions b) s fun ret s' => ∃ ev,
      (Holding ctx st.first st.cur s' ((ret,ev) :: live) pending' ∧ Later ctx s s') ∧
      ∀ G, Extends (flow ctx s') G → ∀ C O r, Fragment deadBlock st.target G (c,0) C r →
        Fragment deadBlock st.target G (ret,ev.length) O r →
        Fragment deadBlock st.target G st.place (A.seq (meanHandlers ctx cctx.scope C exceptions' O)) r := by
  induction same generalizing st A s b pending with
  | nil =>
    obtain rfl := empty rfl
    refine achieves_pure ⟨_,⟨doing.holding,.refl s⟩,fun G further C O r _ other => ?_⟩
    exact (doing.fragment.mono further).seq other
  | cons first _ ih =>
    refine Achieves.bind (doing.handler suits first pending' inside await) ?_
    rintro other s₁ ⟨⟨held,later₁⟩,alive',q,asked,leads⟩
    have inside' : c < s₁.basicBlocks.length ∧ c ≠ entry := ⟨Nat.lt_of_lt_of_le inside.1 later₁.length,inside.2⟩
    refine (ih (held.stretch st.target) (suits.later (doing.since.trans later₁)) inside'
      (fun _ member _ => member) fun _ => rfl).imp ?_
    rintro ret s₂ ⟨ev,⟨held,later₂⟩,whole⟩
    refine ⟨ev,⟨held,later₁.trans later₂⟩,fun G further C O r clause unmatched => ?_⟩
    have rest := whole G further C O r clause unmatched
    have onward := later₂.extends_.trans further
    have both := Fragment.branch (leads.mono onward) (clause alive).free (rest alive').free
    have all := (asked.mono onward).seq both
    simp only [meanHandlers,inOrder,Behaviour.seq_assoc,skip_seq,seq_skip] at all ⊢
    exact all

end Handlers

section Variables
variable {exceptionValue : LocalRef} {zloc : LocOffsets}

theorem Doing.constant (doing : Doing ctx st A s b live pending) (cctx : CFGContext) (sym : SymbolRef) :
    Achieves (walkConstantLit ctx loc sym none cctx b) s fun ret s' =>
      ret = b ∧ Doing ctx st (A.seq (meanConstant ctx loc sym none cctx.scope)) s' b live pending := by
  refine Achieves.bind (doing.tempOccurrence _) fun v s₁ ⟨_,_,doing⟩ => ?_
  refine Achieves.bind (doing.shows rfl) fun _ s₂ doing => ?_
  refine Achieves.bind (doing.hidden rfl) fun _ s₃ doing => ?_
  exact achieves_pure ⟨rfl,doing.as (by rw [meanConstant,seq_skip])⟩

theorem Doing.localMoved {v : LocalVariable} (doing : Doing ctx st A s b live pending) (cctx : CFGContext) (hidden : moved ctx v.name = true) : Achieves (walkLocal loc v cctx b) s fun ret s' =>
      ret = b ∧ Doing ctx st A s' b live pending := by
  refine Achieves.bind (doing.entered v) fun v' s₁ ⟨named,doing⟩ => ?_
  refine Achieves.bind (doing.moves named hidden _) fun _ s₂ doing => ?_
  exact achieves_pure ⟨rfl,doing⟩

theorem unsafeOf_args (ctx : Context) (zloc : LocOffsets) (v : LocalVariable) :
    (unsafeOf ctx zloc v).posArgs = (unsafeOf ctx zloc v).args ∧ (unsafeOf ctx zloc v).kwArgPairs = [] ∧
      (unsafeOf ctx zloc v).kwSplat.toList = [] ∧ (unsafeOf ctx zloc v).numNonBlockArgs = 1 := by
  have counted : Counted (unsafeOf ctx zloc v) := ⟨Nat.le_refl 1,Nat.lt_two_pow_self.trans' (by decide : 1 < 16)⟩
  have positional : (unsafeOf ctx zloc v).posArgs = (unsafeOf ctx zloc v).args := rfl
  have whole : (unsafeOf ctx zloc v).nonBlockArgs = (unsafeOf ctx zloc v).args := rfl
  have parts := counted.nonBlockArgs_eq
  rw [whole,positional,List.append_assoc] at parts
  obtain ⟨pairs,splat⟩ := List.append_eq_nil_iff.mp (List.append_right_eq_self.mp parts)
  exact ⟨positional,pairs,splat,counted.numNonBlockArgs_eq⟩

theorem Doing.unsafe_plain {v : LocalVariable} (doing : Doing ctx st A s b live pending) :
    Achieves (handleSpecialMethods ctx (unsafeOf ctx zloc v) cctx b) s fun r s' =>
      r = none ∧ Doing ctx st A s' b live pending := by
  have apart : (unsafeOf ctx zloc v).fun_ ≠ ctx.names.absurd := ctx.names.unsafe_apart.1
  have apart' : (unsafeOf ctx zloc v).fun_ ≠ ctx.names.typeParameter := ctx.names.unsafe_apart.2
  unfold handleSpecialMethods
  rw [if_neg apart,if_neg apart']
  refine achieves_ite (fun _ => ?_) fun _ => achieves_pure ⟨rfl,doing⟩
  exact Achieves.bind (checkNew_quiet _) fun _ s₁ quiet => achieves_pure ⟨rfl,doing.quiet quiet⟩

-- T.unsafe of the exception comes to its end in the block where it began.
theorem Doing.unsafes {v : LocalVariable} (doing : Doing ctx st A s b live pending) (hidden : moved ctx v.name = true)
    (var : ExpressionPtr) : Achieves (walkSend ctx (unsafeOf ctx (copyWithZeroLength (locOf var)) v) cctx b) s fun ret s' =>
      ret = b ∧ Doing ctx st (A.seq (meanExceptionVar ctx var cctx.scope)) s' b live pending := by
  obtain ⟨posArgs,kwArgPairs,kwSplat,count⟩ := unsafeOf_args ctx (copyWithZeroLength (locOf var)) v
  refine Achieves.bind doing.unsafe_plain fun special s₁ ⟨ordinary,doing⟩ => ?_
  subst ordinary
  refine Achieves.bind (doing.temp _) fun recv s₂ ⟨_,_,doing⟩ => ?_
  refine Achieves.bind (doing.constant (cctx.withTarget (.synthetic recv)) ctx.symbols.t) fun b₁ s₃ ⟨same,doing⟩ => ?_
  subst same
  rw [posArgs,kwArgPairs,kwSplat,count]
  have one : Achieves (walkPosArgs ctx.names.statTemp cctx (unsafeOf ctx (copyWithZeroLength (locOf var)) v).args b₁) s₃
      fun r s' => r.1 = b₁ ∧ (∃ tmp, r.2 = [(tmp,copyWithZeroLength (locOf var))]) ∧ Doing ctx st
        (A.seq (meanConstant ctx (copyWithZeroLength (locOf var)) ctx.symbols.t none cctx.scope)) s' b₁ live pending := by
    refine Achieves.bind (doing.temp _) fun tmp s₄ ⟨_,_,doing⟩ => ?_
    refine Achieves.bind (doing.localMoved (cctx.withTarget (.synthetic tmp)) hidden) fun b₂ s₅ ⟨same,doing⟩ => ?_
    subst same
    exact achieves_pure ⟨rfl,⟨tmp,rfl⟩,doing⟩
  refine Achieves.bind one ?_
  rintro ⟨b₂,refs⟩ s₄ ⟨same,⟨tmp,refs'⟩,doing⟩
  dsimp only at same refs'
  subst same refs'
  refine achieves_pure_bind (achieves_pure_bind ?_)
  have positional : (unsafeOf ctx (copyWithZeroLength (locOf var)) v).numPosArgs.toNat ≤ 1 := Nat.le_refl 1
  have plain : ¬ (unsafeOf ctx (copyWithZeroLength (locOf var)) v).hasBlock = true := Bool.false_ne_true
  dsimp only
  rw [make_eq positional rfl]
  dsimp only
  rw [if_neg plain]
  refine Achieves.bind (doing.shows rfl) fun _ s₅ doing => ?_
  exact achieves_pure ⟨rfl,doing.as (Behaviour.seq_assoc ..)⟩

end Variables

section Clauses
variable {exceptionValue : LocalRef} {hasEnsure : Bool}

structure RendersCase (ctx : Context) (w : CaseSub Walk) (m : CaseSub Meaning) : Prop where
  exceptions : List.Forall₂ (Renders ctx) w.exceptions m.exceptions
  var : w.var = m.var
  body : Renders ctx w.body m.body
  local_ : ∃ loc name unique, w.var = .local_ loc name unique

theorem rescued_same {exceptions : List (Sub Walk)} {exceptions' : List (Sub Meaning)}
    (same : List.Forall₂ (Renders ctx) exceptions exceptions') (loc : LocOffsets) :
    List.Forall₂ (Renders ctx) (rescuedClasses ctx loc exceptions) (meanRescued ctx loc exceptions') := by
  cases same with
  | nil => exact .cons ⟨rfl,walkConstantLit_implements loc _ .none⟩ .nil
  | cons first more => exact .cons first more

theorem rescued_some (exceptions : List (Sub Walk)) (loc : LocOffsets) : rescuedClasses ctx loc exceptions ≠ [] := by
  cases exceptions with
  | nil => exact List.cons_ne_nil _ _
  | cons first more => exact List.cons_ne_nil _ _

-- What the clauses so far put before the ensure.
def meanVar (ctx : Context) (hasEnsure : Bool) (var : ExpressionPtr) (sc : Scope) : Behaviour :=
  if hasEnsure then meanExceptionVar ctx var sc else skip

theorem Doing.exceptionVar {localVar : LocalRef} (doing : Doing ctx st A s b live pending) (cctx : CFGContext)
    (hidden : moved ctx exceptionValue.name = true) (var : ExpressionPtr) :
    Achieves (walkExceptionVar ctx hasEnsure exceptionValue ⟨localVar,locOf var⟩ cctx b) s fun ret s' =>
      ret = b ∧ Doing ctx st (A.seq (meanVar ctx hasEnsure var cctx.scope)) s' b live pending := by
  unfold walkExceptionVar meanVar
  cases hasEnsure with
  | true => exact doing.unsafes hidden var
  | false => exact achieves_pure ⟨rfl,doing.as (seq_skip A).symm⟩

variable {case_ : CaseSub Walk} {case_' : CaseSub Meaning} {e : BlockId} {eve : List Event} {V : Behaviour}

-- The ensure begins in e, where V has been put, and the clauses are entered from b.
theorem Doing.clause (doing : Doing ctx st A s b ((e,eve) :: live) pending) (suits : Suits cctx st.target st.since)
    (ensure : Fragment deadBlock st.target (flow ctx s) (e,0) V (e,eve.length)) (inner : e ≠ entry) (alive : e ≠ deadBlock)
    (same : RendersCase ctx case_ case_') (hidden : moved ctx exceptionValue.name = true) :
    Achieves (walkRescueCase ctx loc hasEnsure exceptionValue case_ cctx b e) s fun r s' => ∃ ev eve',
      r.2 = e ∧ (Holding ctx st.first st.cur s' ((r.1,ev) :: (e,eve') :: live) pending ∧ Later ctx s s') ∧
      Fragment deadBlock st.target (flow ctx s') (e,0) (V.seq (meanVar ctx hasEnsure case_'.var cctx.scope)) (e,eve'.length) ∧
      ∀ G, Extends (flow ctx s') G → ∀ O, Fragment deadBlock st.target G (r.1,ev.length) O (e,0) →
        Fragment deadBlock st.target G st.place (A.seq (meanHandlers ctx cctx.scope (case_'.body.sem cctx.scope)
          (meanRescued ctx (locOf case_'.var) case_'.exceptions) O)) (e,0) := by
  obtain ⟨varLoc,name,unique,known⟩ := same.local_
  refine Achieves.bind (doing.holding.freshened _) fun caseBody s₁ ⟨fresh,held,later₁⟩ => ?_
  rw [known]
  refine Achieves.bind (enterLocal_quiet ctx _) fun localVar s₂ ⟨_,quiet⟩ => ?_
  obtain ⟨held,later₂⟩ := held.quiet quiet
  refine Achieves.bind (held.note caseBody (if_pos hidden)) fun _ s₃ ⟨held,later₃⟩ => ?_
  -- the variable, where the ensure begins
  replace held := held.perm (List.perm_middle : ([(caseBody,[]),(b,_)] ++ (e,eve) :: live).Perm _)
  have varLoc' : varLoc = locOf case_.var := by rw [known]; rfl
  rw [varLoc']
  refine Achieves.bind ((held.stretch st.target).exceptionVar cctx hidden case_.var) fun ret s₄ ⟨there,ensured⟩ => ?_
  subst there
  refine Achieves.bind (ensured.holding.note caseBody rfl) fun _ s₅ ⟨held,later₅⟩ => ?_
  refine Achieves.bind (newTemporary_quiet ctx _) fun res s₆ ⟨_,_,quiet⟩ => ?_
  obtain ⟨held,later₆⟩ := held.quiet quiet
  refine Achieves.bind (held.note caseBody rfl) fun _ s₇ ⟨held,later₇⟩ => ?_
  -- the classes
  have later₁₇ := (((later₂.trans later₃).trans ensured.since).trans later₅).trans (later₆.trans later₇)
  replace held := held.perm (List.perm_middle : ([(ret,_),(caseBody,[])] ++ (b,_) :: live).Perm _)
  refine Achieves.bind ((doing.meanwhile ⟨held,later₁.trans later₁₇⟩).handlers suits
    (rescued_same same.exceptions (locOf case_.var)) pending (fresh.inside later₁₇) fresh.alive (by simp +contextual)
    fun none_ => absurd none_ (rescued_some _ _)) ?_
  rintro handlersBlock s₈ ⟨ev,⟨held,later₈⟩,whole⟩
  -- the body of the clause
  replace held := held.perm (List.perm_middle : ([(handlersBlock,ev),(ret,_)] ++ (caseBody,[]) :: live).Perm _)
  have sofar := (later₁.trans later₁₇).trans later₈
  refine Achieves.bind (same.body.sem.run cctx (held.stretch st.target) (suits.later (doing.since.trans sofar)))
    fun caseEnd s₉ body => ?_
  have inside : ret < s.basicBlocks.length :=
    (doing.holding.open_ (ret,eve) (List.mem_cons_of_mem _ List.mem_cons_self)).1.below doing.holding.sound
  refine Achieves.bind (body.holding.jump pending (Nat.lt_of_lt_of_le inside (sofar.trans body.since).length) inner
    fun _ member _ => member) fun _ s₁₀ ⟨held,later₁₀,leads⟩ => ?_
  have later₄₁₀ := (((later₅.trans (later₆.trans later₇)).trans later₈).trans body.since).trans later₁₀
  have started := (later₁.trans later₂).trans later₃
  refine achieves_pure ⟨ev,_,rfl,⟨held,(sofar.trans body.since).trans later₁₀⟩,?_,fun G further O unmatched => ?_⟩
  · have put := ((ensure.mono started.extends_).mono ensured.since.extends_).seq ensured.fragment
    rw [skip_seq,same.var] at put
    exact put.mono later₄₁₀.extends_
  · have done := (body.fragment.mono (later₁₀.extends_.trans further)).seq (.jump (leads.mono further) alive)
    rw [skip_seq,seq_skip] at done
    rw [←same.var]
    exact whole G ((body.since.trans later₁₀).extends_.trans further) _ O _ done unmatched

inductive SameCase (ctx : Context) : Option (CaseSub Walk) → Option (CaseSub Meaning) → Prop where
  | some {w : CaseSub Walk} {m : CaseSub Meaning} : RendersCase ctx w m → SameCase ctx (some w) (some m)

def meanVars (ctx : Context) (hasEnsure : Bool) (cases_ : List (Option (CaseSub Meaning))) (sc : Scope) : Behaviour :=
  if hasEnsure then meanExceptionVars ctx sc cases_ else skip

theorem meanVars_cons (case_ : CaseSub Meaning) (rest : List (Option (CaseSub Meaning))) (sc : Scope) :
    meanVars ctx hasEnsure (some case_ :: rest) sc =
      (meanVar ctx hasEnsure case_.var sc).seq (meanVars ctx hasEnsure rest sc) := by
  unfold meanVars meanVar
  cases hasEnsure with
  | true => rfl
  | false => exact (skip_seq _).symm

theorem Doing.clauses {cases_ : List (Option (CaseSub Walk))} {cases_' : List (Option (CaseSub Meaning))}
    (doing : Doing ctx st A s b ((e,eve) :: live) pending) (suits : Suits cctx st.target st.since)
    (ensure : Fragment deadBlock st.target (flow ctx s) (e,0) V (e,eve.length)) (inner : e ≠ entry) (alive : e ≠ deadBlock)
    (same : List.Forall₂ (SameCase ctx) cases_ cases_') (hidden : moved ctx exceptionValue.name = true) :
    Achieves (walkRescueCases ctx loc hasEnsure exceptionValue cctx cases_ b e) s fun r s' => ∃ ev eve',
      r.2 = e ∧ (Holding ctx st.first st.cur s' ((r.1,ev) :: (e,eve') :: live) pending ∧ Later ctx s s') ∧
      Fragment deadBlock st.target (flow ctx s') (e,0) (V.seq (meanVars ctx hasEnsure cases_' cctx.scope)) (e,eve'.length) ∧
      ∀ G, Extends (flow ctx s') G → ∀ O, Fragment deadBlock st.target G (r.1,ev.length) O (e,0) →
        Fragment deadBlock st.target G st.place (A.seq (meanRescueCases ctx cctx.scope O cases_')) (e,0) := by
  induction same generalizing st A s b V eve with
  | nil =>
    have none_ : meanVars ctx hasEnsure [] cctx.scope = skip := by
      unfold meanVars
      cases hasEnsure <;> rfl
    rw [none_,seq_skip]
    refine achieves_pure ⟨_,eve,rfl,⟨doing.holding,.refl s⟩,ensure,fun G further O unmatched => ?_⟩
    exact (doing.fragment.mono further).seq unmatched
  | cons first _ ih =>
    cases first with
    | some first =>
      refine Achieves.bind (doing.clause suits ensure inner alive first hidden) ?_
      rintro ⟨handlersBlock,ensureBody⟩ s₁ ⟨ev,eve₁,there,⟨held,later₁⟩,ensure,clause⟩
      dsimp only at there held clause
      subst there
      refine (ih (held.stretch st.target) (suits.later (doing.since.trans later₁)) ensure).imp ?_
      rintro r s₂ ⟨ev₂,eve₂,there,⟨held,later₂⟩,ensure,rest⟩
      rw [meanVars_cons,←Behaviour.seq_assoc]
      refine ⟨ev₂,eve₂,there,⟨held,later₁.trans later₂⟩,ensure,fun G further O unmatched => ?_⟩
      have others := rest G further O unmatched
      rw [skip_seq] at others
      exact clause G (later₂.extends_.trans further) _ others

end Clauses

section Rescues
variable {body else_ ensureTree : Sub Walk} {body' else_' ensureTree' : Sub Meaning}
  {cases_ : List (Option (CaseSub Walk))} {cases_' : List (Option (CaseSub Meaning))}

theorem Suits.inRescue {header : BlockId} (suits : Suits cctx T s) (inside : header < s.basicBlocks.length ∧ header ≠ entry) :
    Suits {cctx with rescueScope := some header} (Function.update T .retry (header,0)) s := by
  refine ⟨⟨fun b scope => ?_,suits.1.2⟩,?_,?_,?_,?_⟩
  · rcases scope with known | known | known
    · exact suits.1.1 b (.inl known)
    · exact suits.1.1 b (.inr (.inl known))
    · exact Option.some.inj known ▸ inside
  · exact (Function.update_of_ne (by decide) ..).trans suits.2.1
  · exact (Function.update_of_ne (by decide) ..).trans suits.2.2.1
  · exact Function.update_self ..
  · exact (Function.update_of_ne (by decide) ..).trans suits.2.2.2.2

theorem walkRescue_implements (same : Renders ctx body body') (sameCases : List.Forall₂ (SameCase ctx) cases_ cases_')
    (sameElse : Renders ctx else_ else_') (sameEnsure : Renders ctx ensureTree ensureTree') :
    Implements ctx (walkRescue ctx loc body cases_ else_ ensureTree) (meanRescue ctx body' cases_' else_' ensureTree') := by
  intro cctx s cur T sound open_ suits
  have start := Doing.start T sound open_
  refine Achieves.bind (start.holding.freshened _) fun header s₁ reached => ?_
  obtain ⟨fresh₁,held,later₁⟩ := reached
  replace held := held.perm (List.Perm.swap _ _ _)
  refine Achieves.bind (held.jump [] fresh₁.below fresh₁.inner (by simp)) fun _ s₂ reached => ?_
  obtain ⟨held,later₂,leads₁⟩ := reached
  refine Achieves.bind (held.freshened _) fun handlersBlock s₃ reached => ?_
  obtain ⟨fresh₂,held,later₃⟩ := reached
  refine Achieves.bind (held.freshened _) fun bodyBlock s₄ reached => ?_
  obtain ⟨fresh₃,held,later₄⟩ := reached
  refine Achieves.bind (newTemporary_quiet ctx _) fun exceptionValue s₅ reached => ?_
  obtain ⟨named,apart,quiet⟩ := reached
  obtain ⟨held,later₅⟩ := held.quiet quiet
  have hidden : moved ctx exceptionValue.name = true := by simp [moved,named]
  refine Achieves.bind (held.note header rfl) fun _ s₆ reached => ?_
  obtain ⟨held,later₆⟩ := reached
  replace held := held.perm (List.reverse_perm [(header,[]),(handlersBlock,[]),(bodyBlock,[])])
  have later₄₆ := later₅.trans later₆
  refine Achieves.bind (held.branch [] (fresh₂.inside (later₄.trans later₄₆)) (fresh₃.inside later₄₆)
    (fresh₃.apart fresh₂.below) (apart ctx.names.exceptionValue_exists) (by simp)) fun _ s₇ reached => ?_
  obtain ⟨held,later₇,leads₂⟩ := reached
  -- the body
  have retrySuits : Suits {cctx with rescueScope := some header} (Function.update T .retry (header,0)) s₇ :=
    (suits.later held.later).inRescue (fresh₁.inside ((((later₂.trans later₃).trans later₄).trans later₄₆).trans later₇))
  replace held := held.perm (List.Perm.swap _ _ _)
  refine Achieves.bind (same.sem.run {cctx with rescueScope := some header}
    (held.stretch (Function.update T .retry (header,0))) retrySuits) fun bodyEnd s₈ bodyDoing => ?_
  refine Achieves.bind (bodyDoing.holding.freshened _) fun elseBody s₉ reached => ?_
  obtain ⟨fresh₄,held,later₉⟩ := reached
  refine Achieves.bind (held.note bodyEnd rfl) fun _ s₁₀ reached => ?_
  obtain ⟨held,later₁₀⟩ := reached
  replace held := held.perm (List.Perm.swap _ _ _)
  have later₃₈ := ((later₄.trans later₄₆).trans later₇).trans bodyDoing.since
  refine Achieves.bind (held.branch [] (fresh₂.inside (later₃₈.trans (later₉.trans later₁₀))) (fresh₄.inside later₁₀)
    (fresh₄.apart (fresh₂.inside later₃₈).1) (apart ctx.names.exceptionValue_exists) (by simp)) fun _ s₁₁ reached => ?_
  obtain ⟨held,later₁₁,leads₃⟩ := reached
  -- the else
  have later₇₁₁ := (bodyDoing.since.trans later₉).trans (later₁₀.trans later₁₁)
  refine Achieves.bind (sameElse.sem.run {cctx with rescueScope := some header}
    (held.stretch (Function.update T .retry (header,0))) (retrySuits.later later₇₁₁)) fun elseEnd s₁₂ elseDoing => ?_
  refine Achieves.bind (elseDoing.holding.freshened _) fun ensureBody s₁₃ reached => ?_
  obtain ⟨fresh₅,held,later₁₃⟩ := reached
  replace held := held.perm (List.Perm.swap _ _ _)
  refine Achieves.bind (held.jump [] fresh₅.below fresh₅.inner (by simp)) fun _ s₁₄ reached => ?_
  obtain ⟨held,later₁₄,leads₄⟩ := reached
  -- the clauses
  replace held := held.perm (List.Perm.swap _ _ _)
  have later₇₁₄ := (later₇₁₁.trans elseDoing.since).trans (later₁₃.trans later₁₄)
  refine Achieves.bind ((held.stretch (Function.update T .retry (header,0))).clauses (retrySuits.later later₇₁₄) (.skip _)
    fresh₅.inner fresh₅.alive sameCases hidden) ?_
  rintro ⟨lastHandlers,ensureBody'⟩ s₁₅ ⟨ev,eve,there,⟨held,later₁₅⟩,vars,clauses⟩
  dsimp only at there held clauses
  subst there
  refine Achieves.bind (newTemporary_quiet ctx _) fun gotoDeadTemp s₁₆ reached => ?_
  obtain ⟨_,apart',quiet⟩ := reached
  obtain ⟨held,later₁₆⟩ := held.quiet quiet
  refine Achieves.bind (held.note lastHandlers rfl) fun _ s₁₇ reached => ?_
  obtain ⟨held,later₁₇⟩ := reached
  have later₁₃₁₇ := (later₁₄.trans later₁₅).trans (later₁₆.trans later₁₇)
  refine Achieves.bind (held.jump [] (fresh₅.inside later₁₃₁₇).1 fresh₅.inner (by simp)) fun _ s₁₈ reached => ?_
  obtain ⟨held,later₁₈,leads₅⟩ := reached
  -- the ensure
  refine Achieves.bind (newTemporary_quiet ctx _) fun throwAway s₁₉ reached => ?_
  obtain ⟨_,_,quiet⟩ := reached
  obtain ⟨held,later₁₉⟩ := held.quiet quiet
  have later₁₅₁₉ := (later₁₆.trans later₁₇).trans (later₁₈.trans later₁₉)
  refine Achieves.bind (sameEnsure.sem.run ({cctx with rescueScope := some header}.withTarget (.synthetic throwAway))
    (held.stretch (Function.update T .retry (header,0)))
    (retrySuits.later ((later₇₁₄.trans later₁₅).trans later₁₅₁₉))) fun ensureEnd s₂₀ ensureDoing => ?_
  refine Achieves.bind (ensureDoing.holding.freshened _) fun ret s₂₁ reached => ?_
  obtain ⟨fresh₆,held,later₂₁⟩ := reached
  replace held := held.perm (List.Perm.swap _ _ _)
  refine Achieves.bind (held.branch [] ⟨held.sound.two,Nat.one_ne_zero⟩ ⟨fresh₆.below,fresh₆.inner⟩ fresh₆.alive.symm (apart' ctx.names.gotoDeadTemp_exists)
    (by simp)) fun _ s₂₂ reached => ?_
  obtain ⟨held,later₂₂,leads₆⟩ := reached
  -- what the paths show
  have later₂₀₂₂ := later₂₁.trans later₂₂
  have later₁₈₂₂ := (later₁₉.trans ensureDoing.since).trans later₂₀₂₂
  have later₁₅₂₂ := (later₁₅₁₉.trans ensureDoing.since).trans later₂₀₂₂
  have later₁₄₂₂ := later₁₅.trans later₁₅₂₂
  have later₁₂₂₂ := (later₁₃.trans later₁₄).trans later₁₄₂₂
  have later₁₁₂₂ := elseDoing.since.trans later₁₂₂₂
  have later₈₂₂ := ((later₉.trans later₁₀).trans later₁₁).trans later₁₁₂₂
  have later₇₂₂ := bodyDoing.since.trans later₈₂₂
  have ended : Fragment deadBlock (Function.update T .retry (header,0)) (flow ctx s₂₂) _ (leave .halt ∪ skip) (ret,0) :=
    .branch leads₆ (.here retrySuits.2.2.2.2) (Fragment.skip _ fresh₆.alive).free
  have ensured := ((vars.mono later₁₅₂₂.extends_).seq (ensureDoing.fragment.mono later₂₀₂₂.extends_)).seq ended
  have handled := clauses (flow ctx s₂₂) later₁₅₂₂.extends_ skip (.jump (leads₅.mono later₁₈₂₂.extends_) fresh₅.alive)
  have elsed := (elseDoing.fragment.mono later₁₂₂₂.extends_).seq
    (.jump (leads₄.mono later₁₄₂₂.extends_) fresh₅.alive)
  have bodied := (bodyDoing.fragment.mono later₈₂₂.extends_).seq
    (.branch (leads₃.mono later₁₁₂₂.extends_) (handled fresh₂.alive).free (elsed fresh₄.alive).free)
  have attempted := Fragment.branch (leads₂.mono later₇₂₂.extends_) (handled fresh₂.alive).free (bodied fresh₃.alive).free
  have whole := (attempted.seq ensured).retries
  have later₂₂ := (((later₃.trans later₃₈).trans later₈₂₂))
  have entered := leads₁.mono later₂₂.extends_
  refine achieves_pure ((start.then ⟨held,(later₁.trans later₂).trans later₂₂⟩ (.enter entered (whole fresh₁.alive).free)).as ?_)
  simp only [meanRescue,meanVars,sameEnsure.tree,inOrder,Behaviour.seq_assoc,skip_seq,seq_skip]
  cases isEmptyTree ensureTree'.tree <;> rfl

end Rescues

end CFGBuilder
