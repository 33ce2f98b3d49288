import ScipRuby.Cfg.BuilderSteps

namespace CFGBuilder
open FlowGraphs TotalRuns FlowGraphs.Behaviour
open Serialize (LocOffsets TypePtr ParamFlags ExpressionPtr IdentKind noLoc)

variable {ctx : Context} {s s' : State} {b : BlockId} {live : List (BlockId × List Event)} {pending : List BlockId}
  {A : Behaviour} {st : Stretch} {binding : Binding}

section Simple

theorem achieves_ensure_bind {α : Type} {P : Prop} [Decidable P] {f : Unit → Build α} {Q : α → State → Prop} (holds : P)
    (next : Achieves (f ()) s Q) : Achieves (ensure P >>= f) s Q := by
  rw [ensure,if_pos holds]
  exact next

theorem Doing.temp (doing : Doing ctx st A s b live pending) (name : NameRef) :
    Achieves (newTemporary name) s fun v s' =>
      v.name = name ∧ (name ≠ 0 → Condition ctx v) ∧ Doing ctx st A s' b live pending :=
  (newTemporary_quiet ctx name).imp fun _ _ ⟨named,apart,quiet⟩ => ⟨named,apart,doing.quiet quiet⟩

theorem Doing.shows {e : Event} (doing : Doing ctx st A s b live pending) (seen : visible ctx binding = some e) :
    Achieves (emplace b binding) s fun _ s' => Doing ctx st (A.seq (emit e)) s' b live pending :=
  (doing.emplaced binding).imp fun _ _ doing => doing.as (by rw [seen,emits_some])

theorem Doing.tempOccurrence (doing : Doing ctx st A s b live pending) (name : NameRef) :
    Achieves (newTemporaryOccurrence name) s fun v s' =>
      v.variable_.name = name ∧ (name ≠ 0 → Condition ctx v.variable_) ∧ Doing ctx st A s' b live pending :=
  (doing.temp name).map fun _ _ => id

variable (loc : LocOffsets)

theorem walkLiteral_implements (value : TypePtr) : Implements ctx (walkLiteral loc value) fun _ => emit (.literal value loc) := by
  intro cctx s cur T sound open_ suits
  refine Achieves.bind ((Doing.start T sound open_).shows rfl) fun _ s₁ doing => ?_
  exact achieves_pure (doing.as (skip_seq _))

theorem walkConstantLit_implements (sym : SymbolRef) {scope : Option Walk} {scope' : Option Meaning}
    (same : Option.Rel (Implements ctx) scope scope') :
    Implements ctx (walkConstantLit ctx loc sym scope) (meanConstant ctx loc sym scope') := by
  intro cctx s cur T sound open_ suits
  refine Achieves.bind ((Doing.start T sound open_).tempOccurrence _) fun v s₁ ⟨_,_,doing⟩ => ?_
  refine Achieves.bind (doing.shows rfl) fun _ s₂ doing => ?_
  refine Achieves.bind (doing.hidden rfl) fun _ s₃ doing => ?_
  cases same with
  | none => exact achieves_pure (doing.as (by rw [meanConstant,seq_skip,skip_seq]))
  | some impl =>
    refine Achieves.bind (doing.temp _) fun v s₄ ⟨_,_,doing⟩ => ?_
    exact (impl.run (cctx.withTarget (.synthetic v)) doing suits).imp fun ret s' doing => doing.as (by rw [skip_seq]; rfl)

theorem enterLocal_name (v : LocalVariable) : (if v.exists_ then v else noVariable).name = v.name := by
  split
  · rfl
  · rename_i gone
    have zero : ¬ (v.name ≠ 0) := fun known => gone (decide_eq_true known)
    exact (not_not.mp zero).symm

theorem Doing.entered (doing : Doing ctx st A s b live pending) (v : LocalVariable) :
    Achieves (enterLocal v) s fun v' s' => v'.name = v.name ∧ Doing ctx st A s' b live pending := by
  refine (enterLocal_quiet ctx v).imp fun v' s' ⟨same,quiet⟩ => ⟨?_,doing.quiet quiet⟩
  rw [same,enterLocal_name]

-- Reading a local is seen if its name is.
theorem Doing.reads {v : LocalRef} {name : NameRef} (doing : Doing ctx st A s b live pending) (named : v.name = name)
    (bind : LocalOccurrence) : Achieves (emplaceBack b bind loc (.ident v)) s fun _ s' =>
      Doing ctx st (A.seq (emits (readEvent ctx name loc))) s' b live pending :=
  named ▸ doing.emplaced ⟨bind,loc,.ident v,false⟩

theorem walkLocal_implements (v : LocalVariable) : Implements ctx (walkLocal loc v) (meanLocal ctx loc v.name) := by
  intro cctx s cur T sound open_ suits
  refine Achieves.bind ((Doing.start T sound open_).entered v) fun v' s₁ ⟨named,doing⟩ => ?_
  refine Achieves.bind (doing.reads loc named _) fun _ s₂ doing => ?_
  exact achieves_pure (doing.as (skip_seq _))

theorem moved_self : readEvent ctx (selfVariable ctx).name loc = none := by
  simp [readEvent,moved,selfVariable]

theorem walkSelf_implements : Implements ctx (walkSelf ctx loc) fun _ => skip := by
  intro cctx s cur T sound open_ suits
  refine Achieves.bind ((Doing.start T sound open_).hidden (moved_self loc)) fun _ s₁ doing => ?_
  exact achieves_pure doing

theorem walkRuntimeMethodDefinition_implements (name : NameRef) : Implements ctx (walkRuntimeMethodDefinition loc name)
    fun _ => emit (.literal (.namedLiteralType .symbol name) (copyWithZeroLength loc)) := by
  intro cctx s cur T sound open_ suits
  refine Achieves.bind ((Doing.start T sound open_).shows rfl) fun _ s₁ doing => ?_
  exact achieves_pure (doing.as (skip_seq _))

theorem walkStats_implements {stats : List (Sub Walk)} {stats' : List (Sub Meaning)}
    (same : List.Forall₂ (Renders ctx) stats stats') : Implements ctx (walkStats ctx stats) (meanAll stats') := by
  intro cctx s cur T sound open_ suits
  suffices run : ∀ {A : Behaviour} {s' : State} {b : BlockId}, Doing ctx (wholly ctx T s cur) A s' b [] [] →
      Achieves (walkStats ctx stats cctx b) s' fun ret s'' =>
        Doing ctx (wholly ctx T s cur) (A.seq (meanAll stats' cctx.scope)) s'' ret [] [] from
    (run (.start T sound open_)).imp fun ret s' doing => doing.as (skip_seq _)
  induction same with
  | nil => exact fun doing => achieves_pure (doing.as (seq_skip _).symm)
  | cons first _ ih =>
    intro A s' b doing
    refine Achieves.bind (doing.temp _) fun v s₁ ⟨_,_,doing⟩ => ?_
    refine Achieves.bind (first.sem.run (cctx.withTarget _) doing suits) fun b' s₂ doing => ?_
    exact (ih doing).imp fun ret s₃ doing => doing.as (seq_assoc ..)

theorem walkInsSeq_implements {stats : List (Sub Walk)} {stats' : List (Sub Meaning)} {expr : Sub Walk} {expr' : Sub Meaning}
    (same : List.Forall₂ (Renders ctx) stats stats') (last : Renders ctx expr expr') :
    Implements ctx (walkInsSeq ctx stats expr) (meanInsSeq stats' expr') := by
  intro cctx s cur T sound open_ suits
  refine Achieves.bind (walkStats_implements same cctx s cur T sound open_ suits) fun b s₁ doing => ?_
  exact last.sem.run cctx doing suits

end Simple

section Assignments

-- Locals are resolved, and instance variables are in methods.
structure FieldAllowed (ctx : Context) (kind : IdentKind) (name : NameRef) : Prop where
  field : kind ≠ .local_
  owner : kind = .instance_ → ctx.ownerIsMethod = true
  exists_ : fieldName ctx kind name ≠ 0
  pinned : let sym := ctx.findMemberTransitive (fieldOwner ctx kind) name
    sym ≠ 0 → sym ≠ ctx.symbols.stubModule → isPinned ctx sym = true

variable (loc : LocOffsets) {kind : IdentKind} {name : NameRef}

theorem fieldClass_quiet (allowed : FieldAllowed ctx kind name) :
    Achieves (fieldClass ctx kind) s fun klass s' => klass = fieldOwner ctx kind ∧ s' = s := by
  cases kind with
  | class_ => exact achieves_pure ⟨rfl,rfl⟩
  | instance_ =>
    rw [fieldClass,ensure,if_pos (allowed.owner rfl)]
    exact achieves_pure ⟨rfl,rfl⟩
  | global_ => exact achieves_pure ⟨rfl,rfl⟩
  | local_ => exact absurd rfl allowed.field

theorem unresolvedIdent2Local_quiet (sound : Sound ctx s) (allowed : FieldAllowed ctx kind name) (isAssign : Bool) :
    Achieves (unresolvedIdent2Local ctx loc kind name isAssign) s fun r s' =>
      r.1.name = fieldName ctx kind name ∧ r.2 = (isUndeclared ctx kind name && isAssign) ∧ Quiet ctx s s' := by
  refine Achieves.bind (fieldClass_quiet allowed) fun klass s₁ ⟨owner,unchanged⟩ => ?_
  subst owner unchanged
  refine achieves_ite (fun undeclared => ?_) fun declared => ?_
  · have named : fieldName ctx kind name = name := if_pos undeclared
    have error : isUndeclared ctx kind name =
        decide (kind ≠ .global_ ∧ name ≠ ctx.names.ivarNameMissing ∧ name ≠ ctx.names.cvarNameMissing) := by
      simp [isUndeclared,undeclared]
    rw [named,error]
    refine achieves_get_bind ?_
    cases known : s₁.discoveredUndeclaredFields.lookup name with
    | some fnd => exact achieves_pure ⟨sound.fields _ (mem_of_lookup known),rfl,.refl s₁⟩
    | none =>
      refine Achieves.bind (reportAll_quiet ctx _) fun _ s₂ quiet => ?_
      refine Achieves.bind (newTemporary_quiet ctx name) fun v s₃ ⟨same,_,quiet'⟩ => ?_
      refine achieves_modify_bind (achieves_pure ⟨same,rfl,?_⟩)
      refine (quiet.trans quiet').trans ⟨rfl,List.prefix_rfl,fun sound => ⟨sound.aliases,?_⟩⟩
      exact List.forall_mem_cons.mpr ⟨same,sound.fields⟩
  · have named : fieldName ctx kind name = ctx.symbolName (ctx.findMemberTransitive (fieldOwner ctx kind) name) :=
      if_neg declared
    have clean : isUndeclared ctx kind name = false := by simp [isUndeclared,declared]
    rw [named,clean]
    exact (global2Local_quiet ctx sound _ (allowed.pinned declared) loc).bind fun v s' ⟨same,quiet⟩ => achieves_pure ⟨same,rfl,quiet⟩

theorem walkUnresolvedIdent_implements (allowed : FieldAllowed ctx kind name) :
    Implements ctx (walkUnresolvedIdent ctx loc kind name) (meanLocal ctx loc (fieldName ctx kind name)) := by
  intro cctx s cur T sound open_ suits
  refine Achieves.bind (unresolvedIdent2Local_quiet loc sound allowed false) fun (v,_) s₁ ⟨named,_,quiet⟩ => ?_
  have doing := (Doing.start T sound open_).quiet quiet
  have exists_ : v.exists_ = true := decide_eq_true (named ▸ allowed.exists_)
  refine achieves_ensure_bind exists_ (Achieves.bind (doing.reads loc named _) fun _ s₂ doing => ?_)
  exact achieves_pure (doing.as (skip_seq _))

variable {rhs : Sub Walk} {rhs' : Sub Meaning} {lhs : LocalOccurrence}

-- The right side is computed into the variable, and the variable is read.
theorem Doing.assigns {cctx : CFGContext} (doing : Doing ctx st A s b live pending) (right : Renders ctx rhs rhs')
    (suits : Suits cctx st.target st.since) (named : lhs.variable_.name = name) :
    Achieves (walkAssign rhs loc lhs cctx b) s fun ret s' =>
      Doing ctx st (A.seq ((rhs'.sem cctx.scope).seq (emits (readEvent ctx name loc)))) s' ret live pending := by
  refine Achieves.bind (right.sem.run (cctx.withTarget lhs) doing suits) fun ret s₁ doing => ?_
  refine Achieves.bind (doing.reads loc named _) fun _ s₂ doing => ?_
  exact achieves_pure (doing.as (seq_assoc ..))

theorem make_eq {recv : LocalRef} {receiverLoc funLoc : LocOffsets} {fun_ : NameRef} {numPosArgs numArgs : Nat}
    {isPrivateOk : Bool} {args : List (LocalRef × LocOffsets)} (positional : numPosArgs ≤ numArgs)
    (all : args.length = numArgs) : SendInsn.make recv receiverLoc fun_ funLoc numPosArgs isPrivateOk numArgs args =
      some ⟨isPrivateOk,numPosArgs,fun_,recv,funLoc,receiverLoc,0,args.map (·.1),args.map (·.2)⟩ :=
  if_pos ⟨positional,all⟩

theorem walkSuggestFieldType_does {cctx : CFGContext} (doing : Doing ctx st A s b live pending)
    (right : Renders ctx rhs rhs') (suits : Suits cctx st.target st.since) (undeclared : isUndeclared ctx kind name = true)
    (allowed : FieldAllowed ctx kind name) (named : lhs.variable_.name = fieldName ctx kind name) :
    Achieves (walkSuggestFieldType ctx loc lhs kind name rhs cctx b) s fun ret s' =>
      Doing ctx st (A.seq (inOrder [meanConstant ctx (copyWithZeroLength loc) ctx.symbols.magic none cctx.scope,
        rhs'.sem cctx.scope,
        emit (.literal (.namedLiteralType .string (fieldKind ctx kind)) (copyWithZeroLength loc)),
        emit (.literal (.namedLiteralType .string ctx.ownerName) (copyWithZeroLength loc)),
        emit (.literal (.namedLiteralType .symbol name) (copyWithZeroLength loc)),
        emit (.call ctx.names.suggestFieldType lhs.loc (copyWithZeroLength loc) (copyWithZeroLength loc)
          [rhs'.loc,copyWithZeroLength loc,copyWithZeroLength loc,copyWithZeroLength loc] 4 true false),
        emits (readEvent ctx (fieldName ctx kind name) loc)])) s' ret live pending := by
  have owner : kind = .class_ ∨ ctx.ownerIsMethod = true := by
    cases kind with
    | class_ => exact .inl rfl
    | instance_ => exact .inr (allowed.owner rfl)
    | global_ => simp [isUndeclared] at undeclared
    | local_ => exact absurd rfl allowed.field
  refine achieves_ensure_bind owner (Achieves.bind (doing.temp _) fun recvTemp s₁ ⟨_,_,doing⟩ => ?_)
  refine Achieves.bind ((walkConstantLit_implements _ _ .none).run (cctx.withTarget (.synthetic recvTemp)) doing suits)
    fun b₁ s₂ doing => ?_
  refine Achieves.bind (doing.temp _) fun rhsTemp s₃ ⟨_,_,doing⟩ => ?_
  refine Achieves.bind (right.sem.run (cctx.withTarget (.synthetic rhsTemp)) doing suits) fun b₂ s₄ doing => ?_
  refine Achieves.bind (doing.temp _) fun fieldKindTemp s₅ ⟨_,_,doing⟩ => ?_
  refine Achieves.bind ((walkLiteral_implements _ _).run (cctx.withTarget (.synthetic fieldKindTemp)) doing suits)
    fun b₃ s₆ doing => ?_
  refine Achieves.bind (doing.temp _) fun ownerTemp s₇ ⟨_,_,doing⟩ => ?_
  refine Achieves.bind ((walkLiteral_implements _ _).run (cctx.withTarget (.synthetic ownerTemp)) doing suits)
    fun b₄ s₈ doing => ?_
  refine Achieves.bind (doing.temp _) fun identTemp s₉ ⟨_,_,doing⟩ => ?_
  refine Achieves.bind ((walkLiteral_implements _ _).run (cctx.withTarget (.synthetic identTemp)) doing suits)
    fun b₅ s₁₀ doing => ?_
  rw [make_eq (Nat.le_refl 4) rfl]
  refine Achieves.bind (doing.shows rfl) fun _ s₁₁ doing => ?_
  refine Achieves.bind (doing.reads loc named _) fun _ s₁₂ doing => ?_
  refine achieves_pure (doing.as ?_)
  simp only [inOrder,seq_assoc,seq_skip,Sub.loc,right.tree]
  rfl

-- What can stand on the left.
inductive Assignable (ctx : Context) : ExpressionPtr → Prop where
  | constant {e : ExpressionPtr} {symbol : SymbolRef} : constantSymbol ctx.symbols.stubModule e = some symbol →
      (symbol ≠ ctx.symbols.stubModule → isPinned ctx symbol = true) → Assignable ctx e
  | local_ {loc : LocOffsets} {name unique : UInt32} : Assignable ctx (.local_ loc name unique)
  | field {loc : LocOffsets} {kind : IdentKind} {name : NameRef} :
      FieldAllowed ctx kind name → Assignable ctx (.unresolvedIdent loc kind name)

theorem walkAssignTo_implements {lhs : ExpressionPtr} (assignable : Assignable ctx lhs) (right : Renders ctx rhs rhs') :
    Implements ctx (walkAssignTo ctx loc lhs rhs) (meanAssign ctx loc lhs rhs') := by
  intro cctx s cur T sound open_ suits
  have doing := Doing.start T sound open_
  cases assignable with
  | constant known pinned =>
    rename_i symbol
    have named : assignedName ctx lhs = ctx.symbolName symbol := by simp only [assignedName,known]
    have plain : suggested ctx lhs = none := by
      cases lhs <;> first | rfl | cases known
    unfold walkAssignTo
    rw [known]
    refine Achieves.bind (global2Local_quiet ctx sound symbol pinned _) fun v s₁ ⟨same,quiet⟩ => ?_
    refine ((doing.quiet quiet).assigns loc right suits (same.trans named.symm)).imp fun ret s₂ doing => ?_
    exact doing.as (by rw [skip_seq,meanAssign,plain])
  | local_ =>
    refine Achieves.bind (doing.entered _) fun v s₁ ⟨same,doing⟩ => ?_
    refine (doing.assigns loc right suits same).imp fun ret s₂ doing => ?_
    exact doing.as (skip_seq _)
  | field allowed =>
    rename_i lhsLoc kind name
    refine Achieves.bind (unresolvedIdent2Local_quiet lhsLoc sound allowed true) fun (v,foundError) s₁ ⟨same,found,quiet⟩ => ?_
    have doing := doing.quiet quiet
    simp only [Bool.and_true] at found
    subst found
    refine achieves_ite (fun plain => ?_) fun suggest => ?_
    · have none_ : suggested ctx (.unresolvedIdent lhsLoc kind name) = none := by
        refine if_neg fun both => ?_
        rcases plain with plain | plain
        · exact plain both.1
        · exact plain both.2
      refine (doing.assigns loc right suits same).imp fun ret s₂ doing => ?_
      exact doing.as (by rw [skip_seq,meanAssign,none_]; rfl)
    · simp only [not_or,not_not] at suggest
      have some_ : suggested ctx (.unresolvedIdent lhsLoc kind name) = some (kind,name) := if_pos suggest
      refine (walkSuggestFieldType_does loc doing right suits suggest.1 allowed same).imp fun ret s₂ doing => ?_
      exact doing.as (by rw [skip_seq,meanAssign,some_]; rfl)

end Assignments

section Jumps
variable {cctx : CFGContext} {loc : LocOffsets} {expr : Sub Walk} {expr' : Sub Meaning}

-- After the dead block anything may be said to follow.
theorem Doing.stuck {B : Behaviour} (doing : Doing ctx st A s deadBlock live pending) :
    Doing ctx st (A.seq B) s deadBlock live pending :=
  doing.then ⟨doing.holding,.refl s⟩ fun alive => absurd rfl alive

theorem Doing.leaves {l : Leave} {scope : Option BlockId} {missing : ErrorReport} (doing : Doing ctx st A s b live pending)
    (there : st.target l = place scope)
    (inside : ∀ c, scope = some c → c < st.since.basicBlocks.length ∧ c ≠ entry) :
    Achieves (leaveTo ctx scope b loc missing) s fun _ s' => Doing ctx st (A.seq (leave l)) s' deadBlock live pending := by
  cases scope with
  | none =>
    refine Achieves.bind (report_quiet ctx _) fun _ s₁ quiet => ?_
    have doing := doing.quiet quiet
    exact doing.goto doing.holding.sound.two Nat.one_ne_zero there fun _ member _ => member
  | some c =>
    obtain ⟨below,inner⟩ := inside c rfl
    exact doing.goto (Nat.lt_of_lt_of_le below doing.since.length) inner there fun _ member _ => member

theorem Suits.next (suits : Suits cctx st.target st.since) (c : BlockId) (known : cctx.nextScope = some c) :
    c < st.since.basicBlocks.length ∧ c ≠ entry := suits.1.1 c (.inl known)

theorem Suits.break_ (suits : Suits cctx st.target st.since) (c : BlockId) (known : cctx.breakScope = some c) :
    c < st.since.basicBlocks.length ∧ c ≠ entry := suits.1.1 c (.inr (.inl known))

theorem Doing.blockReturns {whatLoc : LocOffsets} {exprSym : LocalRef} (doing : Doing ctx st A s b live pending)
    (suits : Suits cctx st.target st.since) : Achieves (emitBlockReturn ctx loc whatLoc exprSym cctx b) s fun _ s' =>
      Doing ctx st (A.seq (if cctx.isInsideRubyBlock then emit (.blockReturn loc whatLoc) else skip)) s' b live pending := by
  refine achieves_ite (fun ⟨_,inside⟩ => ?_) fun outside => ?_
  · rw [if_pos inside]
    refine Achieves.bind (doing.temp _) fun v s₁ ⟨_,_,doing⟩ => ?_
    have linked := (suits.1.2 inside).mono doing.since.links
    exact achieves_get_bind (achieves_ensure_bind linked (doing.shows rfl))
  · by_cases gone : b = deadBlock
    · subst gone
      exact achieves_pure doing.stuck
    · have plain : ¬ cctx.isInsideRubyBlock = true := fun inside => outside ⟨gone,inside⟩
      rw [if_neg plain]
      exact achieves_pure (doing.as (seq_skip A).symm)

theorem walkBlockReturn_implements (loc : LocOffsets) (same : Renders ctx expr expr') :
    Implements ctx (walkBlockReturn ctx loc expr) (meanBlockReturn loc expr') := by
  intro cctx s cur T sound open_ suits
  refine Achieves.bind ((Doing.start T sound open_).temp _) fun exprSym s₁ ⟨_,_,doing⟩ => ?_
  refine Achieves.bind (same.sem.run (cctx.withTarget (.synthetic exprSym)) doing suits) fun afterNext s₂ doing => ?_
  refine Achieves.bind (doing.blockReturns suits) fun _ s₃ doing => ?_
  refine Achieves.bind (doing.leaves suits.2.1 (Suits.next suits)) fun _ s₄ doing => ?_
  refine achieves_pure (doing.as ?_)
  simp only [meanBlockReturn,inOrder,seq_assoc,skip_seq,seq_skip,Sub.loc,same.tree]
  rfl

theorem walkReturn_implements (loc : LocOffsets) (same : Renders ctx expr expr') :
    Implements ctx (walkReturn ctx loc expr) (meanReturn loc expr') := by
  intro cctx s cur T sound open_ suits
  by_cases lambda : cctx.isInsideLambda = true
  · have mean : meanReturn loc expr' cctx.scope = meanBlockReturn loc expr' cctx.scope := if_pos lambda
    rw [walkReturn,if_pos lambda,mean]
    exact walkBlockReturn_implements loc same cctx s cur T sound open_ suits
  · have mean : meanReturn loc expr' cctx.scope = _ := if_neg lambda
    rw [walkReturn,if_neg lambda,mean]
    refine Achieves.bind ((Doing.start T sound open_).tempOccurrence _) fun retSym s₁ ⟨_,_,doing⟩ => ?_
    refine Achieves.bind (same.sem.run (cctx.withTarget retSym) doing suits) fun cont s₂ doing => ?_
    refine Achieves.bind (doing.shows rfl) fun _ s₃ doing => ?_
    refine Achieves.bind (doing.halt suits.2.2.2.2) fun _ s₄ doing => ?_
    refine achieves_pure (doing.as ?_)
    simp only [inOrder,seq_assoc,skip_seq,seq_skip,Sub.loc,same.tree]
    rfl

-- A local that only holds what was just computed.
theorem Doing.moves {v : LocalRef} {name : NameRef} (doing : Doing ctx st A s b live pending) (named : v.name = name)
    (hidden : moved ctx name = true) (bind : LocalOccurrence) :
    Achieves (emplaceBack b bind loc (.ident v)) s fun _ s' => Doing ctx st A s' b live pending := by
  have unseen : readEvent ctx name loc = none := if_pos hidden
  exact (doing.reads loc named bind).imp fun _ _ doing => doing.as (by rw [unseen,emits_none,seq_skip])

theorem Doing.throws {exprSym : LocalRef} (doing : Doing ctx st A s b live pending) :
    Achieves (emitBlockBreak ctx loc exprSym cctx b) s fun _ s' => Doing ctx st A s' b live pending := by
  refine achieves_ite (fun _ => achieves_pure doing) fun _ => ?_
  refine Achieves.bind (doing.temp _) fun magic s₁ ⟨_,_,doing⟩ => ?_
  refine Achieves.bind (doing.temp _) fun ignored s₂ ⟨_,_,doing⟩ => ?_
  refine Achieves.bind (doing.hidden rfl) fun _ s₃ doing => ?_
  rw [make_eq (Nat.le_refl 1) rfl]
  exact doing.hidden rfl

theorem walkBreak_implements (loc : LocOffsets) (same : Renders ctx expr expr') :
    Implements ctx (walkBreak ctx loc expr) fun sc => (expr'.sem sc).seq (leave .break_) := by
  intro cctx s cur T sound open_ suits
  refine Achieves.bind ((Doing.start T sound open_).temp _) fun exprSym s₁ ⟨named,_,doing⟩ => ?_
  refine Achieves.bind (same.sem.run (cctx.withTarget (.synthetic exprSym)) doing suits) fun afterBreak s₂ doing => ?_
  refine Achieves.bind (doing.temp _) fun blockBreakAssign s₃ ⟨named',_,doing⟩ => ?_
  refine Achieves.bind (doing.moves named (by simp [moved]) _) fun _ s₄ doing => ?_
  refine Achieves.bind doing.throws fun _ s₅ doing => ?_
  refine Achieves.bind (doing.moves named' (by simp [moved]) _) fun _ s₆ doing => ?_
  refine Achieves.bind (doing.leaves suits.2.2.1 (Suits.break_ suits)) fun _ s₇ doing => ?_
  exact achieves_pure (doing.as (by rw [skip_seq]; rfl))

theorem walkRetry_implements (loc : LocOffsets) : Implements ctx (walkRetry ctx loc) fun _ => leave .retry := by
  intro cctx s cur T sound open_ suits
  have doing := Doing.start T sound open_
  have there := suits.2.2.2.1
  unfold walkRetry
  cases known : cctx.rescueScope with
  | none =>
    refine Achieves.bind (report_quiet ctx _) fun _ s₁ quiet => ?_
    have doing := doing.quiet quiet
    rw [known] at there
    refine Achieves.bind (doing.goto doing.holding.sound.two Nat.one_ne_zero there fun _ member _ => member) fun _ s₂ doing => ?_
    exact achieves_pure (doing.as (skip_seq _))
  | some scope =>
    refine Achieves.bind (doing.temp _) fun magic s₁ ⟨_,_,doing⟩ => ?_
    refine Achieves.bind (doing.hidden rfl) fun _ s₂ doing => ?_
    refine Achieves.bind (doing.temp _) fun retryTemp s₃ ⟨_,_,doing⟩ => ?_
    rw [make_eq (Nat.le_refl 0) rfl]
    refine Achieves.bind (doing.hidden rfl) fun _ s₄ doing => ?_
    rw [known] at there
    obtain ⟨below,inner⟩ := suits.1.1 scope (.inr (.inr known))
    refine Achieves.bind (doing.goto (Nat.lt_of_lt_of_le below doing.since.length) inner there fun _ member _ => member)
      fun _ s₅ doing => ?_
    exact achieves_pure (doing.as (skip_seq _))

end Jumps

section Casts
variable {cctx : CFGContext} {loc : LocOffsets} {arg typeExpr : Sub Walk} {arg' typeExpr' : Sub Meaning} {cast : NameRef}
  {type : TypePtr} {tmp : LocalRef}

theorem Doing.bindsAgain {bound : Instruction} (doing : Doing ctx st A s b live pending)
    (hidden : visible ctx ⟨.synthetic (selfVariable ctx),loc,bound,false⟩ = none) :
    Achieves (bindAgain ctx loc bound cctx) s fun _ s' => Doing ctx st A s' b live pending := by
  unfold bindAgain
  cases cctx.rescueScope with
  | none => exact achieves_pure doing
  | some scope =>
    refine Achieves.bind (doing.note scope hidden) fun _ s₁ doing => ?_
    exact doing.note scope (moved_self loc)

theorem Doing.binds (doing : Doing ctx st A s b live pending) : Achieves (walkBind ctx loc cast type tmp arg cctx b) s
    fun ret s' => Doing ctx st A s' ret live pending := by
  refine achieves_ite (fun _ => ?_) fun _ => ?_
  · refine Achieves.bind (doing.hidden ?_) fun _ s₁ doing => ?_
    · unfold visible
      split
      · rfl
      · exact if_pos rfl
    refine Achieves.bind (doing.hidden (moved_self loc)) fun _ s₂ doing => ?_
    refine Achieves.bind (doing.bindsAgain (if_pos rfl)) fun _ s₃ doing => ?_
    exact achieves_pure doing
  · refine Achieves.bind (report_quiet ctx _) fun _ s₁ quiet => ?_
    exact achieves_pure (doing.quiet quiet)

-- What a cast shows.
def checked (ctx : Context) (loc : LocOffsets) (cast : NameRef) (type : TypePtr) (argLoc : LocOffsets) : Option Event :=
  if cast = ctx.names.uncheckedLet ∨ cast = ctx.names.bind ∨ cast = ctx.names.syntheticBind then none
  else castEvent ctx cast type loc argLoc

theorem Doing.casts (doing : Doing ctx st A s b live pending) (named : tmp.name = ctx.names.castTemp) :
    Achieves (finishCast ctx loc cast type tmp arg cctx b) s fun ret s' =>
      Doing ctx st (A.seq (emits (checked ctx loc cast type arg.loc))) s' ret live pending := by
  refine achieves_ite (fun unchecked => ?_) fun other => achieves_ite (fun bound => ?_) fun other' => ?_
  · have unseen : checked ctx loc cast type arg.loc = none := if_pos (.inl unchecked)
    rw [unseen,emits_none,seq_skip]
    refine Achieves.bind (doing.moves named (by simp [moved]) _) fun _ s₁ doing => ?_
    exact achieves_pure doing
  · have unseen : checked ctx loc cast type arg.loc = none := if_pos (.inr bound)
    rw [unseen,emits_none,seq_skip]
    exact doing.binds
  · have seen : checked ctx loc cast type arg.loc = castEvent ctx cast type loc arg.loc :=
      if_neg (not_or.mpr ⟨other,other'⟩)
    rw [seen]
    refine Achieves.bind (doing.emplaced _) fun _ s₁ doing => ?_
    exact achieves_pure doing

-- A cast without a type expression is one of a lambda.
theorem walkTypeExpr_implements (same : Renders ctx typeExpr typeExpr')
    (typed : isEmptyTree typeExpr.tree = true → isLambdaTLet ctx arg.tree = true) :
    Implements ctx (walkTypeExpr ctx arg typeExpr) fun sc =>
      if isEmptyTree typeExpr'.tree then skip else typeExpr'.sem sc := by
  intro cctx s cur T sound open_ suits
  have doing := Doing.start T sound open_
  rw [←same.tree]
  beta_reduce
  refine achieves_ite (fun empty => ?_) fun written => ?_
  · rw [if_pos empty]
    exact achieves_ensure_bind (typed empty) (achieves_pure doing)
  · rw [if_neg written]
    refine Achieves.bind (doing.temp _) fun deadSym s₁ ⟨_,_,doing⟩ => ?_
    refine Achieves.bind (same.sem.run (cctx.withTarget (.synthetic deadSym)) doing suits) fun b s₂ doing => ?_
    refine Achieves.bind (doing.hidden rfl) fun _ s₃ doing => ?_
    exact achieves_pure (doing.as (skip_seq _))

theorem walkCast_implements (same : Renders ctx arg arg') (same' : Renders ctx typeExpr typeExpr')
    (typed : isEmptyTree typeExpr.tree = true → isLambdaTLet ctx arg.tree = true) :
    Implements ctx (walkCast ctx loc cast type arg typeExpr) (meanCast ctx loc cast type arg' typeExpr') := by
  intro cctx s cur T sound open_ suits
  refine Achieves.bind (walkTypeExpr_implements same' typed cctx s cur T sound open_ suits) fun b₁ s₁ doing => ?_
  refine Achieves.bind (doing.temp _) fun tmp s₂ ⟨named,_,doing⟩ => ?_
  refine Achieves.bind (same.sem.run (cctx.withTarget (.synthetic tmp)) doing suits) fun b₂ s₃ doing => ?_
  refine Achieves.bind (doing.casts named) fun b₃ s₄ doing => ?_
  have marked : Achieves (markLet ctx cast cctx.target.variable_) s₄ fun _ s₅ => Quiet ctx s₄ s₅ :=
    achieves_ite (fun _ => setMinLoops_quiet ctx _ _) fun _ => achieves_pure (.refl s₄)
  refine marked.bind fun _ s₅ quiet => achieves_pure ((doing.quiet quiet).as ?_)
  simp only [meanCast,inOrder,seq_assoc,seq_skip,Sub.loc,same.tree]
  rfl

end Casts

variable {s₀ : State} {c cur : BlockId} {B C : Behaviour} {T : Leave → Nat × Nat} {loc : LocOffsets}

section Joining

-- A stretch that starts in a new block.
theorem Doing.covers (doing : Doing ctx ⟨T,s₀,cur,s,(b,0)⟩ A s' c live pending) (alive : b ≠ deadBlock) :
    Covers deadBlock T 0 (flow ctx s') (b,0) A (c,(eventsOf ctx s' c).length) := (doing.fragment alive).free

end Joining

section If

theorem walkEmptyTreeInIf_implements : Implements ctx (walkEmptyTreeInIf ctx loc) fun _ => skip := by
  intro cctx s cur T sound open_ suits
  exact Achieves.bind ((Doing.start T sound open_).hidden rfl) fun _ s₁ doing => achieves_pure doing

theorem walkBranch_implements {branch : Sub Walk} {branch' : Sub Meaning} (same : Renders ctx branch branch')
    (empty : isEmptyTree branch.tree = true → branch'.sem = fun _ => skip) :
    Implements ctx (walkBranch ctx loc branch) branch'.sem := by
  unfold walkBranch
  split
  · rename_i tree
    rw [empty tree]
    exact walkEmptyTreeInIf_implements
  · exact same.sem

variable {cond thenp elsep : Sub Walk} {cond' thenp' elsep' : Sub Meaning}

-- The ends of two branches go on in one block, or in the one of them that is not the dead block.
theorem Holding.joins {t e t₀ e₀ : BlockId} {evt eve : List Event} {q : Nat × Nat} {loops : Int}
    (holding : Holding ctx s₀ cur s [(e,eve),(t,evt)] []) (leads : Leads deadBlock (flow ctx s) q t₀ e₀)
    (left : Covers deadBlock T 0 (flow ctx s) (t₀,0) A (t,evt.length))
    (right : Covers deadBlock T 0 (flow ctx s) (e₀,0) B (e,eve.length)) :
    Achieves (if t = deadBlock then pure e else if e = deadBlock then pure t
      else do
        let ret ← freshBlock loops
        unconditionalJump ctx t ret loc
        unconditionalJump ctx e ret loc
        pure ret) s fun ret s' => ∃ ev, (Holding ctx s₀ cur s' [(ret,ev)] [] ∧ Later ctx s s') ∧
          Fragment deadBlock T (flow ctx s') q (A ∪ B) (ret,ev.length) := by
  refine achieves_ite (fun gone => ?_) fun alive => achieves_ite (fun gone => ?_) fun alive' => ?_
  · subst gone
    have held := (holding.perm (List.Perm.swap _ _ _)).drop_dead
    exact achieves_pure ⟨eve,⟨held,.refl s⟩,.branch leads (left.restop rfl) right⟩
  · subst gone
    exact achieves_pure ⟨evt,⟨holding.drop_dead,.refl s⟩,.branch leads left (right.restop rfl)⟩
  · refine Achieves.bind (holding.freshened loops) fun ret s₁ ⟨fresh,held,later₁⟩ => ?_
    replace held := held.perm (List.reverse_perm [(t,evt),(e,eve),(ret,[])])
    refine Achieves.bind (held.jump [] fresh.below fresh.inner (by simp)) fun _ s₂ ⟨held,later₂,leads₁⟩ => ?_
    refine Achieves.bind (held.jump [] (fresh.inside later₂).1 fresh.inner (by simp)) fun _ s₃ ⟨held,later₃,leads₂⟩ => ?_
    have later := (later₁.trans later₂).trans later₃
    refine achieves_pure ⟨[],⟨held,later⟩,.branch (leads.mono later.extends_) ?_ ?_⟩
    · exact (left.mono later.extends_).enter (.jump (leads₁.mono later₃.extends_) fresh.alive)
    · exact (right.mono later.extends_).enter (.jump leads₂ fresh.alive)

theorem walkIf_implements (same : Renders ctx cond cond') (left : Implements ctx (walkBranch ctx loc thenp) thenp'.sem)
    (right : Implements ctx (walkBranch ctx loc elsep) elsep'.sem) :
    Implements ctx (walkIf ctx loc cond thenp elsep) (meanIf cond' thenp' elsep') := by
  intro cctx s cur T sound open_ suits
  refine Achieves.bind ((Doing.start T sound open_).temp _) fun ifSym s₁ ⟨named,apart,doing⟩ => ?_
  refine achieves_ensure_bind (decide_eq_true (named ▸ ctx.names.ifTemp_exists)) ?_
  refine Achieves.bind (same.sem.run (cctx.withTarget (.synthetic ifSym)) doing suits) fun cont s₂ doing => ?_
  refine Achieves.bind (doing.holding.freshened _) fun thenBlock s₃ ⟨fresh₁,held,later₁⟩ => ?_
  refine Achieves.bind (held.freshened _) fun elseBlock s₄ ⟨fresh₂,held,later₂⟩ => ?_
  replace held := held.perm (List.reverse_perm [(cont,_),(thenBlock,[]),(elseBlock,[])])
  refine Achieves.bind (held.branch [] (fresh₁.inside later₂) ⟨fresh₂.below,fresh₂.inner⟩ (fresh₂.apart fresh₁.below) (apart ctx.names.ifTemp_exists)
    (by simp)) fun _ s₅ ⟨held,later₃,leads⟩ => ?_
  refine Achieves.bind (left.run cctx (held.stretch T) (suits.later held.later)) fun thenEnd s₆ thenDoing => ?_
  have swapped := thenDoing.holding.perm (List.Perm.swap _ _ _)
  refine Achieves.bind (right.run cctx (swapped.stretch T) (suits.later swapped.later)) fun elseEnd s₇ elseDoing => ?_
  have later := thenDoing.since.trans elseDoing.since
  refine (elseDoing.holding.joins (leads.mono later.extends_)
    ((thenDoing.covers fresh₁.alive).mono elseDoing.since.extends_) (elseDoing.covers fresh₂.alive)).imp ?_
  rintro ret s₈ ⟨ev,⟨held,later'⟩,fragment⟩
  have whole := ((later₁.trans later₂).trans later₃).trans (later.trans later')
  refine (doing.then ⟨held,whole⟩ fragment).as ?_
  simp only [skip_seq]
  rfl

end If

section While
variable {cond body : Sub Walk} {cond' body' : Sub Meaning}

-- Where next and break go in a loop or a block.
def inLoop (T : Leave → Nat × Nat) (header after : BlockId) : Leave → Nat × Nat :=
  Function.update (Function.update T .next (header,0)) .break_ (after,0)

theorem Suits.inLoop {cctx : CFGContext} {header after : BlockId} (suits : Suits cctx T s)
    (inside : header < s.basicBlocks.length ∧ header ≠ entry) (inside' : after < s.basicBlocks.length ∧ after ≠ entry)
    (insideRubyBlock : Bool) (linked : insideRubyBlock = true → Linked s cctx.link) :
    Suits (cctx.withLoopScope header after insideRubyBlock) (inLoop T header after) s := by
  refine ⟨⟨fun b scope => ?_,linked⟩,?_,?_,?_,?_⟩
  · rcases scope with known | known | known
    · exact Option.some.inj known ▸ inside
    · exact Option.some.inj known ▸ inside'
    · exact suits.1.1 b (.inr (.inr known))
  · exact (Function.update_of_ne (by decide) ..).trans (Function.update_self ..)
  · exact Function.update_self ..
  · exact ((Function.update_of_ne (by decide) ..).trans (Function.update_of_ne (by decide) ..)).trans suits.2.2.2.1
  · exact ((Function.update_of_ne (by decide) ..).trans (Function.update_of_ne (by decide) ..)).trans suits.2.2.2.2

theorem walkWhile_implements (same : Renders ctx cond cond') (same' : Renders ctx body body') :
    Implements ctx (walkWhile ctx loc cond body) (meanWhile cond' body') := by
  intro cctx s cur T sound open_ suits
  have start := Doing.start T sound open_
  refine Achieves.bind (start.holding.freshened _) fun header s₁ ⟨fresh₁,held,later₁⟩ => ?_
  refine Achieves.bind (held.freshened _) fun notCalled s₂ ⟨fresh₂,held,later₂⟩ => ?_
  refine Achieves.bind (held.freshened _) fun after s₃ ⟨fresh₃,held,later₃⟩ => ?_
  replace held := held.perm (List.reverse_perm [(cur,_),(header,[]),(notCalled,[]),(after,[])])
  refine Achieves.bind (held.jump [after,notCalled] (fresh₁.inside (later₂.trans later₃)).1 fresh₁.inner (by simp))
    fun _ s₄ ⟨held,later₄,leads₁⟩ => ?_
  refine Achieves.bind (newTemporary_quiet ctx _) fun condSym s₅ ⟨_,apart,quiet⟩ => ?_
  obtain ⟨held,later₅⟩ := held.quiet quiet
  -- the condition and the body are walked in the scope of the loop
  have later := ((later₂.trans later₃).trans later₄).trans later₅
  have loopSuits : Suits (cctx.withLoopScope header after false) (inLoop T header after) s₅ :=
    (suits.later held.later).inLoop (fresh₁.inside later) (fresh₃.inside (later₄.trans later₅)) false (by simp)
  refine Achieves.bind (same.sem.run ((cctx.withTarget (.synthetic condSym)).withLoopScope header after false)
    (held.stretch (inLoop T header after)) loopSuits) fun headerEnd s₆ condDoing => ?_
  refine Achieves.bind (condDoing.holding.freshened _) fun bodyBlock s₇ ⟨fresh₄,held,later₇⟩ => ?_
  replace held := held.perm (List.Perm.swap _ _ _)
  have later' := ((later₃.trans later₄).trans later₅).trans condDoing.since
  refine Achieves.bind (held.branch [after] ⟨fresh₄.below,fresh₄.inner⟩ (fresh₂.inside (later'.trans later₇))
    (fresh₄.apart (fresh₂.inside later').1).symm (apart ctx.names.whileTemp_exists) (by simp)) fun _ s₈ ⟨held,later₈,leads₂⟩ => ?_
  refine Achieves.bind (newTemporary_quiet ctx _) fun bodySym s₉ ⟨_,_,quiet⟩ => ?_
  obtain ⟨held,later₉⟩ := held.quiet quiet
  have later₅₉ := ((condDoing.since.trans later₇).trans later₈).trans later₉
  refine Achieves.bind (same'.sem.run (((cctx.withTarget (.synthetic bodySym)).withLoopScope header after
    false).withLoopBreakTarget cctx.target.variable_) (held.stretch (inLoop T header after)) (loopSuits.later later₅₉)) fun bodyEnd s₁₀ bodyDoing => ?_
  refine Achieves.bind (bodyDoing.holding.jump [after]
    (fresh₁.inside ((later.trans later₅₉).trans bodyDoing.since)).1 fresh₁.inner (by simp)) fun _ s₁₁ ⟨held,later₁₁,leads₃⟩ => ?_
  refine Achieves.bind (held.note notCalled rfl) fun _ s₁₂ ⟨held,later₁₂⟩ => ?_
  refine Achieves.bind (held.jump [] (fresh₃.inside ((((later₄.trans later₅).trans later₅₉).trans bodyDoing.since).trans
    (later₁₁.trans later₁₂))).1 fresh₃.inner (by simp)) fun _ s₁₃ ⟨held,later₁₃,leads₄⟩ => ?_
  -- one round
  have later₁₀ := (later₁₁.trans later₁₂).trans later₁₃
  have later₈₁₃ := (later₉.trans bodyDoing.since).trans later₁₀
  have onward : Covers deadBlock (inLoop T header after) 0 (flow ctx s₁₃) (bodyBlock,0)
      ((body'.sem ⟨false,cctx.isInsideLambda⟩).seq (leave .next)) (after,0) := by
    have covers := (bodyDoing.covers fresh₄.alive).mono later₁₀.extends_
    rw [skip_seq] at covers
    exact covers.seq (Nat.zero_le 1) (.goto (leads₃.mono (later₁₂.trans later₁₃).extends_)
      ((Function.update_of_ne (by decide) ..).trans (Function.update_self ..)))
  have out : Covers deadBlock (inLoop T header after) 0 (flow ctx s₁₃) (notCalled,0) (leave .break_) (after,0) :=
    (Fragment.goto leads₄ (Function.update_self ..) fresh₂.alive).free
  have round := (condDoing.fragment.mono (((later₇.trans later₈).trans later₈₁₃).extends_)).seq
    (.branch (leads₂.mono later₈₁₃.extends_) onward out)
  rw [skip_seq] at round
  have looped := round.rounds (by decide) fresh₃.alive
  have whole : Later ctx s s₁₃ := held.later
  have entered := leads₁.mono (((later₅.trans condDoing.since).trans (later₇.trans later₈)).trans later₈₁₃).extends_
  refine achieves_pure ((start.then ⟨held,whole⟩ (.enter entered (looped fresh₁.alive).free)).as ?_)
  rw [skip_seq]
  rfl

end While

end CFGBuilder
