import ScipRuby.Cfg.BuilderCorrect
import ScipRuby.Cfg.BuilderEntry

namespace CFGBuilder
open FlowGraphs TotalRuns FlowGraphs.Behaviour
open Serialize (LocOffsets TypePtr ExpressionPtr noLoc)

variable {ctx : Context} {s s' : State} {b : BlockId} {A B : Behaviour} {st : Stretch} {cctx : CFGContext}

section Meanings

-- One after the other, from some default on.
def late : List Behaviour → Behaviour
  | [] => ∅
  | d :: row => inOrder (d :: row) ∪ late row

-- Of a row of optional parameters the last ones may be left out.
def omitted (row : List Behaviour) : Behaviour := skip ∪ late row

def computed (default_ : Option (Sub Meaning)) (sc : Scope) : List Behaviour := (default_.map (·.sem sc)).toList

-- A row of optional parameters ends where another kind of parameter comes, and after each keyword.
def meanRows (sc : Scope) : Bool → List Behaviour → List (ParamInfo × Option (Sub Meaning)) → Behaviour
  | _,row,[] => omitted row
  | seenKeyword,row,(paramInfo,default_) :: params =>
    let seenKeyword := seenKeyword || paramInfo.flags.isKeyword
    if endsRow seenKeyword paramInfo.flags then (omitted row).seq (meanRows sc seenKeyword (computed default_ sc) params)
    else meanRows sc seenKeyword (row ++ computed default_ sc) params

variable (ctx)

def meanParams (method : Method) (params : List ExpressionPtr) : Meaning := fun sc =>
  meanRows sc false [] ((method.parameters.zip (meanDefaults ctx params)).map fun (paramInfo,default_) =>
    (paramInfo,if method.isAbstract && !method.isSCIPRuby then none else default_))

def meanBody (stats : List ExpressionPtr) (expr : ExpressionPtr) : Meaning := fun sc =>
  match stats.filter shouldBuildFor with
  | [] => mean ctx expr sc
  | kept => meanAll (meanSubs ctx kept) sc

-- The defaults of what is not given, and then the body.
def meanMethod (method : Method) (params stats : List ExpressionPtr) (expr : ExpressionPtr) : Behaviour :=
  (meanParams ctx method params ⟨false,false⟩).seq (meanBody ctx stats expr ⟨false,false⟩)

end Meanings

section Rows

theorem inOrder_snoc (row : List Behaviour) (d : Behaviour) : inOrder (row ++ [d]) = (inOrder row).seq d := by
  rw [inOrder_append,inOrder,inOrder,seq_skip]

theorem late_snoc (row : List Behaviour) (d : Behaviour) : late (row ++ [d]) = (omitted row).seq d := by
  induction row with
  | nil => simp only [late,omitted,List.nil_append,inOrder,seq_skip,Set.union_empty,skip_seq]
  | cons first row ih =>
    have whole : late (first :: row ++ [d]) = inOrder (first :: row ++ [d]) ∪ late (row ++ [d]) := rfl
    rw [whole,ih,inOrder_snoc,←union_seq,omitted,omitted,late,Set.union_left_comm]

variable {present : BlockId} {default_ : Option BlockId} {row : List Behaviour}

def rowLive (ctx : Context) (s : State) (present : BlockId) (default_ : Option BlockId) : List (BlockId × List Event) :=
  (present,eventsOf ctx s present) :: default_.toList.map fun d => (d,eventsOf ctx s d)

-- In a row of optional parameters there are two ways on: all of them were given, or the last one was not.
structure Row (ctx : Context) (st : Stretch) (s : State) (present : BlockId) (default_ : Option BlockId) (A : Behaviour)
    (row : List Behaviour) : Prop where
  since : Later ctx st.since s
  holding : Holding ctx st.first st.cur s (rowLive ctx s present default_) []
  none_ : default_ = none → row = []
  leads : ∀ G, Extends (flow ctx s) G → ∀ (M N : Behaviour) (q : Nat × Nat),
    Fragment deadBlock st.target G (present,(eventsOf ctx s present).length) M q →
    (∀ d, default_ = some d → Fragment deadBlock st.target G (d,(eventsOf ctx s d).length) N q) →
    Fragment deadBlock st.target G st.place (A.seq (M ∪ (late row).seq N)) q

theorem Row.start (doing : Doing ctx st A s b [] []) : Row ctx st s b none A [] := by
  refine ⟨doing.since,doing.holding,fun _ => rfl,fun G further M N q given _ => ?_⟩
  rw [late,empty_seq,Set.union_empty]
  exact (doing.fragment.mono further).seq given

theorem mem_rowLive {d : BlockId} : (d,eventsOf ctx s d) ∈ rowLive ctx s present (some d) :=
  List.mem_cons_of_mem _ List.mem_cons_self

theorem rowLive_same (held : Holding ctx st.first st.cur s' (rowLive ctx s present default_) []) :
    rowLive ctx s' present default_ = rowLive ctx s present default_ := by
  have first : eventsOf ctx s' present = eventsOf ctx s present := (held.open_ _ List.mem_cons_self).2
  unfold rowLive
  rw [first]
  cases default_ with
  | none => rfl
  | some d =>
    have second : eventsOf ctx s' d = eventsOf ctx s d := (held.open_ _ mem_rowLive).2
    simp only [Option.toList_some,List.map_cons,List.map_nil,second]

theorem Row.meanwhile (rows : Row ctx st s present default_ A row)
    (held : Holding ctx st.first st.cur s' (rowLive ctx s present default_) [] ∧ Later ctx s s') :
    Row ctx st s' present default_ A row := by
  obtain ⟨held,later⟩ := held
  have same := rowLive_same held
  refine ⟨rows.since.trans later,same ▸ held,rows.none_,fun G further M N q given left => ?_⟩
  have first : eventsOf ctx s' present = eventsOf ctx s present := (held.open_ _ List.mem_cons_self).2
  refine rows.leads G (later.extends_.trans further) M N q (first ▸ given) fun d known => ?_
  subst known
  have second : eventsOf ctx s' d = eventsOf ctx s d := (held.open_ _ mem_rowLive).2
  exact second ▸ left d rfl

theorem Row.quiet (rows : Row ctx st s present default_ A row) (quiet : Quiet ctx s s') : Row ctx st s' present default_ A row :=
  rows.meanwhile (rows.holding.quiet quiet)

theorem Row.note {binding : Binding} (rows : Row ctx st s present default_ A row) (b : BlockId) (hidden : visible ctx binding = none) :
    Achieves (emplace b binding) s fun _ s' => Row ctx st s' present default_ A row :=
  (rows.holding.note b hidden).imp fun _ _ held => rows.meanwhile held

-- The two ways meet again.
theorem Row.join (rows : Row ctx st s present default_ A row) (cctx : CFGContext) :
    Achieves (joinRow ctx cctx present default_) s fun ret s' => Doing ctx st (A.seq (omitted row)) s' ret [] [] := by
  cases default_ with
  | none =>
    have empty := rows.none_ rfl
    have fragment := rows.leads _ (.refl _) skip ∅ _ (Fragment.skip _) fun d known => nomatch known
    rw [empty,late,empty_seq,Set.union_empty] at fragment
    rw [empty,omitted,late,Set.union_empty]
    exact achieves_pure ⟨rows.holding,rows.since,fragment⟩
  | some d =>
    refine Achieves.bind (rows.holding.freshened _) fun join s₁ ⟨fresh,held,later₁⟩ => ?_
    replace held := held.perm (List.Perm.swap _ _ _)
    refine Achieves.bind (held.jump [] fresh.below fresh.inner (by simp)) fun _ s₂ ⟨held,later₂,leads₁⟩ => ?_
    replace held := held.perm (List.Perm.swap _ _ _)
    refine Achieves.bind (held.jump [] (fresh.inside later₂).1 fresh.inner (by simp)) fun _ s₃ ⟨held,later₃,leads₂⟩ => ?_
    refine achieves_pure ⟨?_,rows.since.trans ((later₁.trans later₂).trans later₃),?_⟩
    · have empty : eventsOf ctx s₃ join = [] := (held.open_ _ List.mem_cons_self).2
      exact empty ▸ held
    · have empty : eventsOf ctx s₃ join = [] := (held.open_ _ List.mem_cons_self).2
      rw [empty,omitted,←seq_skip (late row)]
      refine rows.leads _ ((later₁.extends_.trans later₂.extends_).trans later₃.extends_) skip skip _
        (.jump (leads₁.mono later₃.extends_) fresh.alive) fun d' known => ?_
      obtain rfl := Option.some.inj known
      exact .jump leads₂ fresh.alive

variable {method : Method} {paramInfo : ParamInfo} {def_ : Sub Walk} {def' : Sub Meaning} {loc : LocOffsets}

-- Where an earlier parameter was not given, the next default is computed too.
theorem Holding.fallThrough {s₀ s₁ : State} {cur d' : BlockId} {live : List (BlockId × List Event)}
    (held : Holding ctx s₀ cur s₁ ((default_.toList.map fun d => (d,eventsOf ctx s d)) ++ live) [])
    (inside : d' < s₁.basicBlocks.length ∧ d' ≠ entry) :
    Achieves (fallThrough ctx default_ d') s₁ fun _ s₂ => Holding ctx s₀ cur s₂ live [] ∧ Later ctx s₁ s₂ ∧
        ∀ d, default_ = some d → Leads deadBlock (flow ctx s₂) (d,(eventsOf ctx s d).length) d' d' := by
  cases default_ with
  | none => exact achieves_pure ⟨held,.refl _,fun _ known => nomatch known⟩
  | some d =>
    refine (held.jump [] inside.1 inside.2 (by simp)).imp fun _ s₂ ⟨held,later,leads⟩ => ⟨held,later,fun d₁ known => ?_⟩
    obtain rfl := Option.some.inj known
    exact leads

theorem Doing.checkDefault {live : List (BlockId × List Event)} {pending : List BlockId} {type : Option TypePtr} {result : LocalRef}
    (doing : Doing ctx st A s b live pending) :
    Achieves (checkDefault ctx type result loc b) s fun _ s' => Doing ctx st A s' b live pending := by
  cases type with
  | none => exact achieves_pure doing
  | some type =>
    refine Achieves.bind (doing.temp _) fun tmp s₁ ⟨_,_,doing⟩ => ?_
    refine Achieves.bind (doing.hidden rfl) fun _ s₂ doing => ?_
    exact (setMinLoops_quiet ctx _ _).imp fun _ _ quiet => doing.quiet quiet

theorem Row.default (rows : Row ctx st s present default_ A row) (suits : Suits cctx st.target st.since)
    (same : Renders ctx def_ def') (i : UInt16) : Achieves (walkDefault ctx method cctx i paramInfo loc def_ present default_) s
      fun r s' => Row ctx st s' r.2.1 (some r.2.2) A (row ++ [def'.sem cctx.scope]) := by
  refine Achieves.bind (rows.holding.freshened _) fun given s₁ ⟨fresh₁,held,later₁⟩ => ?_
  refine Achieves.bind (held.freshened _) fun left s₂ ⟨fresh₂,held,later₂⟩ => ?_
  refine Achieves.bind (newTemporary_quiet ctx _) fun cond s₃ ⟨_,condition,quiet⟩ => ?_
  obtain ⟨held,later₃⟩ := held.quiet quiet
  refine Achieves.bind (held.note present rfl) fun _ s₄ ⟨held,later₄⟩ => ?_
  have swapped : ([(left,[]),(given,[])] ++ rowLive ctx s present default_).Perm
      (rowLive ctx s present default_ ++ [(left,[]),(given,[])]) := List.perm_append_comm
  replace held := held.perm swapped
  have later₂₄ := later₃.trans later₄
  refine Achieves.bind (held.branch [] (fresh₁.inside (later₂.trans later₂₄)) (fresh₂.inside later₂₄) (fresh₂.apart fresh₁.below)
    (condition ctx.names.argPresent_exists) (by simp)) fun _ s₅ ⟨held,later₅,leads₁⟩ => ?_
  refine Achieves.bind (held.fallThrough (fresh₂.inside (later₂₄.trans later₅))) fun _ s₆ ⟨held,later₆,leads₂⟩ => ?_
  refine Achieves.bind (newTemporary_quiet ctx _) fun result s₇ ⟨_,_,quiet⟩ => ?_
  obtain ⟨held,later₇⟩ := held.quiet quiet
  have later₀₇ := ((later₁.trans later₂).trans later₂₄).trans ((later₅.trans later₆).trans later₇)
  refine Achieves.bind (same.sem.run (cctx.withTarget (.synthetic result)) (held.stretch st.target)
    (suits.later (rows.since.trans later₀₇))) fun last s₈ doing => ?_
  refine Achieves.bind doing.checkDefault fun _ s₉ doing => achieves_pure ?_
  have empty : eventsOf ctx s₉ given = [] := (doing.holding.open_ (given,[]) (by simp)).2
  have later₅₉ := (later₆.trans later₇).trans doing.since
  refine ⟨rows.since.trans (later₀₇.trans doing.since),?_,fun gone => absurd gone (Option.some_ne_none _),fun G further M N q all skipped => ?_⟩
  · have swapped := doing.holding.perm (List.Perm.swap _ _ _)
    rwa [←empty] at swapped
  · -- the new default and what comes after it
    have onward : Fragment deadBlock st.target G (left,0) ((def'.sem cctx.scope).seq N) q := by
      have first := doing.fragment.mono further
      rw [skip_seq] at first
      exact first.seq (skipped last rfl)
    rw [empty] at all
    have both : Fragment deadBlock st.target G (present,(eventsOf ctx s present).length) (M ∪ (def'.sem cctx.scope).seq N) q :=
      .branch (leads₁.mono (later₅₉.extends_.trans further)) (all fresh₁.alive).free (onward fresh₂.alive).free
    have whole := rows.leads G ((later₀₇.trans doing.since).extends_.trans further) _ _ q both fun d known =>
      .enter ((leads₂ d known).mono ((later₇.trans doing.since).extends_.trans further)) (onward fresh₂.alive).free
    rw [late_snoc,omitted,Behaviour.seq_assoc,union_seq,skip_seq,←Set.union_assoc]
    exact whole

theorem Row.optional {d : Option (Sub Walk)} {d' : Option (Sub Meaning)} (rows : Row ctx st s present default_ A row)
    (suits : Suits cctx st.target st.since) (same : Option.Rel (Renders ctx) d d') (i : Nat) (local_ : LocalRef) :
    Achieves (walkOptional ctx method cctx i paramInfo local_ loc d present default_) s fun r s' =>
      Row ctx st s' r.1 r.2 A (row ++ computed d' cctx.scope) := by
  cases same with
  | none => exact achieves_pure (by rwa [computed,Option.map_none,Option.toList_none,List.append_nil])
  | some same =>
    refine Achieves.bind (rows.default suits same _) fun (result,presentNext,defaultNext) s₁ rows => ?_
    exact Achieves.bind (rows.note defaultNext rfl) fun _ s₂ rows => achieves_pure rows

end Rows

section Params
variable {method : Method}

structure Declared (ctx : Context) (method : Method) (w : Nat × ExpressionPtr × Option (Sub Walk))
    (m : ParamInfo × Option (Sub Meaning)) : Prop where
  local_ : (arg2Local w.2.1).isSome = true
  info : method.parameters[w.1]? = some m.1
  default_ : Option.Rel (Renders ctx) (if method.isAbstract && !method.isSCIPRuby then none else w.2.2) m.2

theorem Row.params {params : List (Nat × ExpressionPtr × Option (Sub Walk))} {params' : List (ParamInfo × Option (Sub Meaning))}
    (same : List.Forall₂ (Declared ctx method) params params') (suits : Suits cctx st.target st.since) {present : BlockId}
    {default_ : Option BlockId} {row : List Behaviour} (rows : Row ctx st s present default_ A row) (seenKeyword : Bool) :
    Achieves (walkParams ctx method cctx params seenKeyword present default_) s fun ret s' =>
      Doing ctx st (A.seq (meanRows cctx.scope seenKeyword row params')) s' ret [] [] := by
  induction same generalizing s A present default_ row seenKeyword with
  | nil => exact rows.join cctx
  | @cons param param' params params' first _ ih =>
    obtain ⟨i,paramExpr,d⟩ := param
    obtain ⟨paramInfo,d'⟩ := param'
    obtain ⟨⟨loc,variable_⟩,known⟩ := Option.isSome_iff_exists.mp first.local_
    have info : method.parameters[i]? = some paramInfo := first.info
    have local_ : arg2Local paramExpr = some (loc,variable_) := known
    simp only [walkParams,local_,info,meanRows]
    refine Achieves.bind (enterLocal_quiet ctx variable_) fun local_ s₁ ⟨_,quiet⟩ => ?_
    replace rows := rows.quiet quiet
    cases endsRow (seenKeyword || paramInfo.flags.isKeyword) paramInfo.flags with
    | true =>
      refine Achieves.bind (rows.join cctx) fun joined s₂ doing => ?_
      refine Achieves.bind ((Row.start doing).optional suits first.default_ i local_) fun (present',default') s₃ rows => ?_
      refine Achieves.bind (rows.note present' rfl) fun _ s₄ rows => ?_
      refine (ih rows _).imp fun ret s₅ doing => doing.as ?_
      rw [Behaviour.seq_assoc]
      rfl
    | false =>
      refine achieves_pure_bind ?_
      refine Achieves.bind (rows.optional suits first.default_ i local_) fun (present',default') s₂ rows => ?_
      refine Achieves.bind (rows.note present' rfl) fun _ s₃ rows => ?_
      exact ih rows _

variable (ctx method) in
-- What the ENFORCEs ask of a method: its locals are resolved, and its trees can be built.
structure MethodBuildable (params stats : List ExpressionPtr) (expr : ExpressionPtr) : Prop where
  loc : exists_ method.loc = true
  locals : ∀ param ∈ params, (arg2Local param).isSome = true
  infos : params.length ≤ method.parameters.length
  defaults : (method.isAbstract && !method.isSCIPRuby) = false → ∀ loc expr default_,
    ExpressionPtr.optionalParam loc expr default_ ∈ params → Buildable ctx default_
  built : ∀ e ∈ stats, shouldBuildFor e = true → Buildable ctx e
  body : stats.filter shouldBuildFor = [] → Buildable ctx expr
  either : stats.filter shouldBuildFor ≠ [] → isEmptyTree expr = true

theorem defaults_length (params : List ExpressionPtr) : (defaults ctx params).length = params.length := by
  induction params with
  | nil => rfl
  | cons param params ih => exact congrArg Nat.succ ih

theorem meanDefaults_length (params : List ExpressionPtr) : (meanDefaults ctx params).length = params.length := by
  induction params with
  | nil => rfl
  | cons param params ih => exact congrArg Nat.succ ih

theorem MethodBuildable.declared {params stats : List ExpressionPtr} {expr : ExpressionPtr}
    (buildable : MethodBuildable ctx method params stats expr) : List.Forall₂ (Declared ctx method) (methodParams ctx params)
      ((method.parameters.zip (meanDefaults ctx params)).map fun (paramInfo,default_) =>
        (paramInfo,if method.isAbstract && !method.isSCIPRuby then none else default_)) := by
  have infos := buildable.infos
  refine List.forall₂_iff_get.mpr ⟨?_,fun i inside inside' => ?_⟩
  · simp only [methodParams,List.length_mapIdx,List.length_zip,List.length_map,defaults_length,meanDefaults_length]
    omega
  · have short : i < params.length := by
      simp only [methodParams,List.length_mapIdx,List.length_zip,defaults_length] at inside
      omega
    have short' : i < method.parameters.length := Nat.lt_of_lt_of_le short infos
    simp only [methodParams,List.get_eq_getElem,List.getElem_mapIdx,List.getElem_map,List.getElem_zip]
    refine ⟨buildable.locals _ (List.getElem_mem short),List.getElem?_eq_getElem short',?_⟩
    by_cases abstract_ : (method.isAbstract && !method.isSCIPRuby) = true
    · simp only [if_pos abstract_]
      exact .none
    · have same := defaults_renders fun loc expr default_ member =>
        walk_faithful (buildable.defaults (Bool.eq_false_iff.mpr abstract_) loc expr default_ member)
      simp only [if_neg abstract_]
      exact (List.forall₂_iff_get.mp same).2 i (by rwa [defaults_length]) (by rwa [meanDefaults_length])

theorem walkBody_implements {params stats : List ExpressionPtr} {expr : ExpressionPtr}
    (buildable : MethodBuildable ctx method params stats expr) (retSym : LocalOccurrence) :
    Implements ctx (walkBody ctx stats expr retSym) (meanBody ctx stats expr) := by
  intro cctx s cur T sound open_ suits
  have faithful : ∀ e ∈ stats.filter shouldBuildFor, Faithful ctx e := fun e member =>
    walk_faithful (buildable.built e (List.mem_filter.mp member).1 (List.mem_filter.mp member).2)
  have body := buildable.body
  have either := buildable.either
  unfold walkBody meanBody
  generalize stats.filter shouldBuildFor = kept at faithful body either ⊢
  obtain rfl | ⟨init,last,rfl⟩ := List.eq_nil_or_concat' kept
  · exact walk_faithful (body rfl) (cctx.withTarget retSym) s cur T sound open_ suits
  · rw [List.getLast?_concat,List.dropLast_concat]
    have same := subs_renders fun e member => faithful e (List.mem_append_left _ member)
    have ended := faithful last (List.mem_append_right _ List.mem_cons_self)
    refine achieves_ensure_bind (either (List.append_ne_nil_of_right_ne_nil _ (List.cons_ne_nil _ _))) ?_
    refine Achieves.bind (walkStats_implements same cctx s cur T sound open_ suits) fun b s₁ doing => ?_
    refine (ended.run (cctx.withTarget retSym) doing suits).imp fun ret s₂ doing => doing.as ?_
    have whole : meanAll (meanSubs ctx (init ++ [last])) cctx.scope =
        (meanAll (meanSubs ctx init) cctx.scope).seq (mean ctx last cctx.scope) := by
      rw [meanSubs_append,meanAll_append]
      exact congrArg _ (seq_skip _)
    rw [←show (cctx.withTarget retSym).scope = cctx.scope from rfl] at whole ⊢
    split
    · rename_i empty
      exact absurd empty (List.append_ne_nil_of_right_ne_nil _ (List.cons_ne_nil _ _))
    · exact whole.symm

end Params

section Starting

theorem emptyCFG_sound (ctx : Context) : Sound ctx (emptyCFG ctx) := by
  have exits (b : BlockId) (exit : BlockId × BlockId) (known : exitsOf (emptyCFG ctx) b = some exit) :
      b = deadBlock ∧ exit = (deadBlock,deadBlock) := by
    match b with
    | 0 => cases known
    | 1 => exact ⟨rfl,(Option.some.inj known).symm⟩
    | b + 2 => cases known
  refine ⟨Nat.le_refl 2,rfl,?_,?_,?_,List.forall_mem_nil _,List.forall_mem_nil _,List.cons_ne_nil _ _⟩
  · intro b block exit here set
    match b with
    | 0 =>
      obtain rfl := Option.some.inj here
      cases set
    | 1 =>
      obtain rfl := Option.some.inj here
      obtain rfl := Option.some.inj set
      exact ⟨⟨Nat.lt_succ_self 1,Nat.one_ne_zero⟩,⟨Nat.lt_succ_self 1,Nat.one_ne_zero⟩,iff_of_true rfl rfl,
        unconditional_exists ctx⟩
    | b + 2 => cases here
  · intro b block here
    match b with
    | 0 | 1 =>
      obtain rfl := Option.some.inj here
      exact List.nodup_nil
    | b + 2 => cases here
  · intro c block here b
    have none_ : block.backEdges = [] := by
      match c with
      | 0 | 1 =>
        obtain rfl := Option.some.inj here
        rfl
      | c + 2 => cases here
    rw [none_]
    refine iff_of_false List.not_mem_nil ?_
    rintro ⟨alive,exit,known,_⟩
    exact alive (exits b exit known).1

theorem emptyCFG_open (ctx : Context) : Open (emptyCFG ctx) entry := .inr ⟨_,rfl,rfl⟩

theorem methodContext_suits (s : State) : Suits methodContext (fun _ => (deadBlock,0)) s := by
  refine ⟨⟨fun b scope => ?_,fun inside => absurd inside Bool.false_ne_true⟩,rfl,rfl,rfl,rfl⟩
  rcases scope with known | known | known
  all_goals cases known

end Starting

section Checking

-- Every block ends, and every block but the first two is jumped to.
structure Finished (ctx : Context) (s : State) : Prop where
  sound : Sound ctx s
  exits : ∀ (b : BlockId) (block : BasicBlock), s.basicBlocks[b]? = some block → block.bexit.isSome = true
  linked : ∀ (b : BlockId) (block : BasicBlock), s.basicBlocks[b]? = some block → b ≠ entry → b ≠ deadBlock →
    block.wasJumpDestination = true

theorem everyBlock_iff {checked : BlockId → BasicBlock → Bool} :
    everyBlock s checked = true ↔ ∀ (b : BlockId) (block : BasicBlock), s.basicBlocks[b]? = some block → checked b block = true := by
  simp only [everyBlock,List.all_eq_true,List.mem_mapIdx,id]
  constructor
  · intro all b block here
    obtain ⟨inside,rfl⟩ := List.getElem?_eq_some_iff.mp here
    exact all _ ⟨b,inside,rfl⟩
  · rintro all x ⟨b,inside,rfl⟩
    exact all b _ (List.getElem?_eq_getElem inside)

theorem jumpsTo_iff {c : BlockId} : jumpsTo s b c = true ↔ JumpsTo s b c := by
  unfold jumpsTo JumpsTo exitsOf
  cases (s.basicBlocks[b]?).bind (·.bexit) with
  | none => simp
  | some exit => simp

theorem Sound.backEdgesOf (sound : Sound ctx s) {c : BlockId} (inside : c < s.basicBlocks.length) :
    (backEdgesOf s c).Nodup ∧ ∀ b, b ∈ backEdgesOf s c ↔ b ≠ deadBlock ∧ JumpsTo s b c := by
  have here := List.getElem?_eq_getElem inside
  rw [CFGBuilder.backEdgesOf,here]
  exact ⟨sound.once c _ here,sound.backEdges c _ here⟩

theorem Finished.checked (finished : Finished ctx s) : sanityCheck ctx s = true := by
  have sound := finished.sound
  refine Bool.and_eq_true_iff.mpr ⟨everyBlock_iff.mpr fun b block here => ?_,everyBlock_iff.mpr fun b block here => ?_⟩
  · obtain ⟨exit,set⟩ := Option.isSome_iff_exists.mp (finished.exits b block here)
    have fair := sound.exits b block exit here set
    have known : exitsOf s b = some (exit.thenb,exit.elseb) := by simp [exitsOf,here,set]
    simp only [exitChecked,set,fair.set,Bool.true_and,Bool.or_eq_true,beq_iff_eq,Bool.and_eq_true]
    by_cases dead : b = deadBlock
    · exact .inl dead
    refine .inr ⟨⟨?_,?_⟩,?_⟩
    · obtain ⟨once,edges⟩ := sound.backEdgesOf fair.thenb.1
      exact List.count_eq_one_of_mem once ((edges b).mpr ⟨dead,_,known,.inl rfl⟩)
    · obtain ⟨once,edges⟩ := sound.backEdgesOf fair.elseb.1
      exact List.count_eq_one_of_mem once ((edges b).mpr ⟨dead,_,known,.inr rfl⟩)
    · by_cases same : exit.thenb = exit.elseb
      · rw [if_pos same]
        exact beq_iff_eq.mpr (fair.cond.mpr same)
      · rw [if_neg same]
        exact bne_iff_ne.mpr fun unconditional_ => same (fair.cond.mp unconditional_)
  · obtain ⟨exit,set⟩ := Option.isSome_iff_exists.mp (finished.exits b block here)
    have fair := sound.exits b block exit here set
    have known : exitsOf s b = some (exit.thenb,exit.elseb) := by simp [exitsOf,here,set]
    simp only [linkChecked,set,Option.any_some,Bool.or_eq_true,beq_iff_eq,Bool.and_eq_true,List.all_eq_true,List.contains_iff_mem]
    refine ⟨fun parent edge => jumpsTo_iff.mpr ((sound.backEdges b block here parent).mp edge).2,?_⟩
    by_cases dead : b = deadBlock
    · exact .inl dead
    refine .inr ⟨?_,?_,?_⟩
    · by_cases first : b = entry
      · exact .inl first
      · exact .inr (finished.linked b block here first dead)
    · exact ((sound.backEdgesOf fair.thenb.1).2 b).mpr ⟨dead,_,known,.inl rfl⟩
    · exact ((sound.backEdgesOf fair.elseb.1).2 b).mpr ⟨dead,_,known,.inr rfl⟩

-- Code that started in an empty graph and has no open block left.
theorem Holding.finished (holding : Holding ctx (emptyCFG ctx) entry s [(deadBlock,[])] []) : Finished ctx s := by
  have first {b : BlockId} (open_ : Open (emptyCFG ctx) b) : b = entry ∨ b = deadBlock := by
    rcases b with _ | _ | b
    · exact .inl rfl
    · exact .inr rfl
    · obtain gone | ⟨_,gone,_⟩ := open_
      · exact .inr gone
      · cases gone
  refine ⟨holding.sound,fun b block here => ?_,fun b block here inner alive => ?_⟩
  · by_contra unset
    have none_ : block.bexit = none := Option.not_isSome_iff_eq_none.mp unset
    have dead : b = deadBlock := by
      rcases holding.opened b (.inr ⟨block,here,none_⟩) with dead | ⟨x,member,same⟩ | ⟨open_,other⟩
      · exact dead
      · obtain rfl := List.mem_singleton.mp member
        exact same.symm
      · exact (first open_).resolve_left other
    subst dead
    have known := holding.sound.dead
    rw [exitsOf,here] at known
    simp [none_] at known
  · by_contra unset
    rcases holding.unlinked b ⟨inner,alive,block,here,Bool.not_eq_true _ ▸ unset⟩ with ⟨_,_,block₀,here₀,_⟩ | pending
    · rcases b with _ | _ | b
      · exact inner rfl
      · exact alive rfl
      · cases here₀
    · cases pending

end Checking

section Pinning

-- Only minLoops was changed.
def Pinned (s s' : State) : Prop := ∃ minLoops, s' = {s with minLoops}

theorem Pinned.refl (s : State) : Pinned s s := ⟨s.minLoops,rfl⟩

theorem Pinned.trans {s'' : State} (first : Pinned s s') (second : Pinned s' s'') : Pinned s s'' := by
  obtain ⟨_,rfl⟩ := first
  obtain ⟨minLoops,rfl⟩ := second
  exact ⟨minLoops,rfl⟩

theorem setMinLoops_pinned (v : LocalRef) (loops : Int) : Achieves (setMinLoops v loops) s fun _ s' => Pinned s s' :=
  achieves_modify ⟨_,rfl⟩

theorem pinAlias_pinned {global : SymbolRef} {local_ : LocalOccurrence} (fits : AliasFits ctx (global,local_)) :
    Achieves (pinAlias ctx global local_) s fun _ s' => Pinned s s' := by
  have pinned : ctx.isFieldOrStaticField global = true ∨ ctx.isTypeMember global = true := Bool.or_eq_true_iff.mp fits.pinned
  refine achieves_ite (fun _ => setMinLoops_pinned _ _) fun other => ?_
  rw [ensure,if_pos (pinned.resolve_left other)]
  exact achieves_pure (.refl s)

theorem pinAliases_pinned (aliases : List (SymbolRef × LocalOccurrence)) (fit : ∀ x ∈ aliases, AliasFits ctx x) :
    Achieves (pinAliases ctx aliases) s fun _ s' => Pinned s s' := by
  induction aliases generalizing s with
  | nil => exact achieves_pure (.refl s)
  | cons alias_ aliases ih =>
    obtain ⟨first,rest⟩ := List.forall_mem_cons.mp fit
    exact Achieves.bind (pinAlias_pinned first) fun _ s₁ pinned => (ih rest).imp fun _ _ pinned' => pinned.trans pinned'

theorem pinFields_pinned (fields : List (NameRef × LocalOccurrence)) : Achieves (pinFields fields) s fun _ s' => Pinned s s' := by
  induction fields generalizing s with
  | nil => exact achieves_pure (.refl s)
  | cons _ fields ih =>
    exact Achieves.bind (setMinLoops_pinned _ _) fun _ s₁ pinned => ih.imp fun _ _ pinned' => pinned.trans pinned'

end Pinning

section Building
variable {method : Method} {params stats : List ExpressionPtr} {expr : ExpressionPtr}

theorem Finished.along (finished : Finished ctx s) (same : SameGraph ctx s s') : Finished ctx s' := by
  refine ⟨same.sound finished.sound,fun b block' here => ?_,fun b block' here inner alive => ?_⟩
  · obtain ⟨block,here',exit,_⟩ := same.block b block' here
    exact exit ▸ finished.exits b block here'
  · obtain ⟨block,here',_,_,flag⟩ := same.block b block' here
    exact flag (finished.linked b block here' inner alive)

theorem Pinned.quiet (pinned : Pinned s s') : Quiet ctx s s' := by
  obtain ⟨minLoops,rfl⟩ := pinned
  exact quiet_of rfl rfl rfl rfl

theorem returnLocs_pure (exists_ : exists_ method.loc = true) (exprs : List Binding) :
    Achieves (returnLocs ctx method exprs) s fun _ s' => s' = s := by
  have implicit : Achieves (implicitReturn ctx method) s fun _ s' => s' = s := by
    refine achieves_ensure_bind exists_ (achieves_ite (fun _ => achieves_pure rfl) fun _ => achieves_pure rfl)
  unfold returnLocs
  split
  · exact implicit
  · split
    · exact implicit
    · exact achieves_pure rfl

def withPrefix (b : BlockId) (exprs : List Binding) (s : State) : State :=
  onBlock b (fun block => {block with exprs := exprs ++ block.exprs}) s

variable {exprs : List Binding}

theorem withPrefix_same : SameGraph ctx s (withPrefix b exprs s) := by
  refine ⟨onBlock_length,fun c block' here => ?_,List.prefix_rfl,fun sound => ⟨sound.aliases,sound.fields⟩⟩
  rw [withPrefix,onBlock_get] at here
  split at here
  · obtain ⟨block,here',rfl⟩ := Option.map_eq_some_iff.mp here
    exact ⟨block,here',rfl,rfl,id⟩
  · exact ⟨block',here,rfl,rfl,id⟩

-- Nothing jumps to the entry, so that what is put there is seen once.
theorem withPrefix_prepends (sound : Sound ctx s) (exprs : List Binding) :
    Prepends entry (exprs.filterMap (visible ctx)) (flow ctx s) (flow ctx (withPrefix entry exprs s)) where
  first := by
    have inside : entry < s.basicBlocks.length := Nat.lt_of_lt_of_le Nat.zero_lt_two sound.two
    have here := List.getElem?_eq_getElem inside
    have alive : entry ≠ deadBlock := Nat.zero_ne_one
    change eventsOf ctx (withPrefix entry exprs s) entry = _ ++ eventsOf ctx s entry
    rw [eventsOf,eventsOf,if_neg alive,if_neg alive,withPrefix,onBlock_get,if_pos rfl,here]
    simp only [Option.map_some,Option.getD_some,List.filterMap_append]
  events := fun b other => by
    change eventsOf ctx (withPrefix entry exprs s) b = eventsOf ctx s b
    unfold eventsOf
    rw [withPrefix,onBlock_get,if_neg other]
  exits := funext (show SameGraph ctx s (withPrefix entry exprs s) from withPrefix_same).exits
  once := by
    intro b c d known
    obtain ⟨exit,set,same⟩ := Option.map_eq_some_iff.mp known
    obtain ⟨block,here,set⟩ := Option.bind_eq_some_iff.mp set
    obtain ⟨rfl,rfl⟩ := Prod.mk.inj same
    have fair := sound.exits b block exit here set
    exact ⟨fair.thenb.2,fair.elseb.2⟩

-- What a run of the method shows, and how it ends.
theorem Doing.whole {A : Behaviour} (doing : Doing ctx (wholly ctx (fun _ => (deadBlock,0)) (emptyCFG ctx) entry) A s deadBlock [] [])
    (t : List Event) : (∃ n, Path (flow ctx s) n (entry,0) t (deadBlock,0)) ↔ ∃ o, (t,o) ∈ A := by
  have covers := doing.fragment Nat.zero_ne_one
  rw [eventsOf_dead] at covers
  exact covers.shows doing.holding.sound.dead (show eventsOf ctx s deadBlock = [] from eventsOf_dead s)

-- No ENFORCE of the builder fails, and the graph is complete. From the entry to the dead block its paths show the globals and
-- fields of the method, and then what the method does.
theorem buildFor_achieves (buildable : MethodBuildable ctx method params stats expr) :
    Achieves (buildFor ctx method params stats expr) (emptyCFG ctx) fun _ s => Finished ctx s ∧ ∀ t,
      (∃ n, Path (flow ctx s) n (entry,0) t (deadBlock,0)) ↔
        ∃ t', t = (aliasesPrefix ctx s).filterMap (visible ctx) ++ t' ∧ ∃ o, (t',o) ∈ meanMethod ctx method params stats expr := by
  have suits (s : State) : Suits methodContext (fun _ => (deadBlock,0)) s := methodContext_suits s
  have start := Doing.start (fun _ => (deadBlock,0)) (emptyCFG_sound ctx) (emptyCFG_open ctx)
  refine Achieves.bind (start.tempOccurrence _) fun retSym s₁ ⟨_,_,doing⟩ => ?_
  refine Achieves.bind (doing.hidden rfl) fun _ s₂ doing => ?_
  refine Achieves.bind ((Row.start doing).params buildable.declared (suits _) false) fun cont s₃ doing => ?_
  refine Achieves.bind ((walkBody_implements buildable retSym).run methodContext doing (suits _)) fun cont s₄ doing => ?_
  refine achieves_get_bind (Achieves.bind (returnLocs_pure buildable.loc _) fun (rvLoc,implicitReturnLoc) s₅ unchanged => ?_)
  subst unchanged
  refine Achieves.bind (doing.hidden rfl) fun _ s₅ doing => ?_
  refine Achieves.bind (doing.halt (l := .halt) rfl) fun _ s₆ doing => ?_
  have held := doing.holding
  rw [eventsOf_dead] at held
  refine achieves_get_bind (Achieves.bind (pinAliases_pinned _ held.sound.aliases) fun _ s₇ pinned => ?_)
  refine achieves_get_bind (Achieves.bind (pinFields_pinned _) fun _ s₈ pinned' => ?_)
  have quiet : Quiet ctx s₆ s₈ := (pinned.trans pinned').quiet
  refine achieves_get_bind (achieves_modify_bind ?_)
  change Achieves _ (withPrefix entry (aliasesPrefix ctx s₈) s₈) _
  have finished : Finished ctx s₈ := held.finished.along quiet.same
  have complete : Finished ctx (withPrefix entry (aliasesPrefix ctx s₈) s₈) := finished.along withPrefix_same
  refine achieves_get_bind (achieves_ensure_bind complete.checked (achieves_pure ⟨complete,fun t => ?_⟩))
  have prepends := withPrefix_prepends finished.sound (aliasesPrefix ctx s₈)
  refine (prepends.shows Nat.one_ne_zero).trans (exists_congr fun t' => and_congr_right fun _ => ?_)
  refine ((doing.quiet quiet).whole t').trans ?_
  rw [mem_seq_leave,skip_seq]
  rfl

theorem buildFor_shows (buildable : MethodBuildable ctx method params stats expr) :
    ∃ implicitReturnLoc s, buildFor ctx method params stats expr (emptyCFG ctx) = some (implicitReturnLoc,s) ∧ ∀ t,
      (∃ n, Path (flow ctx s) n (entry,0) t (deadBlock,0)) ↔
        ∃ t', t = (aliasesPrefix ctx s).filterMap (visible ctx) ++ t' ∧ ∃ o, (t',o) ∈ meanMethod ctx method params stats expr := by
  obtain ⟨implicitReturnLoc,s,built,_,shows⟩ := buildFor_achieves buildable
  exact ⟨implicitReturnLoc,s,built,shows⟩

end Building

section Sample

def sampleNames : Names where
  blockCall := 1
  selfLocal := 2
  unconditional := 3
  finalReturn := 4
  statTemp := 5
  ifTemp := 6
  whileTemp := 7
  returnTemp := 8
  returnMethodTemp := 9
  nextTemp := 10
  hashTemp := 11
  arrayTemp := 12
  castTemp := 13
  cfgAlias := 14
  keepForIde := 15
  keepForCfgTemp := 16
  exceptionValue := 17
  exceptionClassTemp := 18
  isaCheckTemp := 19
  gotoDeadTemp := 20
  throwAwayTemp := 21
  blockBreakAssign := 22
  blockBreak := 23
  blockPreCallTemp := 24
  blockReturnTemp := 25
  selfRestore := 26
  blkArg := 27
  argPresent := 28
  retryTemp := 29
  magic := 30
  tripleEq := 31
  buildHash := 32
  buildArray := 33
  retry := 34
  absurd := 35
  typeParameter := 36
  new_ := 37
  lambda := 38
  lambdaTLet := 39
  unsafe_ := 40
  suggestFieldType := 41
  let_ := 42
  uncheckedLet := 43
  bind := 44
  syntheticBind := 45
  cast := 46
  ivarNameMissing := 47
  cvarNameMissing := 48
  class_ := 49
  instance_ := 50
  singletonClassInstance := 51
  ifTemp_exists := by decide
  whileTemp_exists := by decide
  blockCall_exists := by decide
  argPresent_exists := by decide
  exceptionValue_exists := by decide
  isaCheckTemp_exists := by decide
  gotoDeadTemp_exists := by decide
  unconditional_exists := by decide
  blockCall_apart := by decide
  unsafe_apart := by decide

def sampleContext : Context where
  names := sampleNames
  symbols := ⟨1,2,3,4,5,6,7,8,9,10,11⟩
  file := 1
  source := []
  show_ := fun _ => ""
  showLiteral := fun _ => ""
  showSymbol := fun _ => ""
  symbolLoc := fun _ => ⟨1,noLoc⟩
  symbolName := fun _ => 60
  isFieldOrStaticField := fun _ => true
  isTypeMember := fun _ => false
  findMemberTransitive := fun _ _ => 12
  isAbstractClass := fun _ => false
  newOwner := fun _ => none
  ownerIsMethod := true
  ownerName := 61
  attachedClass := 13
  instanceClass := 13
  isSingletonClass := fun _ => false
  shouldReportErrorOn := true
  symbol := 14
  isGenericMethod := false
  isAnyStaticInitName := false
  lookupTypeVarName := fun _ => none
  typeParameters := []

def sampleMethod : Method where
  loc := ⟨0,40⟩
  declLoc := ⟨0,12⟩
  symbol := 14
  rebind := 0
  owner := 13
  selfType := .classType
  parameters := [⟨⟨false,false,true,false,false⟩,none⟩]
  isAbstract := false
  isSCIPRuby := true

-- An optional parameter, and a loop that is left or begun anew.
def sampleParams : List ExpressionPtr := [.optionalParam ⟨8,11⟩ (.local_ ⟨8,9⟩ 62 0) (.unresolvedIdent ⟨10,11⟩ .instance_ 63)]

def sampleBody : ExpressionPtr :=
  .while_ ⟨14,36⟩ (.local_ ⟨20,21⟩ 62 0) (.if_ ⟨22,36⟩ (.self ⟨25,29⟩) (.next ⟨30,34⟩ .emptyTree) (.break_ ⟨35,36⟩ .emptyTree))

theorem sample_buildable : MethodBuildable sampleContext sampleMethod sampleParams [] sampleBody where
  loc := by decide
  locals := by simp [sampleParams,arg2Local]
  infos := by decide
  defaults := by
    intro _ loc expr default_ member
    obtain ⟨rfl,rfl,rfl⟩ : loc = _ ∧ expr = _ ∧ default_ = _ := by simpa [sampleParams] using member
    exact .unresolvedIdent ⟨by decide,fun _ => rfl,by decide,fun _ _ => rfl⟩
  built := List.forall_mem_nil _
  body := fun _ => .while_ .local_ (.if_ .self (.next .emptyTree) (.break_ .emptyTree))
  either := fun some_ => absurd rfl some_

theorem buildFor_shows_loop : ∃ implicitReturnLoc s,
    buildFor sampleContext sampleMethod sampleParams [] sampleBody (emptyCFG sampleContext) = some (implicitReturnLoc,s) ∧ ∀ t,
      (∃ n, Path (flow sampleContext s) n (entry,0) t (deadBlock,0)) ↔
        ∃ t', t = (aliasesPrefix sampleContext s).filterMap (visible sampleContext) ++ t' ∧
          ∃ o, (t',o) ∈ meanMethod sampleContext sampleMethod sampleParams [] sampleBody :=
  buildFor_shows sample_buildable

end Sample

end CFGBuilder
