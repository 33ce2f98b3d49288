import ScipRuby.Cfg.BuilderStrands

namespace CFGBuilder
open FlowGraphs TotalRuns FlowGraphs.Behaviour
open Serialize (LocOffsets noLoc)

variable {ctx : Context} {s s' s'' : State} {b c cur : BlockId} {live live' : List (BlockId × List Event)}
  {pending pending' : List BlockId} {A B : Behaviour}

section Stretches

-- A stretch of code: where its leavings go, where and in which block the whole code was begun, and where the stretch was.
structure Stretch where
  target : Leave → Nat × Nat
  first : State
  cur : BlockId
  since : State
  place : Nat × Nat

-- The stretch has come to the end of b, and shows A on the way.
structure Doing (ctx : Context) (st : Stretch) (A : Behaviour) (s : State) (b : BlockId) (live : List (BlockId × List Event))
    (pending : List BlockId) : Prop where
  holding : Holding ctx st.first st.cur s ((b,eventsOf ctx s b) :: live) pending
  since : Later ctx st.since s
  fragment : Fragment deadBlock st.target (flow ctx s) st.place A (b,(eventsOf ctx s b).length)

variable {st : Stretch} {T : Leave → Nat × Nat} {s₀ : State} {binding : Binding}

def wholly (ctx : Context) (T : Leave → Nat × Nat) (s : State) (cur : BlockId) : Stretch :=
  ⟨T,s,cur,s,(cur,(eventsOf ctx s cur).length)⟩

theorem Doing.start (T : Leave → Nat × Nat) (sound : Sound ctx s) (open_ : Open s cur) : Doing ctx (wholly ctx T s cur) skip s cur [] [] :=
  ⟨.start sound open_,.refl s,.skip _⟩

-- A stretch begins in a block that is held.
theorem Holding.stretch {ev : List Event} (holding : Holding ctx s₀ cur s ((b,ev) :: live) pending) (T : Leave → Nat × Nat) :
    Doing ctx ⟨T,s₀,cur,s,(b,ev.length)⟩ skip s b live pending := by
  have known : eventsOf ctx s b = ev := (holding.open_ (b,ev) List.mem_cons_self).2
  subst known
  exact ⟨holding,.refl s,.skip _⟩

theorem Doing.as (doing : Doing ctx st A s b live pending) (same : A = B) : Doing ctx st B s b live pending := same ▸ doing

theorem Doing.then (doing : Doing ctx st A s b live pending) {ev : List Event}
    (held : Holding ctx st.first st.cur s' ((c,ev) :: live') pending' ∧ Later ctx s s')
    (next : Fragment deadBlock st.target (flow ctx s') (b,(eventsOf ctx s b).length) B (c,ev.length)) :
    Doing ctx st (A.seq B) s' c live' pending' := by
  obtain ⟨held,later⟩ := held
  have known : eventsOf ctx s' c = ev := (held.open_ (c,ev) List.mem_cons_self).2
  subst known
  exact ⟨held,doing.since.trans later,(doing.fragment.mono later.extends_).seq next⟩

-- The stretch is looked at from now on.
theorem Doing.resume (doing : Doing ctx st A s b live pending) : Doing ctx {st with since := s} A s b live pending :=
  ⟨doing.holding,.refl s,doing.fragment⟩

theorem Doing.restore {since : State} (doing : Doing ctx {st with since} A s b live pending) (later : Later ctx st.since since) :
    Doing ctx st A s b live pending :=
  ⟨doing.holding,later.trans doing.since,doing.fragment⟩

-- Meanwhile something else was done.
theorem Doing.meanwhile (doing : Doing ctx st A s b live pending)
    (held : Holding ctx st.first st.cur s' ((b,eventsOf ctx s b) :: live') pending' ∧ Later ctx s s') :
    Doing ctx st A s' b live' pending' :=
  (doing.then held (.skip _)).as (seq_skip A)

theorem Doing.quiet (doing : Doing ctx st A s b live pending) (quiet : Quiet ctx s s') :
    Doing ctx st A s' b live pending :=
  doing.meanwhile (doing.holding.quiet quiet)

theorem Doing.emplaced (doing : Doing ctx st A s b live pending) (binding : Binding) :
    Achieves (emplace b binding) s fun _ s' => Doing ctx st (A.seq (emits (visible ctx binding))) s' b live pending := by
  refine (doing.holding.emplaced binding).imp fun _ s' held => doing.then held ?_
  intro alive
  have known := (held.1.open_ _ List.mem_cons_self).2
  dsimp only [shown] at known ⊢
  rw [if_neg alive] at known ⊢
  cases seen : visible ctx binding with
  | none =>
    rw [seen] at known
    simp only [Option.toList_none,List.append_nil]
    exact Fragment.skip _ alive
  | some e =>
    rw [seen] at known
    rw [List.length_append]
    refine Fragment.emit ?_ alive
    change (eventsOf ctx s' b)[_]? = some e
    rw [known,List.getElem?_append_right (Nat.le_refl _),Nat.sub_self]
    rfl

theorem Doing.hidden (doing : Doing ctx st A s b live pending) (hidden : visible ctx binding = none) :
    Achieves (emplace b binding) s fun _ s' => Doing ctx st A s' b live pending :=
  (doing.emplaced binding).imp fun _ _ doing => doing.as (by rw [hidden,emits_none,seq_skip])

theorem Doing.note (doing : Doing ctx st A s b live pending) (c : BlockId) (hidden : visible ctx binding = none) :
    Achieves (emplace c binding) s fun _ s' => Doing ctx st A s' b live pending :=
  (doing.holding.note c hidden).imp fun _ _ held => doing.meanwhile held

-- The code jumps to where leaving by l goes.
theorem Doing.goto {l : Leave} {loc : LocOffsets} (doing : Doing ctx st A s b live pending) (inside : c < s.basicBlocks.length)
    (inner : c ≠ entry) (there : st.target l = (c,0)) (await : ∀ x ∈ pending, x ≠ c → x ∈ pending') :
    Achieves (unconditionalJump ctx b c loc) s fun _ s' => Doing ctx st (A.seq (leave l)) s' deadBlock live pending' := by
  refine (doing.holding.jump _ inside inner await).imp fun _ s' ⟨held,later,leads⟩ => ?_
  exact doing.then ⟨held.hold_dead,later⟩ (.goto leads there)

theorem Doing.halt {loc : LocOffsets} {l : Leave} (doing : Doing ctx st A s b live pending)
    (there : st.target l = (deadBlock,0)) :
    Achieves (jumpToDead ctx b loc) s fun _ s' => Doing ctx st (A.seq (leave l)) s' deadBlock live pending := by
  refine doing.holding.jumpToDead.imp fun _ s' ⟨held,later,leads⟩ => ?_
  exact doing.then ⟨held.hold_dead,later⟩ (.goto leads there)

end Stretches

section Quietly

theorem Quiet.refl (s : State) : Quiet ctx s s := ⟨rfl,List.prefix_rfl,fun sound => ⟨sound.aliases,sound.fields⟩⟩

theorem Quiet.trans (first : Quiet ctx s s') (second : Quiet ctx s' s'') : Quiet ctx s s'' :=
  ⟨second.blocks.trans first.blocks,first.links.trans second.links,
    fun sound => second.names (first.same.sound sound)⟩

-- The blocks, the links, the aliases and the fields are not touched.
theorem quiet_of (blocks : s'.basicBlocks = s.basicBlocks) (links : s'.links = s.links) (aliases : s'.aliases = s.aliases)
    (fields : s'.discoveredUndeclaredFields = s.discoveredUndeclaredFields) : Quiet ctx s s' := by
  refine ⟨blocks,links ▸ List.prefix_rfl,fun sound => ?_⟩
  rw [aliases,fields]
  exact ⟨sound.aliases,sound.fields⟩

variable (ctx)

theorem enterLocal_quiet (v : LocalVariable) : Achieves (enterLocal v) s fun v' s' =>
    v' = (if v.exists_ then v else noVariable) ∧ Quiet ctx s s' := by
  unfold enterLocal
  by_cases known : v.exists_ = true
  · rw [if_neg (not_not_intro known),if_pos known]
    refine achieves_modify_bind (achieves_pure ⟨rfl,?_⟩)
    split
    · exact .refl s
    · exact quiet_of rfl rfl rfl rfl
  · rw [if_pos known,if_neg known]
    exact achieves_pure ⟨rfl,.refl s⟩

-- A temporary is called as it was asked for, and it is not the condition of a jump without one.
theorem newTemporary_quiet (name : NameRef) : Achieves (newTemporary name) s fun v s' =>
    v.name = name ∧ (name ≠ 0 → Condition ctx v) ∧ Quiet ctx s s' := by
  refine achieves_modify_bind (achieves_get_bind ((enterLocal_quiet ctx _).imp fun v s' ⟨same,quiet⟩ => ?_))
  have named : v.name = name := by
    subst same
    split
    · rfl
    · rename_i gone
      have zero : ¬ (name ≠ 0) := fun known => gone (decide_eq_true known)
      exact (not_not.mp zero).symm
  have counted : Quiet ctx s {s with temporaryCounter := s.temporaryCounter + 1} := quiet_of rfl rfl rfl rfl
  refine ⟨named,fun exists_ => ⟨decide_eq_true (named ▸ exists_),?_⟩,counted.trans quiet⟩
  rintro rfl
  split at same
  · exact Nat.succ_ne_zero _ (congrArg LocalVariable.unique same).symm
  · exact ctx.names.unconditional_exists (congrArg LocalVariable.name same)

theorem reportAll_quiet (errors : List ErrorReport) : Achieves (reportAll errors) s fun _ s' => Quiet ctx s s' :=
  achieves_modify (quiet_of rfl rfl rfl rfl)

theorem report_quiet (error : ErrorReport) : Achieves (report error) s fun _ s' => Quiet ctx s s' :=
  achieves_modify (quiet_of rfl rfl rfl rfl)

theorem setMinLoops_quiet (v : LocalRef) (loops : Int) : Achieves (setMinLoops v loops) s fun _ s' => Quiet ctx s s' :=
  achieves_modify (quiet_of rfl rfl rfl rfl)

theorem enterLink_quiet (sound : Sound ctx s) (fun_ : NameRef) (loc : LocOffsets) (paramFlags : List Serialize.ParamFlags) :
    Achieves (enterLink fun_ loc paramFlags) s fun l s' => Linked s' l ∧ l ≠ 0 ∧ Quiet ctx s s' := by
  refine achieves_get_bind (achieves_modify_bind (achieves_pure ⟨?_,?_,⟨rfl,?_,fun sound => ⟨sound.aliases,sound.fields⟩⟩⟩))
  · simp [Linked]
  · exact fun none_ => sound.links (List.length_eq_zero_iff.mp none_)
  · exact List.prefix_append ..

theorem mem_of_lookup {α β : Type} [BEq α] [LawfulBEq α] {key : α} {value : β} {pairs : List (α × β)}
    (found : pairs.lookup key = some value) : (key,value) ∈ pairs := by
  obtain ⟨before,after,rfl,_⟩ := List.lookup_eq_some_iff.mp found
  simp

-- The local of a global is called like its symbol.
theorem global2Local_quiet (sound : Sound ctx s) (what : SymbolRef)
    (pinned : what ≠ ctx.symbols.stubModule → isPinned ctx what = true) (loc : LocOffsets) :
    Achieves (global2Local ctx what loc) s fun v s' => v.name = ctx.symbolName what ∧ Quiet ctx s s' := by
  unfold global2Local
  refine achieves_ite (fun _ => (newTemporary_quiet ctx _).imp fun v s' ⟨named,_,quiet⟩ => ⟨named,quiet⟩) fun other => ?_
  refine achieves_get_bind ?_
  cases known : (s.aliases.lookup what).filter (·.variable_.exists_) with
  | some occurrence =>
    obtain ⟨found,exists_⟩ := Option.filter_eq_some_iff.mp known
    exact achieves_pure ⟨(sound.aliases _ (mem_of_lookup found)).named exists_,.refl s⟩
  | none =>
    refine (newTemporary_quiet ctx _).bind fun v s' ⟨named,_,quiet⟩ => ?_
    refine achieves_modify_bind (achieves_pure ⟨named,quiet.trans ⟨rfl,List.prefix_rfl,fun sound => ⟨?_,sound.fields⟩⟩⟩)
    intro x member
    rcases List.mem_cons.mp member with rfl | member
    · exact ⟨fun _ => named,pinned other⟩
    · exact sound.aliases x (List.mem_of_mem_filter member)

end Quietly

section Implementing

def place (scope : Option BlockId) : Nat × Nat := (scope.getD deadBlock,0)

def CFGContext.scope (cctx : CFGContext) : Scope := ⟨cctx.isInsideRubyBlock,cctx.isInsideLambda⟩

-- The scopes are blocks, and the leavings go there; without a scope, to the dead block.
def Suits (cctx : CFGContext) (T : Leave → Nat × Nat) (s : State) : Prop :=
  ((∀ b, cctx.nextScope = some b ∨ cctx.breakScope = some b ∨ cctx.rescueScope = some b →
      b < s.basicBlocks.length ∧ b ≠ entry) ∧ (cctx.isInsideRubyBlock = true → Linked s cctx.link)) ∧
    T .next = place cctx.nextScope ∧ T .break_ = place cctx.breakScope ∧ T .retry = place cctx.rescueScope ∧
    T .halt = (deadBlock,0)

theorem Suits.later {cctx : CFGContext} {T : Leave → Nat × Nat} (suits : Suits cctx T s) (later : Later ctx s s') :
    Suits cctx T s' := by
  refine ⟨⟨fun b scope => ?_,fun inside => (suits.1.2 inside).mono later.links⟩,suits.2⟩
  obtain ⟨below,inner⟩ := suits.1.1 b scope
  exact ⟨Nat.lt_of_lt_of_le below later.length,inner⟩

-- From any open block of any sound graph: the walk comes to its end, the graph is sound again, no block is left open
-- except the one that is handed back, and the paths through the new code show what m says.
def Implements (ctx : Context) (w : Walk) (m : Meaning) : Prop :=
  ∀ (cctx : CFGContext) (s : State) (cur : BlockId) (T : Leave → Nat × Nat), Sound ctx s → Open s cur → Suits cctx T s →
    Achieves (w cctx cur) s fun ret s' => Doing ctx (wholly ctx T s cur) (m cctx.scope) s' ret [] []

structure Renders (ctx : Context) (w : Sub Walk) (m : Sub Meaning) : Prop where
  tree : w.tree = m.tree
  sem : Implements ctx w.sem m.sem

variable {st : Stretch} {w : Walk} {m : Meaning}

theorem Implements.run (impl : Implements ctx w m) (cctx : CFGContext) (doing : Doing ctx st A s b live pending)
    (suits : Suits cctx st.target st.since) : Achieves (w cctx b) s fun ret s' => Doing ctx st (A.seq (m cctx.scope)) s' ret live pending := by
  have open_ := (doing.holding.open_ _ List.mem_cons_self).1
  refine (impl cctx s b st.target doing.holding.sound open_ (suits.later doing.since)).imp fun ret s' inner => ?_
  exact doing.then ⟨doing.holding.through inner.holding,inner.holding.later⟩ inner.fragment

end Implementing

end CFGBuilder
