import ScipRuby.Cfg.BuilderFrame

namespace CFGBuilder
open FlowGraphs TotalRuns

variable {ctx : Context} {s s' s'' s₀ s₁ : State} {b c cur from_ : BlockId} {ev new : List Event}

section Progress

-- What is only added to.
structure Later (ctx : Context) (s s' : State) : Prop where
  extends_ : Extends (flow ctx s) (flow ctx s')
  length : s.basicBlocks.length ≤ s'.basicBlocks.length
  links : s.links <+: s'.links

theorem Later.refl (s : State) : Later ctx s s := ⟨.refl _,Nat.le_refl _,List.prefix_rfl⟩

theorem Later.trans (first : Later ctx s s') (second : Later ctx s' s'') : Later ctx s s'' :=
  ⟨first.extends_.trans second.extends_,first.length.trans second.length,first.links.trans second.links⟩

-- The blocks stay as they are.
structure Quiet (ctx : Context) (s s' : State) : Prop where
  blocks : s'.basicBlocks = s.basicBlocks
  links : s.links <+: s'.links
  names : Sound ctx s → (∀ x ∈ s'.aliases, AliasFits ctx x) ∧
    ∀ x ∈ s'.discoveredUndeclaredFields, x.2.variable_.name = x.1

theorem Quiet.same (quiet : Quiet ctx s s') : SameGraph ctx s s' := by
  refine ⟨by rw [quiet.blocks],fun b block' here => ?_,quiet.links,quiet.names⟩
  exact ⟨block',quiet.blocks ▸ here,rfl,rfl,id⟩

theorem Quiet.events (quiet : Quiet ctx s s') (b : BlockId) : eventsOf ctx s' b = eventsOf ctx s b := by
  unfold eventsOf
  rw [quiet.blocks]

end Progress

section Fresh
variable {loops : Int}

def withFresh (s : State) (outerLoops : Int) : State := {s with basicBlocks := s.basicBlocks ++ [{outerLoops}]}

theorem withFresh_old (inside : b ≠ s.basicBlocks.length) : (withFresh s loops).basicBlocks[b]? = s.basicBlocks[b]? :=
  getElem?_fresh.trans (if_neg inside)

theorem withFresh_new : (withFresh s loops).basicBlocks[s.basicBlocks.length]? = some {outerLoops := loops} :=
  getElem?_fresh.trans (if_pos rfl)

theorem withFresh_length : (withFresh s loops).basicBlocks.length = s.basicBlocks.length + 1 := by
  simp [withFresh]

theorem withFresh_exits (b : BlockId) : exitsOf (withFresh s loops) b = exitsOf s b := by
  unfold exitsOf
  by_cases new : b = s.basicBlocks.length
  · rw [new,withFresh_new,List.getElem?_eq_none (Nat.le_refl _)]
    rfl
  · rw [withFresh_old new]

theorem withFresh_events (b : BlockId) : eventsOf ctx (withFresh s loops) b = eventsOf ctx s b := by
  unfold eventsOf
  by_cases new : b = s.basicBlocks.length
  · rw [new,withFresh_new,List.getElem?_eq_none (Nat.le_refl _)]
    rfl
  · rw [withFresh_old new]

theorem withFresh_jumpsTo : JumpsTo (withFresh s loops) b c ↔ JumpsTo s b c := by
  unfold JumpsTo
  rw [withFresh_exits]

theorem withFresh_later (s : State) (loops : Int) : Later ctx s (withFresh s loops) := by
  refine ⟨⟨fun b => ?_,fun b exit known => ?_⟩,Nat.le_of_succ_le (Nat.le_of_eq withFresh_length.symm),List.prefix_rfl⟩
  · exact ⟨[],(List.append_nil _).trans (withFresh_events b).symm⟩
  · exact ⟨(withFresh_exits b).trans known,withFresh_events b⟩

theorem withFresh_open : Open (withFresh s loops) b ↔ Open s b ∨ b = s.basicBlocks.length := by
  by_cases new : b = s.basicBlocks.length
  · subst new
    exact ⟨fun _ => .inr rfl,fun _ => .inr ⟨_,withFresh_new,rfl⟩⟩
  · simp only [Open,withFresh_old new,new,or_false]

theorem withFresh_unlinked (unlinked : Unlinked (withFresh s loops) b) : Unlinked s b ∨ b = s.basicBlocks.length := by
  by_cases new : b = s.basicBlocks.length
  · exact .inr new
  · obtain ⟨alive,alive',block,here,unset⟩ := unlinked
    exact .inl ⟨alive,alive',block,(withFresh_old new).symm.trans here,unset⟩

-- Nothing jumps to a block that is not there.
theorem Sound.absent (sound : Sound ctx s) : ¬ JumpsTo s b s.basicBlocks.length := by
  rintro ⟨exit,known,target⟩
  obtain ⟨found,set,rfl⟩ := Option.map_eq_some_iff.mp known
  obtain ⟨block,here,set⟩ := Option.bind_eq_some_iff.mp set
  have fair := sound.exits b block found here set
  rcases target with same | same
  · exact absurd fair.thenb.1 (same ▸ Nat.lt_irrefl _)
  · exact absurd fair.elseb.1 (same ▸ Nat.lt_irrefl _)

theorem Sound.fresh (sound : Sound ctx s) : Sound ctx (withFresh s loops) := by
  refine ⟨?_,(withFresh_exits _).trans sound.dead,?_,?_,?_,sound.aliases,sound.fields,sound.links⟩
  · exact sound.two.trans (Nat.le_of_succ_le (Nat.le_of_eq withFresh_length.symm))
  · intro b block exit here set
    by_cases new : b = s.basicBlocks.length
    · rw [new,withFresh_new] at here
      obtain rfl := Option.some.inj here
      cases set
    · rw [withFresh_old new] at here
      have fair := sound.exits b block exit here set
      exact ⟨⟨withFresh_length ▸ Nat.lt_succ_of_lt fair.thenb.1,fair.thenb.2⟩,
        ⟨withFresh_length ▸ Nat.lt_succ_of_lt fair.elseb.1,fair.elseb.2⟩,fair.cond,fair.set⟩
  · intro b block here
    by_cases new : b = s.basicBlocks.length
    · rw [new,withFresh_new] at here
      obtain rfl := Option.some.inj here
      exact List.nodup_nil
    · rw [withFresh_old new] at here
      exact sound.once b block here
  · intro c block here b
    rw [withFresh_jumpsTo]
    by_cases new : c = s.basicBlocks.length
    · rw [new,withFresh_new] at here
      obtain rfl := Option.some.inj here
      simp [new,sound.absent]
    · rw [withFresh_old new] at here
      exact sound.backEdges c block here b

end Fresh

section Holding

-- What the code that started in cur has: its open blocks with their events, and the new blocks that nothing jumps to yet.
-- The blocks of others stay as they were.
structure Holding (ctx : Context) (s₀ : State) (cur : BlockId) (s : State) (live : List (BlockId × List Event))
    (pending : List BlockId) : Prop where
  before : Sound ctx s₀
  sound : Sound ctx s
  later : Later ctx s₀ s
  open_ : ∀ x ∈ live, Open s x.1 ∧ eventsOf ctx s x.1 = x.2
  apart : live.Pairwise fun x y => x.1 = y.1 → x.1 = deadBlock
  mine : ∀ x ∈ live, x.1 = deadBlock ∨ x.1 = cur ∨ s₀.basicBlocks.length ≤ x.1
  kept : ∀ b, Open s₀ b → b ≠ cur → Open s b ∧ eventsOf ctx s b = eventsOf ctx s₀ b
  opened : ∀ b, Open s b → b = deadBlock ∨ (∃ x ∈ live, x.1 = b) ∨ (Open s₀ b ∧ b ≠ cur)
  unlinked : ∀ b, Unlinked s b → Unlinked s₀ b ∨ b ∈ pending

variable {live live' : List (BlockId × List Event)} {pending pending' : List BlockId}

theorem eventsOf_closed (ctx : Context) (s s' : State) : eventsOf ctx s' deadBlock = eventsOf ctx s deadBlock :=
  (eventsOf_dead s').trans (eventsOf_dead s).symm

theorem Holding.start (sound : Sound ctx s) (open_ : Open s b) : Holding ctx s b s [(b,eventsOf ctx s b)] [] := by
  refine ⟨sound,sound,.refl s,?_,List.pairwise_singleton _ _,?_,fun _ open_ _ => ⟨open_,rfl⟩,?_,fun _ => .inl⟩
  · intro x member
    obtain rfl := List.mem_singleton.mp member
    exact ⟨open_,rfl⟩
  · intro x member
    obtain rfl := List.mem_singleton.mp member
    exact .inr (.inl rfl)
  · intro c open'
    by_cases same : c = b
    · exact .inr (.inl ⟨_,List.mem_singleton_self _,same.symm⟩)
    · exact .inr (.inr ⟨open',same⟩)

-- The order of what is held does not matter.
theorem Holding.perm (holding : Holding ctx s₀ cur s live pending) (perm : live.Perm live') :
    Holding ctx s₀ cur s live' pending := by
  refine ⟨holding.before,holding.sound,holding.later,?_,?_,?_,holding.kept,?_,holding.unlinked⟩
  · exact fun x member => holding.open_ x (perm.mem_iff.mpr member)
  · refine (perm.pairwise_iff ?_).mp holding.apart
    exact fun apart same => same.trans (apart same.symm)
  · exact fun x member => holding.mine x (perm.mem_iff.mpr member)
  · intro b open_
    rcases holding.opened b open_ with dead | ⟨x,member,same⟩ | other
    · exact .inl dead
    · exact .inr (.inl ⟨x,perm.mem_iff.mp member,same⟩)
    · exact .inr (.inr other)

-- Fewer blocks may be waited for.
theorem Holding.await (holding : Holding ctx s₀ cur s live pending) (pending' : List BlockId)
    (await : ∀ b ∈ pending, Unlinked s b → b ∈ pending') : Holding ctx s₀ cur s live pending' :=
  {holding with
    unlinked := fun b unlinked => (holding.unlinked b unlinked).imp_right fun member => await b member unlinked}

-- The dead block is everyone's.
theorem Holding.hold_dead (holding : Holding ctx s₀ cur s live pending) :
    Holding ctx s₀ cur s ((deadBlock,[]) :: live) pending := by
  refine ⟨holding.before,holding.sound,holding.later,?_,?_,?_,holding.kept,?_,holding.unlinked⟩
  · exact List.forall_mem_cons.mpr ⟨⟨.inl rfl,eventsOf_dead s⟩,holding.open_⟩
  · exact List.pairwise_cons.mpr ⟨fun _ _ _ => rfl,holding.apart⟩
  · exact List.forall_mem_cons.mpr ⟨.inl rfl,holding.mine⟩
  · intro b open_
    rcases holding.opened b open_ with dead | ⟨x,member,same⟩ | other
    · exact .inl dead
    · exact .inr (.inl ⟨x,List.mem_cons_of_mem _ member,same⟩)
    · exact .inr (.inr other)

theorem Holding.drop_dead (holding : Holding ctx s₀ cur s ((deadBlock,ev) :: live) pending) :
    Holding ctx s₀ cur s live pending := by
  refine ⟨holding.before,holding.sound,holding.later,?_,?_,?_,holding.kept,?_,holding.unlinked⟩
  · exact (List.forall_mem_cons.mp holding.open_).2
  · exact (List.pairwise_cons.mp holding.apart).2
  · exact (List.forall_mem_cons.mp holding.mine).2
  · intro b open_
    rcases holding.opened b open_ with dead | ⟨x,member,same⟩ | other
    · exact .inl dead
    · rcases List.mem_cons.mp member with rfl | member
      · exact .inl same.symm
      · exact .inr (.inl ⟨x,member,same⟩)
    · exact .inr (.inr other)

-- A block that is held is none of the others'.
theorem Holding.foreign (holding : Holding ctx s₀ cur s live pending) {x : BlockId × List Event} (member : x ∈ live)
    (open_ : Open s₀ b) (other : b ≠ cur) : b = deadBlock ∨ b ≠ x.1 := by
  by_cases dead : b = deadBlock
  · exact .inl dead
  · refine .inr ?_
    rintro rfl
    have inside := open_.below holding.before
    rcases holding.mine x member with same | same | above
    · exact dead same
    · exact other same
    · exact absurd inside (Nat.not_lt_of_le above)

theorem Holding.distinct (holding : Holding ctx s₀ cur s ((b,ev) :: live) pending) {x : BlockId × List Event}
    (member : x ∈ live) : x.1 = b → b = deadBlock :=
  fun same => (List.pairwise_cons.mp holding.apart).1 x member same.symm

-- Something is added to an open block.
theorem SameGraph.later (same : SameGraph ctx s s') (open_ : Open s b)
    (added : b ≠ deadBlock → eventsOf ctx s' b = eventsOf ctx s b ++ new)
    (others : ∀ c, c ≠ b → eventsOf ctx s' c = eventsOf ctx s c) : Later ctx s s' := by
  refine ⟨⟨fun c => ?_,fun c exit known => ⟨(same.exits c).trans known,?_⟩⟩,same.length.ge,same.links⟩
  · by_cases gone : c = deadBlock
    · exact gone ▸ ⟨[],(List.append_nil _).trans (eventsOf_closed ctx s s').symm⟩
    by_cases this : c = b
    · subst this
      exact ⟨new,(added gone).symm⟩
    · exact ⟨[],(List.append_nil _).trans (others c this).symm⟩
  · by_cases gone : c = deadBlock
    · exact gone ▸ eventsOf_closed ctx s s'
    · refine others c fun this => ?_
      have unset := open_.unset (this ▸ gone)
      rw [←this,show exitsOf s c = some exit from known] at unset
      cases unset

theorem SameGraph.later_still (same : SameGraph ctx s s') (events : ∀ c, eventsOf ctx s' c = eventsOf ctx s c) :
    Later ctx s s' :=
  ⟨⟨fun c => ⟨[],(List.append_nil _).trans (events c).symm⟩,fun c _ known => ⟨(same.exits c).trans known,events c⟩⟩,
    same.length.ge,same.links⟩

-- Something is added to a block that is held.
theorem Holding.add (holding : Holding ctx s₀ cur s ((b,ev) :: live) pending) (same : SameGraph ctx s s')
    (added : b ≠ deadBlock → eventsOf ctx s' b = eventsOf ctx s b ++ new)
    (others : ∀ c, c ≠ b → eventsOf ctx s' c = eventsOf ctx s c) (dead : b = deadBlock → new = []) :
    Holding ctx s₀ cur s' ((b,ev ++ new) :: live) pending := by
  have here : Open s b ∧ eventsOf ctx s b = ev := holding.open_ (b,ev) List.mem_cons_self
  have events : eventsOf ctx s' b = ev ++ new := by
    by_cases gone : b = deadBlock
    · rw [dead gone,List.append_nil,←here.2,gone,eventsOf_dead,eventsOf_dead]
    · rw [added gone,here.2]
  refine ⟨holding.before,same.sound holding.sound,holding.later.trans (same.later here.1 added others),?_,?_,?_,?_,?_,?_⟩
  · intro x member
    rcases List.mem_cons.mp member with rfl | member
    · exact ⟨same.open_iff.mpr here.1,events⟩
    · obtain ⟨open_,known⟩ := holding.open_ x (List.mem_cons_of_mem _ member)
      refine ⟨same.open_iff.mpr open_,?_⟩
      by_cases this : x.1 = b
      · have gone := holding.distinct member this
        rw [dead gone,List.append_nil,←here.2] at events
        rw [this,events,←known,this]
      · exact (others _ this).trans known
  · exact List.pairwise_cons.mpr (List.pairwise_cons.mp holding.apart)
  · intro x member
    rcases List.mem_cons.mp member with rfl | member
    · exact holding.mine (b,ev) List.mem_cons_self
    · exact holding.mine x (List.mem_cons_of_mem _ member)
  · intro c open_ other
    obtain ⟨open',known⟩ := holding.kept c open_ other
    refine ⟨same.open_iff.mpr open',?_⟩
    rcases holding.foreign List.mem_cons_self open_ other with rfl | apart
    · exact eventsOf_closed ctx s₀ s'
    · exact (others c apart).trans known
  · intro c open_
    rcases holding.opened c (same.open_iff.mp open_) with gone | ⟨x,member,this⟩ | other
    · exact .inl gone
    · rcases List.mem_cons.mp member with rfl | member
      · exact .inr (.inl ⟨_,List.mem_cons_self,this⟩)
      · exact .inr (.inl ⟨x,List.mem_cons_of_mem _ member,this⟩)
    · exact .inr (.inr other)
  · exact fun c unlinked => holding.unlinked c (same.unlinked unlinked)

-- A step that is not seen at all.
theorem Holding.still (holding : Holding ctx s₀ cur s live pending) (same : SameGraph ctx s s')
    (events : ∀ c, eventsOf ctx s' c = eventsOf ctx s c) : Holding ctx s₀ cur s' live pending := by
  refine ⟨holding.before,same.sound holding.sound,holding.later.trans (same.later_still events),?_,holding.apart,holding.mine,?_,?_,?_⟩
  · intro x member
    obtain ⟨open_,known⟩ := holding.open_ x member
    exact ⟨same.open_iff.mpr open_,(events _).trans known⟩
  · intro c open_ other
    obtain ⟨open',known⟩ := holding.kept c open_ other
    exact ⟨same.open_iff.mpr open',(events c).trans known⟩
  · exact fun c open_ => holding.opened c (same.open_iff.mp open_)
  · exact fun c unlinked => holding.unlinked c (same.unlinked unlinked)

-- Code that starts in a block that is held hands back the block that it ends in.
theorem Holding.through {ret : BlockId} {ev' : List Event} (holding : Holding ctx s₀ cur s ((b,ev) :: live) pending)
    (inner : Holding ctx s b s' [(ret,ev')] []) : Holding ctx s₀ cur s' ((ret,ev') :: live) pending := by
  have here : Open s b ∧ eventsOf ctx s b = ev := holding.open_ (b,ev) List.mem_cons_self
  have back := inner.open_ (ret,ev') List.mem_cons_self
  have other {x : BlockId × List Event} (member : x ∈ live) : x.1 = deadBlock ∨ x.1 ≠ b := by
    by_cases same : x.1 = b
    · exact .inl (same.trans (holding.distinct member same))
    · exact .inr same
  refine ⟨holding.before,inner.sound,holding.later.trans inner.later,?_,?_,?_,?_,?_,?_⟩
  · intro x member
    rcases List.mem_cons.mp member with rfl | member
    · exact back
    · obtain ⟨open_,known⟩ := holding.open_ x (List.mem_cons_of_mem _ member)
      rcases other member with gone | apart
      · rw [gone] at known ⊢
        exact ⟨.inl rfl,(eventsOf_closed ctx s s').trans known⟩
      · obtain ⟨open',known'⟩ := inner.kept x.1 open_ apart
        exact ⟨open',known'.trans known⟩
  · refine List.pairwise_cons.mpr ⟨fun x member same => ?_,(List.pairwise_cons.mp holding.apart).2⟩
    rcases inner.mine (ret,ev') List.mem_cons_self with gone | this | above
    · exact gone
    · exact this.trans (holding.distinct member (same.symm.trans this))
    · obtain ⟨open_,_⟩ := holding.open_ x (List.mem_cons_of_mem _ member)
      have below := open_.below holding.sound
      rw [←same] at below
      exact absurd below (Nat.not_lt_of_le above)
  · intro x member
    rcases List.mem_cons.mp member with rfl | member
    · rcases inner.mine (ret,ev') List.mem_cons_self with gone | this | above
      · exact .inl gone
      · exact this ▸ holding.mine (b,ev) List.mem_cons_self
      · exact .inr (.inr (holding.later.length.trans above))
    · exact holding.mine x (List.mem_cons_of_mem _ member)
  · intro c open_ foreign
    obtain ⟨open',known⟩ := holding.kept c open_ foreign
    rcases holding.foreign List.mem_cons_self open_ foreign with rfl | apart
    · exact ⟨.inl rfl,eventsOf_closed ctx s₀ s'⟩
    · obtain ⟨open'',known'⟩ := inner.kept c open' apart
      exact ⟨open'',known'.trans known⟩
  · intro c open_
    rcases inner.opened c open_ with gone | ⟨x,member,same⟩ | ⟨before,apart⟩
    · exact .inl gone
    · obtain rfl := List.mem_singleton.mp member
      exact .inr (.inl ⟨_,List.mem_cons_self,same⟩)
    · rcases holding.opened c before with gone | ⟨x,member,same⟩ | foreign
      · exact .inl gone
      · rcases List.mem_cons.mp member with rfl | member
        · exact absurd same.symm apart
        · exact .inr (.inl ⟨x,List.mem_cons_of_mem _ member,same⟩)
      · exact .inr (.inr foreign)
  · intro c unlinked
    rcases inner.unlinked c unlinked with before | none_
    · exact holding.unlinked c before
    · cases none_

theorem Holding.fresh {loops : Int} (holding : Holding ctx s₀ cur s live pending) :
    Holding ctx s₀ cur (withFresh s loops) ((s.basicBlocks.length,[]) :: live) (s.basicBlocks.length :: pending) := by
  have old {b : BlockId} (open_ : Open s b) : b ≠ s.basicBlocks.length := Nat.ne_of_lt (open_.below holding.sound)
  refine ⟨holding.before,holding.sound.fresh,holding.later.trans (withFresh_later s loops),?_,?_,?_,?_,?_,?_⟩
  · refine List.forall_mem_cons.mpr ⟨⟨withFresh_open.mpr (.inr rfl),?_⟩,fun x member => ?_⟩
    · simp [eventsOf,withFresh_new]
    · obtain ⟨open_,known⟩ := holding.open_ x member
      exact ⟨withFresh_open.mpr (.inl open_),(withFresh_events _).trans known⟩
  · refine List.pairwise_cons.mpr ⟨fun x member same => ?_,holding.apart⟩
    exact absurd same.symm (old (holding.open_ x member).1)
  · exact List.forall_mem_cons.mpr ⟨.inr (.inr holding.later.length),holding.mine⟩
  · intro c open_ other
    obtain ⟨open',known⟩ := holding.kept c open_ other
    exact ⟨withFresh_open.mpr (.inl open'),(withFresh_events _).trans known⟩
  · intro c open_
    rcases withFresh_open.mp open_ with open_ | rfl
    · rcases holding.opened c open_ with gone | ⟨x,member,same⟩ | other
      · exact .inl gone
      · exact .inr (.inl ⟨x,List.mem_cons_of_mem _ member,same⟩)
      · exact .inr (.inr other)
    · exact .inr (.inl ⟨_,List.mem_cons_self,rfl⟩)
  · intro c unlinked
    rcases withFresh_unlinked unlinked with unlinked | rfl
    · exact (holding.unlinked c unlinked).imp_right (List.mem_cons_of_mem _)
    · exact .inr List.mem_cons_self

-- A block that is held ends, and those that it goes on in are known.
theorem Holding.jumped {exit : BlockExit} (holding : Holding ctx s₀ cur s ((b,ev) :: live) pending)
    (jumped : Jumped s b exit s') (alive : b ≠ deadBlock) (fair : FairExit ctx s exit) :
    Holding ctx s₀ cur s' live pending ∧ Later ctx s s' := by
  have here : Open s b ∧ eventsOf ctx s b = ev := holding.open_ (b,ev) List.mem_cons_self
  have unset := here.1.unset alive
  have later : Later ctx s s' :=
    ⟨jumped.extends_ unset,jumped.length.ge,jumped.links ▸ List.prefix_rfl⟩
  have apart {x : BlockId × List Event} (member : x ∈ live) : x.1 ≠ b := fun same => alive (holding.distinct member same)
  refine ⟨⟨holding.before,jumped.sound holding.sound (here.1.inside alive) alive unset fair,holding.later.trans later,
    ?_,(List.pairwise_cons.mp holding.apart).2,(List.forall_mem_cons.mp holding.mine).2,?_,?_,?_⟩,later⟩
  · intro x member
    obtain ⟨open_,known⟩ := holding.open_ x (List.mem_cons_of_mem _ member)
    exact ⟨(jumped.open_iff alive).mpr ⟨open_,apart member⟩,(jumped.events _).trans known⟩
  · intro c open_ other
    obtain ⟨open',known⟩ := holding.kept c open_ other
    refine ⟨(jumped.open_iff alive).mpr ⟨open',?_⟩,(jumped.events _).trans known⟩
    rcases holding.foreign List.mem_cons_self open_ other with gone | apart
    · exact fun same => alive (same.symm.trans gone)
    · exact apart
  · intro c open_
    obtain ⟨open',other⟩ := (jumped.open_iff alive).mp open_
    rcases holding.opened c open' with gone | ⟨x,member,same⟩ | foreign
    · exact .inl gone
    · rcases List.mem_cons.mp member with rfl | member
      · exact absurd same.symm other
      · exact .inr (.inl ⟨x,member,same⟩)
    · exact .inr (.inr foreign)
  · exact fun c unlinked => holding.unlinked c (jumped.unlinked unlinked)

end Holding

section Primitives
variable {live : List (BlockId × List Event)} {pending pending' : List BlockId} {loc : Serialize.LocOffsets}

def onBlock (b : BlockId) (f : BasicBlock → BasicBlock) (s : State) : State :=
  {s with basicBlocks := s.basicBlocks.modify b f}

theorem onBlock_get {f : BasicBlock → BasicBlock} :
    (onBlock b f s).basicBlocks[c]? = if c = b then s.basicBlocks[c]?.map f else s.basicBlocks[c]? := by
  rw [onBlock,getElem?_modify_block]
  simp only [eq_comm]

theorem onBlock_length {f : BasicBlock → BasicBlock} : (onBlock b f s).basicBlocks.length = s.basicBlocks.length :=
  List.length_modify ..

-- What a block shows when the binding is put into it.
def shown (ctx : Context) (b : BlockId) (binding : Binding) : List Event :=
  if b = deadBlock then [] else (visible ctx binding).toList

def withBinding (b : BlockId) (binding : Binding) (s : State) : State :=
  onBlock b (fun block => {block with exprs := block.exprs ++ [binding]}) s

variable {binding : Binding}

theorem withBinding_same : SameGraph ctx s (withBinding b binding s) := by
  refine ⟨onBlock_length,fun c block' here => ?_,List.prefix_rfl,fun sound => ⟨sound.aliases,sound.fields⟩⟩
  rw [withBinding,onBlock_get] at here
  split at here
  · obtain ⟨block,here',rfl⟩ := Option.map_eq_some_iff.mp here
    exact ⟨block,here',rfl,rfl,id⟩
  · exact ⟨block',here,rfl,rfl,id⟩

theorem withBinding_events (inside : b < s.basicBlocks.length) (alive : b ≠ deadBlock) :
    eventsOf ctx (withBinding b binding s) b = eventsOf ctx s b ++ shown ctx b binding := by
  have here := List.getElem?_eq_getElem inside
  rw [eventsOf,eventsOf,shown,if_neg alive,if_neg alive,if_neg alive,withBinding,onBlock_get,if_pos rfl,here]
  simp only [Option.map_some,Option.getD_some,List.filterMap_append]
  cases shown : visible ctx binding with
  | none => simp [shown]
  | some e => simp [shown]

theorem withBinding_events_other (other : c ≠ b) : eventsOf ctx (withBinding b binding s) c = eventsOf ctx s c := by
  unfold eventsOf
  rw [withBinding,onBlock_get,if_neg other]

theorem Holding.emplaced (holding : Holding ctx s₀ cur s ((b,ev) :: live) pending) (binding : Binding) :
    Achieves (emplace b binding) s fun _ s' =>
      Holding ctx s₀ cur s' ((b,ev ++ shown ctx b binding) :: live) pending ∧ Later ctx s s' := by
  have open_ := (holding.open_ (b,ev) List.mem_cons_self).1
  have same : SameGraph ctx s (withBinding b binding s) := withBinding_same
  have dead (gone : b = deadBlock) : shown ctx b binding = [] := if_pos gone
  have added (alive : b ≠ deadBlock) :
      eventsOf ctx (withBinding b binding s) b = eventsOf ctx s b ++ shown ctx b binding :=
    withBinding_events (open_.inside alive) alive
  have others (c : BlockId) (other : c ≠ b) : eventsOf ctx (withBinding b binding s) c = eventsOf ctx s c :=
    withBinding_events_other other
  exact achieves_modify ⟨holding.add same added others dead,same.later open_ added others⟩

-- Nothing is seen of it, wherever it is put.
theorem Holding.note (holding : Holding ctx s₀ cur s live pending) (b : BlockId) (hidden : visible ctx binding = none) :
    Achieves (emplace b binding) s fun _ s' => Holding ctx s₀ cur s' live pending ∧ Later ctx s s' := by
  have same : SameGraph ctx s (withBinding b binding s) := withBinding_same
  have events (c : BlockId) : eventsOf ctx (withBinding b binding s) c = eventsOf ctx s c := by
    by_cases other : c = b
    · subst other
      by_cases alive : c = deadBlock
      · exact alive ▸ eventsOf_closed ctx _ _
      by_cases inside : c < s.basicBlocks.length
      · rw [withBinding_events inside alive,shown,if_neg alive,hidden]
        exact List.append_nil _
      · have outside : s.basicBlocks[c]? = none := List.getElem?_eq_none (Nat.le_of_not_lt inside)
        rw [eventsOf,eventsOf,withBinding,onBlock_get,if_pos rfl,outside]
        rfl
    · exact withBinding_events_other other
  exact achieves_modify ⟨holding.still same events,same.later_still events⟩

theorem Holding.quiet (holding : Holding ctx s₀ cur s live pending) (quiet : Quiet ctx s s') :
    Holding ctx s₀ cur s' live pending ∧ Later ctx s s' :=
  ⟨holding.still quiet.same quiet.events,quiet.same.later_still quiet.events⟩

-- r is a new block.
structure Fresh (s : State) (r : BlockId) (s' : State) : Prop where
  id : r = s.basicBlocks.length
  length : s'.basicBlocks.length = s.basicBlocks.length + 1
  alive : r ≠ deadBlock
  inner : r ≠ entry

theorem Fresh.below {r : BlockId} (fresh : Fresh s r s') : r < s'.basicBlocks.length := by
  rw [fresh.length,fresh.id]
  exact Nat.lt_succ_self _

theorem Fresh.inside {r : BlockId} (fresh : Fresh s r s') (later : Later ctx s' s'') :
    r < s''.basicBlocks.length ∧ r ≠ entry := ⟨Nat.lt_of_lt_of_le fresh.below later.length,fresh.inner⟩

theorem Fresh.apart {r : BlockId} (fresh : Fresh s r s') (inside : c < s.basicBlocks.length) : c ≠ r :=
  Nat.ne_of_lt (fresh.id ▸ inside)

theorem Holding.freshened (holding : Holding ctx s₀ cur s live pending) (loops : Int) :
    Achieves (freshBlock loops) s fun r s' => Fresh s r s' ∧ Holding ctx s₀ cur s' ((r,[]) :: live) (r :: pending) ∧
      Later ctx s s' := by
  have two := holding.sound.two
  have fresh : Fresh s s.basicBlocks.length (withFresh s loops) :=
    ⟨rfl,withFresh_length,(Nat.ne_of_lt two).symm,(Nat.ne_of_lt (Nat.zero_lt_of_lt two)).symm⟩
  exact achieves_get_bind (achieves_modify_bind (achieves_pure ⟨fresh,holding.fresh,withFresh_later s loops⟩))

end Primitives

section Jumping
variable {live : List (BlockId × List Event)} {pending pending' : List BlockId} {loc : Serialize.LocOffsets} {to_ : BlockId}

def marked (b : BlockId) (s : State) : State := onBlock b (fun block => {block with wasJumpDestination := true}) s

theorem marked_same : SameGraph ctx s (marked b s) := by
  refine ⟨onBlock_length,fun c block' here => ?_,List.prefix_rfl,fun sound => ⟨sound.aliases,sound.fields⟩⟩
  rw [marked,onBlock_get] at here
  split at here
  · obtain ⟨block,here',rfl⟩ := Option.map_eq_some_iff.mp here
    exact ⟨block,here',rfl,rfl,fun _ => rfl⟩
  · exact ⟨block',here,rfl,rfl,id⟩

theorem marked_events (c : BlockId) : eventsOf ctx (marked b s) c = eventsOf ctx s c := by
  unfold eventsOf
  rw [marked,onBlock_get]
  by_cases same : c = b
  · rw [if_pos same,Option.map_map]
    rfl
  · rw [if_neg same]

theorem marked_open (open_ : Open s c) : Open (marked b s) c := by
  obtain rfl | ⟨block,here,unset⟩ := open_
  · exact .inl rfl
  · refine .inr ?_
    rw [marked,onBlock_get,here]
    split
    · exact ⟨_,rfl,unset⟩
    · exact ⟨_,rfl,unset⟩

theorem marked_linked (unlinked : Unlinked (marked b s) c) : c ≠ b := by
  rintro rfl
  obtain ⟨_,_,block,here,unset⟩ := unlinked
  rw [marked,onBlock_get,if_pos rfl] at here
  obtain ⟨_,_,rfl⟩ := Option.map_eq_some_iff.mp here
  cases unset

theorem Holding.mark (holding : Holding ctx s₀ cur s live pending) (b : BlockId) :
    Holding ctx s₀ cur (marked b s) live (pending.filter (· ≠ b)) ∧ Later ctx s (marked b s) := by
  refine ⟨(holding.still marked_same marked_events).await _ fun c member unlinked => ?_,marked_same.later_still marked_events⟩
  exact List.mem_filter.mpr ⟨member,decide_eq_true (marked_linked unlinked)⟩

def withExit (b : BlockId) (exit : BlockExit) (s : State) : State :=
  onBlock b (fun block => {block with bexit := some exit}) s

def withBackEdge (b from_ : BlockId) (s : State) : State :=
  onBlock b (fun block => {block with backEdges := block.backEdges ++ [from_]}) s

theorem achieves_setExit {Q : Unit → State → Prop} {exit : BlockExit} (open_ : Open s b) (alive : b ≠ deadBlock)
    (now : Q () (withExit b exit s)) : Achieves (setExit b exit) s Q := by
  obtain rfl | ⟨block,here,unset⟩ := open_
  · exact absurd rfl alive
  · refine achieves_get_bind ?_
    rw [ensure,if_pos (by simp [here,unset])]
    exact achieves_modify now

theorem withBackEdge_jumped {thenb elseb : BlockId} (exit : BlockExit) (left : exit.thenb = thenb)
    (right : exit.elseb = elseb) (apart : thenb ≠ elseb) :
    Jumped s b exit (withBackEdge elseb b (withBackEdge thenb b (withExit b exit s))) := by
  subst left right
  refine ⟨by simp only [withBackEdge,withExit,onBlock_length],fun c block here => ?_,rfl,rfl,rfl⟩
  simp only [withBackEdge,withExit,onBlock_get,here]
  by_cases left : c = exit.thenb <;> by_cases right : c = exit.elseb <;> by_cases from_ : c = b <;> simp_all

theorem withBackEdge_jumped_same (exit : BlockExit) (left : exit.thenb = to_) (right : exit.elseb = to_) :
    Jumped s b exit (withBackEdge to_ b (withExit b exit s)) := by
  refine ⟨by simp only [withBackEdge,withExit,onBlock_length],fun c block here => ?_,rfl,rfl,rfl⟩
  simp only [withBackEdge,withExit,onBlock_get,here]
  by_cases target : c = to_ <;> by_cases from_ : c = b <;> simp_all

variable {A B : Behaviour}

theorem Holding.leads {exit : BlockExit} (holding : Holding ctx s₀ cur s ((b,ev) :: live) pending)
    (jumped : Jumped s b exit s') (alive : b ≠ deadBlock) :
    Leads deadBlock (flow ctx s') (b,ev.length) exit.thenb exit.elseb := by
  obtain ⟨open_,known⟩ := holding.open_ (b,ev) List.mem_cons_self
  refine fun _ => ⟨jumped.exits_from (open_.inside alive),congrArg List.length ?_⟩
  exact known.symm.trans (jumped.events b).symm

theorem unconditional_exists (ctx : Context) : (unconditional ctx).exists_ = true := decide_eq_true ctx.names.unconditional_exists

theorem Holding.jump (holding : Holding ctx s₀ cur s ((b,ev) :: live) pending) (pending' : List BlockId) (inside : to_ < s.basicBlocks.length)
    (inner : to_ ≠ entry) (await : ∀ c ∈ pending, c ≠ to_ → c ∈ pending') :
    Achieves (unconditionalJump ctx b to_ loc) s fun _ s' => Holding ctx s₀ cur s' live pending' ∧ Later ctx s s' ∧
      Leads deadBlock (flow ctx s') (b,ev.length) to_ to_ := by
  refine achieves_modify_bind ?_
  change Achieves _ (marked to_ s) _
  obtain ⟨held,later⟩ := holding.mark to_
  replace held := held.await pending' fun c member _ => by
    obtain ⟨member,other⟩ := List.mem_filter.mp member
    exact await c member (of_decide_eq_true other)
  by_cases alive : b = deadBlock
  · rw [if_neg (not_not_intro alive)]
    subst alive
    exact achieves_pure ⟨held.drop_dead,later,fun alive => absurd rfl alive⟩
  · rw [if_pos alive]
    have open_ := (held.open_ (b,ev) List.mem_cons_self).1
    refine Achieves.bind (achieves_setExit open_ alive rfl) fun _ s₁ (same : s₁ = _) => ?_
    subst same
    have jumped := withBackEdge_jumped_same (s := marked to_ s) (b := b)
      ⟨.synthetic (unconditional ctx),to_,to_,loc⟩ rfl rfl
    have target : to_ < (marked to_ s).basicBlocks.length := Nat.lt_of_lt_of_le inside later.length
    obtain ⟨held',later'⟩ := held.jumped jumped alive ⟨⟨target,inner⟩,⟨target,inner⟩,iff_of_true rfl rfl,unconditional_exists ctx⟩
    exact achieves_modify ⟨held',later.trans later',held.leads jumped alive⟩

theorem Holding.jumpToDead (holding : Holding ctx s₀ cur s ((b,ev) :: live) pending) :
    Achieves (jumpToDead ctx b loc) s fun _ s' => Holding ctx s₀ cur s' live pending ∧ Later ctx s s' ∧
      Leads deadBlock (flow ctx s') (b,ev.length) deadBlock deadBlock := by
  by_cases alive : b = deadBlock
  · subst alive
    exact achieves_pure ⟨holding.drop_dead,.refl s,fun alive => absurd rfl alive⟩
  · rw [CFGBuilder.jumpToDead,if_pos alive]
    have open_ := (holding.open_ (b,ev) List.mem_cons_self).1
    refine Achieves.bind (achieves_setExit open_ alive rfl) fun _ s₁ (same : s₁ = _) => ?_
    subst same
    have jumped := withBackEdge_jumped_same (s := s) (b := b)
      ⟨.synthetic (unconditional ctx),deadBlock,deadBlock,loc⟩ rfl rfl
    have target : deadBlock < s.basicBlocks.length ∧ deadBlock ≠ entry := ⟨holding.sound.two,Nat.one_ne_zero⟩
    obtain ⟨held,later⟩ := holding.jumped jumped alive ⟨target,target,iff_of_true rfl rfl,unconditional_exists ctx⟩
    exact achieves_modify ⟨held,later,holding.leads jumped alive⟩

theorem Holding.branch {cond : LocalRef} {thenb elseb : BlockId} (holding : Holding ctx s₀ cur s ((b,ev) :: live) pending)
    (pending' : List BlockId) (left : thenb < s.basicBlocks.length ∧ thenb ≠ entry) (right : elseb < s.basicBlocks.length ∧ elseb ≠ entry)
    (apart : thenb ≠ elseb) (condition : Condition ctx cond)
    (await : ∀ c ∈ pending, c ≠ thenb → c ≠ elseb → c ∈ pending') :
    Achieves (conditionalJump b cond thenb elseb loc) s fun _ s' => Holding ctx s₀ cur s' live pending' ∧ Later ctx s s' ∧
      Leads deadBlock (flow ctx s') (b,ev.length) thenb elseb := by
  refine achieves_modify_bind (achieves_modify_bind ?_)
  change Achieves _ (marked elseb (marked thenb s)) _
  obtain ⟨held₁,later₁⟩ := holding.mark thenb
  obtain ⟨held,later₂⟩ := held₁.mark elseb
  have later := later₁.trans later₂
  replace held := held.await pending' fun c member _ => by
    simp only [List.mem_filter,decide_eq_true_eq] at member
    exact await c member.1.1 member.1.2 member.2
  by_cases alive : b = deadBlock
  · rw [if_neg (not_not_intro alive)]
    subst alive
    exact achieves_pure ⟨held.drop_dead,later,fun alive => absurd rfl alive⟩
  · rw [if_pos alive]
    have open_ := (held.open_ (b,ev) List.mem_cons_self).1
    refine Achieves.bind (achieves_setExit open_ alive rfl) fun _ s₁ (same : s₁ = _) => ?_
    subst same
    refine achieves_modify_bind ?_
    have jumped := withBackEdge_jumped (s := marked elseb (marked thenb s)) (b := b)
      ⟨.synthetic cond,thenb,elseb,loc⟩ rfl rfl apart
    have fair : FairExit ctx (marked elseb (marked thenb s)) ⟨.synthetic cond,thenb,elseb,loc⟩ :=
      ⟨⟨Nat.lt_of_lt_of_le left.1 later.length,left.2⟩,⟨Nat.lt_of_lt_of_le right.1 later.length,right.2⟩,iff_of_false condition.2 apart,
        condition.1⟩
    obtain ⟨held',later'⟩ := held.jumped jumped alive fair
    exact achieves_modify ⟨held',later.trans later',held.leads jumped alive⟩

end Jumping

end CFGBuilder
