import ScipRuby.Cfg.AliasSoundness
import ScipRuby.Cfg.DeadAssigns
import ScipRuby.Cfg.TopoOrder

namespace Cfg
variable {Loc : Type} {start out : CFG (Binding Loc) Loc} {forwardsIds : BlockId → Int} {b bb p : BlockId} {fuel : Nat}

-- What jumps leave behind, and what sanityCheck asks of the graph before the blocks are sorted.
structure Built (cfg : CFG (Binding Loc) Loc) : Prop extends Consistent cfg where
  ids : ∀ b ∈ cfg.basicBlocks, b < cfg.maxBasicBlockId
  linked : ∀ b ∈ cfg.basicBlocks, b ≠ cfg.deadBlock → b ∈ cfg.backEdges (cfg.thenb b) ∧ b ∈ cfg.backEdges (cfg.elseb b)

-- Sorting and pruning leave the code alone.
structure SameCode (cfg cfg' : CFG (Binding Loc) Loc) : Prop where
  bexit : ∀ b, cfg'.bexit b = cfg.bexit b
  exprs : ∀ b, cfg'.exprs b = cfg.exprs b
  ids : cfg'.maxBasicBlockId = cfg.maxBasicBlockId

theorem SameCode.trans {cfg cfg' cfg'' : CFG (Binding Loc) Loc} (first : SameCode cfg cfg') (second : SameCode cfg' cfg'') :
    SameCode cfg cfg'' :=
  ⟨fun b => (second.bexit b).trans (first.bexit b),fun b => (second.exprs b).trans (first.exprs b),
    second.ids.trans first.ids⟩

theorem setBackEdges_code {cfg : CFG (Binding Loc) Loc} (f : List BlockId → List BlockId) :
    SameCode cfg (cfg.setBackEdges bb f) := by
  refine ⟨fun b => setBackEdges_bexit f,fun b => ?_,rfl⟩
  simp only [CFG.setBackEdges,CFG.exprs,Function.update_apply]
  split
  · rename_i same
    rw [same]
  · rfl

theorem foldl_code {step : CFG (Binding Loc) Loc → BlockId → CFG (Binding Loc) Loc}
    (keeps : ∀ cfg bb, SameCode cfg (step cfg bb)) (blocks : List BlockId) (cfg : CFG (Binding Loc) Loc) :
    SameCode cfg (blocks.foldl step cfg) := by
  induction blocks generalizing cfg with
  | nil => exact ⟨fun _ => rfl,fun _ => rfl,rfl⟩
  | cons bb blocks ih => exact (keeps cfg bb).trans (ih _)

theorem unlink_code (cfg : CFG (Binding Loc) Loc) (bb : BlockId) : SameCode cfg (unlink forwardsIds cfg bb) := by
  unfold unlink
  split
  · exact (setBackEdges_code _).trans (setBackEdges_code _)
  · exact ⟨fun _ => rfl,fun _ => rfl,rfl⟩

theorem sortBackEdges_code (cfg : CFG (Binding Loc) Loc) (bb : BlockId) : SameCode cfg (sortBackEdges forwardsIds cfg bb) :=
  setBackEdges_code _

theorem fillInTopoSorts_code (filled : fillInTopoSorts fuel start = some out) : SameCode start out := by
  obtain ⟨⟨target,forwardsIds⟩,_,rfl⟩ := Option.map_eq_some_iff.mp filled
  have unlinked := @foldl_code _ _ (@unlink_code _ forwardsIds) start.basicBlocks {start with forwardsTopoSort := target}
  refine SameCode.trans ?_ (foldl_code sortBackEdges_code _ _)
  exact ⟨unlinked.bexit,unlinked.exprs,unlinked.ids⟩

-- A jump of a reachable block stays known.
theorem fillInTopoSorts_backEdges (filled : fillInTopoSorts fuel start = some out) (path : start.Reachable p)
    (edge : p ∈ start.backEdges b) : p ∈ out.backEdges b := by
  obtain ⟨⟨target,forwardsIds⟩,found,rfl⟩ := Option.map_eq_some_iff.mp filled
  have visited := (topoSortFwd_sorted found).visited_iff.mpr path
  have trims := @foldl_trims _ _ {start with forwardsTopoSort := target} forwardsIds start.basicBlocks
  refine ((foldl_reorders _).backEdges b p).mpr ?_
  exact (trims.backEdges b p).mpr ⟨edge,fun removed => visited removed.2.1⟩

theorem fillInTopoSorts_blocks (filled : fillInTopoSorts fuel start = some out) :
    ∃ forwardIndex : BlockId → Int, (∀ b, forwardIndex b ≠ UNVISITED ↔ start.Reachable b) ∧
      out.basicBlocks = start.basicBlocks.filter (forwardIndex · ≠ UNVISITED) := by
  obtain ⟨⟨target,forwardsIds⟩,found,rfl⟩ := Option.map_eq_some_iff.mp filled
  have trims := @foldl_trims _ _ {start with forwardsTopoSort := target} forwardsIds start.basicBlocks
  refine ⟨forwardsIds,fun b => (topoSortFwd_sorted found).visited_iff,(foldl_reorders _).basicBlocks.trans ?_⟩
  exact congrArg (List.filter _) trims.basicBlocks

-- The first two blocks of the list keep their places if they are kept.
theorem filter_getD (keep : BlockId → Bool) {list : List BlockId} (listed : list.getD 0 0 ∈ list)
    (first : keep (list.getD 0 0) = true) : (list.filter keep).getD 0 0 = list.getD 0 0 ∧
      (keep (list.getD 1 0) = true → (list.filter keep).getD 1 0 = list.getD 1 0) := by
  cases list with
  | nil => cases listed
  | cons entry rest =>
    have here : keep entry = true := first
    rw [List.filter_cons_of_pos here]
    refine ⟨rfl,fun second => ?_⟩
    cases rest with
    | nil => rfl
    | cons dead rest =>
      have there : keep dead = true := second
      rw [List.filter_cons_of_pos there]
      rfl

theorem fillInTopoSorts_entry (consistent : Consistent start) (filled : fillInTopoSorts fuel start = some out) :
    out.entry = start.entry := by
  obtain ⟨forwardIndex,visited,blocks⟩ := fillInTopoSorts_blocks filled
  have first := (visited start.entry).mpr .refl
  simp only [CFG.entry,blocks]
  exact (filter_getD _ consistent.entry (decide_eq_true first)).1

theorem fillInTopoSorts_dead (consistent : Consistent start) (filled : fillInTopoSorts fuel start = some out)
    (path : start.Reachable start.deadBlock) : out.deadBlock = start.deadBlock := by
  obtain ⟨forwardIndex,visited,blocks⟩ := fillInTopoSorts_blocks filled
  have first := (visited start.entry).mpr .refl
  have second := (visited start.deadBlock).mpr path
  simp only [CFG.deadBlock,blocks]
  exact (filter_getD _ consistent.entry (decide_eq_true first)).2 (decide_eq_true second)

-- The graph that the later passes work on.
theorem fillInTopoSorts_ready (built : Built start) (filled : fillInTopoSorts fuel start = some out) :
    Linked out ∧ Sorted out := by
  obtain ⟨forwardIndex,found,pruned⟩ := fillInTopoSorts_pruned built.toConsistent filled
  have sorted := topoSortFwd_sorted found
  have code := fillInTopoSorts_code filled
  have thenb : ∀ b, out.thenb b = start.thenb b := fun b => congrArg BlockExit.thenb (code.bexit b)
  have elseb : ∀ b, out.elseb b = start.elseb b := fun b => congrArg BlockExit.elseb (code.bexit b)
  have entry := fillInTopoSorts_entry built.toConsistent filled
  have exits : ∀ b, start.Reachable b → start.Reachable (start.thenb b) ∧ start.Reachable (start.elseb b) := by
    intro b path
    refine ⟨path.tail (.inl rfl),?_⟩
    cases both : (start.bexit b).isUnconditional with
    | true =>
      have same : start.thenb b = start.elseb b := eq_of_beq both
      exact same ▸ path.tail (.inl rfl)
    | false => exact path.tail (.inr ⟨both,rfl⟩)
  have linked : ∀ b, start.Reachable b → b ≠ out.deadBlock →
      b ∈ out.backEdges (out.thenb b) ∧ b ∈ out.backEdges (out.elseb b) := by
    intro b path alive
    have alive' : b ≠ start.deadBlock := by
      rintro rfl
      exact alive (fillInTopoSorts_dead built.toConsistent filled path).symm
    have edges := built.linked b (built.reachable path) alive'
    rw [thenb,elseb]
    exact ⟨fillInTopoSorts_backEdges filled path edges.1,fillInTopoSorts_backEdges filled path edges.2⟩
  have closed : ∀ b ∈ out.forwardsTopoSort, out.thenb b ∈ out.forwardsTopoSort ∧ out.elseb b ∈ out.forwardsTopoSort := by
    intro b listed
    have next := exits b ((sorted.listed b).mp listed)
    rw [thenb,elseb]
    exact ⟨(sorted.listed _).mpr next.1,(sorted.listed _).mpr next.2⟩
  have blocks : ∀ b, b ∈ out.basicBlocks ↔ b ∈ out.forwardsTopoSort :=
    fun b => (pruned.reachable b).trans (sorted.listed b).symm
  refine ⟨⟨⟨sorted.once,blocks,closed,?_⟩,?_,?_,?_⟩,⟨sorted.once,?_,?_,closed⟩⟩
  · exact fun b listed p edge => (blocks p).mp (pruned.backEdges b ((blocks b).mpr listed) p edge)
  · intro b listed
    rw [code.ids]
    exact built.ids b (built.reachable ((pruned.reachable b).mp listed))
  · rw [entry]
    exact (pruned.reachable _).mpr .refl
  · exact fun b listed => linked b ((pruned.reachable b).mp listed)
  · have last := topoSortFwd_entry found
    rw [← entry] at last
    obtain ⟨rest,split⟩ := List.getLast?_eq_some_iff.mp last
    exact ⟨rest.reverse,by simp [split]⟩
  · exact fun b listed => linked b ((sorted.listed b).mp listed)

-- Dealiasing changes operands and conditions only.
theorem dealias_linked (linked : Linked start) (isSCIPRuby : Bool) : Linked (start.dealias isSCIPRuby) := by
  obtain ⟨outAliases,passed⟩ := @dealias_passed _ start isSCIPRuby linked.once
  have order : (start.dealias isSCIPRuby).forwardsTopoSort = start.forwardsTopoSort := passed.order
  have blocks : (start.dealias isSCIPRuby).basicBlocks = start.basicBlocks := passed.basicBlocks
  have dead : (start.dealias isSCIPRuby).deadBlock = start.deadBlock := passed.deadBlock
  refine ⟨⟨?_,?_,?_,?_⟩,?_,?_,?_⟩
  · rw [order]
    exact linked.once
  · rw [order,blocks]
    exact linked.blocks
  · intro b listed
    rw [order] at listed ⊢
    rw [(passed.exits b).1,(passed.exits b).2]
    exact linked.exits b listed
  · intro b listed p edge
    rw [order] at listed ⊢
    exact linked.backEdges b listed p (passed.backEdges b ▸ edge)
  · rw [blocks]
    exact fun b listed => passed.ids ▸ linked.ids b listed
  · have entry : (start.dealias isSCIPRuby).entry = start.entry := by simp only [CFG.entry,blocks]
    rw [blocks,entry]
    exact linked.entry
  · intro b listed alive
    rw [blocks] at listed
    rw [dead] at alive
    have edges := linked.linked b listed alive
    rw [(passed.exits b).1,(passed.exits b).2,passed.backEdges,passed.backEdges]
    exact edges

end Cfg
