import ScipRuby.Cfg.TopoSort

namespace Cfg
open DepthFirst Relation
variable {Binding Loc : Type} {cfg : CFG Binding Loc} {b c bb p : BlockId} {s s' : TopoSort}
variable {forwardsIds : BlockId → Int}

def CFG.Edge (cfg : CFG Binding Loc) (b c : BlockId) : Prop :=
  c = cfg.thenb b ∨ ((cfg.bexit b).isUnconditional = false ∧ c = cfg.elseb b)

abbrev CFG.Path (cfg : CFG Binding Loc) : BlockId → BlockId → Prop := ReflTransGen cfg.Edge

abbrev CFG.Reachable (cfg : CFG Binding Loc) (b : BlockId) : Prop := cfg.Path cfg.entry b

-- What the builder keeps up between any two of its steps.
structure Consistent (cfg : CFG Binding Loc) : Prop where
  entry : cfg.entry ∈ cfg.basicBlocks
  exits : ∀ b ∈ cfg.basicBlocks, cfg.thenb b ∈ cfg.basicBlocks ∧ cfg.elseb b ∈ cfg.basicBlocks
  backEdges : ∀ b ∈ cfg.basicBlocks, ∀ p ∈ cfg.backEdges b,
    p ∈ cfg.basicBlocks ∧ (cfg.thenb p = b ∨ cfg.elseb p = b)

theorem Consistent.edge (consistent : Consistent cfg) (listed : b ∈ cfg.basicBlocks) (edge : cfg.Edge b c) :
    c ∈ cfg.basicBlocks := by
  obtain rfl | ⟨_,rfl⟩ := edge
  · exact (consistent.exits b listed).1
  · exact (consistent.exits b listed).2

theorem Consistent.reachable (consistent : Consistent cfg) (path : cfg.Reachable b) : b ∈ cfg.basicBlocks := by
  induction path with
  | refl => exact consistent.entry
  | tail _ edge ih => exact consistent.edge ih edge

section Search

def TopoSort.search (s : TopoSort) : State BlockId := ⟨s.work,s.target⟩

-- The marks say how far the search has come with each block.
structure Marked (s : TopoSort) : Prop where
  listed : ∀ b ∈ s.target, s.forwardIndex b = s.target.idxOf b
  processing : ∀ b, s.search.Active b → s.forwardIndex b = PROCESSING
  unvisited : ∀ b, ¬ s.search.Seen b → s.forwardIndex b = UNVISITED

theorem Marked.seen_iff (marked : Marked s) : s.forwardIndex b ≠ UNVISITED ↔ s.search.Seen b := by
  constructor
  · intro visited
    by_contra unseen
    exact visited (marked.unvisited b unseen)
  · rintro (done | active)
    · rw [marked.listed b done]
      simp only [UNVISITED]
      omega
    · rw [marked.processing b active]
      decide

theorem start_marked (entryBB : BlockId) : Marked (.start entryBB) where
  listed := by simp [TopoSort.start]
  processing := by simp [TopoSort.start,TopoSort.search,State.Active]
  unvisited := fun _ _ => rfl

-- What a round does: the children are the successors still unvisited once the block itself is marked.
def children (cfg : CFG Binding Loc) (forwardIndex : BlockId → Int) (block : BlockId) : List BlockId :=
  (if (cfg.bexit block).isUnconditional = false ∧ forwardIndex (cfg.elseb block) = UNVISITED then [cfg.elseb block]
    else []) ++
  (if forwardIndex (cfg.thenb block) = UNVISITED then [cfg.thenb block] else [])

theorem next_enter {rest : List (Item BlockId)} (top : s.work = (b,.enter) :: rest)
    (fresh : s.forwardIndex b = UNVISITED) :
    s.next cfg = some {s with
      forwardIndex := Function.update s.forwardIndex b PROCESSING,
      work := (children cfg (Function.update s.forwardIndex b PROCESSING) b).map (·,.enter) ++ (b,.exit) :: rest} := by
  simp only [TopoSort.next,top,fresh,ne_eq,not_true_eq_false,if_false,children,Bool.not_eq_true]
  split <;> split <;> rfl

theorem mem_children {forwardIndex : BlockId → Int} :
    c ∈ children cfg forwardIndex b ↔ cfg.Edge b c ∧ forwardIndex c = UNVISITED := by
  simp only [children,List.mem_append,CFG.Edge]
  constructor
  · rintro (left | right)
    · split at left
      · rename_i both
        obtain rfl := List.mem_singleton.mp left
        exact ⟨.inr ⟨both.1,rfl⟩,both.2⟩
      · cases left
    · split at right
      · rename_i fresh
        obtain rfl := List.mem_singleton.mp right
        exact ⟨.inl rfl,fresh⟩
      · cases right
  · rintro ⟨rfl | ⟨conditional,rfl⟩,fresh⟩
    · exact .inr (by simp [fresh])
    · exact .inl (by simp [fresh,conditional])

theorem next_search (marked : Marked s) (sound : DepthFirst.Sound cfg.Edge cfg.entry s.search) (moved : s.next cfg = some s') :
    Step cfg.Edge s.search s'.search ∧ Marked s' := by
  obtain ⟨target,forwardIndex,work⟩ := s
  match work with
  | [] => cases moved
  | (b,.enter) :: rest =>
    by_cases fresh : forwardIndex b = UNVISITED
    · rw [next_enter rfl fresh] at moved
      cases Option.some.inj moved
      have unseen : ¬ State.Seen ⟨rest,target⟩ b := by
        intro seen
        exact marked.seen_iff.mpr (seen_enter.mpr seen) fresh
      constructor
      · refine .enter unseen (fun c member => (mem_children.mp member).1) ?_
        intro c edge
        by_cases same : c = b
        · exact .inr (.inl same)
        by_cases visited : forwardIndex c = UNVISITED
        · exact .inr (.inr (mem_children.mpr ⟨edge,(Function.update_of_ne same ..).trans visited⟩))
        · exact .inl (seen_enter.mp (marked.seen_iff.mp visited))
      · constructor
        · intro c done
          have apart : c ≠ b := fun same => unseen (.inl (same ▸ done))
          exact (Function.update_of_ne apart ..).trans (marked.listed c done)
        · intro c active
          by_cases same : c = b
          · rw [same]
            exact Function.update_self ..
          · refine (Function.update_of_ne same ..).trans (marked.processing c ?_)
            simpa [TopoSort.search,State.Active,same] using active
        · intro c unseen'
          have apart : c ≠ b := fun same => unseen' (seen_children.mpr (.inl same))
          refine (Function.update_of_ne apart ..).trans (marked.unvisited c fun seen => ?_)
          exact unseen' (seen_children.mpr (.inr (seen_enter.mp seen)))
    · have skipped : TopoSort.next cfg ⟨target,forwardIndex,(b,.enter) :: rest⟩ = some ⟨target,forwardIndex,rest⟩ :=
        if_pos fresh
      rw [skipped] at moved
      cases Option.some.inj moved
      refine ⟨.skip (seen_enter.mp (marked.seen_iff.mp fresh)),marked.listed,?_,?_⟩
      · exact fun c active => marked.processing c (List.mem_cons_of_mem _ active)
      · exact fun c unseen => marked.unvisited c fun seen => unseen (seen_enter.mp seen)
  | (b,.exit) :: rest =>
    cases Option.some.inj moved
    refine ⟨.exit,?_,?_,?_⟩
    · have new : b ∉ target := fun done => sound.apart b done List.mem_cons_self
      intro c member
      obtain done | here := List.mem_append.mp member
      · have apart : c ≠ b := fun same => new (same ▸ done)
        rw [List.idxOf_append_of_mem done]
        exact (Function.update_of_ne apart ..).trans (marked.listed c done)
      · obtain rfl := List.mem_singleton.mp here
        rw [List.idxOf_append_of_notMem new,List.idxOf_cons_self,Nat.add_zero]
        exact Function.update_self ..
    · intro c active
      have apart : c ≠ b := fun same =>
        (List.pairwise_cons.mp sound.activeOnce).1 (c,.exit) active rfl rfl same.symm
      exact (Function.update_of_ne apart ..).trans (marked.processing c (List.mem_cons_of_mem _ active))
    · intro c unseen
      have apart : c ≠ b := fun same => unseen (.inl (List.mem_append_right _ (by simp [same])))
      refine (Function.update_of_ne apart ..).trans (marked.unvisited c fun seen => ?_)
      exact unseen (seen_exit.mpr seen)

theorem next_none (done : s.next cfg = none) : s.work = [] := by
  unfold TopoSort.next at done
  split at done
  · assumption
  · split at done <;> cases done
  · cases done

structure Searching (cfg : CFG Binding Loc) (s : TopoSort) : Prop where
  marked : Marked s
  sound : DepthFirst.Sound cfg.Edge cfg.entry s.search
  bottomed : Bottomed cfg.entry s.search

theorem start_searching : Searching cfg (.start cfg.entry) := ⟨start_marked _,start_sound,.inl rfl⟩

theorem Searching.next (searching : Searching cfg s) (moved : s.next cfg = some s') : Searching cfg s' :=
  have step := next_search searching.marked searching.sound moved
  ⟨step.2,step.1.sound searching.sound,step.1.bottomed searching.bottomed⟩

theorem run_searching {fuel : Nat} (searching : Searching cfg s) (run : TopoSort.run cfg fuel s = some s') :
    Searching cfg s' ∧ s'.work = [] := by
  induction fuel generalizing s with
  | zero => cases run
  | succ fuel ih =>
    unfold TopoSort.run at run
    split at run
    · rename_i later moved
      exact ih (searching.next moved) run
    · rename_i done
      cases Option.some.inj run
      exact ⟨searching,next_none done⟩

theorem run_terminates {s : TopoSort} (consistent : Consistent cfg) (searching : Searching cfg s) :
    ∃ fuel s', TopoSort.run cfg fuel s = some s' := by
  cases moved : s.next cfg with
  | none => exact ⟨1,s,by simp [TopoSort.run,moved]⟩
  | some later =>
    have inside : ∀ item ∈ s.search.work, item.1 ∈ cfg.basicBlocks.toFinset :=
      fun item member => List.mem_toFinset.mpr (consistent.reachable (searching.sound.reached item member))
    have smaller := (next_search searching.marked searching.sound moved).1.measure inside
    obtain ⟨fuel,last,ends⟩ := run_terminates consistent (searching.next moved)
    exact ⟨fuel + 1,last,by simp [TopoSort.run,moved,ends]⟩
termination_by (unseen cfg.basicBlocks.toFinset s.search,s.search.work.length)
decreasing_by exact smaller

end Search

-- A post-order of the blocks that the entry leads to, and the positions in it.
structure TopoSorted (cfg : CFG Binding Loc) (target : List BlockId) (forwardIndex : BlockId → Int) : Prop where
  once : target.Nodup
  listed : ∀ b, b ∈ target ↔ cfg.Reachable b
  position : ∀ b ∈ target, forwardIndex b = target.idxOf b
  unlisted : ∀ b, b ∉ target → forwardIndex b = -1
  successorFirst : ∀ b ∈ target, ∀ c, cfg.Edge b c → ¬ cfg.Path c b → c ∈ target ∧ target.idxOf c < target.idxOf b

theorem Searching.topoSorted (searching : Searching cfg s) (empty : s.work = []) :
    TopoSorted cfg s.target s.forwardIndex where
  once := searching.sound.nodup
  listed := fun _ => searching.sound.finished_iff empty
  position := searching.marked.listed
  unlisted := by
    intro b absent
    refine searching.marked.unvisited b ?_
    rintro (done | active)
    · exact absent done
    · simp [State.Active,TopoSort.search,empty] at active
  successorFirst := by
    intro b listed c edge noReturn
    obtain ⟨earlier,later,split⟩ := List.append_of_mem listed
    obtain first | back := searching.sound.ordered earlier b later split c edge
    · have once := searching.sound.nodup
      have split' : s.target = earlier ++ b :: later := split
      change s.target.Nodup at once
      rw [split'] at once ⊢
      have absent : b ∉ earlier := fun twice => (List.nodup_append.mp once).2.2 b twice b List.mem_cons_self rfl
      refine ⟨List.mem_append_left _ first,?_⟩
      rw [List.idxOf_append_of_mem first,List.idxOf_append_of_notMem absent]
      exact Nat.lt_of_lt_of_le (List.idxOf_lt_length_of_mem first) (Nat.le_add_right ..)
    · exact absurd back noReturn

theorem topoSortFwd_sorted {fuel : Nat} {target : List BlockId} {forwardIndex : BlockId → Int}
    (done : topoSortFwd fuel cfg = some (target,forwardIndex)) : TopoSorted cfg target forwardIndex := by
  obtain ⟨s,run,same⟩ := Option.map_eq_some_iff.mp done
  cases same
  obtain ⟨searching,empty⟩ := run_searching start_searching run
  exact searching.topoSorted empty

theorem topoSortFwd_entry {fuel : Nat} {target : List BlockId} {forwardIndex : BlockId → Int}
    (done : topoSortFwd fuel cfg = some (target,forwardIndex)) : target.getLast? = some cfg.entry := by
  obtain ⟨s,run,same⟩ := Option.map_eq_some_iff.mp done
  cases same
  obtain ⟨searching,empty⟩ := run_searching start_searching run
  obtain first | ⟨top,under⟩ | ⟨_,last⟩ := searching.bottomed
  · have work : s.work = [(cfg.entry,.enter)] := congrArg State.work first
    rw [empty] at work
    cases work
  · have work : s.work = top ++ [(cfg.entry,.exit)] := under
    simp [empty] at work
  · exact last

theorem topoSortFwd_terminates (consistent : Consistent cfg) :
    ∃ fuel target forwardIndex, topoSortFwd fuel cfg = some (target,forwardIndex) := by
  obtain ⟨fuel,s,run⟩ := run_terminates consistent start_searching
  exact ⟨fuel,s.target,s.forwardIndex,by simp [topoSortFwd,run]⟩

section Pruning

theorem setBackEdges_backEdges (f : List BlockId → List BlockId) :
    (cfg.setBackEdges c f).backEdges b = if b = c then f (cfg.backEdges b) else cfg.backEdges b := by
  simp only [CFG.setBackEdges,CFG.backEdges,Function.update_apply]
  split
  · rename_i same
    subst same
    rfl
  · rfl

theorem setBackEdges_bexit (f : List BlockId → List BlockId) : (cfg.setBackEdges c f).bexit b = cfg.bexit b := by
  simp only [CFG.setBackEdges,CFG.bexit,Function.update_apply]
  split
  · rename_i same
    subst same
    rfl
  · rfl

-- Only back edges are dropped: of an unreachable block, from its successors.
structure Trims (forwardsIds : BlockId → Int) (blocks : List BlockId) (cfg cfg' : CFG Binding Loc) : Prop where
  basicBlocks : cfg'.basicBlocks = cfg.basicBlocks
  forwardsTopoSort : cfg'.forwardsTopoSort = cfg.forwardsTopoSort
  bexit : ∀ b, cfg'.bexit b = cfg.bexit b
  backEdges : ∀ b p, p ∈ cfg'.backEdges b ↔ p ∈ cfg.backEdges b ∧
    ¬ (p ∈ blocks ∧ forwardsIds p = UNVISITED ∧ (cfg.thenb p = b ∨ cfg.elseb p = b))

theorem unlink_trims : Trims forwardsIds [bb] cfg (unlink forwardsIds cfg bb) := by
  unfold unlink
  split
  · rename_i unvisited
    refine ⟨rfl,rfl,fun b => by rw [setBackEdges_bexit,setBackEdges_bexit],?_⟩
    intro b p
    rw [setBackEdges_backEdges,setBackEdges_backEdges]
    by_cases same : p = bb
    · subst same
      by_cases onThen : b = cfg.thenb p <;> by_cases onElse : b = cfg.elseb p <;>
        simp [onThen,onElse,unvisited,eq_comm]
    · split <;> split <;> simp [same]
  · rename_i visited
    refine ⟨rfl,rfl,fun _ => rfl,fun b p => ?_⟩
    constructor
    · refine fun member => ⟨member,?_⟩
      rintro ⟨here,unvisited,_⟩
      exact visited (List.mem_singleton.mp here ▸ unvisited)
    · exact And.left

theorem Trims.cons {blocks : List BlockId} {cfg' cfg'' : CFG Binding Loc} (first : Trims forwardsIds [bb] cfg cfg')
    (rest : Trims forwardsIds blocks cfg' cfg'') : Trims forwardsIds (bb :: blocks) cfg cfg'' where
  basicBlocks := rest.basicBlocks.trans first.basicBlocks
  forwardsTopoSort := rest.forwardsTopoSort.trans first.forwardsTopoSort
  bexit := fun b => (rest.bexit b).trans (first.bexit b)
  backEdges := by
    intro b p
    rw [rest.backEdges,first.backEdges]
    simp only [CFG.thenb,CFG.elseb,first.bexit,List.mem_cons,List.not_mem_nil,or_false]
    tauto

theorem foldl_trims (blocks : List BlockId) : Trims forwardsIds blocks cfg (blocks.foldl (unlink forwardsIds) cfg) := by
  induction blocks generalizing cfg with
  | nil => exact ⟨rfl,rfl,fun _ => rfl,fun _ _ => by simp⟩
  | cons bb blocks ih => exact unlink_trims.cons ih

-- Sorting changes no more than the order of the back edges.
structure Reorders (cfg cfg' : CFG Binding Loc) : Prop where
  basicBlocks : cfg'.basicBlocks = cfg.basicBlocks
  forwardsTopoSort : cfg'.forwardsTopoSort = cfg.forwardsTopoSort
  backEdges : ∀ b p, p ∈ cfg'.backEdges b ↔ p ∈ cfg.backEdges b

theorem sortBackEdges_reorders : Reorders cfg (sortBackEdges forwardsIds cfg bb) := by
  refine ⟨rfl,rfl,fun b p => ?_⟩
  rw [sortBackEdges,setBackEdges_backEdges]
  split
  · exact List.mem_mergeSort
  · exact Iff.rfl

theorem foldl_reorders (blocks : List BlockId) : Reorders cfg (blocks.foldl (sortBackEdges forwardsIds) cfg) := by
  induction blocks generalizing cfg with
  | nil => exact ⟨rfl,rfl,fun _ _ => Iff.rfl⟩
  | cons bb blocks ih =>
    have first := @sortBackEdges_reorders _ _ cfg bb forwardsIds
    have rest := @ih (sortBackEdges forwardsIds cfg bb)
    exact ⟨rest.basicBlocks.trans first.basicBlocks,rest.forwardsTopoSort.trans first.forwardsTopoSort,
      fun b p => (rest.backEdges b p).trans (first.backEdges b p)⟩

theorem TopoSorted.visited_iff {target : List BlockId} (sorted : TopoSorted cfg target forwardsIds) :
    forwardsIds b ≠ UNVISITED ↔ cfg.Reachable b := by
  rw [← sorted.listed]
  constructor
  · intro visited
    by_contra absent
    exact visited (sorted.unlisted b absent)
  · intro listed
    rw [sorted.position b listed]
    simp only [UNVISITED]
    omega

-- The blocks left are the reachable ones, and they know of each other only.
structure Pruned (cfg out : CFG Binding Loc) : Prop where
  kept : out.basicBlocks.Sublist cfg.basicBlocks
  reachable : ∀ b, b ∈ out.basicBlocks ↔ cfg.Reachable b
  backEdges : ∀ b ∈ out.basicBlocks, ∀ p ∈ out.backEdges b, p ∈ out.basicBlocks

theorem fillInTopoSorts_pruned {fuel : Nat} {out : CFG Binding Loc} (consistent : Consistent cfg)
    (filled : fillInTopoSorts fuel cfg = some out) :
    ∃ forwardIndex, topoSortFwd fuel cfg = some (out.forwardsTopoSort,forwardIndex) ∧ Pruned cfg out := by
  obtain ⟨⟨target,forwardsIds⟩,found,rfl⟩ := Option.map_eq_some_iff.mp filled
  have sorted := topoSortFwd_sorted found
  dsimp only
  let sortedCfg := {cfg with forwardsTopoSort := target}
  have trims := @foldl_trims _ _ sortedCfg forwardsIds cfg.basicBlocks
  let unlinked := cfg.basicBlocks.foldl (unlink forwardsIds) sortedCfg
  let pruned := {unlinked with basicBlocks := unlinked.basicBlocks.filter (forwardsIds · ≠ UNVISITED)}
  have reorders := @foldl_reorders _ _ pruned forwardsIds pruned.basicBlocks
  have list : pruned.basicBlocks = cfg.basicBlocks.filter (forwardsIds · ≠ UNVISITED) :=
    congrArg (List.filter _) trims.basicBlocks
  have reachable : ∀ b, b ∈ pruned.basicBlocks ↔ cfg.Reachable b := by
    intro b
    simp only [list,List.mem_filter,decide_eq_true_eq,sorted.visited_iff]
    exact ⟨And.right,fun path => ⟨consistent.reachable path,path⟩⟩
  refine ⟨forwardsIds,?_,?_,?_,?_⟩
  · rw [found,reorders.forwardsTopoSort]
    exact congrArg (fun list => some (list,forwardsIds)) trims.forwardsTopoSort.symm
  · rw [reorders.basicBlocks,list]
    exact List.filter_sublist
  · intro b
    rw [reorders.basicBlocks]
    exact reachable b
  · intro b left p edge
    rw [reorders.basicBlocks] at left ⊢
    obtain ⟨named,still⟩ := (trims.backEdges b p).mp ((reorders.backEdges b p).mp edge)
    have listed : b ∈ cfg.basicBlocks := consistent.reachable ((reachable b).mp left)
    obtain ⟨owner,exits⟩ := consistent.backEdges b listed p named
    refine (reachable p).mpr (sorted.visited_iff.mp fun unvisited => ?_)
    exact still ⟨owner,unvisited,exits⟩

theorem fillInTopoSorts_complete (consistent : Consistent cfg) :
    (∃ fuel out, fillInTopoSorts fuel cfg = some out) ∧
    ∀ fuel out, fillInTopoSorts fuel cfg = some out →
      (∃ forwardIndex, topoSortFwd fuel cfg = some (out.forwardsTopoSort,forwardIndex) ∧
        TopoSorted cfg out.forwardsTopoSort forwardIndex) ∧ Pruned cfg out := by
  constructor
  · obtain ⟨fuel,target,forwardIndex,found⟩ := topoSortFwd_terminates consistent
    exact ⟨fuel,_,by simp only [fillInTopoSorts,found]; rfl⟩
  · intro fuel out filled
    obtain ⟨forwardIndex,found,pruned⟩ := fillInTopoSorts_pruned consistent filled
    exact ⟨⟨forwardIndex,found,topoSortFwd_sorted found⟩,pruned⟩

end Pruning

-- A loop between 2 and 3, and a block 4 that jumps into it but that nothing jumps to.
def loopedCfg : CFG Unit Unit where
  basicBlocks := [0,1,2,3,4]
  maxBasicBlockId := 5
  block := fun b =>
    match b with
    | 0 => ⟨0,[],⟨⟨LocalRef.unconditional,()⟩,2,2,()⟩,[]⟩
    | 2 => ⟨1,[],⟨⟨7,()⟩,3,1,()⟩,[0,3,4]⟩
    | 3 => ⟨1,[],⟨⟨LocalRef.unconditional,()⟩,2,2,()⟩,[2]⟩
    | 4 => ⟨0,[],⟨⟨LocalRef.unconditional,()⟩,2,2,()⟩,[]⟩
    | _ => ⟨0,[],⟨⟨LocalRef.unconditional,()⟩,1,1,()⟩,[2]⟩
  forwardsTopoSort := []
  localVariables := fun local_ => ⟨.other local_,0⟩
  minLoops := fun _ => INT_MAX
  maxLoopWrite := fun _ => 0

theorem loopedCfg_consistent : Consistent loopedCfg := ⟨by decide,by decide,by decide⟩

theorem fillInTopoSorts_complete_looped : Consistent loopedCfg ∧
    ∃ fuel out, fillInTopoSorts fuel loopedCfg = some out ∧ 3 ∈ out.basicBlocks ∧ 4 ∉ out.backEdges 2 := by
  refine ⟨loopedCfg_consistent,?_⟩
  obtain ⟨⟨fuel,out,filled⟩,all⟩ := fillInTopoSorts_complete loopedCfg_consistent
  have pruned := (all fuel out filled).2
  have path : loopedCfg.Reachable 2 := .single (.inl rfl)
  refine ⟨fuel,out,filled,(pruned.reachable 3).mpr (path.tail (.inl rfl)),fun edge => ?_⟩
  have reached := (pruned.reachable 4).mp (pruned.backEdges 2 ((pruned.reachable 2).mpr path) 4 edge)
  -- No edge ends in 4.
  cases reached.cases_tail with
  | inl same => cases same
  | inr before =>
    obtain ⟨b,_,edge⟩ := before
    have exits : ∀ b, loopedCfg.thenb b ≠ 4 ∧ loopedCfg.elseb b ≠ 4 := by
      intro b
      unfold CFG.thenb CFG.elseb CFG.bexit loopedCfg
      dsimp only
      split <;> decide
    obtain into | ⟨_,into⟩ := edge
    · exact (exits b).1 into.symm
    · exact (exits b).2 into.symm

end Cfg
