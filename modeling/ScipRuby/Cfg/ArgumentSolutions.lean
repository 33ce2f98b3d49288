import ScipRuby.Cfg.BlockArguments

namespace Cfg
open Sweeping
variable {Loc : Type} {cfg : CFG (Binding Loc) Loc} {RnW : ReadsAndWrites} {b c p : BlockId} {x : LocalRef}
variable {fuel : Nat} {blockArgs : Bounds BlockId LocalRef}

-- R(b) is what b and its successors read, less what b kills; the dead block wants nothing.
def readsEquations (cfg : CFG (Binding Loc) Loc) (RnW : ReadsAndWrites) : Equations BlockId LocalRef where
  succ := fun b => [cfg.thenb b,cfg.elseb b].filter (· ≠ cfg.deadBlock)
  extra := fun _ => ∅
  kill := cfg.toRemove RnW

-- W(b) is what the predecessors of b write; nothing comes out of the dead block.
def writesEquations (cfg : CFG (Binding Loc) Loc) (RnW : ReadsAndWrites) : Equations BlockId LocalRef where
  succ := fun b => (cfg.backEdges b).filter (· ≠ cfg.deadBlock)
  extra := RnW.writes
  kill := fun _ => ∅

-- The blocks are those of the traversal, in any order.
structure Listed (cfg : CFG (Binding Loc) Loc) : Prop where
  once : cfg.forwardsTopoSort.Nodup
  blocks : ∀ b, b ∈ cfg.basicBlocks ↔ b ∈ cfg.forwardsTopoSort
  exits : ∀ b ∈ cfg.forwardsTopoSort, cfg.thenb b ∈ cfg.forwardsTopoSort ∧ cfg.elseb b ∈ cfg.forwardsTopoSort
  backEdges : ∀ b ∈ cfg.forwardsTopoSort, ∀ p ∈ cfg.backEdges b, p ∈ cfg.forwardsTopoSort

-- A block that is visited before its successor takes over locals that the successor reads but kills.
abbrev StaleFree (cfg : CFG (Binding Loc) Loc) (RnW : ReadsAndWrites) : Prop :=
  Fresh (readsEquations cfg RnW) cfg.forwardsTopoSort RnW.reads

-- The first pass leaves every block with as many locals as it reads, so that it is taken for the last one.
abbrev StopsEarly (cfg : CFG (Binding Loc) Loc) (RnW : ReadsAndWrites) : Prop :=
  Balanced (readsEquations cfg RnW) cfg.forwardsTopoSort RnW.reads

-- The locals that a block has for such a reason.
abbrev StaleAt (cfg : CFG (Binding Loc) Loc) (RnW : ReadsAndWrites) : BlockId → LocalRef → Prop :=
  Strays (readsEquations cfg RnW) cfg.forwardsTopoSort RnW.reads

abbrev ReadSolutions (cfg : CFG (Binding Loc) Loc) (RnW : ReadsAndWrites) : Set (BlockId → Set LocalRef) :=
  Solutions (readsEquations cfg RnW) fun b => ↑(RnW.reads b)

abbrev WriteSolutions (cfg : CFG (Binding Loc) Loc) (RnW : ReadsAndWrites) : Set (BlockId → Set LocalRef) :=
  Solutions (writesEquations cfg RnW) fun _ => ∅

section Visits

theorem visitReads_eq : cfg.visitReads RnW = visit (readsEquations cfg RnW) := by
  funext upperBounds bb
  unfold CFG.visitReads visit readsEquations
  dsimp only
  congr 1
  congr 1
  by_cases onThen : cfg.thenb bb = cfg.deadBlock <;> by_cases onElse : cfg.elseb bb = cfg.deadBlock <;>
    simp [onThen,onElse,Finset.union_assoc]

theorem visitWrites_eq : cfg.visitWrites RnW = visit (writesEquations cfg RnW) := by
  funext upperBounds bb
  unfold CFG.visitWrites visit writesEquations
  dsimp only
  rw [Finset.sdiff_empty,List.foldl_filter]
  simp only [decide_eq_true_eq]

theorem reads_inside (listed : Listed cfg) :
    ∀ b ∈ cfg.forwardsTopoSort, ∀ c ∈ (readsEquations cfg RnW).succ b, c ∈ cfg.forwardsTopoSort := by
  intro b here c next
  have exit := (List.mem_filter.mp next).1
  simp only [List.mem_cons,List.not_mem_nil,or_false] at exit
  obtain rfl | rfl := exit
  · exact (listed.exits b here).1
  · exact (listed.exits b here).2

theorem writes_inside (listed : Listed cfg) :
    ∀ b ∈ cfg.forwardsTopoSort.reverse, ∀ c ∈ (writesEquations cfg RnW).succ b, c ∈ cfg.forwardsTopoSort.reverse := by
  intro b here c next
  rw [List.mem_reverse] at here ⊢
  exact listed.backEdges b here c (List.mem_filter.mp next).1

-- Where nothing is killed nothing is stale.
theorem writes_fresh : Fresh (writesEquations cfg RnW) cfg.forwardsTopoSort.reverse fun _ => ∅ :=
  fun _ _ _ _ _ _ _ _ impossible => absurd impossible (Finset.notMem_empty _)

end Visits

theorem iterate_writes (listed : Listed cfg) {upperBounds2 : Bounds BlockId LocalRef}
    (run : iterate (cfg.visitWrites RnW) cfg.forwardsTopoSort.reverse fuel (fun _ => ∅) = some upperBounds2)
    (here : b ∈ cfg.forwardsTopoSort) :
    x ∈ upperBounds2 b ↔ Flows (writesEquations cfg RnW) (fun _ => ∅) b x := by
  rw [visitWrites_eq] at run
  have settled := iterate_settles (x := x) (List.nodup_reverse.mpr listed.once) (writes_inside listed)
    (.inr writes_fresh) run (List.mem_reverse.mpr here)
  simp only [Finset.coe_empty,writes_fresh.no_strays,or_false] at settled
  exact settled

theorem iterate_reads (listed : Listed cfg) (late : ¬ StopsEarly cfg RnW ∨ StaleFree cfg RnW)
    {upperBounds1 : Bounds BlockId LocalRef}
    (run : iterate (cfg.visitReads RnW) cfg.forwardsTopoSort fuel RnW.reads = some upperBounds1)
    (here : b ∈ cfg.forwardsTopoSort) :
    x ∈ upperBounds1 b ↔ Flows (readsEquations cfg RnW) (fun b => ↑(RnW.reads b)) b x ∨ StaleAt cfg RnW b x := by
  rw [visitReads_eq] at run
  exact iterate_settles listed.once (reads_inside listed) late run here

theorem fillInBlockArguments_mem (listed : Listed cfg) (late : ¬ StopsEarly cfg RnW ∨ StaleFree cfg RnW)
    (filled : cfg.fillInBlockArguments fuel RnW = some blockArgs) (here : b ∈ cfg.basicBlocks) :
    x ∈ blockArgs b ↔
      (Flows (readsEquations cfg RnW) (fun b => ↑(RnW.reads b)) b x ∨ StaleAt cfg RnW b x) ∧
        Flows (writesEquations cfg RnW) (fun _ => ∅) b x := by
  obtain ⟨upperBounds1,run1,filled⟩ := Option.bind_eq_some_iff.mp filled
  obtain ⟨upperBounds2,run2,filled⟩ := Option.bind_eq_some_iff.mp filled
  cases Option.some.inj filled
  have visited := (listed.blocks b).mp here
  simp only [here,if_true,Finset.mem_inter]
  rw [iterate_reads listed late run1 visited,iterate_writes listed run2 visited]

theorem fillInBlockArguments_terminates (listed : Listed cfg) :
    ∃ fuel blockArgs, cfg.fillInBlockArguments fuel RnW = some blockArgs := by
  let blocks := cfg.forwardsTopoSort.toFinset
  have within : ∀ (sets : Bounds BlockId LocalRef), ∀ b ∈ cfg.forwardsTopoSort, sets b ⊆ blocks.biUnion sets :=
    fun sets b here => Finset.subset_biUnion_of_mem sets (List.mem_toFinset.mpr here)
  obtain ⟨fuel1,upperBounds1,run1⟩ : ∃ fuel upperBounds1,
      iterate (visit (readsEquations cfg RnW)) cfg.forwardsTopoSort fuel RnW.reads = some upperBounds1 :=
    start_terminates listed.once (reads_inside listed) (fun _ _ => Finset.empty_subset _) (within RnW.reads)
  obtain ⟨fuel2,upperBounds2,run2⟩ : ∃ fuel upperBounds2,
      iterate (visit (writesEquations cfg RnW)) cfg.forwardsTopoSort.reverse fuel (fun _ => ∅) = some upperBounds2 :=
    start_terminates (List.nodup_reverse.mpr listed.once) (writes_inside listed)
      (fun b here => within RnW.writes b (List.mem_reverse.mp here)) (fun _ _ => Finset.empty_subset _)
  have both := And.intro (iterate_mono (le_max_left fuel1 fuel2) run1) (iterate_mono (le_max_right fuel1 fuel2) run2)
  rw [← visitReads_eq,← visitWrites_eq] at both
  refine ⟨max fuel1 fuel2,fun b => if b ∈ cfg.basicBlocks then upperBounds1 b ∩ upperBounds2 b else upperBounds1 b,?_⟩
  simp only [CFG.fillInBlockArguments,both.1,both.2,Option.bind_eq_bind,Option.bind_some]

-- The arguments are the common locals of the two least solutions exactly when what is stale does no harm.
theorem fillInBlockArguments_exact_iff (listed : Listed cfg) (late : ¬ StopsEarly cfg RnW ∨ StaleFree cfg RnW)
    {R W : BlockId → Set LocalRef} (reads : IsLeast (ReadSolutions cfg RnW) R)
    (writes : IsLeast (WriteSolutions cfg RnW) W) :
    (∃ fuel blockArgs, cfg.fillInBlockArguments fuel RnW = some blockArgs) ∧
    ∀ fuel blockArgs, cfg.fillInBlockArguments fuel RnW = some blockArgs →
      ((∀ b ∈ cfg.basicBlocks, ∀ x, x ∈ blockArgs b ↔ x ∈ R b ∧ x ∈ W b) ↔
        ∀ b ∈ cfg.basicBlocks, ∀ x, StaleAt cfg RnW b x → x ∈ W b → x ∈ R b) := by
  refine ⟨fillInBlockArguments_terminates listed,?_⟩
  intro fuel blockArgs filled
  refine forall₂_congr fun b here => forall_congr' fun x => ?_
  rw [fillInBlockArguments_mem listed late filled here,isLeast_iff reads,isLeast_iff writes]
  tauto

section Exchange

def assign (variable_ : LocalRef) (value : Instruction Unit) : Binding Unit := ⟨⟨variable_,()⟩,(),value,false⟩

def jumping (outerLoops : Int) (exprs : List (Binding Unit)) (target : BlockId) (backEdges : List BlockId) :
    BasicBlock (Binding Unit) Unit :=
  ⟨outerLoops,exprs,⟨⟨LocalRef.unconditional,()⟩,target,target,()⟩,backEdges⟩

-- y = 1; while x = true do y = 2; v = x; u = x end; return y, with the body in two blocks. The locals x, y, v and u
-- are 5, 6, 7 and 8.
def exchangeBlock (last : List (Binding Unit)) : BlockId → BasicBlock (Binding Unit) Unit
  | 0 => jumping 0 [assign 6 .literal] 2 []
  | 2 => ⟨1,[assign 5 .literal],⟨⟨5,()⟩,3,5,()⟩,[0,4]⟩
  | 3 => jumping 1 [assign 6 .literal,assign 7 (.ident 5)] 4 [2]
  | 4 => jumping 1 [assign 8 (.ident 5)] 2 [3]
  | 5 => jumping 0 last 1 [2]
  | _ => jumping 0 [] 1 [5]

def exchangeStart (last : List (Binding Unit)) : CFG (Binding Unit) Unit where
  basicBlocks := [0,1,2,3,4,5]
  maxBasicBlockId := 6
  block := exchangeBlock last
  forwardsTopoSort := [1,5,4,3,2,0]
  localVariables := fun local_ => ⟨.other local_,0⟩
  minLoops := fun _ => INT_MAX
  maxLoopWrite := fun _ => 0

def exchangeSets (last : List (Binding Unit)) : ReadsAndWrites := (exchangeStart last).findAllReadsAndWrites

def exchangeCfg (last : List (Binding Unit)) : CFG (Binding Unit) Unit :=
  (exchangeStart last).computeMinMaxLoops (exchangeSets last)

-- The last block returns y itself, or a temporary that it assigns first.
def returnDirectly : List (Binding Unit) := [assign 4 (.return_ ⟨6,()⟩)]
def returnTemporary : List (Binding Unit) := [assign 9 (.ident 6),assign 4 (.return_ ⟨9,()⟩)]

theorem exchange_listed (last : List (Binding Unit)) : Listed (exchangeCfg last) where
  once := by simp [exchangeCfg,CFG.computeMinMaxLoops,exchangeStart]
  blocks := by
    intro b
    simp only [exchangeCfg,CFG.computeMinMaxLoops,exchangeStart,List.mem_cons,List.not_mem_nil,or_false]
    tauto
  exits := by
    simp only [exchangeCfg,CFG.computeMinMaxLoops,exchangeStart,List.forall_mem_cons]
    simp [CFG.thenb,CFG.elseb,CFG.bexit,exchangeBlock,jumping]
  backEdges := by
    simp only [exchangeCfg,CFG.computeMinMaxLoops,exchangeStart,List.forall_mem_cons]
    simp [CFG.backEdges,exchangeBlock,jumping]

-- In the first pass the loop header gives x away for y, and nothing else changes: block 4 never learns of y.
theorem fillInBlockArguments_loses : Listed (exchangeCfg returnDirectly) ∧ ∃ R W,
    IsLeast (ReadSolutions (exchangeCfg returnDirectly) (exchangeSets returnDirectly)) R ∧
    IsLeast (WriteSolutions (exchangeCfg returnDirectly) (exchangeSets returnDirectly)) W ∧
    ∃ fuel blockArgs,
      (exchangeCfg returnDirectly).fillInBlockArguments fuel (exchangeSets returnDirectly) = some blockArgs ∧
      ¬ ∀ b ∈ (exchangeCfg returnDirectly).basicBlocks, ∀ x, x ∈ blockArgs b ↔ x ∈ R b ∧ x ∈ W b := by
  refine ⟨exchange_listed _,_,_,flows_least,flows_least,?_⟩
  obtain ⟨blockArgs,filled⟩ := Option.isSome_iff_exists.mp (show
    ((exchangeCfg returnDirectly).fillInBlockArguments 3 (exchangeSets returnDirectly)).isSome = true by decide +kernel)
  refine ⟨3,blockArgs,filled,fun exact_ => ?_⟩
  have lost : ((exchangeCfg returnDirectly).fillInBlockArguments 3 (exchangeSets returnDirectly)).map
      (fun blockArgs => decide (6 ∈ blockArgs 4)) = some false := by decide +kernel
  rw [filled,Option.map_some,Option.some_inj,decide_eq_false_iff_not] at lost
  refine lost ((exact_ 4 (by decide) 6).mpr ⟨?_,?_⟩)
  · refine Flows.step (c := 2) (by decide +kernel) ?_ (by decide +kernel)
    refine Flows.step (c := 5) (by decide +kernel) ?_ (by decide +kernel)
    exact Flows.own (Finset.mem_coe.mpr (by decide +kernel)) (by decide +kernel)
  · exact Flows.extra (c := 3) (by decide +kernel) (by decide +kernel) (Finset.notMem_empty _)

theorem fillInBlockArguments_exact_iff_returning : ∃ R W,
    IsLeast (ReadSolutions (exchangeCfg returnTemporary) (exchangeSets returnTemporary)) R ∧
    IsLeast (WriteSolutions (exchangeCfg returnTemporary) (exchangeSets returnTemporary)) W ∧
    (∃ fuel blockArgs,
      (exchangeCfg returnTemporary).fillInBlockArguments fuel (exchangeSets returnTemporary) = some blockArgs ∧
      ((∀ b ∈ (exchangeCfg returnTemporary).basicBlocks, ∀ x, x ∈ blockArgs b ↔ x ∈ R b ∧ x ∈ W b) ↔
        ∀ b ∈ (exchangeCfg returnTemporary).basicBlocks, ∀ x,
          StaleAt (exchangeCfg returnTemporary) (exchangeSets returnTemporary) b x → x ∈ W b → x ∈ R b)) := by
  refine ⟨_,_,flows_least,flows_least,?_⟩
  have late : ¬ StopsEarly (exchangeCfg returnTemporary) (exchangeSets returnTemporary) := by
    intro early
    exact absurd (early 5 (by decide)) (by decide +kernel)
  obtain ⟨⟨fuel,blockArgs,filled⟩,all⟩ :=
    fillInBlockArguments_exact_iff (exchange_listed returnTemporary) (.inl late) flows_least flows_least
  exact ⟨fuel,blockArgs,filled,all fuel blockArgs filled⟩

end Exchange

end Cfg
