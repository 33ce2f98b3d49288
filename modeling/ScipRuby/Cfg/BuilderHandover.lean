import ScipRuby.Cfg.BuilderMethods
import ScipRuby.Cfg.Pipeline
import ScipRuby.Cfg.SimplifyLoop

namespace CFGBuilder
open FlowGraphs TotalRuns
open Serialize (LocOffsets TypePtr ExpressionPtr noLoc)

section Handover
variable (localName : NameRef → Cfg.LocalName) (s : State)

def handedOccurrence (occurrence : LocalOccurrence) : Cfg.LocalOccurrence LocOffsets :=
  ⟨s.localId occurrence.variable_,occurrence.loc⟩

def handedInstruction : Instruction → Cfg.Instruction LocOffsets
  | .ident what => .ident (s.localId what)
  | .alias _ _ => .alias
  | .solveConstraint _ send => .solveConstraint (s.localId send)
  | .send snd =>
    .send ⟨s.localId snd.recv,snd.receiverLoc⟩ (List.zipWith (fun arg loc => ⟨s.localId arg,loc⟩) snd.argRefs snd.argLocs)
      snd.receiverLoc
  | .return_ what whatLoc => .return_ ⟨s.localId what,whatLoc⟩
  | .blockReturn _ what => .blockReturn (handedOccurrence s what)
  | .loadSelf _ fallback => .loadSelf (s.localId fallback)
  | .literal _ => .literal
  | .getCurrentException => .getCurrentException
  | .loadArg _ _ => .loadArg
  | .argPresent _ _ => .argPresent
  | .loadYieldParams _ => .loadYieldParams
  | .yieldParamPresent _ => .yieldParamPresent
  | .yieldLoadArg _ _ yieldParam => .yieldLoadArg (handedOccurrence s yieldParam)
  | .cast value valueLoc _ _ => .cast ⟨s.localId value,valueLoc⟩
  | .tAbsurd what => .tAbsurd ⟨s.localId what,noLoc⟩
  | .keepAlive what => .keepAlive (s.localId what)

def handedBinding (binding : Binding) : Cfg.Binding LocOffsets :=
  ⟨handedOccurrence s binding.bind,binding.loc,handedInstruction s binding.value,binding.isSynthetic⟩

def handedExit : Option BlockExit → Cfg.BlockExit LocOffsets
  | some exit => ⟨handedOccurrence s exit.cond,exit.thenb,exit.elseb,exit.loc⟩
  | none => ⟨⟨s.localId noVariable,noLoc⟩,entry,entry,noLoc⟩

def handedBlock (block : BasicBlock) : Cfg.BasicBlock (Cfg.Binding LocOffsets) LocOffsets :=
  ⟨block.outerLoops,block.exprs.map (handedBinding s),handedExit s block.bexit,block.backEdges⟩

-- The graph as the later passes take it, which know the locals by their places.
def handOver : Cfg.CFG (Cfg.Binding LocOffsets) LocOffsets where
  basicBlocks := List.range s.basicBlocks.length
  maxBasicBlockId := s.basicBlocks.length
  block := fun b => handedBlock s ((s.basicBlocks[b]?).getD {outerLoops := 0})
  forwardsTopoSort := []
  localVariables := fun id => (fun v => ⟨localName v.name,v.unique⟩) (s.localVariables.getD id noVariable)
  minLoops := fun id => s.minLoops (s.localVariables.getD id noVariable)
  maxLoopWrite := fun _ => 0

end Handover

section Passes
variable {ctx : Context} {s : State} {localName : NameRef → Cfg.LocalName} {b : BlockId}

theorem Finished.handed (finished : Finished ctx s) (localName : NameRef → Cfg.LocalName) (inside : b < s.basicBlocks.length) : ∃ exit : BlockExit,
    exitsOf s b = some (exit.thenb,exit.elseb) ∧ FairExit ctx s exit ∧
    (handOver localName s).thenb b = exit.thenb ∧ (handOver localName s).elseb b = exit.elseb := by
  have here := List.getElem?_eq_getElem inside
  obtain ⟨exit,set⟩ := Option.isSome_iff_exists.mp (finished.exits b _ here)
  refine ⟨exit,by simp [exitsOf,here,set],finished.sound.exits b _ exit here set,?_⟩
  simp only [Cfg.CFG.thenb,Cfg.CFG.elseb,Cfg.CFG.bexit,handOver,handedBlock,here,Option.getD_some,set,handedExit,and_self]

theorem handOver_backEdges (inside : b < s.basicBlocks.length) : (handOver localName s).backEdges b = backEdgesOf s b := by
  simp only [Cfg.CFG.backEdges,handOver,handedBlock,backEdgesOf,List.getElem?_eq_getElem inside,Option.getD_some,Option.map_some]

theorem handOver_dead (localName : NameRef → Cfg.LocalName) (two : 2 ≤ s.basicBlocks.length) : (handOver localName s).deadBlock = deadBlock := by
  simp only [Cfg.CFG.deadBlock,handOver]
  rw [List.getD_eq_getElem _ _ (by rw [List.length_range]; exact two),List.getElem_range]
  rfl

theorem handOver_entry (localName : NameRef → Cfg.LocalName) (two : 2 ≤ s.basicBlocks.length) : (handOver localName s).entry = entry := by
  simp only [Cfg.CFG.entry,handOver]
  rw [List.getD_eq_getElem _ _ (by rw [List.length_range]; exact Nat.lt_of_lt_of_le Nat.zero_lt_two two),List.getElem_range]
  rfl

-- A complete graph is what the later passes take for granted.
theorem Finished.built (finished : Finished ctx s) : Cfg.Built (handOver localName s) := by
  have sound := finished.sound
  have listed (b : BlockId) : b ∈ (handOver localName s).basicBlocks ↔ b < s.basicBlocks.length := List.mem_range
  refine ⟨⟨?_,fun b here => ?_,fun b here p edge => ?_⟩,fun b => (listed b).mp,fun b here alive => ?_⟩
  · rw [handOver_entry localName sound.two,listed]
    exact Nat.lt_of_lt_of_le Nat.zero_lt_two sound.two
  · obtain ⟨exit,_,fair,left,right⟩ := finished.handed localName ((listed b).mp here)
    rw [left,right,listed,listed]
    exact ⟨fair.thenb.1,fair.elseb.1⟩
  · rw [handOver_backEdges ((listed b).mp here)] at edge
    obtain ⟨_,exit,known,target⟩ := ((sound.backEdgesOf ((listed b).mp here)).2 p).mp edge
    have inside : p < s.basicBlocks.length := by
      by_contra outside
      rw [exitsOf,List.getElem?_eq_none (Nat.le_of_not_lt outside)] at known
      cases known
    obtain ⟨exit',known',_,left,right⟩ := finished.handed localName inside
    obtain rfl := Option.some.inj (known.symm.trans known')
    rw [left,right,listed]
    exact ⟨inside,target⟩
  · rw [handOver_dead localName sound.two] at alive
    obtain ⟨exit,known,fair,left,right⟩ := finished.handed localName ((listed b).mp here)
    rw [left,right,handOver_backEdges fair.thenb.1,handOver_backEdges fair.elseb.1]
    exact ⟨((sound.backEdgesOf fair.thenb.1).2 b).mpr ⟨alive,_,known,.inl rfl⟩,
      ((sound.backEdgesOf fair.elseb.1).2 b).mpr ⟨alive,_,known,.inr rfl⟩⟩

theorem Finished.deadLoop (finished : Finished ctx s) (localName : NameRef → Cfg.LocalName) :
    (handOver localName s).thenb (handOver localName s).deadBlock = (handOver localName s).deadBlock ∧
      (handOver localName s).elseb (handOver localName s).deadBlock = (handOver localName s).deadBlock := by
  rw [handOver_dead localName finished.sound.two]
  obtain ⟨exit,known,_,left,right⟩ := finished.handed localName finished.sound.two
  obtain ⟨first,second⟩ := Prod.mk.inj (Option.some.inj (known.symm.trans finished.sound.dead))
  exact ⟨left.trans first,right.trans second⟩

-- Code in the dead block does not count.
theorem Finished.noDead (finished : Finished ctx s) (localName : NameRef → Cfg.LocalName) (c : BlockId) :
    (handOver localName s).deadBlock ∉ (handOver localName s).backEdges c := by
  rw [handOver_dead localName finished.sound.two]
  intro edge
  by_cases inside : c < s.basicBlocks.length
  · rw [handOver_backEdges inside] at edge
    exact (((finished.sound.backEdgesOf inside).2 deadBlock).mp edge).1 rfl
  · simp [Cfg.CFG.backEdges,handOver,handedBlock,List.getElem?_eq_none (Nat.le_of_not_lt inside)] at edge

theorem Finished.noEntry (finished : Finished ctx s) (localName : NameRef → Cfg.LocalName) :
    ∀ b ∈ (handOver localName s).basicBlocks, (handOver localName s).thenb b ≠ (handOver localName s).entry ∧
      (handOver localName s).elseb b ≠ (handOver localName s).entry := by
  intro b here
  obtain ⟨exit,_,fair,left,right⟩ := finished.handed localName (List.mem_range.mp here)
  rw [handOver_entry localName finished.sound.two,left,right]
  exact ⟨fair.thenb.2,fair.elseb.2⟩

end Passes

section Pipeline
variable {Loc : Type} {cfg cfg' cfg'' start sorted : Cfg.CFG (Cfg.Binding Loc) Loc} {b p : BlockId} {fuel : Nat}

-- A pass that changes the code of the blocks only.
structure SameEdges (cfg cfg' : Cfg.CFG (Cfg.Binding Loc) Loc) : Prop where
  basicBlocks : cfg'.basicBlocks = cfg.basicBlocks
  exits : ∀ b, cfg'.thenb b = cfg.thenb b ∧ cfg'.elseb b = cfg.elseb b
  backEdges : ∀ b, cfg'.backEdges b = cfg.backEdges b

theorem SameEdges.trans (first : SameEdges cfg cfg') (second : SameEdges cfg' cfg'') : SameEdges cfg cfg'' :=
  ⟨second.basicBlocks.trans first.basicBlocks,
    fun b => ⟨(second.exits b).1.trans (first.exits b).1,(second.exits b).2.trans (first.exits b).2⟩,
    fun b => (second.backEdges b).trans (first.backEdges b)⟩

theorem dealias_sameEdges (once : cfg.forwardsTopoSort.Nodup) (isSCIPRuby : Bool) : SameEdges cfg (cfg.dealias isSCIPRuby) := by
  obtain ⟨outAliases,passed⟩ := @Cfg.dealias_passed _ cfg isSCIPRuby once
  exact ⟨passed.basicBlocks,passed.exits,passed.backEdges⟩

theorem removeDeadAssigns_sameEdges (lspQueryIsEmpty : Bool) (RnW : Cfg.ReadsAndWrites) (blockArgs : Sweeping.Bounds BlockId Cfg.LocalRef) :
    SameEdges cfg (cfg.removeDeadAssigns lspQueryIsEmpty RnW blockArgs) := by
  unfold Cfg.CFG.removeDeadAssigns
  split
  · refine ⟨rfl,fun b => ?_,fun b => ?_⟩
    · simp only [Cfg.CFG.thenb,Cfg.CFG.elseb,Cfg.CFG.bexit]
      split
      · exact ⟨rfl,rfl⟩
      · exact ⟨rfl,rfl⟩
    · simp only [Cfg.CFG.backEdges]
      split
      · rfl
      · rfl
  · exact ⟨rfl,fun _ => ⟨rfl,rfl⟩,fun _ => rfl⟩

-- The first two blocks are kept apart from here on.
def toGraph (cfg : Cfg.CFG (Cfg.Binding Loc) Loc) : Cfg.Graph (Cfg.Binding Loc) Loc :=
  ⟨cfg.entry,cfg.deadBlock,cfg.basicBlocks.drop 2,cfg.block,cfg.forwardsTopoSort⟩

theorem toGraph_basicBlocks (two : 2 ≤ cfg.basicBlocks.length) : (toGraph cfg).basicBlocks = cfg.basicBlocks := by
  unfold toGraph Cfg.Graph.basicBlocks Cfg.CFG.entry Cfg.CFG.deadBlock
  match cfg.basicBlocks,two with
  | entry :: dead :: others,_ => rfl

theorem fillInTopoSorts_terminates (consistent : Cfg.Consistent start) :
    ∃ fuel sorted, Cfg.fillInTopoSorts fuel start = some sorted := by
  obtain ⟨fuel,target,forwardIndex,found⟩ := Cfg.topoSortFwd_terminates consistent
  exact ⟨fuel,_,by simp only [Cfg.fillInTopoSorts,found]; rfl⟩

theorem fillInTopoSorts_backEdges_old (filled : Cfg.fillInTopoSorts fuel start = some sorted) (edge : p ∈ sorted.backEdges b) :
    p ∈ start.backEdges b := by
  obtain ⟨⟨target,forwardsIds⟩,_,rfl⟩ := Option.map_eq_some_iff.mp filled
  have trims := @Cfg.foldl_trims _ _ {start with forwardsTopoSort := target} forwardsIds start.basicBlocks
  dsimp only at edge
  have unsorted := ((Cfg.foldl_reorders _).backEdges b p).mp edge
  exact ((trims.backEdges b p).mp unsorted).1

-- What simplify asks for.
theorem toGraph_wellFormed (built : Cfg.Built start) (once : start.basicBlocks.Nodup)
    (deadLoop : start.thenb start.deadBlock = start.deadBlock ∧ start.elseb start.deadBlock = start.deadBlock)
    (noDead : ∀ c, start.deadBlock ∉ start.backEdges c) (noEntry : ∀ b ∈ start.basicBlocks, start.thenb b ≠ start.entry ∧ start.elseb b ≠ start.entry)
    (toDead : ∀ b, start.Reachable b → start.Path b start.deadBlock)
    (filled : Cfg.fillInTopoSorts fuel start = some sorted) (same : SameEdges sorted cfg) :
    Cfg.WellFormed False (toGraph cfg) := by
  obtain ⟨_,_,pruned⟩ := Cfg.fillInTopoSorts_pruned built.toConsistent filled
  have code := Cfg.fillInTopoSorts_code filled
  have alive := toDead _ .refl
  have entry : cfg.entry = start.entry := by
    rw [Cfg.CFG.entry,same.basicBlocks]
    exact Cfg.fillInTopoSorts_entry built.toConsistent filled
  have dead : cfg.deadBlock = start.deadBlock := by
    rw [Cfg.CFG.deadBlock,same.basicBlocks]
    exact Cfg.fillInTopoSorts_dead built.toConsistent filled alive
  have thenb (b : BlockId) : (toGraph cfg).thenb b = start.thenb b := (same.exits b).1.trans (congrArg (·.thenb) (code.bexit b))
  have elseb (b : BlockId) : (toGraph cfg).elseb b = start.elseb b := (same.exits b).2.trans (congrArg (·.elseb) (code.bexit b))
  have apart : start.entry ≠ start.deadBlock := by
    intro meet
    exact (noEntry _ built.entry).1 (by rw [meet]; exact deadLoop.1)
  have distinct : cfg.basicBlocks.Nodup := same.basicBlocks ▸ pruned.kept.nodup once
  have found (b : BlockId) : b ∈ cfg.basicBlocks ↔ start.Reachable b := by rw [same.basicBlocks,pruned.reachable]
  have two : 2 ≤ cfg.basicBlocks.length := by
    have first := (found _).mpr .refl
    have second := (found _).mpr alive
    rcases list : cfg.basicBlocks with _ | ⟨b,_ | _⟩
    · rw [list] at first
      cases first
    · rw [list,List.mem_singleton] at first second
      exact absurd (first.trans second.symm) apart
    · exact Nat.le_add_left 2 _
  have blocks := toGraph_basicBlocks two
  have exits (b : BlockId) (here : start.Reachable b) : start.Reachable (start.thenb b) ∧ start.Reachable (start.elseb b) := by
    refine ⟨here.tail (.inl rfl),?_⟩
    cases both : (start.bexit b).isUnconditional with
    | true =>
      have meet : start.thenb b = start.elseb b := eq_of_beq both
      exact meet ▸ here.tail (.inl rfl)
    | false => exact here.tail (.inr ⟨both,rfl⟩)
  have old {b c : BlockId} (edge : b ∈ (toGraph cfg).backEdges c) : b ∈ start.backEdges c :=
    fillInTopoSorts_backEdges_old filled (same.backEdges c ▸ edge)
  have kept {b c : BlockId} (here : start.Reachable b) (edge : b ∈ start.backEdges c) : b ∈ (toGraph cfg).backEdges c := by
    have edges : (toGraph cfg).backEdges c = sorted.backEdges c := same.backEdges c
    rw [edges]
    exact Cfg.fillInTopoSorts_backEdges filled here edge
  have goes {b c : BlockId} (path : start.Path b c) (here : start.Reachable b) : Cfg.Reaches (toGraph cfg) b c := by
    induction path with
    | refl => exact .refl
    | @tail c d path edge ih =>
      refine ih.tail ⟨blocks ▸ (found c).mpr (here.trans path),?_⟩
      rw [thenb,elseb]
      exact edge.imp id And.right
  refine ⟨⟨fun b here => ?_,fun c here b edge => ?_,fun b here c here' => ?_⟩,blocks ▸ distinct,?_,fun b here => ?_,fun b here => ?_,
    fun b here => ?_⟩
  · rw [blocks,found] at here
    rw [thenb,elseb,blocks,found,found]
    exact exits b here
  · rw [blocks] at here ⊢
    rw [same.basicBlocks] at here ⊢
    exact pruned.backEdges c here b ((same.backEdges c) ▸ edge)
  · rw [blocks,found] at here
    rw [thenb,elseb,show (toGraph cfg).deadBlock = cfg.deadBlock from rfl,dead]
    constructor
    · intro edge
      refine ⟨?_,fun gone => noDead c (gone ▸ old edge)⟩
      rw [blocks,found] at here'
      exact ((built.backEdges c (built.toConsistent.reachable here') b (old edge)).2).imp Eq.symm Eq.symm
    · rintro ⟨rfl | rfl,living⟩
      · exact kept here (built.linked b (built.toConsistent.reachable here) living).1
      · exact kept here (built.linked b (built.toConsistent.reachable here) living).2
  · rw [thenb,elseb,show (toGraph cfg).deadBlock = cfg.deadBlock from rfl,dead]
    exact deadLoop
  · rw [blocks,found] at here
    rw [thenb,elseb,show (toGraph cfg).entry = cfg.entry from rfl,entry]
    exact noEntry b (built.toConsistent.reachable here)
  · rw [blocks,found] at here
    rw [show (toGraph cfg).entry = cfg.entry from rfl,entry]
    exact goes here .refl
  · rw [blocks,found] at here
    rw [show (toGraph cfg).deadBlock = cfg.deadBlock from rfl,dead]
    exact goes (toDead b here) here

end Pipeline

section Building
variable {ctx : Context} {method : Method} {params stats : List ExpressionPtr} {expr : ExpressionPtr}

-- Whatever method is built, the passes over its graph come to their ends and find it as they need it. Where no part of the
-- code goes round for ever, this is so up to the last of them.
theorem buildFor_passes (buildable : MethodBuildable ctx method params stats expr) (localName : NameRef → Cfg.LocalName)
    (isSCIPRuby lspQueryIsEmpty : Bool) : ∃ implicitReturnLoc s,
    buildFor ctx method params stats expr (emptyCFG ctx) = some (implicitReturnLoc,s) ∧
    ∃ fuel sorted, Cfg.fillInTopoSorts fuel (handOver localName s) = some sorted ∧ Cfg.Linked sorted ∧ Cfg.Sorted sorted ∧
      let dealiased := sorted.dealias isSCIPRuby
      let RnW := dealiased.findAllReadsAndWrites
      let cfg := dealiased.computeMinMaxLoops RnW
      ∃ fuel blockArgs, cfg.fillInBlockArguments fuel RnW = some blockArgs ∧
        ((∀ b, (handOver localName s).Reachable b → (handOver localName s).Path b deadBlock) →
          let graph := toGraph (cfg.removeDeadAssigns lspQueryIsEmpty RnW blockArgs)
          Cfg.WellFormed False graph ∧ ∃ fuel out, Cfg.simplify fuel graph = some out) := by
  obtain ⟨implicitReturnLoc,s,ran,finished,_⟩ := buildFor_achieves buildable
  have built : Cfg.Built (handOver localName s) := finished.built
  have two := finished.sound.two
  obtain ⟨fuel,sorted,filled⟩ := fillInTopoSorts_terminates built.toConsistent
  obtain ⟨linked,sortedLinked⟩ := Cfg.fillInTopoSorts_ready built filled
  have linked' := Cfg.dealias_linked linked isSCIPRuby
  let dealiased := sorted.dealias isSCIPRuby
  let cfg := dealiased.computeMinMaxLoops dealiased.findAllReadsAndWrites
  have listed : Cfg.Listed cfg := ⟨linked'.once,linked'.blocks,linked'.exits,linked'.backEdges⟩
  obtain ⟨fuel',blockArgs,ran'⟩ : ∃ fuel blockArgs,
      cfg.fillInBlockArguments fuel dealiased.findAllReadsAndWrites = some blockArgs := Cfg.fillInBlockArguments_terminates listed
  refine ⟨implicitReturnLoc,s,ran,fuel,sorted,filled,linked,sortedLinked,fuel',blockArgs,ran',fun toDead => ?_⟩
  have same : SameEdges sorted (cfg.removeDeadAssigns lspQueryIsEmpty dealiased.findAllReadsAndWrites blockArgs) :=
    (dealias_sameEdges sortedLinked.once isSCIPRuby).trans
      ((⟨rfl,fun _ => ⟨rfl,rfl⟩,fun _ => rfl⟩ : SameEdges dealiased cfg).trans (removeDeadAssigns_sameEdges _ _ _))
  rw [←handOver_dead localName two] at toDead
  have formed := toGraph_wellFormed built List.nodup_range (finished.deadLoop localName) (finished.noDead localName)
    (finished.noEntry localName) toDead filled same
  exact ⟨formed,Cfg.Loop.run_terminates _ formed.sound⟩

theorem buildFor_passes_loop : ∃ implicitReturnLoc s,
    buildFor sampleContext sampleMethod sampleParams [] sampleBody (emptyCFG sampleContext) = some (implicitReturnLoc,s) ∧
    ∃ fuel sorted, Cfg.fillInTopoSorts fuel (handOver (fun name => .other name.toNat) s) = some sorted ∧ Cfg.Linked sorted := by
  obtain ⟨implicitReturnLoc,s,ran,fuel,sorted,filled,linked,_⟩ :=
    buildFor_passes sample_buildable (fun name => .other name.toNat) true true
  exact ⟨implicitReturnLoc,s,ran,fuel,sorted,filled,linked⟩

end Building

end CFGBuilder
