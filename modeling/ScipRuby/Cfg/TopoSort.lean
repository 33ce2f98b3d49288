import ScipRuby.Cfg.Instructions
import ScipRuby.Lib.DepthFirst

namespace Cfg
open DepthFirst
variable {Binding Loc : Type}

-- A CFG before simplify, when the dead block may still be dropped from the list of blocks. The blocks live
-- outside the list, so that one dropped from it keeps its contents.
structure CFG (Binding Loc : Type) where
  basicBlocks : List BlockId
  maxBasicBlockId : Nat
  block : BlockId → BasicBlock Binding Loc
  forwardsTopoSort : List BlockId
  localVariables : LocalRef → LocalVariable
  minLoops : LocalRef → Int
  maxLoopWrite : LocalRef → Int

-- The minLoops of a local that nothing has used yet.
def INT_MAX : Int := 2147483647

namespace CFG
variable (cfg : CFG Binding Loc)

def entry : BlockId := cfg.basicBlocks.getD 0 0
def deadBlock : BlockId := cfg.basicBlocks.getD 1 0

def bexit (b : BlockId) : BlockExit Loc := (cfg.block b).bexit
def thenb (b : BlockId) : BlockId := (cfg.bexit b).thenb
def elseb (b : BlockId) : BlockId := (cfg.bexit b).elseb
def backEdges (b : BlockId) : List BlockId := (cfg.block b).backEdges

def setBackEdges (b : BlockId) (f : List BlockId → List BlockId) : CFG Binding Loc :=
  {cfg with block := Function.update cfg.block b {cfg.block b with backEdges := f (cfg.block b).backEdges}}

end CFG

-- The marker for nodes that the post-order traversal has not yet encountered.
def UNVISITED : Int := -1

-- The marker for nodes that the post-order traversal is processing the children of.
def PROCESSING : Int := -2

structure TopoSort where
  target : List BlockId
  forwardIndex : BlockId → Int
  work : List (BlockId × Event)

namespace TopoSort

def start (entryBB : BlockId) : TopoSort := ⟨[],fun _ => UNVISITED,[(entryBB,.enter)]⟩

-- One round of the loop; nothing once the work is done.
def next (cfg : CFG Binding Loc) (s : TopoSort) : Option TopoSort :=
  match s.work with
  | [] => none
  | (block,.enter) :: rest =>
    if s.forwardIndex block ≠ UNVISITED then some {s with work := rest}
    else
      let forwardIndex := Function.update s.forwardIndex block PROCESSING
      let work := (block,Event.exit) :: rest
      let work := if forwardIndex (cfg.thenb block) = UNVISITED then (cfg.thenb block,.enter) :: work else work
      let work := if ¬ (cfg.bexit block).isUnconditional ∧ forwardIndex (cfg.elseb block) = UNVISITED then
        (cfg.elseb block,.enter) :: work else work
      some {s with forwardIndex := forwardIndex,work := work}
  | (block,.exit) :: rest =>
    some ⟨s.target ++ [block],Function.update s.forwardIndex block s.target.length,rest⟩

def run (cfg : CFG Binding Loc) : Nat → TopoSort → Option TopoSort
  | 0,_ => none
  | fuel + 1,s =>
    match s.next cfg with
    | some s' => run cfg fuel s'
    | none => some s

end TopoSort

def topoSortFwd (fuel : Nat) (cfg : CFG Binding Loc) : Option (List BlockId × (BlockId → Int)) :=
  (TopoSort.run cfg fuel (.start cfg.entry)).map fun s => (s.target,s.forwardIndex)

-- A block that the traversal did not find takes its edges with it.
def unlink (forwardsIds : BlockId → Int) (cfg : CFG Binding Loc) (bb : BlockId) : CFG Binding Loc :=
  if forwardsIds bb = UNVISITED then
    (cfg.setBackEdges (cfg.thenb bb) (List.filter (· ≠ bb))).setBackEdges (cfg.elseb bb) (List.filter (· ≠ bb))
  else cfg

def sortBackEdges (forwardsIds : BlockId → Int) (cfg : CFG Binding Loc) (bb : BlockId) : CFG Binding Loc :=
  cfg.setBackEdges bb (List.mergeSort · fun a b => forwardsIds a ≥ forwardsIds b)

def fillInTopoSorts (fuel : Nat) (cfg : CFG Binding Loc) : Option (CFG Binding Loc) :=
  (topoSortFwd fuel cfg).map fun (forwardsTopoSort,forwardsIds) =>
    let sorted := {cfg with forwardsTopoSort := forwardsTopoSort}
    let unlinked := sorted.basicBlocks.foldl (unlink forwardsIds) sorted
    let pruned := {unlinked with basicBlocks := unlinked.basicBlocks.filter (forwardsIds · ≠ UNVISITED)}
    pruned.basicBlocks.foldl (sortBackEdges forwardsIds) pruned

end Cfg
