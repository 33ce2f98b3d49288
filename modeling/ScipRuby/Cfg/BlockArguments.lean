import Mathlib.Data.Finset.Lattice.Basic
import ScipRuby.Cfg.TopoSort
import ScipRuby.Lib.Sweeping

namespace Cfg
open Sweeping
variable {Loc : Type}

structure ReadsAndWrites where
  reads : BlockId → Finset LocalRef
  writes : BlockId → Finset LocalRef
  dead : BlockId → Finset LocalRef

-- The three sets of one block.
structure BlockSets where
  reads : Finset LocalRef
  writes : Finset LocalRef
  dead : Finset LocalRef

namespace CFG
variable (cfg : CFG (Binding Loc) Loc)

def exprs (b : BlockId) : List (Binding Loc) := (cfg.block b).exprs
def cond (b : BlockId) : LocalRef := (cfg.bexit b).cond.variable_
def outerLoops (b : BlockId) : Int := (cfg.block b).outerLoops

def isAliasForGlobal (local_ : LocalRef) : Bool := (cfg.localVariables local_).isAliasForGlobal
def isSyntheticTemporary (local_ : LocalRef) : Bool := (cfg.localVariables local_).isSyntheticTemporary

-- A write to an alias counts as a read of it, the defining one excepted.
def readsOf (bind : Binding Loc) : List LocalRef :=
  if cfg.isAliasForGlobal bind.bind.variable_ ∧ bind.value.isAlias = false then
    bind.bind.variable_ :: bind.value.operands
  else bind.value.operands

def record (sets : BlockSets) (bind : Binding Loc) : BlockSets :=
  let reads := sets.reads ∪ (cfg.readsOf bind).toFinset
  ⟨reads,insert bind.bind.variable_ sets.writes,
    if bind.bind.variable_ ∈ reads then sets.dead else insert bind.bind.variable_ sets.dead⟩

def blockSets (b : BlockId) : BlockSets :=
  let sets := (cfg.exprs b).foldl cfg.record ⟨∅,∅,∅⟩
  if cfg.cond b ≠ LocalRef.unconditional then {sets with reads := insert (cfg.cond b) sets.reads} else sets

def foundSets (b : BlockId) : BlockSets := if b ∈ cfg.basicBlocks then cfg.blockSets b else ⟨∅,∅,∅⟩

-- The blocks that read or write a local.
def usages (local_ : LocalRef) : List BlockId :=
  (List.range cfg.maxBasicBlockId).filter fun b => local_ ∈ (cfg.foundSets b).reads ∪ (cfg.foundSets b).writes

-- A local used in one block only is no write of that block that others could see.
def findAllReadsAndWrites : ReadsAndWrites where
  reads := fun b => (cfg.foundSets b).reads
  writes := fun b => (cfg.foundSets b).writes.filter fun local_ => cfg.usages local_ ≠ [b]
  dead := fun b => (cfg.foundSets b).dead

def lowerMinLoops (locals : Finset LocalRef) (outerLoops : Int) (minLoops : LocalRef → Int) : LocalRef → Int :=
  fun local_ => if local_ ∈ locals then min (minLoops local_) outerLoops else minLoops local_

def raiseMaxLoopWrite (locals : Finset LocalRef) (outerLoops : Int) (maxLoopWrite : LocalRef → Int) : LocalRef → Int :=
  fun local_ => if local_ ∈ locals then max (maxLoopWrite local_) outerLoops else maxLoopWrite local_

-- The locals that the bindings of a block assign.
def assigned (b : BlockId) : Finset LocalRef := ((cfg.exprs b).map (·.bind.variable_)).toFinset

def computeMinMaxLoops (RnW : ReadsAndWrites) : CFG (Binding Loc) Loc :=
  let alive := cfg.basicBlocks.filter (· ≠ cfg.deadBlock)
  let minLoops := alive.foldl (fun minLoops b => lowerMinLoops (RnW.reads b) (cfg.outerLoops b) minLoops) cfg.minLoops
  let minLoops := alive.foldl (fun minLoops b => lowerMinLoops (cfg.assigned b) (cfg.outerLoops b) minLoops) minLoops
  let maxLoopWrite :=
    alive.foldl (fun maxLoopWrite b => raiseMaxLoopWrite (cfg.assigned b) (cfg.outerLoops b) maxLoopWrite) cfg.maxLoopWrite
  {cfg with minLoops := minLoops,maxLoopWrite := maxLoopWrite}

-- What a block writes before it reads, unless the local lives in a loop further out.
def toRemove (RnW : ReadsAndWrites) (b : BlockId) : Finset LocalRef :=
  (RnW.dead b).filter fun local_ => cfg.outerLoops b ≤ cfg.minLoops local_

def visitReads (RnW : ReadsAndWrites) (upperBounds : Bounds BlockId LocalRef) (bb : BlockId) : Bounds BlockId LocalRef :=
  let bound := upperBounds bb
  let bound := if cfg.thenb bb ≠ cfg.deadBlock then bound ∪ upperBounds (cfg.thenb bb) else bound
  let bound := if cfg.elseb bb ≠ cfg.deadBlock then bound ∪ upperBounds (cfg.elseb bb) else bound
  Function.update upperBounds bb (bound \ cfg.toRemove RnW bb)

def visitWrites (RnW : ReadsAndWrites) (upperBounds : Bounds BlockId LocalRef) (bb : BlockId) : Bounds BlockId LocalRef :=
  Function.update upperBounds bb <|
    (cfg.backEdges bb).foldl (fun bound edge =>
      if edge ≠ cfg.deadBlock then bound ∪ (RnW.writes edge ∪ upperBounds edge) else bound) (upperBounds bb)

def fillInBlockArguments (fuel : Nat) (RnW : ReadsAndWrites) : Option (Bounds BlockId LocalRef) := do
  let upperBounds1 ← iterate (cfg.visitReads RnW) cfg.forwardsTopoSort fuel RnW.reads
  let upperBounds2 ← iterate (cfg.visitWrites RnW) cfg.forwardsTopoSort.reverse fuel fun _ => ∅
  some fun b => if b ∈ cfg.basicBlocks then upperBounds1 b ∩ upperBounds2 b else upperBounds1 b

-- An assignment that nothing reads, of a value that is free of side effects.
def isDeadAssign (RnW : ReadsAndWrites) (blockArgs : Bounds BlockId LocalRef) (b : BlockId) (bind : Binding Loc) : Bool :=
  let local_ := bind.bind.variable_
  let wasRead := decide (local_ ∈ RnW.reads b) || decide (local_ ∈ blockArgs (cfg.thenb b)) ||
    decide (local_ ∈ blockArgs (cfg.elseb b))
  !cfg.isAliasForGlobal local_ && !wasRead &&
    match bind.value with
    | .ident _ | .literal | .loadSelf _ | .loadArg | .loadYieldParams => true
    | _ => false

def removeDeadAssigns (lspQueryIsEmpty : Bool) (RnW : ReadsAndWrites) (blockArgs : Bounds BlockId LocalRef) :
    CFG (Binding Loc) Loc :=
  if lspQueryIsEmpty then
    {cfg with block := fun b =>
      if b ∈ cfg.basicBlocks then
        {cfg.block b with exprs := (cfg.exprs b).filter fun bind => !cfg.isDeadAssign RnW blockArgs b bind}
      else cfg.block b}
  else cfg

end CFG

end Cfg
