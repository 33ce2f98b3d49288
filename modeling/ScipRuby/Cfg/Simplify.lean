import Mathlib.Data.List.Destutter
import Mathlib.Logic.Function.Basic
import Mathlib.Tactic.Common

namespace Cfg

-- Blocks are named by their ids, which freshBlock never gives twice.
abbrev BlockId := Nat
abbrev LocalRef := Nat

namespace LocalRef
def blockCall : LocalRef := 1
def unconditional : LocalRef := 3
end LocalRef

structure LocalOccurrence (Loc : Type) where
  variable_ : LocalRef
  loc : Loc

structure BlockExit (Loc : Type) where
  cond : LocalOccurrence Loc
  thenb : BlockId
  elseb : BlockId
  loc : Loc

structure BasicBlock (Binding Loc : Type) where
  outerLoops : Int
  exprs : List Binding
  bexit : BlockExit Loc
  backEdges : List BlockId

-- The first two entries of basicBlocks are the entry block and the dead block. They are never erased, so
-- that the other entries are kept apart.
structure Graph (Binding Loc : Type) where
  entry : BlockId
  deadBlock : BlockId
  others : List BlockId
  block : BlockId → BasicBlock Binding Loc
  forwardsTopoSort : List BlockId

variable {Binding Loc : Type}

namespace BlockExit

def isUnconditional (bexit : BlockExit Loc) : Bool := bexit.thenb == bexit.elseb

end BlockExit

namespace Graph
variable (cfg : Graph Binding Loc)

def basicBlocks : List BlockId := cfg.entry :: cfg.deadBlock :: cfg.others

def thenb (b : BlockId) : BlockId := (cfg.block b).bexit.thenb
def elseb (b : BlockId) : BlockId := (cfg.block b).bexit.elseb
def backEdges (b : BlockId) : List BlockId := (cfg.block b).backEdges

def update (b : BlockId) (f : BasicBlock Binding Loc → BasicBlock Binding Loc) : Graph Binding Loc :=
  {cfg with block := Function.update cfg.block b (f (cfg.block b))}

def eraseBackEdge (c bb : BlockId) : Graph Binding Loc :=
  cfg.update c fun block => {block with backEdges := block.backEdges.filter (· ≠ bb)}

def addBackEdge (c bb : BlockId) : Graph Binding Loc :=
  cfg.update c fun block => {block with backEdges := block.backEdges ++ [bb]}

def setExit (bb : BlockId) (f : BlockExit Loc → BlockExit Loc) : Graph Binding Loc :=
  cfg.update bb fun block => {block with bexit := f block.bexit}

-- The block that nothing jumps to.
def removeBlock (bb : BlockId) : Graph Binding Loc :=
  let thenb := cfg.thenb bb
  let elseb := cfg.elseb bb
  let cut := cfg.eraseBackEdge thenb bb
  let cut := if elseb ≠ thenb then cut.eraseBackEdge elseb bb else cut
  {cut with others := cut.others.erase bb, forwardsTopoSort := cut.forwardsTopoSort.filter (· ≠ bb)}

def dedupeBackEdges (bb : BlockId) : Graph Binding Loc :=
  cfg.update bb fun block => {block with backEdges := (block.backEdges.mergeSort (· ≤ ·)).destutter (· ≠ ·)}

def dropCondition (bb : BlockId) : Graph Binding Loc :=
  cfg.setExit bb fun bexit => {bexit with cond := ⟨LocalRef.unconditional,bexit.loc⟩}

-- bb leaves where thenb left, and its new successors learn of it.
def takeExit (bb thenb : BlockId) : Graph Binding Loc :=
  let target := (cfg.block thenb).bexit
  cfg.setExit bb fun bexit =>
    {bexit with cond := {bexit.cond with variable_ := target.cond.variable_},thenb := target.thenb,elseb := target.elseb,
                loc := target.loc}

def linkExits (bb : BlockId) : Graph Binding Loc :=
  let linked := cfg.addBackEdge (cfg.thenb bb) bb
  if linked.thenb bb ≠ linked.elseb bb then linked.addBackEdge (linked.elseb bb) bb else linked

-- The only block that jumps to thenb takes over its expressions and its exit.
def squish (bb thenb : BlockId) : Graph Binding Loc :=
  let joined := cfg.update bb fun block => {block with exprs := block.exprs ++ (cfg.block thenb).exprs}
  let cleared := joined.update thenb fun block => {block with backEdges := []}
  (cleared.takeExit bb thenb).linkExits bb

def inlineExit (bb thenb : BlockId) : Graph Binding Loc :=
  ((cfg.takeExit bb thenb).eraseBackEdge thenb bb).linkExits bb

def shortcutThen (bb thenb elseb : BlockId) : Graph Binding Loc :=
  let target := cfg.thenb thenb
  let moved := cfg.setExit bb fun bexit => {bexit with thenb := target}
  let linked := (moved.addBackEdge target bb).eraseBackEdge thenb bb
  if thenb = elseb then linked.setExit bb fun bexit => {bexit with elseb := target} else linked

def shortcutElse (bb thenb elseb : BlockId) : Graph Binding Loc :=
  let target := cfg.elseb elseb
  let moved := cfg.setExit bb fun bexit => {bexit with elseb := target}
  let linked := (moved.addBackEdge target bb).eraseBackEdge elseb bb
  if thenb = elseb then linked.setExit bb fun bexit => {bexit with thenb := target} else linked

-- An unconditional jump that may swallow the block it goes to.
def mayAbsorb (bb thenb elseb : BlockId) : Bool :=
  thenb = elseb ∧ thenb ≠ cfg.deadBlock ∧ thenb ≠ bb ∧ (cfg.block thenb).outerLoops = (cfg.block bb).outerLoops

-- An empty block that only jumps on, seen from a block with the given exit to it.
def isDetour (next onward : BlockId) : Bool :=
  next ≠ cfg.deadBlock ∧ (cfg.block next).exprs.isEmpty ∧ (cfg.block next).bexit.isUnconditional ∧ next ≠ onward

end Graph

-- What one turn of the loop over the blocks has done to the block it is at.
inductive Turn (Binding Loc : Type) where
  | removed (cfg : Graph Binding Loc)
  | rewritten (cfg : Graph Binding Loc)
  | kept (cfg : Graph Binding Loc)

-- The preparation that does not count as a change.
def tidy (cfg : Graph Binding Loc) (bb : BlockId) : Graph Binding Loc :=
  let deduped := cfg.dedupeBackEdges bb
  if cfg.thenb bb = cfg.elseb bb then deduped.dropCondition bb else deduped

def rewrite (cfg : Graph Binding Loc) (bb thenb elseb : BlockId) : Turn Binding Loc :=
  if cfg.mayAbsorb bb thenb elseb ∧ (cfg.backEdges thenb).length = 1 then .rewritten (cfg.squish bb thenb)
  else if cfg.mayAbsorb bb thenb elseb ∧ (cfg.block thenb).bexit.cond.variable_ ≠ LocalRef.blockCall ∧
      (cfg.block thenb).exprs.isEmpty then .rewritten (cfg.inlineExit bb thenb)
  else if cfg.isDetour thenb (cfg.thenb thenb) then .rewritten (cfg.shortcutThen bb thenb elseb)
  else if cfg.isDetour elseb (cfg.elseb elseb) then .rewritten (cfg.shortcutElse bb thenb elseb)
  else .kept cfg

def turn (cfg : Graph Binding Loc) (bb : BlockId) : Turn Binding Loc :=
  if bb ≠ cfg.deadBlock ∧ bb ≠ cfg.entry ∧ (cfg.backEdges bb).isEmpty then .removed (cfg.removeBlock bb)
  else rewrite (tidy cfg bb) bb (cfg.thenb bb) (cfg.elseb bb)

-- Where CFGBuilder::simplify is between two turns.
structure Loop (Binding Loc : Type) where
  cfg : Graph Binding Loc
  it : Nat
  changed : Bool

-- One turn, or the next round of the outer loop; nothing once a round has changed nothing.
def Loop.next (s : Loop Binding Loc) : Option (Loop Binding Loc) :=
  match s.cfg.basicBlocks[s.it]? with
  | some bb =>
    match turn s.cfg bb with
    | .removed cfg => some ⟨cfg,s.it,true⟩
    | .rewritten cfg => some ⟨cfg,s.it,true⟩
    | .kept cfg => some ⟨cfg,s.it + 1,s.changed⟩
  | none => if s.changed then some ⟨s.cfg,0,false⟩ else none

def Loop.start (cfg : Graph Binding Loc) : Loop Binding Loc := ⟨cfg,0,false⟩

def Loop.run : Nat → Loop Binding Loc → Option (Graph Binding Loc)
  | 0,_ => none
  | fuel + 1,s =>
    match s.next with
    | some s' => Loop.run fuel s'
    | none => some s.cfg

def simplify (fuel : Nat) (cfg : Graph Binding Loc) : Option (Graph Binding Loc) := Loop.run fuel (Loop.start cfg)

end Cfg
