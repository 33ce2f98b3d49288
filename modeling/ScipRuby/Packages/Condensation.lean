import Mathlib.Algebra.Group.Nat.Defs
import Mathlib.Data.List.Basic
import Mathlib.Logic.Function.Basic

namespace Packages

inductive ImportType where
  | Normal
  | TestUnit
  | TestHelper
  deriving DecidableEq

-- A node of the condensation. imports is a set, here in the order in which it was filled.
structure Node (Name : Type) where
  members : List Name
  imports : List Nat
  backEdges : List Nat
  id : Nat
  isTest : Bool
  isPrelude : Bool

-- nodes_, where the id of a node is its index.
abbrev Condensation (Name : Type) := List (Node Name)

variable {Name : Type}

namespace CondensationBuilder

-- The node that pushNode appends. It is filled in before the next one.
def pushNode (nodes : Condensation Name) (type : ImportType) (isPrelude : Bool) : Node Name :=
  ⟨[],[],[],nodes.length,type ≠ .Normal,isPrelude⟩

def pushBackEdge (nodes : Condensation Name) (id imp : Nat) : Condensation Name :=
  nodes.modify imp fun node => {node with backEdges := node.backEdges ++ [id]}

def build (nodes : Condensation Name) : Condensation Name :=
  nodes.foldl (fun nodes' node => node.imports.foldl (fun nodes' imp => pushBackEdge nodes' node.id imp) nodes') nodes

end CondensationBuilder

namespace Condensation
variable (nodes : Condensation Name) (i : Nat)

def imports : List Nat := nodes[i]?.elim [] Node.imports
def backEdges : List Nat := nodes[i]?.elim [] Node.backEdges
def members : List Name := nodes[i]?.elim [] Node.members
def isTest : Bool := nodes[i]?.elim false Node.isTest
def isPrelude : Bool := nodes[i]?.elim false Node.isPrelude

end Condensation

structure SCCInfo (Name : Type) where
  isTest : Bool
  members : List Name

-- The spans of packages and sccs as the lists they cover.
structure Traversal (Name : Type) where
  packages : List Name
  sccs : List (SCCInfo Name)
  strata : List (List (SCCInfo Name))

-- remainingImports holds values of uint32_t. underflow says whether ENFORCE(remaining > 0), which only debug
-- builds check, has failed.
structure TraversalBuilder (Name : Type) where
  remainingImports : Nat → Nat
  sccLengths : List Nat
  stratumLengths : List Nat
  packages : List Name
  isTest : List Bool
  underflow : Bool

structure Roots where
  prelude : List Nat
  roots : List Nat

namespace TraversalBuilder

def start : TraversalBuilder Name := ⟨fun _ => 0,[],[],[],[],false⟩

def seed (b : TraversalBuilder Name) (found : Roots) (node : Node Name) : TraversalBuilder Name × Roots :=
  if node.isPrelude then
    ({b with remainingImports := Function.update b.remainingImports node.id 0},
      {found with prelude := found.prelude ++ [node.id]})
  else
    let numImports := node.imports.length
    ({b with remainingImports := Function.update b.remainingImports node.id (numImports % 2 ^ 32)},
      if numImports = 0 then {found with roots := found.roots ++ [node.id]} else found)

def roots (nodes : Condensation Name) (b : TraversalBuilder Name) : TraversalBuilder Name × Roots :=
  nodes.foldl (fun acc node => seed acc.1 acc.2 node) (b,⟨[],[]⟩)

-- One less, as uint32_t.
def decrement (remaining : Nat) : Nat := (remaining + (2 ^ 32 - 1)) % 2 ^ 32

-- One import of dep is satisfied.
def satisfy (nodes : Condensation Name) (preludeStratum : Bool) (acc : TraversalBuilder Name × List Nat) (dep : Nat) :
    TraversalBuilder Name × List Nat :=
  let (b,next) := acc
  if preludeStratum && nodes.isPrelude dep then (b,next)
  else
    let remaining := decrement (b.remainingImports dep)
    ({b with remainingImports := Function.update b.remainingImports dep remaining,
             underflow := b.underflow || b.remainingImports dep == 0},
      if remaining ≤ 0 then next ++ [dep] else next)

def recordScc (nodes : Condensation Name) (preludeStratum : Bool) (acc : TraversalBuilder Name × List Nat) (sccId : Nat) :
    TraversalBuilder Name × List Nat :=
  let (b,next) := acc
  let b := {b with packages := b.packages ++ nodes.members sccId,isTest := b.isTest ++ [nodes.isTest sccId],
                   sccLengths := b.sccLengths ++ [(nodes.members sccId).length]}
  (nodes.backEdges sccId).foldl (satisfy nodes preludeStratum) (b,next)

def recordStratum (nodes : Condensation Name) (preludeStratum : Bool) (b : TraversalBuilder Name) (stratum next : List Nat) :
    TraversalBuilder Name × List Nat :=
  stratum.foldl (recordScc nodes preludeStratum) ({b with stratumLengths := b.stratumLengths ++ [stratum.length]},next)

-- Consecutive spans of the given lengths.
def spans {α : Type} (l : List α) : Nat → List Nat → List (List α)
  | _,[] => []
  | offset,length :: lengths => (l.drop offset).take length :: spans l (offset + length) lengths

def build (b : TraversalBuilder Name) : Traversal Name :=
  let sccs := List.zipWith SCCInfo.mk b.isTest (spans b.packages 0 b.sccLengths)
  ⟨b.packages,sccs,spans sccs 0 b.stratumLengths⟩

-- The strata after the prelude one.
def recordRest (nodes : Condensation Name) : Nat → TraversalBuilder Name → List Nat → Option (TraversalBuilder Name)
  | 0,_,_ => none
  | fuel + 1,b,roots =>
    if roots.isEmpty then some b
    else
      let (b,next) := recordStratum nodes false b roots []
      recordRest nodes fuel b next

-- The builder when computeTraversal has recorded its last stratum.
def recordAll (fuel : Nat) (nodes : Condensation Name) : Option (TraversalBuilder Name) :=
  let (b,found) := roots nodes start
  let (b,ready) := if found.prelude.isEmpty then (b,found.roots) else recordStratum nodes true b found.prelude found.roots
  recordRest nodes fuel b ready

end TraversalBuilder

def Condensation.computeTraversal (fuel : Nat) (nodes : Condensation Name) : Option (Traversal Name) :=
  (TraversalBuilder.recordAll fuel nodes).map TraversalBuilder.build

end Packages
