import Mathlib.Data.Finset.Card
import Mathlib.Logic.Function.Basic
import Mathlib.Logic.Relation

namespace Ancestry

abbrev ClassOrModuleRef := Nat
abbrev NameRef := Nat
abbrev SymbolRef := Nat

-- The superclasses of symbols that could not be resolved.
def StubModule : ClassOrModuleRef := 43
def StubSuperClass : ClassOrModuleRef := 46

structure ClassOrModule where
  superClass : Option ClassOrModuleRef
  mixins : List ClassOrModuleRef
  isModule : Bool
  isLinearizationComputed : Bool
  members : NameRef → Option SymbolRef

-- dealias follows the alias that a member may be, to a symbol that exists.
structure GlobalState where
  classAndModules : ClassOrModuleRef → ClassOrModule
  classAndModulesUsed : Nat
  dealias : SymbolRef → SymbolRef

namespace GlobalState
variable (gs : GlobalState)

def superClass (c : ClassOrModuleRef) : Option ClassOrModuleRef := (gs.classAndModules c).superClass
def mixins (c : ClassOrModuleRef) : List ClassOrModuleRef := (gs.classAndModules c).mixins
def isModule (c : ClassOrModuleRef) : Bool := (gs.classAndModules c).isModule
def isLinearizationComputed (c : ClassOrModuleRef) : Bool := (gs.classAndModules c).isLinearizationComputed

def setMixins (c : ClassOrModuleRef) (mixins : List ClassOrModuleRef) (computed : Bool) : GlobalState :=
  let data := {gs.classAndModules c with mixins := mixins,isLinearizationComputed := computed}
  {gs with classAndModules := Function.update gs.classAndModules c data}

-- The source recurses without a bound; nothing is returned when the fuel runs out.
def derivesFrom : Nat → ClassOrModuleRef → ClassOrModuleRef → Option Bool
  | 0,_,_ => none
  | fuel + 1,c,sym =>
    let mixedIn :=
      if gs.isLinearizationComputed c then some (decide (sym ∈ gs.mixins c))
      else (gs.mixins c).anyM fun a => if a = sym then some true else derivesFrom fuel a sym
    mixedIn.bind fun mixedIn =>
      if mixedIn then some true
      else
        match gs.superClass c with
        | none => some false
        | some superClass => if sym = superClass then some true else derivesFrom fuel superClass sym

-- The symbol that does not exist, which a parent may be, derives from nothing. Nothing is returned where the source
-- raises an exception because of a loop.
def maybeAddMixin (fuel : Nat) (forSym : ClassOrModuleRef) (parent : Option ClassOrModuleRef) :
    List ClassOrModuleRef × Nat → ClassOrModuleRef → Option (List ClassOrModuleRef × Nat)
  | (mixinList,pos),mixin =>
    if forSym = mixin then none
    else
      (parent.elim (some false) fun parent => gs.derivesFrom fuel parent mixin).map fun derived =>
        if derived then (mixinList,pos)
        else if mixin ∈ mixinList then
          let newPos := mixinList.idxOf mixin
          (mixinList,if newPos ≥ pos then newPos + 1 else pos)
        else (mixinList.insertIdx pos mixin,pos + 1)

end GlobalState

abbrev Compute := GlobalState → ClassOrModuleRef → Option GlobalState

abbrev FullLinearization :=
  GlobalState → ClassOrModuleRef → List ClassOrModuleRef → Option (GlobalState × List ClassOrModuleRef)

-- What one mixin adds to the new list.
def linearizeMixin (compute : Compute) (full : FullLinearization) (fuel : Nat) (ofClass : ClassOrModuleRef)
    (superClass : Option ClassOrModuleRef) :
    GlobalState × List ClassOrModuleRef → ClassOrModuleRef → Option (GlobalState × List ClassOrModuleRef)
  | (gs,newMixins),mixin =>
    if superClass = some mixin then some (gs,newMixins)
    else if gs.superClass mixin = some StubSuperClass ∨ gs.superClass mixin = some StubModule then
      some (gs,newMixins ++ [mixin])
    else
      (compute gs mixin).bind fun gs =>
        if gs.isModule mixin then
          ((mixin :: gs.mixins mixin).foldlM (gs.maybeAddMixin fuel ofClass superClass) (newMixins,0)).map
            fun (newMixins,_) => (gs,newMixins)
        else (full gs mixin []).map fun (gs,allMixins) => (gs,allMixins ++ newMixins)

def fullLinearizationMixin (compute : Compute) (full : FullLinearization) :
    GlobalState × List ClassOrModuleRef → ClassOrModuleRef → Option (GlobalState × List ClassOrModuleRef)
  | (gs,acc),m =>
    if m ∈ acc then some (gs,acc)
    else if gs.isModule m then some (gs,acc ++ [m])
    else (compute gs m).bind fun gs => full gs m acc

mutual

def computeClassLinearization : Nat → GlobalState → ClassOrModuleRef → Option GlobalState
  | 0,_,_ => none
  | fuel + 1,gs,ofClass =>
    if gs.isLinearizationComputed ofClass then some gs
    else
      let superClass := gs.superClass ofClass
      (superClass.elim (some gs) (computeClassLinearization fuel gs)).bind fun gs =>
        ((gs.mixins ofClass).foldlM (linearizeMixin (computeClassLinearization fuel) (fullLinearizationSlowImpl fuel)
          fuel ofClass superClass) (gs,[])).map fun (gs,newMixins) => gs.setMixins ofClass newMixins true

def fullLinearizationSlowImpl : Nat → GlobalState → ClassOrModuleRef → List ClassOrModuleRef →
    Option (GlobalState × List ClassOrModuleRef)
  | 0,_,_,_ => none
  | fuel + 1,gs,klass,acc =>
    ((gs.mixins klass).foldlM (fullLinearizationMixin (computeClassLinearization fuel) (fullLinearizationSlowImpl fuel))
      (gs,acc ++ [klass])).bind fun (gs,acc) =>
        match gs.superClass klass with
        | none => some (gs,acc)
        | some superClass =>
          if superClass ∈ acc then some (gs,acc)
          else (computeClassLinearization fuel gs superClass).bind fun gs =>
            fullLinearizationSlowImpl fuel gs superClass acc

end

-- The loop over the symbols, in the order of their table or in any other.
def computeLinearization (fuel : Nat) (order : List ClassOrModuleRef) (gs : GlobalState) : Option GlobalState :=
  order.foldlM (computeClassLinearization fuel) gs

namespace GlobalState
variable (gs : GlobalState)

-- A place in the list, if one is given, holds a placeholder.
def addMixinAt (c sym : ClassOrModuleRef) (index : Option Nat) : List ClassOrModuleRef :=
  match index with
  | some i => (gs.mixins c).set i sym
  | none => gs.mixins c ++ [sym]

-- Whether the source takes sym for a valid mixin, which only its callers look at, is left out.
def addMixin (fuel : Nat) (c sym : ClassOrModuleRef) (index : Option Nat) : Option GlobalState :=
  if !gs.isLinearizationComputed c then some (gs.setMixins c (gs.addMixinAt c sym index) false)
  else if gs.superClass c = some sym ∨ sym ∈ gs.mixins c then some gs
  else
    ((gs.superClass c).elim (some false) fun parent => gs.derivesFrom fuel parent sym).map fun derived =>
      if derived then gs else gs.setMixins c (gs.addMixinAt c sym index) false

def findMember (c : ClassOrModuleRef) (name : NameRef) : Option SymbolRef :=
  ((gs.classAndModules c).members name).map gs.dealias

end GlobalState

-- The search gives up with an exception at maxDepth, which it takes for a loop.
inductive Lookup where
  | found (symbol : SymbolRef)
  | missing
  | loop
  deriving DecidableEq,Repr

namespace GlobalState
variable (gs : GlobalState)

def findMemberTransitiveInternal (name : NameRef) : Nat → ClassOrModuleRef → Lookup
  | 0,_ => .loop
  | maxDepth + 1,c =>
    match gs.findMember c name with
    | some symbol => .found symbol
    | none =>
      let inMixins : Lookup :=
        if gs.isLinearizationComputed c then
          match (gs.mixins c).findSome? (gs.findMember · name) with
          | some symbol => .found symbol
          | none => .missing
        else
          (gs.mixins c).reverse.foldl (fun result mixin =>
            match result with
            | .missing => findMemberTransitiveInternal name maxDepth mixin
            | _ => result) .missing
      match inMixins with
      | .missing =>
        match gs.superClass c with
        | none => .missing
        | some superClass => findMemberTransitiveInternal name maxDepth superClass
      | result => result

def findMemberTransitive (c : ClassOrModuleRef) (name : NameRef) : Lookup := gs.findMemberTransitiveInternal name 100 c

end GlobalState

end Ancestry
