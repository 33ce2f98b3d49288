import ScipRuby.Infer.Environment
import ScipRuby.Lib.Traces

namespace Infer
open Traces

namespace Environment
variable {Ty Class : Type} (T : TypeOps Ty Class)

abbrev Vars (Ty : Type) := List (LocalRef × VariableState Ty)

-- An iteration over _vars gives every local with its state once, in any order.
structure Enumerates (env : Environment Ty) (vars : Vars Ty) : Prop where
  found : ∀ var state, (var,state) ∈ vars ↔ env.vars var = some state
  once : (vars.map Prod.fst).Nodup

-- The loop of under over the locals of the environment that is left.
def underLoop (bb : BasicBlock) (isNeeded : Bool) : Vars Ty → KnowledgeFact Ty → Option (KnowledgeFact Ty)
  | [],copy => some copy
  | (local_,state) :: rest,copy =>
    if bb.rewrites local_ then underLoop bb isNeeded rest copy
    else do
      let type ← state.type
      match copy.yesTypeTests.find? (·.1 = local_) with
      | none =>
        if isNeeded && !T.isUntyped type && !T.isMetaType type then
          underLoop bb isNeeded rest {copy with yesTypeTests := copy.yesTypeTests ++ [(local_,type)]}
        else underLoop bb isNeeded rest copy
      | some (_,second) => if T.isBottom (T.all type second) then some copy.markDead else underLoop bb isNeeded rest copy

def under (fact : KnowledgeFact Ty) (env : Environment Ty) (vars : Vars Ty) (bb : BasicBlock) (isNeeded : Bool) :
    Option (KnowledgeFact Ty) :=
  if fact.yesTypeTests.isEmpty && !isNeeded then some fact
  else if env.isDead then some fact.markDead
  else underLoop T bb isNeeded vars fact

-- One of the two facts of a local in mergeWith, if the value in the other environment can have it.
def mergeFact (side : Side) (possible : Bool) (other : Environment Ty) (vars : Vars Ty) (bb : BasicBlock) (isNeeded : Bool)
    (fact : KnowledgeFact Ty) (var : LocalRef) (env : Environment Ty) : Option (Environment Ty) :=
  env.when possible fun env => do
    let otherFact ← under T fact other vars bb isNeeded
    env.change var (mergeSide T side var otherFact)

-- The type and the truth of a local in mergeWith.
def mergeState (state : VariableState Ty) (otherInfo : VariableInfo Ty) : Option (VariableState Ty) :=
  match state.type with
  | some type => otherInfo.type.map fun otherType =>
    {state with type := some (T.any type otherType), knownTruthy := state.knownTruthy && otherInfo.knownTruthy}
  | none => some {state with type := otherInfo.type, knownTruthy := otherInfo.knownTruthy}

-- The round of mergeWith for one local.
def mergeVar (isNeeded : LocalRef → Bool) (other : Environment Ty) (vars : Vars Ty) (bb : BasicBlock) (env : Environment Ty)
    (var : LocalRef) : Option (Environment Ty) := do
  let state ← env.vars var
  let otherInfo := other.getRefInfo T var
  let merged ← mergeState T state otherInfo
  let env := env.set var merged
  if bb.rewrites var then some env
  else do
    let otherType ← otherInfo.type
    let canBeFalsy := T.canBeFalsy otherType && !otherInfo.knownTruthy
    let canBeTruthy := T.canBeTruthy otherType
    let env ← mergeFact T .truthy canBeTruthy other vars bb (isNeeded var) otherInfo.knowledge.truthy var env
    mergeFact T .falsy canBeFalsy other vars bb (isNeeded var) otherInfo.knowledge.falsy var env

def mergeWith (isNeeded : LocalRef → Bool) (other : Environment Ty) (vars : Vars Ty) (bb : BasicBlock) (own : List LocalRef)
    (env : Environment Ty) : Option (Environment Ty) :=
  own.foldlM (mergeVar T isNeeded other vars bb) {env with isDead := env.isDead || other.isDead}

-- The round of populateFrom for one local.
def populateVar (other : Environment Ty) (env : Environment Ty) (var : LocalRef) : Option (Environment Ty) := do
  let state ← env.vars var
  let info := other.getRefInfo T var
  let env := env.set var {state with type := info.type}
  let env ← env.change var (replaceKnowledge var info.knowledge)
  let state ← env.vars var
  some (env.set var {state with knownTruthy := info.knownTruthy})

def populateFrom (other : Environment Ty) (own : List LocalRef) (env : Environment Ty) : Option (Environment Ty) :=
  own.foldlM (populateVar T other) {env with isDead := other.isDead}

def cloneFrom (rhs : Environment Ty) : Environment Ty := ⟨rhs.isDead,rhs.vars,rhs.typeTestsWithVar⟩

def setType (var : LocalRef) (type : Option Ty) (env : Environment Ty) : Environment Ty :=
  env.set var {env.state var with type := type}

def setTypeAndOrigin (var : LocalRef) (type : Ty) (env : Environment Ty) : Environment Ty := env.setType var (some type)

-- What follows in processBinding once the type of the value is known.
def processBinding (isNeeded : LocalRef → Bool) (rounds : Nat) (bind : LocalRef) (type : Ty) (value : Instruction Ty)
    (env : Environment Ty) : Option (Environment Ty) := do
  let env ← (env.setTypeAndOrigin bind type).clearKnowledge isNeeded bind
  match value with
  | .send send => env.updateKnowledge T isNeeded rounds bind send
  | .ident what => env.propagateKnowledge T isNeeded bind what
  | .loadArg isBlock declared =>
    env.when (isBlock && declared.isNone && isNeeded bind) fun env =>
      env.change bind (addNoTypeTest .falsy bind bind T.falseClass)
  | .other => some env

def initializeBasicBlockArgs (args : List LocalRef) (env : Environment Ty) : Environment Ty :=
  args.foldl (fun env arg => env.setType arg none) env

def setUninitializedVarsToNil (env : Environment Ty) : Environment Ty :=
  {env with vars := fun var => (env.vars var).map fun state => {state with type := some (state.type.getD T.nilClass)}}

-- The loops of assumeKnowledge over the tests of the chosen fact.
def assumeYes (filter : LocalRef → Bool) : TypeTests Ty → Environment Ty → Option (Environment Ty)
  | [],env => some env
  | (var,tested) :: rest,env =>
    if !filter var then assumeYes filter rest env
    else do
      let type ← (env.getRefInfo T var).type
      let glbbed := T.all type tested
      let env := env.setTypeAndOrigin var glbbed
      if T.isBottom glbbed then some {env with isDead := true} else assumeYes filter rest env

def assumeNo (filter : LocalRef → Bool) : TypeTests Ty → Environment Ty → Option (Environment Ty)
  | [],env => some env
  | (var,tested) :: rest,env =>
    if !filter var then assumeNo filter rest env
    else do
      let type ← (env.getRefInfo T var).type
      if T.isUntyped type then assumeNo filter rest env
      else
        let left := T.approximateSubtract type tested
        let env := env.setTypeAndOrigin var left
        if T.isBottom left then some {env with isDead := true} else assumeNo filter rest env

def assumeTests (fact : KnowledgeFact Ty) (filter : LocalRef → Bool) (env : Environment Ty) : Option (Environment Ty) :=
  if env.isDead then some env
  else do
    let env ← env.assumeYes T filter fact.yesTypeTests
    if env.isDead then some env else env.assumeNo T filter fact.noTypeTests

def assumedType (isTrue_ : Bool) (type : Ty) : Ty :=
  if isTrue_ then T.dropFalsySubtypes type else if T.isUntyped type then T.falsyTypes else T.all type T.falsyTypes

def noteTruth (isTrue_ : Bool) (cond : LocalRef) (env : Environment Ty) : Environment Ty :=
  if isTrue_ then env.set cond {env.state cond with knownTruthy := true} else env

def assumeKnowledge (isTrue_ : Bool) (cond : LocalRef) (filter : LocalRef → Bool) (env : Environment Ty) : Option (Environment Ty) := do
  let info := env.getRefInfo T cond
  if !isTrue_ && info.knownTruthy then some {env with isDead := true}
  else do
    let type ← info.type
    if T.isBottom (assumedType T isTrue_ type) && (isTrue_ || !T.isUntyped type) then some {env with isDead := true}
    else
      let env := (env.setTypeAndOrigin cond (assumedType T isTrue_ type)).noteTruth isTrue_ cond
      env.assumeTests T (info.knowledge.side (if isTrue_ then .truthy else .falsy)) filter

end Environment

-- The functions that change an environment of those that a method has.
inductive Operation (Ty : Type) where
  | propagateKnowledge (to_ from_ : LocalRef)
  | updateKnowledge (rounds : Nat) (local_ : LocalRef) (send : Send Ty)
  | clearKnowledge (reassigned : LocalRef)
  | cloneFrom (rhs : Nat)
  | populateFrom (other : Nat) (own : List LocalRef)
  | mergeWith (other : Nat) (vars : Environment.Vars Ty) (bb : BasicBlock) (own : List LocalRef)
  | processBinding (rounds : Nat) (bind : LocalRef) (type : Ty) (value : Instruction Ty)
  | initializeBasicBlockArgs (args : List LocalRef)
  | setUninitializedVarsToNil
  | assumeKnowledge (isTrue_ : Bool) (cond : LocalRef) (filter : LocalRef → Bool)
  | setDead (isDead : Bool)

section Steps
variable {Ty Class : Type}

-- The locals of an environment, each once, in any order.
structure Locals (env : Environment Ty) (own : List LocalRef) : Prop where
  found : ∀ var, var ∈ own ↔ (env.vars var).isSome = true
  once : own.Nodup

def Operation.Allowed (envs : Nat → Environment Ty) (i : Nat) : Operation Ty → Prop
  | .populateFrom _ own => Locals (envs i) own
  | .mergeWith other vars _ own => Locals (envs i) own ∧ (envs other).Enumerates vars
  | _ => True

def Operation.apply (T : TypeOps Ty Class) (isNeeded : LocalRef → Bool) (envs : Nat → Environment Ty) (env : Environment Ty) :
    Operation Ty → Option (Environment Ty)
  | .propagateKnowledge to_ from_ => env.propagateKnowledge T isNeeded to_ from_
  | .updateKnowledge rounds local_ send => env.updateKnowledge T isNeeded rounds local_ send
  | .clearKnowledge reassigned => env.clearKnowledge isNeeded reassigned
  | .cloneFrom rhs => some (Environment.cloneFrom (envs rhs))
  | .populateFrom other own => Environment.populateFrom T (envs other) own env
  | .mergeWith other vars bb own => Environment.mergeWith T isNeeded (envs other) vars bb own env
  | .processBinding rounds bind type value => env.processBinding T isNeeded rounds bind type value
  | .initializeBasicBlockArgs args => some (env.initializeBasicBlockArgs args)
  | .setUninitializedVarsToNil => some (env.setUninitializedVarsToNil T)
  | .assumeKnowledge isTrue_ cond filter => env.assumeKnowledge T isTrue_ cond filter
  | .setDead isDead => some {env with isDead := isDead}

-- One operation on one of the environments. One that raises leaves none behind.
inductive Step (T : TypeOps Ty Class) (isNeeded : LocalRef → Bool) (envs : Nat → Environment Ty) :
    Nat × Operation Ty → (Nat → Environment Ty) → Prop where
  | apply {i : Nat} {op : Operation Ty} {env : Environment Ty} (allowed : op.Allowed envs i)
      (ran : op.apply T isNeeded envs (envs i) = some env) : Step T isNeeded envs (i,op) (Function.update envs i env)

end Steps
end Infer
