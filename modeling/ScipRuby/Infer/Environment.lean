import ScipRuby.Infer.Knowledge

namespace Infer

-- The origins of a type and the pinned types decide nothing about knowledge and are left out.
structure VariableState (Ty : Type) where
  type : Option Ty
  knowledge : TestedKnowledge Ty
  knownTruthy : Bool

def VariableState.fresh {Ty : Type} : VariableState Ty := ⟨none,TestedKnowledge.empty,false⟩

structure Environment (Ty : Type) where
  isDead : Bool
  vars : LocalRef → Option (VariableState Ty)
  typeTestsWithVar : TypeTestReverseIndex

-- The block into which an environment is merged, with what cfg knows of the locals.
structure BasicBlock where
  isLoopHeader : Bool
  outerLoops : Int
  maxLoopWrite : LocalRef → Int

def BasicBlock.rewrites (bb : BasicBlock) (var : LocalRef) : Bool := bb.isLoopHeader && bb.outerLoops ≤ bb.maxLoopWrite var

inductive FunName where
  | bang
  | blank_p
  | eqeq
  | equal_p
  | isA_p
  | kindOf_p
  | instanceOf_p
  | leq
  | lessThan
  | neq
  | nil_p
  | present_p
  | tripleEq
  | checkMatchArray
  | other
deriving DecidableEq

def FunName.isUpdateKnowledgeName : FunName → Bool
  | .other => false
  | _ => true

structure Send (Ty : Type) where
  fun_ : FunName
  recv : LocalRef
  recvType : Ty
  args : List (LocalRef × Ty)

inductive Instruction (Ty : Type) where
  | send (send : Send Ty)
  | ident (what : LocalRef)
  | loadArg (isBlock : Bool) (type : Option Ty)
  | other

namespace Environment
variable {Ty Class : Type}

def fresh : Environment Ty := ⟨false,fun _ => none,⟨fun _ => none⟩⟩

def set (env : Environment Ty) (var : LocalRef) (state : VariableState Ty) : Environment Ty :=
  {env with vars := Function.update env.vars var (some state)}

-- _vars[var], which enters a state where there is none.
def state (env : Environment Ty) (var : LocalRef) : VariableState Ty := (env.vars var).getD .fresh

-- A change of the knowledge that getKnowledge finds.
def change (env : Environment Ty) (var : LocalRef) (f : Change Ty) : Option (Environment Ty) :=
  (env.vars var).map fun state =>
    let changed := f state.knowledge env.typeTestsWithVar
    {env.set var {state with knowledge := changed.1} with typeTestsWithVar := changed.2}

variable (T : TypeOps Ty Class)

structure VariableInfo (Ty : Type) where
  type : Option Ty
  knowledge : TestedKnowledge Ty
  knownTruthy : Bool

def getRefInfo (env : Environment Ty) (var : LocalRef) : VariableInfo Ty :=
  match env.vars var with
  | none => ⟨some T.nilClass,TestedKnowledge.empty,false⟩
  | some state => ⟨state.type,state.knowledge,state.knownTruthy⟩

-- The state of a local whose missing type is filled in.
def fillNil (env : Environment Ty) (var : LocalRef) : Environment Ty :=
  let state := env.state var
  env.set var {state with type := some (state.type.getD T.nilClass)}

def propagateKnowledge (isNeeded : LocalRef → Bool) (to_ from_ : LocalRef) (env : Environment Ty) : Option (Environment Ty) :=
  if isNeeded to_ && isNeeded from_ then do
    let env := env.set from_ (env.state from_)
    let env := env.set to_ {env.state to_ with knownTruthy := (env.state from_).knownTruthy}
    let env := (env.fillNil T from_).fillNil T to_
    let env ← env.change to_ (replaceKnowledge to_ (env.state from_).knowledge)
    let env ← env.change to_ (addNoTypeTest .truthy to_ from_ T.falsyTypes)
    let env ← env.change to_ (addYesTypeTest .falsy to_ from_ T.falsyTypes)
    let env ← env.change from_ (addNoTypeTest .truthy from_ to_ T.falsyTypes)
    env.change from_ (addYesTypeTest .falsy from_ to_ T.falsyTypes)
  else some env

-- The loop of clearKnowledge over the list of the reassigned local.
def clearLoop (isNeeded : LocalRef → Bool) (reassigned : LocalRef) :
    List LocalRef → Environment Ty → List LocalRef → Option (Environment Ty × List LocalRef)
  | [],env,replacement => some (env,replacement)
  | var :: rest,env,replacement =>
    if isNeeded var then do
      let env ← env.change var (removeReferencesToVar reassigned)
      clearLoop isNeeded reassigned rest env replacement
    else clearLoop isNeeded reassigned rest env (replacement ++ [var])

def forgetTruth (reassigned : LocalRef) (env : Environment Ty) : Option (Environment Ty) :=
  (env.vars reassigned).map fun state => env.set reassigned {state with knownTruthy := false}

def clearKnowledge (isNeeded : LocalRef → Bool) (reassigned : LocalRef) (env : Environment Ty) : Option (Environment Ty) := do
  let typesWithReassigned := env.typeTestsWithVar.get reassigned
  if typesWithReassigned.isEmpty then env.forgetTruth reassigned
  else
    let (env,replacement) ← clearLoop isNeeded reassigned typesWithReassigned env []
    forgetTruth reassigned {env with typeTestsWithVar := env.typeTestsWithVar.replace reassigned replacement}

def when (condition : Bool) (action : Environment Ty → Option (Environment Ty)) (env : Environment Ty) : Option (Environment Ty) :=
  if condition then action env else some env

-- Upper bounds are followed for at most the given number of rounds.
def updateKnowledgeKindOf (local_ ref : LocalRef) (fun_ : FunName) :
    (rounds : Nat) → (klassType : Ty) → Environment Ty → Option (Environment Ty)
  | 0,_,_ => none
  | rounds+1,klassType,env => do
    let _ ← env.vars local_
    match T.getRepresentedClass klassType with
    | some klass =>
      let ty := T.externalType klass
      if T.isUntyped ty then some env
      else do
        let env ← env.change local_ (addYesTypeTest .truthy local_ ref ty)
        env.when (fun_ ≠ .instanceOf_p || T.isFinal klass) fun env => env.change local_ (addNoTypeTest .falsy local_ ref ty)
    | none =>
      match T.attachedClass klassType with
      | some instanceTy =>
        env.when (!T.isUntyped instanceTy) fun env => env.change local_ (addYesTypeTest .truthy local_ ref instanceTy)
      | none =>
        match T.upperBound klassType with
        | some upperBound => updateKnowledgeKindOf local_ ref fun_ rounds upperBound env
        | none => some env

def updateBang (local_ recv : LocalRef) (env : Environment Ty) : Option (Environment Ty) := do
  let env ← env.when (env.vars recv).isSome fun env => do
    let env ← env.change local_ (replaceTruthy local_ (env.state recv).knowledge.falsy)
    let env ← env.change local_ (replaceFalsy local_ (env.state recv).knowledge.truthy)
    let env ← env.change recv (addYesTypeTest .truthy recv local_ T.falsyTypes)
    env.change recv (addNoTypeTest .falsy recv local_ T.falsyTypes)
  let env ← env.change local_ (addYesTypeTest .truthy local_ recv T.falsyTypes)
  env.change local_ (addNoTypeTest .falsy local_ recv T.falsyTypes)

-- What a comparison tells of one of its sides, from the type of the other.
def updateEq (local_ : LocalRef) (truthy falsy : Side) (tested : LocalRef) (type : Ty) (env : Environment Ty) :
    Option (Environment Ty) :=
  env.when (!T.isUntyped type) fun env => do
    let env ← env.change local_ (addYesTypeTest truthy local_ tested type)
    env.when (T.isSingleton type true) fun env => env.change local_ (addNoTypeTest falsy local_ tested type)

def updateLess (local_ recv : LocalRef) (recvType argType : Ty) (isLeq : Bool) (env : Environment Ty) : Option (Environment Ty) :=
  if T.isUntyped argType || !T.isClassOrAppliedType argType || !T.derivesFromModule recvType then some env
  else
    match T.getRepresentedClass argType with
    | none => some env
    | some argSym => do
      let isModule := T.isModule argSym
      let type := if isModule then T.tModule (T.externalType argSym) else argType
      let env ← env.change local_ (addYesTypeTest .truthy local_ recv type)
      env.when (isLeq && !isModule) fun env => env.change local_ (addNoTypeTest .falsy local_ recv type)

-- The type test of a match against a list of classes and values.
def matchArrayType : List Ty → Ty → Option Ty
  | [],typeTestType => some typeTestType
  | klassType :: rest,typeTestType =>
    match T.getRepresentedClass klassType with
    | some klass =>
      let ty := T.externalType klass
      if T.isUntyped ty then none else matchArrayType rest (T.any typeTestType ty)
    | none => if T.isSingleton klassType false then matchArrayType rest (T.any typeTestType klassType) else none

def updateMatchArray (local_ ref : LocalRef) (matched : Ty) (env : Environment Ty) : Option (Environment Ty) :=
  match (T.tupleElems matched).bind fun elems => matchArrayType T elems T.bottom with
  | none => some env
  | some typeTestType => do
    let env ← env.change local_ (addYesTypeTest .truthy local_ ref typeTestType)
    env.change local_ (addNoTypeTest .falsy local_ ref typeTestType)

def updateKnowledge (isNeeded : LocalRef → Bool) (rounds : Nat) (local_ : LocalRef) (send : Send Ty) (env : Environment Ty) :
    Option (Environment Ty) :=
  if !send.fun_.isUpdateKnowledgeName || !isNeeded local_ then some env
  else do
    let _ ← env.vars local_
    match send.fun_,send.args with
    | .bang,_ => env.updateBang T local_ send.recv
    | .nil_p,_ => do
      let env ← env.change local_ (addYesTypeTest .truthy local_ send.recv T.nilClass)
      env.change local_ (addNoTypeTest .falsy local_ send.recv T.nilClass)
    | .blank_p,_ => env.change local_ (addNoTypeTest .falsy local_ send.recv T.falsyTypes)
    | .present_p,_ => env.change local_ (addNoTypeTest .truthy local_ send.recv T.falsyTypes)
    | _,[] => some env
    | .kindOf_p,(_,klassType) :: _ => env.updateKnowledgeKindOf T local_ send.recv .kindOf_p rounds klassType
    | .isA_p,(_,klassType) :: _ => env.updateKnowledgeKindOf T local_ send.recv .isA_p rounds klassType
    | .instanceOf_p,(_,klassType) :: _ => env.updateKnowledgeKindOf T local_ send.recv .instanceOf_p rounds klassType
    | .eqeq,(arg0,argType) :: _ => do
      let env ← env.updateEq T local_ .truthy .falsy send.recv argType
      env.updateEq T local_ .truthy .falsy arg0 send.recvType
    | .equal_p,(arg0,argType) :: _ => do
      let env ← env.updateEq T local_ .truthy .falsy send.recv argType
      env.updateEq T local_ .truthy .falsy arg0 send.recvType
    | .neq,(arg0,argType) :: _ => do
      let env ← env.updateEq T local_ .falsy .truthy send.recv argType
      env.updateEq T local_ .falsy .truthy arg0 send.recvType
    | .tripleEq,(ref,_) :: _ => do
      let env ← env.updateKnowledgeKindOf T local_ ref .tripleEq rounds send.recvType
      env.when (T.isSingleton send.recvType false) fun env => do
        let env ← env.change local_ (addYesTypeTest .truthy local_ ref send.recvType)
        env.change local_ (addNoTypeTest .falsy local_ ref send.recvType)
    | .lessThan,(_,argType) :: _ => env.updateLess T local_ send.recv send.recvType argType false
    | .leq,(_,argType) :: _ => env.updateLess T local_ send.recv send.recvType argType true
    | .checkMatchArray,(ref,_) :: (_,matched) :: _ => env.updateMatchArray T local_ ref matched
    -- The second type is read behind the end.
    | .checkMatchArray,[_] => none
    | .other,_ => some env

end Environment
end Infer
