import Mathlib.Logic.Function.Basic
import ScipRuby.Lib.ReverseIndex

namespace Infer
open ReverseIndex

-- cfg::LocalRef by its id
abbrev LocalRef := Nat

-- What environment.cc asks of core::Types and of the class a type stands for.
structure TypeOps (Ty Class : Type) where
  isUntyped : Ty → Bool
  isBottom : Ty → Bool
  isMetaType : Ty → Bool
  canBeFalsy : Ty → Bool
  canBeTruthy : Ty → Bool
  any : Ty → Ty → Ty
  all : Ty → Ty → Ty
  approximateSubtract : Ty → Ty → Ty
  dropFalsySubtypes : Ty → Ty
  nilClass : Ty
  falseClass : Ty
  falsyTypes : Ty
  bottom : Ty
  getRepresentedClass : Ty → Option Class
  externalType : Class → Ty
  isFinal : Class → Bool
  isModule : Class → Bool
  tModule : Ty → Ty
  isSingleton : Ty → Bool → Bool
  isClassOrAppliedType : Ty → Bool
  derivesFromModule : Ty → Bool
  -- The argument of a T::Class or T::Module, the upper bound behind a SelfTypeParam, the elements of a tuple.
  attachedClass : Ty → Option Ty
  upperBound : Ty → Option Ty
  tupleElems : Ty → Option (List Ty)

structure TypeTestReverseIndex where
  index : LocalRef → Option (List LocalRef)

namespace TypeTestReverseIndex

def get (index : TypeTestReverseIndex) (from_ : LocalRef) : List LocalRef := (index.index from_).getD []

def replace (index : TypeTestReverseIndex) (from_ : LocalRef) (list : List LocalRef) : TypeTestReverseIndex :=
  ⟨Function.update index.index from_ (some list)⟩

def addToIndex (index : TypeTestReverseIndex) (from_ to_ : LocalRef) : TypeTestReverseIndex :=
  index.replace from_ (insertSorted (index.get from_) to_)

end TypeTestReverseIndex

abbrev TypeTests (Ty : Type) := List (LocalRef × Ty)

-- A KnowledgeRef copies the fact that it shares before it changes it, so that references behave as values.
structure KnowledgeFact (Ty : Type) where
  isDead : Bool
  yesTypeTests : TypeTests Ty
  noTypeTests : TypeTests Ty

section Facts
variable {Ty Class : Type} (T : TypeOps Ty Class)

-- The loop of min over the entries of one list.
def minTests (combine : Ty → Ty → Ty) (other : TypeTests Ty) : TypeTests Ty → TypeTests Ty
  | [] => []
  | (local_,type) :: rest =>
    match other.find? (·.1 = local_) with
    | none => minTests combine other rest
    | some (_,found) => (local_,combine found type) :: minTests combine other rest

def KnowledgeFact.min (fact other : KnowledgeFact Ty) : KnowledgeFact Ty :=
  {fact with
    yesTypeTests := minTests T.any other.yesTypeTests fact.yesTypeTests
    noTypeTests := minTests T.all other.noTypeTests fact.noTypeTests}

variable {T}

def KnowledgeFact.markDead (fact : KnowledgeFact Ty) : KnowledgeFact Ty := {fact with isDead := true}

def typeTestReferencesVar (tests : TypeTests Ty) (var : LocalRef) : Bool := tests.any (·.1 = var)

def KnowledgeFact.removeReferencesToVar (fact : KnowledgeFact Ty) (var : LocalRef) : KnowledgeFact Ty :=
  if typeTestReferencesVar fact.yesTypeTests var || typeTestReferencesVar fact.noTypeTests var then
    {fact with
      yesTypeTests := fact.yesTypeTests.filter (·.1 ≠ var)
      noTypeTests := fact.noTypeTests.filter (·.1 ≠ var)}
  else fact

-- The locals that a fact tests.
def KnowledgeFact.tests (fact : KnowledgeFact Ty) : List LocalRef :=
  fact.yesTypeTests.map Prod.fst ++ fact.noTypeTests.map Prod.fst

end Facts

structure TestedKnowledge (Ty : Type) where
  truthy : KnowledgeFact Ty
  falsy : KnowledgeFact Ty
  seenTruthyOption : Bool
  seenFalsyOption : Bool

def KnowledgeFact.empty {Ty : Type} : KnowledgeFact Ty := ⟨false,[],[]⟩
def TestedKnowledge.empty {Ty : Type} : TestedKnowledge Ty := ⟨KnowledgeFact.empty,KnowledgeFact.empty,false,false⟩

-- Which of the two facts of a TestedKnowledge.
inductive Side where
  | truthy
  | falsy

namespace TestedKnowledge
variable {Ty Class : Type}

def side (knowledge : TestedKnowledge Ty) : Side → KnowledgeFact Ty
  | .truthy => knowledge.truthy
  | .falsy => knowledge.falsy

def setSide (knowledge : TestedKnowledge Ty) (fact : KnowledgeFact Ty) : Side → TestedKnowledge Ty
  | .truthy => {knowledge with truthy := fact}
  | .falsy => {knowledge with falsy := fact}

def seen (knowledge : TestedKnowledge Ty) : Side → Bool
  | .truthy => knowledge.seenTruthyOption
  | .falsy => knowledge.seenFalsyOption

def setSeen (knowledge : TestedKnowledge Ty) : Side → TestedKnowledge Ty
  | .truthy => {knowledge with seenTruthyOption := true}
  | .falsy => {knowledge with seenFalsyOption := true}

def tests (knowledge : TestedKnowledge Ty) : List LocalRef := knowledge.truthy.tests ++ knowledge.falsy.tests

end TestedKnowledge

-- A change of the knowledge of one local together with the index.
abbrev Change (Ty : Type) := TestedKnowledge Ty → TypeTestReverseIndex → TestedKnowledge Ty × TypeTestReverseIndex

section Changes
variable {Ty Class : Type}

def addYesTypeTest (side : Side) (of ref : LocalRef) (type : Ty) : Change Ty := fun knowledge index =>
  let fact := knowledge.side side
  (knowledge.setSide {fact with yesTypeTests := fact.yesTypeTests ++ [(ref,type)]} side,index.addToIndex ref of)

def addNoTypeTest (side : Side) (of ref : LocalRef) (type : Ty) : Change Ty := fun knowledge index =>
  let fact := knowledge.side side
  (knowledge.setSide {fact with noTypeTests := fact.noTypeTests ++ [(ref,type)]} side,index.addToIndex ref of)

def addEntries (of : LocalRef) (tests : TypeTests Ty) (index : TypeTestReverseIndex) : TypeTestReverseIndex :=
  tests.foldl (fun index entry => index.addToIndex entry.1 of) index

def replaceSide (side : Side) (of : LocalRef) (fact : KnowledgeFact Ty) : Change Ty := fun knowledge index =>
  (knowledge.setSide fact side,addEntries of fact.noTypeTests (addEntries of fact.yesTypeTests index))

def replaceTruthy (of : LocalRef) (newTruthy : KnowledgeFact Ty) : Change Ty := replaceSide .truthy of newTruthy
def replaceFalsy (of : LocalRef) (newFalsy : KnowledgeFact Ty) : Change Ty := replaceSide .falsy of newFalsy

def Change.andThen (first second : Change Ty) : Change Ty := fun knowledge index =>
  let changed := first knowledge index
  second changed.1 changed.2

def replaceSeen (other : TestedKnowledge Ty) : Change Ty := fun knowledge index =>
  ({knowledge with seenTruthyOption := other.seenTruthyOption, seenFalsyOption := other.seenFalsyOption},index)

def replaceKnowledge (of : LocalRef) (other : TestedKnowledge Ty) : Change Ty :=
  (replaceSeen other).andThen ((replaceFalsy of other.falsy).andThen (replaceTruthy of other.truthy))

def removeReferencesToVar (var : LocalRef) : Change Ty := fun knowledge index =>
  ({knowledge with
    truthy := knowledge.truthy.removeReferencesToVar var
    falsy := knowledge.falsy.removeReferencesToVar var},index)

def minSide (T : TypeOps Ty Class) (side : Side) (other : KnowledgeFact Ty) : Change Ty := fun knowledge index =>
  (knowledge.setSide ((knowledge.side side).min T other) side,index)

-- How mergeWith takes over one fact of the other environment.
def mergeSide (T : TypeOps Ty Class) (side : Side) (of : LocalRef) (other : KnowledgeFact Ty) : Change Ty := fun knowledge index =>
  if other.isDead then (knowledge,index)
  else if knowledge.seen side then minSide T side other knowledge index
  else replaceSide side of other (knowledge.setSeen side) index

end Changes
end Infer
