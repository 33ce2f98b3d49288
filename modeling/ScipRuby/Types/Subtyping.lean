import ScipRuby.Lib.OpenRecursion
import ScipRuby.Types.Type

namespace Types
open OpenRecursion

inductive UntypedMode where
  | alwaysCompatible | alwaysIncompatible
  deriving DecidableEq

-- The functions of core/types/subtyping.cc that call one another. Subtyping is asked under
-- EmptyFrozenConstraint, as Types::isSubType and Types::isAsSpecificAs ask it.
inductive Query where
  | sub (mode : UntypedMode) (t1 t2 : Ty)
  | single (mode : UntypedMode) (t1 t2 : Ty)
  | lub (t1 t2 : Ty)
  | glb (t1 t2 : Ty)
  deriving DecidableEq

@[reducible] def Answer : Query → Type
  | .sub _ _ _ => Bool
  | .single _ _ _ => Bool
  | .lub _ _ => Ty
  | .glb _ _ => Ty

abbrev Eval := Body Query Answer

def isSubTypeUnderConstraint (mode : UntypedMode) (t1 t2 : Ty) : Eval Bool := ask (Query.sub mode t1 t2)
def isSubTypeUnderConstraintSingle (mode : UntypedMode) (t1 t2 : Ty) : Eval Bool := ask (Query.single mode t1 t2)
def lub (t1 t2 : Ty) : Eval Ty := ask (Query.lub t1 t2)
def glb (t1 t2 : Ty) : Eval Ty := ask (Query.glb t1 t2)

def isSubType (t1 t2 : Ty) : Eval Bool := isSubTypeUnderConstraint .alwaysCompatible t1 t2
def isAsSpecificAs (t1 t2 : Ty) : Eval Bool := isSubTypeUnderConstraint .alwaysIncompatible t1 t2

-- Types::any and Types::all add debug checks only.
def any (t1 t2 : Ty) : Eval Ty := lub t1 t2
def all (t1 t2 : Ty) : Eval Ty := glb t1 t2

-- The operators && and ||, which leave their right operand alone when the left one decides.
def andAlso (left right : Eval Bool) : Eval Bool := left >>= fun holds => if holds then right else pure false
def orElse (left right : Eval Bool) : Eval Bool := left >>= fun holds => if holds then pure true else right

-- equivUnderConstraint compares under AlwaysCompatible, equivNoUntypedUnderConstraint under the other mode.
def equivInMode (mode : UntypedMode) (t1 t2 : Ty) : Eval Bool :=
  andAlso (isSubTypeUnderConstraint mode t1 t2) (isSubTypeUnderConstraint mode t2 t1)
def equiv (t1 t2 : Ty) : Eval Bool := equivInMode .alwaysCompatible t1 t2

section Casts
def asClass : Ty → Option ClassOrModuleRef
  | .classType symbol => some symbol
  | _ => none
def asApplied : Ty → Option (ClassOrModuleRef × List Ty)
  | .appliedType _ klass targs => some (klass,targs)
  | _ => none
def asOr : Ty → Option (Ty × Ty)
  | .orType _ left right => some (left,right)
  | _ => none
def asAnd : Ty → Option (Ty × Ty)
  | .andType _ left right => some (left,right)
  | _ => none
def asMeta : Ty → Option Ty
  | .metaType _ wrapped => some wrapped
  | _ => none
def asSelfTypeParam : Ty → Option Nat
  | .selfTypeParam definition => some definition
  | _ => none
def asTuple : Ty → Option (List Ty)
  | .tupleType _ elems => some elems
  | _ => none
def asShape : Ty → Option (List Ty × List Ty)
  | .shapeType _ keys values => some (keys,values)
  | _ => none
def isTypeVar : Ty → Bool
  | .typeVar _ _ => true
  | _ => false
def isComposite (t : Ty) : Bool := (asOr t).isSome || (asAnd t).isSome
end Casts

def lubAllFrom (acc : Ty) : List Ty → Eval Ty
  | [] => pure acc
  | el :: elements => lub acc el >>= fun joined => lubAllFrom joined elements

def lubAll (elements : List Ty) : Eval Ty := lubAllFrom bottom elements

-- TypePtr::underlying, which only proxies have.
def proxyUnderlying (t : Ty) : Eval Ty :=
  match asTuple t with
  | some [] => pure arrayOfUntyped
  | some elems => lubAll elems >>= fun joined => pure (arrayOf (dropLiteral joined))
  | none =>
    match asShape t with
    | some _ => pure hashOfUntyped
    | none =>
      match literalClass t with
      | some klass => pure (.classType klass)
      | none => .stuck

-- The free function underlying of subtyping.cc.
def underlying (t : Ty) : Eval Ty := if isProxyType t then proxyUnderlying t else pure t

section SubType
variable (gs : GlobalState)

-- (A | B) & C as (A & C) | (B & C), if one side of the intersection is a union.
def distributeAnd (t : Ty) : Option (Ty × Ty) :=
  (asAnd t).bind fun (left,right) =>
    let l := if (asOr right).isSome then right else left
    let r := if (asOr right).isSome then left else right
    (asOr l).map fun (a,b) => (andOf a r,andOf b r)

-- (A & B) | C as (A | C) & (B | C), if one side of the union is an intersection.
def distributeOr (t : Ty) : Option (Ty × Ty) :=
  (asOr t).bind fun (left,right) =>
    let l := if (asAnd right).isSome then right else left
    let r := if (asAnd right).isSome then left else right
    (asAnd l).map fun (a,b) => (orOf a r,orOf b r)

-- The fallback for a self type parameter whose upper bound is a union or an intersection.
def throughUpperBound (mode : UntypedMode) (t1 t2 : Ty) (otherwise : Eval Bool) : Eval Bool :=
  match asSelfTypeParam t1 with
  | none => otherwise
  | some definition =>
    match gs.bounds definition with
    | some (_,upperBound) => if isComposite upperBound then isSubTypeUnderConstraint mode upperBound t2 else pure false
    | none => pure false

def throughLowerBound (mode : UntypedMode) (t1 t2 : Ty) : Eval Bool :=
  match asSelfTypeParam t2 with
  | none => pure false
  | some definition =>
    match gs.bounds definition with
    | some (lowerBound,_) => if isComposite lowerBound then isSubTypeUnderConstraint mode t1 lowerBound else pure false
    | none => pure false

-- An intersection on the left, with nothing left to distribute.
def splitAnd (mode : UntypedMode) (left right t1 t2 : Ty) : Eval Bool :=
  isSubTypeUnderConstraint mode left t2 >>= fun leftIsSubType =>
    if leftIsSubType && !(t2.isUntyped && left.isFullyDefined && !right.isFullyDefined) then pure true
    else orElse (isSubTypeUnderConstraint mode right t2) (throughLowerBound gs mode t1 t2)

-- A union on the right; only an intersection on the left gets another chance.
def splitOr (mode : UntypedMode) (left right t1 t2 : Ty) : Eval Bool :=
  isSubTypeUnderConstraint mode t1 left >>= fun leftIsSubType =>
    if leftIsSubType && !(t1.isUntyped && left.isFullyDefined && !right.isFullyDefined) then pure true
    else orElse (isSubTypeUnderConstraint mode t1 right)
      (throughUpperBound gs mode t1 t2
        (match asAnd t1 with
        | none => pure false
        | some (a,b) => splitAnd gs mode a b t1 t2))

-- Types::isSubTypeUnderConstraint.
def stepSub (mode : UntypedMode) (t1 t2 : Ty) : Eval Bool :=
  if t1 = t2 then pure true else
  match asOr t1 with
  | some (left,right) => andAlso (isSubTypeUnderConstraint mode left t2) (isSubTypeUnderConstraint mode right t2)
  | none =>
  match asAnd t2 with
  | some (left,right) => andAlso (isSubTypeUnderConstraint mode t1 left) (isSubTypeUnderConstraint mode t1 right)
  | none =>
  match distributeAnd t1 with
  | some (left,right) => andAlso (isSubTypeUnderConstraint mode left t2) (isSubTypeUnderConstraint mode right t2)
  | none =>
  match distributeOr t2 with
  | some (left,right) => andAlso (isSubTypeUnderConstraint mode t1 left) (isSubTypeUnderConstraint mode t1 right)
  | none =>
  match asOr t2 with
  | some (left,right) => splitOr gs mode left right t1 t2
  | none =>
  match asAnd t1 with
  | some (left,right) => splitAnd gs mode left right t1 t2
  | none => isSubTypeUnderConstraintSingle mode t1 t2

-- How one type argument is compared under the variance that the supertype declares.
def argumentMatches (mode : UntypedMode) (variance : Variance) (a1i a2j : Ty) : Eval Bool :=
  match variance with
  | .coVariant => isSubTypeUnderConstraint mode a1i a2j
  | .invariant => equivInMode mode a1i a2j
  | .contraVariant => isSubTypeUnderConstraint mode a2j a1i

-- The loop over the type members of the supertype. A member that the subtype does not declare ends it
-- with the result so far; reading past the end of a vector is undefined.
def argumentsMatch (mode : UntypedMode) (members1 : List TypeMemberRef) (targs1 : List Ty) :
    List TypeMemberRef → List TypeMemberRef → List Ty → Eval Bool
  | [],_,_ => pure true
  | idx :: members2,index :: indexes,targs2 =>
    if members1 = [] then .stuck else
    match members1.idxOf? index with
    | none => pure true
    | some i =>
      match targs1[i]?,targs2 with
      | some a1i,a2j :: targs2 =>
        andAlso (argumentMatches mode (gs.variance idx) a1i a2j)
          (argumentsMatch mode members1 targs1 members2 indexes targs2)
      | _,_ => .stuck
  | _ :: _,[],_ => .stuck

def elemsMatch (mode : UntypedMode) : List Ty → List Ty → Eval Bool
  | _,[] => pure true
  | a :: as,b :: bs => andAlso (isSubTypeUnderConstraint mode a b) (elemsMatch mode as bs)
  | [],_ :: _ => .stuck

def valuesMatch (mode : UntypedMode) (keys1 values1 : List Ty) : List Ty → List Ty → Eval Bool
  | [],_ => pure true
  | key :: keys2,values2 =>
    match indexForKey keys1 key with
    | none => pure false
    | some i =>
      match values1[i]?,values2 with
      | some a,b :: values2 => andAlso (isSubTypeUnderConstraint mode a b) (valuesMatch mode keys1 values1 keys2 values2)
      | _,_ => .stuck

def proxiesMatch (mode : UntypedMode) (t1 t2 : Ty) : Eval Bool :=
  match asTuple t1,asTuple t2 with
  | some elems1,some elems2 => if elems2.length ≤ elems1.length then elemsMatch mode elems1 elems2 else pure false
  | _,_ =>
    match asShape t1,asShape t2 with
    | some (keys1,values1),some (keys2,values2) =>
      if keys2.length ≤ keys1.length then valuesMatch mode keys1 values1 keys2 values2 else pure false
    | _,_ => pure (literalEquals t1 t2)

def singleAmongClasses (mode : UntypedMode) (t1 t2 : Ty) : Eval Bool :=
  match asApplied t1,asApplied t2 with
  | some (klass1,targs1),some (klass2,targs2) =>
    if gs.classSymbolIsAsGoodAs klass1 klass2 then
      argumentsMatch gs mode (gs.typeMembers klass1) targs1 (gs.typeMembers klass2)
        (gs.alignBaseTypeArgs klass1 targs1 klass2) targs2
    else pure false
  | some (klass1,_),none =>
    match asClass t2 with
    | some c2 => pure (gs.classSymbolIsAsGoodAs klass1 c2)
    | none => pure false
  | none,some _ =>
    if isProxyType t1 then proxyUnderlying t1 >>= fun und => isSubTypeUnderConstraint mode und t2 else pure false
  | none,none =>
    if isProxyType t1 then
      if isProxyType t2 then proxiesMatch mode t1 t2
      else proxyUnderlying t1 >>= fun und => isSubTypeUnderConstraintSingle mode und t2
    else if isProxyType t2 then pure false
    else
      match asClass t1,asClass t2 with
      | some c1,some c2 => pure (gs.classSymbolIsAsGoodAs c1 c2)
      | _,_ => .stuck

def singleSelfTypeParam (mode : UntypedMode) (t1 t2 : Ty) (otherwise : Eval Bool) : Eval Bool :=
  match asSelfTypeParam t1,asSelfTypeParam t2 with
  | none,none => otherwise
  | none,some definition2 =>
    match gs.bounds definition2 with
    | some (lowerBound,_) => isSubTypeUnderConstraint mode t1 lowerBound
    | none => pure false
  | some definition1,none =>
    match gs.bounds definition1 with
    | some (_,upperBound) => isSubTypeUnderConstraint mode upperBound t2
    | none => pure false
  | some definition1,some definition2 =>
    if definition1 = definition2 then pure true
    else
      match gs.bounds definition1,gs.bounds definition2 with
      | some (_,upperBound),some (lowerBound,_) => isSubTypeUnderConstraint mode upperBound lowerBound
      | _,_ => pure false

def singleMeta (mode : UntypedMode) (t1 t2 : Ty) (otherwise : Eval Bool) : Eval Bool :=
  match asMeta t1,asMeta t2 with
  | some wrapped1,some wrapped2 => equiv wrapped1 wrapped2
  | some _,none => isSubTypeUnderConstraintSingle mode (.classType Symbols.Object) t2
  | none,some _ => pure false
  | none,none => otherwise

-- isSubTypeUnderConstraintSingle. An empty solved constraint knows no bound of a type variable, so that
-- isAlreadyASubType puts the top type for one on the left and the bottom type for one on the right.
def stepSingle (mode : UntypedMode) (t1 t2 : Ty) : Eval Bool :=
  if t1 = t2 then pure true
  else if isTypeVar t1 then isSubType top t2
  else if isTypeVar t2 then isSubType t1 bottom
  else if t1 = untyped then pure (mode = .alwaysCompatible)
  else if t1 = bottom then pure true
  else if t1 = top then pure (t2 = top ∨ t2 = .classType Symbols.void ∨ t2 = untyped)
  else if t2 = untyped then pure (mode = .alwaysCompatible)
  else if t2 = bottom then pure false
  else if t2 = top ∨ t2 = .classType Symbols.void then pure true
  else singleSelfTypeParam gs mode t1 t2
    (if t1 = .selfType ∨ t2 = .selfType then pure false
    else singleMeta mode t1 t2 (singleAmongClasses gs mode t1 t2))

end SubType

end Types
