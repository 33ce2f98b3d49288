import Mathlib.Data.List.Basic
import Mathlib.Tactic.Common

namespace Types

abbrev ClassOrModuleRef := Nat
abbrev TypeMemberRef := Nat
abbrev TypeParameterRef := Nat
abbrev NameRef := Nat

-- The classes that the type operations treat by name, under their ids in core/SymbolRef.h.
namespace Symbols
def top : ClassOrModuleRef := 1
def bottom : ClassOrModuleRef := 2
def Object : ClassOrModuleRef := 6
def Integer : ClassOrModuleRef := 7
def Float : ClassOrModuleRef := 8
def String : ClassOrModuleRef := 9
def Symbol : ClassOrModuleRef := 10
def Array : ClassOrModuleRef := 11
def Hash : ClassOrModuleRef := 12
def NilClass : ClassOrModuleRef := 15
def untyped : ClassOrModuleRef := 16
def void : ClassOrModuleRef := 50
def noTypeMember : TypeMemberRef := 0
end Symbols

inductive LiteralKind where
  | string | symbol
  deriving DecidableEq

inductive Variance where
  | coVariant | invariant | contraVariant
  deriving DecidableEq

-- Where a boxed type lives. A node that a modelled function allocates sits at 0, so that it never is
-- one of the nodes the caller passed in; two such nodes are told apart by what they hold.
abbrev Address := Nat

def fresh : Address := 0

-- The constructors of core/Types.h that reach subtyping. Class types, named literals, self types and
-- self type parameters are inlined into the pointer; the others are boxed. A float literal is named by
-- a code that is the same for doubles that compare equal.
inductive Ty where
  | classType (symbol : ClassOrModuleRef)
  | appliedType (address : Address) (klass : ClassOrModuleRef) (targs : List Ty)
  | tupleType (address : Address) (elems : List Ty)
  | shapeType (address : Address) (keys values : List Ty)
  | namedLiteralType (kind : LiteralKind) (name : NameRef)
  | integerLiteralType (address : Address) (value : Int)
  | floatLiteralType (address : Address) (value : Nat)
  | selfTypeParam (definition : Nat)
  | selfType
  | metaType (address : Address) (wrapped : Ty)
  | typeVar (address : Address) (sym : TypeParameterRef)
  | orType (address : Address) (left right : Ty)
  | andType (address : Address) (left right : Ty)

mutual
def Ty.beq : Ty → Ty → Bool
  | .classType a,.classType b => a == b
  | .appliedType p a as,.appliedType q b bs => p == q && a == b && Ty.beqs as bs
  | .tupleType p as,.tupleType q bs => p == q && Ty.beqs as bs
  | .shapeType p ks as,.shapeType q ls bs => p == q && Ty.beqs ks ls && Ty.beqs as bs
  | .namedLiteralType k a,.namedLiteralType l b => k == l && a == b
  | .integerLiteralType p a,.integerLiteralType q b => p == q && a == b
  | .floatLiteralType p a,.floatLiteralType q b => p == q && a == b
  | .selfTypeParam a,.selfTypeParam b => a == b
  | .selfType,.selfType => true
  | .metaType p a,.metaType q b => p == q && Ty.beq a b
  | .typeVar p a,.typeVar q b => p == q && a == b
  | .orType p a as,.orType q b bs => p == q && Ty.beq a b && Ty.beq as bs
  | .andType p a as,.andType q b bs => p == q && Ty.beq a b && Ty.beq as bs
  | _,_ => false
def Ty.beqs : List Ty → List Ty → Bool
  | [],[] => true
  | a :: as,b :: bs => Ty.beq a b && Ty.beqs as bs
  | _,_ => false
end

mutual
theorem Ty.beq_refl : ∀ t : Ty, Ty.beq t t = true
  | .classType _ => by simp [Ty.beq]
  | .appliedType _ _ as => by simp [Ty.beq,Ty.beqs_refl as]
  | .tupleType _ as => by simp [Ty.beq,Ty.beqs_refl as]
  | .shapeType _ ks as => by simp [Ty.beq,Ty.beqs_refl ks,Ty.beqs_refl as]
  | .namedLiteralType _ _ => by simp [Ty.beq]
  | .integerLiteralType _ _ => by simp [Ty.beq]
  | .floatLiteralType _ _ => by simp [Ty.beq]
  | .selfTypeParam _ => by simp [Ty.beq]
  | .selfType => by simp [Ty.beq]
  | .metaType _ a => by simp [Ty.beq,Ty.beq_refl a]
  | .typeVar _ _ => by simp [Ty.beq]
  | .orType _ a b => by simp [Ty.beq,Ty.beq_refl a,Ty.beq_refl b]
  | .andType _ a b => by simp [Ty.beq,Ty.beq_refl a,Ty.beq_refl b]
theorem Ty.beqs_refl : ∀ ts : List Ty, Ty.beqs ts ts = true
  | [] => by simp [Ty.beqs]
  | a :: as => by simp [Ty.beqs,Ty.beq_refl a,Ty.beqs_refl as]
end

mutual
theorem Ty.eq_of_beq : ∀ a b : Ty, Ty.beq a b = true → a = b
  | .classType _,b => by cases b <;> simp_all [Ty.beq]
  | .appliedType _ _ as,b => by
    cases b <;> simp_all [Ty.beq]
    exact fun _ _ => Ty.eq_of_beqs as _
  | .tupleType _ as,b => by
    cases b <;> simp_all [Ty.beq]
    exact fun _ => Ty.eq_of_beqs as _
  | .shapeType _ ks as,b => by
    cases b <;> simp_all [Ty.beq]
    exact fun _ keys values => ⟨Ty.eq_of_beqs ks _ keys,Ty.eq_of_beqs as _ values⟩
  | .namedLiteralType _ _,b => by cases b <;> simp_all [Ty.beq]
  | .integerLiteralType _ _,b => by cases b <;> simp_all [Ty.beq]
  | .floatLiteralType _ _,b => by cases b <;> simp_all [Ty.beq]
  | .selfTypeParam _,b => by cases b <;> simp_all [Ty.beq]
  | .selfType,b => by cases b <;> simp_all [Ty.beq]
  | .metaType _ a,b => by
    cases b <;> simp_all [Ty.beq]
    exact fun _ => Ty.eq_of_beq a _
  | .typeVar _ _,b => by cases b <;> simp_all [Ty.beq]
  | .orType _ a as,b => by
    cases b <;> simp_all [Ty.beq]
    exact fun _ left right => ⟨Ty.eq_of_beq a _ left,Ty.eq_of_beq as _ right⟩
  | .andType _ a as,b => by
    cases b <;> simp_all [Ty.beq]
    exact fun _ left right => ⟨Ty.eq_of_beq a _ left,Ty.eq_of_beq as _ right⟩
theorem Ty.eq_of_beqs : ∀ as bs : List Ty, Ty.beqs as bs = true → as = bs
  | [],bs => by cases bs <;> simp [Ty.beqs]
  | a :: as,bs => by
    cases bs <;> simp [Ty.beqs]
    exact fun head tail => ⟨Ty.eq_of_beq a _ head,Ty.eq_of_beqs as _ tail⟩
end

-- TypePtr::operator== compares the stored words: two boxed types are equal when they are one node.
instance : DecidableEq Ty := fun a b =>
  if equal : Ty.beq a b = true then .isTrue (Ty.eq_of_beq a b equal)
  else .isFalse fun same => equal (same ▸ Ty.beq_refl a)

example : (Ty.orType 1 (.classType 3) (.classType 4) = .orType 2 (.classType 3) (.classType 4)) = False := by decide

-- The order in which lub and glb sort their arguments.
def Ty.kind : Ty → Nat
  | .appliedType _ _ _ => 1
  | .classType _ => 2
  | .integerLiteralType _ _ => 3
  | .floatLiteralType _ _ => 4
  | .namedLiteralType _ _ => 5
  | .shapeType _ _ _ => 6
  | .tupleType _ _ => 7
  | .selfTypeParam _ => 8
  | .metaType _ _ => 9
  | .typeVar _ _ => 10
  | .orType _ _ _ => 12
  | .andType _ _ _ => 13
  | .selfType => 14

def Ty.isUntyped (t : Ty) : Bool := t = .classType Symbols.untyped
def Ty.isBottom (t : Ty) : Bool := t = .classType Symbols.bottom

mutual
def Ty.isFullyDefined : Ty → Bool
  | .typeVar _ _ => false
  | .selfType => false
  | .appliedType _ _ targs => Ty.allFullyDefined targs
  | .tupleType _ elems => Ty.allFullyDefined elems
  | .shapeType _ _ values => Ty.allFullyDefined values
  | .orType _ left right => left.isFullyDefined && right.isFullyDefined
  | .andType _ left right => left.isFullyDefined && right.isFullyDefined
  | _ => true
def Ty.allFullyDefined : List Ty → Bool
  | [] => true
  | t :: ts => t.isFullyDefined && Ty.allFullyDefined ts
end

-- OrType::make_shared and AndType::make_shared.
def orOf (left right : Ty) : Ty := .orType fresh left right
def andOf (left right : Ty) : Ty := .andType fresh left right

def bottom : Ty := .classType Symbols.bottom
def top : Ty := .classType Symbols.top
def untyped : Ty := .classType Symbols.untyped

-- Both are built once and kept in a static variable, so that each is a single node.
def arrayOfUntyped : Ty := .appliedType 1 Symbols.Array [untyped]
def hashOfUntyped : Ty := .appliedType 2 Symbols.Hash [untyped,untyped,untyped]

def arrayOf (elem : Ty) : Ty := .appliedType fresh Symbols.Array [elem]

def LiteralKind.klass : LiteralKind → ClassOrModuleRef
  | .string => Symbols.String
  | .symbol => Symbols.Symbol

-- The class below a literal; no other type has one.
def literalClass : Ty → Option ClassOrModuleRef
  | .namedLiteralType kind _ => some kind.klass
  | .integerLiteralType _ _ => some Symbols.Integer
  | .floatLiteralType _ _ => some Symbols.Float
  | _ => none

def isProxyType : Ty → Bool
  | .namedLiteralType _ _ => true
  | .integerLiteralType _ _ => true
  | .floatLiteralType _ _ => true
  | .shapeType _ _ _ => true
  | .tupleType _ _ => true
  | _ => false

def dropLiteral (t : Ty) : Ty := (literalClass t).elim t .classType

-- NamedLiteralType::equals, IntegerLiteralType::equals and FloatLiteralType::equals.
def literalEquals : Ty → Ty → Bool
  | .namedLiteralType k a,.namedLiteralType l b => k == l && a == b
  | .integerLiteralType _ a,.integerLiteralType _ b => a == b
  | .floatLiteralType _ a,.floatLiteralType _ b => a == b
  | _,_ => false

-- ShapeType::indexForKey.
def indexForKey (keys : List Ty) (key : Ty) : Option Nat := keys.findIdx? fun candidate => literalEquals candidate key

-- The part of the symbol table that types are compared under. The order in rank is what makes the
-- ancestry acyclic. The bounds are those of the LambdaParam of a type member; a type parameter of a
-- method has none.
structure GlobalState where
  superClass : ClassOrModuleRef → Option ClassOrModuleRef
  mixins : ClassOrModuleRef → List ClassOrModuleRef
  isLinearizationComputed : ClassOrModuleRef → Bool
  isModule : ClassOrModuleRef → Bool
  isFinal : ClassOrModuleRef → Bool
  typeMembers : ClassOrModuleRef → List TypeMemberRef
  name : TypeMemberRef → NameRef
  variance : TypeMemberRef → Variance
  bounds : Nat → Option (Ty × Ty)
  isSCIPRuby : Bool
  rank : ClassOrModuleRef → Nat
  superClass_rank : ∀ c p, superClass c = some p → rank p < rank c
  mixins_rank : ∀ c m, m ∈ mixins c → rank m < rank c

namespace GlobalState

def isClass (gs : GlobalState) (c : ClassOrModuleRef) : Bool := !gs.isModule c

def derivesFromWithin (gs : GlobalState) : Nat → ClassOrModuleRef → ClassOrModuleRef → Bool
  | 0,_,_ => false
  | depth + 1,c,sym =>
    ((gs.mixins c).any fun a => a == sym || (!gs.isLinearizationComputed c && gs.derivesFromWithin depth a sym)) ||
      (gs.superClass c).any fun parent => sym == parent || gs.derivesFromWithin depth parent sym

-- No chain of ancestors is longer than the rank it starts from.
def derivesFrom (gs : GlobalState) (c sym : ClassOrModuleRef) : Bool := gs.derivesFromWithin (gs.rank c + 1) c sym

theorem derivesFromWithin_enough (gs : GlobalState) {n m : Nat} (c sym : ClassOrModuleRef) (large : gs.rank c < n)
    (larger : gs.rank c < m) : gs.derivesFromWithin n c sym = gs.derivesFromWithin m c sym := by
  induction n generalizing c m with
  | zero => omega
  | succ n ih =>
    obtain ⟨m,rfl⟩ : ∃ k, m = k + 1 := ⟨m - 1,by omega⟩
    have mixed : ∀ a ∈ gs.mixins c, gs.derivesFromWithin n a sym = gs.derivesFromWithin m a sym := by
      intro a present
      have lower := gs.mixins_rank c a present
      exact ih a (by omega) (by omega)
    have above : ∀ p, gs.superClass c = some p → gs.derivesFromWithin n p sym = gs.derivesFromWithin m p sym := by
      intro p parent
      have lower := gs.superClass_rank c p parent
      exact ih p (by omega) (by omega)
    simp only [derivesFromWithin]
    congr 1
    · refine Bool.eq_iff_iff.mpr ?_
      simp only [List.any_eq_true]
      exact exists_congr fun a => and_congr_right fun present => by rw [mixed a present]
    · cases parent : gs.superClass c with
      | none => rfl
      | some p => simp only [Option.any_some,above p parent]

-- ClassOrModule::derivesFrom as the source writes it.
theorem derivesFrom_eq (gs : GlobalState) (c sym : ClassOrModuleRef) :
    gs.derivesFrom c sym =
      (((gs.mixins c).any fun a => a == sym || (!gs.isLinearizationComputed c && gs.derivesFrom a sym)) ||
        (gs.superClass c).any fun parent => sym == parent || gs.derivesFrom parent sym) := by
  rw [derivesFrom,derivesFromWithin]
  congr 1
  · refine Bool.eq_iff_iff.mpr ?_
    simp only [List.any_eq_true]
    refine exists_congr fun a => and_congr_right fun present => ?_
    have lower := gs.mixins_rank c a present
    rw [derivesFrom,gs.derivesFromWithin_enough a sym lower (Nat.lt_succ_self _)]
  · cases parent : gs.superClass c with
    | none => rfl
    | some p =>
      have lower := gs.superClass_rank c p parent
      simp only [Option.any_some]
      rw [derivesFrom,gs.derivesFromWithin_enough p sym lower (Nat.lt_succ_self _)]

def classSymbolIsAsGoodAs (gs : GlobalState) (c1 c2 : ClassOrModuleRef) : Bool := c1 == c2 || gs.derivesFrom c1 c2

-- Types::alignBaseTypeArgs: for each type member of asIf, the member of what that stands for it.
def alignBaseTypeArgs (gs : GlobalState) (what : ClassOrModuleRef) (targs : List Ty) (asIf : ClassOrModuleRef) :
    List TypeMemberRef :=
  if targs = [] then []
  else if what = asIf ∨ (gs.isClass asIf ∧ gs.isClass what ∧
      (gs.typeMembers asIf).length = (gs.typeMembers what).length) then gs.typeMembers what
  else (gs.typeMembers asIf).map fun original =>
    ((gs.typeMembers what).find? fun x => gs.name x == gs.name original).getD Symbols.noTypeMember

end GlobalState

end Types
