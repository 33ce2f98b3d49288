import ScipRuby.Types.UnionLayer

namespace Types
open OpenRecursion UnionIntersection

-- Well-formed types of classes, applied types, tuples, literals, unions and intersections.
mutual
def Plain (gs : GlobalState) : Ty → Prop
  | .classType _ => True
  | .namedLiteralType _ _ => True
  | .integerLiteralType _ _ => True
  | .floatLiteralType _ _ => True
  | .appliedType _ klass targs => targs.length = (gs.typeMembers klass).length ∧ PlainAll gs targs
  | .tupleType _ elems => PlainAll gs elems
  | .orType _ left right => Plain gs left ∧ Plain gs right
  | .andType _ left right => Plain gs left ∧ Plain gs right
  | _ => False
def PlainAll (gs : GlobalState) : List Ty → Prop
  | [] => True
  | t :: ts => Plain gs t ∧ PlainAll gs ts
end

mutual
def Ty.depth : Ty → Nat
  | .appliedType _ _ targs => Ty.depths targs + 1
  | .tupleType _ elems => Ty.depths elems + 1
  | .orType _ left right => max left.depth right.depth
  | .andType _ left right => max left.depth right.depth
  | _ => 0
def Ty.depths : List Ty → Nat
  | [] => 0
  | t :: ts => max t.depth (Ty.depths ts)
end

-- Applied types of some classes only, where a tuple counts as an array.
mutual
def Ty.AppliedIn (S : ClassOrModuleRef → Prop) : Ty → Prop
  | .appliedType _ klass targs => S klass ∧ Ty.AllAppliedIn S targs
  | .tupleType _ elems => S Symbols.Array ∧ Ty.AllAppliedIn S elems
  | .orType _ left right => left.AppliedIn S ∧ right.AppliedIn S
  | .andType _ left right => left.AppliedIn S ∧ right.AppliedIn S
  | _ => True
def Ty.AllAppliedIn (S : ClassOrModuleRef → Prop) : List Ty → Prop
  | [] => True
  | t :: ts => t.AppliedIn S ∧ Ty.AllAppliedIn S ts
end

theorem plainAll_iff {gs : GlobalState} {ts : List Ty} : PlainAll gs ts ↔ ∀ t ∈ ts, Plain gs t := by
  induction ts with
  | nil => simp [PlainAll]
  | cons t ts ih => simp [PlainAll,ih]

theorem allAppliedIn_iff {S : ClassOrModuleRef → Prop} {ts : List Ty} :
    Ty.AllAppliedIn S ts ↔ ∀ t ∈ ts, t.AppliedIn S := by
  induction ts with
  | nil => simp [Ty.AllAppliedIn]
  | cons t ts ih => simp [Ty.AllAppliedIn,ih]

theorem depths_le_iff {ts : List Ty} {d : Nat} : Ty.depths ts ≤ d ↔ ∀ t ∈ ts, t.depth ≤ d := by
  induction ts with
  | nil => simp [Ty.depths]
  | cons t ts ih => simp only [Ty.depths,Nat.max_le,ih,List.forall_mem_cons]

-- A plain type over some generic classes with at most d applied types and tuples inside one another.
structure Within (gs : GlobalState) (S : ClassOrModuleRef → Prop) (d : Nat) (t : Ty) : Prop where
  plain : Plain gs t
  applied : t.AppliedIn S
  deep : t.depth ≤ d

def IsLeaf (t : Ty) : Prop := asOr t = none ∧ asAnd t = none

def WithinLeaf (gs : GlobalState) (S : ClassOrModuleRef → Prop) (d : Nat) (t : Ty) : Prop := Within gs S d t ∧ IsLeaf t

section Within
variable {gs : GlobalState} {S : ClassOrModuleRef → Prop} {d : Nat} {t l r : Ty} {p : Address} {c : ClassOrModuleRef}
  {ts : List Ty}

theorem Within.mono {d' : Nat} (within : Within gs S d t) (deep : d ≤ d') : Within gs S d' t :=
  ⟨within.plain,within.applied,Nat.le_trans within.deep deep⟩

theorem within_class : Within gs S d (.classType c) := ⟨by simp [Plain],by simp [Ty.AppliedIn],by simp [Ty.depth]⟩

theorem within_or : Within gs S d (.orType p l r) ↔ Within gs S d l ∧ Within gs S d r := by
  constructor
  · rintro ⟨plain,applied,deep⟩
    simp only [Plain,Ty.AppliedIn,Ty.depth,Nat.max_le] at plain applied deep
    exact ⟨⟨plain.1,applied.1,deep.1⟩,plain.2,applied.2,deep.2⟩
  · rintro ⟨left,right⟩
    refine ⟨?_,?_,?_⟩
    · simpa only [Plain] using And.intro left.plain right.plain
    · simpa only [Ty.AppliedIn] using And.intro left.applied right.applied
    · simpa only [Ty.depth,Nat.max_le] using And.intro left.deep right.deep

theorem within_and : Within gs S d (.andType p l r) ↔ Within gs S d l ∧ Within gs S d r := by
  constructor
  · rintro ⟨plain,applied,deep⟩
    simp only [Plain,Ty.AppliedIn,Ty.depth,Nat.max_le] at plain applied deep
    exact ⟨⟨plain.1,applied.1,deep.1⟩,plain.2,applied.2,deep.2⟩
  · rintro ⟨left,right⟩
    refine ⟨?_,?_,?_⟩
    · simpa only [Plain] using And.intro left.plain right.plain
    · simpa only [Ty.AppliedIn] using And.intro left.applied right.applied
    · simpa only [Ty.depth,Nat.max_le] using And.intro left.deep right.deep

theorem within_applied : Within gs S d (.appliedType p c ts) ↔
    ts.length = (gs.typeMembers c).length ∧ S c ∧ 0 < d ∧ ∀ t ∈ ts, Within gs S (d - 1) t := by
  constructor
  · rintro ⟨plain,applied,deep⟩
    simp only [Plain,Ty.AppliedIn,Ty.depth,plainAll_iff,allAppliedIn_iff] at plain applied deep
    refine ⟨plain.1,applied.1,by omega,fun t present => ⟨plain.2 t present,applied.2 t present,?_⟩⟩
    exact depths_le_iff.mp (by omega) t present
  · rintro ⟨length,klass,positive,inside⟩
    have deep : Ty.depths ts ≤ d - 1 := depths_le_iff.mpr fun t present => (inside t present).deep
    refine ⟨?_,?_,by simp only [Ty.depth]; omega⟩
    · simpa only [Plain,plainAll_iff] using And.intro length fun t present => (inside t present).plain
    · simpa only [Ty.AppliedIn,allAppliedIn_iff] using And.intro klass fun t present => (inside t present).applied

theorem within_tuple : Within gs S d (.tupleType p ts) ↔ S Symbols.Array ∧ 0 < d ∧ ∀ t ∈ ts, Within gs S (d - 1) t := by
  constructor
  · rintro ⟨plain,applied,deep⟩
    simp only [Plain,Ty.AppliedIn,Ty.depth,plainAll_iff,allAppliedIn_iff] at plain applied deep
    refine ⟨applied.1,by omega,fun t present => ⟨plain t present,applied.2 t present,?_⟩⟩
    exact depths_le_iff.mp (by omega) t present
  · rintro ⟨array,positive,inside⟩
    have deep : Ty.depths ts ≤ d - 1 := depths_le_iff.mpr fun t present => (inside t present).deep
    refine ⟨?_,?_,by simp only [Ty.depth]; omega⟩
    · simpa only [Plain,plainAll_iff] using fun t present => (inside t present).plain
    · simpa only [Ty.AppliedIn,allAppliedIn_iff] using And.intro array fun t present => (inside t present).applied

theorem within_over : Within gs S d t ↔ Over (WithinLeaf gs S d) t := by
  induction t using tree.induct with
  | case1 p l r left right => rw [within_or,over_or,left,right]
  | case2 p l r left right => rw [within_and,over_and,left,right]
  | case3 t noOr noAnd =>
    have leaf : IsLeaf t := by cases t <;> simp_all [IsLeaf,asOr,asAnd]
    simp only [Over,tree_leaf leaf.1 leaf.2,Compound.leaves,List.mem_singleton,forall_eq]
    exact ⟨fun within => ⟨within,leaf⟩,fun both => both.1⟩

mutual
theorem appliedIn_any : ∀ t : Ty, t.AppliedIn fun _ => True
  | .appliedType _ _ ts => by simpa only [Ty.AppliedIn,true_and] using allAppliedIn_any ts
  | .tupleType _ ts => by simpa only [Ty.AppliedIn,true_and] using allAppliedIn_any ts
  | .orType _ l r => by simpa only [Ty.AppliedIn] using And.intro (appliedIn_any l) (appliedIn_any r)
  | .andType _ l r => by simpa only [Ty.AppliedIn] using And.intro (appliedIn_any l) (appliedIn_any r)
  | .classType _ | .shapeType _ _ _ | .namedLiteralType _ _ | .integerLiteralType _ _ | .floatLiteralType _ _
  | .selfTypeParam _ | .selfType | .metaType _ _ | .typeVar _ _ => by simp only [Ty.AppliedIn]
theorem allAppliedIn_any : ∀ ts : List Ty, Ty.AllAppliedIn (fun _ => True) ts
  | [] => by simp only [Ty.AllAppliedIn]
  | t :: ts => by simpa only [Ty.AllAppliedIn] using And.intro (appliedIn_any t) (allAppliedIn_any ts)
end

theorem Plain.within (plain : Plain gs t) : Within gs (fun _ => True) t.depth t :=
  ⟨plain,appliedIn_any t,Nat.le_refl _⟩

end Within

-- The four forms of a plain leaf.
inductive LeafForm (gs : GlobalState) : Ty → Prop where
  | klass (c) : LeafForm gs (.classType c)
  | literal (t c) : literalClass t = some c → LeafForm gs t
  | applied (p c ts) : ts.length = (gs.typeMembers c).length → LeafForm gs (.appliedType p c ts)
  | tuple (p ts) : LeafForm gs (.tupleType p ts)

theorem plain_form {gs : GlobalState} {t : Ty} (plain : Plain gs t) (leaf : IsLeaf t) : LeafForm gs t := by
  obtain ⟨noOr,noAnd⟩ := leaf
  cases t with
  | classType c => exact .klass c
  | namedLiteralType => exact .literal _ _ rfl
  | integerLiteralType => exact .literal _ _ rfl
  | floatLiteralType => exact .literal _ _ rfl
  | appliedType p c ts => exact .applied p c ts (by simpa only [Plain] using plain.1)
  | tupleType p ts => exact .tuple p ts
  | orType => cases noOr
  | andType => cases noAnd
  | shapeType | selfTypeParam | selfType | metaType | typeVar => simp only [Plain] at plain

theorem WithinLeaf.form {gs : GlobalState} {S : ClassOrModuleRef → Prop} {d : Nat} {t : Ty}
    (within : WithinLeaf gs S d t) : LeafForm gs t := plain_form within.1.plain within.2

section Leaf
variable {gs : GlobalState} {mode : UntypedMode} {t t1 t2 : Ty} {c : ClassOrModuleRef}

theorem LeafForm.simple (form : LeafForm gs t) :
    isTypeVar t = false ∧ asSelfTypeParam t = none ∧ t ≠ .selfType ∧ asMeta t = none := by
  cases form with
  | literal t c literal => cases t <;> simp_all [literalClass,isTypeVar,asSelfTypeParam,asMeta]
  | _ => simp [isTypeVar,asSelfTypeParam,asMeta]

theorem proxy_simple (proxy : isProxyType t = true) : asApplied t = none ∧ asClass t = none := by
  cases t <;> simp_all [isProxyType,asApplied,asClass]

theorem literal_simple (literal : literalClass t = some c) :
    isProxyType t = true ∧ asTuple t = none ∧ asShape t = none := by
  cases t <;> simp_all [literalClass,asTuple,asShape,isProxyType]

theorem proxyUnderlying_literal (literal : literalClass t = some c) : proxyUnderlying t = pure (.classType c) := by
  obtain ⟨_,noTuple,noShape⟩ := literal_simple literal
  simp only [proxyUnderlying,noTuple,noShape,literal]

-- The classes that a rule treats by name come first; what is left is compared by form.
theorem stepSingle_plain (left : LeafForm gs t1) (right : LeafForm gs t2) :
    stepSingle gs mode t1 t2 =
      if t1 = t2 then pure true
      else if t1 = untyped then pure (mode = .alwaysCompatible)
      else if t1 = bottom then pure true
      else if t1 = top then pure (t2 = top ∨ t2 = .classType Symbols.void ∨ t2 = untyped)
      else if t2 = untyped then pure (mode = .alwaysCompatible)
      else if t2 = bottom then pure false
      else if t2 = top ∨ t2 = .classType Symbols.void then pure true
      else singleAmongClasses gs mode t1 t2 := by
  obtain ⟨var1,param1,self1,meta1⟩ := left.simple
  obtain ⟨var2,param2,self2,meta2⟩ := right.simple
  simp only [stepSingle,var1,var2,singleSelfTypeParam,param1,param2,self1,self2,or_self,singleMeta,meta1,meta2,
    Bool.false_eq_true,if_false]

section Among
variable {p q : Address} {c1 c2 : ClassOrModuleRef} {targs1 targs2 : List Ty}

theorem among_classes : singleAmongClasses gs mode (.classType c1) (.classType c2) =
    pure (gs.classSymbolIsAsGoodAs c1 c2) := rfl

theorem among_class_applied : singleAmongClasses gs mode (.classType c1) (.appliedType q c2 targs2) = pure false := rfl

theorem among_applied_class : singleAmongClasses gs mode (.appliedType p c1 targs1) (.classType c2) =
    pure (gs.classSymbolIsAsGoodAs c1 c2) := rfl

theorem among_applied : singleAmongClasses gs mode (.appliedType p c1 targs1) (.appliedType q c2 targs2) =
    if gs.classSymbolIsAsGoodAs c1 c2 then
      argumentsMatch gs mode (gs.typeMembers c1) targs1 (gs.typeMembers c2) (gs.alignBaseTypeArgs c1 targs1 c2) targs2
    else pure false := rfl

theorem among_class_proxy (proxy : isProxyType t2 = true) :
    singleAmongClasses gs mode (.classType c1) t2 = pure false := by
  obtain ⟨noApplied,_⟩ := proxy_simple proxy
  simp only [singleAmongClasses,noApplied,proxy]
  rfl

theorem among_applied_proxy (proxy : isProxyType t2 = true) :
    singleAmongClasses gs mode (.appliedType p c1 targs1) t2 = pure false := by
  obtain ⟨noApplied,noClass⟩ := proxy_simple proxy
  simp only [singleAmongClasses,noApplied,noClass]
  rfl

theorem among_proxy_class (proxy : isProxyType t1 = true) : singleAmongClasses gs mode t1 (.classType c2) =
    proxyUnderlying t1 >>= fun und => isSubTypeUnderConstraintSingle mode und (.classType c2) := by
  obtain ⟨noApplied,_⟩ := proxy_simple proxy
  simp only [singleAmongClasses,noApplied,proxy]
  rfl

theorem among_proxy_applied (proxy : isProxyType t1 = true) : singleAmongClasses gs mode t1 (.appliedType q c2 targs2) =
    proxyUnderlying t1 >>= fun und => isSubTypeUnderConstraint mode und (.appliedType q c2 targs2) := by
  obtain ⟨noApplied,_⟩ := proxy_simple proxy
  simp only [singleAmongClasses,noApplied,proxy]
  rfl

theorem among_proxies (left : isProxyType t1 = true) (right : isProxyType t2 = true) :
    singleAmongClasses gs mode t1 t2 = proxiesMatch mode t1 t2 := by
  simp only [singleAmongClasses,(proxy_simple left).1,(proxy_simple right).1,left,right,if_true]

theorem proxiesMatch_tuples {elems1 elems2 : List Ty} :
    proxiesMatch mode (.tupleType p elems1) (.tupleType q elems2) =
      if elems2.length ≤ elems1.length then elemsMatch mode elems1 elems2 else pure false := rfl

theorem proxiesMatch_literal_left (literal : literalClass t1 = some c1) :
    proxiesMatch mode t1 t2 = pure (literalEquals t1 t2) := by
  obtain ⟨_,noTuple,noShape⟩ := literal_simple literal
  simp only [proxiesMatch,noTuple,noShape]

theorem proxiesMatch_literal_right (literal : literalClass t2 = some c2) :
    proxiesMatch mode t1 t2 = pure (literalEquals t1 t2) := by
  obtain ⟨_,noTuple,noShape⟩ := literal_simple literal
  simp only [proxiesMatch,noTuple,noShape]
  cases asTuple t1 <;> cases asShape t1 <;> rfl

end Among

theorem yields_sub_leaf {result : Bool} (left : IsLeaf t1) (right : IsLeaf t2) :
    (isSubTypeUnderConstraint mode t1 t2).Yields (step gs) result ↔ Returns (step gs) (.single mode t1 t2) result := by
  have noSpread1 : distributeAnd t1 = none := by simp only [distributeAnd,left.2,Option.bind_none]
  have noSpread2 : distributeOr t2 = none := by simp only [distributeOr,right.1,Option.bind_none]
  rw [yields_sub,returns_sub]
  simp only [stepSub,left.1,left.2,right.1,right.2,noSpread1,noSpread2]
  split
  · rename_i same
    subst same
    rw [yields_pure]
    exact ⟨fun accepted => accepted ▸ single_refl mode t1,fun returns => (single_refl mode t1).unique returns⟩
  · simp only [isSubTypeUnderConstraintSingle,yields_ask]

end Leaf

theorem allFullyDefined_iff {ts : List Ty} : Ty.allFullyDefined ts = true ↔ ∀ t ∈ ts, t.isFullyDefined = true := by
  induction ts with
  | nil => simp [Ty.allFullyDefined]
  | cons t ts ih => simp [Ty.allFullyDefined,ih]

end Types
