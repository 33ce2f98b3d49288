import ScipRuby.Types.Alignment
import ScipRuby.Types.UnionSoundness

namespace Types
open OpenRecursion UnionIntersection

-- Types of classes other than untyped and void, applied types, tuples with an element, literals and unions.
mutual
def Definite (gs : GlobalState) : Ty → Prop
  | .classType c => c ≠ Symbols.untyped ∧ c ≠ Symbols.void
  | .namedLiteralType _ _ => True
  | .integerLiteralType _ _ => True
  | .floatLiteralType _ _ => True
  | .appliedType _ klass targs => targs.length = (gs.typeMembers klass).length ∧ DefiniteAll gs targs
  | .tupleType _ elems => elems ≠ [] ∧ DefiniteAll gs elems
  | .orType _ left right => Definite gs left ∧ Definite gs right
  | _ => False
def DefiniteAll (gs : GlobalState) : List Ty → Prop
  | [] => True
  | t :: ts => Definite gs t ∧ DefiniteAll gs ts
end

mutual
def Ty.NoApplied : Ty → Prop
  | .appliedType _ _ _ => False
  | .tupleType _ elems => Ty.NoAppliedAll elems
  | .orType _ left right => left.NoApplied ∧ right.NoApplied
  | .andType _ left right => left.NoApplied ∧ right.NoApplied
  | _ => True
def Ty.NoAppliedAll : List Ty → Prop
  | [] => True
  | t :: ts => t.NoApplied ∧ Ty.NoAppliedAll ts
end

mutual
def Ty.NoTuple : Ty → Prop
  | .appliedType _ _ targs => Ty.NoTupleAll targs
  | .tupleType _ _ => False
  | .orType _ left right => left.NoTuple ∧ right.NoTuple
  | .andType _ left right => left.NoTuple ∧ right.NoTuple
  | _ => True
def Ty.NoTupleAll : List Ty → Prop
  | [] => True
  | t :: ts => t.NoTuple ∧ Ty.NoTupleAll ts
end

def IsSubType (gs : GlobalState) (t1 t2 : Ty) : Prop := Returns (step gs) (.sub .alwaysCompatible t1 t2) true

def PlainLeaf (gs : GlobalState) (t : Ty) : Prop := Plain gs t ∧ IsLeaf t

section Predicates
variable {gs : GlobalState} {t : Ty} {ts : List Ty}

theorem definiteAll_iff : DefiniteAll gs ts ↔ ∀ t ∈ ts, Definite gs t := by
  induction ts with
  | nil => simp [DefiniteAll]
  | cons t ts ih => simp [DefiniteAll,ih]

theorem noAppliedAll_iff : Ty.NoAppliedAll ts ↔ ∀ t ∈ ts, t.NoApplied := by
  induction ts with
  | nil => simp [Ty.NoAppliedAll]
  | cons t ts ih => simp [Ty.NoAppliedAll,ih]

theorem noTupleAll_iff : Ty.NoTupleAll ts ↔ ∀ t ∈ ts, t.NoTuple := by
  induction ts with
  | nil => simp [Ty.NoTupleAll]
  | cons t ts ih => simp [Ty.NoTupleAll,ih]

mutual
theorem definite_plain : ∀ t : Ty, Definite gs t → Plain gs t
  | .classType _,_ => by simp only [Plain]
  | .namedLiteralType _ _,_ => by simp only [Plain]
  | .integerLiteralType _ _,_ => by simp only [Plain]
  | .floatLiteralType _ _,_ => by simp only [Plain]
  | .appliedType _ _ ts,definite => by
    simp only [Definite] at definite
    simpa only [Plain] using And.intro definite.1 (definiteAll_plainAll ts definite.2)
  | .tupleType _ ts,definite => by
    simp only [Definite] at definite
    simpa only [Plain] using definiteAll_plainAll ts definite.2
  | .orType _ l r,definite => by
    simp only [Definite] at definite
    simpa only [Plain] using And.intro (definite_plain l definite.1) (definite_plain r definite.2)
  | .andType _ _ _,definite => by simp only [Definite] at definite
  | .shapeType _ _ _,definite => by simp only [Definite] at definite
  | .selfTypeParam _,definite => by simp only [Definite] at definite
  | .selfType,definite => by simp only [Definite] at definite
  | .metaType _ _,definite => by simp only [Definite] at definite
  | .typeVar _ _,definite => by simp only [Definite] at definite
theorem definiteAll_plainAll : ∀ ts : List Ty, DefiniteAll gs ts → PlainAll gs ts
  | [],_ => by simp only [PlainAll]
  | t :: ts,definite => by
    simp only [DefiniteAll] at definite
    simpa only [PlainAll] using And.intro (definite_plain t definite.1) (definiteAll_plainAll ts definite.2)
end

theorem plain_over : Plain gs t ↔ Over (PlainLeaf gs) t := by
  induction t using tree.induct with
  | case1 p l r left right => rw [over_or,← left,← right]; simp only [Plain]
  | case2 p l r left right => rw [over_and,← left,← right]; simp only [Plain]
  | case3 t noOr noAnd =>
    have leaf : IsLeaf t := by cases t <;> simp_all [IsLeaf,asOr,asAnd]
    simp only [Over,tree_leaf leaf.1 leaf.2,Compound.leaves,List.mem_singleton,forall_eq]
    exact ⟨fun plain => ⟨plain,leaf⟩,fun both => both.1⟩

theorem PlainLeaf.form (plain : PlainLeaf gs t) : LeafForm gs t := plain_form plain.1 plain.2

theorem plain_leaves (table : Resolved gs) : Leaves gs .alwaysCompatible (PlainLeaf gs) where
  notParam := fun a plain => plain.form.simple.2.1
  defined := fun _ b _ plain _ => (plain_comparable table.toRedeclares table.bounded plain.1).defined
  total := by
    intro a b left right
    have first := plain_comparable table.toRedeclares table.bounded left.1
    have second := plain_comparable table.toRedeclares table.bounded right.1
    exact (comparable_leaves table.toRedeclares fun _ => subTotal table.toRedeclares _).total a b
      ⟨first.mono (Nat.le_max_left _ _),left.2⟩ ⟨second.mono (Nat.le_max_right _ _),right.2⟩

theorem isSubType_iff {t1 t2 : Ty} (table : Resolved gs) (left : Plain gs t1) (right : Plain gs t2) :
    IsSubType gs t1 t2 ↔ Derives (Single gs (PlainLeaf gs) .alwaysCompatible) (tree t1) (tree t2) :=
  (plain_leaves table).sub_iff (plain_over.mp left) (plain_over.mp right)

theorem isSubType_leaf {t1 t2 : Ty} (left : IsLeaf t1) (right : IsLeaf t2) :
    IsSubType gs t1 t2 ↔ Returns (step gs) (.single .alwaysCompatible t1 t2) true :=
  yields_sub.symm.trans (yields_sub_leaf left right)

end Predicates

-- The comparison of two leaves past the classes that are treated by name.
def Among (gs : GlobalState) (t1 t2 : Ty) : Prop :=
  (singleAmongClasses gs .alwaysCompatible t1 t2).Yields (step gs) true

section LeafOrder
variable {gs : GlobalState} {x y z : Ty}

theorem single_iff (left : LeafForm gs x) (right : LeafForm gs y) :
    Returns (step gs) (.single .alwaysCompatible x y) true ↔
      x = y ∨ x = untyped ∨ x = bottom ∨ y = untyped ∨ y = top ∨ y = .classType Symbols.void ∨
        (x ≠ top ∧ y ≠ bottom ∧ Among gs x y) := by
  rw [returns_iff]
  change (stepSingle gs .alwaysCompatible x y).Yields (step gs) true ↔ _
  rw [stepSingle_plain left right]
  by_cases same : x = y
  · simp [same]
  by_cases untyped1 : x = untyped
  · simp [untyped1]
  by_cases bottom1 : x = bottom
  · simp [bottom1]
  rw [if_neg same,if_neg untyped1,if_neg bottom1]
  by_cases top1 : x = top
  · rw [if_pos top1,yields_pure,decide_eq_true_iff]
    tauto
  rw [if_neg top1]
  by_cases untyped2 : y = untyped
  · simp [untyped2]
  rw [if_neg untyped2]
  by_cases bottom2 : y = bottom
  · rw [if_pos bottom2,yields_pure]
    have notTop : y ≠ top := bottom2 ▸ (by decide)
    have notVoid : y ≠ .classType Symbols.void := bottom2 ▸ (by decide)
    tauto
  rw [if_neg bottom2]
  by_cases special : y = top ∨ y = .classType Symbols.void
  · rw [if_pos special,yields_pure]
    tauto
  · rw [if_neg special]
    change Among gs x y ↔ _
    tauto

theorem single_trans (left : LeafForm gs x) (middle : LeafForm gs y) (right : LeafForm gs z) (notUntyped : y ≠ untyped)
    (notVoid : y ≠ .classType Symbols.void) (among : Among gs x y → Among gs y z → Among gs x z)
    (first : Returns (step gs) (.single .alwaysCompatible x y) true)
    (second : Returns (step gs) (.single .alwaysCompatible y z) true) :
    Returns (step gs) (.single .alwaysCompatible x z) true := by
  rw [single_iff left middle] at first
  rcases first with rfl | rfl | rfl | rfl | rfl | rfl | ⟨notTop,notBottom,one⟩
  · exact second
  · exact (single_iff left right).mpr (.inr (.inl rfl))
  · exact (single_iff left right).mpr (.inr (.inr (.inl rfl)))
  · exact absurd rfl notUntyped
  · rw [single_iff middle right] at second
    rw [single_iff left right]
    rcases second with rfl | impossible | impossible | special | special | special | ⟨impossible,_⟩
    · exact .inr (.inr (.inr (.inr (.inl rfl))))
    · exact absurd impossible (by decide)
    · exact absurd impossible (by decide)
    · exact .inr (.inr (.inr (.inl special)))
    · exact .inr (.inr (.inr (.inr (.inl special))))
    · exact .inr (.inr (.inr (.inr (.inr (.inl special)))))
    · exact absurd rfl impossible
  · exact absurd rfl notVoid
  · rw [single_iff middle right] at second
    rw [single_iff left right]
    rcases second with rfl | impossible | impossible | special | special | special | ⟨_,notBottom',other⟩
    · exact .inr (.inr (.inr (.inr (.inr (.inr ⟨notTop,notBottom,one⟩)))))
    · exact absurd impossible notUntyped
    · exact absurd impossible notBottom
    · exact .inr (.inr (.inr (.inl special)))
    · exact .inr (.inr (.inr (.inr (.inl special))))
    · exact .inr (.inr (.inr (.inr (.inr (.inl special)))))
    · exact .inr (.inr (.inr (.inr (.inr (.inr ⟨notTop,notBottom',among one other⟩)))))

-- A proxy is compared with a type that is none through the type below it.
theorem among_through {und : Ty} (proxy : isProxyType x = true) (below : (proxyUnderlying x).Yields (step gs) und)
    (leaf : IsLeaf und) (right : LeafForm gs z) (notProxy : isProxyType z = false) :
    Among gs x z ↔ Returns (step gs) (.single .alwaysCompatible und z) true := by
  unfold Among
  cases right with
  | klass c =>
    rw [among_proxy_class proxy,yields_bind]
    constructor
    · rintro ⟨value,given,rest⟩
      cases given.unique below
      exact yields_ask.mp rest
    · exact fun single => ⟨und,below,yields_ask.mpr single⟩
  | applied q c ts formed =>
    rw [among_proxy_applied proxy,yields_bind]
    constructor
    · rintro ⟨value,given,rest⟩
      cases given.unique below
      exact (yields_sub_leaf leaf ⟨rfl,rfl⟩).mp rest
    · exact fun single => ⟨und,below,(yields_sub_leaf leaf ⟨rfl,rfl⟩).mpr single⟩
  | literal t c literal => exact absurd (literal_simple literal).1 (by simp [notProxy])
  | tuple => cases notProxy

theorem literal_underlying {c : ClassOrModuleRef} (literal : literalClass x = some c) :
    (proxyUnderlying x).Yields (step gs) (.classType c) := by
  rw [proxyUnderlying_literal literal,yields_pure]

theorem tuple_underlying {p : Address} {elems : List Ty} (table : Resolved gs) (plain : Plain gs (.tupleType p elems)) :
    ∃ q elem, (proxyUnderlying (.tupleType p elems)).Yields (step gs) (.appliedType q Symbols.Array [elem]) ∧
      Plain gs elem := by
  obtain ⟨und,given,q,elem,rfl,within⟩ := plain_tupleJoins table.toRedeclares table.bounded p elems plain.within
  exact ⟨q,elem,given,within.plain⟩

theorem proxy_underlying (table : Resolved gs) (plain : PlainLeaf gs x) (proxy : isProxyType x = true) :
    ∃ und, (proxyUnderlying x).Yields (step gs) und ∧ PlainLeaf gs und ∧ isProxyType und = false := by
  cases plain.form with
  | klass => cases proxy
  | applied => cases proxy
  | literal x c literal => exact ⟨.classType c,literal_underlying literal,⟨by simp only [Plain],rfl,rfl⟩,rfl⟩
  | tuple p elems =>
    obtain ⟨q,elem,given,inside⟩ := tuple_underlying table plain.1
    refine ⟨_,given,⟨?_,rfl,rfl⟩,rfl⟩
    simpa only [Plain,PlainAll,and_true,List.length_singleton] using And.intro table.array.symm inside

-- Only a proxy is below a proxy.
theorem among_notProxy (left : LeafForm gs x) (notProxy : isProxyType x = false) (among : Among gs x y) :
    isProxyType y = false := by
  cases proxy : isProxyType y with
  | false => rfl
  | true =>
    unfold Among at among
    cases left with
    | klass c =>
      rw [among_class_proxy proxy,yields_pure] at among
      cases among
    | applied p c ts formed =>
      rw [among_applied_proxy proxy,yields_pure] at among
      cases among
    | literal t c literal => exact absurd (literal_simple literal).1 (by simp [notProxy])
    | tuple => cases notProxy

end LeafOrder

section Chains
variable {gs : GlobalState} {n : Nat} {x y z : Ty}

-- Transitivity through every middle type of a smaller depth.
def Chains (gs : GlobalState) (n : Nat) : Prop :=
  ∀ t1 t2 t3, t2.depth < n → Plain gs t1 → Definite gs t2 → Plain gs t3 → (t2.NoTuple ∨ t3.NoApplied) →
    IsSubType gs t1 t2 → IsSubType gs t2 t3 → IsSubType gs t1 t3

theorem argumentMatches_trans {v w : Variance} {a b c : Ty} (compatible : v = w ∨ v = .invariant)
    (forward : IsSubType gs a b → IsSubType gs b c → IsSubType gs a c)
    (backward : IsSubType gs c b → IsSubType gs b a → IsSubType gs c a)
    (first : (argumentMatches .alwaysCompatible v a b).Yields (step gs) true)
    (second : (argumentMatches .alwaysCompatible w b c).Yields (step gs) true) :
    (argumentMatches .alwaysCompatible w a c).Yields (step gs) true := by
  rcases compatible with rfl | rfl
  · cases v with
    | coVariant => exact yields_sub.mpr (forward (yields_sub.mp first) (yields_sub.mp second))
    | contraVariant => exact yields_sub.mpr (backward (yields_sub.mp second) (yields_sub.mp first))
    | invariant =>
      simp only [argumentMatches,equivInMode,yields_andAlso,yields_sub] at first second ⊢
      exact ⟨forward first.1 second.1,backward second.2 first.2⟩
  · simp only [argumentMatches,equivInMode,yields_andAlso,yields_sub] at first
    cases w with
    | coVariant => exact yields_sub.mpr (forward first.1 (yields_sub.mp second))
    | contraVariant => exact yields_sub.mpr (backward (yields_sub.mp second) first.2)
    | invariant =>
      simp only [argumentMatches,equivInMode,yields_andAlso,yields_sub] at second ⊢
      exact ⟨forward first.1 second.1,backward second.2 first.2⟩

section Applied
variable {p q r : Address} {c1 c2 c3 : ClassOrModuleRef} {targs1 targs2 targs3 : List Ty}

theorem among_applied_iff (table : Resolved gs) (formed1 : targs1.length = (gs.typeMembers c1).length)
    (formed2 : targs2.length = (gs.typeMembers c2).length) :
    Among gs (.appliedType p c1 targs1) (.appliedType q c2 targs2) ↔ gs.classSymbolIsAsGoodAs c1 c2 = true ∧
      ∀ m ∈ gs.typeMembers c2, ∀ a b, HasArgument gs (gs.typeMembers c1) targs1 (gs.name m) a →
        HasArgument gs (gs.typeMembers c2) targs2 (gs.name m) b →
        (argumentMatches .alwaysCompatible (gs.variance m) a b).Yields (step gs) true := by
  unfold Among
  rw [among_applied]
  cases good : gs.classSymbolIsAsGoodAs c1 c2 with
  | false => simp
  | true =>
    rw [if_pos rfl,table.arguments_by_name good formed1 formed2]
    simp only [true_and]

theorem applied_trans (table : Resolved gs) (chains : Chains gs n) (left : Plain gs (.appliedType p c1 targs1))
    (middle : Definite gs (.appliedType q c2 targs2)) (right : Plain gs (.appliedType r c3 targs3))
    (deep : (Ty.appliedType q c2 targs2).depth ≤ n) (noTuple : (Ty.appliedType q c2 targs2).NoTuple)
    (first : Among gs (.appliedType p c1 targs1) (.appliedType q c2 targs2))
    (second : Among gs (.appliedType q c2 targs2) (.appliedType r c3 targs3)) :
    Among gs (.appliedType p c1 targs1) (.appliedType r c3 targs3) := by
  simp only [Plain,plainAll_iff] at left right
  simp only [Definite,definiteAll_iff] at middle
  rw [among_applied_iff table left.1 middle.1] at first
  rw [among_applied_iff table middle.1 right.1] at second
  rw [among_applied_iff table left.1 right.1]
  refine ⟨table.good_trans first.1 second.1,?_⟩
  intro m member a c given1 given3
  obtain ⟨m',member',named⟩ := table.redeclared c2 c3 second.1 m member
  obtain ⟨b,given2⟩ : ∃ b, HasArgument gs (gs.typeMembers c2) targs2 (gs.name m') b :=
    hasArgument_of_mem middle.1 member'
  -- The argument in the middle is smaller than the middle type, whichever way the chain runs.
  have shallow : b.depth < n := by
    have inside := depths_le_iff.mp (Nat.le_refl _) b given2.mem
    simp only [Ty.depth] at deep
    omega
  simp only [Ty.NoTuple,noTupleAll_iff] at noTuple
  have flat := noTuple b given2.mem
  have plain1 := left.2 a given1.mem
  have plain3 := right.2 c given3.mem
  have definite := middle.2 b given2.mem
  refine argumentMatches_trans (table.variances c2 c3 second.1 m' member' m member named) ?_ ?_
    (first.2 m' member' a b (named ▸ given1) given2) (second.2 m member b c (named ▸ given2) given3)
  · exact chains a b c shallow plain1 definite plain3 (.inl flat)
  · exact chains c b a shallow plain3 definite plain1 (.inl flat)

end Applied

-- The class that a class type or an applied type names.
def head : Ty → Option ClassOrModuleRef
  | .classType c => some c
  | .appliedType _ c _ => some c
  | _ => none

theorem LeafForm.head (form : LeafForm gs x) (notProxy : isProxyType x = false) : ∃ c, head x = some c := by
  cases form with
  | klass c => exact ⟨c,rfl⟩
  | applied p c ts formed => exact ⟨c,rfl⟩
  | literal t c literal => exact absurd (literal_simple literal).1 (by simp [notProxy])
  | tuple => cases notProxy

theorem head_some {c : ClassOrModuleRef} (named : head x = some c) :
    x = .classType c ∨ ∃ p ts, x = .appliedType p c ts := by
  cases x with
  | classType => cases named; exact .inl rfl
  | appliedType => cases named; exact .inr ⟨_,_,rfl⟩
  | _ => cases named

theorem among_class {c d : ClassOrModuleRef} (named : head x = some c) :
    Among gs x (.classType d) ↔ gs.classSymbolIsAsGoodAs c d = true := by
  unfold Among
  rcases head_some named with rfl | ⟨p,ts,rfl⟩
  · rw [among_classes,yields_pure]
  · rw [among_applied_class,yields_pure]

-- Of two types that name classes, only an applied type is below an applied type.
theorem among_applied_left {c d : ClassOrModuleRef} {q : Address} {ts : List Ty} (named : head x = some c)
    (among : Among gs x (.appliedType q d ts)) :
    (∃ p ts', x = .appliedType p c ts') ∧ gs.classSymbolIsAsGoodAs c d = true := by
  unfold Among at among
  rcases head_some named with rfl | ⟨p,ts',rfl⟩
  · rw [among_class_applied,yields_pure] at among
    cases among
  · refine ⟨⟨p,ts',rfl⟩,?_⟩
    rw [among_applied] at among
    split at among
    · assumption
    · cases yields_pure.mp among

theorem among_heads {c d : ClassOrModuleRef} (left : head x = some c) (right : head y = some d) (among : Among gs x y) :
    gs.classSymbolIsAsGoodAs c d = true := by
  rcases head_some right with rfl | ⟨p,ts,rfl⟩
  · exact (among_class left).mp among
  · exact (among_applied_left left among).2

theorem among_trans_notProxy (table : Resolved gs) (chains : Chains gs n) (left : PlainLeaf gs x)
    (notProxy : isProxyType x = false) (middle : Definite gs y) (leaf : IsLeaf y) (right : PlainLeaf gs z)
    (deep : y.depth ≤ n) (flat : y.NoTuple ∨ z.NoApplied) (first : Among gs x y) (second : Among gs y z) :
    Among gs x z := by
  have form2 := PlainLeaf.form ⟨definite_plain y middle,leaf⟩
  have notProxy2 := among_notProxy left.form notProxy first
  have notProxy3 := among_notProxy form2 notProxy2 second
  obtain ⟨c1,named1⟩ := left.form.head notProxy
  obtain ⟨c2,named2⟩ := form2.head notProxy2
  obtain ⟨c3,named3⟩ := right.form.head notProxy3
  rcases head_some named3 with rfl | ⟨r,targs3,rfl⟩
  · rw [among_class named1]
    exact table.good_trans (among_heads named1 named2 first) (among_heads named2 named3 second)
  · obtain ⟨⟨q,targs2,rfl⟩,_⟩ := among_applied_left named2 second
    obtain ⟨⟨p,targs1,rfl⟩,_⟩ := among_applied_left named1 first
    have noTuple : (Ty.appliedType q c2 targs2).NoTuple := by
      rcases flat with flat | flat
      · exact flat
      · simp only [Ty.NoApplied] at flat
    exact applied_trans table chains left.1 middle right.1 deep noTuple first second

theorem elemsMatch_trans {elems1 elems2 elems3 : List Ty}
    (trans : ∀ a ∈ elems1, ∀ b ∈ elems2, ∀ c ∈ elems3, IsSubType gs a b → IsSubType gs b c → IsSubType gs a c)
    (first : (elemsMatch .alwaysCompatible elems1 elems2).Yields (step gs) true)
    (second : (elemsMatch .alwaysCompatible elems2 elems3).Yields (step gs) true) :
    (elemsMatch .alwaysCompatible elems1 elems3).Yields (step gs) true := by
  induction elems3 generalizing elems1 elems2 with
  | nil => simp only [elemsMatch,yields_pure]
  | cons c elems3 ih =>
    cases elems2 with
    | nil => exact absurd second yields_stuck
    | cons b elems2 =>
      cases elems1 with
      | nil => exact absurd first yields_stuck
      | cons a elems1 =>
        simp only [elemsMatch,yields_andAlso,yields_sub] at first second ⊢
        refine ⟨trans a (by simp) b (by simp) c (by simp) first.1 second.1,ih ?_ first.2 second.2⟩
        intro a' in1 b' in2 c' in3
        exact trans a' (by simp [in1]) b' (by simp [in2]) c' (by simp [in3])

theorem definite_named (definite : Definite gs y) : y ≠ untyped ∧ y ≠ .classType Symbols.void := by
  constructor
  · rintro rfl
    exact absurd rfl definite.1
  · rintro rfl
    exact absurd rfl definite.2

theorem single_trans_notProxy (table : Resolved gs) (chains : Chains gs n) (left : PlainLeaf gs x)
    (notProxy : isProxyType x = false) (middle : Definite gs y) (leaf : IsLeaf y) (right : PlainLeaf gs z)
    (deep : y.depth ≤ n) (flat : y.NoTuple ∨ z.NoApplied)
    (first : Returns (step gs) (.single .alwaysCompatible x y) true)
    (second : Returns (step gs) (.single .alwaysCompatible y z) true) :
    Returns (step gs) (.single .alwaysCompatible x z) true := by
  have form2 := PlainLeaf.form ⟨definite_plain y middle,leaf⟩
  obtain ⟨notUntyped,notVoid⟩ := definite_named middle
  refine single_trans left.form form2 right.form notUntyped notVoid ?_ first second
  exact among_trans_notProxy table chains left notProxy middle leaf right deep flat

section Literals
variable {c : ClassOrModuleRef}

theorem literalEquals_class (equal : literalEquals x y = true) (literal : literalClass x = some c) :
    literalClass y = some c := by
  cases x <;> cases y <;> simp_all [literalEquals,literalClass]

theorem literalEquals_trans (first : literalEquals x y = true) (second : literalEquals y z = true) :
    literalEquals x z = true := by
  cases x <;> cases y <;> cases z <;> simp_all [literalEquals]

theorem among_literal_iff (literal : literalClass x = some c) (proxy : isProxyType y = true) :
    Among gs x y ↔ literalEquals x y = true := by
  unfold Among
  rw [among_proxies (literal_simple literal).1 proxy,proxiesMatch_literal_left literal,yields_pure]

theorem literal_trans (literal : literalClass x = some c) (right : LeafForm gs z) (proxy : isProxyType y = true)
    (first : Among gs x y) (second : Among gs y z) : Among gs x z := by
  have equal := (among_literal_iff literal proxy).mp first
  have literal' := literalEquals_class equal literal
  cases proxy3 : isProxyType z with
  | true =>
    rw [among_literal_iff literal proxy3]
    exact literalEquals_trans equal ((among_literal_iff literal' proxy3).mp second)
  | false =>
    rw [among_through (literal_simple literal).1 (literal_underlying literal) ⟨rfl,rfl⟩ right proxy3]
    rwa [among_through proxy (literal_underlying literal') ⟨rfl,rfl⟩ right proxy3] at second

end Literals

section Tuples
variable {p q : Address} {elems1 elems2 : List Ty}

theorem among_tuples_iff : Among gs (.tupleType p elems1) (.tupleType q elems2) ↔
    elems2.length ≤ elems1.length ∧ (elemsMatch .alwaysCompatible elems1 elems2).Yields (step gs) true := by
  unfold Among
  rw [among_proxies rfl rfl,proxiesMatch_tuples]
  split
  · rename_i enough
    simp only [enough,true_and]
  · rename_i short
    simp only [short,false_and,yields_pure,Bool.false_eq_true]

theorem among_tuple_literal {c : ClassOrModuleRef} (literal : literalClass y = some c) :
    ¬ Among gs (.tupleType p elems1) y := by
  intro among
  unfold Among at among
  rw [among_proxies rfl (literal_simple literal).1,proxiesMatch_literal_right literal,yields_pure] at among
  cases y <;> simp_all [literalEquals]

-- Which classes are above a tuple does not depend on its elements.
theorem among_tuple_class {c : ClassOrModuleRef} (table : Resolved gs) (plain1 : Plain gs (.tupleType p elems1))
    (plain2 : Plain gs (.tupleType q elems2)) (among : Among gs (.tupleType q elems2) (.classType c)) :
    Among gs (.tupleType p elems1) (.classType c) := by
  obtain ⟨r,elem,below,_⟩ := tuple_underlying table plain1
  obtain ⟨r',elem',below',_⟩ := tuple_underlying table plain2
  have form : ∀ r elem, LeafForm gs (.appliedType r Symbols.Array [elem]) :=
    fun r elem => .applied r Symbols.Array [elem] table.array.symm
  rw [among_through rfl below ⟨rfl,rfl⟩ (.klass c) rfl,single_iff (form r elem) (.klass c)]
  rw [among_through rfl below' ⟨rfl,rfl⟩ (.klass c) rfl,single_iff (form r' elem') (.klass c)] at among
  rw [among_class rfl] at among ⊢
  simpa [untyped,top,bottom] using among

end Tuples

theorem tuple_trans {p q : Address} {elems1 elems2 : List Ty} (table : Resolved gs) (chains : Chains gs n)
    (left : Plain gs (.tupleType p elems1)) (middle : Definite gs (.tupleType q elems2)) (right : PlainLeaf gs z)
    (deep : (Ty.tupleType q elems2).depth ≤ n) (noApplied : z.NoApplied)
    (first : Among gs (.tupleType p elems1) (.tupleType q elems2)) (second : Among gs (.tupleType q elems2) z) :
    Among gs (.tupleType p elems1) z := by
  cases right.form with
  | klass c => exact among_tuple_class table left (definite_plain _ middle) second
  | literal z c literal => exact absurd second (among_tuple_literal literal)
  | applied r c ts formed => simp only [Ty.NoApplied] at noApplied
  | tuple r elems3 =>
    simp only [Plain,plainAll_iff] at left
    have inside3 : ∀ t ∈ elems3, Plain gs t := by simpa only [Plain,plainAll_iff] using right.1
    simp only [Definite,definiteAll_iff] at middle
    simp only [Ty.NoApplied,noAppliedAll_iff] at noApplied
    simp only [Ty.depth] at deep
    rw [among_tuples_iff] at first second ⊢
    refine ⟨Nat.le_trans second.1 first.1,elemsMatch_trans ?_ first.2 second.2⟩
    intro a in1 b in2 c in3
    have inside := depths_le_iff.mp (Nat.le_refl _) b in2
    exact chains a b c (by omega) (left a in1) (middle.2 b in2) (inside3 c in3) (.inr (noApplied c in3))

theorem single_trans_plain (table : Resolved gs) (chains : Chains gs n) (left : PlainLeaf gs x) (middle : Definite gs y)
    (leaf : IsLeaf y) (right : PlainLeaf gs z) (deep : y.depth ≤ n) (flat : y.NoTuple ∨ z.NoApplied)
    (first : Returns (step gs) (.single .alwaysCompatible x y) true)
    (second : Returns (step gs) (.single .alwaysCompatible y z) true) :
    Returns (step gs) (.single .alwaysCompatible x z) true := by
  cases proxy : isProxyType x with
  | false => exact single_trans_notProxy table chains left proxy middle leaf right deep flat first second
  | true =>
    have form2 := PlainLeaf.form ⟨definite_plain y middle,leaf⟩
    obtain ⟨notUntyped,notVoid⟩ := definite_named middle
    refine single_trans left.form form2 right.form notUntyped notVoid ?_ first second
    intro one other
    cases proxy2 : isProxyType y with
    | false =>
      -- The type below the proxy takes its place at the start of the chain.
      obtain ⟨und,below,plain,notProxy⟩ := proxy_underlying table left proxy
      rw [among_through proxy below plain.2 form2 proxy2] at one
      rw [among_through proxy below plain.2 right.form (among_notProxy form2 proxy2 other)]
      exact single_trans_notProxy table chains plain notProxy middle leaf right deep flat one second
    | true =>
      cases left.form with
      | klass => cases proxy
      | applied => cases proxy
      | literal x c literal => exact literal_trans literal right.form proxy2 one other
      | tuple p elems1 =>
        cases form2 with
        | klass => cases proxy2
        | applied => cases proxy2
        | literal y c literal => exact absurd one (among_tuple_literal literal)
        | tuple q elems2 =>
          have noApplied : z.NoApplied := by
            rcases flat with flat | flat
            · simp only [Ty.NoTuple] at flat
            · exact flat
          exact tuple_trans table chains left.1 middle right deep noApplied one other

end Chains

section Trees
variable {gs : GlobalState} {t t1 t2 t3 : Ty} {n : Nat}

theorem definite_noInter (definite : Definite gs t) : (tree t).NoInter := by
  induction t using tree.induct with
  | case1 p l r left right =>
    simp only [Definite] at definite
    exact ⟨left definite.1,right definite.2⟩
  | case2 => simp only [Definite] at definite
  | case3 t noOr noAnd =>
    have leaf : IsLeaf t := by cases t <;> simp_all [IsLeaf,asOr,asAnd]
    rw [tree_leaf leaf.1 leaf.2]
    trivial

theorem definite_over (definite : Definite gs t) : Over (Definite gs) t := by
  induction t using tree.induct with
  | case1 p l r left right =>
    simp only [Definite] at definite
    exact over_or.mpr ⟨left definite.1,right definite.2⟩
  | case2 => simp only [Definite] at definite
  | case3 t noOr noAnd =>
    have leaf : IsLeaf t := by cases t <;> simp_all [IsLeaf,asOr,asAnd]
    simpa only [Over,tree_leaf leaf.1 leaf.2,Compound.leaves,List.mem_singleton,forall_eq] using definite

theorem noTuple_over (noTuple : t.NoTuple) : Over Ty.NoTuple t := by
  induction t using tree.induct with
  | case1 p l r left right =>
    simp only [Ty.NoTuple] at noTuple
    exact over_or.mpr ⟨left noTuple.1,right noTuple.2⟩
  | case2 p l r left right =>
    simp only [Ty.NoTuple] at noTuple
    exact over_and.mpr ⟨left noTuple.1,right noTuple.2⟩
  | case3 t noOr noAnd =>
    have leaf : IsLeaf t := by cases t <;> simp_all [IsLeaf,asOr,asAnd]
    simpa only [Over,tree_leaf leaf.1 leaf.2,Compound.leaves,List.mem_singleton,forall_eq] using noTuple

theorem noApplied_over (noApplied : t.NoApplied) : Over Ty.NoApplied t := by
  induction t using tree.induct with
  | case1 p l r left right =>
    simp only [Ty.NoApplied] at noApplied
    exact over_or.mpr ⟨left noApplied.1,right noApplied.2⟩
  | case2 p l r left right =>
    simp only [Ty.NoApplied] at noApplied
    exact over_and.mpr ⟨left noApplied.1,right noApplied.2⟩
  | case3 t noOr noAnd =>
    have leaf : IsLeaf t := by cases t <;> simp_all [IsLeaf,asOr,asAnd]
    simpa only [Over,tree_leaf leaf.1 leaf.2,Compound.leaves,List.mem_singleton,forall_eq] using noApplied

theorem isSubType_trans_step (table : Resolved gs) (chains : Chains gs n) (deep : t2.depth ≤ n) (left : Plain gs t1)
    (middle : Definite gs t2) (right : Plain gs t3) (flat : t2.NoTuple ∨ t3.NoApplied)
    (first : IsSubType gs t1 t2) (second : IsSubType gs t2 t3) : IsSubType gs t1 t3 := by
  have plain2 := definite_plain t2 middle
  rw [isSubType_iff table left plain2] at first
  rw [isSubType_iff table plain2 right] at second
  rw [isSubType_iff table left right]
  refine first.cut (definite_noInter middle) ?_ second
  rintro y in2 x z in3 ⟨plainX,plainY,one⟩ ⟨_,plainZ,other⟩
  obtain ⟨⟨_,_,shallow⟩,_⟩ := within_over.mp plain2.within y in2
  refine ⟨plainX,plainZ,single_trans_plain table chains plainX (definite_over middle y in2) plainY.2 plainZ ?_ ?_ one other⟩
  · omega
  · rcases flat with flat | flat
    · exact .inl (noTuple_over flat y in2)
    · exact .inr (noApplied_over flat z in3)

theorem chains (table : Resolved gs) (n : Nat) : Chains gs n := by
  induction n with
  | zero => exact fun _ _ _ impossible => absurd impossible (Nat.not_lt_zero _)
  | succ n ih =>
    intro t1 t2 t3 shallow left middle right flat first second
    exact isSubType_trans_step table ih (Nat.le_of_lt_succ shallow) left middle right flat first second

end Trees

section Samples

def pairOfStrings : Ty := .tupleType 3 [.classType Symbols.String,.classType Symbols.String]

-- 104 is a class such as that of ENV, whose element is fixed to a pair of strings.
def envTable : GlobalState :=
  { sampleTable with
    typeMembers c := if c = Symbols.Array then [1] else if c = 104 then [2] else []
    bounds m := if m = 2 then some (pairOfStrings,pairOfStrings) else some (bottom,top) }

theorem envTable_derivesFrom {c x : ClassOrModuleRef} (derives : envTable.derivesFrom c x = true) :
    c = 101 ∧ (x = 102 ∨ x = 103) := by
  have top102 : envTable.derivesFrom 102 x = false := by
    rw [GlobalState.derivesFrom_eq]
    rfl
  by_cases sub : c = 101
  · subst sub
    rw [GlobalState.derivesFrom_eq] at derives
    simp [envTable,sampleTable] at derives
    rcases derives with rfl | rfl | further
    · exact ⟨rfl,.inr rfl⟩
    · exact ⟨rfl,.inl rfl⟩
    · exact absurd further (by simpa [envTable,sampleTable] using top102)
  · rw [GlobalState.derivesFrom_eq] at derives
    simp [envTable,sampleTable,sub] at derives

theorem envTable_members {c : ClassOrModuleRef} {m : TypeMemberRef} (member : m ∈ envTable.typeMembers c) :
    c = Symbols.Array ∧ m = 1 ∨ c = 104 ∧ m = 2 := by
  by_cases array : c = Symbols.Array
  · subst array
    exact .inl ⟨rfl,by simpa [envTable] using member⟩
  by_cases env : c = 104
  · subst env
    exact .inr ⟨rfl,by simpa [envTable,array] using member⟩
  · simp [envTable,array,env] at member

-- No other class has an ancestor with type members.
theorem envTable_alone {c1 c2 : ClassOrModuleRef} {m : TypeMemberRef} (good : envTable.classSymbolIsAsGoodAs c1 c2 = true)
    (member : m ∈ envTable.typeMembers c2) : c1 = c2 := by
  rcases Bool.or_eq_true_iff.mp good with same | derives
  · exact beq_iff_eq.mp same
  · obtain ⟨_,rfl | rfl⟩ := envTable_derivesFrom derives <;> cases member

theorem envTable_redeclares : Redeclares envTable where
  redeclared := by
    intro c1 c2 good m member
    cases envTable_alone good member
    exact ⟨m,member,rfl⟩
  array := rfl

theorem envTable_ordered : BoundsOrdered envTable fun c => if c = 104 then 1 else 0 := by
  intro c m member
  rcases envTable_members member with ⟨rfl,rfl⟩ | ⟨rfl,rfl⟩
  · refine ⟨bottom,top,rfl,⟨?_,?_⟩,?_,?_⟩
    all_goals simp only [bottom,top,Plain,Ty.TuplesIn]
  · have plain : Plain envTable pairOfStrings := by simp only [pairOfStrings,Plain,PlainAll,and_self]
    have tuples : pairOfStrings.TuplesIn fun x => (if x = 104 then 1 else 0) < (if 104 = 104 then 1 else 0) := by
      simp only [pairOfStrings,Ty.TuplesIn,Ty.AppliedIn,Ty.AllAppliedIn,and_self,and_true]
      decide
    exact ⟨pairOfStrings,pairOfStrings,rfl,⟨plain,tuples⟩,plain,tuples⟩

theorem envTable_resolved : Resolved envTable where
  toRedeclares := envTable_redeclares
  bounded := boundsEnd_of_order envTable_redeclares envTable_ordered
  linearized := by
    intro c _ m member x derives
    obtain ⟨rfl,_⟩ := envTable_derivesFrom derives
    by_cases sub : c = 101 <;> simp [envTable,sampleTable,sub] at member
  distinct := by
    intro c
    by_cases array : c = Symbols.Array
    · simp [envTable,array]
    by_cases env : c = 104
    · subst env
      exact List.nodup_singleton _
    · simp [envTable,array,env]
  ordered := by
    intro c1 c2 good _ _ same
    cases members : envTable.typeMembers c2 with
    | nil =>
      rw [members] at same
      rw [List.eq_nil_of_length_eq_zero same.symm]
    | cons m rest =>
      have member : m ∈ envTable.typeMembers c2 := members ▸ List.mem_cons_self
      rw [envTable_alone good member,members]
  variances := fun _ _ _ _ _ _ _ _ => .inl rfl

end Samples

-- Subtyping is transitive, unless the chain goes through a tuple to an applied type.
theorem isSubType_trans (gs : GlobalState) (table : Resolved gs) (t1 t2 t3 : Ty) (left : Definite gs t1)
    (middle : Definite gs t2) (right : Definite gs t3) (flat : t2.NoTuple ∨ t3.NoApplied)
    (first : IsSubType gs t1 t2) (second : IsSubType gs t2 t3) : IsSubType gs t1 t3 :=
  isSubType_trans_step table (chains table t2.depth) (Nat.le_refl _) (definite_plain t1 left) middle
    (definite_plain t3 right) flat first second

-- 7 | Array[101] below Integer | Array[102] below Integer | Array[102 | 103].
def chainLow : Ty := .orType 11 (.integerLiteralType 12 7) (.appliedType 13 Symbols.Array [.classType 101])
def chainMiddle : Ty := .orType 14 (.classType Symbols.Integer) (.appliedType 15 Symbols.Array [.classType 102])
def chainHigh : Ty := .orType 16 (.classType Symbols.Integer)
  (.appliedType 17 Symbols.Array [.orType 18 (.classType 102) (.classType 103)])

theorem isSubType_trans_sample : IsSubType envTable chainLow chainMiddle ∧ IsSubType envTable chainMiddle chainHigh ∧
    IsSubType envTable chainLow chainHigh := by
  have classes : ∀ c, c = 101 ∨ c = 102 ∨ c = 103 ∨ c = Symbols.Integer → Definite envTable (.classType c) := by
    rintro c (rfl | rfl | rfl | rfl) <;> simp only [Definite] <;> decide
  have array : ∀ p t, Definite envTable t → Definite envTable (.appliedType p Symbols.Array [t]) := by
    intro p t definite
    simp only [Definite,DefiniteAll,and_true]
    exact ⟨rfl,definite⟩
  have low : Definite envTable chainLow := by
    simp only [chainLow,Definite]
    exact ⟨trivial,array 13 _ (classes 101 (by simp))⟩
  have middle : Definite envTable chainMiddle := by
    simp only [chainMiddle,Definite]
    exact ⟨classes _ (by simp),array 15 _ (classes 102 (by simp))⟩
  have high : Definite envTable chainHigh := by
    simp only [chainHigh,Definite]
    refine ⟨classes _ (by simp),array 17 _ ?_⟩
    simp only [Definite]
    exact ⟨classes 102 (by simp),classes 103 (by simp)⟩
  have flat : chainMiddle.NoTuple := by simp only [chainMiddle,Ty.NoTuple,Ty.NoTupleAll,and_self]
  have first : IsSubType envTable chainLow chainMiddle := ⟨8,by decide⟩
  have second : IsSubType envTable chainMiddle chainHigh := ⟨8,by decide⟩
  exact ⟨first,second,isSubType_trans envTable envTable_resolved _ _ _ low middle high (.inl flat) first second⟩

-- Four families of classes that no resolver pass has seen, with members named by their ids modulo 3. The
-- mixins of 111 are not closed, 122 lacks a member of 123, the members of 131 and 132 are in another order,
-- and 141 declares the member of 142 contravariant.
def unresolvedTable : GlobalState where
  superClass c := if c = 121 then some 122 else if c = 131 then some 132 else if c = 141 then some 142 else none
  mixins c := if c = 111 then [112] else if c = 112 then [113] else if c = 121 ∨ c = 122 then [123]
    else if c = 131 ∨ c = 132 then [133] else []
  isLinearizationComputed _ := true
  isModule c := c == 112 || c == 113 || c == 123 || c == 133
  isFinal _ := false
  typeMembers c :=
    if c = 121 then [21,22] else if c = 122 then [25] else if c = 123 then [24]
    else if c = 131 then [31,32] else if c = 132 then [35,34] else if c = 133 then [37]
    else if c = 141 then [41] else if c = 142 then [44] else []
  name m := m % 3
  variance m := if m = 41 then .contraVariant else .coVariant
  bounds _ := some (bottom,top)
  isSCIPRuby := true
  rank c := 3 - c % 10
  superClass_rank := by intro c p; grind
  mixins_rank := by intro c m; grind

def BreaksChain (gs : GlobalState) (t1 t2 t3 : Ty) : Prop :=
  (Definite gs t1 ∧ Definite gs t2 ∧ Definite gs t3) ∧ IsSubType gs t1 t2 ∧ IsSubType gs t2 t3 ∧ ¬ IsSubType gs t1 t3

theorem breaksChain_of_run {gs : GlobalState} {t1 t2 t3 : Ty} (fuel : Nat)
    (definite : Definite gs t1 ∧ Definite gs t2 ∧ Definite gs t3)
    (first : run (step gs) fuel (.sub .alwaysCompatible t1 t2) = some true)
    (second : run (step gs) fuel (.sub .alwaysCompatible t2 t3) = some true)
    (last : run (step gs) fuel (.sub .alwaysCompatible t1 t3) = some false) : BreaksChain gs t1 t2 t3 := by
  refine ⟨definite,⟨fuel,first⟩,⟨fuel,second⟩,fun returns => ?_⟩
  have refused : Returns (step gs) (.sub .alwaysCompatible t1 t3) false := ⟨fuel,last⟩
  cases returns.unique refused

namespace Circular

def arrayOfClass : Ty := .appliedType 21 Symbols.Array [.classType 203]
def argument : Ty := .appliedType 22 201 [arrayOfClass]
def elems (first : Ty) : List Ty :=
  [first,.appliedType 23 201 [.appliedType 24 202 [top]],.appliedType 25 201 [.appliedType 26 202 [argument]]]
def pair (p : Address) : Ty := .tupleType p (elems (.appliedType 29 201 [arrayOfUntyped]))
def bound : Ty := .appliedType 27 201 [pair 28]

-- The bound of 202, a subclass of Array, holds a tuple of types that mention 202; 201 is contravariant.
def circularTable : GlobalState where
  superClass c := if c = 202 then some Symbols.Array else none
  mixins _ := []
  isLinearizationComputed _ := true
  isModule _ := false
  isFinal _ := false
  typeMembers c := if c = Symbols.Array then [1] else if c = 201 then [61] else if c = 202 then [62] else []
  name m := if m = 62 then 1 else m
  variance m := if m = 61 then .contraVariant else if m = 62 then .invariant else .coVariant
  bounds m := some (bottom,if m = 62 then bound else top)
  isSCIPRuby := true
  rank c := if c = 202 then 1 else 0
  superClass_rank := by intro c p; grind [Symbols.Array]
  mixins_rank := nofun

def tupleOver (p q r : Address) (inner : Ty) : Ty := .appliedType p 201 [.tupleType q (elems (.appliedType r 201 [inner]))]
def low : Ty := .tupleType 30 [tupleOver 33 34 35 (.tupleType 31 [.classType 203]),
  tupleOver 36 37 38 (.tupleType 32 [.classType 203,.classType 203]),.appliedType 39 201 [arrayOfClass]]
def middle : Ty := .tupleType 40 [top]
def high : Ty := .classType Symbols.Array

-- What the first two elements of the lower tuple meet in.
def met : Ty := .tupleType fresh (elems (.appliedType fresh 201 [arrayOfUntyped]))

-- To join the elements of the tuple in the bound, the argument is compared with that bound.
def joining : Query :=
  .lub (.appliedType fresh 201 [.appliedType fresh 202 [untyped]]) (.appliedType 25 201 [.appliedType 26 202 [argument]])
def meeting : Query := .glb (.appliedType fresh 202 [untyped]) (.appliedType 26 202 [argument])
def waits : List (Query × Query) :=
  [(.sub .alwaysCompatible low high,.single .alwaysCompatible low high),
    (.single .alwaysCompatible low high,.lub (.appliedType fresh 201 [met]) (.appliedType 39 201 [arrayOfClass])),
    (.lub (.appliedType fresh 201 [met]) (.appliedType 39 201 [arrayOfClass]),.glb met arrayOfClass),
    (.glb met arrayOfClass,.glb arrayOfClass met),
    (.glb arrayOfClass met,.sub .alwaysCompatible met arrayOfClass),
    (.sub .alwaysCompatible met arrayOfClass,.single .alwaysCompatible met arrayOfClass),
    (.single .alwaysCompatible met arrayOfClass,joining),
    (joining,meeting),
    (meeting,.sub .alwaysCompatible argument bound),
    (.sub .alwaysCompatible argument bound,.single .alwaysCompatible argument bound),
    (.single .alwaysCompatible argument bound,.sub .alwaysCompatible (pair 28) arrayOfClass),
    (.sub .alwaysCompatible (pair 28) arrayOfClass,.single .alwaysCompatible (pair 28) arrayOfClass),
    (.single .alwaysCompatible (pair 28) arrayOfClass,joining)]

theorem waits_asked : ∀ edge ∈ waits, (step circularTable edge.1).asks (run (step circularTable) 12) edge.2 = true := by
  decide

theorem waits_closed : ∀ edge ∈ waits, ∃ further ∈ waits, further.1 = edge.2 := by decide

-- A comparison that never ends is no answer: the chain breaks there.
theorem breaksChain : BreaksChain circularTable low middle high := by
  refine ⟨?_,⟨12,by decide⟩,⟨12,by decide⟩,never_returns waits_asked waits_closed List.mem_cons_self true⟩
  simp [low,middle,high,tupleOver,elems,argument,arrayOfClass,top,Definite,DefiniteAll,circularTable,Symbols.Array,
    Symbols.top,Symbols.untyped,Symbols.void]

end Circular

-- [101,102] below [101] below Array[101], and [1,2] below [1 | 2,1 | 2] below Array[1 | 2], are no chains;
-- nor are the four of the unresolved table, nor the one whose ends are compared without end.
theorem isSubType_not_trans :
    (let one : Ty := .integerLiteralType 1 1
     let two : Ty := .integerLiteralType 2 2
     let either : Ty := .orType 3 one two
     BreaksChain sampleTable (.tupleType 4 [.classType 101,.classType 102]) (.tupleType 5 [.classType 101])
        (.appliedType 6 Symbols.Array [.classType 101]) ∧
      BreaksChain sampleTable (.tupleType 4 [one,two]) (.tupleType 5 [either,either])
        (.appliedType 6 Symbols.Array [either])) ∧
    (let a : Ty := .classType 101
     let b : Ty := .classType 102
     BreaksChain unresolvedTable (.classType 111) (.classType 112) (.classType 113) ∧
      BreaksChain unresolvedTable (.appliedType 1 121 [a,a]) (.appliedType 2 122 [a]) (.appliedType 3 123 [b]) ∧
      BreaksChain unresolvedTable (.appliedType 1 131 [a,b]) (.appliedType 2 132 [a,b]) (.appliedType 3 133 [b]) ∧
      BreaksChain unresolvedTable (.appliedType 1 141 [a]) (.appliedType 2 141 [bottom]) (.appliedType 3 142 [bottom])) ∧
    BreaksChain Circular.circularTable Circular.low Circular.middle Circular.high := by
  refine ⟨⟨?_,?_⟩,⟨?_,?_,?_,?_⟩,Circular.breaksChain⟩
  all_goals
    refine breaksChain_of_run 12 ?_ (by decide) (by decide) (by decide)
    simp only [bottom,Definite,DefiniteAll]
    decide

end Types
