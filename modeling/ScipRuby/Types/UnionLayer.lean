import ScipRuby.Lib.UnionIntersection
import ScipRuby.Types.LubGlb

namespace Types
open OpenRecursion UnionIntersection

-- The unions and intersections at the root of a type, down to the first type that is neither.
def tree : Ty → Compound Ty
  | .orType _ left right => .union (tree left) (tree right)
  | .andType _ left right => .inter (tree left) (tree right)
  | t => .leaf t

def Over (P : Ty → Prop) (t : Ty) : Prop := ∀ a ∈ (tree t).leaves, P a

section Casts
variable {t left right : Ty}

theorem asOr_some (found : asOr t = some (left,right)) : ∃ address, t = .orType address left right := by
  cases t <;> simp only [asOr,reduceCtorEq,Option.some.injEq,Prod.mk.injEq] at found
  obtain ⟨rfl,rfl⟩ := found
  exact ⟨_,rfl⟩

theorem asAnd_some (found : asAnd t = some (left,right)) : ∃ address, t = .andType address left right := by
  cases t <;> simp only [asAnd,reduceCtorEq,Option.some.injEq,Prod.mk.injEq] at found
  obtain ⟨rfl,rfl⟩ := found
  exact ⟨_,rfl⟩

theorem tree_leaf (noOr : asOr t = none) (noAnd : asAnd t = none) : tree t = .leaf t := by
  cases t <;> simp_all [asOr,asAnd,tree]

theorem over_or {P : Ty → Prop} {address : Address} :
    Over P (.orType address left right) ↔ Over P left ∧ Over P right := by
  simp only [Over,tree,Compound.leaves,List.mem_append,or_imp,forall_and]

theorem over_and {P : Ty → Prop} {address : Address} :
    Over P (.andType address left right) ↔ Over P left ∧ Over P right := by
  simp only [Over,tree,Compound.leaves,List.mem_append,or_imp,forall_and]

theorem over_leaf {P : Ty → Prop} (leafwise : Over P t) (noOr : asOr t = none) (noAnd : asAnd t = none) : P t := by
  apply leafwise t
  rw [tree_leaf noOr noAnd]
  exact List.mem_singleton_self t

end Casts

-- Distribution multiplies on one side and adds on the other: the weight of an intersection on the left
-- and that of a union on the right is the product of the weights of its parts. A literal weighs more
-- on the left than the class below it.
def leftWeight : Ty → Nat
  | .orType _ left right => leftWeight left + leftWeight right
  | .andType _ left right => leftWeight left * leftWeight right
  | t => if (literalClass t).isSome then 3 else 2

def rightWeight : Ty → Nat
  | .orType _ left right => rightWeight left * rightWeight right
  | .andType _ left right => rightWeight left + rightWeight right
  | _ => 2

theorem leftWeight_ge (t : Ty) : 2 ≤ leftWeight t := by
  induction t using tree.induct with
  | case1 _ l r left right => simp only [leftWeight]; omega
  | case2 _ l r left right =>
    have product := Nat.mul_le_mul left right
    simp only [leftWeight]; omega
  | case3 t noOr noAnd => cases t <;> simp_all [leftWeight,literalClass]

theorem rightWeight_ge (t : Ty) : 2 ≤ rightWeight t := by
  induction t using rightWeight.induct with
  | case1 _ l r left right =>
    have product := Nat.mul_le_mul left right
    simp only [rightWeight]; omega
  | case2 _ l r left right => simp only [rightWeight]; omega
  | case3 t noOr noAnd => cases t <;> simp_all [rightWeight]

section Distribution
variable {t left right : Ty}

theorem distributeAnd_some (found : distributeAnd t = some (left,right)) :
    ∃ p q a b c, left = andOf a c ∧ right = andOf b c ∧
      (t = .andType p (.orType q a b) c ∨ t = .andType p c (.orType q a b)) := by
  obtain ⟨⟨l,r⟩,parts,spread⟩ := Option.bind_eq_some_iff.mp found
  obtain ⟨p,rfl⟩ := asAnd_some parts
  obtain ⟨⟨a,b⟩,union,pair⟩ := Option.map_eq_some_iff.mp spread
  cases swap : (asOr r).isSome with
  | true =>
    simp only [swap,if_true] at union pair
    obtain ⟨q,rfl⟩ := asOr_some union
    obtain ⟨rfl,rfl⟩ := Prod.mk.inj pair
    exact ⟨p,q,a,b,l,rfl,rfl,.inr rfl⟩
  | false =>
    simp only [swap,Bool.false_eq_true,if_false] at union pair
    obtain ⟨q,rfl⟩ := asOr_some union
    obtain ⟨rfl,rfl⟩ := Prod.mk.inj pair
    exact ⟨p,q,a,b,r,rfl,rfl,.inl rfl⟩

theorem distributeOr_some (found : distributeOr t = some (left,right)) :
    ∃ p q a b c, left = orOf a c ∧ right = orOf b c ∧
      (t = .orType p (.andType q a b) c ∨ t = .orType p c (.andType q a b)) := by
  obtain ⟨⟨l,r⟩,parts,spread⟩ := Option.bind_eq_some_iff.mp found
  obtain ⟨p,rfl⟩ := asOr_some parts
  obtain ⟨⟨a,b⟩,inter,pair⟩ := Option.map_eq_some_iff.mp spread
  cases swap : (asAnd r).isSome with
  | true =>
    simp only [swap,if_true] at inter pair
    obtain ⟨q,rfl⟩ := asAnd_some inter
    obtain ⟨rfl,rfl⟩ := Prod.mk.inj pair
    exact ⟨p,q,a,b,l,rfl,rfl,.inr rfl⟩
  | false =>
    simp only [swap,Bool.false_eq_true,if_false] at inter pair
    obtain ⟨q,rfl⟩ := asAnd_some inter
    obtain ⟨rfl,rfl⟩ := Prod.mk.inj pair
    exact ⟨p,q,a,b,r,rfl,rfl,.inl rfl⟩

theorem distributeAnd_none {p : Address} (found : distributeAnd (.andType p left right) = none) :
    asOr left = none ∧ asOr right = none := by
  cases swap : asOr right with
  | some parts => simp [distributeAnd,asAnd,swap] at found
  | none => simpa [distributeAnd,asAnd,swap] using found

theorem distributeOr_none {p : Address} (found : distributeOr (.orType p left right) = none) :
    asAnd left = none ∧ asAnd right = none := by
  cases swap : asAnd right with
  | some parts => simp [distributeOr,asOr,swap] at found
  | none => simpa [distributeOr,asOr,swap] using found

theorem distributeAnd_lighter (found : distributeAnd t = some (left,right)) :
    leftWeight left < leftWeight t ∧ leftWeight right < leftWeight t := by
  obtain ⟨p,q,a,b,c,rfl,rfl,whole⟩ := distributeAnd_some found
  have one := Nat.mul_le_mul_right (leftWeight c) (leftWeight_ge a)
  have other := Nat.mul_le_mul_right (leftWeight c) (leftWeight_ge b)
  have positive := leftWeight_ge c
  rcases whole with rfl | rfl
  · simp only [andOf,leftWeight,Nat.add_mul]; omega
  · simp only [andOf,leftWeight,Nat.mul_comm (leftWeight c),Nat.add_mul]; omega

theorem distributeOr_lighter (found : distributeOr t = some (left,right)) :
    rightWeight left < rightWeight t ∧ rightWeight right < rightWeight t := by
  obtain ⟨p,q,a,b,c,rfl,rfl,whole⟩ := distributeOr_some found
  have one := Nat.mul_le_mul_right (rightWeight c) (rightWeight_ge a)
  have other := Nat.mul_le_mul_right (rightWeight c) (rightWeight_ge b)
  have positive := rightWeight_ge c
  rcases whole with rfl | rfl
  · simp only [orOf,rightWeight,Nat.add_mul]; omega
  · simp only [orOf,rightWeight,Nat.mul_comm (rightWeight c),Nat.add_mul]; omega

theorem and_lighter {p : Address} (l r : Ty) :
    leftWeight l < leftWeight (.andType p l r) ∧ leftWeight r < leftWeight (.andType p l r) := by
  have one := Nat.mul_le_mul_left (leftWeight l) (leftWeight_ge r)
  have other := Nat.mul_le_mul_right (leftWeight r) (leftWeight_ge l)
  have left := leftWeight_ge l
  have right := leftWeight_ge r
  simp only [leftWeight]; omega

theorem or_lighter {p : Address} (l r : Ty) :
    rightWeight l < rightWeight (.orType p l r) ∧ rightWeight r < rightWeight (.orType p l r) := by
  have one := Nat.mul_le_mul_left (rightWeight l) (rightWeight_ge r)
  have other := Nat.mul_le_mul_right (rightWeight r) (rightWeight_ge l)
  have left := rightWeight_ge l
  have right := rightWeight_ge r
  simp only [rightWeight]; omega

theorem distributeAnd_over {P : Ty → Prop} (leafwise : Over P t) (found : distributeAnd t = some (left,right)) :
    Over P left ∧ Over P right := by
  obtain ⟨p,q,a,b,c,rfl,rfl,whole⟩ := distributeAnd_some found
  rcases whole with rfl | rfl <;> simp only [andOf,over_and,over_or] at leafwise ⊢ <;> tauto

theorem distributeOr_over {P : Ty → Prop} (leafwise : Over P t) (found : distributeOr t = some (left,right)) :
    Over P left ∧ Over P right := by
  obtain ⟨p,q,a,b,c,rfl,rfl,whole⟩ := distributeOr_some found
  rcases whole with rfl | rfl <;> simp only [orOf,over_and,over_or] at leafwise ⊢ <;> tauto

end Distribution

section Connectives
variable {gs : GlobalState} {left right : Eval Bool}

theorem yields_andAlso : (andAlso left right).Yields (step gs) true ↔
    left.Yields (step gs) true ∧ right.Yields (step gs) true := by
  simp only [andAlso,yields_bind,Bool.exists_bool,Bool.false_eq_true,if_false,if_true,yields_pure,and_false,false_or]

theorem andAlso_total (first : ∃ b, left.Yields (step gs) b) (second : ∃ b, right.Yields (step gs) b) :
    ∃ b, (andAlso left right).Yields (step gs) b := by
  obtain ⟨one,first⟩ := first
  obtain ⟨other,second⟩ := second
  cases one with
  | false => exact ⟨false,yields_bind.mpr ⟨false,first,yields_pure.mpr rfl⟩⟩
  | true => exact ⟨other,yields_bind.mpr ⟨true,first,second⟩⟩

-- The body comes to an end, and the answer is yes exactly where the question is so.
def Decides (gs : GlobalState) (body : Eval Bool) (question : Prop) : Prop :=
  body.Ensures (step gs) fun answer => answer = true ↔ question

section Decides
variable {A B : Prop}

theorem Decides.total (decides : Decides gs left A) : ∃ b, left.Yields (step gs) b := by
  obtain ⟨b,given,_⟩ := decides
  exact ⟨b,given⟩

theorem Decides.yields_iff (decides : Decides gs left A) : left.Yields (step gs) true ↔ A := by
  obtain ⟨b,given,exact_⟩ := decides
  rw [← exact_]
  constructor
  · exact fun yes => given.unique yes
  · rintro rfl
    exact given

theorem Decides.congr (decides : Decides gs left A) (same : A ↔ B) : Decides gs left B := by
  obtain ⟨b,given,exact_⟩ := decides
  exact ⟨b,given,exact_.trans same⟩

theorem decides_true (holds : A) : Decides gs (pure true) A := ensures_pure (iff_of_true rfl holds)

theorem decides_false (fails : ¬ A) : Decides gs (pure false) A := ensures_pure (iff_of_false Bool.false_ne_true fails)

theorem Decides.andAlso (first : Decides gs left A) (second : Decides gs right B) : Decides gs (andAlso left right) (A ∧ B) := by
  refine ensures_bind_of first fun one yes => ?_
  cases one with
  | false => exact decides_false fun both => Bool.false_ne_true (yes.mpr both.1)
  | true => exact second.congr (and_iff_right (yes.mp rfl)).symm

theorem Decides.orElse (first : Decides gs left A) (second : Decides gs right B) : Decides gs (orElse left right) (A ∨ B) := by
  refine ensures_bind_of first fun one yes => ?_
  cases one with
  | false => exact second.congr (or_iff_right fun holds => Bool.false_ne_true (yes.mpr holds)).symm
  | true => exact decides_true (.inl (yes.mp rfl))

end Decides

theorem yields_sub {mode : UntypedMode} {t1 t2 : Ty} {result : Bool} :
    (isSubTypeUnderConstraint mode t1 t2).Yields (step gs) result ↔ Returns (step gs) (.sub mode t1 t2) result :=
  yields_ask

theorem returns_sub {mode : UntypedMode} {t1 t2 : Ty} {result : Bool} :
    Returns (step gs) (.sub mode t1 t2) result ↔ (stepSub gs mode t1 t2).Yields (step gs) result := returns_iff

end Connectives

-- What the layer of unions and intersections asks of the types below it.
structure Leaves (gs : GlobalState) (mode : UntypedMode) (P : Ty → Prop) : Prop where
  notParam : ∀ a, P a → asSelfTypeParam a = none
  defined : ∀ a b, P a → P b → a.isUntyped = true → b.isFullyDefined = true
  total : ∀ a b, P a → P b → ∃ result, Returns (step gs) (.single mode a b) result

section Layer
variable {gs : GlobalState} {P : Ty → Prop} {mode : UntypedMode} {t t1 t2 l r : Ty}

theorem Leaves.notParam_over (leaves : Leaves gs mode P) (leafwise : Over P t) : asSelfTypeParam t = none := by
  cases t with
  | selfTypeParam definition => exact leaves.notParam _ (over_leaf leafwise rfl rfl)
  | _ => rfl

theorem Leaves.defined_over (leaves : Leaves gs mode P) (untyped : P t) (isUntyped : t.isUntyped = true)
    (leafwise : Over P r) : r.isFullyDefined = true := by
  induction r using tree.induct with
  | case1 p l r left right =>
    obtain ⟨one,other⟩ := over_or.mp leafwise
    simp only [Ty.isFullyDefined,left one,right other,Bool.and_self]
  | case2 p l r left right =>
    obtain ⟨one,other⟩ := over_and.mp leafwise
    simp only [Ty.isFullyDefined,left one,right other,Bool.and_self]
  | case3 r noOr noAnd =>
    refine leaves.defined t r untyped (leafwise r ?_) isUntyped
    have leaf : tree r = .leaf r := by cases r <;> simp_all [tree]
    rw [leaf]
    exact List.mem_singleton_self r

-- What would make a split look at its second side after a positive answer from the first.
theorem Leaves.decided_over (leaves : Leaves gs mode P) (over1 : Over P t) (over2 : Over P r) :
    (t.isUntyped && l.isFullyDefined && !r.isFullyDefined) = false := by
  cases isUntyped : t.isUntyped with
  | false => rfl
  | true =>
    have whole := of_decide_eq_true isUntyped
    rw [leaves.defined_over (over_leaf over1 (by rw [whole]; rfl) (by rw [whole]; rfl)) isUntyped over2]
    simp

theorem splitAnd_eq (decided : (t2.isUntyped && l.isFullyDefined && !r.isFullyDefined) = false)
    (notParam : asSelfTypeParam t2 = none) : splitAnd gs mode l r t1 t2 =
      orElse (isSubTypeUnderConstraint mode l t2) (orElse (isSubTypeUnderConstraint mode r t2) (pure false)) := by
  simp only [splitAnd,decided,throughLowerBound,notParam,Bool.not_false,Bool.and_true]
  rfl

theorem splitOr_eq (decided : (t1.isUntyped && l.isFullyDefined && !r.isFullyDefined) = false)
    (notParam : asSelfTypeParam t1 = none) : splitOr gs mode l r t1 t2 =
      orElse (isSubTypeUnderConstraint mode t1 l) (orElse (isSubTypeUnderConstraint mode t1 r)
        (match asAnd t1 with
        | none => pure false
        | some (a,b) => splitAnd gs mode a b t1 t2)) := by
  simp only [splitOr,decided,throughUpperBound,notParam,Bool.not_false,Bool.and_true]
  rfl

-- The order that the types below unions and intersections are compared by.
def Single (gs : GlobalState) (P : Ty → Prop) (mode : UntypedMode) (a b : Ty) : Prop :=
  P a ∧ P b ∧ Returns (step gs) (.single mode a b) true

theorem single_refl (mode : UntypedMode) (a : Ty) : Returns (step gs) (.single mode a a) true := by
  rw [returns_iff]
  simp only [step,stepSingle,if_true,yields_pure]

theorem tree_distributeAnd (found : distributeAnd t = some (l,r)) :
    ∃ a b c : Compound Ty, tree l = .inter a c ∧ tree r = .inter b c ∧
      (tree t = .inter (.union a b) c ∨ tree t = .inter c (.union a b)) := by
  obtain ⟨p,q,a,b,c,rfl,rfl,whole⟩ := distributeAnd_some found
  refine ⟨tree a,tree b,tree c,rfl,rfl,?_⟩
  rcases whole with rfl | rfl
  · exact .inl rfl
  · exact .inr rfl

theorem tree_distributeOr (found : distributeOr t = some (l,r)) :
    ∃ a b c : Compound Ty, tree l = .union a c ∧ tree r = .union b c ∧
      (tree t = .union (.inter a b) c ∨ tree t = .union c (.inter a b)) := by
  obtain ⟨p,q,a,b,c,rfl,rfl,whole⟩ := distributeOr_some found
  refine ⟨tree a,tree b,tree c,rfl,rfl,?_⟩
  rcases whole with rfl | rfl
  · exact .inl rfl
  · exact .inr rfl

theorem derives_distributeAnd_iff {R : Ty → Ty → Prop} (found : distributeAnd t = some (l,r)) :
    Derives R (tree t) (tree t2) ↔ Derives R (tree l) (tree t2) ∧ Derives R (tree r) (tree t2) := by
  obtain ⟨a,b,c,left,right,whole⟩ := tree_distributeAnd found
  rw [left,right]
  refine ⟨fun derives => derives.spread_left whole,fun both => ?_⟩
  rcases whole with whole | whole <;> rw [whole]
  · exact .spreadLeft both.1 both.2
  · exact .spreadLeftSwapped both.1 both.2

theorem derives_distributeOr_iff {R : Ty → Ty → Prop} (found : distributeOr t2 = some (l,r)) :
    Derives R (tree t) (tree t2) ↔ Derives R (tree t) (tree l) ∧ Derives R (tree t) (tree r) := by
  obtain ⟨a,b,c,left,right,whole⟩ := tree_distributeOr found
  rw [left,right]
  refine ⟨fun derives => derives.spread_right whole,fun both => ?_⟩
  rcases whole with whole | whole <;> rw [whole]
  · exact .spreadRight both.1 both.2
  · exact .spreadRightSwapped both.1 both.2

theorem notUnion_of_asOr (noOr : asOr t = none) : ¬ (tree t).IsUnion := by
  cases t <;> simp_all [asOr,tree,Compound.IsUnion]

theorem notInter_of_asAnd (noAnd : asAnd t = none) : ¬ (tree t).IsInter := by
  cases t <;> simp_all [asAnd,tree,Compound.IsInter]

theorem settled_of_distributeAnd (nothing : distributeAnd t = none) : (tree t).Settled := by
  cases t with
  | andType p l r =>
    obtain ⟨left,right⟩ := distributeAnd_none nothing
    exact ⟨notUnion_of_asOr left,notUnion_of_asOr right⟩
  | _ => exact trivial

-- With nothing left to distribute, a derivation into a union goes into one side or comes from
-- one side of an intersection.
theorem derives_orType_iff {R : Ty → Ty → Prop} {p : Address} (noOr : asOr t = none) (settled : distributeAnd t = none)
    (free : distributeOr (.orType p l r) = none) :
    Derives R (tree t) (tree (.orType p l r)) ↔ Derives R (tree t) (tree l) ∨ Derives R (tree t) (tree r) ∨
      ∃ a b, asAnd t = some (a,b) ∧ (Derives R (tree a) (tree (.orType p l r)) ∨ Derives R (tree b) (tree (.orType p l r))) := by
  obtain ⟨left,right⟩ := distributeOr_none free
  constructor
  · intro derives
    rcases derives.union_right (notUnion_of_asOr noOr) (settled_of_distributeAnd settled) (notInter_of_asAnd left)
      (notInter_of_asAnd right) with into | into | ⟨a,b,whole,either⟩
    · exact .inl into
    · exact .inr (.inl into)
    · cases t with
      | andType q x y =>
        obtain ⟨rfl,rfl⟩ := Compound.inter.inj whole
        exact .inr (.inr ⟨x,y,rfl,either⟩)
      | orType => cases noOr
      | _ => cases whole
  · rintro (into | into | ⟨a,b,inter,either⟩)
    · exact .intoLeft into
    · exact .intoRight into
    · obtain ⟨q,rfl⟩ := asAnd_some inter
      rcases either with from_ | from_
      · exact .fromLeft from_
      · exact .fromRight from_

theorem derives_andType_iff {R : Ty → Ty → Prop} (found : asAnd t = some (l,r)) (settled : distributeAnd t = none) (leaf : tree t2 = .leaf t2) :
    Derives R (tree t) (tree t2) ↔ Derives R (tree l) (tree t2) ∨ Derives R (tree r) (tree t2) := by
  obtain ⟨p,rfl⟩ := asAnd_some found
  rw [leaf]
  constructor
  · intro derives
    rcases derives.leaf_right (by simp [tree,Compound.IsUnion]) (settled_of_distributeAnd settled) with
      ⟨x,whole,_⟩ | ⟨x,y,whole,either⟩
    · cases whole
    · obtain ⟨rfl,rfl⟩ := Compound.inter.inj whole
      exact either
  · rintro (from_ | from_)
    · exact .fromLeft from_
    · exact .fromRight from_

-- Above its leaves, subtyping is derivability between the trees.
theorem Leaves.sub_decides (leaves : Leaves gs mode P) (over1 : Over P t1) (over2 : Over P t2) :
    Decides gs (isSubTypeUnderConstraint mode t1 t2) (Derives (Single gs P mode) (tree t1) (tree t2)) := by
  induction weight : leftWeight t1 + rightWeight t2 using Nat.strongRecOn generalizing t1 t2 with
  | _ n ih =>
  have again : ∀ {s1 s2}, Over P s1 → Over P s2 → leftWeight s1 + rightWeight s2 < n →
      Decides gs (isSubTypeUnderConstraint mode s1 s2) (Derives (Single gs P mode) (tree s1) (tree s2)) :=
    fun one other lighter => ih _ lighter one other rfl
  refine ensures_ask ?_
  change Decides gs (stepSub gs mode t1 t2) _
  unfold stepSub
  split
  · rename_i same
    subst same
    refine decides_true (Derives.refl _ fun a present => ?_)
    exact ⟨over1 a present,over1 a present,single_refl mode a⟩
  split
  · rename_i l r found
    obtain ⟨p,rfl⟩ := asOr_some found
    obtain ⟨one,other⟩ := over_or.mp over1
    have left := leftWeight_ge l
    have right := leftWeight_ge r
    simp only [leftWeight] at weight
    refine ((again one over2 (by omega)).andAlso (again other over2 (by omega))).congr ?_
    exact ⟨fun both => .unionLeft both.1 both.2,fun derives => derives.union_left⟩
  rename_i noOr1
  split
  · rename_i l r found
    obtain ⟨p,rfl⟩ := asAnd_some found
    obtain ⟨one,other⟩ := over_and.mp over2
    have left := rightWeight_ge l
    have right := rightWeight_ge r
    simp only [rightWeight] at weight
    refine ((again over1 one (by omega)).andAlso (again over1 other (by omega))).congr ?_
    exact ⟨fun both => .interRight both.1 both.2,fun derives => derives.inter_right⟩
  rename_i noAnd2
  split
  · rename_i l r found
    obtain ⟨one,other⟩ := distributeAnd_over over1 found
    have lighter := distributeAnd_lighter found
    refine ((again one over2 (by omega)).andAlso (again other over2 (by omega))).congr ?_
    exact (derives_distributeAnd_iff found).symm
  rename_i settled
  split
  · rename_i l r found
    obtain ⟨one,other⟩ := distributeOr_over over2 found
    have lighter := distributeOr_lighter found
    refine ((again over1 one (by omega)).andAlso (again over1 other (by omega))).congr ?_
    exact (derives_distributeOr_iff found).symm
  rename_i free
  -- What an intersection on the left adds, once nothing is left to distribute.
  have splits : ∀ {a b}, asAnd t1 = some (a,b) → Decides gs (splitAnd gs mode a b t1 t2)
      (Derives (Single gs P mode) (tree a) (tree t2) ∨ Derives (Single gs P mode) (tree b) (tree t2)) := by
    intro a b found
    obtain ⟨p,rfl⟩ := asAnd_some found
    obtain ⟨one,other⟩ := over_and.mp over1
    have lighter := @and_lighter p a b
    rw [splitAnd_eq (leaves.decided_over over2 other) (leaves.notParam_over over2)]
    refine ((again one over2 (by omega)).orElse ((again other over2 (by omega)).orElse (decides_false not_false))).congr ?_
    rw [or_false]
  split
  · rename_i l r found
    obtain ⟨p,rfl⟩ := asOr_some found
    obtain ⟨one,other⟩ := over_or.mp over2
    have lighter := @or_lighter p l r
    rw [splitOr_eq (leaves.decided_over over1 other) (leaves.notParam_over over1),derives_orType_iff noOr1 settled free]
    refine (again over1 one (by omega)).orElse ((again over1 other (by omega)).orElse ?_)
    cases inter : asAnd t1 with
    | none => exact decides_false (by simp)
    | some parts =>
      obtain ⟨a,b⟩ := parts
      exact (splits inter).congr (by simp)
  rename_i noOr2
  have right := tree_leaf noOr2 noAnd2
  split
  · rename_i a b inter
    exact (splits inter).congr (derives_andType_iff inter settled right).symm
  · rename_i noAnd1
    have inside1 := over_leaf over1 noOr1 noAnd1
    have inside2 := over_leaf over2 noOr2 noAnd2
    obtain ⟨result,returns⟩ := leaves.total t1 t2 inside1 inside2
    refine ⟨result,yields_ask.mpr returns,?_⟩
    rw [tree_leaf noOr1 noAnd1,right]
    constructor
    · rintro rfl
      exact .leaf ⟨inside1,inside2,returns⟩
    · intro derives
      cases derives with
      | leaf related => exact returns.unique related.2.2

theorem Leaves.sub_total (leaves : Leaves gs mode P) (over1 : Over P t1) (over2 : Over P t2) :
    ∃ result, Returns (step gs) (.sub mode t1 t2) result := by
  simpa only [yields_sub] using (leaves.sub_decides over1 over2).total

theorem Leaves.sub_iff (leaves : Leaves gs mode P) (over1 : Over P t1) (over2 : Over P t2) :
    Returns (step gs) (.sub mode t1 t2) true ↔ Derives (Single gs P mode) (tree t1) (tree t2) := by
  rw [← yields_sub]
  exact (leaves.sub_decides over1 over2).yields_iff

end Layer

end Types
