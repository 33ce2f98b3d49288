import ScipRuby.Types.LubTotality

namespace Types
open OpenRecursion UnionIntersection

section GlbLeaves
variable {gs : GlobalState} {S : ClassOrModuleRef → Prop} {d : Nat} {t1 t2 : Ty}

theorem met_bottom : Met gs S d t1 t2 bottom := met_light within_class ⟨rfl,rfl⟩

theorem glbElems_ensures {elems1 elems2 : List Ty} (lower : JoinsAt gs S d) (left : ∀ t ∈ elems1, Within gs S d t)
    (right : ∀ t ∈ elems2, Within gs S d t) : (glbElems elems1 elems2).Ensures (step gs) fun outcome =>
      ∀ elems, outcome = some elems → ∀ t ∈ elems, Within gs S d t := by
  induction elems1 generalizing elems2 with
  | nil => exact ensures_pure (by rintro elems ⟨⟩; nofun)
  | cons a elems1 ih =>
    cases elems2 with
    | nil => exact ensures_pure (by rintro elems ⟨⟩; nofun)
    | cons b elems2 =>
      refine ensures_bind_of (lower a b (left a (by simp)) (right b (by simp))).2 fun met within => ?_
      split
      · exact ensures_pure nofun
      refine ensures_bind_of (ih (fun t present => left t (by simp [present]))
        fun t present => right t (by simp [present])) fun rest all => ?_
      refine ensures_pure fun elems whole => ?_
      obtain ⟨others,rfl,rfl⟩ := Option.map_eq_some_iff.mp whole
      exact List.forall_mem_cons.mpr ⟨within,all others rfl⟩

theorem glbTuples_ensures {p q : Address} {elems1 elems2 : List Ty} (lower : JoinsAt gs S (d - 1))
    (left : Within gs S d (.tupleType p elems1)) (right : Within gs S d (.tupleType q elems2)) :
    (glbTuples (.tupleType p elems1) elems1 (.tupleType q elems2) elems2).Ensures (step gs)
      (Met gs S d (.tupleType p elems1) (.tupleType q elems2)) := by
  obtain ⟨counted,positive,inside1⟩ := within_tuple.mp left
  obtain ⟨_,_,inside2⟩ := within_tuple.mp right
  unfold glbTuples
  split
  · refine ensures_bind_of (glbElems_ensures lower inside1 inside2) fun outcome facts => ?_
    cases outcome with
    | none => exact ensures_pure met_bottom
    | some elems =>
      dsimp only
      split
      · exact ensures_pure (met_left left)
      split
      · exact ensures_pure (met_right right)
      · exact ensures_pure (met_light (within_tuple.mpr ⟨counted,positive,facts elems rfl⟩) ⟨rfl,rfl⟩)
  · exact ensures_pure met_bottom

theorem met_choice (within : Within gs S d t1) (accepted : Bool) :
    (pure (if accepted then t1 else bottom) : Eval Ty).Ensures (step gs) (Met gs S d t1 t2) := by
  cases accepted with
  | false => exact ensures_pure met_bottom
  | true => exact ensures_pure (met_left within)

theorem glbProxies_ensures (lower : 0 < d → JoinsAt gs S (d - 1)) (left : WithinLeaf gs S d t1)
    (right : WithinLeaf gs S d t2) (proxy1 : isProxyType t1 = true) (proxy2 : isProxyType t2 = true) :
    (glbProxies t1 t2).Ensures (step gs) (Met gs S d t1 t2) := by
  cases left.form with
  | klass c => cases proxy1
  | applied p c ts formed => cases proxy1
  | literal t1 c literal =>
    obtain ⟨_,noTuple,noShape⟩ := literal_simple literal
    simp only [glbProxies,noTuple,noShape]
    exact met_choice left.1 _
  | tuple p elems1 =>
    cases right.form with
    | klass c => cases proxy2
    | applied q c ts formed => cases proxy2
    | literal t2 c literal =>
      obtain ⟨_,noTuple,noShape⟩ := literal_simple literal
      simp only [glbProxies,noTuple,noShape]
      exact met_choice left.1 _
    | tuple q elems2 =>
      obtain ⟨counted,positive,_⟩ := within_tuple.mp left.1
      exact glbTuples_ensures (lower positive) left.1 right.1

theorem glbGround_ensures {c1 c2 : ClassOrModuleRef} :
    (glbGround gs (.classType c1) (.classType c2)).Ensures (step gs) (Met gs S d (.classType c1) (.classType c2)) := by
  unfold glbGround
  split
  · exact ensures_pure (met_left within_class)
  simp only [asClass]
  split
  · exact ensures_pure (met_left within_class)
  split
  · exact ensures_pure (met_right within_class)
  split
  · exact ensures_pure met_bottom
  split
  · exact ensures_pure met_bottom
  · exact ensures_pure (met_and within_class within_class (Nat.le_refl _))

-- Whether an argument respects the bounds of a type member can be told.
def Bounded (gs : GlobalState) (S : ClassOrModuleRef → Prop) (d : Nat) : Prop :=
  ∀ c, S c → ∀ m ∈ gs.typeMembers c, ∃ lowerBound upperBound, gs.bounds m = some (lowerBound,upperBound) ∧
    ∀ t, Within gs S d t → ∃ result, (andAlso (isSubType lowerBound t) (isSubType t upperBound)).Yields (step gs) result

theorem glbArgument_ensures {c : ClassOrModuleRef} {idx : TypeMemberRef} {variance : Variance} {a b : Ty}
    (sub : Compares gs S d) (lower : JoinsAt gs S d) (bounded : Bounded gs S d) (klass : S c)
    (declared : idx ∈ gs.typeMembers c) (left : Within gs S d a) (right : Within gs S d b) :
    (glbArgument gs idx variance a b).Ensures (step gs) fun outcome => ∀ t, outcome = some t → Within gs S d t := by
  cases variance with
  | coVariant =>
    refine ensures_bind_of (lower a b left right).2 fun met within => ensures_pure ?_
    rintro t ⟨⟩
    exact within
  | invariant =>
    refine ensures_bind_any (andAlso_total (sub _ a b left right) (sub _ b a right left)) fun same => ?_
    split
    · split
      · obtain ⟨lowerBound,upperBound,bounds,ends⟩ := bounded c klass idx declared
        simp only [bounds]
        refine ensures_bind_any (ends b right) fun inside => ensures_pure ?_
        rintro t ⟨⟩
        split
        · exact right
        · exact left
      · refine ensures_pure ?_
        rintro t ⟨⟩
        exact left
    · exact ensures_pure nofun
  | contraVariant =>
    refine ensures_bind_of (lower a b left right).1 fun joined within => ensures_pure ?_
    rintro t ⟨⟩
    exact within

theorem respectsVariance_total {c1 c2 : ClassOrModuleRef} {idx : TypeMemberRef} {a b : Ty} (sub : Compares gs S d)
    (left : Within gs S d a) (right : Within gs S d b) :
    ∃ result, (respectsVariance gs c1 c2 idx a b).Yields (step gs) result := by
  unfold respectsVariance
  split
  · cases gs.variance idx with
    | coVariant => exact sub _ b a right left
    | invariant => exact andAlso_total (sub _ a b left right) (sub _ b a right left)
    | contraVariant => exact sub _ a b left right
  · exact ⟨true,yields_pure.mpr rfl⟩

theorem glbNewTarg_ensures {c1 c2 : ClassOrModuleRef} {idx : TypeMemberRef} {index : Option TypeMemberRef} {a : Ty}
    {targs2 : List Ty} (sub : Compares gs S d) (lower : JoinsAt gs S d) (bounded : Bounded gs S d) (klass : S c1)
    (declared : idx ∈ gs.typeMembers c1) (formed2 : targs2.length = (gs.typeMembers c2).length) (left : Within gs S d a)
    (right : ∀ t ∈ targs2, Within gs S d t) : (glbNewTarg gs c2 targs2 idx index a).Ensures (step gs) fun outcome =>
      ∀ t, outcome = some t → Within gs S d t := by
  unfold glbNewTarg
  split
  · refine ensures_pure ?_
    rintro t ⟨⟩
    exact left
  · rename_i found i aligned
    obtain ⟨_,_,mapped⟩ := Option.bind_eq_some_iff.mp aligned
    obtain ⟨j,located,pair⟩ := Option.map_eq_some_iff.mp mapped
    obtain ⟨rfl,rfl⟩ := Prod.mk.inj pair
    have bound : j < targs2.length := formed2 ▸ idxOf?_lt located
    simp only [List.getElem?_eq_getElem bound]
    exact glbArgument_ensures sub lower bounded klass declared left (right _ (List.getElem_mem bound))

theorem glbArguments_ensures {c1 c2 : ClassOrModuleRef} {members1 indexes : List TypeMemberRef} {targs1 targs2 : List Ty}
    (sub : Compares gs S d) (lower : JoinsAt gs S d) (bounded : Bounded gs S d) (klass : S c1)
    (declared : ∀ m ∈ members1, m ∈ gs.typeMembers c1) (formed1 : targs1.length = members1.length)
    (formed2 : targs2.length = (gs.typeMembers c2).length) (left : ∀ t ∈ targs1, Within gs S d t)
    (right : ∀ t ∈ targs2, Within gs S d t) :
    (glbArguments gs c1 c2 targs2 members1 indexes targs1).Ensures (step gs) fun outcome =>
      ∀ newTargs, outcome = some newTargs → newTargs.length = members1.length ∧ ∀ t ∈ newTargs, Within gs S d t := by
  induction members1 generalizing indexes targs1 with
  | nil =>
    refine ensures_pure ?_
    rintro newTargs ⟨⟩
    exact ⟨rfl,nofun⟩
  | cons idx members1 ih =>
    obtain ⟨a,targs1,rfl⟩ := List.exists_cons_of_length_eq_add_one formed1
    have one : Within gs S d a := left a (by simp)
    have first : (glbNewTarg gs c2 targs2 idx indexes.head? a).Ensures (step gs) fun outcome =>
        ∀ t, outcome = some t → Within gs S d t :=
      glbNewTarg_ensures sub lower bounded klass (declared idx (by simp)) formed2 one right
    refine ensures_bind_of first fun merged kept => ?_
    cases merged with
    | none => exact ensures_pure nofun
    | some newTarg =>
      have within := kept newTarg rfl
      refine ensures_bind_any (respectsVariance_total sub one within) fun respects => ?_
      split
      · refine ensures_bind_of (ih (fun m present => declared m (by simp [present])) (by simpa using formed1)
          fun t present => left t (by simp [present])) fun rest facts => ?_
        refine ensures_pure fun newTargs whole => ?_
        obtain ⟨others,rfl,rfl⟩ := Option.map_eq_some_iff.mp whole
        obtain ⟨length,inside⟩ := facts others rfl
        exact ⟨by simp [length],List.forall_mem_cons.mpr ⟨within,inside⟩⟩
      · exact ensures_pure nofun

theorem glbAppliedTypes_ensures {p q : Address} {c1 c2 : ClassOrModuleRef} {targs1 targs2 : List Ty} {both : Ty}
    (sub : Compares gs S (d - 1)) (lower : JoinsAt gs S (d - 1)) (bounded : Bounded gs S (d - 1))
    (left : Within gs S d (.appliedType p c1 targs1)) (right : Within gs S d (.appliedType q c2 targs2))
    (kept : Met gs S d (.appliedType p c1 targs1) (.appliedType q c2 targs2) both) :
    (glbAppliedTypes gs both (.appliedType p c1 targs1) c1 targs1 (.appliedType q c2 targs2) c2 targs2).Ensures (step gs)
      (Met gs S d (.appliedType p c1 targs1) (.appliedType q c2 targs2)) := by
  obtain ⟨formed1,klass,positive,inside1⟩ := within_applied.mp left
  obtain ⟨formed2,_,_,inside2⟩ := within_applied.mp right
  refine ensures_bind_of (glbArguments_ensures sub lower bounded klass (fun m present => present) formed1 formed2 inside1
    inside2) fun outcome facts => ?_
  cases outcome with
  | none => exact ensures_pure kept
  | some newTargs =>
    obtain ⟨length,within⟩ := facts newTargs rfl
    dsimp only
    split
    · exact ensures_pure (met_left left)
    split
    · exact ensures_pure (met_right right)
    · exact ensures_pure (met_light (within_applied.mpr ⟨length,klass,positive,within⟩) ⟨rfl,rfl⟩)

theorem glbApplied_ensures {p : Address} {c1 : ClassOrModuleRef} {targs1 : List Ty} (sub : Compares gs S d)
    (lower : 0 < d → JoinsAt gs S (d - 1)) (bounded : 0 < d → Bounded gs S (d - 1))
    (left : Within gs S d (.appliedType p c1 targs1)) (right : WithinLeaf gs S d t2) : (glbApplied gs (.appliedType p c1 targs1) c1 targs1 t2).Ensures (step gs)
      (Met gs S d (.appliedType p c1 targs1) t2) := by
  have both : Met gs S d (.appliedType p c1 targs1) t2 (andOf (.appliedType p c1 targs1) t2) :=
    met_and left right.1 (Nat.le_refl _)
  have positive := (within_applied.mp left).2.2.1
  have inner : Compares gs S (d - 1) := sub.mono (Nat.sub_le d 1)
  unfold glbApplied
  cases applied : asApplied t2 with
  | none =>
    dsimp only
    split
    · exact ensures_pure both
    split
    · exact ensures_pure both
    split
    · exact ensures_pure (met_left left)
    split
    · exact ensures_pure both
    · exact ensures_pure met_bottom
  | some parts =>
    obtain ⟨c2,targs2⟩ := parts
    obtain ⟨q,rfl⟩ : ∃ q, t2 = .appliedType q c2 targs2 := by
      cases t2 <;> simp_all [asApplied]
    dsimp only
    split
    · exact glbAppliedTypes_ensures inner (lower positive) (bounded positive) left right.1 both
    split
    · exact (glbAppliedTypes_ensures inner (lower positive) (bounded positive) right.1 left both.swap).imp
        fun r met => met.swap
    split
    · exact ensures_pure met_bottom
    split
    · exact ensures_pure met_bottom
    · exact ensures_pure both

end GlbLeaves

section GlbTrees
variable {gs : GlobalState} {S : ClassOrModuleRef → Prop} {d : Nat} {t1 t2 : Ty}

theorem leftWeight_pos (t : Ty) : 0 < leftWeight t := Nat.lt_of_lt_of_le (by decide) (leftWeight_ge t)

theorem glbDistributeAnd_ensures {p : Address} {l r : Ty} (sub : Compares gs S d)
    (glbs : LighterGlbs gs S d (leftWeight (.andType p l r) * leftWeight t2)) (left : Within gs S d (.andType p l r))
    (right : Within gs S d t2) : (glbDistributeAnd (.andType p l r) l r t2).Ensures (step gs)
      (Met gs S d (.andType p l r) t2) := by
  obtain ⟨one,other⟩ := within_and.mp left
  obtain ⟨lightL,lightR⟩ := @and_lighter p l r
  have whole : leftWeight (.andType p l r) = leftWeight l * leftWeight r := rfl
  have first := glbs l t2 one right (Nat.mul_lt_mul_of_pos_right lightL (leftWeight_pos t2))
  have second := glbs r t2 other right (Nat.mul_lt_mul_of_pos_right lightR (leftWeight_pos t2))
  refine ensures_bind_of first fun n1 met1 => ?_
  have kept1 : Met gs S d (.andType p l r) t2 n1 :=
    ⟨met1.1,Nat.le_trans met1.2 (Nat.mul_le_mul_right _ (Nat.le_of_lt lightL))⟩
  split
  · exact ensures_pure (met_left left)
  refine ensures_bind_of second fun n2 met2 => ?_
  have kept2 : Met gs S d (.andType p l r) t2 n2 :=
    ⟨met2.1,Nat.le_trans met2.2 (Nat.mul_le_mul_right _ (Nat.le_of_lt lightR))⟩
  split
  · exact ensures_pure kept2
  split
  · exact ensures_pure (met_left left)
  split
  · exact ensures_pure kept1
  refine ensures_bind_any (sub _ _ _ met1.1 met2.1) fun below => ?_
  split
  · exact ensures_pure kept1
  refine ensures_bind_any (sub _ _ _ met2.1 met1.1) fun above => ?_
  split
  · exact ensures_pure kept2
  split
  · refine ensures_pure (met_and met1.1 other ?_)
    calc leftWeight n1 * leftWeight r ≤ leftWeight l * leftWeight t2 * leftWeight r := Nat.mul_le_mul_right _ met1.2
      _ = leftWeight (.andType p l r) * leftWeight t2 := by rw [whole,Nat.mul_right_comm]
  split
  · refine ensures_pure (met_and one met2.1 ?_)
    calc leftWeight l * leftWeight n2 ≤ leftWeight l * (leftWeight r * leftWeight t2) := Nat.mul_le_mul_left _ met2.2
      _ = leftWeight (.andType p l r) * leftWeight t2 := by rw [whole,Nat.mul_assoc]
  · exact ensures_pure (met_and left right (Nat.le_refl _))

-- A union of two parts is as heavy as the parts that meet it.
theorem or_product {p : Address} {l r : Ty} (t : Ty) :
    leftWeight t * leftWeight (.orType p l r) = leftWeight t * leftWeight l + leftWeight t * leftWeight r := by
  simp only [leftWeight,Nat.mul_add]

theorem glbBranches_ensures {p : Address} {l r : Ty} (sub : Compares gs S d)
    (glbs : LighterGlbs gs S d (leftWeight t1 * leftWeight (.orType p l r))) (left : Within gs S d t1)
    (right : Within gs S d (.orType p l r)) : (glbBranches gs t1 (.orType p l r) l r).Ensures (step gs)
      (Met gs S d t1 (.orType p l r)) := by
  obtain ⟨one,other⟩ := within_or.mp right
  have product := or_product (p := p) (l := l) (r := r) t1
  have positiveL := Nat.mul_pos (leftWeight_pos t1) (leftWeight_pos l)
  have positiveR := Nat.mul_pos (leftWeight_pos t1) (leftWeight_pos r)
  refine ensures_bind_of (glbs t1 l left one (by omega)) fun lft met1 => ?_
  have kept1 : Met gs S d t1 (.orType p l r) lft := ⟨met1.1,by have := met1.2; omega⟩
  refine ensures_bind_any (sub _ _ _ met1.1 other) fun lftInRight => ?_
  split
  · exact ensures_pure kept1
  refine ensures_bind_of (glbs t1 r left other (by omega)) fun rght met2 => ?_
  have kept2 : Met gs S d t1 (.orType p l r) rght := ⟨met2.1,by have := met2.2; omega⟩
  refine ensures_bind_any (sub _ _ _ met2.1 one) fun rghtInLeft => ?_
  split
  · exact ensures_pure kept2
  split
  · exact ensures_pure kept2
  split
  · exact ensures_pure kept1
  split
  · refine ensures_pure ⟨within_or.mpr ⟨met1.1,met2.1⟩,?_⟩
    have heavy1 := met1.2
    have heavy2 := met2.2
    simp only [orOf,leftWeight] at product ⊢
    omega
  · exact ensures_pure (met_and left right (Nat.le_refl _))

theorem exactUnion_within {a b : Ty} (left : Within gs S d a) (right : Within gs S d b) :
    Within gs S d (exactUnion a b) ∧ leftWeight (exactUnion a b) ≤ leftWeight a + leftWeight b := by
  unfold exactUnion
  split
  · exact ⟨right,by omega⟩
  split
  · exact ⟨left,by omega⟩
  · exact ⟨within_or.mpr ⟨left,right⟩,by simp only [orOf,leftWeight,Nat.le_refl]⟩

theorem glbUnions_ensures {p q : Address} {l1 r1 l2 r2 : Ty}
    (glbs : LighterGlbs gs S d (leftWeight (.orType p l1 r1) * leftWeight (.orType q l2 r2)))
    (lubs : LighterLubs gs S d (leftWeight (.orType p l1 r1) * leftWeight (.orType q l2 r2) + 1))
    (left : Within gs S d (.orType p l1 r1)) (right : Within gs S d (.orType q l2 r2)) :
    (glbUnions gs (.orType p l1 r1) l1 r1 (.orType q l2 r2) l2 r2).Ensures (step gs)
      (Met gs S d (.orType p l1 r1) (.orType q l2 r2)) := by
  obtain ⟨one1,other1⟩ := within_or.mp left
  obtain ⟨one2,other2⟩ := within_or.mp right
  have product : leftWeight (.orType p l1 r1) * leftWeight (.orType q l2 r2) =
      leftWeight l1 * leftWeight l2 + leftWeight l1 * leftWeight r2 +
        (leftWeight r1 * leftWeight l2 + leftWeight r1 * leftWeight r2) := by
    simp only [leftWeight,Nat.mul_add,Nat.add_mul]
    omega
  have positive11 := Nat.mul_pos (leftWeight_pos l1) (leftWeight_pos l2)
  have positive12 := Nat.mul_pos (leftWeight_pos l1) (leftWeight_pos r2)
  have positive21 := Nat.mul_pos (leftWeight_pos r1) (leftWeight_pos l2)
  have positive22 := Nat.mul_pos (leftWeight_pos r1) (leftWeight_pos r2)
  refine ensures_bind_of (glbs l1 l2 one1 one2 (by omega)) fun t11 met11 => ?_
  refine ensures_bind_of (glbs l1 r2 one1 other2 (by omega)) fun t12 met12 => ?_
  refine ensures_bind_of (glbs r1 l2 other1 one2 (by omega)) fun t21 met21 => ?_
  refine ensures_bind_of (glbs r1 r2 other1 other2 (by omega)) fun t22 met22 => ?_
  have heavy11 := met11.2
  have heavy12 := met12.2
  have heavy21 := met21.2
  have heavy22 := met22.2
  split
  · split
    · have upper := exactUnion_within met11.1 met12.1
      have lower := exactUnion_within met21.1 met22.1
      have whole := exactUnion_within upper.1 lower.1
      refine ensures_pure ⟨whole.1,?_⟩
      have heavy := whole.2
      have heavyU := upper.2
      have heavyL := lower.2
      omega
    · refine ensures_bind_of (lubs t11 t12 met11.1 met12.1 (by omega)) fun upper joinedU => ?_
      refine ensures_bind_of (lubs t21 t22 met21.1 met22.1 (by omega)) fun lower joinedL => ?_
      have heavyU := joinedU.2
      have heavyL := joinedL.2
      refine (lubs upper lower joinedU.1 joinedL.1 (by omega)).imp fun r joined => ⟨joined.1,?_⟩
      have heavy := joined.2
      omega
  · exact ensures_pure (met_and left right (Nat.le_refl _))

theorem glbWithOr_ensures {p : Address} {l r : Ty} (sub : Compares gs S d)
    (glbs : LighterGlbs gs S d (leftWeight t1 * leftWeight (.orType p l r)))
    (lubs : LighterLubs gs S d (leftWeight t1 * leftWeight (.orType p l r) + 1)) (left : Within gs S d t1)
    (right : Within gs S d (.orType p l r)) : (glbWithOr gs t1 (.orType p l r) l r).Ensures (step gs)
      (Met gs S d t1 (.orType p l r)) := by
  refine ensures_bind_any (sub _ _ _ left right) fun collapseInLeft => ?_
  split
  · exact ensures_pure (met_left left)
  refine ensures_bind_any (sub _ _ _ right left) fun collapseInRight => ?_
  split
  · exact ensures_pure (met_right right)
  split
  · exact glbBranches_ensures sub glbs left right
  split
  · rename_i l1 r1 union
    obtain ⟨q,rfl⟩ := asOr_some union
    exact glbUnions_ensures glbs lubs left right
  · exact ensures_pure (met_and left right (Nat.le_refl _))

theorem glbSorted_ensures (sub : Compares gs S d) (lower : 0 < d → JoinsAt gs S (d - 1))
    (bounded : 0 < d → Bounded gs S (d - 1))
    (glbs : LighterGlbs gs S d (leftWeight t1 * leftWeight t2))
    (lubs : LighterLubs gs S d (leftWeight t1 * leftWeight t2 + 1)) (left : Within gs S d t1) (right : Within gs S d t2)
    (sorted : t1.kind ≤ t2.kind) : (glbSorted gs t1 t2).Ensures (step gs) (Met gs S d t1 t2) := by
  unfold glbSorted
  split
  · rename_i l r inter
    obtain ⟨p,rfl⟩ := asAnd_some inter
    exact glbDistributeAnd_ensures sub glbs left right
  · rename_i l r _ inter
    obtain ⟨p,rfl⟩ := asAnd_some inter
    exact (glbDistributeAnd_ensures sub (by rwa [Nat.mul_comm]) right left).imp fun r met => met.swap
  rename_i noAnd1 noAnd2
  have proxyLeaf : ∀ {t}, Within gs S d t → isProxyType t = true → WithinLeaf gs S d t := by
    intro t within proxy
    exact ⟨within,by cases t <;> simp_all [isProxyType,IsLeaf,asOr,asAnd]⟩
  split
  · rename_i proxy1
    split
    · rename_i proxy2
      exact glbProxies_ensures lower (proxyLeaf left proxy1) (proxyLeaf right proxy2) proxy1 proxy2
    · exact ensures_bind_any (sub _ _ _ left right) fun below => met_choice left below
  split
  · refine ensures_bind_any (sub _ _ _ right left) fun below => ?_
    exact (met_choice right below).imp fun r met => met.swap
  rename_i notProxy1 notProxy2
  have noMeta : ∀ {t}, Within gs S d t → asMeta t = none := by
    intro t within
    cases t with
    | metaType => cases within.plain
    | _ => rfl
  simp only [glbMeta,noMeta left,noMeta right]
  split
  · rename_i l r union
    obtain ⟨p,rfl⟩ := asOr_some union
    exact glbWithOr_ensures sub glbs lubs left right
  rename_i noOr2
  have leaf2 : WithinLeaf gs S d t2 := ⟨right,noOr2,noAnd2⟩
  -- A union sorts behind every leaf.
  have noOr1 : asOr t1 = none := by
    have low := leaf_kind leaf2
    cases t1 with
    | orType => exact absurd (Nat.le_trans sorted low) (by decide : ¬ 12 ≤ 7)
    | _ => rfl
  have leaf1 : WithinLeaf gs S d t1 := ⟨left,noOr1,noAnd1⟩
  cases leaf1.form with
  | applied p c ts formed => exact glbApplied_ensures sub lower bounded left leaf2
  | literal t1 c literal => exact absurd (literal_simple literal).1 notProxy1
  | tuple p ts => exact absurd rfl notProxy1
  | klass c =>
    cases leaf2.form with
    | klass c2 => exact glbGround_ensures
    | applied q c2 ts2 formed2 => exact absurd sorted (by decide : ¬ 2 ≤ 1)
    | literal t2 c2 literal => exact absurd (literal_simple literal).1 notProxy2
    | tuple q ts2 => exact absurd rfl notProxy2

theorem stepGlb_of_sorted (left : Within gs S d t1) (right : Within gs S d t2)
    (further : (if t2.kind < t1.kind then glb t2 t1 else glbSorted gs t1 t2).Ensures (step gs) (Met gs S d t1 t2)) :
    (stepGlb gs t1 t2).Ensures (step gs) (Met gs S d t1 t2) := by
  unfold stepGlb
  split
  · exact ensures_pure (met_left left)
  split
  · exact ensures_pure (met_right right)
  split
  · refine ensures_pure ?_
    split
    · exact met_left left
    · exact met_right right
  split
  · exact ensures_pure (met_left left)
  split
  · exact ensures_pure (met_left left)
  split
  · exact ensures_pure (met_left left)
  split
  · exact ensures_pure (met_right right)
  · exact further

-- One call of glb, from the calls on lighter arguments.
theorem glb_ensures (sub : Compares gs S d) (lower : 0 < d → JoinsAt gs S (d - 1))
    (bounded : 0 < d → Bounded gs S (d - 1))
    (glbs : LighterGlbs gs S d (leftWeight t1 * leftWeight t2))
    (lubs : LighterLubs gs S d (leftWeight t1 * leftWeight t2 + 1)) (left : Within gs S d t1) (right : Within gs S d t2) :
    (glb t1 t2).Ensures (step gs) (Met gs S d t1 t2) := by
  have swapped := Nat.mul_comm (leftWeight t1) (leftWeight t2)
  refine ensures_ask (stepGlb_of_sorted left right ?_)
  split
  · rename_i unsorted
    have other := glbSorted_ensures sub lower bounded (swapped ▸ glbs) (swapped ▸ lubs) right left
      (Nat.le_of_lt unsorted)
    refine (ensures_ask (stepGlb_of_sorted right left ?_)).imp fun r met => met.swap
    rwa [if_neg (Nat.not_lt_of_lt unsorted)]
  · rename_i sorted
    exact glbSorted_ensures sub lower bounded glbs lubs left right (Nat.le_of_not_lt sorted)

end GlbTrees

section Joins
variable {gs : GlobalState} {S : ClassOrModuleRef → Prop} {d : Nat}

-- The two operations at one depth, by induction on the weight of their arguments.
theorem joinsAt_of_lower (table : Redeclares gs) (sub : Compares gs S d) (lower : 0 < d → JoinsAt gs S (d - 1))
    (bounded : 0 < d → Bounded gs S (d - 1)) : JoinsAt gs S d := by
  have joins : TupleJoins gs S d := tupleJoins_of_lower lower
  have both : ∀ n, LighterLubs gs S d n ∧ LighterGlbs gs S d n := by
    intro n
    induction n with
    | zero => exact ⟨fun _ _ _ _ light => absurd light (Nat.not_lt_zero _),fun _ _ _ _ light => absurd light (Nat.not_lt_zero _)⟩
    | succ n ih =>
      have lubs : LighterLubs gs S d (n + 1) := by
        intro a b left right light
        have bound : leftWeight a + leftWeight b ≤ n := Nat.le_of_lt_succ light
        refine lub_ensures table sub joins lower ?_ ?_ left right
        · exact fun x y wx wy less => ih.1 x y wx wy (Nat.lt_of_lt_of_le less bound)
        · exact fun x y wx wy less => ih.2 x y wx wy (Nat.lt_of_lt_of_le less bound)
      refine ⟨lubs,?_⟩
      intro a b left right light
      have bound : leftWeight a * leftWeight b ≤ n := Nat.le_of_lt_succ light
      refine glb_ensures sub lower bounded ?_ ?_ left right
      · exact fun x y wx wy less => ih.2 x y wx wy (Nat.lt_of_lt_of_le less bound)
      · exact fun x y wx wy less => lubs x y wx wy (Nat.lt_of_lt_of_le less (Nat.succ_le_succ bound))
  intro t1 t2 left right
  refine ⟨?_,?_⟩
  · exact ((both _).1 t1 t2 left right (Nat.lt_succ_self _)).imp fun r joined => joined.1
  · exact ((both _).2 t1 t2 left right (Nat.lt_succ_self _)).imp fun r met => met.1

-- Every type within the bounds is comparable when the elements of its tuples can be joined.
theorem comparable_of_lower {t : Ty} (lower : 0 < d → JoinsAt gs S (d - 1))
    (inner : 0 < d → ∀ t, Within gs S (d - 1) t → Comparable gs (d - 1) t) (within : Within gs S d t) :
    Comparable gs d t := by
  refine comparable_over.mpr fun a present => ?_
  have leaf := within_over.mp within a present
  refine ⟨?_,leaf.2⟩
  cases leaf.form with
  | klass c => exact .klass c
  | literal a c literal => exact .literal literal
  | applied p c targs =>
    obtain ⟨formed,_,positive,inside⟩ := within_applied.mp leaf.1
    exact .applied p formed positive fun t member => inner positive t (inside t member)
  | tuple p elems =>
    obtain ⟨_,positive,inside⟩ := within_tuple.mp leaf.1
    obtain ⟨_,joined,q,elem,rfl,below⟩ := tupleJoins_of_lower lower p elems leaf.1
    exact .tuple p positive (fun t member => inner positive t (inside t member)) joined (inner positive elem below)

-- Subtyping, lub and glb answer at every depth once the bounds of type members can be told.
theorem answers (table : Redeclares gs)
    (bounded : ∀ d, (∀ t, Within gs S d t → Comparable gs d t) → Bounded gs S d) (d : Nat) :
    (∀ t, Within gs S d t → Comparable gs d t) ∧ JoinsAt gs S d := by
  induction d with
  | zero =>
    have comparable : ∀ t, Within gs S 0 t → Comparable gs 0 t :=
      fun t => comparable_of_lower (fun impossible => absurd impossible (Nat.lt_irrefl 0)) fun impossible =>
        absurd impossible (Nat.lt_irrefl 0)
    refine ⟨comparable,joinsAt_of_lower table ?_ (fun impossible => absurd impossible (Nat.lt_irrefl 0)) fun impossible =>
      absurd impossible (Nat.lt_irrefl 0)⟩
    exact fun mode t1 t2 left right => subTotal table 0 mode t1 t2 (comparable t1 left) (comparable t2 right)
  | succ d ih =>
    have comparable : ∀ t, Within gs S (d + 1) t → Comparable gs (d + 1) t :=
      fun t => comparable_of_lower (fun _ => ih.2) fun _ => ih.1
    refine ⟨comparable,joinsAt_of_lower table ?_ (fun _ => ih.2) fun _ => bounded d ih.1⟩
    exact fun mode t1 t2 left right => subTotal table (d + 1) mode t1 t2 (comparable t1 left) (comparable t2 right)

end Joins

-- Comparing a type with the bounds of a type member comes to an end.
def BoundsEnd (gs : GlobalState) : Prop :=
  ∀ c, ∀ m ∈ gs.typeMembers c, ∃ lowerBound upperBound, gs.bounds m = some (lowerBound,upperBound) ∧
    ∀ t, Plain gs t → ∃ result, (andAlso (isSubType lowerBound t) (isSubType t upperBound)).Yields (step gs) result

section Plain
variable {gs : GlobalState}

theorem plain_answers (table : Redeclares gs) (bounds : BoundsEnd gs) (d : Nat) :
    (∀ t, Within gs (fun _ => True) d t → Comparable gs d t) ∧ JoinsAt gs (fun _ => True) d := by
  refine answers table (fun d _ c _ m member => ?_) d
  obtain ⟨lowerBound,upperBound,given,ends⟩ := bounds c m member
  exact ⟨lowerBound,upperBound,given,fun t within => ends t within.plain⟩

theorem plain_comparable {t : Ty} (table : Redeclares gs) (bounds : BoundsEnd gs) (plain : Plain gs t) :
    Comparable gs t.depth t := (plain_answers table bounds t.depth).1 t plain.within

theorem plain_tupleJoins (table : Redeclares gs) (bounds : BoundsEnd gs) {d : Nat} :
    TupleJoins gs (fun _ => True) d := tupleJoins_of_lower fun _ => (plain_answers table bounds (d - 1)).2

end Plain

-- Tuples of applied types of some classes only.
mutual
def Ty.TuplesIn (S : ClassOrModuleRef → Prop) : Ty → Prop
  | .appliedType _ _ targs => Ty.AllTuplesIn S targs
  | .tupleType p elems => (Ty.tupleType p elems).AppliedIn S
  | .orType _ left right => left.TuplesIn S ∧ right.TuplesIn S
  | .andType _ left right => left.TuplesIn S ∧ right.TuplesIn S
  | _ => True
def Ty.AllTuplesIn (S : ClassOrModuleRef → Prop) : List Ty → Prop
  | [] => True
  | t :: ts => t.TuplesIn S ∧ Ty.AllTuplesIn S ts
end

-- The classes can be put in an order such that a tuple in the bounds of a type member mentions earlier
-- generic classes only.
def BoundsOrdered (gs : GlobalState) (order : ClassOrModuleRef → Nat) : Prop :=
  ∀ c, ∀ m ∈ gs.typeMembers c, ∃ lowerBound upperBound, gs.bounds m = some (lowerBound,upperBound) ∧
    (Plain gs lowerBound ∧ lowerBound.TuplesIn fun x => order x < order c) ∧
    (Plain gs upperBound ∧ upperBound.TuplesIn fun x => order x < order c)

section Ordered
variable {gs : GlobalState} {S : ClassOrModuleRef → Prop} {order : ClassOrModuleRef → Nat}

mutual
theorem tuplesIn_comparable (known : ∀ d t, Within gs S d t → Comparable gs d t) :
    ∀ t : Ty, Plain gs t → t.TuplesIn S → Comparable gs t.depth t
  | .classType c,_,_ => .klass c
  | .namedLiteralType kind _,_,_ => .literal (c := kind.klass) rfl
  | .integerLiteralType _ _,_,_ => .literal (c := Symbols.Integer) rfl
  | .floatLiteralType _ _,_,_ => .literal (c := Symbols.Float) rfl
  | .appliedType p c targs,plain,tuples => by
    simp only [Plain,Ty.TuplesIn] at plain tuples
    refine .applied p plain.1 (by simp only [Ty.depth]; omega) fun t present => ?_
    exact allTuplesIn_comparable known targs plain.2 tuples t present
  | .tupleType p elems,plain,tuples => known _ _ ⟨plain,tuples,Nat.le_refl _⟩
  | .orType p l r,plain,tuples => by
    simp only [Plain,Ty.TuplesIn] at plain tuples
    have left := tuplesIn_comparable known l plain.1 tuples.1
    have right := tuplesIn_comparable known r plain.2 tuples.2
    exact .union p (left.mono (Nat.le_max_left _ _)) (right.mono (Nat.le_max_right _ _))
  | .andType p l r,plain,tuples => by
    simp only [Plain,Ty.TuplesIn] at plain tuples
    have left := tuplesIn_comparable known l plain.1 tuples.1
    have right := tuplesIn_comparable known r plain.2 tuples.2
    exact .inter p (left.mono (Nat.le_max_left _ _)) (right.mono (Nat.le_max_right _ _))
  | .shapeType _ _ _,plain,_ | .selfTypeParam _,plain,_ | .selfType,plain,_ | .metaType _ _,plain,_
  | .typeVar _ _,plain,_ => by simp only [Plain] at plain
theorem allTuplesIn_comparable (known : ∀ d t, Within gs S d t → Comparable gs d t) :
    ∀ ts : List Ty, PlainAll gs ts → Ty.AllTuplesIn S ts → ∀ t ∈ ts, Comparable gs (Ty.depths ts) t
  | [],_,_ => nofun
  | t :: ts,plain,tuples => by
    simp only [PlainAll,Ty.AllTuplesIn] at plain tuples
    have first := tuplesIn_comparable known t plain.1 tuples.1
    have others := allTuplesIn_comparable known ts plain.2 tuples.2
    refine List.forall_mem_cons.mpr ⟨first.mono (Nat.le_max_left _ _),fun x present => ?_⟩
    exact (others x present).mono (Nat.le_max_right _ _)
end

-- A type is compared with the bounds of a class once the classes before it are settled.
theorem BoundsOrdered.ends (table : Redeclares gs) (ordered : BoundsOrdered gs order) {c : ClassOrModuleRef}
    {m : TypeMemberRef} (member : m ∈ gs.typeMembers c)
    (known : ∀ d t, Within gs (fun x => order x < order c) d t → Comparable gs d t) :
    ∃ lowerBound upperBound, gs.bounds m = some (lowerBound,upperBound) ∧ ∀ d t, Comparable gs d t →
      ∃ result, (andAlso (isSubType lowerBound t) (isSubType t upperBound)).Yields (step gs) result := by
  obtain ⟨lowerBound,upperBound,given,⟨low,lowTuples⟩,high,highTuples⟩ := ordered c m member
  refine ⟨lowerBound,upperBound,given,fun d t comparable => ?_⟩
  have left := tuplesIn_comparable known lowerBound low lowTuples
  have right := tuplesIn_comparable known upperBound high highTuples
  exact andAlso_total (sub_total table left comparable) (sub_total table comparable right)

theorem BoundsOrdered.answers (table : Redeclares gs) (ordered : BoundsOrdered gs order)
    (known : ∀ c, S c → ∀ d t, Within gs (fun x => order x < order c) d t → Comparable gs d t) (d : Nat) :
    ∀ t, Within gs S d t → Comparable gs d t := by
  refine (Types.answers table (fun d settled c inside m member => ?_) d).1
  obtain ⟨lowerBound,upperBound,given,ends⟩ := ordered.ends table member (known c inside)
  exact ⟨lowerBound,upperBound,given,fun t within => ends d t (settled t within)⟩

theorem BoundsOrdered.comparable (table : Redeclares gs) (ordered : BoundsOrdered gs order) (r : Nat) :
    ∀ d t, Within gs (fun x => order x < r) d t → Comparable gs d t := by
  induction r using Nat.strongRecOn with
  | _ r ih => exact ordered.answers table fun c below => ih (order c) below

theorem boundsEnd_of_order (table : Redeclares gs) (ordered : BoundsOrdered gs order) : BoundsEnd gs := by
  have known (c : ClassOrModuleRef) := ordered.comparable table (order c)
  intro c m member
  obtain ⟨lowerBound,upperBound,given,ends⟩ := ordered.ends table member (known c)
  refine ⟨lowerBound,upperBound,given,fun t plain => ends t.depth t ?_⟩
  exact ordered.answers table (fun c _ => known c) t.depth t plain.within

end Ordered
end Types
