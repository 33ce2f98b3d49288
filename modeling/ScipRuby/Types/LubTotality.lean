import ScipRuby.Types.Totality

namespace Types
open OpenRecursion UnionIntersection

-- A result of lub, no deeper and no heavier than its arguments together.
def Joined (gs : GlobalState) (S : ClassOrModuleRef → Prop) (d : Nat) (t1 t2 r : Ty) : Prop :=
  Within gs S d r ∧ leftWeight r ≤ leftWeight t1 + leftWeight t2

-- A result of glb, whose weight is at most that of the intersection of its arguments.
def Met (gs : GlobalState) (S : ClassOrModuleRef → Prop) (d : Nat) (t1 t2 r : Ty) : Prop :=
  Within gs S d r ∧ leftWeight r ≤ leftWeight t1 * leftWeight t2

-- Subtyping answers within the bounds.
def Compares (gs : GlobalState) (S : ClassOrModuleRef → Prop) (d : Nat) : Prop :=
  ∀ mode t1 t2, Within gs S d t1 → Within gs S d t2 →
    ∃ result, (isSubTypeUnderConstraint mode t1 t2).Yields (step gs) result

-- Both operations answer within the bounds.
def JoinsAt (gs : GlobalState) (S : ClassOrModuleRef → Prop) (d : Nat) : Prop :=
  ∀ t1 t2, Within gs S d t1 → Within gs S d t2 →
    (lub t1 t2).Ensures (step gs) (Within gs S d) ∧ (glb t1 t2).Ensures (step gs) (Within gs S d)

section Results
variable {gs : GlobalState} {S : ClassOrModuleRef → Prop} {d : Nat} {t1 t2 r : Ty}

theorem leftWeight_leaf {t : Ty} (leaf : IsLeaf t) : leftWeight t ≤ 3 := by
  cases t with
  | orType => cases leaf.1
  | andType => cases leaf.2
  | _ => simp only [leftWeight]; split <;> decide

theorem joined_light (within : Within gs S d r) (leaf : IsLeaf r) : Joined gs S d t1 t2 r := by
  have light := leftWeight_leaf leaf
  have left := leftWeight_ge t1
  have right := leftWeight_ge t2
  exact ⟨within,by omega⟩

theorem joined_left (within : Within gs S d t1) : Joined gs S d t1 t2 t1 := ⟨within,by omega⟩
theorem joined_right (within : Within gs S d t2) : Joined gs S d t1 t2 t2 := ⟨within,by omega⟩

theorem joined_or {a b : Ty} (left : Within gs S d a) (right : Within gs S d b)
    (light : leftWeight a + leftWeight b ≤ leftWeight t1 + leftWeight t2) : Joined gs S d t1 t2 (orOf a b) :=
  ⟨within_or.mpr ⟨left,right⟩,by simpa only [orOf,leftWeight] using light⟩

theorem Joined.swap (joined : Joined gs S d t2 t1 r) : Joined gs S d t1 t2 r :=
  ⟨joined.1,by have := joined.2; omega⟩

theorem met_left (within : Within gs S d t1) : Met gs S d t1 t2 t1 :=
  ⟨within,Nat.le_mul_of_pos_right _ (Nat.lt_of_lt_of_le (by decide) (leftWeight_ge t2))⟩
theorem met_right (within : Within gs S d t2) : Met gs S d t1 t2 t2 :=
  ⟨within,Nat.le_mul_of_pos_left _ (Nat.lt_of_lt_of_le (by decide) (leftWeight_ge t1))⟩

theorem met_light (within : Within gs S d r) (leaf : IsLeaf r) : Met gs S d t1 t2 r := by
  have product := Nat.mul_le_mul (leftWeight_ge t1) (leftWeight_ge t2)
  have light := leftWeight_leaf leaf
  exact ⟨within,by omega⟩

theorem met_and {a b : Ty} (left : Within gs S d a) (right : Within gs S d b)
    (light : leftWeight a * leftWeight b ≤ leftWeight t1 * leftWeight t2) : Met gs S d t1 t2 (andOf a b) :=
  ⟨within_and.mpr ⟨left,right⟩,by simpa only [andOf,leftWeight] using light⟩

theorem Met.swap (met : Met gs S d t2 t1 r) : Met gs S d t1 t2 r :=
  ⟨met.1,Nat.mul_comm (leftWeight t2) _ ▸ met.2⟩

theorem within_dropLiteral (within : Within gs S d r) : Within gs S d (dropLiteral r) := by
  unfold dropLiteral
  cases literalClass r with
  | none => exact within
  | some c => exact within_class

theorem within_array {p : Address} (table : Redeclares gs) (array : S Symbols.Array) (positive : 0 < d)
    (within : Within gs S (d - 1) r) : Within gs S d (.appliedType p Symbols.Array [r]) := by
  refine within_applied.mpr ⟨table.array.symm,array,positive,fun t present => ?_⟩
  cases List.mem_singleton.mp present
  exact within

theorem Compares.mono {d' : Nat} (compares : Compares gs S d) (deep : d' ≤ d) : Compares gs S d' :=
  fun mode t1 t2 left right => compares mode t1 t2 (left.mono deep) (right.mono deep)

end Results

section Underlying
variable {gs : GlobalState} {S : ClassOrModuleRef → Prop} {d : Nat} {t : Ty}

theorem lubAllFrom_ensures {elems : List Ty} {acc : Ty} (lower : JoinsAt gs S d) (start : Within gs S d acc)
    (inside : ∀ t ∈ elems, Within gs S d t) : (lubAllFrom acc elems).Ensures (step gs) (Within gs S d) := by
  induction elems generalizing acc with
  | nil => exact ensures_pure start
  | cons el elems ih =>
    refine ensures_bind_of (lower acc el start (inside el (by simp))).1 fun joined within => ?_
    exact ih within fun t present => inside t (by simp [present])

-- What a tuple is compared as, once its elements can be joined.
def TupleJoins (gs : GlobalState) (S : ClassOrModuleRef → Prop) (d : Nat) : Prop :=
  ∀ p elems, Within gs S d (.tupleType p elems) → (proxyUnderlying (.tupleType p elems)).Ensures (step gs)
    fun und => ∃ q elem, und = .appliedType q Symbols.Array [elem] ∧ Within gs S (d - 1) elem

theorem tupleJoins_of_lower (lower : 0 < d → JoinsAt gs S (d - 1)) : TupleJoins gs S d := by
  intro p elems within
  obtain ⟨counted,positive,inside⟩ := within_tuple.mp within
  cases elems with
  | nil => exact ensures_pure ⟨_,_,rfl,within_class⟩
  | cons el elems =>
    refine ensures_bind_of (lubAllFrom_ensures (lower positive) within_class inside) fun joined bound => ?_
    exact ensures_pure ⟨_,_,rfl,within_dropLiteral bound⟩

-- What a leaf that is a proxy stands for.
theorem proxyUnderlying_ensures (table : Redeclares gs) (joins : TupleJoins gs S d) (within : WithinLeaf gs S d t)
    (proxy : isProxyType t = true) : (proxyUnderlying t).Ensures (step gs) fun und =>
      WithinLeaf gs S d und ∧ isProxyType und = false ∧ (asTuple t = none → ∃ c, und = .classType c ∧ leftWeight t = 3) := by
  cases within.form with
  | klass c => cases proxy
  | applied p c ts formed => cases proxy
  | literal t c literal =>
    rw [proxyUnderlying_literal literal]
    refine ensures_pure ⟨⟨within_class,rfl,rfl⟩,rfl,fun _ => ⟨c,rfl,?_⟩⟩
    cases t <;> simp_all [literalClass,leftWeight]
  | tuple p ts =>
    obtain ⟨counted,positive,_⟩ := within_tuple.mp within.1
    refine (joins p ts within.1).imp ?_
    rintro und ⟨q,elem,rfl,inside⟩
    refine ⟨⟨within_array table counted positive (inside),rfl,rfl⟩,rfl,?_⟩
    intro impossible
    cases impossible

theorem underlying_ensures (table : Redeclares gs) (joins : TupleJoins gs S d) (within : Within gs S d t) :
    (underlying t).Ensures (step gs) fun und => Within gs S d und ∧ leftWeight und ≤ leftWeight t := by
  unfold underlying
  split
  · rename_i proxy
    have leaf : WithinLeaf gs S d t := ⟨within,by cases t <;> simp_all [isProxyType,IsLeaf,asOr,asAnd]⟩
    refine (proxyUnderlying_ensures table joins leaf proxy).imp fun und facts => ⟨facts.1.1,?_⟩
    have light : leftWeight und = 2 := by
      have noLiteral := facts.2.1
      have isLeaf := facts.1.2
      cases und <;> simp_all [isProxyType,leftWeight,literalClass,IsLeaf,asOr,asAnd]
    have heavy := leftWeight_ge t
    omega
  · exact ensures_pure ⟨within,Nat.le_refl _⟩

end Underlying

theorem aligned_argument {members : List TypeMemberRef} {targs : List Ty} {index : TypeMemberRef}
    (formed : targs.length = members.length) (declared : index ∈ members) :
    ∃ a ∈ targs, (members.idxOf? index).bind (targs[·]?) = some a := by
  cases found : members.idxOf? index with
  | none => exact absurd declared (List.idxOf?_eq_none_iff.mp found)
  | some i =>
    have bound : i < targs.length := formed ▸ idxOf?_lt found
    exact ⟨targs[i],List.getElem_mem bound,List.getElem?_eq_getElem bound⟩

section LubLeaves
variable {gs : GlobalState} {S : ClassOrModuleRef → Prop} {d : Nat} {t1 t2 : Ty}

theorem lubArgument_ensures {variance : Variance} {a b : Ty} (sub : Compares gs S d) (lower : JoinsAt gs S d)
    (left : Within gs S d a) (right : Within gs S d b) :
    (lubArgument variance a b).Ensures (step gs) fun outcome => ∀ t, outcome = some t → Within gs S d t := by
  cases variance with
  | coVariant =>
    refine ensures_bind_of (lower a b left right).1 fun joined within => ensures_pure ?_
    rintro t ⟨⟩
    exact within
  | invariant =>
    refine ensures_bind_any (andAlso_total (sub _ a b left right) (sub _ b a right left)) fun same => ensures_pure ?_
    intro t merged
    split at merged
    · split at merged <;> cases merged
      · exact left
      · exact right
    · cases merged
  | contraVariant =>
    refine ensures_bind_of (lower a b left right).2 fun met within => ensures_pure ?_
    rintro t ⟨⟩
    exact within

theorem lubArguments_ensures {members1 members2 indexes : List TypeMemberRef} {targs1 targs2 : List Ty}
    (sub : Compares gs S d) (lower : JoinsAt gs S d) (formed1 : targs1.length = members1.length)
    (formed2 : targs2.length = members2.length) (aligned : indexes.length = members2.length)
    (declared : ∀ i ∈ indexes, i ∈ members1) (left : ∀ t ∈ targs1, Within gs S d t)
    (right : ∀ t ∈ targs2, Within gs S d t) :
    (lubArguments gs members1 targs1 members2 indexes targs2).Ensures (step gs) fun outcome =>
      ∀ merged, outcome = some merged → merged.length = members2.length ∧ ∀ m ∈ merged, Within gs S d m.newTarg := by
  induction members2 generalizing indexes targs2 with
  | nil =>
    refine ensures_pure ?_
    rintro merged ⟨⟩
    exact ⟨rfl,nofun⟩
  | cons idx members2 ih =>
    obtain ⟨index,indexes,rfl⟩ := List.exists_cons_of_length_eq_add_one aligned
    obtain ⟨b,targs2,rfl⟩ := List.exists_cons_of_length_eq_add_one formed2
    obtain ⟨a,member,found⟩ := aligned_argument formed1 (declared index (by simp))
    simp only [lubArguments,found]
    refine ensures_bind_of (lubArgument_ensures sub lower (left a member) (right b (by simp))) fun outcome one => ?_
    cases outcome with
    | none =>
      refine ensures_pure ?_
      rintro merged ⟨⟩
    | some newTarg =>
      refine ensures_bind_of (ih (by simpa using formed2) (by simpa using aligned)
        (fun i present => declared i (by simp [present])) fun t present => right t (by simp [present])) fun rest all => ?_
      refine ensures_pure fun merged whole => ?_
      obtain ⟨others,rfl,rfl⟩ := Option.map_eq_some_iff.mp whole
      obtain ⟨length,within⟩ := all others rfl
      refine ⟨by simp [length],fun m present => ?_⟩
      rcases List.mem_cons.mp present with rfl | present
      · exact one newTarg rfl
      · exact within m present

theorem lubAppliedTypes_ensures {p q : Address} {c1 c2 : ClassOrModuleRef} {targs1 targs2 : List Ty}
    (table : Redeclares gs) (sub : Compares gs S (d - 1)) (lower : JoinsAt gs S (d - 1))
    (good : gs.classSymbolIsAsGoodAs c1 c2 = true) (left : Within gs S d (.appliedType p c1 targs1))
    (right : Within gs S d (.appliedType q c2 targs2)) :
    (lubAppliedTypes gs (.appliedType p c1 targs1) c1 targs1 (.appliedType q c2 targs2) c2 targs2).Ensures (step gs)
      (Joined gs S d (.appliedType p c1 targs1) (.appliedType q c2 targs2)) := by
  obtain ⟨formed1,_,positive,inside1⟩ := within_applied.mp left
  obtain ⟨formed2,counted,_,inside2⟩ := within_applied.mp right
  refine ensures_bind_of (lubArguments_ensures sub lower formed1 formed2 (alignBaseTypeArgs_length table good formed1)
    (fun i present => alignBaseTypeArgs_declared table good present) inside1 inside2) fun outcome facts => ?_
  cases outcome with
  | none => exact ensures_pure (joined_or left right (Nat.le_refl _))
  | some merged =>
    obtain ⟨length,within⟩ := facts merged rfl
    dsimp only
    split
    · exact ensures_pure (joined_right right)
    split
    · exact ensures_pure (joined_left left)
    · refine ensures_pure (joined_light (within_applied.mpr
        ⟨by simp [length],counted,positive,fun t present => ?_⟩) ⟨rfl,rfl⟩)
      obtain ⟨m,member,rfl⟩ := List.mem_map.mp present
      exact within m member

theorem good_of_rtl {c1 c2 : ClassOrModuleRef} (related : c1 = c2 ∨ gs.derivesFrom c1 c2 = true) :
    gs.classSymbolIsAsGoodAs c1 c2 = true := by
  rcases related with rfl | derives
  · simp [GlobalState.classSymbolIsAsGoodAs]
  · simp [GlobalState.classSymbolIsAsGoodAs,derives]

theorem lubApplied_ensures {p : Address} {c1 : ClassOrModuleRef} {targs1 : List Ty} (table : Redeclares gs)
    (sub : Compares gs S d) (lower : 0 < d → JoinsAt gs S (d - 1)) (left : Within gs S d (.appliedType p c1 targs1))
    (right : WithinLeaf gs S d t2) : (lubApplied gs (.appliedType p c1 targs1) c1 targs1 t2).Ensures (step gs)
      (Joined gs S d (.appliedType p c1 targs1) t2) := by
  unfold lubApplied
  cases applied : asApplied t2 with
  | none =>
    refine ensures_bind_any (sub _ _ _ right.1 left) fun above => ?_
    split
    · exact ensures_pure (joined_left left)
    refine ensures_bind_any (sub _ _ _ left right.1) fun below => ?_
    split
    · exact ensures_pure (joined_right right.1)
    · exact ensures_pure (joined_or left right.1 (Nat.le_refl _))
  | some parts =>
    obtain ⟨c2,targs2⟩ := parts
    obtain ⟨q,rfl⟩ : ∃ q, t2 = .appliedType q c2 targs2 := by
      cases t2 <;> simp_all [asApplied]
    have positive := (within_applied.mp left).2.2.1
    dsimp only
    split
    · rename_i related
      exact lubAppliedTypes_ensures table (sub.mono (Nat.sub_le d 1)) (lower positive) (good_of_rtl related) left right.1
    split
    · rename_i related
      exact (lubAppliedTypes_ensures table (sub.mono (Nat.sub_le d 1)) (lower positive) (good_of_rtl (.inr related))
        right.1 left).imp fun r joined => joined.swap
    · exact ensures_pure (joined_or left right.1 (Nat.le_refl _))

theorem lubElems_ensures {elems1 elems2 : List Ty} (lower : JoinsAt gs S d) (left : ∀ t ∈ elems1, Within gs S d t)
    (right : ∀ t ∈ elems2, Within gs S d t) :
    (lubElems elems1 elems2).Ensures (step gs) fun elems => ∀ t ∈ elems, Within gs S d t := by
  induction elems1 generalizing elems2 with
  | nil => exact ensures_pure nofun
  | cons a elems1 ih =>
    cases elems2 with
    | nil => exact ensures_pure nofun
    | cons b elems2 =>
      refine ensures_bind_of (lower a b (left a (by simp)) (right b (by simp))).1 fun joined within => ?_
      refine ensures_bind_of (ih (fun t present => left t (by simp [present]))
        fun t present => right t (by simp [present])) fun rest all => ?_
      exact ensures_pure (List.forall_mem_cons.mpr ⟨within,all⟩)

theorem lubTuples_ensures {p q : Address} {elems1 elems2 : List Ty} (table : Redeclares gs)
    (lower : JoinsAt gs S (d - 1)) (left : Within gs S d (.tupleType p elems1))
    (right : Within gs S d (.tupleType q elems2)) :
    (lubTuples (.tupleType p elems1) elems1 (.tupleType q elems2) elems2).Ensures (step gs)
      (Joined gs S d (.tupleType p elems1) (.tupleType q elems2)) := by
  obtain ⟨counted,positive,inside1⟩ := within_tuple.mp left
  obtain ⟨_,_,inside2⟩ := within_tuple.mp right
  unfold lubTuples
  split
  · refine ensures_bind_of (lubElems_ensures lower inside1 inside2) fun elems inside => ?_
    split
    · exact ensures_pure (joined_left left)
    split
    · exact ensures_pure (joined_right right)
    · exact ensures_pure (joined_light (within_tuple.mpr ⟨counted,positive,inside⟩) ⟨rfl,rfl⟩)
  · exact ensures_pure (joined_light (within_array table counted positive within_class) ⟨rfl,rfl⟩)

theorem lubGround_ensures {c1 c2 : ClassOrModuleRef} :
    (lubGround gs (.classType c1) (.classType c2)).Ensures (step gs) (Joined gs S d (.classType c1) (.classType c2)) := by
  unfold lubGround
  split
  · exact ensures_pure (joined_left within_class)
  simp only [asClass]
  split
  · exact ensures_pure (joined_left within_class)
  split
  · exact ensures_pure (joined_right within_class)
  · exact ensures_pure (joined_or within_class within_class (Nat.le_refl _))

-- The calls of lub on lighter arguments, which the induction provides.
def LighterLubs (gs : GlobalState) (S : ClassOrModuleRef → Prop) (d : Nat) (weight : Nat) : Prop :=
  ∀ a b, Within gs S d a → Within gs S d b → leftWeight a + leftWeight b < weight →
    (lub a b).Ensures (step gs) (Joined gs S d a b)

theorem leftWeight_literal {c : ClassOrModuleRef} (literal : literalClass t1 = some c) : leftWeight t1 = 3 := by
  cases t1 <;> simp_all [literalClass,leftWeight]

theorem Joined.within {a b r : Ty} (joined : Joined gs S d a b r)
    (light : leftWeight a + leftWeight b ≤ leftWeight t1 + leftWeight t2) : Joined gs S d t1 t2 r :=
  ⟨joined.1,Nat.le_trans joined.2 light⟩

theorem lubLiteralWithProxy_ensures {c : ClassOrModuleRef} (table : Redeclares gs) (joins : TupleJoins gs S d)
    (lubs : LighterLubs gs S d (leftWeight t1 + leftWeight t2)) (literal : literalClass t1 = some c)
    (right : WithinLeaf gs S d t2) (proxy : isProxyType t2 = true) :
    (lubLiteralWithProxy gs (.classType c) t2).Ensures (step gs) (Joined gs S d t1 t2) := by
  have heavy := leftWeight_literal literal
  have light : leftWeight (.classType c) = 2 := rfl
  have other := leftWeight_ge t2
  unfold lubLiteralWithProxy
  split
  · exact (lubs _ _ within_class right.1 (by omega)).imp fun r joined => joined.within (by omega)
  · refine ensures_bind_of (proxyUnderlying_ensures table joins right proxy) fun und facts => ?_
    have lightest : leftWeight und = 2 := by
      have noLiteral := facts.2.1
      have isLeaf := facts.1.2
      cases und <;> simp_all [isProxyType,leftWeight,literalClass,IsLeaf,asOr,asAnd]
    exact (lubs _ _ within_class facts.1.1 (by omega)).imp fun r joined => joined.within (by omega)

theorem lubLiteral_ensures {c : ClassOrModuleRef} (table : Redeclares gs) (joins : TupleJoins gs S d)
    (lubs : LighterLubs gs S d (leftWeight t1 + leftWeight t2)) (left : Within gs S d t1) (literal : literalClass t1 = some c)
    (right : WithinLeaf gs S d t2) (proxy : isProxyType t2 = true) :
    (lubLiteral gs t1 t2 c).Ensures (step gs) (Joined gs S d t1 t2) := by
  have same : ∀ accepted : Bool, (pure (if accepted then t1 else .classType c) : Eval Ty).Ensures (step gs)
      (Joined gs S d t1 t2) := by
    rintro (_ | _)
    · exact ensures_pure (joined_light within_class ⟨rfl,rfl⟩)
    · exact ensures_pure (joined_left left)
  have further := lubLiteralWithProxy_ensures table joins lubs literal right proxy
  unfold lubLiteral
  split
  · split
    · exact same _
    · refine lubGround_ensures.imp fun r joined => joined.within ?_
      exact Nat.add_le_add (leftWeight_ge _) (leftWeight_ge _)
  · exact same _
  · exact same _
  · exact further

theorem lubProxies_ensures (table : Redeclares gs) (joins : TupleJoins gs S d)
    (lower : 0 < d → JoinsAt gs S (d - 1)) (lubs : LighterLubs gs S d (leftWeight t1 + leftWeight t2))
    (left : WithinLeaf gs S d t1) (right : WithinLeaf gs S d t2) (proxy1 : isProxyType t1 = true)
    (proxy2 : isProxyType t2 = true) (sorted : t1.kind ≤ t2.kind) :
    (lubProxies gs t1 t2).Ensures (step gs) (Joined gs S d t1 t2) := by
  cases left.form with
  | klass c => cases proxy1
  | applied p c ts formed => cases proxy1
  | literal t1 c literal =>
    obtain ⟨_,noTuple,noShape⟩ := literal_simple literal
    simp only [lubProxies,noTuple,noShape,literal]
    exact lubLiteral_ensures table joins lubs left.1 literal right proxy2
  | tuple p elems1 =>
    cases right.form with
    | klass c => cases proxy2
    | applied q c ts formed => cases proxy2
    | literal t2 c literal => cases t2 <;> simp_all [literalClass,Ty.kind]
    | tuple q elems2 =>
      obtain ⟨counted,positive,_⟩ := within_tuple.mp left.1
      exact lubTuples_ensures table (lower positive) left.1 right.1

theorem lubProxyWith_ensures {proxy other : Ty} (table : Redeclares gs) (sub : Compares gs S d)
    (joins : TupleJoins gs S d) (lubs : LighterLubs gs S d (leftWeight t1 + leftWeight t2)) (left : WithinLeaf gs S d proxy)
    (isProxy : isProxyType proxy = true) (right : Within gs S d other)
    (pair : proxy = t1 ∧ other = t2 ∨ proxy = t2 ∧ other = t1) :
    (lubProxyWith proxy other (orOf t1 t2)).Ensures (step gs) (Joined gs S d t1 t2) := by
  have sum : leftWeight proxy + leftWeight other = leftWeight t1 + leftWeight t2 := by
    rcases pair with ⟨rfl,rfl⟩ | ⟨rfl,rfl⟩ <;> omega
  refine ensures_bind_of (proxyUnderlying_ensures table joins left isProxy) fun und facts => ?_
  refine ensures_bind_any (sub _ _ _ facts.1.1 right) fun below => ?_
  split
  · exact ensures_pure ⟨right,by omega⟩
  split
  · rcases pair with ⟨rfl,rfl⟩ | ⟨rfl,rfl⟩
    · exact ensures_pure (joined_or left.1 right (Nat.le_refl _))
    · exact ensures_pure (joined_or right left.1 (Nat.le_refl _))
  · rename_i aggregate
    have noTuple : asTuple proxy = none := by
      cases tuple : asTuple proxy with
      | none => rfl
      | some elems => simp [tuple] at aggregate
    obtain ⟨c,rfl,heavy⟩ := facts.2.2 noTuple
    have light : leftWeight (.classType c) = 2 := rfl
    exact (lubs _ _ right within_class (by omega)).imp fun r joined => joined.within (by omega)

end LubLeaves

section LubTrees
variable {gs : GlobalState} {S : ClassOrModuleRef → Prop} {d : Nat} {t t1 t2 : Ty}

theorem orComponents_within (within : Within gs S d t) : ∀ c ∈ orComponents t, Within gs S d c := by
  induction t using orComponents.induct with
  | case1 p l r left right =>
    obtain ⟨one,other⟩ := within_or.mp within
    intro c present
    rcases List.mem_append.mp present with present | present
    · exact left one c present
    · exact right other c present
  | case2 t notOr =>
    have single : orComponents t = [t] := by cases t <;> simp_all [orComponents]
    intro c present
    rw [single] at present
    cases List.mem_singleton.mp present
    exact within

theorem orComponents_le : ∀ c ∈ orComponents t, leftWeight c ≤ leftWeight t := by
  induction t using orComponents.induct with
  | case1 p l r left right =>
    intro c present
    simp only [leftWeight]
    rcases List.mem_append.mp present with present | present
    · have light := left c present; omega
    · have light := right c present; omega
  | case2 t notOr =>
    have single : orComponents t = [t] := by cases t <;> simp_all [orComponents]
    intro c present
    rw [single] at present
    cases List.mem_singleton.mp present
    exact Nat.le_refl _

theorem orComponents_lighter {p : Address} {l r : Ty} :
    ∀ c ∈ orComponents (.orType p l r), leftWeight c < leftWeight (.orType p l r) := by
  intro c present
  have left := leftWeight_ge l
  have right := leftWeight_ge r
  simp only [leftWeight]
  rcases List.mem_append.mp present with present | present
  · have light := orComponents_le c present; omega
  · have light := orComponents_le c present; omega

theorem filterOrComponents_within {typeFilter : List Ty} {kept : Ty} (within : Within gs S d t)
    (filtered : filterOrComponents typeFilter t = some kept) : Within gs S d kept ∧ leftWeight kept ≤ leftWeight t := by
  induction t using orComponents.induct generalizing kept with
  | case1 p l r left right =>
    obtain ⟨one,other⟩ := within_or.mp within
    simp only [filterOrComponents] at filtered
    simp only [leftWeight]
    split at filtered
    · have light := right other filtered; exact ⟨light.1,by omega⟩
    · have light := left one filtered; exact ⟨light.1,by omega⟩
    · rename_i keptLeft keptRight foundLeft foundRight
      have one' := left one foundLeft
      have other' := right other foundRight
      split at filtered <;> cases filtered
      · exact ⟨within,by simp only [leftWeight]; omega⟩
      · exact ⟨within_or.mpr ⟨one'.1,other'.1⟩,by simp only [orOf,leftWeight]; omega⟩
  | case2 t notOr =>
    have single : filterOrComponents typeFilter t = if t ∈ typeFilter then none else some t := by
      cases t <;> simp_all [filterOrComponents]
    rw [single] at filtered
    split at filtered
    · cases filtered
    · cases filtered; exact ⟨within,Nat.le_refl _⟩

theorem absorbed_ensures {components consumed : List Ty}
    (ends : ∀ c ∈ components, ∃ joined, (any c t2).Yields (step gs) joined) :
    (absorbed t2 components consumed).Ensures (step gs) fun _ => True := by
  induction components generalizing consumed with
  | nil => exact ensures_pure trivial
  | cons c components ih =>
    have rest := fun c present => ends c (List.mem_cons_of_mem _ present)
    refine ensures_bind_any (ends c (by simp)) fun lubbed => ?_
    split
    · exact ensures_pure trivial
    split
    · exact ih rest
    · exact ih rest

theorem unionWith_ensures {other : Ty} (table : Redeclares gs) (joins : TupleJoins gs S d) (left : Within gs S d other)
    (light : leftWeight other ≤ leftWeight t1) (right : Within gs S d t2) :
    (unionWith gs other t2).Ensures (step gs) (Joined gs S d t1 t2) := by
  unfold unionWith
  split
  · exact ensures_pure (joined_or left right (Nat.add_le_add_right light _))
  · refine ensures_bind_of (underlying_ensures table joins right) fun und facts => ?_
    exact ensures_pure (joined_or left facts.1 (Nat.add_le_add light facts.2))

theorem lubDistributeOr_ensures {p : Address} {l r : Ty} (table : Redeclares gs) (joins : TupleJoins gs S d)
    (lubs : LighterLubs gs S d (leftWeight (.orType p l r) + leftWeight t2)) (left : Within gs S d (.orType p l r))
    (right : Within gs S d t2) :
    (lubDistributeOr gs (.orType p l r) t2).Ensures (step gs) (Joined gs S d (.orType p l r) t2) := by
  have ends : ∀ c ∈ orComponents (.orType p l r), ∃ joined, (any c t2).Yields (step gs) joined := by
    intro c present
    have lighter := orComponents_lighter c present
    obtain ⟨joined,given,_⟩ := lubs c t2 (orComponents_within left c present) right (by omega)
    exact ⟨joined,given⟩
  refine ensures_bind_of (absorbed_ensures ends) fun outcome _ => ?_
  match outcome with
  | none => exact ensures_pure (joined_left left)
  | some [] => exact unionWith_ensures table joins left (Nat.le_refl _) right
  | some (c :: consumed) =>
    dsimp only
    split
    · exact ensures_pure (joined_right right)
    · rename_i remaining filtered
      obtain ⟨within,light⟩ := filterOrComponents_within left filtered
      exact unionWith_ensures table joins within light right

-- The calls of glb on lighter arguments, which the induction provides.
def LighterGlbs (gs : GlobalState) (S : ClassOrModuleRef → Prop) (d : Nat) (weight : Nat) : Prop :=
  ∀ a b, Within gs S d a → Within gs S d b → leftWeight a * leftWeight b < weight →
    (glb a b).Ensures (step gs) (Met gs S d a b)

-- Dropping components makes a type lighter unless it leaves it alone.
def Dropped (gs : GlobalState) (S : ClassOrModuleRef → Prop) (d : Nat) (t r : Ty) : Prop :=
  Within gs S d r ∧ leftWeight r ≤ leftWeight t ∧ (r ≠ t → leftWeight r < leftWeight t)

theorem dropped_self (within : Within gs S d t) : Dropped gs S d t t :=
  ⟨within,Nat.le_refl _,fun changed => absurd rfl changed⟩

theorem dropped_lighter {r : Ty} (within : Within gs S d r) (less : leftWeight r < leftWeight t) : Dropped gs S d t r :=
  ⟨within,Nat.le_of_lt less,fun _ => less⟩

theorem dropped_product {l r a b : Ty} (left : Dropped gs S d l a) (right : Dropped gs S d r b) (changed : a ≠ l ∨ b ≠ r) :
    leftWeight a * leftWeight b < leftWeight l * leftWeight r := by
  have heavy := leftWeight_ge l
  have heavy' := leftWeight_ge r
  rcases changed with changed | changed
  · exact Nat.mul_lt_mul_of_lt_of_le (left.2.2 changed) right.2.1 (by omega)
  · exact Nat.mul_lt_mul_of_le_of_lt left.2.1 (right.2.2 changed) (by omega)

theorem dropLubComponents_ensures (sub : Compares gs S d) (glbs : LighterGlbs gs S d (leftWeight t))
    (within : Within gs S d t) (right : Within gs S d t2) :
    (dropLubComponents t t2).Ensures (step gs) (Dropped gs S d t) := by
  have lightest : leftWeight bottom = 2 := rfl
  induction t using tree.induct with
  | case1 p l r _ _ =>
    obtain ⟨one,other⟩ := within_or.mp within
    have heavy := leftWeight_ge l
    have heavy' := leftWeight_ge r
    simp only [dropLubComponents]
    refine ensures_bind_any (sub _ _ _ one right) fun subl => ?_
    refine ensures_bind_any (sub _ _ _ other right) fun subr => ?_
    split
    · exact ensures_pure (dropped_lighter within_class (by simp only [leftWeight] at lightest ⊢; omega))
    split
    · exact ensures_pure (dropped_lighter other (by simp only [leftWeight]; omega))
    split
    · exact ensures_pure (dropped_lighter one (by simp only [leftWeight]; omega))
    · exact ensures_pure (dropped_self within)
  | case2 p l r left right' =>
    obtain ⟨one,other⟩ := within_and.mp within
    obtain ⟨lightL,lightR⟩ := @and_lighter p l r
    have below := leftWeight_ge l
    have first := left (fun a b wa wb less => glbs a b wa wb (Nat.lt_trans less lightL)) one
    have second := right' (fun a b wa wb less => glbs a b wa wb (Nat.lt_trans less lightR)) other
    simp only [dropLubComponents]
    refine ensures_bind_of first fun a1a droppedL => ?_
    refine ensures_bind_of second fun a1b droppedR => ?_
    refine ensures_bind_any (sub _ _ _ droppedL.1 right) fun subl => ?_
    refine ensures_bind_any (sub _ _ _ droppedR.1 right) fun subr => ?_
    split
    · exact ensures_pure (dropped_lighter within_class (Nat.lt_of_le_of_lt below lightL))
    split
    · rename_i changed
      have less := dropped_product droppedL droppedR changed
      refine (glbs a1a a1b droppedL.1 droppedR.1 less).imp fun r met => ?_
      exact dropped_lighter met.1 (Nat.lt_of_le_of_lt met.2 less)
    · exact ensures_pure (dropped_self within)
  | case3 t noOr noAnd =>
    have alone : dropLubComponents t t2 = pure t := by cases t <;> simp_all [dropLubComponents]
    rw [alone]
    exact ensures_pure (dropped_self within)

theorem lubWithAnd_ensures (table : Redeclares gs) (sub : Compares gs S d) (joins : TupleJoins gs S d)
    (lubs : LighterLubs gs S d (leftWeight t1 + leftWeight t2)) (glbs : LighterGlbs gs S d (leftWeight t1 + leftWeight t2))
    (left : Within gs S d t1) (right : Within gs S d t2) :
    (lubWithAnd gs t1 t2).Ensures (step gs) (Joined gs S d t1 t2) := by
  unfold lubWithAnd
  split
  · exact ensures_pure (joined_right right)
  refine ensures_bind_of (underlying_ensures table joins left) fun t1d bounded => ?_
  have lighter : LighterGlbs gs S d (leftWeight t2) := fun a b wa wb less => glbs a b wa wb (by omega)
  refine ensures_bind_of (dropLubComponents_ensures sub lighter right bounded.1) fun t2filtered dropped => ?_
  have light := bounded.2
  have light' := dropped.2.1
  split
  · rename_i changed
    have less := dropped.2.2 changed
    exact (lubs _ _ bounded.1 dropped.1 (by omega)).imp fun r joined => joined.within (by omega)
  split
  · rename_i union
    cases t1 with
    | orType p l r => exact lubDistributeOr_ensures table joins lubs left right
    | _ => cases union
  · exact ensures_pure (joined_or left dropped.1 (by omega))

theorem leaf_kind (leaf : WithinLeaf gs S d t) : t.kind ≤ 7 := by
  cases leaf.form with
  | literal t c literal => cases t <;> simp_all [literalClass,Ty.kind]
  | _ => simp [Ty.kind]

theorem lubLeaves_ensures (table : Redeclares gs) (sub : Compares gs S d) (joins : TupleJoins gs S d)
    (lower : 0 < d → JoinsAt gs S (d - 1))
    (lubs : LighterLubs gs S d (leftWeight t1 + leftWeight t2)) (left : WithinLeaf gs S d t1)
    (right : WithinLeaf gs S d t2) (sorted : t1.kind ≤ t2.kind) :
    (lubLeaves gs t1 t2).Ensures (step gs) (Joined gs S d t1 t2) := by
  have proxies : isProxyType t1 = true → (lubLeaves gs t1 t2).Ensures (step gs) (Joined gs S d t1 t2) := by
    intro proxy1
    simp only [lubLeaves,(proxy_simple proxy1).1,proxy1,if_true]
    split
    · rename_i proxy2
      exact lubProxies_ensures table joins lower lubs left right proxy1 proxy2 sorted
    · exact lubProxyWith_ensures table sub joins lubs left proxy1 right.1 (.inl ⟨rfl,rfl⟩)
  cases left.form with
  | applied p c ts formed => exact lubApplied_ensures table sub lower left.1 right
  | literal t1 c literal => exact proxies (literal_simple literal).1
  | tuple p ts => exact proxies rfl
  | klass c =>
    unfold lubLeaves
    cases proxy : isProxyType t2 with
    | true => exact lubProxyWith_ensures table sub joins lubs right proxy left.1 (.inr ⟨rfl,rfl⟩)
    | false =>
      cases right.form with
      | klass c2 => exact lubGround_ensures
      | applied q c2 ts2 formed2 => simp only [Ty.kind] at sorted; omega
      | literal t2 c2 literal => cases proxy.symm.trans (literal_simple literal).1
      | tuple q ts2 => cases proxy

theorem lubSorted_ensures (table : Redeclares gs) (sub : Compares gs S d) (joins : TupleJoins gs S d)
    (lower : 0 < d → JoinsAt gs S (d - 1))
    (lubs : LighterLubs gs S d (leftWeight t1 + leftWeight t2)) (glbs : LighterGlbs gs S d (leftWeight t1 + leftWeight t2))
    (left : Within gs S d t1) (right : Within gs S d t2) (sorted : t1.kind ≤ t2.kind) :
    (lubSorted gs t1 t2).Ensures (step gs) (Joined gs S d t1 t2) := by
  unfold lubSorted
  split
  · rename_i union
    cases t2 with
    | orType p l r =>
      refine (lubDistributeOr_ensures table joins ?_ right left).imp fun r joined => joined.swap
      rwa [Nat.add_comm]
    | _ => cases union
  split
  · exact lubWithAnd_ensures table sub joins lubs glbs left right
  rename_i noOr2 noAnd2
  have leaf2 : WithinLeaf gs S d t2 := ⟨right,by simpa using noOr2,by simpa using noAnd2⟩
  split
  · rename_i union
    cases t1 with
    | orType p l r => exact lubDistributeOr_ensures table joins lubs left right
    | _ => cases union
  rename_i noOr1
  -- An intersection sorts behind every leaf.
  have noAnd1 : asAnd t1 = none := by
    have low := leaf_kind leaf2
    cases t1 with
    | andType => exact absurd (Nat.le_trans sorted low) (by decide : ¬ 13 ≤ 7)
    | _ => rfl
  exact lubLeaves_ensures table sub joins lower lubs ⟨left,by simpa using noOr1,noAnd1⟩ leaf2 sorted

theorem stepLub_sorted (left : Within gs S d t1) (right : Within gs S d t2) (sorted : t1.kind ≤ t2.kind)
    (further : (lubSorted gs t1 t2).Ensures (step gs) (Joined gs S d t1 t2)) :
    (stepLub gs t1 t2).Ensures (step gs) (Joined gs S d t1 t2) := by
  unfold stepLub
  split
  · exact ensures_pure (joined_left left)
  split
  · rename_i unsorted
    exact absurd unsorted (Nat.not_lt_of_le sorted)
  split
  · exact ensures_pure (joined_left left)
  split
  · exact ensures_pure (joined_right right)
  split
  · exact ensures_pure (joined_left left)
  split
  · exact ensures_pure (joined_right right)
  split
  · exact ensures_pure (joined_left left)
  split
  · exact ensures_pure (joined_right right)
  · exact further

-- One call of lub, from the calls on lighter arguments.
theorem lub_ensures (table : Redeclares gs) (sub : Compares gs S d) (joins : TupleJoins gs S d)
    (lower : 0 < d → JoinsAt gs S (d - 1))
    (lubs : LighterLubs gs S d (leftWeight t1 + leftWeight t2)) (glbs : LighterGlbs gs S d (leftWeight t1 + leftWeight t2))
    (left : Within gs S d t1) (right : Within gs S d t2) : (lub t1 t2).Ensures (step gs) (Joined gs S d t1 t2) := by
  refine ensures_ask ?_
  change (stepLub gs t1 t2).Ensures (step gs) _
  by_cases sorted : t1.kind ≤ t2.kind
  · exact stepLub_sorted left right sorted
      (lubSorted_ensures table sub joins lower lubs glbs left right sorted)
  · have other := stepLub_sorted right left (by omega) (lubSorted_ensures table sub joins lower
      (by rwa [Nat.add_comm]) (by rwa [Nat.add_comm]) right left (by omega))
    have differ : t1 ≠ t2 := fun same => sorted (same ▸ Nat.le_refl _)
    rw [stepLub,if_neg differ,if_pos (by omega)]
    exact (ensures_ask other).imp fun r joined => joined.swap

end LubTrees
end Types
