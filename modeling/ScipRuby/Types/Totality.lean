import ScipRuby.Types.Plain

namespace Types
open OpenRecursion UnionIntersection

-- What the resolver sees to in a symbol table: every class declares the type members of its ancestors
-- under their names, and Array has the one member that tuples rely on.
structure Redeclares (gs : GlobalState) : Prop where
  redeclared : ∀ c1 c2, gs.classSymbolIsAsGoodAs c1 c2 = true →
    ∀ m ∈ gs.typeMembers c2, ∃ m' ∈ gs.typeMembers c1, gs.name m' = gs.name m
  array : (gs.typeMembers Symbols.Array).length = 1

section Alignment
variable {gs : GlobalState} {c1 c2 : ClassOrModuleRef} {targs : List Ty}

theorem Redeclares.none_above (table : Redeclares gs) (good : gs.classSymbolIsAsGoodAs c1 c2 = true)
    (none : gs.typeMembers c1 = []) : gs.typeMembers c2 = [] := by
  cases members : gs.typeMembers c2 with
  | nil => rfl
  | cons m rest =>
    obtain ⟨m',present,_⟩ := table.redeclared c1 c2 good m (by simp [members])
    rw [none] at present
    cases present

theorem alignBaseTypeArgs_length (table : Redeclares gs) (good : gs.classSymbolIsAsGoodAs c1 c2 = true)
    (formed : targs.length = (gs.typeMembers c1).length) :
    (gs.alignBaseTypeArgs c1 targs c2).length = (gs.typeMembers c2).length := by
  unfold GlobalState.alignBaseTypeArgs
  split
  · rename_i empty
    subst empty
    rw [table.none_above good (List.eq_nil_of_length_eq_zero formed.symm)]
  split
  · rename_i positional
    rcases positional with rfl | ⟨_,_,same⟩
    · rfl
    · exact same.symm
  · exact List.length_map _

theorem alignBaseTypeArgs_declared (table : Redeclares gs) (good : gs.classSymbolIsAsGoodAs c1 c2 = true)
    {index : TypeMemberRef} (present : index ∈ gs.alignBaseTypeArgs c1 targs c2) : index ∈ gs.typeMembers c1 := by
  unfold GlobalState.alignBaseTypeArgs at present
  split at present
  · cases present
  split at present
  · exact present
  · obtain ⟨m,member,rfl⟩ := List.mem_map.mp present
    obtain ⟨m',declared,named⟩ := table.redeclared c1 c2 good m member
    cases found : (gs.typeMembers c1).find? fun x => gs.name x == gs.name m with
    | none => exact absurd (List.find?_eq_none.mp found m' declared) (by simp [named])
    | some x => exact List.mem_of_find?_eq_some found

end Alignment

theorem idxOf?_lt {members : List TypeMemberRef} {index : TypeMemberRef} {i : Nat}
    (found : members.idxOf? index = some i) : i < members.length := by
  obtain ⟨bound,_⟩ := List.findIdx?_eq_some_iff_getElem.mp found
  exact bound

-- A type that subtyping can take apart: the elements of its tuples can be joined, and so can those in
-- the result, down to a depth.
inductive Comparable (gs : GlobalState) : Nat → Ty → Prop where
  | klass {d} (c) : Comparable gs d (.classType c)
  | literal {d t c} (literal : literalClass t = some c) : Comparable gs d t
  | applied {d c targs} (p) (formed : targs.length = (gs.typeMembers c).length) (positive : 0 < d)
      (inside : ∀ t ∈ targs, Comparable gs (d - 1) t) : Comparable gs d (.appliedType p c targs)
  | tuple {d elems q elem} (p) (positive : 0 < d) (inside : ∀ t ∈ elems, Comparable gs (d - 1) t)
      (joined : (proxyUnderlying (.tupleType p elems)).Yields (step gs) (.appliedType q Symbols.Array [elem]))
      (below : Comparable gs (d - 1) elem) : Comparable gs d (.tupleType p elems)
  | union {d l r} (p) (left : Comparable gs d l) (right : Comparable gs d r) : Comparable gs d (.orType p l r)
  | inter {d l r} (p) (left : Comparable gs d l) (right : Comparable gs d r) : Comparable gs d (.andType p l r)

def ComparableLeaf (gs : GlobalState) (d : Nat) (t : Ty) : Prop := Comparable gs d t ∧ IsLeaf t

section Comparable
variable {gs : GlobalState} {d d' : Nat} {t l r : Ty} {p : Address} {c : ClassOrModuleRef} {ts : List Ty}

theorem Comparable.mono (comparable : Comparable gs d t) (deep : d ≤ d') : Comparable gs d' t := by
  induction comparable generalizing d' with
  | klass c => exact .klass c
  | literal literal => exact .literal literal
  | applied p formed positive _ ih => exact .applied p formed (by omega) fun t present => ih t present (by omega)
  | tuple p positive _ joined _ ih below =>
    exact .tuple p (by omega) (fun t present => ih t present (by omega)) joined (below (by omega))
  | union p _ _ left right => exact .union p (left deep) (right deep)
  | inter p _ _ left right => exact .inter p (left deep) (right deep)

theorem comparable_or : Comparable gs d (.orType p l r) ↔ Comparable gs d l ∧ Comparable gs d r := by
  constructor
  · intro comparable
    cases comparable with
    | union _ left right => exact ⟨left,right⟩
    | literal literal => cases literal
  · rintro ⟨left,right⟩
    exact .union p left right

theorem comparable_and : Comparable gs d (.andType p l r) ↔ Comparable gs d l ∧ Comparable gs d r := by
  constructor
  · intro comparable
    cases comparable with
    | inter _ left right => exact ⟨left,right⟩
    | literal literal => cases literal
  · rintro ⟨left,right⟩
    exact .inter p left right

theorem comparable_applied (comparable : Comparable gs d (.appliedType p c ts)) :
    ts.length = (gs.typeMembers c).length ∧ 0 < d ∧ ∀ t ∈ ts, Comparable gs (d - 1) t := by
  cases comparable with
  | applied _ formed positive inside => exact ⟨formed,positive,inside⟩
  | literal literal => cases literal

-- What a tuple is compared as.
theorem comparable_tuple (table : Redeclares gs) (comparable : Comparable gs d (.tupleType p ts)) :
    (0 < d ∧ ∀ t ∈ ts, Comparable gs (d - 1) t) ∧ ∃ q elem,
      (proxyUnderlying (.tupleType p ts)).Yields (step gs) (.appliedType q Symbols.Array [elem]) ∧
        Comparable gs d (.appliedType q Symbols.Array [elem]) := by
  cases comparable with
  | literal literal => cases literal
  | @tuple _ _ q elem _ positive inside joined below =>
    refine ⟨⟨positive,inside⟩,q,elem,joined,.applied q table.array.symm positive fun t present => ?_⟩
    cases List.mem_singleton.mp present
    exact below

theorem comparable_over : Comparable gs d t ↔ Over (ComparableLeaf gs d) t := by
  induction t using tree.induct with
  | case1 p l r left right => rw [comparable_or,over_or,left,right]
  | case2 p l r left right => rw [comparable_and,over_and,left,right]
  | case3 t noOr noAnd =>
    have leaf : IsLeaf t := by cases t <;> simp_all [IsLeaf,asOr,asAnd]
    simp only [Over,tree_leaf leaf.1 leaf.2,Compound.leaves,List.mem_singleton,forall_eq]
    exact ⟨fun comparable => ⟨comparable,leaf⟩,fun both => both.1⟩

theorem ComparableLeaf.form (leaf : ComparableLeaf gs d t) : LeafForm gs t := by
  obtain ⟨comparable,noOr,noAnd⟩ := leaf
  cases comparable with
  | klass c => exact .klass c
  | literal literal => exact .literal t _ literal
  | applied p formed => exact .applied p _ _ formed
  | tuple p => exact .tuple p _
  | union => cases noOr
  | inter => cases noAnd

theorem Comparable.defined (comparable : Comparable gs d t) : t.isFullyDefined = true := by
  induction comparable with
  | klass => rfl
  | @literal _ t => cases t <;> simp_all [literalClass,Ty.isFullyDefined]
  | applied _ _ _ _ ih => simpa only [Ty.isFullyDefined,allFullyDefined_iff] using ih
  | tuple _ _ _ _ _ ih => simpa only [Ty.isFullyDefined,allFullyDefined_iff] using ih
  | union _ _ _ left right => simp only [Ty.isFullyDefined,left,right,Bool.and_self]
  | inter _ _ _ left right => simp only [Ty.isFullyDefined,left,right,Bool.and_self]

end Comparable

section SubTotal
variable {gs : GlobalState} {mode : UntypedMode} {d : Nat}

-- Subtyping answers on comparable types.
def SubTotal (gs : GlobalState) (d : Nat) : Prop :=
  ∀ mode t1 t2, Comparable gs d t1 → Comparable gs d t2 →
    ∃ result, (isSubTypeUnderConstraint mode t1 t2).Yields (step gs) result

theorem argumentMatches_total {variance : Variance} {a b : Ty} (total : SubTotal gs d) (left : Comparable gs d a)
    (right : Comparable gs d b) : ∃ result, (argumentMatches mode variance a b).Yields (step gs) result := by
  cases variance with
  | coVariant => exact total mode a b left right
  | invariant => exact andAlso_total (total mode a b left right) (total mode b a right left)
  | contraVariant => exact total mode b a right left

theorem argumentsMatch_total {members1 members2 indexes : List TypeMemberRef} {targs1 targs2 : List Ty}
    (total : SubTotal gs d) (formed1 : targs1.length = members1.length) (formed2 : targs2.length = members2.length)
    (aligned : indexes.length = members2.length) (above : members1 = [] → members2 = [])
    (left : ∀ t ∈ targs1, Comparable gs d t) (right : ∀ t ∈ targs2, Comparable gs d t) :
    ∃ result, (argumentsMatch gs mode members1 targs1 members2 indexes targs2).Yields (step gs) result := by
  induction members2 generalizing indexes targs2 with
  | nil => exact ⟨true,by simp only [argumentsMatch,yields_pure]⟩
  | cons idx members2 ih =>
    obtain ⟨index,indexes,rfl⟩ := List.exists_cons_of_length_eq_add_one aligned
    obtain ⟨b,targs2,rfl⟩ := List.exists_cons_of_length_eq_add_one formed2
    have some1 : members1 ≠ [] := fun none => by cases above none
    simp only [argumentsMatch,if_neg some1]
    cases found : members1.idxOf? index with
    | none => exact ⟨true,yields_pure.mpr rfl⟩
    | some i =>
      have bound : i < targs1.length := formed1 ▸ idxOf?_lt found
      simp only [List.getElem?_eq_getElem bound]
      refine andAlso_total (argumentMatches_total total (left _ (List.getElem_mem bound)) (right _ (by simp))) ?_
      exact ih (by simpa using formed2) (by simpa using aligned) (fun none => absurd none some1)
        fun t present => right t (by simp [present])

theorem elemsMatch_total {elems1 elems2 : List Ty} (total : SubTotal gs d) (enough : elems2.length ≤ elems1.length)
    (left : ∀ t ∈ elems1, Comparable gs d t) (right : ∀ t ∈ elems2, Comparable gs d t) :
    ∃ result, (elemsMatch mode elems1 elems2).Yields (step gs) result := by
  induction elems2 generalizing elems1 with
  | nil => exact ⟨true,by simp only [elemsMatch,yields_pure]⟩
  | cons b elems2 ih =>
    cases elems1 with
    | nil => cases enough
    | cons a elems1 =>
      simp only [elemsMatch]
      refine andAlso_total (total mode a b (left a (by simp)) (right b (by simp))) ?_
      exact ih (by simpa using enough) (fun t present => left t (by simp [present]))
        fun t present => right t (by simp [present])

section Single
variable {t1 t2 : Ty}

theorem single_total_of_among (left : LeafForm gs t1) (right : LeafForm gs t2)
    (among : ∃ result, (singleAmongClasses gs mode t1 t2).Yields (step gs) result) :
    ∃ result, Returns (step gs) (.single mode t1 t2) result := by
  obtain ⟨result,given⟩ := among
  simp only [returns_iff,step,stepSingle_plain left right]
  repeat' split
  all_goals first | exact ⟨_,yields_pure.mpr rfl⟩ | exact ⟨result,given⟩

theorem single_class_total (c : ClassOrModuleRef) (right : LeafForm gs t2) :
    ∃ result, Returns (step gs) (.single mode (.classType c) t2) result := by
  refine single_total_of_among (.klass c) right ?_
  cases right with
  | klass c2 => exact ⟨_,yields_pure.mpr rfl⟩
  | literal t2 c2 literal =>
    rw [among_class_proxy (literal_simple literal).1]
    exact ⟨false,yields_pure.mpr rfl⟩
  | applied p c2 ts formed => exact ⟨false,yields_pure.mpr rfl⟩
  | tuple p ts => exact ⟨false,yields_pure.mpr rfl⟩

theorem single_applied_total {p q : Address} {c1 c2 : ClassOrModuleRef} {targs1 targs2 : List Ty} (table : Redeclares gs)
    (total : SubTotal gs (d - 1)) (left : Comparable gs d (.appliedType p c1 targs1))
    (right : Comparable gs d (.appliedType q c2 targs2)) :
    ∃ result, Returns (step gs) (.single mode (.appliedType p c1 targs1) (.appliedType q c2 targs2)) result := by
  obtain ⟨formed1,_,inside1⟩ := comparable_applied left
  obtain ⟨formed2,_,inside2⟩ := comparable_applied right
  refine single_total_of_among (.applied p c1 targs1 formed1) (.applied q c2 targs2 formed2) ?_
  rw [among_applied]
  split
  · rename_i good
    exact argumentsMatch_total total formed1 formed2 (alignBaseTypeArgs_length table good formed1)
      (table.none_above good) inside1 inside2
  · exact ⟨false,yields_pure.mpr rfl⟩

theorem single_applied_class_total {p : Address} {c1 : ClassOrModuleRef} {targs : List Ty} (c2 : ClassOrModuleRef)
    (formed : targs.length = (gs.typeMembers c1).length) :
    ∃ result, Returns (step gs) (.single mode (.appliedType p c1 targs) (.classType c2)) result :=
  single_total_of_among (.applied p c1 targs formed) (.klass c2) ⟨_,yields_pure.mpr rfl⟩

theorem among_literal_total {c : ClassOrModuleRef} (literal : literalClass t1 = some c) (right : LeafForm gs t2) :
    ∃ result, (singleAmongClasses gs mode t1 t2).Yields (step gs) result := by
  have proxy := (literal_simple literal).1
  have underlying := proxyUnderlying_literal literal
  cases right with
  | klass c2 =>
    obtain ⟨result,single⟩ : ∃ result, Returns (step gs) (.single mode (.classType c) (.classType c2)) result :=
      single_class_total c (.klass c2)
    rw [among_proxy_class proxy,underlying]
    exact ⟨result,yields_bind.mpr ⟨_,yields_pure.mpr rfl,yields_ask.mpr single⟩⟩
  | literal t2 c2 literal2 =>
    rw [among_proxies proxy (literal_simple literal2).1,proxiesMatch_literal_left literal]
    exact ⟨_,yields_pure.mpr rfl⟩
  | applied p c2 ts formed =>
    obtain ⟨result,single⟩ := single_class_total c (.applied p c2 ts formed)
    rw [among_proxy_applied proxy,underlying]
    exact ⟨result,yields_bind.mpr ⟨_,yields_pure.mpr rfl,(yields_sub_leaf ⟨rfl,rfl⟩ ⟨rfl,rfl⟩).mpr single⟩⟩
  | tuple p ts =>
    rw [among_proxies proxy rfl,proxiesMatch_literal_left literal]
    exact ⟨_,yields_pure.mpr rfl⟩

theorem among_tuple_total {p : Address} {elems : List Ty} (table : Redeclares gs) (total : SubTotal gs (d - 1))
    (left : Comparable gs d (.tupleType p elems)) (right : ComparableLeaf gs d t2) :
    ∃ result, (singleAmongClasses gs mode (.tupleType p elems) t2).Yields (step gs) result := by
  obtain ⟨⟨_,inside1⟩,q,elem,given,array⟩ := comparable_tuple table left
  cases right.form with
  | klass c2 =>
    obtain ⟨result,single⟩ := single_applied_class_total c2 (comparable_applied array).1
    rw [among_proxy_class rfl]
    exact ⟨result,yields_bind.mpr ⟨_,given,yields_ask.mpr single⟩⟩
  | literal t2 c2 literal =>
    rw [among_proxies rfl (literal_simple literal).1,proxiesMatch_literal_right literal]
    exact ⟨_,yields_pure.mpr rfl⟩
  | applied r c2 ts formed =>
    obtain ⟨result,single⟩ := single_applied_total table total array right.1
    rw [among_proxy_applied rfl]
    exact ⟨result,yields_bind.mpr ⟨_,given,(yields_sub_leaf ⟨rfl,rfl⟩ ⟨rfl,rfl⟩).mpr single⟩⟩
  | tuple r ts =>
    obtain ⟨⟨_,inside2⟩,_⟩ := comparable_tuple table right.1
    rw [among_proxies rfl rfl,proxiesMatch_tuples]
    split
    · rename_i enough
      exact elemsMatch_total total enough inside1 inside2
    · exact ⟨false,yields_pure.mpr rfl⟩

theorem comparable_leaves (table : Redeclares gs) (total : 0 < d → SubTotal gs (d - 1)) :
    Leaves gs mode (ComparableLeaf gs d) where
  notParam := fun a leaf => leaf.form.simple.2.1
  defined := fun _ b _ leaf _ => leaf.1.defined
  total := by
    intro a b left right
    cases left.form with
    | klass c => exact single_class_total c right.form
    | literal a c literal =>
      exact single_total_of_among (.literal a c literal) right.form (among_literal_total literal right.form)
    | tuple p ts =>
      obtain ⟨⟨positive,_⟩,_⟩ := comparable_tuple table left.1
      exact single_total_of_among (.tuple p ts) right.form (among_tuple_total table (total positive) left.1 right)
    | applied p c ts formed =>
      cases right.form with
      | klass c2 => exact single_applied_class_total c2 formed
      | literal b c2 literal =>
        refine single_total_of_among (.applied p c ts formed) (.literal b c2 literal) ⟨false,?_⟩
        rw [among_applied_proxy (literal_simple literal).1]
        exact yields_pure.mpr rfl
      | applied q c2 ts2 formed2 =>
        obtain ⟨_,positive,_⟩ := comparable_applied left.1
        exact single_applied_total table (total positive) left.1 right.1
      | tuple q ts2 => exact single_total_of_among (.applied p c ts formed) (.tuple q ts2) ⟨false,yields_pure.mpr rfl⟩

end Single

theorem subTotal (table : Redeclares gs) (d : Nat) : SubTotal gs d := by
  induction d with
  | zero =>
    intro mode t1 t2 left right
    simp only [yields_sub]
    exact (comparable_leaves table fun impossible => absurd impossible (Nat.lt_irrefl 0)).sub_total
      (comparable_over.mp left) (comparable_over.mp right)
  | succ d ih =>
    intro mode t1 t2 left right
    have total : 0 < d + 1 → SubTotal gs (d + 1 - 1) := fun _ => ih
    simp only [yields_sub]
    exact (comparable_leaves table total).sub_total (comparable_over.mp left) (comparable_over.mp right)

-- Comparable types of any two depths are compared to an end.
theorem sub_total {d' : Nat} {t1 t2 : Ty} (table : Redeclares gs) (left : Comparable gs d t1)
    (right : Comparable gs d' t2) : ∃ result, (isSubTypeUnderConstraint mode t1 t2).Yields (step gs) result :=
  subTotal table (max d d') mode t1 t2 (left.mono (Nat.le_max_left d d')) (right.mono (Nat.le_max_right d d'))

end SubTotal
end Types
