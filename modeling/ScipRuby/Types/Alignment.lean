import Mathlib.Data.List.Nodup
import ScipRuby.Types.GlbTotality

namespace Types
open OpenRecursion UnionIntersection

-- The mixins of a linearized class are complete.
structure Linearized (gs : GlobalState) : Prop where
  linearized : ∀ c, gs.isLinearizationComputed c = true → ∀ m ∈ gs.mixins c, ∀ x, gs.derivesFrom m x = true →
    gs.derivesFrom c x = true

-- A symbol table for which the resolver has no error about type members to report: besides the names,
-- the order along superclasses and the variances agree, and bounds can be compared with.
structure Resolved (gs : GlobalState) : Prop extends Redeclares gs, Linearized gs where
  bounded : BoundsEnd gs
  distinct : ∀ c, ((gs.typeMembers c).map gs.name).Nodup
  ordered : ∀ c1 c2, gs.classSymbolIsAsGoodAs c1 c2 = true → gs.isClass c1 = true → gs.isClass c2 = true →
    (gs.typeMembers c2).length = (gs.typeMembers c1).length →
    (gs.typeMembers c1).map gs.name = (gs.typeMembers c2).map gs.name
  variances : ∀ c1 c2, gs.classSymbolIsAsGoodAs c1 c2 = true → ∀ m1 ∈ gs.typeMembers c1, ∀ m2 ∈ gs.typeMembers c2,
    gs.name m1 = gs.name m2 → gs.variance m1 = gs.variance m2 ∨ gs.variance m1 = .invariant

section Ancestors
variable {gs : GlobalState} {c1 c2 c3 : ClassOrModuleRef}

theorem Linearized.derivesFrom_trans (table : Linearized gs) (first : gs.derivesFrom c1 c2 = true)
    (second : gs.derivesFrom c2 c3 = true) : gs.derivesFrom c1 c3 = true := by
  induction rank : gs.rank c1 using Nat.strongRecOn generalizing c1 with
  | _ n ih =>
  rw [gs.derivesFrom_eq c1 c2] at first
  simp only [Bool.or_eq_true,List.any_eq_true,Bool.and_eq_true,beq_iff_eq,Option.any_eq_true,
    Bool.not_eq_true'] at first
  -- An ancestor of a mixin or of the superclass is an ancestor of the class.
  have through : ∀ m ∈ gs.mixins c1, gs.derivesFrom m c3 = true → gs.derivesFrom c1 c3 = true := by
    intro m member further
    cases linearized : gs.isLinearizationComputed c1 with
    | true => exact table.linearized c1 linearized m member c3 further
    | false =>
      rw [gs.derivesFrom_eq c1 c3]
      simp only [Bool.or_eq_true,List.any_eq_true]
      exact .inl ⟨m,member,by simp [linearized,further]⟩
  have above : ∀ p, gs.superClass c1 = some p → gs.derivesFrom p c3 = true → gs.derivesFrom c1 c3 = true := by
    intro p parent further
    rw [gs.derivesFrom_eq c1 c3,parent]
    simp [further]
  rcases first with ⟨m,member,rfl | ⟨_,further⟩⟩ | ⟨p,parent,rfl | further⟩
  · exact through m member second
  · have lower := gs.mixins_rank c1 m member
    exact through m member (ih _ (by omega) further rfl)
  · exact above c2 parent second
  · have lower := gs.superClass_rank c1 p parent
    exact above p parent (ih _ (by omega) further rfl)

theorem Linearized.good_trans (table : Linearized gs) (first : gs.classSymbolIsAsGoodAs c1 c2 = true)
    (second : gs.classSymbolIsAsGoodAs c2 c3 = true) : gs.classSymbolIsAsGoodAs c1 c3 = true := by
  rcases Bool.or_eq_true_iff.mp first with same | derives
  · rw [beq_iff_eq.mp same]
    exact second
  · rcases Bool.or_eq_true_iff.mp second with same | derives'
    · rw [← beq_iff_eq.mp same]
      exact first
    · exact good_of_rtl (.inr (table.derivesFrom_trans derives derives'))

end Ancestors

-- The argument that an applied type gives to the type member of a name.
def HasArgument (gs : GlobalState) (members : List TypeMemberRef) (targs : List Ty) (n : NameRef) (a : Ty) : Prop :=
  ∃ (i : Nat) (m : TypeMemberRef), members[i]? = some m ∧ gs.name m = n ∧ targs[i]? = some a

section Arguments
variable {gs : GlobalState} {mode : UntypedMode} {c1 c2 : ClassOrModuleRef} {targs targs1 targs2 : List Ty}

theorem names_injective {members : List TypeMemberRef} (distinct : (members.map gs.name).Nodup) {i j : Nat}
    {m m' : TypeMemberRef} (first : members[i]? = some m) (second : members[j]? = some m')
    (named : gs.name m = gs.name m') : i = j := by
  obtain ⟨bound,rfl⟩ := List.getElem?_eq_some_iff.mp first
  obtain ⟨bound',rfl⟩ := List.getElem?_eq_some_iff.mp second
  refine (@List.Nodup.getElem_inj_iff _ _ distinct i (by simpa using bound) j (by simpa using bound')).mp ?_
  simpa only [List.getElem_map] using named

theorem HasArgument.unique {members : List TypeMemberRef} {n : NameRef} {a b : Ty}
    (distinct : (members.map gs.name).Nodup) (left : HasArgument gs members targs n a)
    (right : HasArgument gs members targs n b) : a = b := by
  obtain ⟨i,m,found,named,given⟩ := left
  obtain ⟨j,m',found',named',given'⟩ := right
  cases names_injective distinct found found' (named.trans named'.symm)
  exact Option.some.inj (given.symm.trans given')

theorem HasArgument.mem {members : List TypeMemberRef} {n : NameRef} {a : Ty}
    (has : HasArgument gs members targs n a) : a ∈ targs := by
  obtain ⟨i,m,_,_,given⟩ := has
  exact List.mem_of_getElem? given

theorem hasArgument_of_mem {members : List TypeMemberRef} {m : TypeMemberRef} (formed : targs.length = members.length)
    (member : m ∈ members) : ∃ a, HasArgument gs members targs (gs.name m) a := by
  obtain ⟨i,bound,rfl⟩ := List.mem_iff_getElem.mp member
  have inside : i < targs.length := formed ▸ bound
  exact ⟨targs[i],i,members[i],List.getElem?_eq_getElem bound,rfl,List.getElem?_eq_getElem inside⟩

-- Whichever way two classes are aligned, a member stands for the one of its name.
theorem Resolved.aligned_name (table : Resolved gs) (good : gs.classSymbolIsAsGoodAs c1 c2 = true) {j : Nat}
    {index m : TypeMemberRef} (aligned : (gs.alignBaseTypeArgs c1 targs c2)[j]? = some index)
    (member : (gs.typeMembers c2)[j]? = some m) : gs.name index = gs.name m := by
  have declared := alignBaseTypeArgs_declared table.toRedeclares good (List.mem_of_getElem? aligned)
  unfold GlobalState.alignBaseTypeArgs at aligned
  split at aligned
  · simp at aligned
  split at aligned
  · rename_i positional
    rcases positional with rfl | ⟨above,below,same⟩
    · cases aligned.symm.trans member
      rfl
    · have names := table.ordered c1 c2 good below above same
      have at_ : ((gs.typeMembers c1).map gs.name)[j]? = ((gs.typeMembers c2).map gs.name)[j]? := by rw [names]
      simpa only [List.getElem?_map,aligned,member,Option.map_some,Option.some.injEq] using at_
  · simp only [List.getElem?_map,member,Option.map_some,Option.some.injEq] at aligned
    obtain ⟨m',present,named⟩ := table.redeclared c1 c2 good m (List.mem_of_getElem? member)
    cases found : (gs.typeMembers c1).find? fun x => gs.name x == gs.name m with
    | none => exact absurd (List.find?_eq_none.mp found m' present) (by simp [named])
    | some x =>
      rw [found] at aligned
      cases aligned
      simpa using List.find?_some found

-- What the loop over the type members of the supertype has compared when it ends well.
theorem argumentsMatch_iff {members1 members2 indexes : List TypeMemberRef} (formed1 : targs1.length = members1.length)
    (formed2 : targs2.length = members2.length) (aligned : indexes.length = members2.length)
    (declared : ∀ i ∈ indexes, i ∈ members1) (distinct : (members1.map gs.name).Nodup) :
    (argumentsMatch gs mode members1 targs1 members2 indexes targs2).Yields (step gs) true ↔
      ∀ (j i : Nat) (m index : TypeMemberRef) (a b : Ty), members2[j]? = some m → indexes[j]? = some index →
        targs2[j]? = some b → members1[i]? = some index → targs1[i]? = some a →
        (argumentMatches mode (gs.variance m) a b).Yields (step gs) true := by
  induction members2 generalizing indexes targs2 with
  | nil => simp [argumentsMatch]
  | cons idx members2 ih =>
    obtain ⟨index,indexes,rfl⟩ := List.exists_cons_of_length_eq_add_one aligned
    obtain ⟨b,targs2,rfl⟩ := List.exists_cons_of_length_eq_add_one formed2
    have present := declared index (by simp)
    cases found : members1.idxOf? index with
    | none => exact absurd present (List.idxOf?_eq_none_iff.mp found)
    | some i =>
      obtain ⟨bound',located,_⟩ := List.findIdx?_eq_some_iff_getElem.mp found
      have here : members1[i]? = some index :=
        (List.getElem?_eq_getElem bound').trans (congrArg some (by simpa using located))
      have bound : i < targs1.length := formed1 ▸ bound'
      have argument : targs1[i]? = some targs1[i] := List.getElem?_eq_getElem bound
      have rest : (argumentsMatch gs mode members1 targs1 members2 indexes targs2).Yields (step gs) true ↔ _ :=
        ih (by simpa using formed2) (by simpa using aligned) fun i present => declared i (by simp [present])
      simp only [argumentsMatch,if_neg (List.ne_nil_of_mem present),found,argument,yields_andAlso,rest]
      constructor
      · rintro ⟨first,others⟩ j i' m index' a b' member index_ given member1 given1
        cases j with
        | zero =>
          cases member
          cases index_
          cases given
          cases names_injective distinct here member1 rfl
          cases argument.symm.trans given1
          exact first
        | succ j => exact others j i' m index' a b' member index_ given member1 given1
      · intro all
        refine ⟨all 0 i idx index _ b rfl rfl rfl here argument,?_⟩
        intro j i' m index' a b' member index_ given member1 given1
        exact all (j + 1) i' m index' a b' member index_ given member1 given1

-- Applied types of related classes are compared member by member, under the names of the supertype.
theorem Resolved.arguments_by_name (table : Resolved gs) (good : gs.classSymbolIsAsGoodAs c1 c2 = true)
    (formed1 : targs1.length = (gs.typeMembers c1).length) (formed2 : targs2.length = (gs.typeMembers c2).length) :
    (argumentsMatch gs mode (gs.typeMembers c1) targs1 (gs.typeMembers c2) (gs.alignBaseTypeArgs c1 targs1 c2)
        targs2).Yields (step gs) true ↔
      ∀ m ∈ gs.typeMembers c2, ∀ a b, HasArgument gs (gs.typeMembers c1) targs1 (gs.name m) a →
        HasArgument gs (gs.typeMembers c2) targs2 (gs.name m) b →
        (argumentMatches mode (gs.variance m) a b).Yields (step gs) true := by
  have length := alignBaseTypeArgs_length table.toRedeclares good formed1
  rw [argumentsMatch_iff formed1 formed2 length (fun i present => alignBaseTypeArgs_declared table.toRedeclares good present)
    (table.distinct c1)]
  constructor
  · rintro all m member a b ⟨i,m1,member1,named1,given1⟩ ⟨j,m2,member2,named2,given2⟩
    obtain ⟨j',found⟩ := List.mem_iff_getElem?.mp member
    cases names_injective (table.distinct c2) member2 found named2
    cases member2.symm.trans found
    have inside : j < (gs.alignBaseTypeArgs c1 targs1 c2).length :=
      length ▸ (List.getElem?_eq_some_iff.mp member2).1
    have aligned := List.getElem?_eq_getElem inside
    have named := table.aligned_name good aligned member2
    obtain ⟨i',located⟩ := List.mem_iff_getElem?.mp
      (alignBaseTypeArgs_declared table.toRedeclares good (List.mem_of_getElem? aligned))
    cases names_injective (table.distinct c1) member1 located (named1.trans named.symm)
    exact all j i m _ a b member2 aligned given2 located given1
  · intro all j i m index a b member index_ given member1 given1
    refine all m (List.mem_of_getElem? member) a b ⟨i,index,member1,?_,given1⟩ ⟨j,m,member,rfl,given⟩
    exact table.aligned_name good index_ member

end Arguments
end Types
