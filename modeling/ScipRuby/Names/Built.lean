import ScipRuby.Names.Reachable

namespace Names
open GlobalState NameHash
variable {xxh32 : List UInt8 → UInt32} {gs gs' : GlobalState} {ref o : NameRef} {content : Name} {kind : NameKind}
  {age : NameRef → Nat}

-- The name that another one is made from.
def Name.original : Name → Option NameRef
  | .utf8 _ => none
  | .unique name => some name.original
  | .constant name => some name.original

-- The tables that calls of enterNameUTF8, enterNameConstant and freshNameUnique
-- leave, each call over a name that is there.
inductive Built (xxh32 : List UInt8 → UInt32) : GlobalState → Prop where
  | initial : Built xxh32 .initial
  | entered {gs gs' : GlobalState} {ref : NameRef} {content : Name} (built : Built xxh32 gs)
      (known : ∀ o, content.original = some o → (gs.name o).isSome) (done : gs.enterName xxh32 content = .ok (ref,gs')) :
      Built xxh32 gs'

-- Up to here the sizes that a full table asks for, doubled, are 32-bit numbers.
def nameLimit : Nat := 2 ^ 29 - 2 ^ 14

section Capacity

-- A capacity is raised only by doubling a full table.
def Fitted (gs : GlobalState) : Prop := ∀ kind, gs.capacity kind ≤ GlobalState.initial.capacity kind + 2 * gs.size kind

theorem initial_fitted : Fitted .initial := fun _ => Nat.le_add_right _ _

theorem Grows.total_le (grows : Grows gs gs') : gs.namesUsedTotal ≤ gs'.namesUsedTotal := by
  have utf8 := grows.size_le .utf8
  have constant := grows.size_le .constant
  have unique := grows.size_le .unique
  rw [total_eq,total_eq]
  omega

theorem store_fitted (fitted : Fitted gs) (space : gs.size content.kind < gs.capacity content.kind) (i : Nat) (hash : UInt32) :
    Fitted (gs.store i hash content).2 := by
  intro kind
  have := fitted kind
  rw [capacity_store space,size_store]
  omega

theorem expandFor_capacity {middle : GlobalState} (interned : Interned xxh32 gs) (sized : Sized gs)
    (grown : gs.expandFor content.kind = .ok middle) (kind : NameKind) :
    middle.capacity kind = if kind = content.kind then gs.capacity kind * 2 else gs.capacity kind := by
  obtain ⟨_,expanded⟩ := interned.expanded grown
  have asked : requested (gs.request content.kind .utf8) (gs.request content.kind .constant)
      (gs.request content.kind .unique) kind = gs.request content.kind kind := by
    cases kind <;> rfl
  rw [expanded.capacity,asked,sized.request_toNat]
  split <;> omega

theorem Fitted.room (fitted : Fitted gs) (few : gs.namesUsedTotal ≤ nameLimit)
    (full : gs.size content.kind = gs.capacity content.kind) : gs.totalCapacity + gs.capacity content.kind ≤ 2 ^ 30 := by
  have utf8 : gs.capacity .utf8 ≤ 16384 + 2 * gs.size .utf8 := fitted .utf8
  have constant : gs.capacity .constant ≤ 4096 + 2 * gs.size .constant := fitted .constant
  have unique : gs.capacity .unique ≤ 4096 + 2 * gs.size .unique := fitted .unique
  rw [total_eq,nameLimit] at few
  rw [totalCapacity]
  cases content <;> simp only [Name.kind] at full ⊢ <;> omega

end Capacity

section Entering

-- A table that has room for what it is asked to take.
structure Spacious (xxh32 : List UInt8 → UInt32) (gs : GlobalState) : Prop where
  interned : Interned xxh32 gs
  sized : Sized gs
  fitted : Fitted gs

theorem initial_spacious (xxh32 : List UInt8 → UInt32) : Spacious xxh32 .initial :=
  ⟨initial_interned xxh32,initial_sized,initial_fitted⟩

-- The reference that a new name gets.
theorem enterName_next (done : gs.enterName xxh32 content = .ok (ref,gs')) :
    gs' = gs ∨ ref = NameRef.make content.kind (gs.size content.kind) ∧
      ∃ (middle : GlobalState) (i : Nat), middle.contents = gs.contents ∧ gs' = (middle.store i (hashMix xxh32 content) content).2 := by
  rcases enterName_cases done with same | ⟨i,_,_,inserted⟩
  · exact .inl same
  rcases insertName_cases inserted with ⟨_,rfl,rfl⟩ | ⟨middle,n,_,grown,_,rfl,rfl⟩
  · exact .inr ⟨rfl,gs,i,rfl,rfl⟩
  · have same := expandNames_contents grown
    refine .inr ⟨?_,middle,n,same,rfl⟩
    rw [store,size_of_contents same]

theorem enterName_total (done : gs.enterName xxh32 content = .ok (ref,gs')) :
    gs'.namesUsedTotal ≤ gs.namesUsedTotal + 1 := by
  rcases enterName_next done with rfl | ⟨_,middle,i,same,rfl⟩
  · omega
  · rw [total_store,total_eq,total_eq,size_of_contents same]

theorem Spacious.fitted_entered (spacious : Spacious xxh32 gs) (done : gs.enterName xxh32 content = .ok (ref,gs')) :
    Fitted gs' := by
  rcases enterName_cases done with rfl | ⟨i,_,_,inserted⟩
  · exact spacious.fitted
  rcases insertName_cases inserted with ⟨space,_,rfl⟩ | ⟨middle,n,full,grown,_,_,rfl⟩
  · exact store_fitted spacious.fitted (Nat.lt_of_le_of_ne (gs.size_le_capacity _) space) i _
  · have capacity := expandFor_capacity spacious.interned spacious.sized grown
    have sizes := size_of_contents (expandNames_contents grown)
    have positive := spacious.sized.positive content.kind
    have fitted : Fitted middle := by
      intro kind
      have := spacious.fitted kind
      rw [capacity,sizes]
      split
      · rename_i same
        rw [same,full]
        omega
      · exact this
    have space : middle.size content.kind < middle.capacity content.kind := by
      rw [capacity,if_pos rfl,sizes,full]
      omega
    exact store_fitted fitted space n _

theorem Spacious.enterName (spacious : Spacious xxh32 gs) (few : gs.namesUsedTotal ≤ nameLimit) (content : Name) :
    ∃ ref gs', gs.enterName xxh32 content = .ok (ref,gs') ∧ Spacious xxh32 gs' ∧ Logged gs gs' [(content,ref)] ∧
      gs'.namesUsedTotal ≤ gs.namesUsedTotal + 1 := by
  obtain ⟨ref,gs',entered,interned,sized,logged⟩ :=
    enterName_logged spacious.interned spacious.sized fun _ full => spacious.fitted.room few full
  exact ⟨ref,gs',entered,⟨interned,sized,spacious.fitted_entered entered⟩,logged,enterName_total entered⟩

theorem Built.spacious (built : Built xxh32 gs) (few : gs.namesUsedTotal ≤ nameLimit) : Spacious xxh32 gs := by
  induction built with
  | initial => exact initial_spacious xxh32
  | @entered gs gs' ref content built known done ih =>
    have before := Nat.le_trans (enterName_grows done).total_le few
    obtain ⟨_,_,again,spacious,_,_⟩ := (ih before).enterName before content
    rw [done] at again
    cases again
    exact spacious

end Entering

section Ages

-- The order in which names were entered: a name is made from an earlier one, and
-- each table is in that order.
structure Aged (gs : GlobalState) (age : NameRef → Nat) : Prop where
  bounded : ∀ ref content, gs.name ref = some content → age ref < gs.namesUsedTotal
  distinct : ∀ ref ref' content content', gs.name ref = some content → gs.name ref' = some content' →
    age ref = age ref' → ref = ref'
  backward : ∀ ref content o, gs.name ref = some content → content.original = some o →
    (gs.name o).isSome ∧ age o < age ref
  increasing : ∀ kind i j, i < j → j < gs.size kind → age (NameRef.make kind i) < age (NameRef.make kind j)

theorem name_of_index {i : Nat} (inside : i < gs.size kind) (small : gs.size kind ≤ 2 ^ 30) :
    ∃ content, gs.name (NameRef.make kind i) = some content ∧ content.kind = kind := by
  rw [name_make (Nat.lt_of_lt_of_le inside small)]
  rw [←contents_length] at inside
  exact ⟨_,List.getElem?_eq_getElem inside,contents_kind (List.getElem_mem inside)⟩

theorem initial_aged : Aged .initial fun _ => 0 where
  bounded := by
    intro ref content at_
    rw [initial_name] at at_
    cases at_
  distinct := by
    intro ref ref' content content' at_
    rw [initial_name] at at_
    cases at_
  backward := by
    intro ref content o at_
    rw [initial_name] at at_
    cases at_
  increasing := by
    intro kind i j _ inside
    rw [initial_size] at inside
    omega

-- A new name is younger than all others.
theorem Aged.store (aged : Aged gs age) (small : ∀ kind, gs.size kind < 2 ^ 30)
    (known : ∀ o, content.original = some o → (gs.name o).isSome) (i : Nat) (hash : UInt32) :
    ∃ age, Aged (gs.store i hash content).2 age := by
  have name : ∀ r, (gs.store i hash content).2.name r =
      if r = NameRef.make content.kind (gs.size content.kind) then some content else gs.name r :=
    fun r => name_store (small content.kind)
  have fresh : gs.name (NameRef.make content.kind (gs.size content.kind)) = none := store_fresh (i := i) (small _) hash
  generalize new : NameRef.make content.kind (gs.size content.kind) = added at name fresh
  have old : ∀ {r c}, gs.name r = some c → r ≠ added := by
    rintro r c at_ rfl
    rw [fresh] at at_
    cases at_
  refine ⟨fun r => if r = added then gs.namesUsedTotal else age r,?_,?_,?_,?_⟩
  · intro r c at_
    rw [name] at at_
    rw [total_store]
    split at at_
    · rename_i same
      rw [if_pos same]
      omega
    · rename_i apart
      have := aged.bounded r c at_
      rw [if_neg apart]
      omega
  · intro r r' c c' at_ at_' same
    rw [name] at at_ at_'
    by_cases first : r = added <;> by_cases second : r' = added
    · rw [first,second]
    · rw [if_neg second] at at_'
      rw [if_pos first,if_neg second] at same
      have := aged.bounded r' c' at_'
      omega
    · rw [if_neg first] at at_
      rw [if_neg first,if_pos second] at same
      have := aged.bounded r c at_
      omega
    · rw [if_neg first] at at_
      rw [if_neg second] at at_'
      rw [if_neg first,if_neg second] at same
      exact aged.distinct r r' c c' at_ at_' same
  · intro r c o at_ made
    rw [name] at at_ ⊢
    by_cases first : r = added
    · rw [if_pos first] at at_
      cases at_
      obtain ⟨c',there⟩ := Option.isSome_iff_exists.mp (known o made)
      rw [if_neg (old there),if_neg (old there),if_pos first,there]
      exact ⟨rfl,aged.bounded o c' there⟩
    · rw [if_neg first] at at_
      obtain ⟨there,earlier⟩ := aged.backward r c o at_ made
      obtain ⟨c',there'⟩ := Option.isSome_iff_exists.mp there
      rw [if_neg (old there'),if_neg (old there'),if_neg first]
      exact ⟨there,earlier⟩
  · intro kind m n below inside
    have bound := small kind
    rw [size_store] at inside
    have lower : m < gs.size kind := by
      split at inside <;> omega
    obtain ⟨c,there,_⟩ := name_of_index lower (Nat.le_of_lt bound)
    rw [if_neg (old there)]
    by_cases last : NameRef.make kind n = added
    · rw [if_pos last]
      exact aged.bounded _ c there
    · rw [if_neg last]
      refine aged.increasing kind m n below ?_
      by_contra beyond
      refine last (new ▸ ?_)
      split at inside
      · rename_i same
        rw [same] at beyond inside
        rw [same,show n = gs.size content.kind by omega]
      · omega

theorem Aged.of_contents (aged : Aged gs age) (same : gs'.contents = gs.contents) : Aged gs' age := by
  have names := name_of_contents same
  have sizes := size_of_contents same
  have total : gs'.namesUsedTotal = gs.namesUsedTotal := by rw [total_eq,total_eq,sizes]
  refine ⟨?_,?_,?_,?_⟩
  · rw [names,total]
    exact aged.bounded
  · rw [names]
    exact aged.distinct
  · rw [names]
    exact aged.backward
  · rw [sizes]
    exact aged.increasing

theorem size_small (few : gs.namesUsedTotal ≤ nameLimit) (kind : NameKind) : gs.size kind < 2 ^ 30 := by
  rw [total_eq,nameLimit] at few
  cases kind <;> omega

theorem Built.aged (built : Built xxh32 gs) (few : gs.namesUsedTotal ≤ nameLimit) : ∃ age, Aged gs age := by
  induction built with
  | initial => exact ⟨_,initial_aged⟩
  | @entered gs gs' ref content built known done ih =>
    have before := Nat.le_trans (enterName_grows done).total_le few
    obtain ⟨age,aged⟩ := ih before
    rcases enterName_next done with rfl | ⟨_,middle,i,same,rfl⟩
    · exact ⟨age,aged⟩
    · refine (aged.of_contents same).store ?_ ?_ i _
      · rw [size_of_contents same]
        exact size_small before
      · rw [name_of_contents same]
        exact known

end Ages

end Names
