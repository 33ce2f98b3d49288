import ScipRuby.Names.Operations

namespace Names
open Probing GlobalState NameHash
variable {xxh32 : List UInt8 → UInt32} {gs gs' : GlobalState} {ref : NameRef} {content : Name} {kind : NameKind} {u c q : UInt32}

def GlobalState.totalCapacity (gs : GlobalState) : Nat := gs.capacity .utf8 + gs.capacity .constant + gs.capacity .unique

-- The hash table has two buckets for each name there is room for.
structure Sized (gs : GlobalState) : Prop where
  load : 2 * gs.totalCapacity ≤ gs.namesByHash.length
  bound : gs.namesByHash.length ≤ 2 ^ 31
  positive : ∀ kind, 0 < gs.capacity kind

namespace Sized
variable (sized : Sized gs)
include sized

theorem total_le : 2 * gs.namesUsedTotal ≤ gs.namesByHash.length := by
  have utf8 := gs.size_le_capacity .utf8
  have constant := gs.size_le_capacity .constant
  have unique := gs.size_le_capacity .unique
  have := sized.load
  rw [totalCapacity] at this
  rw [total_eq]
  omega

theorem room : gs.namesUsedTotal + 1 < gs.namesByHash.length := by
  have := sized.total_le
  have := sized.load
  have := sized.positive .utf8
  have := sized.positive .constant
  have := sized.positive .unique
  rw [totalCapacity] at *
  omega

theorem capacity_le (kind : NameKind) : gs.capacity kind ≤ 2 ^ 30 := by
  have := sized.load
  have := sized.bound
  rw [totalCapacity] at *
  cases kind <;> omega

end Sized

-- What expandNames has to be asked for: the capacities it leaves fit twice into
-- the hash table it leaves. The table follows the sizes that are asked for, the
-- capacities do not shrink to them.
def GlobalState.Roomy (gs : GlobalState) (u c q : UInt32) : Prop :=
  2 * (max (gs.capacity .utf8) u.toNat + max (gs.capacity .constant) c.toNat + max (gs.capacity .unique) q.toNat) ≤
    max gs.namesByHash.length (2 * nextPowerOfTwo (u + c + q)).toNat

theorem Expanded.sized (expanded : Expanded gs gs' u c q) (sized : Sized gs) (roomy : gs.Roomy u c q) : Sized gs' := by
  constructor
  · rw [totalCapacity,expanded.capacity,expanded.capacity,expanded.capacity,expanded.buckets]
    exact roomy
  · rw [expanded.buckets]
    apply Nat.max_le.mpr
    refine ⟨sized.bound,?_⟩
    rcases Nat.eq_zero_or_pos (2 * nextPowerOfTwo (u + c + q)).toNat with zero | positive
    · omega
    · obtain ⟨k,power,small⟩ := hashTableSize_power (u + c + q) positive
      rw [power]
      exact Nat.pow_le_pow_right (by decide) small
  · intro kind
    rw [expanded.capacity]
    have := sized.positive kind
    omega

theorem nextPowerOfTwo_double {v : UInt32} (small : v.toNat ≤ 2 ^ 30) : 2 * v.toNat ≤ (2 * nextPowerOfTwo v).toNat := by
  obtain ⟨k,value,_,above,least⟩ := nextPowerOfTwo_spec v
  have bounded : 2 ^ k < 2 ^ 31 := by
    rcases least with rfl | below
    · decide
    · omega
  rw [UInt32.toNat_mul,value,Nat.mod_eq_of_lt (Nat.lt_trans bounded (by decide))]
  change 2 * v.toNat ≤ 2 * 2 ^ k % 2 ^ 32
  rw [Nat.mod_eq_of_lt (by omega)]
  omega

-- Doubling one capacity asks for exactly what is left.
theorem Sized.request_toNat (sized : Sized gs) (full kind : NameKind) :
    (gs.request full kind).toNat = if kind = full then gs.capacity kind * 2 else gs.capacity kind := by
  have := sized.capacity_le kind
  rw [request,UInt32.toNat_ofNat']
  apply Nat.mod_eq_of_lt
  split <;> omega

theorem Sized.roomy_request (sized : Sized gs) (small : gs.totalCapacity + gs.capacity kind ≤ 2 ^ 30) :
    gs.Roomy (gs.request kind .utf8) (gs.request kind .constant) (gs.request kind .unique) := by
  have utf8 := sized.request_toNat kind .utf8
  have constant := sized.request_toNat kind .constant
  have unique := sized.request_toNat kind .unique
  have sum : (gs.request kind .utf8 + gs.request kind .constant + gs.request kind .unique).toNat =
      gs.totalCapacity + gs.capacity kind := by
    rw [UInt32.toNat_add,UInt32.toNat_add,utf8,constant,unique]
    rw [totalCapacity] at small ⊢
    cases kind <;> simp only [reduceCtorEq,↓reduceIte] <;> omega
  have doubled := nextPowerOfTwo_double (sum.trans_le small)
  rw [sum] at doubled
  apply Nat.le_trans _ (Nat.le_trans doubled (Nat.le_max_right _ _))
  apply Nat.mul_le_mul_left
  rw [utf8,constant,unique,totalCapacity]
  cases kind <;> simp only [reduceCtorEq,↓reduceIte] <;> omega

end Names

namespace Names
open Probing GlobalState NameHash
variable {xxh32 : List UInt8 → UInt32} {gs gs' : GlobalState} {ref : NameRef} {content : Name}

-- One name more, in tables and a hash table that had room for it.
structure Inserted (gs gs' : GlobalState) (content : Name) (ref : NameRef) : Prop where
  names : ∀ r c, gs'.name r = some c ↔ gs.name r = some c ∨ c = content ∧ r = ref
  capacity : gs'.capacity = gs.capacity
  buckets : gs'.namesByHash.length = gs.namesByHash.length
  total : gs'.namesUsedTotal = gs.namesUsedTotal + 1
  size : ∀ kind, gs'.size kind = gs.size kind + (if kind = content.kind then 1 else 0)

theorem store_inserted (room : gs.size content.kind < gs.capacity content.kind) (small : gs.size content.kind < 2 ^ 30)
    (i : Nat) (hash : UInt32) : Inserted gs (gs.store i hash content).2 content (gs.store i hash content).1 := by
  have fresh := store_fresh (i := i) small hash
  constructor
  · intro r c
    rw [name_store small]
    by_cases new : r = (gs.store i hash content).1
    · rw [if_pos new,new,fresh]
      simp [eq_comm]
    · rw [if_neg new]
      simp [new]
  · funext kind
    exact capacity_store room kind
  · exact List.length_set
  · exact total_store gs i hash content
  · exact size_store gs i hash content

section Enter
variable (interned : Interned xxh32 gs)
include interned

theorem Interned.enterName_found (room : gs.namesUsedTotal + 1 < gs.namesByHash.length) (at_ : gs.name ref = some content) :
    gs.enterName xxh32 content = .ok (ref,gs) := by
  obtain ⟨i,found⟩ := interned.lookupBucket_ok room (hashMix xxh32 content) (gs.holds content)
  rcases interned.lookupBucket_found found with ⟨b,bucket,present,held⟩ | ⟨absent,_⟩
  · rw [interned.distinct ref ⟨b.rawId⟩ content at_ held]
    simp only [enterName,found,bind,Except.bind,bucket,present,↓reduceIte]
  · exact absurd at_ (absent ref)

theorem Interned.enterName_absent (room : gs.namesUsedTotal + 1 < gs.namesByHash.length) (absent : gs.Absent content) :
    ∃ i, gs.enterName xxh32 content = gs.insertName xxh32 i content ∧ Free gs.namesByHash (hashMix xxh32 content) i := by
  obtain ⟨i,found⟩ := interned.lookupBucket_ok room (hashMix xxh32 content) (gs.holds content)
  rcases interned.lookupBucket_found found with ⟨b,_,_,held⟩ | ⟨_,free⟩
  · exact absurd held (absent _)
  · obtain ⟨b,bucket,missing⟩ := free.not_present
    refine ⟨i,?_,free⟩
    simp only [enterName,found,bind,Except.bind,bucket,missing,Bool.false_eq_true,↓reduceIte]

-- Entering a new name where neither the table nor the hash table is full.
theorem Interned.enterName_room (room : gs.namesUsedTotal + 1 < gs.namesByHash.length) (absent : gs.Absent content)
    (space : gs.size content.kind < gs.capacity content.kind) (small : gs.size content.kind < 2 ^ 30) :
    ∃ ref gs', gs.enterName xxh32 content = .ok (ref,gs') ∧ Interned xxh32 gs' ∧ Inserted gs gs' content ref := by
  obtain ⟨i,entered,free⟩ := interned.enterName_absent room absent
  refine ⟨_,_,?_,interned.store small absent free,store_inserted space small i _⟩
  rw [entered,insertName,if_neg (Nat.ne_of_lt space)]

-- Entering a new name in a full table, which is doubled first.
theorem Interned.enterName_grow (sized : Sized gs) (absent : gs.Absent content)
    (full : gs.size content.kind = gs.capacity content.kind) (small : gs.totalCapacity + gs.capacity content.kind ≤ 2 ^ 30) :
    ∃ ref middle gs', gs.enterName xxh32 content = .ok (ref,gs') ∧ Interned xxh32 gs' ∧ Sized middle ∧
      middle.name = gs.name ∧ Inserted middle gs' content ref := by
  obtain ⟨i,entered,_⟩ := interned.enterName_absent sized.room absent
  have room := sized.room
  obtain ⟨middle,grown,interned',expanded⟩ := interned.expandNames (by omega) (gs.request content.kind .utf8)
    (gs.request content.kind .constant) (gs.request content.kind .unique)
  have sized' := expanded.sized sized (sized.roomy_request small)
  have names := name_of_contents expanded.contents
  have sizes := size_of_contents expanded.contents
  have capacity : middle.capacity content.kind = gs.capacity content.kind * 2 := by
    have asked : requested (gs.request content.kind .utf8) (gs.request content.kind .constant)
        (gs.request content.kind .unique) content.kind = gs.request content.kind content.kind := by
      cases content <;> rfl
    rw [expanded.capacity,asked,sized.request_toNat,if_pos rfl]
    omega
  have positive := sized.positive content.kind
  have bound := sized.capacity_le content.kind
  have half := sized'.capacity_le content.kind
  have space : middle.size content.kind < middle.capacity content.kind := by
    rw [sizes,capacity,full]
    omega
  have few : middle.size content.kind < 2 ^ 30 := by omega
  have absent' : middle.Absent content := by
    intro ref
    rw [names]
    exact absent ref
  obtain ⟨k,power⟩ := interned'.power
  obtain ⟨n,found⟩ := interned'.lookupBucket_ok sized'.room (hashMix xxh32 content) isEmpty
  have free := lookupBucket_free power found
  refine ⟨_,middle,_,?_,interned'.store few absent' free,sized',names,store_inserted space few n _⟩
  rw [entered,insertName,if_pos full]
  simp only [expandFor,grown,bind,Except.bind,found]

end Enter

theorem Inserted.sized (inserted : Inserted gs gs' content ref) (sized : Sized gs) : Sized gs' where
  load := by
    rw [totalCapacity,inserted.capacity,inserted.buckets]
    exact sized.load
  bound := inserted.buckets ▸ sized.bound
  positive := inserted.capacity ▸ sized.positive

end Names
