import ScipRuby.Names.Interning

namespace Names
open Probing GlobalState NameHash
variable {xxh32 : List UInt8 → UInt32} {gs : GlobalState} {ref : NameRef} {content other : Name} {i k : Nat}

def GlobalState.Absent (gs : GlobalState) (content : Name) : Prop := ∀ ref, gs.name ref ≠ some content

section Lookup
variable (interned : Interned xxh32 gs)
include interned

-- A probe for a name that is there ends at its bucket, and for another one where
-- it can be put.
theorem Interned.lookupBucket_found (found : lookupBucket gs.namesByHash (hashMix xxh32 content) (gs.holds content) = .ok i) :
    (∃ b, gs.namesByHash[i]? = some b ∧ b.present = true ∧ gs.name ⟨b.rawId⟩ = some content) ∨
      gs.Absent content ∧ Free gs.namesByHash (hashMix xxh32 content) i := by
  obtain ⟨k,power⟩ := interned.power
  obtain ⟨stride,probed⟩ := lookupBucket_probe found
  obtain ⟨j,rfl,stopped,before⟩ := probe_found power probed
  cases taken : Taken Bucket.present gs.namesByHash (position gs.namesByHash.length (hashMix xxh32 content).toNat j) with
  | true =>
    left
    obtain ⟨b,at_,present⟩ := taken_iff.mp taken
    obtain ⟨_,held⟩ := (stops_at at_ present).mp stopped
    exact ⟨b,at_,present,of_decide_eq_true held⟩
  | false =>
    right
    refine ⟨?_,free_of_stop power taken before⟩
    intro ref at_
    obtain ⟨n,bucket⟩ := List.mem_iff_getElem?.mp (interned.stored ref content at_)
    have present : (⟨hashMix xxh32 content,ref.rawId⟩ : Bucket).present = true := bne_iff_ne.mpr (name_present at_)
    have wanted : stops gs.namesByHash (hashMix xxh32 content) (gs.holds content) n = true :=
      (stops_at bucket present).mpr ⟨rfl,decide_eq_true at_⟩
    have occupied : Taken Bucket.present gs.namesByHash (position gs.namesByHash.length (hashMix xxh32 content).toNat j) = true :=
      interned.chained.taken bucket present rfl wanted before
    rw [taken] at occupied
    cases occupied

variable (room : gs.namesUsedTotal + 1 < gs.namesByHash.length)
include room

theorem Interned.lookupBucket_ok (hash : UInt32) (pred : NameRef → Bool) :
    ∃ i, lookupBucket gs.namesByHash hash pred = .ok i := by
  obtain ⟨k,power⟩ := interned.power
  rw [←interned.count] at room
  exact Names.lookupBucket_ok power room hash pred

theorem Interned.lookupName_found (at_ : gs.name ref = some content) : gs.lookupName xxh32 content = .ok ref := by
  obtain ⟨i,found⟩ := interned.lookupBucket_ok room (hashMix xxh32 content) (gs.holds content)
  rcases interned.lookupBucket_found found with ⟨b,bucket,present,held⟩ | ⟨absent,_⟩
  · rw [interned.distinct ref ⟨b.rawId⟩ content at_ held]
    simp only [lookupName,found,bind,Except.bind,bucket,present,↓reduceIte]
  · exact absurd at_ (absent ref)

theorem Interned.lookupName_absent (absent : gs.Absent content) : gs.lookupName xxh32 content = .ok .noName := by
  obtain ⟨i,found⟩ := interned.lookupBucket_ok room (hashMix xxh32 content) (gs.holds content)
  rcases interned.lookupBucket_found found with ⟨b,_,_,held⟩ | ⟨_,free⟩
  · exact absurd held (absent _)
  · obtain ⟨b,bucket,missing⟩ := free.not_present
    simp only [lookupName,found,bind,Except.bind,bucket,missing,Bool.false_eq_true,↓reduceIte]

end Lookup

section Store
variable (interned : Interned xxh32 gs) (small : gs.size content.kind < 2 ^ 30) (absent : gs.Absent content)
  (free : Free gs.namesByHash (hashMix xxh32 content) i)

theorem store_present (small : gs.size content.kind < 2 ^ 30) (hash : UInt32) :
    (⟨hash,(gs.store i hash content).1.rawId⟩ : Bucket).present = true := by
  have named : (gs.store i hash content).2.name (gs.store i hash content).1 = some content := by
    rw [name_store small,if_pos rfl]
  exact bne_iff_ne.mpr (name_present named)

-- The reference of the next name of a kind is not in use.
theorem store_fresh (small : gs.size content.kind < 2 ^ 30) (hash : UInt32) : gs.name (gs.store i hash content).1 = none := by
  rw [store,name_make small]
  apply List.getElem?_eq_none
  rw [contents_length]

include interned small absent free

theorem Interned.store : Interned xxh32 (gs.store i (hashMix xxh32 content) content).2 := by
  have present := store_present (i := i) small (hashMix xxh32 content)
  have fresh := store_fresh (i := i) small (hashMix xxh32 content)
  have name : ∀ ref, (gs.store i (hashMix xxh32 content) content).2.name ref =
      if ref = (gs.store i (hashMix xxh32 content) content).1 then some content else gs.name ref :=
    fun ref => name_store small
  generalize new : (gs.store i (hashMix xxh32 content) content).1 = added at *
  have buckets : (gs.store i (hashMix xxh32 content) content).2.namesByHash =
      gs.namesByHash.set i ⟨hashMix xxh32 content,added.rawId⟩ := by
    rw [←new]
    rfl
  constructor
  · obtain ⟨k,power⟩ := interned.power
    exact ⟨k,by rw [buckets,List.length_set,power]⟩
  · rw [buckets]
    exact free.chained interned.chained present
  · intro b member holds
    rw [buckets,free.mem_set holds] at member
    rw [name]
    rcases member with member | rfl
    · obtain ⟨other,at_,hashed⟩ := interned.hashed b member holds
      have apart : NameRef.mk b.rawId ≠ added := by
        intro same
        rw [same,fresh] at at_
        cases at_
      exact ⟨other,by rw [if_neg apart,at_],hashed⟩
    · exact ⟨content,if_pos rfl,rfl⟩
  · intro ref other at_
    rw [name] at at_
    rw [buckets]
    split at at_
    · rename_i same
      cases at_
      rw [same,free.mem_set present]
      exact .inr rfl
    · have holds : (⟨hashMix xxh32 other,ref.rawId⟩ : Bucket).present = true := bne_iff_ne.mpr (name_present at_)
      rw [free.mem_set holds]
      exact .inl (interned.stored ref other at_)
  · rw [buckets,countP_set free.inside free.untaken present,interned.count,total_store]
  · intro ref ref' other at_ at_'
    rw [name] at at_ at_'
    split at at_ <;> split at at_'
    · simp_all only
    · cases at_
      exact absurd at_' (absent ref')
    · cases at_'
      exact absurd at_ (absent ref)
    · exact interned.distinct ref ref' other at_ at_'

end Store

section Expand

def requested (utf8NameSize constantNameSize uniqueNameSize : UInt32) : NameKind → UInt32
  | .utf8 => utf8NameSize
  | .unique => uniqueNameSize
  | .constant => constantNameSize

-- What expandNames leaves: the names, the larger capacities, the larger hash table.
structure Expanded (gs gs' : GlobalState) (u c q : UInt32) : Prop where
  contents : gs'.contents = gs.contents
  capacity : ∀ kind, gs'.capacity kind = max (gs.capacity kind) (requested u c q kind).toNat
  buckets : gs'.namesByHash.length = max gs.namesByHash.length (2 * nextPowerOfTwo (u + c + q)).toNat

theorem name_of_contents {gs gs' : GlobalState} (same : gs'.contents = gs.contents) : gs'.name = gs.name := by
  funext ref
  cases known : ref.kind with
  | none => simp only [name,known]
  | some kind => rw [name_of_kind known,name_of_kind known,same]

theorem size_of_contents {gs gs' : GlobalState} (same : gs'.contents = gs.contents) : gs'.size = gs.size := by
  funext kind
  rw [←contents_length,←contents_length,same]

theorem total_eq (gs : GlobalState) : gs.namesUsedTotal = gs.size .utf8 + gs.size .constant + gs.size .unique := rfl

-- A hash table with the same values, chained, serves the same names.
theorem Interned.rebuild {gs' : GlobalState} (interned : Interned xxh32 gs) (same : gs'.contents = gs.contents)
    (power : ∃ k, gs'.namesByHash.length = 2 ^ k) (chained : Chained Bucket.present Bucket.origin gs'.namesByHash)
    (members : ∀ b : Bucket, b.present = true → (b ∈ gs'.namesByHash ↔ b ∈ gs.namesByHash))
    (count : gs'.namesByHash.countP Bucket.present = gs.namesByHash.countP Bucket.present) : Interned xxh32 gs' := by
  have names := name_of_contents same
  refine ⟨power,chained,?_,?_,?_,?_⟩
  · intro b member holds
    rw [names]
    exact interned.hashed b ((members b holds).mp member) holds
  · intro ref content at_
    have holds : (⟨hashMix xxh32 content,ref.rawId⟩ : Bucket).present = true := bne_iff_ne.mpr (name_present at_)
    rw [names] at at_
    exact (members _ holds).mpr (interned.stored ref content at_)
  · rw [count,interned.count,total_eq,total_eq,size_of_contents same]
  · rw [names]
    exact interned.distinct

theorem hashTableSize_power (v : UInt32) (positive : 0 < (2 * nextPowerOfTwo v).toNat) :
    ∃ k, (2 * nextPowerOfTwo v).toNat = 2 ^ k ∧ k ≤ 31 := by
  obtain ⟨k,value,bounded,_,_⟩ := nextPowerOfTwo_spec v
  rw [UInt32.toNat_mul,value] at positive ⊢
  change 0 < 2 * (2 ^ k % 2 ^ 32) % 2 ^ 32 at positive
  change ∃ n, 2 * (2 ^ k % 2 ^ 32) % 2 ^ 32 = 2 ^ n ∧ n ≤ 31
  have wide : 2 * 2 ^ k = 2 ^ (k + 1) := Nat.pow_succ'.symm
  rw [Nat.mul_mod_mod,wide] at positive ⊢
  rcases Nat.lt_or_ge k 31 with below | above
  · refine ⟨k + 1,Nat.mod_eq_of_lt (Nat.pow_lt_pow_right (by decide) (by omega)),by omega⟩
  · have divides : 2 ^ 32 ∣ 2 ^ (k + 1) := Nat.pow_dvd_pow 2 (by omega)
    rw [Nat.mod_eq_zero_of_dvd divides] at positive
    omega

theorem reserve_contents (gs : GlobalState) (u c q : Nat) (buckets : List Bucket) :
    (GlobalState.mk (gs.utf8Names.reserve u) (gs.constantNames.reserve c) (gs.uniqueNames.reserve q) buckets).contents =
      gs.contents := by
  funext kind
  cases kind <;> rfl

theorem reserve_capacity (gs : GlobalState) (u c q : UInt32) (buckets : List Bucket) (kind : NameKind) :
    (GlobalState.mk (gs.utf8Names.reserve u.toNat) (gs.constantNames.reserve c.toNat)
      (gs.uniqueNames.reserve q.toNat) buckets).capacity kind = max (gs.capacity kind) (requested u c q kind).toNat := by
  cases kind <;> rfl

theorem Interned.expanded {gs' : GlobalState} {u c q : UInt32} (interned : Interned xxh32 gs)
    (done : gs.expandNames u c q = .ok gs') : Interned xxh32 gs' ∧ Expanded gs gs' u c q := by
  by_cases grows : (2 * nextPowerOfTwo (u + c + q)).toNat > gs.namesByHash.length
  · obtain ⟨k,power,_⟩ := hashTableSize_power (u + c + q) (by omega)
    cases moved : moveNames gs.namesByHash (2 * nextPowerOfTwo (u + c + q)).toNat with
    | error failure => simp only [GlobalState.expandNames,NameHash.expandNames,if_pos grows,moved,bind,Except.bind,reduceCtorEq] at done
    | ok after =>
      simp only [GlobalState.expandNames,NameHash.expandNames,if_pos grows,moved,bind,Except.bind,Except.ok.injEq] at done
      subst done
      have result := moveNames_from gs.namesByHash (List.length_replicate.trans power) (replicate_chained _) moved
      refine ⟨?_,reserve_contents gs _ _ _ after,reserve_capacity gs u c q after,?_⟩
      · refine interned.rebuild (reserve_contents gs _ _ _ after) ⟨k,by rw [result.length,List.length_replicate,power]⟩
          result.chained ?_ ?_
        · intro b holds
          rw [result.members b holds]
          exact or_iff_right (replicate_absent _ holds)
        · rw [result.count,replicate_count,Nat.zero_add]
      · rw [result.length,List.length_replicate]
        omega
  · simp only [GlobalState.expandNames,NameHash.expandNames,if_neg grows,bind,Except.bind,Except.ok.injEq] at done
    subst done
    refine ⟨?_,reserve_contents gs _ _ _ _,reserve_capacity gs u c q _,?_⟩
    · exact interned.rebuild (reserve_contents gs _ _ _ _) interned.power interned.chained (fun _ _ => Iff.rfl) rfl
    · change gs.namesByHash.length = _
      omega

theorem Interned.expandNames (interned : Interned xxh32 gs) (room : gs.namesUsedTotal < gs.namesByHash.length)
    (u c q : UInt32) : ∃ gs', gs.expandNames u c q = .ok gs' ∧ Interned xxh32 gs' ∧ Expanded gs gs' u c q := by
  have done : ∃ gs', gs.expandNames u c q = .ok gs' := by
    by_cases grows : (2 * nextPowerOfTwo (u + c + q)).toNat > gs.namesByHash.length
    · obtain ⟨k,power,_⟩ := hashTableSize_power (u + c + q) (by omega)
      obtain ⟨after,moved⟩ : ∃ after, moveNames gs.namesByHash (2 * nextPowerOfTwo (u + c + q)).toNat = .ok after := by
        apply moveNames_succeeds gs.namesByHash (List.length_replicate.trans power) (replicate_chained _)
        rw [replicate_count,List.length_replicate,interned.count]
        omega
      simp only [GlobalState.expandNames,NameHash.expandNames,if_pos grows,moved]
      exact ⟨_,rfl⟩
    · simp only [GlobalState.expandNames,NameHash.expandNames,if_neg grows]
      exact ⟨_,rfl⟩
  obtain ⟨gs',done⟩ := done
  exact ⟨gs',done,interned.expanded done⟩

end Expand

end Names
