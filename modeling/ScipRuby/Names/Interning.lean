import ScipRuby.Names.NameTable

namespace Names
variable {gs : GlobalState} {ref : NameRef} {kind : NameKind} {content other : Name} {id i : Nat} {hash : UInt32}

section Packing

theorem NameKind.tag_small (kind : NameKind) : kind.tag.toNat < 4 := by
  cases kind <;> decide

theorem NameRef.kind_eq_some : ref.kind = some kind ↔ ref.rawId &&& 3 = kind.tag := by
  unfold NameRef.kind
  cases kind <;> simp only [NameKind.tag] <;> split_ifs <;> simp_all

theorem NameRef.make_toNat (small : id < 2 ^ 30) : (NameRef.make kind id).rawId.toNat = 4 * id + kind.tag.toNat := by
  have shifted : (UInt32.ofNat id <<< 2).toNat = id <<< 2 := by
    rw [UInt32.toNat_shiftLeft,UInt32.toNat_ofNat_of_lt' (by omega : id < 2 ^ 32)]
    refine Nat.mod_eq_of_lt ?_
    simp only [Nat.shiftLeft_eq]
    exact (by omega : id * 4 < 2 ^ 32)
  rw [make,UInt32.toNat_or,shifted,←Nat.shiftLeft_add_eq_or_of_lt kind.tag_small,Nat.shiftLeft_eq]
  omega

theorem NameRef.index_eq (ref : NameRef) : ref.unsafeTableIndex = ref.rawId.toNat / 4 := by
  rw [unsafeTableIndex,UInt32.toNat_shiftRight]
  exact Nat.shiftRight_eq_div_pow _ 2

theorem NameRef.kind_iff_mod : ref.kind = some kind ↔ ref.rawId.toNat % 4 = kind.tag.toNat := by
  rw [kind_eq_some,←UInt32.toNat_inj,UInt32.toNat_and]
  exact Iff.of_eq (congrArg (· = _) (Nat.and_two_pow_sub_one_eq_mod _ 2))

theorem NameRef.kind_make (small : id < 2 ^ 30) : (NameRef.make kind id).kind = some kind := by
  have := kind.tag_small
  rw [kind_iff_mod,make_toNat small]
  omega

theorem NameRef.index_make (small : id < 2 ^ 30) : (NameRef.make kind id).unsafeTableIndex = id := by
  have := kind.tag_small
  rw [index_eq,make_toNat small]
  omega

theorem NameRef.index_small (ref : NameRef) : ref.unsafeTableIndex < 2 ^ 30 := by
  have := ref.rawId.toNat_lt
  rw [index_eq]
  omega

theorem NameRef.eq_make (known : ref.kind = some kind) : ref = NameRef.make kind ref.unsafeTableIndex := by
  have raw : (NameRef.make kind ref.unsafeTableIndex).rawId.toNat = 4 * ref.unsafeTableIndex + kind.tag.toNat :=
    make_toNat ref.index_small
  rw [kind_iff_mod] at known
  have : ref.rawId.toNat = (NameRef.make kind ref.unsafeTableIndex).rawId.toNat := by
    rw [raw,index_eq]
    omega
  cases ref
  exact congrArg NameRef.mk (UInt32.toNat_inj.mp this)

theorem NameRef.kind_noName : NameRef.noName.kind = none := by decide

end Packing

section Contents

-- The table of one kind, as names.
def GlobalState.contents (gs : GlobalState) : NameKind → List Name
  | .utf8 => gs.utf8Names.entries.map .utf8
  | .unique => gs.uniqueNames.entries.map .unique
  | .constant => gs.constantNames.entries.map .constant

@[simp] theorem GlobalState.contents_length (gs : GlobalState) (kind : NameKind) : (gs.contents kind).length = gs.size kind := by
  cases kind <;> exact List.length_map _

theorem GlobalState.size_le_capacity (gs : GlobalState) (kind : NameKind) : gs.size kind ≤ gs.capacity kind := by
  cases kind
  · exact gs.utf8Names.fits
  · exact gs.uniqueNames.fits
  · exact gs.constantNames.fits

theorem GlobalState.contents_kind (member : content ∈ gs.contents kind) : content.kind = kind := by
  cases kind <;> simp only [contents,List.mem_map] at member <;> obtain ⟨_,_,rfl⟩ := member <;> rfl

theorem GlobalState.name_of_kind (known : ref.kind = some kind) : gs.name ref = (gs.contents kind)[ref.unsafeTableIndex]? := by
  cases kind <;> simp only [name,known,contents,List.getElem?_map]

theorem GlobalState.name_kind (at_ : gs.name ref = some content) : ref.kind = some content.kind := by
  cases known : ref.kind with
  | none => simp only [name,known,reduceCtorEq] at at_
  | some kind =>
    rw [name_of_kind known] at at_
    rw [contents_kind (List.mem_of_getElem? at_)]

theorem GlobalState.name_index (at_ : gs.name ref = some content) :
    (gs.contents content.kind)[ref.unsafeTableIndex]? = some content := by
  rw [←name_of_kind (name_kind at_)]
  exact at_

theorem GlobalState.name_present (at_ : gs.name ref = some content) : ref.rawId ≠ 0 := by
  intro zero
  have none : ref = NameRef.noName := congrArg NameRef.mk zero
  have some := name_kind at_
  rw [none,NameRef.kind_noName] at some
  cases some

theorem GlobalState.name_make (small : id < 2 ^ 30) : gs.name (NameRef.make kind id) = (gs.contents kind)[id]? := by
  rw [name_of_kind (NameRef.kind_make small),NameRef.index_make small]

end Contents

section Store

theorem GlobalState.contents_store (gs : GlobalState) (i : Nat) (hash : UInt32) (content : Name) (kind : NameKind) :
    (gs.store i hash content).2.contents kind = gs.contents kind ++ (if kind = content.kind then [content] else []) := by
  cases content <;> cases kind <;>
    simp [store,emplaceBack,contents,Vec.emplaceBack,Name.kind]

theorem GlobalState.capacity_store (room : gs.size content.kind < gs.capacity content.kind) (kind : NameKind) :
    (gs.store i hash content).2.capacity kind = gs.capacity kind := by
  cases content <;> cases kind <;> simp only [store,emplaceBack,capacity,Vec.emplaceBack] <;>
    exact if_neg (Nat.ne_of_lt room)

theorem GlobalState.size_store (gs : GlobalState) (i : Nat) (hash : UInt32) (content : Name) (kind : NameKind) :
    (gs.store i hash content).2.size kind = gs.size kind + (if kind = content.kind then 1 else 0) := by
  rw [←contents_length,contents_store,List.length_append,contents_length]
  split <;> rfl

theorem GlobalState.total_store (gs : GlobalState) (i : Nat) (hash : UInt32) (content : Name) :
    (gs.store i hash content).2.namesUsedTotal = gs.namesUsedTotal + 1 := by
  cases content <;> simp only [store,emplaceBack,namesUsedTotal,Vec.emplaceBack,Vec.size,List.length_append,List.length_singleton] <;>
    omega

theorem GlobalState.name_store (small : gs.size content.kind < 2 ^ 30) :
    (gs.store i hash content).2.name ref =
      if ref = (gs.store i hash content).1 then some content else gs.name ref := by
  have made : (gs.store i hash content).1 = NameRef.make content.kind (gs.size content.kind) := rfl
  rw [made]
  by_cases new : ref = NameRef.make content.kind (gs.size content.kind)
  · rw [if_pos new,new,name_make small,contents_store,if_pos rfl,List.getElem?_append_right (by rw [contents_length]),contents_length]
    simp
  · rw [if_neg new]
    cases known : ref.kind with
    | none => simp only [name,known]
    | some kind =>
      rw [name_of_kind known,name_of_kind known,contents_store]
      by_cases same : kind = content.kind
      · subst same
        rw [if_pos rfl]
        have apart : ref.unsafeTableIndex ≠ gs.size content.kind := by
          intro at_
          exact new (at_ ▸ NameRef.eq_make known)
        rcases Nat.lt_or_gt_of_ne apart with below | above
        · rw [List.getElem?_append_left (by rwa [contents_length])]
        · rw [List.getElem?_eq_none (by rw [List.length_append,contents_length,List.length_singleton]; omega),
            List.getElem?_eq_none (by rw [contents_length]; omega)]
      · rw [if_neg same,List.append_nil]

end Store

end Names

namespace Names
open Probing GlobalState NameHash
variable {xxh32 : List UInt8 → UInt32} {gs : GlobalState} {ref : NameRef} {content : Name} {buckets to_ after : List Bucket}
  {b c : Bucket} {hash : UInt32} {pred : NameRef → Bool} {i j k stride : Nat}

def Bucket.origin (b : Bucket) : Nat := b.hash.toNat

-- Every name has its bucket, every bucket that is present has its name, and the
-- chains of probes lead to them.
structure Interned (xxh32 : List UInt8 → UInt32) (gs : GlobalState) : Prop where
  power : ∃ k, gs.namesByHash.length = 2 ^ k
  chained : Chained Bucket.present Bucket.origin gs.namesByHash
  hashed : ∀ b ∈ gs.namesByHash, b.present = true → ∃ content, gs.name ⟨b.rawId⟩ = some content ∧ b.hash = hashMix xxh32 content
  stored : ∀ ref content, gs.name ref = some content → ⟨hashMix xxh32 content,ref.rawId⟩ ∈ gs.namesByHash
  count : gs.namesByHash.countP Bucket.present = gs.namesUsedTotal
  distinct : ∀ ref ref' content, gs.name ref = some content → gs.name ref' = some content → ref = ref'

-- The bucket where a probe for the hash finds no value.
structure Free (buckets : List Bucket) (hash : UInt32) (i : Nat) : Prop where
  inside : i < buckets.length
  untaken : Taken Bucket.present buckets i = false
  reached : ∃ j, position buckets.length hash.toNat j = i ∧
    ∀ m < j, Taken Bucket.present buckets (position buckets.length hash.toNat m) = true

section Probes

theorem stops_untaken (untaken : Taken Bucket.present buckets i = false) : stops buckets hash pred i = true := by
  unfold stops
  cases at_ : buckets[i]? with
  | none => rfl
  | some b =>
    rw [Taken,at_,Option.any_some] at untaken
    simp only [untaken,Bool.not_false,Bool.true_or]

theorem taken_of_going (going : stops buckets hash pred i = false) : Taken Bucket.present buckets i = true := by
  by_contra untaken
  rw [stops_untaken (Bool.eq_false_of_not_eq_true untaken)] at going
  cases going

theorem stops_at (at_ : buckets[i]? = some b) (present : b.present = true) :
    stops buckets hash pred i = true ↔ b.hash = hash ∧ pred ⟨b.rawId⟩ = true := by
  simp only [stops,at_,present,Bool.not_true,Bool.false_or,Bool.and_eq_true,beq_iff_eq]

theorem probe_start (power : buckets.length = 2 ^ k) :
    hash.toNat &&& (buckets.length - 1) = position buckets.length hash.toNat 0 := by
  rw [position_zero,power]
  exact Nat.and_two_pow_sub_one_eq_mod _ k

theorem probe_found (power : buckets.length = 2 ^ k) (found : probe buckets hash pred = .ok (i,stride)) :
    ∃ j, i = position buckets.length hash.toNat j ∧ stops buckets hash pred i = true ∧
      ∀ m < j, stops buckets hash pred (position buckets.length hash.toNat m) = false := by
  rw [probe,probe_start power] at found
  split at found
  · cases found
  · rename_i result walked
    cases found
    obtain ⟨j,_,_,at_,_,stopped,before⟩ := walk_some power walked
    exact ⟨j,at_,stopped,fun m => before m (Nat.zero_le m)⟩

theorem probe_ok (power : buckets.length = 2 ^ k) (room : buckets.countP Bucket.present < buckets.length)
    (hash : UInt32) (pred : NameRef → Bool) :
    ∃ i j, probe buckets hash pred = .ok (i,j + 1) ∧ j ≤ buckets.countP Bucket.present := by
  have free : ∀ i, Taken Bucket.present buckets i = false → stops buckets hash pred i = true :=
    fun i untaken => stops_untaken untaken
  obtain ⟨j,found,bounded,_,_⟩ := walk_found power room hash.toNat free
  rw [←position_zero] at found
  refine ⟨position buckets.length hash.toNat j,j,?_,bounded⟩
  simp only [probe,probe_start power,found]

-- The fuel of probe is no restriction: a loop that outlasts it never ends.
theorem probe_diverges (power : buckets.length = 2 ^ k) (failed : probe buckets hash pred = .error .diverges) (fuel : Nat) :
    walk (stops buckets hash pred) (buckets.length - 1) fuel (hash.toNat &&& (buckets.length - 1)) 1 = none := by
  rw [probe_start power]
  apply walk_none power
  rw [probe,probe_start power] at failed
  split at failed
  · assumption
  · cases failed

theorem lookupBucket_probe (found : lookupBucket buckets hash pred = .ok i) : ∃ stride, probe buckets hash pred = .ok (i,stride) := by
  cases probed : probe buckets hash pred with
  | error failure => simp only [lookupBucket,probed,bind,Except.bind,reduceCtorEq] at found
  | ok result =>
    obtain ⟨bucketId,probeCount⟩ := result
    simp only [lookupBucket,probed,bind,Except.bind] at found
    split at found
    · cases found
    · cases found
      exact ⟨probeCount,rfl⟩

-- The exception is for a probe that moves through all buckets but one.
theorem lookupBucket_ok (power : buckets.length = 2 ^ k) (room : buckets.countP Bucket.present + 1 < buckets.length)
    (hash : UInt32) (pred : NameRef → Bool) : ∃ i, lookupBucket buckets hash pred = .ok i := by
  obtain ⟨i,j,found,bounded⟩ := probe_ok power (by omega) hash pred
  have : j + 1 ≠ buckets.length := by omega
  refine ⟨i,?_⟩
  rw [lookupBucket,found]
  exact if_neg this

theorem free_of_stop (power : buckets.length = 2 ^ k) (untaken : Taken Bucket.present buckets (position buckets.length hash.toNat j) = false)
    (before : ∀ m < j, stops buckets hash pred (position buckets.length hash.toNat m) = false) :
    Free buckets hash (position buckets.length hash.toNat j) where
  inside := position_lt (power ▸ Nat.two_pow_pos k)
  untaken := untaken
  reached := ⟨j,rfl,fun m below => taken_of_going (before m below)⟩

theorem untaken_of_empty (stopped : stops buckets hash isEmpty i = true) : Taken Bucket.present buckets i = false := by
  by_contra taken
  obtain ⟨b,at_,present⟩ := taken_iff.mp (Bool.eq_true_of_not_eq_false taken)
  obtain ⟨_,impossible⟩ := (stops_at at_ present).mp stopped
  cases impossible

theorem probe_free (power : buckets.length = 2 ^ k) (found : probe buckets hash isEmpty = .ok (i,stride)) : Free buckets hash i := by
  obtain ⟨j,rfl,stopped,before⟩ := probe_found power found
  exact free_of_stop power (untaken_of_empty stopped) before

theorem lookupBucket_free (power : buckets.length = 2 ^ k) (found : lookupBucket buckets hash isEmpty = .ok i) :
    Free buckets hash i := by
  obtain ⟨stride,probed⟩ := lookupBucket_probe found
  exact probe_free power probed

theorem Free.not_present (free : Free buckets hash i) : ∃ b, buckets[i]? = some b ∧ b.present = false := by
  have := free.untaken
  rw [Taken,List.getElem?_eq_getElem free.inside,Option.any_some] at this
  exact ⟨_,List.getElem?_eq_getElem free.inside,this⟩

theorem Free.mem_set (free : Free buckets hash i) (present : b.present = true) :
    b ∈ buckets.set i c ↔ b ∈ buckets ∨ b = c := by
  constructor
  · exact List.mem_or_eq_of_mem_set
  · rintro (member | rfl)
    · obtain ⟨n,inside,at_⟩ := List.mem_iff_getElem.mp member
      have apart : i ≠ n := by
        rintro rfl
        have := free.untaken
        rw [Taken,List.getElem?_eq_getElem inside,at_,Option.any_some,present] at this
        cases this
      refine List.mem_iff_getElem?.mpr ⟨n,?_⟩
      rw [List.getElem?_set_ne apart,List.getElem?_eq_getElem inside,at_]
    · exact List.mem_set free.inside b

theorem Free.chained (free : Free buckets b.hash i) (chained : Chained Bucket.present Bucket.origin buckets)
    (present : b.present = true) : Chained Bucket.present Bucket.origin (buckets.set i b) := by
  obtain ⟨j,at_,before⟩ := free.reached
  exact Chained.set chained present at_ before

end Probes

section Moving

-- What moving the buckets of from_ into to_ leaves.
structure Moved (from_ to_ after : List Bucket) : Prop where
  length : after.length = to_.length
  chained : Chained Bucket.present Bucket.origin after
  members : ∀ b : Bucket, b.present = true → (b ∈ after ↔ b ∈ to_ ∨ b ∈ from_)
  count : after.countP Bucket.present = to_.countP Bucket.present + from_.countP Bucket.present

theorem moveName_moved (power : to_.length = 2 ^ k) (chained : Chained Bucket.present Bucket.origin to_)
    (present : b.present = true) (done : moveName to_ b = .ok after) : Moved [b] to_ after := by
  rw [moveName,if_pos present] at done
  cases probed : probe to_ b.hash isEmpty with
  | error failure => simp only [probed,bind,Except.bind,reduceCtorEq] at done
  | ok result =>
    obtain ⟨i,stride⟩ := result
    simp only [probed,bind,Except.bind,Except.ok.injEq] at done
    subst done
    have free := probe_free power probed
    refine ⟨List.length_set,free.chained chained present,?_,?_⟩
    · intro c holds
      rw [free.mem_set holds,List.mem_singleton]
    · rw [countP_set free.inside free.untaken present,List.countP_singleton,if_pos present]

theorem Moved.cons {middle from_ : List Bucket} (first : Moved [b] to_ middle) (rest : Moved from_ middle after) :
    Moved (b :: from_) to_ after where
  length := rest.length.trans first.length
  chained := rest.chained
  members := by
    intro c holds
    rw [rest.members c holds,first.members c holds,List.mem_singleton,List.mem_cons,or_assoc]
  count := by
    rw [rest.count,first.count,List.countP_singleton,List.countP_cons]
    omega

theorem Moved.skip {from_ : List Bucket} (rest : Moved from_ to_ after) (absent : b.present ≠ true) : Moved (b :: from_) to_ after where
  length := rest.length
  chained := rest.chained
  members := by
    intro c holds
    have apart : c ≠ b := by
      rintro rfl
      exact absent holds
    rw [rest.members c holds,List.mem_cons,or_iff_right apart]
  count := by rw [rest.count,List.countP_cons,if_neg absent,Nat.add_zero]

theorem moveNames_from (from_ : List Bucket) (power : to_.length = 2 ^ k) (chained : Chained Bucket.present Bucket.origin to_)
    (done : from_.foldlM moveName to_ = .ok after) : Moved from_ to_ after := by
  induction from_ generalizing to_ with
  | nil =>
    cases done
    exact ⟨rfl,chained,by simp,by simp⟩
  | cons b from_ ih =>
    rw [List.foldlM_cons] at done
    by_cases present : b.present = true
    · cases moved : moveName to_ b with
      | error failure =>
        rw [moved] at done
        cases done
      | ok middle =>
        rw [moved] at done
        have first := moveName_moved power chained present moved
        exact first.cons (ih (first.length.trans power) first.chained done)
    · rw [moveName,if_neg present] at done
      exact (ih power chained done).skip present

theorem moveNames_succeeds (from_ : List Bucket) (power : to_.length = 2 ^ k) (chained : Chained Bucket.present Bucket.origin to_)
    (room : to_.countP Bucket.present + from_.countP Bucket.present < to_.length) :
    ∃ after, from_.foldlM moveName to_ = .ok after := by
  induction from_ generalizing to_ with
  | nil => exact ⟨to_,rfl⟩
  | cons b from_ ih =>
    rw [List.countP_cons] at room
    rw [List.foldlM_cons]
    by_cases present : b.present = true
    · rw [if_pos present] at room
      obtain ⟨i,j,found,_⟩ := probe_ok power (by omega) b.hash isEmpty
      have moved : moveName to_ b = .ok (to_.set i b) := by
        rw [moveName,if_pos present,found]
        rfl
      have first := moveName_moved power chained present moved
      have counted := first.count
      rw [List.countP_singleton,if_pos present] at counted
      obtain ⟨after,rest⟩ := ih (first.length.trans power) first.chained (by rw [counted,first.length]; omega)
      refine ⟨after,?_⟩
      rw [moved]
      exact rest
    · rw [if_neg present] at room
      rw [moveName,if_neg present]
      exact ih power chained room

theorem replicate_count (size : Nat) : (List.replicate size (⟨0,0⟩ : Bucket)).countP Bucket.present = 0 := by
  rw [List.countP_replicate]
  exact if_neg (by decide)

theorem replicate_chained (size : Nat) : Chained Bucket.present Bucket.origin (List.replicate size (⟨0,0⟩ : Bucket)) :=
  chained_free size (by decide)

theorem replicate_absent (size : Nat) (present : b.present = true) : b ∉ List.replicate size (⟨0,0⟩ : Bucket) := by
  intro member
  rw [List.eq_of_mem_replicate member] at present
  cases present

end Moving

end Names
