import Mathlib.Data.Finset.Card
import Mathlib.Data.List.Perm.Subperm
import Mathlib.Data.Nat.ModEq
import Mathlib.Data.Nat.Prime.Basic
import Mathlib.Algebra.Order.Ring.Nat
import Mathlib.Tactic.Ring

namespace Probing
variable {β : Type*} {stop : Nat → Bool} {size home start bucket stride i j k fuel : Nat}

-- Triangular probing: the n-th move goes n buckets further, modulo the size of
-- the table. The loop stops at the first bucket that satisfies `stop` and gives
-- it with the length of the next move; none when the fuel is used up before.
def walk (stop : Nat → Bool) (mask : Nat) : (fuel bucket stride : Nat) → Option (Nat × Nat)
  | 0,_,_ => none
  | fuel+1,bucket,stride =>
    if stop bucket then some (bucket,stride)
    else walk stop mask fuel ((bucket + stride) &&& mask) (stride + 1)

def position (size home i : Nat) : Nat := (home + i * (i + 1) / 2) % size

section Position

theorem position_zero : position size home 0 = home % size := by simp [position]

theorem position_lt (nonempty : 0 < size) : position size home i < size := Nat.mod_lt _ nonempty

theorem triangle_succ (i : Nat) : (i + 1) * (i + 2) / 2 = i * (i + 1) / 2 + (i + 1) := by
  have split : (i + 1) * (i + 2) = i * (i + 1) + (i + 1) * 2 := by ring
  rw [split,Nat.add_mul_div_right _ _ (by decide)]

theorem position_succ : position size home (i + 1) = (position size home i + (i + 1)) % size := by
  simp only [position,Nat.mod_add_mod,triangle_succ,Nat.add_assoc]

theorem double_triangle (i : Nat) : 2 * (i * (i + 1) / 2) = i * (i + 1) :=
  Nat.mul_div_cancel' (Nat.even_mul_succ_self i).two_dvd

-- The difference of two triangles is half a product of an odd and an even
-- factor; the power of two must divide the even one, which is too small.
theorem position_inj_of_le (le : i ≤ j) (inside : j < 2 ^ k) (same : position (2 ^ k) home i = position (2 ^ k) home j) :
    i = j := by
  obtain ⟨d,rfl⟩ := Nat.exists_eq_add_of_le le
  have congruent : home + i * (i + 1) / 2 ≡ home + (i + d) * (i + d + 1) / 2 [MOD 2 ^ k] := same
  have triangles : i * (i + 1) / 2 ≡ (i + d) * (i + d + 1) / 2 [MOD 2 ^ k] := Nat.ModEq.add_left_cancel' home congruent
  have doubled : i * (i + 1) ≡ (i + d) * (i + d + 1) [MOD 2 * 2 ^ k] := by
    have := Nat.ModEq.mul_left' 2 triangles
    rwa [double_triangle,double_triangle] at this
  have split : (i + d) * (i + d + 1) = i * (i + 1) + d * (2 * i + d + 1) := by ring
  have divides : 2 ^ (k + 1) ∣ d * (2 * i + d + 1) := by
    rw [split] at doubled
    rw [Nat.pow_succ']
    have := (Nat.modEq_iff_dvd' (Nat.le_add_right _ _)).mp doubled
    rwa [Nat.add_sub_cancel_left] at this
  have wide : 2 ^ (k + 1) = 2 * 2 ^ k := Nat.pow_succ'
  rcases Nat.even_or_odd d with even | odd
  · have other : Odd (2 * i + d + 1) := by
      obtain ⟨e,rfl⟩ := even
      exact ⟨i + e,by ring⟩
    have := (Nat.Coprime.pow_left (k + 1) (Nat.coprime_two_left.mpr other)).dvd_of_dvd_mul_right divides
    rcases Nat.eq_zero_or_pos d with zero | positive
    · omega
    · have := Nat.le_of_dvd positive this
      omega
  · have := (Nat.Coprime.pow_left (k + 1) (Nat.coprime_two_left.mpr odd)).dvd_of_dvd_mul_left divides
    have := Nat.le_of_dvd (by omega) this
    omega

theorem position_inj (first : i < 2 ^ k) (second : j < 2 ^ k) (same : position (2 ^ k) home i = position (2 ^ k) home j) :
    i = j := by
  rcases Nat.le_total i j with le | le
  · exact position_inj_of_le le second same
  · exact (position_inj_of_le le first same.symm).symm

-- The first 2^k probes see every bucket.
theorem position_surj (inside : bucket < 2 ^ k) : ∃ i < 2 ^ k, position (2 ^ k) home i = bucket := by
  have injective : Set.InjOn (position (2 ^ k) home) (Finset.range (2 ^ k)) := by
    intro i first j second same
    exact position_inj (Finset.mem_range.mp first) (Finset.mem_range.mp second) same
  have maps : Set.MapsTo (position (2 ^ k) home) (Finset.range (2 ^ k)) (Finset.range (2 ^ k)) := by
    intro i _
    exact Finset.mem_coe.mpr (Finset.mem_range.mpr (position_lt (Nat.two_pow_pos k)))
  obtain ⟨i,member,at_⟩ := Finset.surjOn_of_injOn_of_card_le _ maps injective le_rfl (Finset.mem_coe.mpr (Finset.mem_range.mpr inside))
  exact ⟨i,Finset.mem_range.mp (Finset.mem_coe.mp member),at_⟩

end Position

section Walk
variable (power : size = 2 ^ k)
include power

theorem walk_step (going : stop (position size home i) = false) :
    walk stop (size - 1) (fuel + 1) (position size home i) (i + 1) =
      walk stop (size - 1) fuel (position size home (i + 1)) (i + 1 + 1) := by
  have next : (position size home i + (i + 1)) &&& (size - 1) = position size home (i + 1) := by
    rw [position_succ]
    subst power
    exact Nat.and_two_pow_sub_one_eq_mod _ k
  simp only [walk,going,next,Bool.false_eq_true,↓reduceIte]

-- The loop gives the first bucket of the probe sequence that satisfies `stop`.
theorem walk_some (found : walk stop (size - 1) fuel (position size home i) (i + 1) = some (bucket,stride)) :
    ∃ j, i ≤ j ∧ j < i + fuel ∧ bucket = position size home j ∧ stride = j + 1 ∧ stop bucket = true ∧
      ∀ m, i ≤ m → m < j → stop (position size home m) = false := by
  induction fuel generalizing i with
  | zero => cases found
  | succ fuel ih =>
    cases going : stop (position size home i) with
    | true =>
      simp only [walk,going,↓reduceIte,Option.some.injEq,Prod.mk.injEq] at found
      obtain ⟨rfl,rfl⟩ := found
      exact ⟨i,le_rfl,by omega,rfl,rfl,going,fun m lower upper => absurd upper (by omega)⟩
    | false =>
      rw [walk_step power going] at found
      obtain ⟨j,lower,upper,rfl,rfl,stopped,before⟩ := ih found
      refine ⟨j,by omega,by omega,rfl,rfl,stopped,?_⟩
      intro m above below
      rcases Nat.eq_or_lt_of_le above with rfl | further
      · exact going
      · exact before m further below

theorem walk_stops (lower : i ≤ j) (upper : j < i + fuel) (stopped : stop (position size home j) = true) :
    ∃ bucket stride, walk stop (size - 1) fuel (position size home i) (i + 1) = some (bucket,stride) := by
  induction fuel generalizing i with
  | zero => omega
  | succ fuel ih =>
    cases going : stop (position size home i) with
    | true => exact ⟨position size home i,i + 1,by simp [walk,going]⟩
    | false =>
      rw [walk_step power going]
      refine ih ?_ (by omega)
      rcases Nat.eq_or_lt_of_le lower with rfl | further
      · rw [stopped] at going
        cases going
      · exact further

-- Once every bucket has been probed in vain, no further probe stops.
theorem walk_none (exhausted : walk stop (size - 1) size (position size home 0) 1 = none) (fuel : Nat) :
    walk stop (size - 1) fuel (position size home 0) 1 = none := by
  cases result : walk stop (size - 1) fuel (position size home 0) 1 with
  | none => rfl
  | some found =>
    obtain ⟨bucket,stride⟩ := found
    obtain ⟨j,_,_,rfl,_,stopped,_⟩ := walk_some power result
    subst power
    obtain ⟨m,inside,same⟩ : ∃ m < 2 ^ k, position (2 ^ k) home m = position (2 ^ k) home j :=
      position_surj (position_lt (Nat.two_pow_pos k))
    rw [←same] at stopped
    have within : m < 0 + 2 ^ k := by omega
    obtain ⟨_,_,late⟩ := walk_stops rfl (Nat.zero_le m) within stopped
    rw [exhausted] at late
    cases late

end Walk

section Chains
variable {present : β → Bool} {origin : β → Nat} {slots : List β} {b : β}

def Taken (present : β → Bool) (slots : List β) (i : Nat) : Bool := slots[i]?.any present

-- A value is on its own probe sequence, and every bucket before it there is taken.
def Chained (present : β → Bool) (origin : β → Nat) (slots : List β) : Prop :=
  ∀ (i : Nat) (b : β), slots[i]? = some b → present b = true →
    ∃ j, position slots.length (origin b) j = i ∧
      ∀ m < j, Taken present slots (position slots.length (origin b) m) = true

theorem taken_iff : Taken present slots i = true ↔ ∃ b, slots[i]? = some b ∧ present b = true := by
  simp only [Taken,Option.any_eq_true]

theorem taken_range (slots : List β) : slots.countP present = (List.range slots.length).countP (Taken present slots) := by
  induction slots using List.reverseRecOn with
  | nil => rfl
  | append_singleton slots b ih =>
    have earlier : (List.range slots.length).countP (Taken present (slots ++ [b])) =
        (List.range slots.length).countP (Taken present slots) := by
      apply List.countP_congr
      intro i inside
      rw [Taken,Taken,List.getElem?_append_left (List.mem_range.mp inside)]
    have last : Taken present (slots ++ [b]) slots.length = present b := by simp [Taken]
    rw [List.length_append,List.length_singleton,List.range_succ,List.countP_append,List.countP_append,earlier,ih,
      List.countP_singleton,List.countP_singleton,last]

theorem exists_untaken (room : slots.countP present < slots.length) : ∃ i < slots.length, Taken present slots i = false := by
  by_contra! full
  have every : (List.range slots.length).countP (Taken present slots) = (List.range slots.length).length := by
    apply List.countP_eq_length.mpr
    intro i inside
    exact Bool.eq_true_of_not_eq_false (full i (List.mem_range.mp inside))
  rw [←taken_range,List.length_range] at every
  omega

-- Probes in taken buckets are at most as many as the values.
theorem taken_le (power : slots.length = 2 ^ k) (inside : j ≤ slots.length)
    (taken : ∀ m < j, Taken present slots (position slots.length home m) = true) : j ≤ slots.countP present := by
  have distinct : ((List.range j).map (position slots.length home)).Nodup := by
    apply List.Nodup.map_on ?_ List.nodup_range
    intro m first n second same
    rw [List.mem_range] at first second
    rw [power] at same inside
    exact position_inj (by omega) (by omega) same
  have within : ((List.range j).map (position slots.length home)).Subperm
      ((List.range slots.length).filter (Taken present slots)) := by
    apply List.Nodup.subperm distinct
    intro bucket member
    obtain ⟨m,below,rfl⟩ := List.mem_map.mp member
    rw [List.mem_range] at below
    have positive : 0 < slots.length := power ▸ Nat.two_pow_pos k
    exact List.mem_filter.mpr ⟨List.mem_range.mpr (position_lt positive),taken m below⟩
  have := within.length_le
  rwa [List.length_map,List.length_range,←List.countP_eq_length_filter,←taken_range] at this

-- With a free bucket left the loop stops, after at most as many moves as values.
theorem walk_found (power : slots.length = 2 ^ k) (room : slots.countP present < slots.length) (home : Nat)
    (free : ∀ i, Taken present slots i = false → stop i = true) :
    ∃ j, walk stop (slots.length - 1) slots.length (home % slots.length) 1 = some (position slots.length home j,j + 1) ∧
      j ≤ slots.countP present ∧ stop (position slots.length home j) = true ∧
      ∀ m < j, stop (position slots.length home m) = false := by
  obtain ⟨i,inside,untaken⟩ := exists_untaken room
  obtain ⟨n,below,at_⟩ : ∃ n < slots.length, position slots.length home n = i := by
    rw [power] at inside ⊢
    exact position_surj inside
  have stopped : stop (position slots.length home n) = true := by
    rw [at_]
    exact free i untaken
  obtain ⟨bucket,stride,found⟩ := walk_stops power (Nat.zero_le n) (by omega : n < 0 + slots.length) stopped
  obtain ⟨j,_,upper,rfl,rfl,here,before⟩ := walk_some power found
  have taken : ∀ m < j, Taken present slots (position slots.length home m) = true := by
    intro m below
    by_contra untaken
    have := free _ (Bool.eq_false_of_not_eq_true untaken)
    rw [before m (Nat.zero_le m) below] at this
    cases this
  rw [position_zero] at found
  exact ⟨j,found,taken_le power (by omega) taken,here,fun m => before m (Nat.zero_le m)⟩

-- A walk that would stop at a value does not stop at a free bucket before it.
theorem Chained.taken (chained : Chained present origin slots) (at_ : slots[i]? = some b) (value : present b = true)
    (same : origin b = home) (wanted : stop i = true) (before : ∀ m < j, stop (position slots.length home m) = false) :
    Taken present slots (position slots.length home j) = true := by
  obtain ⟨n,where_,chain⟩ := chained i b at_ value
  rw [same] at where_ chain
  rcases Nat.lt_trichotomy j n with earlier | equal | later
  · exact chain j earlier
  · rw [equal,where_]
    exact taken_iff.mpr ⟨b,at_,value⟩
  · have := before n later
    rw [where_,wanted] at this
    cases this

theorem taken_set (value : present b = true) (taken : Taken present slots j = true) : Taken present (slots.set i b) j = true := by
  obtain ⟨c,at_,holds⟩ := taken_iff.mp taken
  obtain ⟨inside,_⟩ := List.getElem?_eq_some_iff.mp at_
  rw [Taken,List.getElem?_set]
  split
  · split
    · exact value
    · omega
  · exact taken

theorem Chained.set (chained : Chained present origin slots) (value : present b = true)
    (where_ : position slots.length (origin b) j = i)
    (before : ∀ m < j, Taken present slots (position slots.length (origin b) m) = true) :
    Chained present origin (slots.set i b) := by
  intro n c at_ holds
  rw [List.getElem?_set] at at_
  rw [List.length_set]
  by_cases here : i = n
  · rw [if_pos here] at at_
    split at at_
    · cases at_
      exact ⟨j,where_.trans here,fun m below => taken_set value (before m below)⟩
    · cases at_
  · rw [if_neg here] at at_
    obtain ⟨m,there,chain⟩ := chained n c at_ holds
    exact ⟨m,there,fun l below => taken_set value (chain l below)⟩

theorem countP_set (inside : i < slots.length) (free : Taken present slots i = false) (value : present b = true) :
    (slots.set i b).countP present = slots.countP present + 1 := by
  have old : present slots[i] = false := by
    rw [Taken,List.getElem?_eq_getElem inside] at free
    exact free
  rw [List.countP_set inside]
  simp [old,value]

theorem chained_free (size : Nat) (empty : present b = false) : Chained present origin (List.replicate size b) := by
  intro i c at_ holds
  obtain ⟨inside,rfl⟩ := List.getElem?_eq_some_iff.mp at_
  rw [List.getElem_replicate,empty] at holds
  cases holds

end Chains

end Probing
