import Mathlib.Data.Set.Lattice
import Mathlib.Order.Basic
import Mathlib.Data.List.TakeWhile

namespace ReverseIndex

section SortedSets
variable {α : Type*} [LinearOrder α] {list : List α} {x y : α}

-- Insertion before the first element that is not less, unless it is there.
def insertSorted (list : List α) (x : α) : List α :=
  if (list.dropWhile (· < x)).head? = some x then list
  else list.takeWhile (· < x) ++ x :: list.dropWhile (· < x)

theorem mem_insertSorted : y ∈ insertSorted list x ↔ y = x ∨ y ∈ list := by
  have whole : y ∈ list ↔ y ∈ list.takeWhile (· < x) ∨ y ∈ list.dropWhile (· < x) := by
    rw [← List.mem_append,List.takeWhile_append_dropWhile]
  unfold insertSorted
  split
  · rename_i there
    have member := List.dropWhile_subset _ (List.mem_of_head? there)
    constructor
    · exact Or.inr
    · rintro (rfl | old)
      · exact member
      · exact old
  · rw [List.mem_append,List.mem_cons,whole]
    exact or_left_comm

theorem before_lt (member : y ∈ list.takeWhile (· < x)) : y < x := by
  have accepted := List.mem_takeWhile_imp member
  exact of_decide_eq_true accepted

-- The first element that is not less, and the greater ones behind it.
theorem from_first {head : α} {tail : List α} (sorted : list.Pairwise (· < ·)) (rest : list.dropWhile (· < x) = head :: tail) :
    x ≤ head ∧ ∀ y ∈ tail, head < y := by
  constructor
  · have stops := List.head?_dropWhile_not (fun z => decide (z < x)) list
    rw [rest] at stops
    exact not_lt.mp (of_decide_eq_false stops)
  · have tailSorted : (head :: tail).Pairwise (· < ·) := rest ▸ sorted.sublist (List.dropWhile_sublist _)
    exact fun y later => List.rel_of_pairwise_cons tailSorted later

theorem lt_after (sorted : list.Pairwise (· < ·)) (absent : (list.dropWhile (· < x)).head? ≠ some x)
    (member : y ∈ list.dropWhile (· < x)) : x < y := by
  cases rest : list.dropWhile (· < x) with
  | nil =>
    rw [rest] at member
    cases member
  | cons head tail =>
    obtain ⟨first,greater⟩ := from_first sorted rest
    rw [rest] at member absent
    have less : x < head := lt_of_le_of_ne first fun same => absent (same ▸ rfl)
    rcases List.mem_cons.mp member with rfl | later
    · exact less
    · exact less.trans (greater y later)

theorem insertSorted_sorted (sorted : list.Pairwise (· < ·)) : (insertSorted list x).Pairwise (· < ·) := by
  unfold insertSorted
  split
  · exact sorted
  · rename_i absent
    have after : ∀ y ∈ list.dropWhile (· < x), x < y := fun y member => lt_after sorted absent member
    apply List.pairwise_append.mpr
    refine ⟨sorted.sublist (List.takeWhile_sublist _),?_,?_⟩
    · exact List.pairwise_cons.mpr ⟨after,sorted.sublist (List.dropWhile_sublist _)⟩
    · intro y early z late
      have less := before_lt early
      rcases List.mem_cons.mp late with rfl | late
      · exact less
      · exact less.trans (after z late)

end SortedSets

section Covering
variable {K V : Type*} {index index' : K → Set V} {uses uses' : V → Set K}

-- The index gives for each key at least the values that use it.
def Covers (index : K → Set V) (uses : V → Set K) : Prop := ∀ v, ∀ k ∈ uses v, v ∈ index k

theorem Covers.mono (covers : Covers index uses) (more : ∀ k, index k ⊆ index' k) (fewer : ∀ v, uses' v ⊆ uses v) :
    Covers index' uses' := fun v k used => more k (covers v k (fewer v used))

-- A value that gains uses is entered for the new ones.
theorem Covers.gain (covers : Covers index uses) (more : ∀ k, index k ⊆ index' k)
    (entered : ∀ v, ∀ k ∈ uses' v, k ∈ uses v ∨ v ∈ index' k) : Covers index' uses' := by
  intro v k used
  rcases entered v k used with old | new
  · exact more k (covers v k old)
  · exact new

-- The entries of one key are dropped for the values that do not use it any more.
theorem Covers.prune (covers : Covers index uses) (key : K) (others : ∀ k, k ≠ key → index' k = index k)
    (fewer : ∀ v, uses' v ⊆ uses v) (dropped : ∀ v ∈ index key, v ∉ index' key → key ∉ uses' v) : Covers index' uses' := by
  intro v k used
  have listed := covers v k (fewer v used)
  by_cases same : k = key
  · subst same
    by_contra out
    exact dropped v listed out used
  · rw [others k same]
    exact listed

end Covering
end ReverseIndex
