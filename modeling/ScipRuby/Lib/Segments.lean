import Mathlib.Data.List.TakeWhile

namespace Segments
variable {stops : List Nat} {off i c stop : Nat}

-- Rising stops cut the places up to the last of them into segments. A segment runs
-- from the place after the stop before it to its own stop, both included.
def start (stops : List Nat) : Nat → Nat
  | 0 => 0
  | i + 1 => stops.getD i 0 + 1

def segment (stops : List Nat) (off : Nat) : Nat := (stops.takeWhile (· < off)).length

def distance (stops : List Nat) (off : Nat) : Nat := off - start stops (segment stops off)

-- The place so far into a segment, if the segment is that long.
def within (stops : List Nat) (i c : Nat) : Option Nat :=
  match stops[i]? with
  | some stop => if start stops i + c ≤ stop then some (start stops i + c) else none
  | none => none

theorem takeWhile_stops {p : Nat → Bool} (here : stops[i]? = some stop) :
    (stops.takeWhile p).length = i ↔ (∀ before ∈ stops.take i, p before = true) ∧ p stop = false := by
  induction stops generalizing i with
  | nil => simp at here
  | cons first rest ih =>
    cases i with
    | zero =>
      obtain rfl : first = stop := by simpa using here
      by_cases holds : p first = true <;> simp [holds]
    | succ i =>
      have later : rest[i]? = some stop := by simpa using here
      by_cases holds : p first = true
      · simp [holds,ih later]
      · simp [holds]

-- The place after the stop before is past all earlier stops.
theorem start_le_iff (rising : stops.Pairwise (· < ·)) (short : i ≤ stops.length) :
    start stops i ≤ off ↔ ∀ before ∈ stops.take i, before < off := by
  cases i with
  | zero => simp [start]
  | succ i =>
    have here : i < stops.length := short
    have last : stops.getD i 0 = stops[i] := by simp [here]
    rw [start,last]
    constructor
    · intro passed before member
      obtain ⟨j,bound,rfl⟩ := List.getElem_of_mem member
      rw [List.length_take] at bound
      rw [List.getElem_take]
      obtain same | apart := Nat.eq_or_lt_of_le (by omega : j ≤ i)
      · subst same
        exact passed
      · have := List.pairwise_iff_getElem.mp rising j i (by omega) here apart
        omega
    · intro passed
      apply passed
      exact List.mem_take_iff_getElem.mpr ⟨i,by omega,rfl⟩

theorem segment_iff (rising : stops.Pairwise (· < ·)) (here : stops[i]? = some stop) :
    segment stops off = i ↔ start stops i ≤ off ∧ off ≤ stop := by
  have bound := (List.getElem?_eq_some_iff.mp here).1
  rw [segment,takeWhile_stops here,start_le_iff rising (by omega)]
  simp

theorem start_le_stop (rising : stops.Pairwise (· < ·)) (here : stops[i]? = some stop) : start stops i ≤ stop := by
  obtain ⟨bound,rfl⟩ := List.getElem?_eq_some_iff.mp here
  apply (start_le_iff rising (by omega)).mpr
  intro before member
  obtain ⟨j,low,rfl⟩ := List.getElem_of_mem member
  rw [List.length_take] at low
  rw [List.getElem_take]
  exact List.pairwise_iff_getElem.mp rising j i (by omega) bound (by omega)

-- A place that some stop covers lies in the segment found for it.
theorem segment_covers (rising : stops.Pairwise (· < ·)) (covered : ∃ stop ∈ stops, off ≤ stop) :
    ∃ stop, stops[segment stops off]? = some stop ∧ start stops (segment stops off) ≤ off ∧ off ≤ stop := by
  obtain ⟨cover,member,reaches⟩ := covered
  have short : segment stops off < stops.length := by
    apply Nat.lt_of_le_of_ne (List.takeWhile_sublist _).length_le
    intro whole
    have all := (List.takeWhile_prefix (· < off)).eq_of_length whole
    rw [← all] at member
    have passed := of_decide_eq_true (List.mem_takeWhile_imp (p := fun stop => decide (stop < off)) member)
    omega
  have here : stops[segment stops off]? = some stops[segment stops off] := List.getElem?_eq_getElem short
  exact ⟨_,here,(segment_iff rising here).mp rfl⟩

-- Segment and distance name every covered place, and name nothing else.
theorem within_iff (rising : stops.Pairwise (· < ·)) :
    within stops i c = some off ↔ (∃ stop ∈ stops, off ≤ stop) ∧ segment stops off = i ∧ distance stops off = c := by
  constructor
  · intro found
    rw [within] at found
    split at found
    · rename_i stop here
      split at found
      · rename_i inside
        obtain rfl := Option.some.inj found
        have same := (segment_iff rising here).mpr ⟨Nat.le_add_right _ c,inside⟩
        refine ⟨⟨stop,List.mem_of_getElem? here,inside⟩,same,?_⟩
        rw [distance,same,Nat.add_sub_cancel_left]
      · cases found
    · cases found
  · rintro ⟨covered,rfl,rfl⟩
    obtain ⟨stop,here,low,high⟩ := segment_covers rising covered
    rw [within,here,distance,Nat.add_sub_cancel' low]
    exact if_pos high

end Segments
