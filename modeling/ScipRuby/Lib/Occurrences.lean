import Mathlib.Data.List.Basic
import Mathlib.Data.List.Infix

namespace Occurrences
variable {α : Type} {p s : List α} {start i j : Nat}

def OccursAt (p s : List α) (i : Nat) : Prop := p <+: s.drop i

-- The first occurrence from a place on.
structure Leftmost (p s : List α) (start i : Nat) : Prop where
  occurs : OccursAt p s i
  after : start ≤ i
  least : ∀ j, start ≤ j → OccursAt p s j → i ≤ j

-- The occurrences from a place on, taken from the left without overlaps.
inductive Picked (p s : List α) : (start i : Nat) → Prop where
  | first {start i : Nat} (leftmost : Leftmost p s start i) : Picked p s start i
  | later {start i j : Nat} (leftmost : Leftmost p s start j) (rest : Picked p s (j + p.length) i) : Picked p s start i

theorem Picked.occurs (picked : Picked p s start i) : OccursAt p s i := by
  induction picked with
  | first leftmost => exact leftmost.occurs
  | later _ _ ih => exact ih

theorem OccursAt.fits (occurs : OccursAt p s i) (filled : p ≠ []) : i + p.length ≤ s.length := by
  have bound := occurs.length_le
  have some_ : 0 < p.length := List.length_pos_iff.mpr filled
  rw [List.length_drop] at bound
  omega

theorem Leftmost.unique (first : Leftmost p s start i) (second : Leftmost p s start j) : i = j :=
  Nat.le_antisymm (first.least j second.after second.occurs) (second.least i first.after first.occurs)

theorem picked_none (none : ∀ j, start ≤ j → ¬OccursAt p s j) : ¬Picked p s start i := by
  intro picked
  cases picked with
  | first leftmost => exact none i leftmost.after leftmost.occurs
  | later leftmost _ => exact none _ leftmost.after leftmost.occurs

theorem picked_iff (leftmost : Leftmost p s start j) : Picked p s start i ↔ i = j ∨ Picked p s (j + p.length) i := by
  constructor
  · intro picked
    cases picked with
    | first other => exact .inl (other.unique leftmost)
    | later other rest => exact .inr (other.unique leftmost ▸ rest)
  · rintro (rfl | rest)
    · exact .first leftmost
    · exact .later leftmost rest

section Search
variable [DecidableEq α]

-- The index that a search from a place on returns.
def find (p s : List α) (start : Nat) : Option Nat :=
  ((List.range (s.length + 1 - start)).find? fun i => p.isPrefixOf (s.drop (start + i))).map (start + ·)

theorem find_some (found : find p s start = some i) : Leftmost p s start i := by
  obtain ⟨index,search,rfl⟩ := Option.map_eq_some_iff.mp found
  obtain ⟨occurs,inside,before⟩ := List.find?_range_eq_some.mp search
  refine ⟨List.isPrefixOf_iff_prefix.mp occurs,Nat.le_add_right _ _,?_⟩
  intro j after other
  by_contra less
  have absent := before (j - start) (by omega)
  rw [Nat.add_sub_cancel' after,Bool.not_eq_true',← Bool.not_eq_true,List.isPrefixOf_iff_prefix] at absent
  exact absent other

theorem find_none (filled : p ≠ []) (found : find p s start = none) : ∀ j, start ≤ j → ¬OccursAt p s j := by
  intro j after occurs
  have fits := occurs.fits filled
  have search := List.find?_range_eq_none.mp (Option.map_eq_none_iff.mp found)
  have absent := search (j - start) (by omega)
  rw [Nat.add_sub_cancel' after,Bool.not_eq_true',← Bool.not_eq_true,List.isPrefixOf_iff_prefix] at absent
  exact absent occurs

-- Where no two occurrences overlap, all of them are picked.
theorem picked_of_apart (filled : p ≠ []) (apart : ∀ i j, OccursAt p s i → OccursAt p s j → i < j → i + p.length ≤ j)
    (after : start ≤ i) (occurs : OccursAt p s i) : Picked p s start i := by
  have some_ : 0 < p.length := List.length_pos_iff.mpr filled
  have walk : ∀ room start, start ≤ i → i < start + room → Picked p s start i := by
    intro room
    induction room with
    | zero => intro start after near; omega
    | succ room ih =>
      intro start after near
      cases found : find p s start with
      | none => exact absurd occurs (find_none filled found i after)
      | some j =>
        have leftmost := find_some found
        have least := leftmost.least i after occurs
        have from_ := leftmost.after
        rw [picked_iff leftmost]
        rcases Nat.lt_or_eq_of_le least with less | same
        · have next := apart j i leftmost.occurs occurs less
          exact .inr (ih _ next (by omega))
        · exact .inl same.symm
  exact walk (i + 1) start after (by omega)

end Search
end Occurrences
