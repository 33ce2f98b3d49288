import Mathlib.Order.MinMax
import Mathlib.Data.List.TakeWhile

-- Items of a level are listed under headings. A table says from which level on each
-- heading holds, and one pass over the table shows them in its order.
namespace Headings
variable {κ η : Type} [LinearOrder κ] {table : List (κ × η)} {k m : κ} {ks : List κ}

def Rising (table : List (κ × η)) : Prop := table.Pairwise fun a b => a.1 < b.1

-- How far into the table a level reaches, and the heading that holds there.
def reach (table : List (κ × η)) (k : κ) : Nat := (table.takeWhile (·.1 ≤ k)).length

def heading (table : List (κ × η)) (k : κ) : Option η := ((table.takeWhile (·.1 ≤ k)).getLast?).map Prod.snd

def rest (table : List (κ × η)) (k : κ) : List (κ × η) := table.dropWhile (·.1 ≤ k)

-- The headings over a list of levels when a heading stays until the pass shows the next.
def running (table : List (κ × η)) : κ → List κ → List (Option η)
  | _,[] => []
  | m,k :: ks => heading table (max m k) :: running table (max m k) ks

section Tables

theorem rising_tail {entry : κ × η} (rising : Rising (entry :: table)) : Rising table := (List.pairwise_cons.mp rising).2

theorem takeWhile_mono (rising : Rising table) (le : m ≤ k) :
    table.takeWhile (·.1 ≤ k) = table.takeWhile (·.1 ≤ m) ++ (rest table m).takeWhile (·.1 ≤ k) := by
  induction table with
  | nil => rfl
  | cons entry table ih =>
    by_cases low : entry.1 ≤ m
    · have ih := ih (rising_tail rising)
      simp only [rest] at ih ⊢
      simp [low,low.trans le,ih]
    · simp [rest,low]

theorem rest_above (rising : Rising table) : ∀ entry ∈ rest table m, ¬ entry.1 ≤ m := by
  induction table with
  | nil => simp [rest]
  | cons entry table ih =>
    intro other member
    rw [rest,List.dropWhile_cons] at member
    split at member
    · exact ih (rising_tail rising) other member
    · rename_i high
      have high : ¬ entry.1 ≤ m := by simpa using high
      obtain rfl | later := List.mem_cons.mp member
      · exact high
      · have above := (List.pairwise_cons.mp rising).1 other later
        exact fun le => high (above.le.trans le)

theorem rest_of_le (le : m ≤ k) : rest (rest table m) k = rest table k := by
  induction table with
  | nil => rfl
  | cons entry table ih =>
    simp only [rest] at ih ⊢
    by_cases low : entry.1 ≤ m
    · simp [low,low.trans le,ih]
    · simp [low]

-- Above m, a level and the higher of it and m allow the same entries.
theorem takeWhile_max {entries : List (κ × η)} (above : ∀ entry ∈ entries, ¬ entry.1 ≤ m) :
    entries.takeWhile (·.1 ≤ max m k) = entries.takeWhile (·.1 ≤ k) := by
  induction entries with
  | nil => rfl
  | cons entry entries ih =>
    have ih := ih fun other member => above other (List.mem_cons_of_mem _ member)
    have high := above entry List.mem_cons_self
    simp [List.takeWhile_cons,high] at ih ⊢
    rw [ih]

theorem dropWhile_max {entries : List (κ × η)} (above : ∀ entry ∈ entries, ¬ entry.1 ≤ m) :
    entries.dropWhile (·.1 ≤ max m k) = entries.dropWhile (·.1 ≤ k) := by
  induction entries with
  | nil => rfl
  | cons entry entries ih =>
    have ih := ih fun other member => above other (List.mem_cons_of_mem _ member)
    have high := above entry List.mem_cons_self
    simp [List.dropWhile_cons,high] at ih ⊢
    rw [ih]

theorem rest_rest (rising : Rising table) (m k : κ) : rest (rest table m) k = rest table (max m k) := by
  rw [← rest_of_le (le_max_left m k)]
  exact (dropWhile_max (rest_above rising)).symm

-- What a pass shows from the level m on, if it shows anything, is the heading of the
-- higher level; if not, the heading has not changed.
theorem heading_max (rising : Rising table) (m k : κ) :
    heading table (max m k) = ((((rest table m).takeWhile (·.1 ≤ k)).getLast?).map Prod.snd).or (heading table m) := by
  rw [heading,takeWhile_mono rising (le_max_left m k),takeWhile_max (rest_above rising),List.getLast?_append,heading]
  cases ((rest table m).takeWhile (·.1 ≤ k)).getLast? <;> rfl

theorem reach_mono (rising : Rising table) (le : m ≤ k) : reach table m ≤ reach table k := by
  rw [reach,reach,takeWhile_mono rising le,List.length_append]
  exact Nat.le_add_right _ _

theorem takeWhile_reach (table : List (κ × η)) (k : κ) : table.takeWhile (·.1 ≤ k) = table.take (reach table k) :=
  (List.prefix_iff_eq_take.mp (List.takeWhile_prefix _))

theorem heading_index (table : List (κ × η)) (k : κ) :
    heading table k = if reach table k = 0 then none else (table.map Prod.snd)[reach table k - 1]? := by
  have short : reach table k ≤ table.length := (List.takeWhile_sublist _).length_le
  rw [heading,takeWhile_reach,List.getLast?_eq_getElem?,List.length_take,Nat.min_eq_left short]
  split
  · rename_i none_
    simp [none_]
  · rw [List.getElem?_take_of_lt (by omega),List.getElem?_map]

theorem heading_reached (some_ : reach table k ≠ 0) : reach table k - 1 < (table.map Prod.snd).length ∧
    heading table k = (table.map Prod.snd)[reach table k - 1]? := by
  have short : reach table k ≤ table.length := (List.takeWhile_sublist _).length_le
  rw [heading_index,if_neg some_,List.length_map]
  exact ⟨by omega,rfl⟩

theorem heading_none_iff : heading table k = none ↔ reach table k = 0 := by
  constructor
  · intro none_
    by_contra some_
    obtain ⟨there,found⟩ := heading_reached some_
    rw [none_,List.getElem?_eq_getElem there] at found
    cases found
  · intro zero
    rw [heading_index,if_pos zero]

-- Different headings hold at different places of the table.
theorem heading_eq_iff (distinct : (table.map Prod.snd).Nodup) : heading table k = heading table m ↔ reach table k = reach table m := by
  constructor
  · intro same
    by_cases none_ : reach table k = 0
    · rw [heading_none_iff.mpr none_] at same
      exact none_.trans (heading_none_iff.mp same.symm).symm
    · have some_ : reach table m ≠ 0 := fun zero => none_ (heading_none_iff.mp (same.trans (heading_none_iff.mpr zero)))
      obtain ⟨there,found⟩ := heading_reached none_
      obtain ⟨_,found'⟩ := heading_reached some_
      rw [found,found'] at same
      have index := (List.getElem?_inj there distinct).mp same
      omega
  · intro same
    rw [heading,heading,takeWhile_reach,takeWhile_reach,same]

end Tables

section Running

theorem running_length (table : List (κ × η)) (m : κ) (ks : List κ) : (running table m ks).length = ks.length := by
  induction ks generalizing m with
  | nil => rfl
  | cons k ks ih => exact congrArg Nat.succ (ih _)

-- The headings are right just where no level falls back behind an earlier one.
theorem running_right_iff (rising : Rising table) (distinct : (table.map Prod.snd).Nodup) :
    running table m ks = ks.map (heading table) ↔
      (∀ k ∈ ks, reach table m ≤ reach table k) ∧ ks.Pairwise fun a b => reach table a ≤ reach table b := by
  induction ks generalizing m with
  | nil => simp [running]
  | cons k ks ih =>
    have max_ : reach table (max m k) = max (reach table m) (reach table k) := by
      obtain le | le := le_total m k
      · rw [max_eq_right le,max_eq_right (reach_mono rising le)]
      · rw [max_eq_left le,max_eq_left (reach_mono rising le)]
    have head : heading table (max m k) = heading table k ↔ reach table m ≤ reach table k := by
      rw [heading_eq_iff distinct,max_,max_eq_right_iff]
    rw [running,List.map_cons,List.cons.injEq,head,ih,max_,List.pairwise_cons,List.forall_mem_cons]
    constructor
    · rintro ⟨here,later,pairs⟩
      exact ⟨⟨here,fun a member => (le_max_left _ _).trans (later a member)⟩,
        fun a member => (le_max_right _ _).trans (later a member),pairs⟩
    · rintro ⟨⟨here,later⟩,above,pairs⟩
      exact ⟨here,fun a member => max_le (later a member) (above a member),pairs⟩

end Running

end Headings
