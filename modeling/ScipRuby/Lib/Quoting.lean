import Mathlib.Data.List.Basic

namespace Quoting
variable {α : Type*}

-- Every occurrence of the delimiter written twice.
def double [DecidableEq α] (q : α) : List α → List α
  | [] => []
  | c :: rest => if c = q then q :: q :: double q rest else c :: double q rest

-- The text goes on with something that a reader at this point stops at.
def Stops (keep : α → Prop) (text : List α) : Prop := ∀ c, text.head? = some c → ¬ keep c

theorem stops_cons {keep : α → Prop} (stop : ¬ keep c) : Stops keep (c :: rest) := by
  intro d found
  cases found
  exact stop

theorem double_free [DecidableEq α] {q : α} {n : List α} (free : q ∉ n) : double q n = n := by
  induction n with
  | nil => rfl
  | cons c rest ih =>
    obtain ⟨head,tail⟩ := not_or.mp (fun found => free (List.mem_cons.mpr found))
    rw [double,if_neg (Ne.symm head),ih tail]

-- A doubled text closed by a single delimiter can be cut in one place only.
theorem double_cut [DecidableEq α] {q : α} {n m : List α} (left : Stops (· = q) s) (right : Stops (· = q) t)
    (same : double q n ++ q :: s = double q m ++ q :: t) : n = m ∧ s = t := by
  induction n generalizing m with
  | nil =>
    cases m with
    | nil => exact ⟨rfl,List.cons.inj same |>.2⟩
    | cons d m =>
      exfalso
      by_cases delimiter : d = q
      · simp only [double,if_pos delimiter,List.nil_append,List.cons_append,List.cons.injEq,true_and] at same
        exact left q (by rw [same]; rfl) rfl
      · simp only [double,if_neg delimiter,List.nil_append,List.cons_append,List.cons.injEq] at same
        exact delimiter same.1.symm
  | cons c n ih =>
    by_cases delimiter : c = q
    · cases m with
      | nil =>
        exfalso
        simp only [double,if_pos delimiter,List.nil_append,List.cons_append,List.cons.injEq,true_and] at same
        exact right q (by rw [← same]; rfl) rfl
      | cons d m =>
        by_cases also : d = q
        · simp only [double,if_pos delimiter,if_pos also,List.cons_append,List.cons.injEq,true_and] at same
          obtain ⟨rfl,rfl⟩ := ih same
          exact ⟨by rw [delimiter,also],rfl⟩
        · simp only [double,if_pos delimiter,if_neg also,List.cons_append,List.cons.injEq] at same
          exact absurd same.1.symm also
    · cases m with
      | nil =>
        simp only [double,if_neg delimiter,List.nil_append,List.cons_append,List.cons.injEq] at same
        exact absurd same.1 delimiter
      | cons d m =>
        by_cases also : d = q
        · simp only [double,if_neg delimiter,if_pos also,List.cons_append,List.cons.injEq] at same
          exact absurd same.1 delimiter
        · simp only [double,if_neg delimiter,if_neg also,List.cons_append,List.cons.injEq] at same
          obtain ⟨rfl,rest⟩ := same
          obtain ⟨rfl,rfl⟩ := ih rest
          exact ⟨rfl,rfl⟩

-- A run of kept characters followed by a stop can be cut in one place only.
theorem run_cut {keep : α → Prop} {n m : List α} (left : Stops keep s) (right : Stops keep t)
    (kept : ∀ c ∈ n, keep c) (keptToo : ∀ c ∈ m, keep c) (same : n ++ s = m ++ t) : n = m ∧ s = t := by
  induction n generalizing m with
  | nil =>
    cases m with
    | nil => exact ⟨rfl,same⟩
    | cons d m => exact absurd (keptToo d (by simp)) (left d (by rw [List.nil_append] at same; rw [same]; rfl))
  | cons c n ih =>
    cases m with
    | nil => exact absurd (kept c (by simp)) (right c (by rw [List.nil_append] at same; rw [← same]; rfl))
    | cons d m =>
      obtain ⟨rfl,rest⟩ := List.cons.inj same
      obtain ⟨rfl,rfl⟩ := ih (fun c member => kept c (List.mem_cons_of_mem _ member))
        (fun c member => keptToo c (List.mem_cons_of_mem _ member)) rest
      exact ⟨rfl,rfl⟩

end Quoting
