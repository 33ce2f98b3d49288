import ScipRuby.Scip.SymbolRef

namespace Scip
variable {c separator : Char} {needle text : Str} {i : Nat}

theorem rfind_none (some_ : needle ≠ []) : rfind needle text = none ↔ ∀ i, ¬ needle <+: text.drop i := by
  induction text with
  | nil => simp [rfind,some_]
  | cons c rest ih =>
    have cases_ : (∀ i, ¬ needle <+: (c :: rest).drop i) ↔ ¬ needle <+: c :: rest ∧ ∀ i, ¬ needle <+: rest.drop i := by
      constructor
      · exact fun all => ⟨all 0,fun i => all (i + 1)⟩
      · rintro ⟨first,others⟩ (_ | i)
        · exact first
        · exact others i
    rw [cases_,← ih,rfind]
    cases rfind needle rest with
    | some at' => simp
    | none => simp

-- The last place where the needle starts.
theorem rfind_some (some_ : needle ≠ []) :
    rfind needle text = some i ↔ needle <+: text.drop i ∧ ∀ j, i < j → ¬ needle <+: text.drop j := by
  induction text generalizing i with
  | nil => simp [rfind,some_]
  | cons c rest ih =>
    rw [rfind]
    cases found : rfind needle rest with
    | some at' =>
      obtain ⟨here,later⟩ := ih.mp found
      constructor
      · rintro ⟨⟩
        refine ⟨here,fun j beyond => ?_⟩
        obtain _ | j := j
        · cases beyond
        · exact later j (by omega)
      · rintro ⟨here',later'⟩
        have low : ¬ at' + 1 < i := by
          intro below
          obtain _ | i := i
          · cases below
          · exact later i (by omega) here'
        have high : ¬ i < at' + 1 := fun above => later' (at' + 1) above here
        exact congrArg some (by omega)
    | none =>
      have absent := (rfind_none some_).mp found
      dsimp only
      split
      · rename_i starts
        have starts' := List.isPrefixOf_iff_prefix.mp starts
        constructor
        · rintro ⟨⟩
          refine ⟨starts',fun j beyond => ?_⟩
          obtain _ | j := j
          · cases beyond
          · exact absent j
        · rintro ⟨here,_⟩
          obtain _ | i := i
          · rfl
          · exact absurd here (absent i)
      · rename_i starts
        constructor
        · intro found
          cases found
        rintro ⟨here,_⟩
        obtain _ | i := i
        · exact absurd (List.isPrefixOf_iff_prefix.mpr here) starts
        · exact absurd here (absent i)

theorem rfind_char_none : rfind [c] text = none ↔ c ∉ text := by
  rw [rfind_none (by simp)]
  constructor
  · intro absent member
    obtain ⟨before,after,rfl⟩ := List.append_of_mem member
    exact absent before.length (by simp)
  · intro absent i starts
    exact absent (List.mem_of_mem_drop (starts.subset List.mem_cons_self))

theorem rfind_char_append {before after : Str} (absent : c ∉ after) :
    rfind [c] (before ++ c :: after) = some before.length := by
  refine (rfind_some (by simp)).mpr ⟨by simp,fun j beyond starts => ?_⟩
  obtain ⟨k,rfl⟩ := Nat.exists_eq_add_of_lt beyond
  have later : (before ++ c :: after).drop (before.length + k + 1) = after.drop k := by
    rw [Nat.add_assoc,List.drop_length_add_append,List.drop_succ_cons]
  rw [later] at starts
  exact absent (List.mem_of_mem_drop (starts.subset List.mem_cons_self))

-- The text before the last place of a character, and after it.
theorem rfind_char_cases (c : Char) (text : Str) : (c ∉ text ∧ rfind [c] text = none) ∨
    ∃ before after, text = before ++ c :: after ∧ c ∉ after ∧ rfind [c] text = some before.length := by
  by_cases member : c ∈ text
  · obtain ⟨after,before,reversed,absent⟩ := List.eq_append_cons_of_mem (List.mem_reverse.mpr member)
    have split : text = before.reverse ++ c :: after.reverse := by
      rw [← List.reverse_reverse text,reversed]
      simp
    have absent' : c ∉ after.reverse := fun inside => absent (List.mem_reverse.mp inside)
    exact .inr ⟨before.reverse,after.reverse,split,absent',split ▸ rfind_char_append absent'⟩
  · exact .inl ⟨member,rfind_char_none.mpr member⟩

theorem splitAt_absent (absent : separator ∉ text) : splitAt separator text = [text] := by
  induction text with
  | nil => rfl
  | cons c rest ih =>
    have apart : c ≠ separator := fun same => absent (same ▸ List.mem_cons_self)
    rw [splitAt,if_neg apart,ih fun member => absent (List.mem_cons_of_mem _ member)]

theorem splitAt_append (absent : separator ∉ text) (rest : Str) :
    splitAt separator (text ++ separator :: rest) = text :: splitAt separator rest := by
  induction text with
  | nil => simp [splitAt]
  | cons c text ih =>
    have apart : c ≠ separator := fun same => absent (same ▸ List.mem_cons_self)
    rw [List.cons_append,splitAt,if_neg apart,ih fun member => absent (List.mem_cons_of_mem _ member)]

theorem splitAt_nonempty (text : Str) : splitAt separator text ≠ [] := by
  cases text with
  | nil => simp [splitAt]
  | cons c rest =>
    rw [splitAt]
    split
    · simp
    · split <;> simp

end Scip
