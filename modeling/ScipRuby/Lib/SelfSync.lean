import Mathlib.Data.List.Basic

namespace SelfSync

-- Texts that are a row of words.
inductive Valid {α : Type*} (Word : List α → Prop) : List α → Prop where
  | nil : Valid Word []
  | cons {w s : List α} : Word w → Valid Word s → Valid Word (w ++ s)

-- Each word of a text is kept; a letter at which no word starts is escaped.
inductive Repairs {α : Type*} (Word : List α → Prop) (escape : α → List α) : List α → List α → Prop where
  | nil : Repairs Word escape [] []
  | word {w s out : List α} : Word w → Repairs Word escape s out → Repairs Word escape (w ++ s) (w ++ out)
  | letter {c : α} {s out : List α} : (∀ w, Word w → ¬ w <+: c :: s) → Repairs Word escape s out →
      Repairs Word escape (c :: s) (escape c ++ out)

-- A letter that opens a word is never inside one, and no word goes on to another.
structure Code {α : Type*} (Word : List α → Prop) (Tail : α → Prop) : Prop where
  opens : ∀ {w}, Word w → ∃ c rest, w = c :: rest ∧ ¬ Tail c ∧ ∀ d ∈ rest, Tail d
  complete : ∀ {w x}, Word w → Word (w ++ x) → x = []

-- No word starts in the one text and ends in the other.
def Apart {α : Type*} (Word : List α → Prop) (s t : List α) : Prop :=
  ∀ s₁ s₂ t₁ t₂, s = s₁ ++ s₂ → t = t₁ ++ t₂ → s₂ ≠ [] → t₁ ≠ [] → ¬ Word (s₂ ++ t₁)

-- No valid part of the whole text holds the letter.
def Uncovered {α : Type*} (Word : List α → Prop) (before : List α) (c : α) (after : List α) : Prop :=
  ∀ s₁ s₂ t₁ t₂, before = s₁ ++ s₂ → after = t₁ ++ t₂ → ¬ Valid Word (s₂ ++ c :: t₁)

variable {α : Type*} {Word : List α → Prop} {Tail : α → Prop} {escape : α → List α} {c : α} {s t v w x y out : List α}

theorem Valid.single (one : Word w) : Valid Word w := by
  rw [← List.append_nil w]
  exact .cons one .nil

theorem Valid.append (first : Valid Word s) (second : Valid Word t) : Valid Word (s ++ t) := by
  induction first with
  | nil => exact second
  | cons one _ ih =>
    rw [List.append_assoc]
    exact .cons one ih

section Keeping

theorem Repairs.valid (escaped : ∀ c, Valid Word (escape c)) (repairs : Repairs Word escape s out) : Valid Word out := by
  induction repairs with
  | nil => exact .nil
  | word one _ ih => exact .cons one ih
  | letter _ _ ih => exact (escaped _).append ih

theorem Repairs.after_valid (valid : Valid Word v) (rest : Repairs Word escape s out) :
    Repairs Word escape (v ++ s) (v ++ out) := by
  induction valid with
  | nil => exact rest
  | cons one _ ih =>
    rw [List.append_assoc,List.append_assoc]
    exact .word one ih

theorem Repairs.of_valid (valid : Valid Word s) : Repairs Word escape s s := by
  have kept : Repairs Word escape (s ++ []) (s ++ []) := Repairs.after_valid valid .nil
  rwa [List.append_nil] at kept

theorem Repairs.append (first : Repairs Word escape s x) (second : Repairs Word escape t y) (apart : Apart Word s t) :
    Repairs Word escape (s ++ t) (x ++ y) := by
  induction first with
  | nil => exact second
  | @word w s out one _ ih =>
    rw [List.append_assoc,List.append_assoc]
    apply Repairs.word one
    apply ih
    intro s₁ s₂ t₁ t₂ left right
    exact apart (w ++ s₁) s₂ t₁ t₂ (by rw [left,List.append_assoc]) right
  | @letter c s out unread _ ih =>
    rw [List.cons_append,List.append_assoc]
    apply Repairs.letter
    · rintro w one ⟨rest,whole⟩
      rw [← List.cons_append] at whole
      -- The word ends before the boundary, or it crosses it.
      obtain ⟨more,inside,-⟩ | ⟨more,across,after⟩ := List.append_eq_append_iff.mp whole
      · exact unread w one ⟨more,inside.symm⟩
      · cases more with
        | nil => exact unread w one ⟨[],by rw [across,List.append_nil,List.append_nil]⟩
        | cons d more =>
          rw [across] at one
          exact apart [] (c :: s) (d :: more) rest rfl after (by simp) (by simp) one
    · apply ih
      intro s₁ s₂ t₁ t₂ left right
      exact apart (c :: s₁) s₂ t₁ t₂ (by rw [left,List.cons_append]) right

end Keeping

section Codes
variable (code : Code Word Tail)
include code

theorem Code.prefix_eq (first : Word w) (second : Word v) (left : w <+: s) (right : v <+: s) : w = v := by
  obtain ⟨more,rfl⟩ | ⟨more,rfl⟩ := List.prefix_or_prefix_of_prefix left right
  · rw [code.complete first second,List.append_nil]
  · rw [code.complete second first,List.append_nil]

-- A text has one repair.
theorem Code.repairs_unique (first : Repairs Word escape s x) (second : Repairs Word escape s y) : x = y := by
  induction first generalizing y with
  | nil =>
    generalize empty : ([] : List α) = s at second
    cases second with
    | nil => rfl
    | word one _ =>
      obtain ⟨_,_,rfl,_⟩ := code.opens one
      cases empty
    | letter => cases empty
  | @word w s out one _ ih =>
    generalize whole : w ++ s = u at second
    cases second with
    | nil =>
      obtain ⟨_,_,rfl,_⟩ := code.opens one
      cases whole
    | @word v t out' two others =>
      obtain rfl := code.prefix_eq one two ⟨s,whole⟩ ⟨t,rfl⟩
      obtain rfl := List.append_cancel_left whole
      rw [ih others]
    | letter unread _ => exact absurd ⟨s,whole⟩ (unread w one)
  | @letter c s out unread _ ih =>
    generalize whole : c :: s = u at second
    cases second with
    | nil => cases whole
    | @word v t out' two _ => exact absurd ⟨t,whole.symm⟩ (unread v two)
    | letter _ others =>
      cases whole
      rw [ih others]

-- Before a valid text every other text stays by itself.
theorem Code.apart_valid (valid : Valid Word v) (filled : v ≠ []) : Apart Word s (v ++ t) := by
  intro s₁ s₂ t₁ t₂ _ right nonempty nonempty' one
  obtain _ | ⟨first,_⟩ := valid
  · exact filled rfl
  · obtain ⟨c,rest,rfl,opening,_⟩ := code.opens first
    obtain ⟨d,t₁,rfl⟩ := List.exists_cons_of_ne_nil nonempty'
    obtain ⟨e,s₂,rfl⟩ := List.exists_cons_of_ne_nil nonempty
    obtain ⟨e',tail,same,_,inner⟩ := code.opens one
    have head : c = d := (List.cons.inj right).1
    have member : d ∈ tail := by
      rw [← (List.cons.inj same).2]
      simp
    exact opening (head ▸ inner d member)

theorem Code.repairs_run (valid : Valid Word v) (filled : v ≠ []) (first : Repairs Word escape s x)
    (second : Repairs Word escape t y) : Repairs Word escape (s ++ (v ++ t)) (x ++ (v ++ y)) :=
  first.append (second.after_valid valid) (code.apart_valid valid filled)

theorem Code.repairs_letter (uncovered : Uncovered Word s c t) (first : Repairs Word escape s x)
    (second : Repairs Word escape t y) : Repairs Word escape (s ++ c :: t) (x ++ (escape c ++ y)) := by
  apply first.append
  · apply Repairs.letter _ second
    rintro w one ⟨rest,whole⟩
    obtain ⟨d,w,rfl,_⟩ := code.opens one
    obtain ⟨rfl,after⟩ := List.cons.inj whole
    exact uncovered s [] w rest (by simp) after.symm (Valid.single one)
  · intro s₁ s₂ t₁ t₂ left right _ nonempty one
    obtain ⟨d,t₁,rfl⟩ := List.exists_cons_of_ne_nil nonempty
    obtain ⟨rfl,after⟩ := List.cons.inj right
    exact uncovered s₁ s₂ t₁ t₂ left after (Valid.single one)

end Codes

end SelfSync
