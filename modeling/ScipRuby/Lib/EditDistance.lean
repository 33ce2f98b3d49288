import Mathlib.Data.List.Basic
import Mathlib.Order.Basic

namespace EditDistance
variable {α : Type}

-- One insertion, deletion or substitution of an element.
inductive Edit : List α → List α → Prop where
  | insert (left right : List α) (x : α) : Edit (left ++ right) (left ++ x :: right)
  | delete (left right : List α) (x : α) : Edit (left ++ x :: right) (left ++ right)
  | substitute (left right : List α) (x y : α) : Edit (left ++ x :: right) (left ++ y :: right)

inductive Edits : Nat → List α → List α → Prop where
  | none (a : List α) : Edits 0 a a
  | more {n : Nat} {a b c : List α} (first : Edit a b) (rest : Edits n b c) : Edits (n+1) a c

variable {a b c : List α} {m n : Nat}

-- The fewest edits that lead from one list to the other.
def IsDistance (a b : List α) (n : Nat) : Prop := Edits n a b ∧ ∀ m, Edits m a b → n ≤ m

theorem IsDistance.unique (first : IsDistance a b m) (second : IsDistance a b n) : m = n :=
  Nat.le_antisymm (first.2 n second.1) (second.2 m first.1)

theorem Edit.symm (edit : Edit a b) : Edit b a := by
  cases edit with
  | insert left right x => exact .delete left right x
  | delete left right x => exact .insert left right x
  | substitute left right x y => exact .substitute left right y x

theorem Edit.cons (edit : Edit a b) (x : α) : Edit (x :: a) (x :: b) := by
  cases edit with
  | insert left right y => exact .insert (x :: left) right y
  | delete left right y => exact .delete (x :: left) right y
  | substitute left right y z => exact .substitute (x :: left) right y z

theorem Edit.reverse (edit : Edit a b) : Edit a.reverse b.reverse := by
  cases edit with
  | insert left right x => simpa using Edit.insert right.reverse left.reverse x
  | delete left right x => simpa using Edit.delete right.reverse left.reverse x
  | substitute left right x y => simpa using Edit.substitute right.reverse left.reverse x y

theorem Edits.cons (edits : Edits n a b) (x : α) : Edits n (x :: a) (x :: b) := by
  induction edits with
  | none a => exact .none _
  | more first _ ih => exact .more (first.cons x) ih

theorem Edits.snoc (edits : Edits n a b) (last : Edit b c) : Edits (n+1) a c := by
  induction edits with
  | none a => exact .more last (.none c)
  | more first _ ih => exact .more first (ih last)

theorem Edits.symm (edits : Edits n a b) : Edits n b a := by
  induction edits with
  | none a => exact .none a
  | more first _ ih => exact ih.snoc first.symm

theorem Edits.reverse (edits : Edits n a b) : Edits n a.reverse b.reverse := by
  induction edits with
  | none a => exact .none _
  | more first _ ih => exact .more first.reverse ih

theorem IsDistance.symm (distance : IsDistance a b n) : IsDistance b a n :=
  ⟨distance.1.symm,fun m edits => distance.2 m edits.symm⟩

theorem IsDistance.reverse (distance : IsDistance a b n) : IsDistance a.reverse b.reverse n := by
  refine ⟨distance.1.reverse,fun m edits => distance.2 m ?_⟩
  simpa using edits.reverse

theorem edits_insertAll (b : List α) : Edits b.length [] b := by
  induction b with
  | nil => exact .none []
  | cons y b ih => exact ih.snoc (.insert [] b y)

section Recursion
variable [DecidableEq α]

def cost (x y : α) : Nat := if x = y then 0 else 1

-- The recurrence of the dynamic programs, over the first elements.
def levenshtein : List α → List α → Nat
  | [],b => b.length
  | x :: a,[] => a.length+1
  | x :: a,y :: b =>
    min (min (levenshtein a (y :: b) + 1) (levenshtein (x :: a) b + 1)) (levenshtein a b + cost x y)
termination_by a b => a.length + b.length

@[simp] theorem levenshtein_nil_left (b : List α) : levenshtein [] b = b.length := by rw [levenshtein]

@[simp] theorem levenshtein_nil_right (a : List α) : levenshtein a [] = a.length := by
  cases a with
  | nil => exact levenshtein_nil_left []
  | cons x a => rw [levenshtein,List.length_cons]

theorem levenshtein_cons (x y : α) (a b : List α) : levenshtein (x :: a) (y :: b) =
    min (min (levenshtein a (y :: b) + 1) (levenshtein (x :: a) b + 1)) (levenshtein a b + cost x y) := by
  rw [levenshtein]

theorem cost_le (x y : α) : cost x y ≤ 1 := by
  unfold cost
  split <;> omega

theorem levenshtein_le_max (a b : List α) : levenshtein a b ≤ max a.length b.length := by
  induction a generalizing b with
  | nil => simp
  | cons x a ih =>
    cases b with
    | nil => simp
    | cons y b =>
      have shorter := ih b
      have one := cost_le x y
      rw [levenshtein_cons,List.length_cons,List.length_cons]
      omega

-- An element more at the front of one side costs at most an insertion.
theorem levenshtein_drop_left (x : α) (a b : List α) : levenshtein (x :: a) b ≤ levenshtein a b + 1 := by
  cases b with
  | nil => simp
  | cons y b =>
    rw [levenshtein_cons]
    omega

theorem levenshtein_drop_right (a : List α) (y : α) (b : List α) : levenshtein a (y :: b) ≤ levenshtein a b + 1 := by
  cases a with
  | nil => simp
  | cons x a =>
    rw [levenshtein_cons]
    omega

theorem levenshtein_add_left (x : α) (a b : List α) : levenshtein a b ≤ levenshtein (x :: a) b + 1 := by
  induction b with
  | nil => simp; omega
  | cons y b ih =>
    have inserted := levenshtein_drop_right a y b
    rw [levenshtein_cons]
    omega

-- An edit of the left side changes the distance by at most one. The induction is on what
-- stands before the edited place and then on the other side.
theorem levenshtein_insert (left right : List α) (x : α) (b : List α) :
    levenshtein (left ++ x :: right) b ≤ levenshtein (left ++ right) b + 1 := by
  induction left generalizing b with
  | nil => exact levenshtein_drop_left x right b
  | cons z left ih =>
    induction b with
    | nil => simp; omega
    | cons y b inner =>
      have whole := ih (y :: b)
      have both := ih b
      rw [List.cons_append,List.cons_append] at inner ⊢
      rw [levenshtein_cons,levenshtein_cons]
      omega

theorem levenshtein_delete (left right : List α) (x : α) (b : List α) :
    levenshtein (left ++ right) b ≤ levenshtein (left ++ x :: right) b + 1 := by
  induction left generalizing b with
  | nil => exact levenshtein_add_left x right b
  | cons z left ih =>
    induction b with
    | nil => simp; omega
    | cons y b inner =>
      have whole := ih (y :: b)
      have both := ih b
      rw [List.cons_append,List.cons_append] at inner ⊢
      rw [levenshtein_cons,levenshtein_cons]
      omega

theorem levenshtein_substitute (left right : List α) (x y : α) (b : List α) :
    levenshtein (left ++ x :: right) b ≤ levenshtein (left ++ y :: right) b + 1 := by
  induction left generalizing b with
  | nil =>
    induction b with
    | nil => simp
    | cons z b inner =>
      have one := cost_le x z
      rw [List.nil_append,List.nil_append] at inner ⊢
      rw [levenshtein_cons,levenshtein_cons]
      omega
  | cons z left ih =>
    induction b with
    | nil => simp
    | cons w b inner =>
      have whole := ih (w :: b)
      have both := ih b
      rw [List.cons_append,List.cons_append] at inner ⊢
      rw [levenshtein_cons,levenshtein_cons]
      omega

theorem Edit.levenshtein_le (edit : Edit a b) (c : List α) : levenshtein a c ≤ levenshtein b c + 1 := by
  cases edit with
  | insert left right x => exact levenshtein_delete left right x c
  | delete left right x => exact levenshtein_insert left right x c
  | substitute left right x y => exact levenshtein_substitute left right x y c

theorem levenshtein_self (a : List α) : levenshtein a a = 0 := by
  induction a with
  | nil => simp
  | cons x a ih =>
    rw [levenshtein_cons,ih,cost,if_pos rfl]
    omega

theorem Edits.levenshtein_le (edits : Edits n a b) : levenshtein a b ≤ n := by
  induction edits with
  | none a => exact Nat.le_of_eq (levenshtein_self a)
  | more first _ ih =>
    have step := first.levenshtein_le
    exact Nat.le_trans (step _) (Nat.succ_le_succ ih)

theorem edits_cost (edits : Edits n a b) (x y : α) : Edits (n + cost x y) (x :: a) (y :: b) := by
  unfold cost
  split
  · rename_i same
    subst same
    exact edits.cons x
  · exact (edits.cons x).snoc (.substitute [] b x y)

theorem edits_levenshtein (a b : List α) : Edits (levenshtein a b) a b := by
  induction a generalizing b with
  | nil =>
    rw [levenshtein_nil_left]
    exact edits_insertAll b
  | cons x a ih =>
    induction b with
    | nil =>
      rw [levenshtein_nil_right]
      exact (edits_insertAll (x :: a)).symm
    | cons y b inner =>
      have deleted : Edits (levenshtein a (y :: b) + 1) (x :: a) (y :: b) := .more (.delete [] a x) (ih (y :: b))
      have inserted : Edits (levenshtein (x :: a) b + 1) (x :: a) (y :: b) := inner.snoc (.insert [] b y)
      have replaced := edits_cost (ih b) x y
      rw [levenshtein_cons]
      rcases Nat.le_total (levenshtein a (y :: b) + 1) (levenshtein (x :: a) b + 1) with low | low
      · rw [Nat.min_eq_left low]
        rcases Nat.le_total (levenshtein a (y :: b) + 1) (levenshtein a b + cost x y) with least | least
        · rwa [Nat.min_eq_left least]
        · rwa [Nat.min_eq_right least]
      · rw [Nat.min_eq_right low]
        rcases Nat.le_total (levenshtein (x :: a) b + 1) (levenshtein a b + cost x y) with least | least
        · rwa [Nat.min_eq_left least]
        · rwa [Nat.min_eq_right least]

theorem levenshtein_isDistance (a b : List α) : IsDistance a b (levenshtein a b) :=
  ⟨edits_levenshtein a b,fun _ => Edits.levenshtein_le⟩

theorem levenshtein_comm (a b : List α) : levenshtein a b = levenshtein b a :=
  (levenshtein_isDistance a b).unique (levenshtein_isDistance b a).symm

theorem levenshtein_reverse (a b : List α) : levenshtein a.reverse b.reverse = levenshtein a b :=
  (levenshtein_isDistance _ _).unique (levenshtein_isDistance a b).reverse

-- The recurrence over the last elements, as the column programs read it.
theorem levenshtein_snoc (a b : List α) (x y : α) : levenshtein (a ++ [x]) (b ++ [y]) =
    min (min (levenshtein a (b ++ [y]) + 1) (levenshtein (a ++ [x]) b + 1)) (levenshtein a b + cost x y) := by
  have turned := levenshtein_cons x y a.reverse b.reverse
  rw [← List.reverse_concat,← List.reverse_concat,levenshtein_reverse,levenshtein_reverse,levenshtein_reverse,
    levenshtein_reverse] at turned
  simpa using turned

end Recursion
end EditDistance
