import Mathlib.Data.List.Basic

-- What an unstable sort may leave of a list: any arrangement in which no item stands
-- before one that comes before it.
namespace Arrangements
variable {α : Type} {r : α → α → Prop} {l : List α} {a b : α}

def Arranged (r : α → α → Prop) (l sorted : List α) : Prop := sorted.Perm l ∧ sorted.Pairwise fun x y => ¬r y x

-- Two items that the order leaves this way round stand this way round in some arrangement:
-- the one that a stable sort makes when the first is moved to the front.
theorem exists_arranged (asymm : ∀ x ∈ l, ∀ y ∈ l, r x y → ¬r y x)
    (connected : ∀ x ∈ l, ∀ y ∈ l, ∀ z ∈ l, r x z → r x y ∨ r y z)
    (here : a ∈ l) (there : b ∈ l) (apart : b ≠ a) (free : ¬r b a) :
    ∃ sorted, Arranged r l sorted ∧ [a,b].Sublist sorted := by
  classical
  let le : {x // x ∈ l} → {x // x ∈ l} → Bool := fun x y => !decide (r y.1 x.1)
  have trans : ∀ x y z, le x y = true → le y z = true → le x z = true := by
    intro x y z first second
    simp only [le,Bool.not_eq_true',decide_eq_false_iff_not] at first second ⊢
    intro back
    exact (connected z.1 z.2 y.1 y.2 x.1 x.2 back).elim second first
  have total : ∀ x y, (le x y || le y x) = true := by
    intro x y
    by_cases back : r y.1 x.1
    · simp [le,asymm y.1 y.2 x.1 x.2 back]
    · simp [le,back]
  obtain ⟨before,after,split⟩ := List.append_of_mem (List.mem_attach l ⟨a,here⟩)
  have perm : (⟨a,here⟩ :: (before ++ after)).Perm l.attach := by
    rw [split]
    exact List.perm_middle.symm
  have follows : (⟨b,there⟩ : {x // x ∈ l}) ∈ before ++ after := by
    have member := perm.mem_iff.mpr (List.mem_attach l ⟨b,there⟩)
    exact (List.mem_cons.mp member).resolve_left fun same => apart (congrArg Subtype.val same)
  let start := ⟨a,here⟩ :: (before ++ after)
  have pair : [⟨a,here⟩,⟨b,there⟩].Sublist (start.mergeSort le) := by
    apply List.pair_sublist_mergeSort trans total
    · simp [le,free]
    · exact (List.singleton_sublist.mpr follows).cons_cons _
  refine ⟨(start.mergeSort le).map Subtype.val,⟨?_,?_⟩,pair.map Subtype.val⟩
  · have sorted := ((List.mergeSort_perm start le).trans perm).map Subtype.val
    rwa [List.attach_map_subtype_val] at sorted
  · apply List.pairwise_map.mpr
    apply (List.pairwise_mergeSort trans total _).imp
    intro x y first
    simpa [le] using first

-- A list in which the items with a property come first is split where they end.
theorem split_of_pairwise {p : α → Bool} (first : l.Pairwise fun x y => p y = true → p x = true) :
    l = l.filter p ++ l.filter fun x => !p x := by
  induction l with
  | nil => rfl
  | cons x l ih =>
    obtain ⟨head,tail⟩ := List.pairwise_cons.mp first
    cases has : p x with
    | true =>
      rw [List.filter_cons_of_pos has,List.filter_cons_of_neg (by simp [has]),List.cons_append,← ih tail]
    | false =>
      have none_ : ∀ y ∈ l, p y = false := fun y member => Bool.eq_false_iff.mpr fun property => by
        rw [head y member property] at has
        cases has
      rw [List.filter_eq_nil_iff.mpr (by simpa [has] using none_),List.filter_eq_self.mpr (by simpa [has] using none_)]
      rfl

end Arrangements
