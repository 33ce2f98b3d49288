import Mathlib.Data.List.Induction

-- A list grown from a sequence of items. An item that something on the list blocks adds
-- nothing; any other adds its choice.
namespace Greedy
variable {α : Type} (blocks : α → α → Bool) (choice : α → α)

def add (list : List α) (item : α) : List α := if list.any (blocks · item) then list else list ++ [choice item]

def select (items : List α) : List α := items.foldl (add blocks choice) []

variable {blocks choice} {items : List α} {item x : α}

theorem select_append (items later : List α) :
    select blocks choice (items ++ later) = later.foldl (add blocks choice) (select blocks choice items) := List.foldl_append

theorem select_snoc (items : List α) (item : α) :
    select blocks choice (items ++ [item]) = add blocks choice (select blocks choice items) item := select_append items [item]

theorem mem_add_of_mem {list : List α} (member : x ∈ list) : x ∈ add blocks choice list item := by
  unfold add
  split
  · exact member
  · exact List.mem_append_left _ member

theorem select_subset (items later : List α) (member : x ∈ select blocks choice items) : x ∈ select blocks choice (items ++ later) := by
  induction later using List.reverseRecOn with
  | nil =>
    rw [List.append_nil]
    exact member
  | append_singleton later item ih =>
    rw [← List.append_assoc,select_snoc]
    exact mem_add_of_mem ih

theorem mem_select (member : x ∈ select blocks choice items) : ∃ item ∈ items, choice item = x := by
  induction items using List.reverseRecOn with
  | nil => cases member
  | append_singleton items item ih =>
    rw [select_snoc] at member
    unfold add at member
    split at member
    · obtain ⟨earlier,inside,chosen⟩ := ih member
      exact ⟨earlier,List.mem_append_left _ inside,chosen⟩
    · rcases List.mem_append.mp member with old | new
      · obtain ⟨earlier,inside,chosen⟩ := ih old
        exact ⟨earlier,List.mem_append_left _ inside,chosen⟩
      · exact ⟨item,List.mem_append_right _ List.mem_cons_self,(List.mem_singleton.mp new).symm⟩

-- Each item is blocked by something on the list, or its choice is there.
theorem select_covers (inside : item ∈ items) :
    choice item ∈ select blocks choice items ∨ ∃ t ∈ select blocks choice items, blocks t item = true := by
  induction items using List.reverseRecOn with
  | nil => cases inside
  | append_singleton items last ih =>
    rw [select_snoc]
    rcases List.mem_append.mp inside with earlier | now
    · rcases ih earlier with chosen | ⟨t,member,blocked⟩
      · exact .inl (mem_add_of_mem chosen)
      · exact .inr ⟨t,mem_add_of_mem member,blocked⟩
    · cases List.mem_singleton.mp now
      by_cases blocked : (select blocks choice items).any (blocks · item) = true
      · obtain ⟨t,member,blocked⟩ := List.any_eq_true.mp blocked
        exact .inr ⟨t,mem_add_of_mem member,blocked⟩
      · unfold add
        rw [if_neg blocked]
        exact .inl (List.mem_append_right _ List.mem_cons_self)

end Greedy
