import Mathlib.Data.Set.Insert
import Mathlib.Logic.Relation

-- A search that takes items from a worklist, in whichever order, and skips the ones it
-- has visited. An item may be on the worklist many times.
namespace Worklist
open Relation
variable {α : Type} {next : α → List α} {starts : List α} {visited : Set α} {pending : List α} {x : α}

def Edge (next : α → List α) (x y : α) : Prop := y ∈ next x

def Reaches (next : α → List α) (starts : List α) (x : α) : Prop := ∃ s ∈ starts, ReflTransGen (Edge next) s x

structure Searching (next : α → List α) (starts : List α) (visited : Set α) (pending : List α) : Prop where
  begun : ∀ s ∈ starts, s ∈ visited ∨ s ∈ pending
  sound : ∀ x, x ∈ visited ∨ x ∈ pending → Reaches next starts x
  closed : ∀ x ∈ visited, ∀ y, Edge next x y → y ∈ visited ∨ y ∈ pending

theorem searching_start (next : α → List α) (starts : List α) : Searching next starts ∅ starts where
  begun s member := .inr member
  sound x either := by
    rcases either with none | member
    · cases none
    · exact ⟨x,member,.refl⟩
  closed x member := by cases member

theorem Searching.congr {pending' : List α} (search : Searching next starts visited pending)
    (same : ∀ x, x ∈ pending ↔ x ∈ pending') : Searching next starts visited pending' := by
  obtain ⟨begun,sound,closed⟩ := search
  simp only [same] at begun sound closed
  exact ⟨begun,sound,closed⟩

theorem Searching.skip (search : Searching next starts visited (x :: pending)) (seen : x ∈ visited) :
    Searching next starts visited pending := by
  have shrink : ∀ y, y ∈ visited ∨ y ∈ x :: pending → y ∈ visited ∨ y ∈ pending := by
    rintro y (old | member)
    · exact .inl old
    · rcases List.mem_cons.mp member with rfl | rest
      · exact .inl seen
      · exact .inr rest
  refine ⟨fun s member => shrink s (search.begun s member),fun y either => search.sound y ?_,?_⟩
  · exact either.imp_right (List.mem_cons_of_mem x)
  · exact fun y member z edge => shrink z (search.closed y member z edge)

-- What is pushed includes the successors that are not visited, and nothing else.
theorem Searching.visit {pushed : List α} (search : Searching next starts visited (x :: pending))
    (successors : ∀ y ∈ pushed, Edge next x y) (complete : ∀ y, Edge next x y → y ∈ insert x visited ∨ y ∈ pushed) :
    Searching next starts (insert x visited) (pending ++ pushed) := by
  have move : ∀ y, y ∈ visited ∨ y ∈ x :: pending → y ∈ insert x visited ∨ y ∈ pending ++ pushed := by
    rintro y (old | member)
    · exact .inl (.inr old)
    · rcases List.mem_cons.mp member with rfl | rest
      · exact .inl (.inl rfl)
      · exact .inr (List.mem_append_left _ rest)
  have here : Reaches next starts x := search.sound x (.inr List.mem_cons_self)
  refine ⟨fun s member => move s (search.begun s member),?_,?_⟩
  · rintro y ((rfl | old) | member)
    · exact here
    · exact search.sound y (.inl old)
    · rcases List.mem_append.mp member with rest | new
      · exact search.sound y (.inr (List.mem_cons_of_mem x rest))
      · obtain ⟨s,start,path⟩ := here
        exact ⟨s,start,path.tail (successors y new)⟩
  · rintro y (rfl | old) z edge
    · exact (complete z edge).imp_right (List.mem_append_right _)
    · exact move z (search.closed y old z edge)

theorem Searching.finished (search : Searching next starts visited []) (x : α) : x ∈ visited ↔ Reaches next starts x := by
  constructor
  · intro member
    exact search.sound x (.inl member)
  · rintro ⟨s,start,path⟩
    induction path with
    | refl => exact (search.begun s start).resolve_right List.not_mem_nil
    | tail _ edge ih => exact (search.closed _ ih _ edge).resolve_right List.not_mem_nil

end Worklist
