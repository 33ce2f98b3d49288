import Mathlib.Logic.Relation

namespace Condensations
open Relation
variable {α ι : Type}

-- The vertices of a graph E gathered in its strongly connected components, and the graph F that is left between these.
structure Condenses (present : α → Prop) (E : α → α → Prop) (comp : α → ι) (F : ι → ι → Prop) : Prop where
  closed : ∀ x y, present x → E x y → present y
  strong : ∀ x y, present x → present y → (comp x = comp y ↔ ReflTransGen E x y ∧ ReflTransGen E y x)
  edges : ∀ x j, present x → (F (comp x) j ↔ ∃ y z, present y ∧ comp y = comp x ∧ E y z ∧ comp z = j ∧ j ≠ comp x)

namespace Condenses
variable {present : α → Prop} {E : α → α → Prop} {comp : α → ι} {F : ι → ι → Prop} {x y : α} {j : ι}

theorem path_present (condenses : Condenses present E comp F) (here : present x) (path : ReflTransGen E x y) : present y := by
  induction path with
  | refl => exact here
  | tail _ edge ih => exact condenses.closed _ _ ih edge

-- A path between components is one between vertices, which can be led through any of them.
theorem path_down (condenses : Condenses present E comp F) (here : present x) (path : ReflTransGen F (comp x) j) :
    ∃ y, present y ∧ comp y = j ∧ ReflTransGen E x y := by
  induction path with
  | refl => exact ⟨x,here,rfl,.refl⟩
  | tail _ edge ih =>
    obtain ⟨y,there,rfl,before⟩ := ih
    obtain ⟨y',z,there',same,step,rfl,_⟩ := (condenses.edges y _ there).mp edge
    have across := ((condenses.strong y' y there' there).mp same).2
    exact ⟨z,condenses.closed _ _ there' step,rfl,(before.trans across).tail step⟩

theorem path_up (condenses : Condenses present E comp F) (here : present x) (path : ReflTransGen E x y) :
    ReflTransGen F (comp x) (comp y) := by
  induction path with
  | refl => exact .refl
  | @tail y z before edge ih =>
    by_cases same : comp z = comp y
    · exact same ▸ ih
    · have there := condenses.path_present here before
      exact ih.tail ((condenses.edges y _ there).mpr ⟨y,z,there,rfl,edge,rfl,same⟩)

theorem reaches_iff (condenses : Condenses present E comp F) (here : present x) (there : present y) :
    ReflTransGen F (comp x) (comp y) ↔ ReflTransGen E x y := by
  constructor
  · intro path
    obtain ⟨z,present_,same,path'⟩ := condenses.path_down here path
    exact path'.trans ((condenses.strong z y present_ there).mp same).1
  · exact condenses.path_up here

end Condenses

-- What no edge lets grow does not grow along a path.
theorem path_le {E : α → α → Prop} {rank : α → Nat} {x y : α} (falls : ∀ y z, ReflTransGen E x y → E y z → rank z ≤ rank y)
    (path : ReflTransGen E x y) : rank y ≤ rank x := by
  induction path with
  | refl => exact Nat.le_refl _
  | tail before edge ih => exact Nat.le_trans (falls _ _ before edge) ih

end Condensations
