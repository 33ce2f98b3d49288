import Mathlib.Logic.Function.Iterate

namespace Acceleration
open Function
variable {α : Type*} {f g h : α → α} {x : α}

-- One step of g is one or more steps of f.
def Accelerates (f g : α → α) : Prop := ∀ x, ∃ k, g x = f^[k + 1] x

theorem Accelerates.refl (f : α → α) : Accelerates f f := fun _ => ⟨0,rfl⟩

theorem Accelerates.iterate (fast : Accelerates f g) (n : ℕ) (x : α) : ∃ m, n ≤ m ∧ g^[n] x = f^[m] x := by
  induction n generalizing x with
  | zero => exact ⟨0,Nat.le_refl 0,rfl⟩
  | succ n ih =>
    obtain ⟨k,first⟩ := fast x
    obtain ⟨m,late,rest⟩ := ih (g x)
    refine ⟨m + (k + 1),by omega,?_⟩
    rw [iterate_succ_apply,rest,first,← iterate_add_apply]

theorem Accelerates.trans (fast : Accelerates f g) (faster : Accelerates g h) : Accelerates f h := by
  intro x
  obtain ⟨k,jump⟩ := faster x
  obtain ⟨m,late,same⟩ := fast.iterate (k + 1) x
  refine ⟨m - 1,?_⟩
  rw [jump,same,Nat.sub_add_cancel (by omega)]

theorem stable_later {P : α → Prop} (stable : ∀ x, P x → P (f x)) {n m : ℕ} (le : n ≤ m) (now : P (f^[n] x)) :
    P (f^[m] x) := by
  induction le with
  | refl => exact now
  | step le ih =>
    rw [iterate_succ_apply']
    exact stable _ ih

-- What stays true once it is true becomes true in both.
theorem Accelerates.eventually_iff {P : α → Prop} (fast : Accelerates f g) (stable : ∀ x, P x → P (f x)) :
    (∃ n, P (f^[n] x)) ↔ ∃ n, P (g^[n] x) := by
  constructor
  · rintro ⟨n,now⟩
    obtain ⟨m,late,same⟩ := fast.iterate n x
    exact ⟨n,same ▸ stable_later stable late now⟩
  · rintro ⟨n,now⟩
    obtain ⟨m,_,same⟩ := fast.iterate n x
    exact ⟨m,same ▸ now⟩

end Acceleration
