import Mathlib.Data.Option.Basic

namespace PartialRuns

universe u
variable {α β : Type u} {P : α → Prop} {m : Option α}

-- A computation that may fail has a property of its results.
def Holds (P : α → Prop) (m : Option α) : Prop := ∀ a, m = some a → P a

theorem holds_some {a : α} (now : P a) : Holds P (some a) := by
  rintro b ⟨⟩
  exact now

theorem holds_none : Holds P none := fun _ => (nomatch ·)

theorem Holds.bind {R : β → Prop} {f : α → Option β} (first : Holds P m) (next : ∀ a, P a → Holds R (f a)) :
    Holds R (m >>= f) := by
  intro b ran
  obtain ⟨a,made,ran⟩ := Option.bind_eq_some_iff.mp ran
  exact next a (first a made) b ran

theorem Holds.map {R : β → Prop} {f : α → β} (first : Holds P m) (next : ∀ a, P a → R (f a)) : Holds R (m.map f) := by
  intro b ran
  obtain ⟨a,made,rfl⟩ := Option.map_eq_some_iff.mp ran
  exact next a (first a made)

-- What is only looked up says nothing.
theorem holds_lookup {R : β → Prop} {f : α → Option β} (next : ∀ a, m = some a → Holds R (f a)) : Holds R (m >>= f) := by
  intro b ran
  obtain ⟨a,made,ran⟩ := Option.bind_eq_some_iff.mp ran
  exact next a made b ran

theorem holds_foldlM {f : α → β → Option α} {xs : List β} {a : α} (start : P a) (each : ∀ a x, P a → Holds P (f a x)) :
    Holds P (xs.foldlM f a) := by
  induction xs generalizing a with
  | nil => exact holds_some start
  | cons x xs ih =>
    rw [List.foldlM_cons]
    exact Holds.bind (each a x start) fun _ now => ih now

end PartialRuns

namespace TotalRuns
variable {σ α β : Type} {P Q : α → σ → Prop} {R : β → σ → Prop} {x : StateT σ Option α} {s : σ}

-- From s the computation does not fail, and it ends as Q says.
def Achieves (x : StateT σ Option α) (s : σ) (Q : α → σ → Prop) : Prop := ∃ a s', x s = some (a,s') ∧ Q a s'

theorem Achieves.imp (runs : Achieves x s P) (next : ∀ a s', P a s' → Q a s') : Achieves x s Q := by
  obtain ⟨a,s',ran,now⟩ := runs
  exact ⟨a,s',ran,next a s' now⟩

theorem achieves_pure {a : α} (now : Q a s) : Achieves (pure a) s Q := ⟨a,s,rfl,now⟩

theorem Achieves.bind {f : α → StateT σ Option β} (first : Achieves x s P)
    (next : ∀ a s', P a s' → Achieves (f a) s' R) : Achieves (x >>= f) s R := by
  obtain ⟨a,s',ran,now⟩ := first
  obtain ⟨b,s'',ran',after⟩ := next a s' now
  refine ⟨b,s'',?_,after⟩
  change (x s).bind (fun p => f p.1 p.2) = some (b,s'')
  rw [ran]
  exact ran'

theorem Achieves.map {f : α → β} (first : Achieves x s P) (next : ∀ a s', P a s' → R (f a) s') : Achieves (f <$> x) s R := by
  obtain ⟨a,s',ran,now⟩ := first
  refine ⟨f a,s',?_,next a s' now⟩
  change (x s).bind (fun p => some (f p.1,p.2)) = some (f a,s')
  rw [ran]
  rfl

theorem achieves_modify {Q : PUnit → σ → Prop} {f : σ → σ} (now : Q ⟨⟩ (f s)) : Achieves (modify f) s Q :=
  ⟨⟨⟩,f s,rfl,now⟩

theorem achieves_pure_bind {a : α} {f : α → StateT σ Option β} (next : Achieves (f a) s R) : Achieves (pure a >>= f) s R := next

theorem achieves_get_bind {f : σ → StateT σ Option β} (next : Achieves (f s) s R) : Achieves (get >>= f) s R := next

theorem achieves_modify_bind {f : PUnit → StateT σ Option β} {g : σ → σ} (next : Achieves (f ⟨⟩) (g s) R) :
    Achieves (modify g >>= f) s R := next

theorem achieves_bind_assoc {γ : Type} {f : α → StateT σ Option γ} {g : γ → StateT σ Option β}
    (runs : Achieves ((x >>= f) >>= g) s R) : Achieves (x >>= fun a => f a >>= g) s R := by
  rwa [bind_assoc] at runs

theorem achieves_ite {c : Prop} [Decidable c] {y : StateT σ Option α} (yes : c → Achieves x s Q)
    (no : ¬ c → Achieves y s Q) : Achieves (if c then x else y) s Q := by
  by_cases holds : c
  · rw [if_pos holds]
    exact yes holds
  · rw [if_neg holds]
    exact no holds

end TotalRuns
