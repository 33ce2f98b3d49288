import Mathlib.Data.List.Basic

namespace Traces

-- The finite runs of a labelled transition relation, with their events in order.
inductive Runs {State Event : Type*} (Step : State → Event → State → Prop) (s : State) : List Event → State → Prop where
  | nil : Runs Step s [] s
  | snoc {trace : List Event} {event : Event} {t u : State} :
      Runs Step s trace t → Step t event u → Runs Step s (trace ++ [event]) u

variable {State Event : Type*} {Step : State → Event → State → Prop} {s t u : State} {event : Event}
  {trace xs ys : List Event}

-- Rule of history invariants: what holds of the empty history and is kept by
-- every step holds of every run.
theorem Runs.history (Inv : List Event → State → Prop) (init : Inv [] s)
    (keeps : ∀ trace t event u, Inv trace t → Step t event u → Inv (trace ++ [event]) u)
    (ran : Runs Step s trace u) : Inv trace u := by
  induction ran with
  | nil => exact init
  | snoc _ step ih => exact keeps _ _ _ _ ih step

theorem Runs.append (first : Runs Step s xs t) (second : Runs Step t ys u) : Runs Step s (xs ++ ys) u := by
  induction second with
  | nil => rwa [List.append_nil]
  | snoc _ step ih =>
    rw [←List.append_assoc]
    exact .snoc ih step

-- What can still be reached, whatever the events on the way.
def Reaches (Step : State → Event → State → Prop) (s : State) (goal : State → Prop) : Prop :=
  ∃ trace u, Runs Step s trace u ∧ goal u

theorem Reaches.here {goal : State → Prop} (now : goal s) : Reaches Step s goal := ⟨[],s,.nil,now⟩

theorem Reaches.trans {middle goal : State → Prop} (first : Reaches Step s middle)
    (second : ∀ t, middle t → Reaches Step t goal) : Reaches Step s goal := by
  obtain ⟨xs,t,ran,reached⟩ := first
  obtain ⟨ys,u,more,done⟩ := second t reached
  exact ⟨xs ++ ys,u,ran.append more,done⟩

theorem Reaches.step {goal : State → Prop} (first : Step s event t) (rest : Reaches Step t goal) :
    Reaches Step s goal := by
  obtain ⟨trace,u,more,done⟩ := rest
  exact ⟨[event] ++ trace,u,(Runs.nil.snoc first).append more,done⟩

theorem Runs.split (ran : Runs Step s (xs ++ ys) u) : ∃ t, Runs Step s xs t ∧ Runs Step t ys u := by
  generalize whole : xs ++ ys = trace at ran
  induction ran generalizing ys with
  | nil =>
    obtain ⟨rfl,rfl⟩ := List.append_eq_nil_iff.mp whole
    exact ⟨s,.nil,.nil⟩
  | snoc ran step ih =>
    rcases List.eq_nil_or_concat ys with rfl | ⟨front,last,rfl⟩
    · rw [List.append_nil] at whole
      subst whole
      exact ⟨_,.snoc ran step,.nil⟩
    · rw [List.concat_eq_append,←List.append_assoc] at whole
      obtain ⟨same,equal⟩ := List.append_inj' whole rfl
      cases equal
      obtain ⟨t,first,second⟩ := ih same
      rw [List.concat_eq_append]
      exact ⟨t,first,.snoc second step⟩

theorem Runs.last (ran : Runs Step s (trace ++ [event]) u) : ∃ t, Runs Step s trace t ∧ Step t event u := by
  generalize whole : trace ++ [event] = history at ran
  cases ran with
  | nil => simp at whole
  | snoc ran step =>
    obtain ⟨rfl,equal⟩ := List.append_inj' whole rfl
    cases equal
    exact ⟨_,ran,step⟩

end Traces
