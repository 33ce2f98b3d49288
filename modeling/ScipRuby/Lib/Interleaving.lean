import Mathlib.Algebra.BigOperators.Group.Finset.Piecewise
import Mathlib.Algebra.Order.BigOperators.Group.Finset
import Mathlib.Data.Fintype.BigOperators
import ScipRuby.Lib.Traces

namespace Interleaving
open Traces

section Parties

-- What the parties of a system share, and the local state of each.
structure Parties (Shared Local I : Type*) where
  shared : Shared
  locals : I → Local

variable {Shared Local I : Type*} [DecidableEq I] {Acts : Shared → Local → Shared → Local → Prop}
  {s t : Parties Shared Local I} {i : I}

-- One party acts on its local state and on what is shared.
inductive Acting (Acts : Shared → Local → Shared → Local → Prop) (s : Parties Shared Local I) (i : I) :
    Parties Shared Local I → Prop where
  | act {shared : Shared} {mine : Local} :
      Acts s.shared (s.locals i) shared mine → Acting Acts s i ⟨shared,Function.update s.locals i mine⟩

theorem Acting.own (acting : Acting Acts s i t) : Acts s.shared (s.locals i) t.shared (t.locals i) := by
  obtain ⟨act⟩ := acting
  dsimp only
  rwa [Function.update_self]

theorem Acting.others (acting : Acting Acts s i t) {j : I} (other : j ≠ i) : t.locals j = s.locals j := by
  obtain ⟨act⟩ := acting
  exact Function.update_of_ne other _ _

-- An invariant of what is shared with each single party is one of the system
-- where the actions of one party keep it for the others.
theorem Acting.keeps (Inv : Shared → Local → Prop) (acting : Acting Acts s i t)
    (own : ∀ a l b m, Inv a l → Acts a l b m → Inv b m)
    (others : ∀ a l b m k, Inv a l → Inv a k → Acts a l b m → Inv b k)
    (before : ∀ j, Inv s.shared (s.locals j)) (j : I) : Inv t.shared (t.locals j) := by
  by_cases same : j = i
  · subst same
    exact own _ _ _ _ (before j) acting.own
  · rw [acting.others same]
    exact others _ _ _ _ _ (before i) (before j) acting.own

variable [Fintype I]

theorem sum_split {M : Type*} [AddCommMonoid M] (f : I → M) (i : I) : ∑ j, f j = f i + ∑ j ∈ Finset.univ.erase i, f j :=
  (Finset.add_sum_erase Finset.univ f (Finset.mem_univ i)).symm

theorem Acting.rest {M : Type*} [AddCommMonoid M] (acting : Acting Acts s i t) (own : Local → M) :
    ∑ j ∈ Finset.univ.erase i, own (t.locals j) = ∑ j ∈ Finset.univ.erase i, own (s.locals j) := by
  apply Finset.sum_congr rfl
  intro j member
  rw [acting.others (Finset.ne_of_mem_erase member)]

-- What every action keeps of the shared and its own state together is kept of the whole system.
theorem Acting.conserves {M : Type*} [AddCommMonoid M] (acting : Acting Acts s i t) (common : Shared → M) (own : Local → M)
    (each : ∀ a l b m, Acts a l b m → common b + own m = common a + own l) :
    common t.shared + ∑ j, own (t.locals j) = common s.shared + ∑ j, own (s.locals j) := by
  have kept := each _ _ _ _ acting.own
  rw [sum_split _ i,sum_split (fun j => own (s.locals j)) i,acting.rest,← add_assoc,← add_assoc,kept]

theorem Acting.lowers (acting : Acting Acts s i t) (common : Shared → Nat) (own : Local → Nat)
    (less : common t.shared + own (t.locals i) < common s.shared + own (s.locals i)) :
    common t.shared + ∑ j, own (t.locals j) < common s.shared + ∑ j, own (s.locals j) := by
  rw [sum_split _ i,sum_split (fun j => own (s.locals j)) i,acting.rest]
  omega

end Parties

section Fairness
variable {State Agent : Type*} {Step : State → Agent → State → Prop} {states : Nat → State} {agents : Nat → Agent}

-- An infinite execution that schedules every agent again and again. An agent
-- without a step leaves the state as it is.
structure Fair (Step : State → Agent → State → Prop) (states : Nat → State) (agents : Nat → Agent) : Prop where
  steps : ∀ n, Step (states n) (agents n) (states (n + 1)) ∨
    (¬∃ t, Step (states n) (agents n) t) ∧ states (n + 1) = states n
  often : ∀ agent n, ∃ m, n ≤ m ∧ agents m = agent

theorem Fair.runs (fair : Fair Step states agents) (n : Nat) : ∃ trace, Runs Step (states 0) trace (states n) := by
  induction n with
  | zero => exact ⟨[],.nil⟩
  | succ n ih =>
    obtain ⟨trace,ran⟩ := ih
    rcases fair.steps n with step | ⟨_,same⟩
    · exact ⟨_,.snoc ran step⟩
    · exact ⟨trace,same ▸ ran⟩

-- Where nothing lowers the measure any more the state has settled.
theorem Fair.settled (fair : Fair Step states agents) {measure : State → Nat} {n : Nat}
    (lowers : ∀ m t, Step (states m) (agents m) t → measure t < measure (states m) ∨ t = states m)
    (least : ∀ m, n ≤ m → measure (states n) ≤ measure (states m)) {m : Nat} (later : n ≤ m) : states m = states n := by
  induction m, later using Nat.le_induction with
  | base => rfl
  | succ m later ih =>
    have notLess := least (m + 1) (Nat.le_succ_of_le later)
    rcases fair.steps m with step | ⟨_,same⟩
    · rcases lowers m _ step with less | same
      · rw [ih] at less
        omega
      · rw [same,ih]
    · rw [same,ih]

-- Rule of fair termination: no step raises the measure, one that keeps it keeps the state, and
-- before the goal some agent has only steps that lower it.
theorem Fair.reaches (fair : Fair Step states agents) (goal : State → Prop) (measure : State → Nat)
    (lowers : ∀ trace s agent t, Runs Step (states 0) trace s → Step s agent t → measure t < measure s ∨ t = s)
    (live : ∀ trace s, Runs Step (states 0) trace s → ¬goal s →
      ∃ agent, (∃ t, Step s agent t) ∧ ∀ t, Step s agent t → measure t < measure s) : ∃ n, goal (states n) := by
  have eventually : ∀ bound n, measure (states n) < bound → ∃ m, goal (states m) := by
    intro bound
    induction bound with
    | zero => exact fun n below => absurd below (Nat.not_lt_zero _)
    | succ bound ih =>
      intro n below
      by_contra never
      obtain ⟨trace,ran⟩ := fair.runs n
      obtain ⟨agent,⟨t,enabled⟩,less⟩ := live trace _ ran fun now => never ⟨n,now⟩
      have least : ∀ m, n ≤ m → measure (states n) ≤ measure (states m) := by
        intro m _
        by_contra lower
        exact never (ih m (by omega))
      have settled := fun m => @Fair.settled _ _ _ _ _ fair measure n
        (fun m t step => (fair.runs m).elim fun trace ran => lowers trace _ _ t ran step) least m
      -- The agent is scheduled once more, in the settled state.
      obtain ⟨m,later,chosen⟩ := fair.often agent n
      rcases fair.steps m with step | ⟨stuck,_⟩
      · rw [chosen,settled m later] at step
        have lower := less _ step
        rw [settled (m + 1) (Nat.le_succ_of_le later)] at lower
        exact Nat.lt_irrefl _ lower
      · rw [chosen,settled m later] at stuck
        exact stuck ⟨t,enabled⟩
  exact eventually _ 0 (Nat.lt_succ_self _)

end Fairness
end Interleaving
