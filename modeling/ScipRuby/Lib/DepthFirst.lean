import Mathlib.Data.Finset.Card
import Mathlib.Data.List.Nodup
import Mathlib.Logic.Relation
import Mathlib.Order.WellFounded
import Mathlib.Tactic.Common

namespace DepthFirst
open Relation

inductive Event where
  | enter
  | exit
  deriving DecidableEq, Repr

abbrev Item (α : Type) := α × Event

-- The top of the stack is the head of work. Vertices are finished in the order of the list.
structure State (α : Type) where
  work : List (Item α)
  finished : List α

variable {α : Type}

def State.Active (s : State α) (x : α) : Prop := (x,.exit) ∈ s.work

def State.Seen (s : State α) (x : α) : Prop := x ∈ s.finished ∨ s.Active x

-- A vertex may be on the stack several times before it is entered. The children pushed are the
-- successors not seen so far, in any order.
inductive Step (edge : α → α → Prop) : State α → State α → Prop where
  | skip {work finished x} : State.Seen ⟨work,finished⟩ x → Step edge ⟨(x,.enter) :: work,finished⟩ ⟨work,finished⟩
  | enter {work finished x} {children : List α} : ¬ State.Seen ⟨work,finished⟩ x → (∀ y ∈ children, edge x y) →
      (∀ y, edge x y → State.Seen ⟨work,finished⟩ y ∨ y = x ∨ y ∈ children) →
      Step edge ⟨(x,.enter) :: work,finished⟩ ⟨children.map (·,.enter) ++ (x,.exit) :: work,finished⟩
  | exit {work finished x} : Step edge ⟨(x,.exit) :: work,finished⟩ ⟨work,finished ++ [x]⟩

def State.start (root : α) : State α := ⟨[(root,.enter)],[]⟩

-- Everything on the stack over a vertex that is being processed was reached from it.
def Nested (edge : α → α → Prop) (work : List (Item α)) : Prop :=
  work.Pairwise fun upper lower => lower.2 = .exit → ReflTransGen edge lower.1 upper.1

-- The successors of a vertex that is being processed are seen, or wait above it.
def Waiting (edge : α → α → Prop) (s : State α) : Prop :=
  ∀ above x below, s.work = above ++ (x,.exit) :: below → ∀ y, edge x y → s.Seen y ∨ (y,.enter) ∈ above

-- A successor is finished first unless it leads back.
def Ordered (edge : α → α → Prop) (finished : List α) : Prop :=
  ∀ earlier x later, finished = earlier ++ x :: later → ∀ y, edge x y → y ∈ earlier ∨ ReflTransGen edge y x

structure Sound (edge : α → α → Prop) (root : α) (s : State α) : Prop where
  reached : ∀ item ∈ s.work, ReflTransGen edge root item.1
  finishedReached : ∀ x ∈ s.finished, ReflTransGen edge root x
  nodup : s.finished.Nodup
  activeOnce : s.work.Pairwise fun upper lower => upper.2 = .exit → lower.2 = .exit → upper.1 ≠ lower.1
  apart : ∀ x ∈ s.finished, ¬ s.Active x
  nested : Nested edge s.work
  waiting : Waiting edge s
  closed : ∀ x ∈ s.finished, ∀ y, edge x y → s.Seen y
  ordered : Ordered edge s.finished
  rooted : s.Seen root ∨ (root,.enter) ∈ s.work

variable {edge : α → α → Prop} {root x y : α} {s s' : State α} {work above below : List (Item α)}
variable {finished children : List α}

theorem start_sound : Sound edge root (.start root) where
  reached := by
    intro item member
    obtain rfl := List.mem_singleton.mp member
    exact .refl
  finishedReached := by simp [State.start]
  nodup := List.nodup_nil
  activeOnce := List.pairwise_singleton ..
  apart := by simp [State.start]
  nested := List.pairwise_singleton ..
  waiting := by
    intro above x below split
    have member : (x,Event.exit) ∈ (State.start root).work := by simp [split]
    simp [State.start] at member
  closed := by simp [State.start]
  ordered := by
    intro earlier x later split
    simp [State.start] at split
  rooted := .inr (List.mem_singleton_self _)

section Moves

theorem seen_enter : State.Seen ⟨(x,.enter) :: work,finished⟩ y ↔ State.Seen ⟨work,finished⟩ y := by
  simp [State.Seen,State.Active]

theorem seen_children : State.Seen ⟨children.map (·,.enter) ++ (x,.exit) :: work,finished⟩ y ↔
    y = x ∨ State.Seen ⟨work,finished⟩ y := by
  simp only [State.Seen,State.Active,List.mem_append,List.mem_map,Prod.mk.injEq,List.mem_cons]
  constructor
  · rintro (done | ⟨z,_,_,impossible⟩ | ⟨rfl,_⟩ | active)
    · exact .inr (.inl done)
    · cases impossible
    · exact .inl rfl
    · exact .inr (.inr active)
  · rintro (rfl | done | active)
    · exact .inr (.inr (.inl ⟨rfl,trivial⟩))
    · exact .inl done
    · exact .inr (.inr (.inr active))

theorem seen_exit : State.Seen ⟨work,finished ++ [x]⟩ y ↔ State.Seen ⟨(x,.exit) :: work,finished⟩ y := by
  simp only [State.Seen,State.Active,List.mem_append,List.mem_cons,List.not_mem_nil,or_false,Prod.mk.injEq,and_true]
  exact or_assoc

theorem skip_sound (sound : Sound edge root ⟨(x,.enter) :: work,finished⟩) (seen : State.Seen ⟨work,finished⟩ x) :
    Sound edge root ⟨work,finished⟩ where
  reached := fun item member => sound.reached item (List.mem_cons_of_mem _ member)
  finishedReached := sound.finishedReached
  nodup := sound.nodup
  activeOnce := sound.activeOnce.of_cons
  apart := fun y done active => sound.apart y done (List.mem_cons_of_mem _ active)
  nested := sound.nested.of_cons
  waiting := by
    intro above z below split y next
    dsimp only at split
    have before := sound.waiting ((x,.enter) :: above) z below (by simp [split]) y next
    rw [seen_enter] at before
    obtain here | there := before
    · exact .inl here
    · obtain same | there := List.mem_cons.mp there
      · cases same
        exact .inl seen
      · exact .inr there
  closed := fun y done z next => seen_enter.mp (sound.closed y done z next)
  ordered := sound.ordered
  rooted := by
    obtain here | there := sound.rooted
    · exact .inl (seen_enter.mp here)
    · obtain same | there := List.mem_cons.mp there
      · cases same
        exact .inl seen
      · exact .inr there

-- Over the vertex just entered stand its children, under it the stack as it was.
theorem enter_split {z : α} (split : children.map (·,Event.enter) ++ (x,Event.exit) :: work =
    above ++ (z,Event.exit) :: below) :
    (above = children.map (·,Event.enter) ∧ z = x ∧ below = work) ∨
    ∃ middle, above = children.map (·,Event.enter) ++ (x,.exit) :: middle ∧ work = middle ++ (z,.exit) :: below := by
  obtain ⟨rest,rfl,cut⟩ | ⟨rest,cut,rest_eq⟩ := List.append_eq_append_iff.mp split
  · cases rest with
    | nil =>
      obtain ⟨same,rfl⟩ := List.cons.inj cut
      cases same
      exact .inl ⟨List.append_nil _,rfl,rfl⟩
    | cons first middle =>
      obtain ⟨rfl,rfl⟩ := List.cons.inj cut
      exact .inr ⟨middle,rfl,rfl⟩
  · cases rest with
    | nil =>
      obtain ⟨same,rfl⟩ := List.cons.inj rest_eq
      cases same
      exact .inl ⟨(cut.trans (List.append_nil _)).symm,rfl,rfl⟩
    | cons first middle =>
      obtain ⟨rfl,_⟩ := List.cons.inj rest_eq
      have member : (z,Event.exit) ∈ children.map (·,Event.enter) := by simp [cut]
      simp at member

theorem enter_sound (sound : Sound edge root ⟨(x,.enter) :: work,finished⟩)
    (fresh : ¬ State.Seen ⟨work,finished⟩ x) (edges : ∀ y ∈ children, edge x y)
    (all : ∀ y, edge x y → State.Seen ⟨work,finished⟩ y ∨ y = x ∨ y ∈ children) :
    Sound edge root ⟨children.map (·,.enter) ++ (x,.exit) :: work,finished⟩ where
  reached := by
    have here : ReflTransGen edge root x := sound.reached (x,.enter) List.mem_cons_self
    intro item member
    obtain child | rest := List.mem_append.mp member
    · obtain ⟨y,pushed,rfl⟩ := List.mem_map.mp child
      exact here.tail (edges y pushed)
    · obtain rfl | rest := List.mem_cons.mp rest
      · exact here
      · exact sound.reached item (List.mem_cons_of_mem _ rest)
  finishedReached := sound.finishedReached
  nodup := sound.nodup
  activeOnce := by
    refine List.pairwise_append.mpr ⟨?_,List.pairwise_cons.mpr ⟨?_,sound.activeOnce.of_cons⟩,?_⟩
    · refine List.pairwise_map.mpr (List.pairwise_of_forall fun _ _ impossible => ?_)
      cases impossible
    · rintro ⟨y,event⟩ member _ same rfl
      dsimp only at same
      subst same
      exact fresh (.inr member)
    · intro upper pushed lower _ impossible
      obtain ⟨y,_,rfl⟩ := List.mem_map.mp pushed
      cases impossible
  apart := by
    intro y done active
    have seen : State.Seen ⟨work,finished⟩ y := .inl done
    obtain pushed | active := List.mem_append.mp active
    · simp at pushed
    · obtain same | active := List.mem_cons.mp active
      · cases same
        exact fresh seen
      · exact sound.apart y done (List.mem_cons_of_mem _ active)
  nested := by
    obtain ⟨top,rest⟩ := List.pairwise_cons.mp sound.nested
    refine List.pairwise_append.mpr ⟨?_,List.pairwise_cons.mpr ⟨top,rest⟩,?_⟩
    · refine List.pairwise_map.mpr (List.pairwise_of_forall fun _ _ impossible => ?_)
      cases impossible
    · intro upper pushed lower under active
      obtain ⟨y,child,rfl⟩ := List.mem_map.mp pushed
      obtain rfl | under := List.mem_cons.mp under
      · exact .single (edges y child)
      · exact (top lower under active).tail (edges y child)
  waiting := by
    intro above z below split y next
    obtain ⟨rfl,rfl,rfl⟩ | ⟨middle,rfl,rfl⟩ := enter_split split
    · obtain seen | rfl | child := all y next
      · exact .inl (seen_children.mpr (.inr seen))
      · exact .inl (seen_children.mpr (.inl rfl))
      · exact .inr (List.mem_map_of_mem child)
    · obtain seen | there := sound.waiting ((x,.enter) :: middle) z below rfl y next
      · exact .inl (seen_children.mpr (.inr (seen_enter.mp seen)))
      · obtain same | there := List.mem_cons.mp there
        · cases same
          exact .inl (seen_children.mpr (.inl rfl))
        · exact .inr (List.mem_append_right _ (List.mem_cons_of_mem _ there))
  closed := fun y done z next => seen_children.mpr (.inr (seen_enter.mp (sound.closed y done z next)))
  ordered := sound.ordered
  rooted := by
    obtain seen | there := sound.rooted
    · exact .inl (seen_children.mpr (.inr (seen_enter.mp seen)))
    · obtain same | there := List.mem_cons.mp there
      · cases same
        exact .inl (seen_children.mpr (.inl rfl))
      · exact .inr (List.mem_append_right _ (List.mem_cons_of_mem _ there))

theorem concat_split {earlier later : List α} (split : finished ++ [x] = earlier ++ y :: later) :
    (finished = earlier ∧ x = y) ∨ ∃ middle, finished = earlier ++ y :: middle := by
  rcases List.eq_nil_or_concat later with rfl | ⟨middle,last,rfl⟩
  · obtain ⟨same,here⟩ := List.append_inj' split rfl
    exact .inl ⟨same,(List.cons.inj here).1⟩
  · refine .inr ⟨middle,?_⟩
    rw [List.concat_eq_append,← List.cons_append,← List.append_assoc] at split
    exact (List.append_inj' split rfl).1

theorem exit_sound (sound : Sound edge root ⟨(x,.exit) :: work,finished⟩) :
    Sound edge root ⟨work,finished ++ [x]⟩ where
  reached := fun item member => sound.reached item (List.mem_cons_of_mem _ member)
  finishedReached := by
    intro y member
    obtain done | here := List.mem_append.mp member
    · exact sound.finishedReached y done
    · obtain rfl := List.mem_singleton.mp here
      exact sound.reached (y,.exit) List.mem_cons_self
  nodup := by
    refine List.Nodup.append sound.nodup (List.nodup_singleton x) ?_
    intro y done here
    obtain rfl := List.mem_singleton.mp here
    exact sound.apart y done List.mem_cons_self
  activeOnce := sound.activeOnce.of_cons
  apart := by
    intro y member active
    obtain done | here := List.mem_append.mp member
    · exact sound.apart y done (List.mem_cons_of_mem _ active)
    · obtain rfl := List.mem_singleton.mp here
      exact (List.pairwise_cons.mp sound.activeOnce).1 (y,.exit) active rfl rfl rfl
  nested := sound.nested.of_cons
  waiting := by
    intro above z below split y next
    dsimp only at split
    obtain seen | there := sound.waiting ((x,.exit) :: above) z below (by simp [split]) y next
    · exact .inl (seen_exit.mpr seen)
    · obtain same | there := List.mem_cons.mp there
      · cases same
      · exact .inr there
  closed := by
    intro y member z next
    refine seen_exit.mpr ?_
    obtain done | here := List.mem_append.mp member
    · exact sound.closed y done z next
    · obtain rfl := List.mem_singleton.mp here
      obtain seen | nothing := sound.waiting [] y work rfl z next
      · exact seen
      · cases nothing
  ordered := by
    intro earlier y later split z next
    obtain ⟨rfl,rfl⟩ | ⟨middle,split⟩ := concat_split split
    · obtain seen | nothing := sound.waiting [] x work rfl z next
      · obtain done | active := seen
        · exact .inl done
        · obtain same | active := List.mem_cons.mp active
          · cases same
            exact .inr .refl
          · exact .inr ((List.pairwise_cons.mp sound.nested).1 (z,.exit) active rfl)
      · cases nothing
    · exact sound.ordered earlier y middle split z next
  rooted := by
    obtain seen | there := sound.rooted
    · exact .inl (seen_exit.mpr seen)
    · obtain same | there := List.mem_cons.mp there
      · cases same
      · exact .inr there

end Moves

theorem Step.sound (step : Step edge s s') (sound : Sound edge root s) : Sound edge root s' := by
  cases step with
  | skip seen => exact skip_sound sound seen
  | enter fresh edges all => exact enter_sound sound fresh edges all
  | exit => exact exit_sound sound

theorem run_sound (run : ReflTransGen (Step edge) (.start root) s) : Sound edge root s := by
  induction run with
  | refl => exact start_sound
  | tail _ step ih => exact step.sound ih

theorem Sound.finished_iff (sound : Sound edge root s) (empty : s.work = []) :
    x ∈ s.finished ↔ ReflTransGen edge root x := by
  have done : ∀ {y}, s.Seen y → y ∈ s.finished := by
    rintro y (done | active)
    · exact done
    · rw [State.Active,empty] at active
      cases active
  refine ⟨sound.finishedReached x,fun path => ?_⟩
  induction path with
  | refl =>
    obtain seen | waits := sound.rooted
    · exact done seen
    · rw [empty] at waits
      cases waits
  | tail _ next ih => exact done (sound.closed _ ih _ next)

-- The root stays at the bottom of the stack, and is finished last.
def Bottomed (root : α) (s : State α) : Prop :=
  s = .start root ∨ (∃ top, s.work = top ++ [(root,.exit)]) ∨ (s.work = [] ∧ s.finished.getLast? = some root)

theorem Step.bottomed (step : Step edge s s') (bottomed : Bottomed root s) : Bottomed root s' := by
  obtain rfl | ⟨top,under⟩ | ⟨empty,_⟩ := bottomed
  · generalize begin : State.start root = first at step
    cases step with
    | skip seen =>
      cases begin
      obtain done | active := seen
      · cases done
      · cases active
    | enter =>
      cases begin
      exact .inr (.inl ⟨_,rfl⟩)
    | exit => cases begin
  · cases step with
    | skip =>
      cases top with
      | nil => cases under
      | cons _ top => exact .inr (.inl ⟨top,(List.cons.inj under).2⟩)
    | @enter work _ x children =>
      cases top with
      | nil => cases under
      | cons _ top =>
        have rest : work = top ++ [(root,.exit)] := (List.cons.inj under).2
        refine .inr (.inl ⟨children.map (·,.enter) ++ (x,.exit) :: top,?_⟩)
        simp only [rest,List.append_assoc,List.cons_append]
    | exit =>
      cases top with
      | nil =>
        cases under
        exact .inr (.inr ⟨rfl,List.getLast?_concat⟩)
      | cons _ top => exact .inr (.inl ⟨top,(List.cons.inj under).2⟩)
  · cases step <;> cases empty

-- A search inside a finite set of vertices ends.
section Termination
variable {vertices : Finset α}

open Classical in
noncomputable def unseen (vertices : Finset α) (s : State α) : Nat := (vertices.filter fun x => ¬ s.Seen x).card

theorem Step.measure (step : Step edge s s') (inside : ∀ item ∈ s.work, item.1 ∈ vertices) :
    Prod.Lex (· < ·) (· < ·) (unseen vertices s',s'.work.length) (unseen vertices s,s.work.length) := by
  classical
  cases step with
  | skip seen =>
    simp only [unseen,seen_enter]
    exact .right _ (Nat.lt_succ_self _)
  | @enter work finished x children fresh _ _ =>
    refine .left _ _ (Finset.card_lt_card ?_)
    refine (Finset.ssubset_iff_of_subset ?_).mpr ⟨x,?_,?_⟩
    · intro y
      simp only [Finset.mem_filter,seen_children,seen_enter]
      exact fun ⟨member,unseen⟩ => ⟨member,fun seen => unseen (.inr seen)⟩
    · exact Finset.mem_filter.mpr ⟨inside _ List.mem_cons_self,fun seen => fresh (seen_enter.mp seen)⟩
    · simp [seen_children]
  | exit =>
    simp only [unseen,seen_exit]
    exact .right _ (Nat.lt_succ_self _)

end Termination

end DepthFirst
