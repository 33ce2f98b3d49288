import Mathlib.Algebra.BigOperators.Group.Finset.Basic
import Mathlib.Algebra.Order.BigOperators.Group.Finset
import Mathlib.Data.Finset.Card
import Mathlib.Data.Set.Basic
import Mathlib.Logic.Function.Basic
import Mathlib.Order.Bounds.Basic
import Mathlib.Tactic.Common

namespace Sweeping
variable {α β : Type}

-- Every node wants its own elements and those of its successors, less those it kills.
structure Equations (α β : Type) where
  succ : α → List α
  extra : α → Finset β
  kill : α → Finset β

abbrev Bounds (α β : Type) := α → Finset β

-- The least solution, element by element.
inductive Flows (e : Equations α β) (start : α → Set β) : α → β → Prop where
  | own {b x} : x ∈ start b → x ∉ e.kill b → Flows e start b x
  | extra {b c x} : c ∈ e.succ b → x ∈ e.extra c → x ∉ e.kill b → Flows e start b x
  | step {b c x} : c ∈ e.succ b → Flows e start c x → x ∉ e.kill b → Flows e start b x

def Solutions (e : Equations α β) (start : α → Set β) : Set (α → Set β) :=
  {U | ∀ b x, x ∈ U b ↔ (x ∈ start b ∨ ∃ c ∈ e.succ b, x ∈ e.extra c ∨ x ∈ U c) ∧ x ∉ e.kill b}

section Least
variable {e : Equations α β} {start : α → Set β} {b : α} {x : β}

theorem flows_iff : Flows e start b x ↔
    (x ∈ start b ∨ ∃ c ∈ e.succ b, x ∈ e.extra c ∨ Flows e start c x) ∧ x ∉ e.kill b := by
  constructor
  · intro flows
    cases flows with
    | own here kept => exact ⟨.inl here,kept⟩
    | extra next here kept => exact ⟨.inr ⟨_,next,.inl here⟩,kept⟩
    | step next flows kept => exact ⟨.inr ⟨_,next,.inr flows⟩,kept⟩
  · rintro ⟨here | ⟨c,next,here | flows⟩,kept⟩
    · exact .own here kept
    · exact .extra next here kept
    · exact .step next flows kept

theorem flows_least : IsLeast (Solutions e start) fun b => {x | Flows e start b x} := by
  refine ⟨fun b x => flows_iff,?_⟩
  intro U solves b x flows
  induction flows with
  | own here kept => exact (solves _ _).mpr ⟨.inl here,kept⟩
  | extra next here kept => exact (solves _ _).mpr ⟨.inr ⟨_,next,.inl here⟩,kept⟩
  | step next _ kept ih => exact (solves _ _).mpr ⟨.inr ⟨_,next,.inr ih⟩,kept⟩

theorem isLeast_iff {U : α → Set β} (least : IsLeast (Solutions e start) U) : x ∈ U b ↔ Flows e start b x := by
  have same := least.unique flows_least
  rw [same]
  exact Iff.rfl

end Least

variable [DecidableEq α] [DecidableEq β]

-- One node brought up to date in place; a sweep does so with each node of a list and notes whether the
-- size of a set has changed; sweeps go on until one changes no size.
def visit (e : Equations α β) (upper : Bounds α β) (b : α) : Bounds α β :=
  Function.update upper b ((e.succ b).foldl (fun bound c => bound ∪ (e.extra c ∪ upper c)) (upper b) \ e.kill b)

def sweep (visit : Bounds α β → α → Bounds α β) (order : List α) (upper : Bounds α β) : Bounds α β × Bool :=
  order.foldl (fun state b =>
    (visit state.1 b,state.2 || decide ((visit state.1 b b).card ≠ (state.1 b).card))) (upper,false)

def iterate (visit : Bounds α β → α → Bounds α β) (order : List α) : Nat → Bounds α β → Option (Bounds α β)
  | 0,_ => none
  | fuel + 1,upper =>
    let swept := sweep visit order upper
    if swept.2 then iterate visit order fuel swept.1 else some swept.1

section Sweep
variable {e : Equations α β} {upper : Bounds α β} {order rest : List α} {b c : α} {x : β}

omit [DecidableEq α] in
theorem mem_gather (list : List α) (bound : Finset β) :
    x ∈ list.foldl (fun bound c => bound ∪ (e.extra c ∪ upper c)) bound ↔
      x ∈ bound ∨ ∃ c ∈ list, x ∈ e.extra c ∨ x ∈ upper c := by
  induction list generalizing bound with
  | nil => simp
  | cons c list ih => simp [ih,or_assoc]

theorem mem_visit : x ∈ visit e upper b b ↔
    (x ∈ upper b ∨ ∃ c ∈ e.succ b, x ∈ e.extra c ∨ x ∈ upper c) ∧ x ∉ e.kill b := by
  rw [visit,Function.update_self,Finset.mem_sdiff,mem_gather]

theorem visit_other (apart : c ≠ b) : visit e upper b c = upper c := Function.update_of_ne apart ..

-- The sets after visiting each node of a list.
def visits (e : Equations α β) (upper : Bounds α β) (order : List α) : Bounds α β := order.foldl (visit e) upper

theorem visits_other (absent : b ∉ order) : visits e upper order b = upper b := by
  induction order generalizing upper with
  | nil => rfl
  | cons c order ih =>
    have apart : b ≠ c := fun same => absent (same ▸ List.mem_cons_self)
    exact (ih fun later => absent (List.mem_cons_of_mem _ later)).trans (visit_other apart)

theorem visits_split {pre post : List α} (once : (pre ++ b :: post).Nodup) :
    visits e upper (pre ++ b :: post) b = visit e (visits e upper pre) b b := by
  have later : b ∉ post := (List.nodup_cons.mp (List.nodup_append.mp once).2.1).1
  rw [visits,List.foldl_append,List.foldl_cons]
  exact visits_other later

theorem visits_early {pre post : List α} (once : (pre ++ post).Nodup) (early : c ∈ pre) :
    visits e upper (pre ++ post) c = visits e upper pre c := by
  have absent : c ∉ post := fun late => (List.nodup_append.mp once).2.2 c early c late rfl
  rw [visits,List.foldl_append]
  exact visits_other absent

-- A node sees the new sets of the nodes before it and the old sets of the others.
theorem mem_visits {pre post : List α} (split : order = pre ++ b :: post) (once : order.Nodup) :
    x ∈ visits e upper order b ↔ (x ∈ upper b ∨ ∃ c ∈ e.succ b, x ∈ e.extra c ∨
      (c ∈ pre ∧ x ∈ visits e upper order c) ∨ (c ∉ pre ∧ x ∈ upper c)) ∧ x ∉ e.kill b := by
  subst split
  have absent : b ∉ pre := fun early => (List.nodup_append.mp once).2.2 b early b List.mem_cons_self rfl
  have seen : ∀ c, x ∈ visits e upper pre c ↔
      (c ∈ pre ∧ x ∈ visits e upper (pre ++ b :: post) c) ∨ (c ∉ pre ∧ x ∈ upper c) := by
    intro c
    by_cases early : c ∈ pre
    · simp [early,visits_early once early]
    · simp [early,visits_other early]
  rw [visits_split once,mem_visit,visits_other absent]
  simp only [seen]

theorem sweep_fst (order : List α) (upper : Bounds α β) (changed : Bool) :
    (order.foldl (fun state b =>
      (visit e state.1 b,state.2 || decide ((visit e state.1 b b).card ≠ (state.1 b).card))) (upper,changed)).1 =
      visits e upper order := by
  induction order generalizing upper changed with
  | nil => rfl
  | cons b order ih => exact ih ..

theorem sweep_snd (order : List α) (upper : Bounds α β) (changed : Bool) (once : order.Nodup) :
    (order.foldl (fun state b =>
      (visit e state.1 b,state.2 || decide ((visit e state.1 b b).card ≠ (state.1 b).card))) (upper,changed)).2 = false ↔
      changed = false ∧ ∀ b ∈ order, (visits e upper order b).card = (upper b).card := by
  induction order generalizing upper changed with
  | nil => simp
  | cons b order ih =>
    obtain ⟨absent,once⟩ := List.nodup_cons.mp once
    rw [List.foldl_cons,ih _ _ once]
    have here : visits e upper (b :: order) b = visit e upper b b := visits_other absent
    have there : ∀ c ∈ order, visit e upper b c = upper c := by
      intro c later
      exact visit_other fun same => absent (same ▸ later)
    simp only [Bool.or_eq_false_iff,decide_eq_false_iff_not,not_not,List.forall_mem_cons,here,and_assoc]
    refine and_congr_right fun _ => and_congr_right fun _ => forall₂_congr fun c later => ?_
    rw [there c later]
    exact Iff.rfl

theorem sweep_eq : (sweep (visit e) order upper).1 = visits e upper order := sweep_fst ..

theorem sweep_changed (once : order.Nodup) :
    (sweep (visit e) order upper).2 = false ↔ ∀ b ∈ order, (visits e upper order b).card = (upper b).card := by
  rw [sweep,sweep_snd order upper false once]
  simp

end Sweep

-- What a node picks up from a successor not yet visited although the successor kills it, and what comes of it.
inductive Strays (e : Equations α β) (order : List α) (start : Bounds α β) : α → β → Prop where
  | stale {pre b post c x} : order = pre ++ b :: post → c ∈ e.succ b → c ∉ pre → x ∈ start c → x ∈ e.kill c →
      x ∉ e.kill b → Strays e order start b x
  | step {b c x} : c ∈ e.succ b → Strays e order start c x → x ∉ e.kill b → Strays e order start b x

-- Nothing of the kind is picked up.
def Fresh (e : Equations α β) (order : List α) (start : Bounds α β) : Prop :=
  ∀ pre b post, order = pre ++ b :: post → ∀ c ∈ e.succ b, c ∉ pre → ∀ x ∈ start c, x ∉ e.kill c

-- The first sweep changes sets at most by exchanging elements for as many others.
def Balanced (e : Equations α β) (order : List α) (start : Bounds α β) : Prop :=
  ∀ b ∈ order, (visits e start order b).card = (start b).card

def Clean (e : Equations α β) (order : List α) (upper : Bounds α β) : Prop := ∀ b ∈ order, ∀ x ∈ upper b, x ∉ e.kill b

def Closed (e : Equations α β) (order : List α) (upper : Bounds α β) : Prop :=
  ∀ b ∈ order, ∀ c ∈ e.succ b, ∀ x, x ∈ e.extra c ∨ x ∈ upper c → x ∉ e.kill b → x ∈ upper b

section Settling
variable {e : Equations α β} {upper start V : Bounds α β} {order : List α} {b c : α} {x : β}

-- A property of elements that the equations respect holds in the sets after a sweep if it holds of what
-- each node takes from the old sets. The induction is on the place of the node in the list.
theorem visits_bounded {P : α → β → Prop} (once : order.Nodup)
    (extra : ∀ b ∈ order, ∀ c ∈ e.succ b, ∀ x ∈ e.extra c, x ∉ e.kill b → P b x)
    (step : ∀ b ∈ order, ∀ c ∈ e.succ b, ∀ x, P c x → x ∉ e.kill b → P b x)
    (old : ∀ pre b post, order = pre ++ b :: post → ∀ x,
      (x ∈ upper b ∨ ∃ c ∈ e.succ b, c ∉ pre ∧ x ∈ upper c) → x ∉ e.kill b → P b x) :
    ∀ b ∈ order, ∀ x ∈ visits e upper order b, P b x := by
  suffices ∀ n pre b post, pre.length = n → order = pre ++ b :: post → ∀ x ∈ visits e upper order b, P b x by
    intro b listed
    obtain ⟨pre,post,split⟩ := List.append_of_mem listed
    exact this _ pre b post rfl split
  intro n
  induction n using Nat.strong_induction_on with
  | _ n ih =>
    intro pre b post size split x member
    have listed : b ∈ order := split ▸ by simp
    obtain ⟨here | ⟨c,next,own | ⟨early,new⟩ | ⟨late,before⟩⟩,kept⟩ := (mem_visits split once).mp member
    · exact old pre b post split x (.inl here) kept
    · exact extra b listed c next x own kept
    · obtain ⟨pre',post',rfl⟩ := List.append_of_mem early
      refine step b listed c next x (ih pre'.length ?_ pre' c (post' ++ b :: post) rfl ?_ x new) kept
      · simp only [List.length_append,List.length_cons] at size
        omega
      · simp [split]
    · exact old pre b post split x (.inr ⟨c,next,late,before⟩) kept

theorem visits_clean (once : order.Nodup) : Clean e order (visits e upper order) := by
  intro b listed x member
  obtain ⟨pre,post,split⟩ := List.append_of_mem listed
  exact ((mem_visits split once).mp member).2

theorem Clean.grows (clean : Clean e order upper) (once : order.Nodup) :
    ∀ b ∈ order, upper b ⊆ visits e upper order b := by
  intro b listed x member
  obtain ⟨pre,post,split⟩ := List.append_of_mem listed
  exact (mem_visits split once).mpr ⟨.inl member,clean b listed x member⟩

-- A sweep over clean sets that changes no size changes nothing.
theorem Clean.closed (clean : Clean e order upper) (once : order.Nodup) (inside : ∀ b ∈ order, ∀ c ∈ e.succ b, c ∈ order)
    (still : ∀ b ∈ order, (visits e upper order b).card = (upper b).card) :
    Closed e order (visits e upper order) := by
  have same : ∀ b ∈ order, visits e upper order b = upper b := fun b listed =>
    (Finset.eq_of_subset_of_card_le (clean.grows once b listed) (still b listed).le).symm
  intro b listed c next x wanted kept
  obtain ⟨pre,post,split⟩ := List.append_of_mem listed
  refine (mem_visits split once).mpr ⟨.inr ⟨c,next,?_⟩,kept⟩
  obtain own | new := wanted
  · exact .inl own
  · by_cases early : c ∈ pre
    · exact .inr (.inl ⟨early,new⟩)
    · exact .inr (.inr ⟨early,same c (inside b listed c next) ▸ new⟩)

-- Without stale elements the first sweep cannot exchange anything in a set that a node sees too early.
theorem Fresh.closed (fresh : Fresh e order start) (once : order.Nodup) (inside : ∀ b ∈ order, ∀ c ∈ e.succ b, c ∈ order)
    (balanced : Balanced e order start) : Closed e order (visits e start order) := by
  intro b listed c next x wanted kept
  obtain ⟨pre,post,split⟩ := List.append_of_mem listed
  refine (mem_visits split once).mpr ⟨.inr ⟨c,next,?_⟩,kept⟩
  obtain own | new := wanted
  · exact .inl own
  · by_cases early : c ∈ pre
    · exact .inr (.inl ⟨early,new⟩)
    · have there := inside b listed c next
      have grows : start c ⊆ visits e start order c := by
        intro y member
        obtain ⟨pre',post',split'⟩ := List.append_of_mem there
        exact (mem_visits split' once).mpr ⟨.inl member,fresh pre b post split c next early y member⟩
      have same := Finset.eq_of_subset_of_card_le grows (balanced c there).le
      exact .inr (.inr ⟨early,same ▸ new⟩)

omit [DecidableEq α] [DecidableEq β] in
theorem Fresh.no_strays (fresh : Fresh e order start) : ¬ Strays e order start b x := by
  intro strays
  induction strays with
  | stale split next late before killed _ => exact fresh _ _ _ split _ next late _ before killed
  | step _ _ _ ih => exact ih

theorem first_bounded (once : order.Nodup) : ∀ b ∈ order, ∀ x ∈ visits e start order b,
    Flows e (fun b => ↑(start b)) b x ∨ Strays e order start b x := by
  refine visits_bounded once ?_ ?_ ?_
  · exact fun b _ c next x own kept => .inl (.extra next own kept)
  · rintro b _ c next x (flows | strays) kept
    · exact .inl (.step next flows kept)
    · exact .inr (.step next strays kept)
  · rintro pre b post split x (here | ⟨c,next,late,before⟩) kept
    · exact .inl (.own here kept)
    · by_cases killed : x ∈ e.kill c
      · exact .inr (.stale split next late before killed kept)
      · exact .inl (.step next (.own before killed) kept)

theorem flows_below (inside : ∀ b ∈ order, ∀ c ∈ e.succ b, c ∈ order) (once : order.Nodup)
    (above : ∀ b ∈ order, visits e start order b ⊆ V b) (closed : Closed e order V) (listed : b ∈ order)
    (flows : Flows e (fun b => ↑(start b)) b x) : x ∈ V b := by
  induction flows with
  | @own b x here kept =>
    obtain ⟨pre,post,split⟩ := List.append_of_mem listed
    exact above b listed ((mem_visits split once).mpr ⟨.inl here,kept⟩)
  | @extra b c x next own kept => exact closed b listed c next x (.inl own) kept
  | @step b c x next _ kept ih => exact closed b listed c next x (.inr (ih (inside b listed c next))) kept

theorem strays_below (inside : ∀ b ∈ order, ∀ c ∈ e.succ b, c ∈ order) (once : order.Nodup)
    (above : ∀ b ∈ order, visits e start order b ⊆ V b) (closed : Closed e order V) (listed : b ∈ order)
    (strays : Strays e order start b x) : x ∈ V b := by
  induction strays with
  | @stale pre b post c x split next late before _ kept =>
    exact above b listed ((mem_visits split once).mpr ⟨.inr ⟨c,next,.inr (.inr ⟨late,before⟩)⟩,kept⟩)
  | @step b c x next _ kept ih => exact closed b listed c next x (.inr (ih (inside b listed c next))) kept

-- The sweeps after the first one: sets only grow, and the last ones are closed.
theorem iterate_rises {fuel : Nat} (clean : Clean e order upper) (once : order.Nodup)
    (inside : ∀ b ∈ order, ∀ c ∈ e.succ b, c ∈ order) (run : iterate (visit e) order fuel upper = some V) :
    (∀ b ∈ order, upper b ⊆ V b) ∧ Closed e order V := by
  induction fuel generalizing upper with
  | zero => cases run
  | succ fuel ih =>
    simp only [iterate,sweep_eq] at run
    split at run
    · obtain ⟨above,closed⟩ := ih (visits_clean once) run
      exact ⟨fun b listed => (clean.grows once b listed).trans (above b listed),closed⟩
    · rename_i same
      cases Option.some.inj run
      exact ⟨clean.grows once,clean.closed once inside ((sweep_changed once).mp (Bool.eq_false_iff.mpr same))⟩

theorem iterate_bounded {P : α → β → Prop} {fuel : Nat} (once : order.Nodup)
    (inside : ∀ b ∈ order, ∀ c ∈ e.succ b, c ∈ order)
    (extra : ∀ b ∈ order, ∀ c ∈ e.succ b, ∀ x ∈ e.extra c, x ∉ e.kill b → P b x)
    (step : ∀ b ∈ order, ∀ c ∈ e.succ b, ∀ x, P c x → x ∉ e.kill b → P b x)
    (below : ∀ b ∈ order, ∀ x ∈ upper b, P b x) (run : iterate (visit e) order fuel upper = some V) :
    ∀ b ∈ order, ∀ x ∈ V b, P b x := by
  induction fuel generalizing upper with
  | zero => cases run
  | succ fuel ih =>
    have next : ∀ b ∈ order, ∀ x ∈ visits e upper order b, P b x := by
      refine visits_bounded once extra step ?_
      rintro pre b post split x (here | ⟨c,next,_,before⟩) kept
      · exact below b (split ▸ by simp) x here
      · have listed : b ∈ order := split ▸ by simp
        exact step b listed c next x (below c (inside b listed c next) x before) kept
    simp only [iterate,sweep_eq] at run
    split at run
    · exact ih next run
    · cases Option.some.inj run
      exact next

-- The room that is left for growth.
def room (limit : Finset β) (order : List α) (upper : Bounds α β) : Nat :=
  ∑ b ∈ order.toFinset, (limit.card - (upper b).card)

theorem Clean.room_lt {limit : Finset β} (clean : Clean e order upper) (once : order.Nodup)
    (below : ∀ b ∈ order, visits e upper order b ⊆ limit)
    (changed : ¬ ∀ b ∈ order, (visits e upper order b).card = (upper b).card) :
    room limit order (visits e upper order) < room limit order upper := by
  push Not at changed
  obtain ⟨b,listed,differs⟩ := changed
  have grows := fun c (listed : c ∈ order) => Finset.card_le_card (clean.grows once c listed)
  refine Finset.sum_lt_sum ?_ ⟨b,List.mem_toFinset.mpr listed,?_⟩
  · intro c member
    have le := grows c (List.mem_toFinset.mp member)
    omega
  · have le := grows b listed
    have most := Finset.card_le_card (below b listed)
    omega

theorem visits_within {limit : Finset β} (once : order.Nodup) (inside : ∀ b ∈ order, ∀ c ∈ e.succ b, c ∈ order)
    (extra : ∀ b ∈ order, e.extra b ⊆ limit) (below : ∀ b ∈ order, upper b ⊆ limit) :
    ∀ b ∈ order, visits e upper order b ⊆ limit := by
  refine visits_bounded (P := fun _ x => x ∈ limit) once ?_ ?_ ?_
  · exact fun b listed c next x own _ => extra c (inside b listed c next) own
  · exact fun b _ c _ x member _ => member
  · rintro pre b post split x (here | ⟨c,succ,_,before⟩) _
    · exact below b (split ▸ by simp) here
    · exact below c (inside b (split ▸ by simp) c succ) before

theorem iterate_still (once : order.Nodup) (still : ∀ b ∈ order, (visits e upper order b).card = (upper b).card) :
    iterate (visit e) order 1 upper = some (visits e upper order) := by
  simp [iterate,sweep_eq,(sweep_changed once).mpr still]

theorem iterate_changed {fuel : Nat} (once : order.Nodup)
    (changed : ¬ ∀ b ∈ order, (visits e upper order b).card = (upper b).card) :
    iterate (visit e) order (fuel + 1) upper = iterate (visit e) order fuel (visits e upper order) := by
  have changed : (sweep (visit e) order upper).2 = true := by
    rw [← Bool.not_eq_false,sweep_changed once]
    exact changed
  simp [iterate,sweep_eq,changed]

theorem iterate_terminates {limit : Finset β} {upper : Bounds α β} (clean : Clean e order upper) (once : order.Nodup)
    (inside : ∀ b ∈ order, ∀ c ∈ e.succ b, c ∈ order) (extra : ∀ b ∈ order, e.extra b ⊆ limit)
    (below : ∀ b ∈ order, upper b ⊆ limit) : ∃ fuel V, iterate (visit e) order fuel upper = some V := by
  have next := visits_within once inside extra below
  by_cases still : ∀ b ∈ order, (visits e upper order b).card = (upper b).card
  · exact ⟨1,_,iterate_still once still⟩
  · have smaller := clean.room_lt once next still
    obtain ⟨fuel,V,run⟩ := iterate_terminates (visits_clean once) once inside extra next
    exact ⟨fuel + 1,V,(iterate_changed once still).trans run⟩
termination_by room limit order upper

theorem start_terminates {limit : Finset β} (once : order.Nodup) (inside : ∀ b ∈ order, ∀ c ∈ e.succ b, c ∈ order)
    (extra : ∀ b ∈ order, e.extra b ⊆ limit) (below : ∀ b ∈ order, start b ⊆ limit) :
    ∃ fuel V, iterate (visit e) order fuel start = some V := by
  by_cases still : Balanced e order start
  · exact ⟨1,_,iterate_still once still⟩
  · have next := visits_within once inside extra below
    obtain ⟨fuel,V,run⟩ := iterate_terminates (visits_clean once) once inside extra next
    exact ⟨fuel + 1,V,(iterate_changed once still).trans run⟩

theorem iterate_mono {less more : Nat} (le : less ≤ more) (run : iterate (visit e) order less start = some V) :
    iterate (visit e) order more start = some V := by
  induction less generalizing start more with
  | zero => cases run
  | succ less ih =>
    obtain ⟨more,rfl⟩ := Nat.exists_eq_add_of_le' (Nat.lt_of_lt_of_le (Nat.succ_pos less) le)
    simp only [iterate] at run ⊢
    split at run
    · rename_i changed
      rw [if_pos changed]
      exact ih (Nat.le_of_succ_le_succ le) run
    · rename_i changed
      rw [if_neg changed]
      exact run

-- The sweeps end with the least solution and what strays, unless they end too early.
theorem iterate_settles {fuel : Nat} (once : order.Nodup) (inside : ∀ b ∈ order, ∀ c ∈ e.succ b, c ∈ order)
    (late : ¬ Balanced e order start ∨ Fresh e order start) (run : iterate (visit e) order fuel start = some V)
    (listed : b ∈ order) : x ∈ V b ↔ Flows e (fun b => ↑(start b)) b x ∨ Strays e order start b x := by
  cases fuel with
  | zero => cases run
  | succ fuel =>
    have first := @first_bounded _ _ _ _ e start order once
    have ends : (∀ b ∈ order, visits e start order b ⊆ V b) ∧ Closed e order V ∧
        ∀ b ∈ order, ∀ x ∈ V b, Flows e (fun b => ↑(start b)) b x ∨ Strays e order start b x := by
      by_cases balanced : Balanced e order start
      · rw [iterate,sweep_eq,(sweep_changed once).mpr balanced] at run
        cases Option.some.inj run
        have fresh := late.resolve_left (not_not_intro balanced)
        exact ⟨fun _ _ => Finset.Subset.refl _,fresh.closed once inside balanced,first⟩
      · rw [iterate_changed once balanced] at run
        obtain ⟨above,closed⟩ := iterate_rises (visits_clean once) once inside run
        refine ⟨above,closed,iterate_bounded once inside ?_ ?_ first run⟩
        · exact fun b _ c next x own kept => .inl (.extra next own kept)
        · rintro b _ c next x (flows | strays) kept
          · exact .inl (.step next flows kept)
          · exact .inr (.step next strays kept)
    obtain ⟨above,closed,below⟩ := ends
    constructor
    · exact below b listed x
    · rintro (flows | strays)
      · exact flows_below inside once above closed listed flows
      · exact strays_below inside once above closed listed strays

end Settling

end Sweeping
