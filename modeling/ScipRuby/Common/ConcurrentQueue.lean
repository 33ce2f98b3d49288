import Mathlib.Algebra.Order.BigOperators.Group.Finset
import Mathlib.Algebra.Order.Ring.Int
import Mathlib.Data.Fintype.Basic
import ScipRuby.Lib.Traces

namespace Common.ConcurrentQueue
open Traces

structure DequeueResult where
  returned : Bool
  shouldRetry : Bool

def DequeueResult.done (result : DequeueResult) : Bool := !(result.returned || result.shouldRetry)

-- The calls of push that a thread has to make, and the count of one that has enqueued its
-- element but not decremented the counter.
structure Producer (Elem : Type) where
  todo : List (Elem × Int)
  publishing : Option Int

inductive Call where
  | try_pop
  | wait_pop_timed

-- A thread that calls one of the two until done().
inductive Consumer where
  | between
  | dequeuing (call : Call) (shouldRetry : Bool)
  | finished

-- The wrapped queue gives its elements in any order.
structure State (P C Elem : Type) where
  queue : Multiset Elem
  elementsLeftToPush : Int
  elementsPopped : Nat
  producers : P → Producer Elem
  consumers : C → Consumer

inductive Event (P C Elem : Type) where
  | enqueue (producer : P) (elem : Elem)
  | publish (producer : P) (count : Int)
  | load (consumer : C) (call : Call)
  | pop (consumer : C) (result : DequeueResult) (elem : Option Elem)

def afterMiss (result : DequeueResult) : Consumer := if result.done then .finished else .between

section Protocol
variable {P C Elem : Type} [DecidableEq P] [DecidableEq C]

-- The atomic steps of push, try_pop and wait_pop_timed.
inductive Step : State P C Elem → Event P C Elem → State P C Elem → Prop where
  | enqueue {s : State P C Elem} {p : P} {elem : Elem} {count : Int} {todo : List (Elem × Int)}
      (next : s.producers p = ⟨(elem,count) :: todo,none⟩) :
      Step s (.enqueue p elem) {s with
        queue := elem ::ₘ s.queue
        producers := Function.update s.producers p ⟨todo,some count⟩}
  | publish {s : State P C Elem} {p : P} {count : Int} {todo : List (Elem × Int)}
      (next : s.producers p = ⟨todo,some count⟩) :
      Step s (.publish p count) {s with
        elementsLeftToPush := s.elementsLeftToPush + -count
        producers := Function.update s.producers p ⟨todo,none⟩}
  | load {s : State P C Elem} {c : C} (call : Call) (next : s.consumers c = .between) :
      Step s (.load c call) {s with
        consumers := Function.update s.consumers c (.dequeuing call (decide (s.elementsLeftToPush ≠ 0)))}
  | returned {s : State P C Elem} {c : C} {call : Call} {shouldRetry : Bool} {elem : Elem} {rest : Multiset Elem}
      (next : s.consumers c = .dequeuing call shouldRetry) (found : s.queue = elem ::ₘ rest) :
      Step s (.pop c ⟨true,shouldRetry⟩ (some elem)) {s with
        queue := rest
        elementsPopped := s.elementsPopped + 1
        consumers := Function.update s.consumers c .between}
  | missed {s : State P C Elem} {c : C} {call : Call} {shouldRetry : Bool}
      (next : s.consumers c = .dequeuing call shouldRetry) (empty : s.queue = 0) :
      Step s (.pop c ⟨false,shouldRetry⟩ none) {s with
        consumers := Function.update s.consumers c (afterMiss ⟨false,shouldRetry⟩)}
  -- The wait may end without an element whatever the queue holds.
  | timeout {s : State P C Elem} {c : C} (next : s.consumers c = .dequeuing .wait_pop_timed true) :
      Step s (.pop c ⟨false,true⟩ none) {s with
        consumers := Function.update s.consumers c (afterMiss ⟨false,true⟩)}

def initial (pushes : P → List (Elem × Int)) (bound : Int) : State P C Elem :=
  ⟨0,bound,0,fun p => ⟨pushes p,none⟩,fun _ => .between⟩

end Protocol

section Histories
variable {P C Elem : Type}

def Event.enqueued : Event P C Elem → Multiset Elem
  | .enqueue _ elem => {elem}
  | _ => 0

def Event.popped : Event P C Elem → Multiset Elem
  | .pop _ _ (some elem) => {elem}
  | _ => 0

def enqueued (trace : List (Event P C Elem)) : Multiset Elem := (trace.map Event.enqueued).sum
def popped (trace : List (Event P C Elem)) : Multiset Elem := (trace.map Event.popped).sum

theorem enqueued_snoc (trace : List (Event P C Elem)) (event : Event P C Elem) :
    enqueued (trace ++ [event]) = enqueued trace + event.enqueued := by
  rw [enqueued,List.map_append,List.sum_append,List.map_singleton,List.sum_singleton]
  rfl

theorem popped_snoc (trace : List (Event P C Elem)) (event : Event P C Elem) :
    popped (trace ++ [event]) = popped trace + event.popped := by
  rw [popped,List.map_append,List.sum_append,List.map_singleton,List.sum_singleton]
  rfl

end Histories

-- The part of the bound that a producer still has to subtract, and the elements it still has to enqueue.
def Producer.remaining {Elem : Type} (producer : Producer Elem) : Int :=
  producer.publishing.getD 0 + (producer.todo.map Prod.snd).sum

def Producer.elements {Elem : Type} (producer : Producer Elem) : Multiset Elem := (producer.todo.map Prod.fst : List Elem)

structure Producer.Positive {Elem : Type} (producer : Producer Elem) : Prop where
  todo : ∀ push ∈ producer.todo, 0 < push.2
  publishing : ∀ count, producer.publishing = some count → 0 < count

theorem counts_nonneg {Elem : Type} {todo : List (Elem × Int)} (positive : ∀ push ∈ todo, 0 < push.2) :
    0 ≤ (todo.map Prod.snd).sum := by
  apply List.sum_nonneg
  intro count member
  obtain ⟨push,listed,rfl⟩ := List.mem_map.mp member
  exact Int.le_of_lt (positive push listed)

theorem Producer.Positive.nonneg {Elem : Type} {producer : Producer Elem} (positive : producer.Positive) :
    0 ≤ producer.remaining := by
  have rest := counts_nonneg positive.todo
  unfold remaining
  cases current : producer.publishing with
  | none => simpa using rest
  | some count =>
    have first := positive.publishing count current
    rw [Option.getD_some]
    omega

-- Counts are positive, so that nothing remains only of a producer that is through.
theorem Producer.Positive.through {Elem : Type} {producer : Producer Elem} (positive : producer.Positive)
    (zero : producer.remaining = 0) : producer = ⟨[],none⟩ := by
  obtain ⟨todo,publishing⟩ := producer
  have rest := counts_nonneg positive.todo
  unfold remaining at zero
  dsimp only at rest zero
  cases publishing with
  | some count =>
    have first := positive.publishing count rfl
    rw [Option.getD_some] at zero
    omega
  | none =>
    cases todo with
    | nil => rfl
    | cons push todo =>
      have first := positive.todo push List.mem_cons_self
      have later := counts_nonneg fun other member => positive.todo other (List.mem_cons_of_mem _ member)
      rw [Option.getD_none,List.map_cons,List.sum_cons] at zero
      omega

section Invariants
variable {P C Elem : Type} [Fintype P]
variable {s t : State P C Elem} {trace : List (Event P C Elem)} {event : Event P C Elem} {pushes : P → List (Elem × Int)} {bound : Int}

-- The sum for one changed producer, with what was there before added on the other side.
theorem sum_update {M : Type} [AddCommMonoid M] [DecidableEq P] (f : Producer Elem → M) (producers : P → Producer Elem) (p : P) (changed : Producer Elem) :
    (∑ q, f (Function.update producers p changed q)) + f (producers p) = (∑ q, f (producers q)) + f changed := by
  rw [← Finset.add_sum_erase Finset.univ _ (Finset.mem_univ p),← Finset.add_sum_erase Finset.univ (fun q => f (producers q)) (Finset.mem_univ p)]
  have others : ∑ q ∈ Finset.univ.erase p, f (Function.update producers p changed q) = ∑ q ∈ Finset.univ.erase p, f (producers q) := by
    refine Finset.sum_congr rfl fun q member => ?_
    rw [Function.update_of_ne (Finset.ne_of_mem_erase member)]
  rw [others,Function.update_self]
  ac_rfl

-- What every run keeps: the counter is what the producers still have to subtract, every element
-- is still to be enqueued, in the queue or returned, and a consumer that read zero finds nothing
-- added any more.
structure Invariant (pushes : P → List (Elem × Int)) (trace : List (Event P C Elem)) (s : State P C Elem) : Prop where
  positive : ∀ p, (s.producers p).Positive
  counter : s.elementsLeftToPush = ∑ p, (s.producers p).remaining
  waiting : (∑ p, (s.producers p).elements) + enqueued trace = ∑ p, ((pushes p).map Prod.fst : Multiset Elem)
  queued : s.queue + popped trace = enqueued trace
  late : ∀ c call, s.consumers c = .dequeuing call false → s.elementsLeftToPush = 0
  ended : ∀ c, s.consumers c = .finished → s.elementsLeftToPush = 0 ∧ s.queue = 0

theorem Invariant.all_through (invariant : Invariant pushes trace s) (zero : s.elementsLeftToPush = 0) (p : P) :
    s.producers p = ⟨[],none⟩ := by
  have sum := invariant.counter
  rw [zero] at sum
  have each := (Finset.sum_eq_zero_iff_of_nonneg fun p _ => (invariant.positive p).nonneg).mp sum.symm
  exact (invariant.positive p).through (each p (Finset.mem_univ p))

-- A step that neither changes a producer nor the counter, nor adds to the queue.
theorem Invariant.consume {rest gone : Multiset Elem} {consumers : C → Consumer} {elementsPopped : Nat}
    (invariant : Invariant pushes trace s) (taken : s.queue = gone + rest) (event : Event P C Elem)
    (none : event.enqueued = 0) (some_ : event.popped = gone)
    (late : ∀ c call, consumers c = .dequeuing call false → s.elementsLeftToPush = 0)
    (ended : ∀ c, consumers c = .finished → s.elementsLeftToPush = 0 ∧ rest = 0) :
    Invariant pushes (trace ++ [event]) {s with
      queue := rest
      elementsPopped := elementsPopped
      consumers := consumers} := by
  refine ⟨invariant.positive,invariant.counter,?_,?_,late,ended⟩
  · rw [enqueued_snoc,none,add_zero]
    exact invariant.waiting
  · rw [enqueued_snoc,popped_snoc,none,some_,add_zero,← invariant.queued,taken]
    change rest + (popped trace + gone) = gone + rest + popped trace
    ac_rfl

theorem initial_invariant (positive : ∀ p, ∀ push ∈ pushes p, 0 < push.2) (whole : ∑ p, ((pushes p).map Prod.snd).sum = bound) :
    Invariant pushes [] (initial (C := C) pushes bound) := by
  refine ⟨?_,?_,?_,rfl,?_,?_⟩
  · exact fun p => ⟨positive p,fun _ impossible => nomatch impossible⟩
  · rw [initial,← whole]
    refine Finset.sum_congr rfl fun p _ => ?_
    rw [Producer.remaining,Option.getD_none,zero_add]
  · exact add_zero _
  · exact fun _ _ impossible => nomatch impossible
  · exact fun _ impossible => nomatch impossible

section Steps
variable [DecidableEq P] [DecidableEq C]

omit [Fintype P] in
theorem positive_update {producers : P → Producer Elem} {p : P} {changed : Producer Elem} (all : ∀ q, (producers q).Positive)
    (positive : changed.Positive) (q : P) : (Function.update producers p changed q).Positive := by
  by_cases own : q = p
  · rw [own,Function.update_self]
    exact positive
  · rw [Function.update_of_ne own]
    exact all q

theorem update_cases {consumers : C → Consumer} {c d : C} {changed consumer : Consumer}
    (now : Function.update consumers c changed d = consumer) : changed = consumer ∨ consumers d = consumer := by
  by_cases same : d = c
  · rw [same,Function.update_self] at now
    exact .inl now
  · rw [Function.update_of_ne same] at now
    exact .inr now

omit [DecidableEq C] in
-- A step of a producer that is not through: what it subtracts from the counter and enqueues is no longer to be done.
theorem Invariant.produce {p : P} {changed : Producer Elem} {queue : Multiset Elem} {left : Int}
    (invariant : Invariant pushes trace s) (gone : Int) (entered : Multiset Elem) (open_ : s.producers p ≠ ⟨[],none⟩) (positive : changed.Positive)
    (remaining : (s.producers p).remaining = gone + changed.remaining) (elements : (s.producers p).elements = entered + changed.elements)
    (counter : s.elementsLeftToPush = gone + left) (added : queue = entered + s.queue) (event : Event P C Elem)
    (enqueued_ : event.enqueued = entered) (popped_ : event.popped = 0) :
    Invariant pushes (trace ++ [event]) {s with
      queue := queue
      elementsLeftToPush := left
      producers := Function.update s.producers p changed} := by
  -- The counter is not zero while a push is still to be made.
  have nonzero : s.elementsLeftToPush ≠ 0 := fun zero => open_ (invariant.all_through zero p)
  have sum := sum_update Producer.remaining s.producers p changed
  have whole := sum_update Producer.elements s.producers p changed
  refine ⟨?_,?_,?_,?_,?_,?_⟩
  · exact positive_update invariant.positive positive
  · have before := invariant.counter
    change left = ∑ q, (Function.update s.producers p changed q).remaining
    omega
  · rw [elements,← add_assoc] at whole
    rw [enqueued_snoc,enqueued_,← invariant.waiting,← add_right_cancel whole]
    ac_rfl
  · rw [enqueued_snoc,popped_snoc,enqueued_,popped_,add_zero,← invariant.queued]
    change queue + popped trace = s.queue + popped trace + entered
    rw [added]
    ac_rfl
  · exact fun c call now => absurd (invariant.late c call now) nonzero
  · exact fun c now => absurd (invariant.ended c now).1 nonzero

theorem step_invariant (invariant : Invariant pushes trace s) (step : Step s event t) : Invariant pushes (trace ++ [event]) t := by
  cases step with
  | @enqueue p elem count todo next =>
    have positive := invariant.positive p
    rw [next] at positive
    apply invariant.produce 0 {elem}
    · rw [next]
      intro through
      cases through
    · refine ⟨fun push member => positive.todo push (List.mem_cons_of_mem _ member),?_⟩
      rintro _ ⟨⟩
      exact positive.todo (elem,count) List.mem_cons_self
    · rw [next,Producer.remaining,Producer.remaining,Option.getD_some,Option.getD_none,List.map_cons,List.sum_cons]
    · rw [next]
      rfl
    · exact (zero_add _).symm
    · exact (Multiset.singleton_add _ _).symm
    · rfl
    · rfl
  | @publish p count todo next =>
    have positive := invariant.positive p
    rw [next] at positive
    apply invariant.produce count 0
    · rw [next]
      intro through
      cases through
    · exact ⟨positive.todo,fun _ impossible => nomatch impossible⟩
    · rw [next,Producer.remaining,Producer.remaining,Option.getD_some,Option.getD_none,zero_add]
    · rw [next]
      exact (zero_add _).symm
    · omega
    · exact (zero_add _).symm
    · rfl
    · rfl
  | @load c call next =>
    apply invariant.consume (zero_add _).symm (.load c call) rfl rfl
    · intro d other now
      rcases update_cases now with changed | before
      · injection changed with _ read
        simpa using read
      · exact invariant.late d other before
    · intro d now
      rcases update_cases now with changed | before
      · cases changed
      · exact invariant.ended d before
  | @returned c call shouldRetry elem rest next found =>
    have taken : s.queue = {elem} + rest := found.trans (Multiset.singleton_add _ _).symm
    apply invariant.consume taken _ rfl rfl
    · intro d other now
      rcases update_cases now with changed | before
      · cases changed
      · exact invariant.late d other before
    · intro d now
      rcases update_cases now with changed | before
      · cases changed
      · have empty := (invariant.ended d before).2
        rw [found] at empty
        exact absurd empty Multiset.cons_ne_zero
  | @missed c call shouldRetry next empty =>
    apply invariant.consume (zero_add _).symm _ rfl rfl
    · intro d other now
      rcases update_cases now with changed | before
      · cases shouldRetry <;> cases changed
      · exact invariant.late d other before
    · intro d now
      rcases update_cases now with changed | before
      · cases shouldRetry with
        | false => exact ⟨invariant.late c call next,empty⟩
        | true => cases changed
      · exact invariant.ended d before
  | @timeout c next =>
    apply invariant.consume (zero_add _).symm _ rfl rfl
    · intro d other now
      rcases update_cases now with changed | before
      · cases changed
      · exact invariant.late d other before
    · intro d now
      rcases update_cases now with changed | before
      · cases changed
      · exact invariant.ended d before

theorem run_invariant (positive : ∀ p, ∀ push ∈ pushes p, 0 < push.2) (whole : ∑ p, ((pushes p).map Prod.snd).sum = bound)
    (ran : Runs Step (initial pushes bound) trace s) : Invariant pushes trace s :=
  ran.history (Invariant pushes) (initial_invariant positive whole) fun _ _ _ _ => step_invariant

-- An element is in the queue or was returned by exactly one pop as soon as it is enqueued, and
-- when a consumer has seen done() all pushes are over and everything was returned.
theorem bounded_queue (pushes : P → List (Elem × Int)) (bound : Int) (positive : ∀ p, ∀ push ∈ pushes p, 0 < push.2)
    (whole : ∑ p, ((pushes p).map Prod.snd).sum = bound) (trace : List (Event P C Elem)) (s : State P C Elem)
    (ran : Runs Step (initial pushes bound) trace s) :
    s.queue + popped trace = enqueued trace ∧ ∀ c, s.consumers c = .finished →
      (∀ p, s.producers p = ⟨[],none⟩) ∧ s.queue = 0 ∧ popped trace = ∑ p, ((pushes p).map Prod.fst : Multiset Elem) := by
  have invariant := run_invariant positive whole ran
  refine ⟨invariant.queued,fun c finished => ?_⟩
  obtain ⟨zero,empty⟩ := invariant.ended c finished
  have through := invariant.all_through zero
  have waiting := invariant.waiting
  have none : ∑ p, (s.producers p).elements = 0 := by
    refine Finset.sum_eq_zero fun p _ => ?_
    rw [through p]
    rfl
  rw [none,zero_add,← invariant.queued,empty,zero_add] at waiting
  exact ⟨through,empty,waiting⟩

end Steps
end Invariants

section Runs

-- Two producers and two consumers, one of which takes an element before its push is over.
def sharedPushes : Bool → List (Nat × Int)
  | false => [(7,1),(8,2)]
  | true => [(9,3)]

theorem bounded_queue_one : ∃ (trace : List (Event Bool Bool Nat)) (s : State Bool Bool Nat),
    Runs Step (initial sharedPushes 6) trace s ∧ s.consumers false = .finished ∧ s.consumers true = .finished ∧
    s.queue + popped trace = enqueued trace ∧ ∀ c, s.consumers c = .finished →
      (∀ p, s.producers p = ⟨[],none⟩) ∧ s.queue = 0 ∧
        popped trace = ∑ p, ((sharedPushes p).map Prod.fst : Multiset Nat) := by
  have start : Runs Step (initial (C := Bool) sharedPushes 6) [] _ := Runs.nil
  have early := ((start.snoc (Step.load (c := false) .wait_pop_timed rfl)).snoc (Step.enqueue (p := true) rfl)).snoc
    (@Step.returned _ _ _ _ _ _ false .wait_pop_timed true 9 0 rfl rfl)
  have between := ((early.snoc (Step.enqueue (p := false) rfl)).snoc (Step.load (c := true) .try_pop rfl)).snoc
    (Step.publish (p := true) rfl)
  have second := (between.snoc (Step.load (c := false) .wait_pop_timed rfl)).snoc
    (@Step.returned _ _ _ _ _ _ false .wait_pop_timed true 7 0 rfl rfl)
  have again := (second.snoc (Step.publish (p := false) rfl)).snoc (@Step.missed _ _ _ _ _ _ true .try_pop true rfl rfl)
  have through := (again.snoc (Step.enqueue (p := false) rfl)).snoc (Step.publish (p := false) rfl)
  have both := (through.snoc (Step.load (c := true) .try_pop rfl)).snoc (Step.load (c := false) .wait_pop_timed rfl)
  have last := (both.snoc (@Step.returned _ _ _ _ _ _ true .try_pop false 8 0 rfl rfl)).snoc
    (@Step.missed _ _ _ _ _ _ false .wait_pop_timed false rfl rfl)
  have ran := (last.snoc (Step.load (c := true) .try_pop rfl)).snoc (@Step.missed _ _ _ _ _ _ true .try_pop false rfl rfl)
  exact ⟨_,_,ran,rfl,rfl,bounded_queue sharedPushes 6 (by decide) (by decide) _ _ ran⟩

-- A push of no elements by the second producer is not waited for.
def emptyPush : Bool → List (Nat × Int)
  | false => [(7,1)]
  | true => [(8,0)]

theorem emptyPush_missed : ∑ p, ((emptyPush p).map Prod.snd).sum = 1 ∧
    ∃ (trace : List (Event Bool Unit Nat)) (s : State Bool Unit Nat), Runs Step (initial emptyPush 1) trace s ∧
      s.consumers () = .finished ∧ s.producers true = ⟨[(8,0)],none⟩ := by
  have pushed := (Runs.nil.snoc (Step.enqueue (s := initial (C := Unit) emptyPush 1) (p := false) rfl)).snoc (Step.publish (p := false) rfl)
  have taken := (pushed.snoc (Step.load (c := ()) .try_pop rfl)).snoc (@Step.returned _ _ _ _ _ _ () .try_pop false 7 0 rfl rfl)
  have ran := (taken.snoc (Step.load (c := ()) .try_pop rfl)).snoc (@Step.missed _ _ _ _ _ _ () .try_pop false rfl rfl)
  exact ⟨by decide,_,_,ran,rfl,rfl⟩

end Runs

end Common.ConcurrentQueue
