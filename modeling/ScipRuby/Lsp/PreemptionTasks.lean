import ScipRuby.Lsp.EpochManager

namespace Lsp
open Traces

abbrev Stratum := UInt16

-- PreemptionTask::RunResult; `rescheduled` holds the stratum when wasRescheduled_ is set.
structure RunResult where
  tasksHandled : Bool := false
  rescheduled : Option Stratum := none
  deriving DecidableEq,Repr

-- The identity of a PreemptionTask object.
abbrev TaskId := Nat

-- atomic_compare_exchange_strong on the slot: whether it exchanged, the slot, and
-- `expected`, which a failed exchange overwrites with what it found.
def compareExchange (slot expected desired : Option TaskId) : Bool × Option TaskId × Option TaskId :=
  if slot = expected then (true,desired,expected) else (false,slot,slot)

structure PreemptionTaskManager where
  preemptTask : Option TaskId := none
  runnableAt : Stratum := 0
  deriving DecidableEq,Repr

def PreemptionTaskManager.tryCancelScheduledPreemptionTask (m : PreemptionTaskManager) (task : Option TaskId) :
    Bool × PreemptionTaskManager × Option TaskId :=
  let (success,slot,task) := compareExchange m.preemptTask task none
  (success,{m with preemptTask := slot},task)

namespace Preemption
open TypecheckEpochManager

-- One call of tryRunScheduledPreemptionTask. `inside` is the epoch whose
-- typechecking makes it; the last call of tryCommitEpoch has none.
structure RunCall where
  currentStratum : Stratum
  allowReschedule : Bool
  inside : Option UInt32
  deriving DecidableEq,Repr

-- Where the typechecking thread stands between two atomic accesses.
inductive Typechecker where
  | idle
  | typechecking (epoch : UInt32)
  | loading (call : RunCall)
  | loaded (call : RunCall) (task : TaskId)
  | claiming (call : RunCall) (task : TaskId)
  | running (call : RunCall) (task : TaskId)
  | ran (call : RunCall) (task : TaskId) (result : RunResult)
  | requeuing (call : RunCall) (task : TaskId)
  | restoring (call : RunCall) (task : TaskId) (existing : Option TaskId)
  deriving DecidableEq,Repr

def RunCall.returns (call : RunCall) : Typechecker :=
  match call.inside with
  | some epoch => .typechecking epoch
  | none => .idle

-- Where the processing thread stands. It holds the epoch lock from the status check
-- of trySchedulePreemptionTask to the exchange; then it waits, tries once to cancel,
-- and failing that blocks on the notification of the task.
inductive Processor where
  | free
  | scheduling (task : TaskId)
  | publishing (task : TaskId)
  | scheduled (task : TaskId)
  | awaiting (task : TaskId)
  deriving DecidableEq,Repr

def Processor.Unlocked : Processor → Prop
  | .scheduling _ | .publishing _ => False
  | .free | .scheduled _ | .awaiting _ => True

structure System where
  epochs : TypecheckEpochManager := {}
  manager : PreemptionTaskManager := {}
  typechecker : Typechecker := .idle
  processor : Processor := .free
  -- the tasks made so far are those below
  nextTask : TaskId := 0
  notified : List TaskId := []
  deriving DecidableEq,Repr

inductive Event where
  | startCommitEpoch (epoch : UInt32)
  | commitSection (committed : Bool)
  | tryCancelSlowPath (newEpoch : UInt32) (canceled : Bool)
  | schedule (task : TaskId) (success : Bool)
  | run (task : TaskId) (currentStratum : Stratum) (result : RunResult)
  | finish (task : TaskId)
  | cancel (task : TaskId) (success : Bool)
  | wake (task : TaskId)
  | internal
  deriving DecidableEq,Repr

-- The guard of trySchedulePreemptionTask.
def mayPreempt (status : TypecheckingStatus) (existingTask : Option TaskId) : Bool :=
  !(!status.slowPathRunning || status.slowPathWasCanceled || existingTask != none)

inductive ProcessorStep : System → Event → System → Prop where
  | scheduleRefused {s : System} : s.processor = .free →
      mayPreempt s.epochs.getStatus s.manager.preemptTask = false →
      ProcessorStep s (.schedule s.nextTask false) {s with nextTask := s.nextTask + 1}
  | scheduleChecked {s : System} : s.processor = .free →
      mayPreempt s.epochs.getStatus s.manager.preemptTask = true →
      ProcessorStep s .internal {s with nextTask := s.nextTask + 1,processor := .scheduling s.nextTask}
  | scheduleReset {s : System} {task : TaskId} : s.processor = .scheduling task →
      ProcessorStep s .internal
        {s with manager := {s.manager with runnableAt := 0},processor := .publishing task}
  | schedule {s : System} {task : TaskId} {success : Bool} {slot existingTask : Option TaskId} :
      s.processor = .publishing task →
      compareExchange s.manager.preemptTask none (some task) = (success,slot,existingTask) →
      ProcessorStep s (.schedule task success)
        {s with manager := {s.manager with preemptTask := slot}
                processor := if success then .scheduled task else .free}
  | cancel {s : System} {task : TaskId} {success : Bool} {manager : PreemptionTaskManager} {token : Option TaskId} :
      s.processor = .scheduled task →
      s.manager.tryCancelScheduledPreemptionTask (some task) = (success,manager,token) →
      ProcessorStep s (.cancel task success)
        {s with manager := manager,processor := if success then .free else .awaiting task}
  | wake {s : System} {task : TaskId} : s.processor = .awaiting task → task ∈ s.notified →
      ProcessorStep s (.wake task) {s with processor := .free}
  | tryCancelSlowPath {s : System} {newEpoch : UInt32} {canceled : Bool} {epochs : TypecheckEpochManager} :
      s.processor = .free → s.epochs.tryCancelSlowPath newEpoch = (canceled,epochs) →
      ProcessorStep s (.tryCancelSlowPath newEpoch canceled) {s with epochs := epochs}

inductive TypecheckerStep : System → Event → System → Prop where
  | startCommitEpoch {s : System} {epoch : UInt32} : s.typechecker = .idle → s.processor.Unlocked →
      TypecheckerStep s (.startCommitEpoch epoch)
        {s with epochs := s.epochs.startCommitEpoch epoch,typechecker := .typechecking epoch}
  | call {s : System} {epoch : UInt32} {currentStratum : Stratum} {allowReschedule : Bool} :
      s.typechecker = .typechecking epoch →
      TypecheckerStep s .internal {s with typechecker := .loading ⟨currentStratum,allowReschedule,some epoch⟩}
  -- the end of typecheck(), the commit section, and the call that drains the slot
  | commitSection {s : System} {epoch : UInt32} {finalStratum : Stratum} {committed : Bool}
      {epochs : TypecheckEpochManager} :
      s.typechecker = .typechecking epoch → s.processor.Unlocked → s.epochs.commitSection = (committed,epochs) →
      TypecheckerStep s (.commitSection committed)
        {s with epochs := epochs,typechecker := .loading ⟨finalStratum,false,none⟩}
  | loadEmpty {s : System} {call : RunCall} : s.typechecker = .loading call → s.manager.preemptTask = none →
      TypecheckerStep s .internal {s with typechecker := call.returns}
  | load {s : System} {call : RunCall} {task : TaskId} :
      s.typechecker = .loading call → s.manager.preemptTask = some task →
      TypecheckerStep s .internal
        {s with typechecker := if call.allowReschedule then .loaded call task else .claiming call task}
  | stratum {s : System} {call : RunCall} {task : TaskId} : s.typechecker = .loaded call task →
      TypecheckerStep s .internal
        {s with typechecker := if call.currentStratum < s.manager.runnableAt then call.returns else .claiming call task}
  | claim {s : System} {call : RunCall} {task : TaskId} {success : Bool} {slot preemptTask : Option TaskId} :
      s.typechecker = .claiming call task →
      compareExchange s.manager.preemptTask (some task) none = (success,slot,preemptTask) →
      TypecheckerStep s .internal
        {s with manager := {s.manager with preemptTask := slot}
                typechecker := if success then .running call task else call.returns}
  | run {s : System} {call : RunCall} {task : TaskId} {result : RunResult} : s.typechecker = .running call task →
      TypecheckerStep s (.run task call.currentStratum result) {s with typechecker := .ran call task result}
  | finish {s : System} {call : RunCall} {task : TaskId} {result : RunResult} :
      s.typechecker = .ran call task result → (call.allowReschedule && result.rescheduled.isSome) = false →
      TypecheckerStep s (.finish task) {s with typechecker := call.returns,notified := task :: s.notified}
  | reschedule {s : System} {call : RunCall} {task : TaskId} {result : RunResult} {stratum : Stratum} :
      s.typechecker = .ran call task result → call.allowReschedule = true → result.rescheduled = some stratum →
      TypecheckerStep s .internal
        {s with manager := {s.manager with runnableAt := stratum},typechecker := .requeuing call task}
  | reload {s : System} {call : RunCall} {task : TaskId} : s.typechecker = .requeuing call task →
      TypecheckerStep s .internal {s with typechecker := .restoring call task s.manager.preemptTask}
  | restore {s : System} {call : RunCall} {task : TaskId} {existing slot existingTask : Option TaskId} {success : Bool} :
      s.typechecker = .restoring call task existing →
      compareExchange s.manager.preemptTask existing (some task) = (success,slot,existingTask) →
      TypecheckerStep s .internal
        {s with manager := {s.manager with preemptTask := slot},typechecker := call.returns}

def Step (s : System) (event : Event) (s' : System) : Prop := ProcessorStep s event s' ∨ TypecheckerStep s event s'

-- The task that has left the slot and is in the hands of the typechecking thread.
def Typechecker.held : Typechecker → Option TaskId
  | .running _ task | .ran _ task _ | .requeuing _ task | .restoring _ task _ => some task
  | .idle | .typechecking _ | .loading _ | .loaded .. | .claiming .. => none

def Processor.owned : Processor → Option TaskId
  | .scheduled task | .awaiting task => some task
  | .free | .scheduling _ | .publishing _ => none

def Typechecker.call : Typechecker → Option RunCall
  | .loading call | .loaded call _ | .claiming call _ | .running call _ | .ran call .. | .requeuing call _
  | .restoring call .. => some call
  | .idle | .typechecking _ => none

-- Past the commit section no slow path is running.
def Typechecker.PastCommit (typechecker : Typechecker) : Prop :=
  typechecker = .idle ∨ ∃ call, typechecker.call = some call ∧ call.inside = none

-- How a step moves a task between the slot and the hands of the typechecking
-- thread, and what the trace says of it.
inductive Move : (slot held : Option TaskId) → Event → (slot' held' : Option TaskId) → Prop where
  | publish {held : Option TaskId} {task : TaskId} : Move none held (.schedule task true) (some task) held
  | withdraw {held : Option TaskId} {task : TaskId} : Move (some task) held (.cancel task true) none held
  | claim {task : TaskId} : Move (some task) none .internal none (some task)
  | finish {slot : Option TaskId} {task : TaskId} : Move slot (some task) (.finish task) slot none
  | restore {task : TaskId} : Move none (some task) .internal (some task) none
  | stay {slot held : Option TaskId} {event : Event} : (∀ task, event ≠ .schedule task true ∧ event ≠ .cancel task true ∧
      event ≠ .finish task) → Move slot held event slot held

def here (place : Option TaskId) (task : TaskId) : Nat := if place = some task then 1 else 0

variable {s s' : System} {trace : List Event} {event : Event} {task : TaskId} {slot slot' held held' : Option TaskId}
  {call : RunCall} {success : Bool} {expected desired found : Option TaskId}

section Moves

@[simp] theorem held_returns : call.returns.held = none := by
  unfold RunCall.returns
  split <;> rfl

@[simp] theorem call_returns : call.returns.call = none := by
  unfold RunCall.returns
  split <;> rfl

theorem compareExchange_true (exchanged : compareExchange slot expected desired = (true,slot',found)) :
    slot = expected ∧ slot' = desired := by
  unfold compareExchange at exchanged
  split at exchanged <;> cases exchanged
  rename_i same
  exact ⟨same,rfl⟩

theorem compareExchange_false (refused : compareExchange slot expected desired = (false,slot',found)) :
    slot ≠ expected ∧ slot' = slot := by
  unfold compareExchange at refused
  split at refused <;> cases refused
  rename_i different
  exact ⟨different,rfl⟩

theorem tryCancel_true {manager manager' : PreemptionTaskManager} {token : Option TaskId}
    (canceled : manager.tryCancelScheduledPreemptionTask (some task) = (true,manager',token)) :
    manager.preemptTask = some task ∧ manager' = {manager with preemptTask := none} := by
  simp only [PreemptionTaskManager.tryCancelScheduledPreemptionTask,Prod.mk.injEq] at canceled
  obtain ⟨exchanged,rfl,-⟩ := canceled
  obtain ⟨full,emptied⟩ := compareExchange_true (Prod.ext exchanged rfl)
  exact ⟨full,by rw [emptied]⟩

theorem tryCancel_false {manager manager' : PreemptionTaskManager} {token : Option TaskId}
    (refused : manager.tryCancelScheduledPreemptionTask (some task) = (false,manager',token)) : manager' = manager := by
  simp only [PreemptionTaskManager.tryCancelScheduledPreemptionTask,Prod.mk.injEq] at refused
  obtain ⟨exchanged,rfl,-⟩ := refused
  obtain ⟨-,kept⟩ := compareExchange_false (Prod.ext exchanged rfl)
  rw [kept]

-- What keeps the exchanges from losing a task: the slot and the typechecking
-- thread hold only the task the processing thread waits for, and never both.
structure Custody (s : System) : Prop where
  slot : ∀ task, s.manager.preemptTask = some task → s.processor.owned = some task
  held : ∀ task, s.typechecker.held = some task → s.processor.owned = some task ∧ s.manager.preemptTask = none
  existing : ∀ call task existing, s.typechecker = .restoring call task existing → existing = none

theorem processor_moves (step : ProcessorStep s event s') :
    Move s.manager.preemptTask s.typechecker.held event s'.manager.preemptTask s'.typechecker.held := by
  cases step with
  | scheduleRefused => exact .stay (by simp)
  | scheduleChecked => exact .stay (by simp)
  | scheduleReset => exact .stay (by simp)
  | @schedule task success slot existingTask publishing exchange =>
    cases success with
    | false =>
      obtain ⟨-,kept⟩ := compareExchange_false exchange
      rw [kept]
      exact .stay (by simp)
    | true =>
      obtain ⟨empty,filled⟩ := compareExchange_true exchange
      simp only [empty,filled]
      exact .publish
  | @cancel task success manager token scheduled exchange =>
    cases success with
    | false =>
      rw [tryCancel_false exchange]
      exact .stay (by simp)
    | true =>
      obtain ⟨full,rfl⟩ := tryCancel_true exchange
      rw [full]
      exact .withdraw
  | wake => exact .stay (by simp)
  | tryCancelSlowPath => exact .stay (by simp)

theorem typechecker_moves (custody : Custody s) (step : TypecheckerStep s event s') :
    Move s.manager.preemptTask s.typechecker.held event s'.manager.preemptTask s'.typechecker.held := by
  cases step with
  | startCommitEpoch idle _ =>
    rw [idle]
    exact .stay (by simp)
  | call typechecking =>
    rw [typechecking]
    exact .stay (by simp)
  | commitSection typechecking _ _ =>
    rw [typechecking]
    exact .stay (by simp)
  | loadEmpty loading _ =>
    simp only [loading,held_returns]
    exact .stay (by simp)
  | @load call task loading _ =>
    have empty : (if call.allowReschedule then Typechecker.loaded call task else .claiming call task).held = none := by
      split <;> rfl
    simp only [loading,empty]
    exact .stay (by simp)
  | @stratum call task loaded =>
    have empty : (if call.currentStratum < s.manager.runnableAt then call.returns else .claiming call task).held = none := by
      split
      · exact held_returns
      · rfl
    simp only [loaded,empty]
    exact .stay (by simp)
  | @claim call task success slot preemptTask claiming exchange =>
    rw [claiming]
    cases success with
    | false =>
      obtain ⟨-,kept⟩ := compareExchange_false exchange
      simp only [kept,Bool.false_eq_true,if_false,held_returns]
      exact .stay (by simp)
    | true =>
      obtain ⟨full,emptied⟩ := compareExchange_true exchange
      simp only [full,emptied]
      exact .claim
  | run running =>
    rw [running]
    exact .stay (by simp)
  | finish ran _ =>
    simp only [ran,held_returns]
    exact .finish
  | reschedule ran _ _ =>
    rw [ran]
    exact .stay (by simp)
  | reload requeuing =>
    rw [requeuing]
    exact .stay (by simp)
  | @restore call task existing slot existingTask success restoring exchange =>
    have empty := custody.existing _ _ _ restoring
    have unoccupied := (custody.held task (by rw [restoring]; rfl)).2
    rw [unoccupied,empty] at exchange
    cases exchange
    simp only [unoccupied,restoring,held_returns]
    exact .restore

theorem step_moves (custody : Custody s) (step : Step s event s') :
    Move s.manager.preemptTask s.typechecker.held event s'.manager.preemptTask s'.typechecker.held := by
  rcases step with step | step
  · exact processor_moves step
  · exact typechecker_moves custody step

end Moves

end Preemption
end Lsp
