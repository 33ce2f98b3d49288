import ScipRuby.Lsp.PreemptionTasks

namespace Lsp
namespace Preemption
open Traces TypecheckEpochManager

variable {s s' : System} {trace : List Event} {event : Event} {task : TaskId} {slot slot' held held' : Option TaskId}
  {call : RunCall}

section Ledger

def settledTimes (trace : List Event) (task : TaskId) : Nat :=
  trace.count (.finish task) + trace.count (.cancel task true)

def scheduledTimes (trace : List Event) (task : TaskId) : Nat := trace.count (.schedule task true)

theorem settledTimes_push : settledTimes (trace ++ [event]) task =
    settledTimes trace task + (if event = .finish task then 1 else 0) + (if event = .cancel task true then 1 else 0) := by
  simp only [settledTimes,List.count_append,List.count_singleton,beq_iff_eq]
  omega

theorem scheduledTimes_push : scheduledTimes (trace ++ [event]) task =
    scheduledTimes trace task + (if event = .schedule task true then 1 else 0) := by
  simp only [scheduledTimes,List.count_append,List.count_singleton,beq_iff_eq]

-- Every scheduled task is settled, in the slot or in the hands of the typechecking
-- thread, in one of the three only.
theorem move_conserves (move : Move slot held event slot' held')
    (balance : settledTimes trace task + here slot task + here held task = scheduledTimes trace task) :
    settledTimes (trace ++ [event]) task + here slot' task + here held' task = scheduledTimes (trace ++ [event]) task := by
  rw [settledTimes_push,scheduledTimes_push]
  cases move with
  | publish =>
    simp only [here,reduceCtorEq,if_false,Event.schedule.injEq,and_true,Option.some.injEq] at balance ⊢
    omega
  | withdraw =>
    simp only [here,reduceCtorEq,if_false,Event.cancel.injEq,and_true,Option.some.injEq] at balance ⊢
    omega
  | claim =>
    simp only [here,reduceCtorEq,if_false] at balance ⊢
    omega
  | finish =>
    simp only [here,reduceCtorEq,if_false,Event.finish.injEq,Option.some.injEq] at balance ⊢
    omega
  | restore =>
    simp only [here,reduceCtorEq,if_false] at balance ⊢
    omega
  | stay silent =>
    obtain ⟨unscheduled,uncanceled,unfinished⟩ := silent task
    simp only [unscheduled,uncanceled,unfinished,if_false]
    omega

structure Ledger (trace : List Event) (s : System) : Prop where
  balance : ∀ task, settledTimes trace task + here s.manager.preemptTask task + here s.typechecker.held task =
    scheduledTimes trace task
  made : ∀ task, scheduledTimes trace task ≤ if task < s.nextTask then 1 else 0
  pending : ∀ task, s.processor = .scheduling task ∨ s.processor = .publishing task →
    scheduledTimes trace task = 0 ∧ task < s.nextTask
  notified : ∀ task ∈ s.notified,Event.finish task ∈ trace

theorem Ledger.once (ledger : Ledger trace s) : scheduledTimes trace task ≤ 1 := by
  have made := ledger.made task
  split at made <;> omega

theorem here_self : here (some task) task = 1 := if_pos rfl

theorem Ledger.unsettled_slot (ledger : Ledger trace s) (full : s.manager.preemptTask = some task) :
    settledTimes trace task = 0 := by
  have balance := ledger.balance task
  have once : scheduledTimes trace task ≤ 1 := ledger.once
  rw [full,here_self] at balance
  omega

theorem Ledger.unsettled_held (ledger : Ledger trace s) (full : s.typechecker.held = some task) :
    settledTimes trace task = 0 := by
  have balance := ledger.balance task
  have once : scheduledTimes trace task ≤ 1 := ledger.once
  rw [full,here_self] at balance
  omega

theorem settledTimes_finish (finished : Event.finish task ∈ trace) : 0 < settledTimes trace task :=
  Nat.add_pos_left (List.count_pos_iff.mpr finished) _

theorem typechecker_frame (step : TypecheckerStep s event s') :
    s'.processor = s.processor ∧ s'.nextTask = s.nextTask ∧ (∀ task success, event ≠ .schedule task success) ∧
      ∀ task ∈ s'.notified,task ∈ s.notified ∨ event = .finish task := by
  cases step with
  | finish =>
    refine ⟨rfl,rfl,by simp,?_⟩
    intro task present
    rcases List.mem_cons.mp present with rfl | earlier
    · exact .inr rfl
    · exact .inl earlier
  | _ => exact ⟨rfl,rfl,by simp,fun _ => .inl⟩

theorem processor_frame (step : ProcessorStep s event s') :
    s'.typechecker = s.typechecker ∧ s'.notified = s.notified := by
  cases step <;> exact ⟨rfl,rfl⟩

-- A task is made for one schedule call only.
theorem processor_made (ledger : Ledger trace s) (step : ProcessorStep s event s') :
    (∀ task, scheduledTimes (trace ++ [event]) task ≤ if task < s'.nextTask then 1 else 0) ∧
    ∀ task, s'.processor = .scheduling task ∨ s'.processor = .publishing task →
      scheduledTimes (trace ++ [event]) task = 0 ∧ task < s'.nextTask := by
  have unmade : scheduledTimes trace s.nextTask = 0 := by
    have made := ledger.made s.nextTask
    rw [if_neg (Nat.lt_irrefl _)] at made
    exact Nat.le_zero.mp made
  have later : ∀ task, scheduledTimes trace task ≤ if task < s.nextTask + 1 then 1 else 0 := by
    intro task
    have made := ledger.made task
    by_cases old : task < s.nextTask
    · rw [if_pos (Nat.lt_succ_of_lt old)]
      exact ledger.once
    · rw [if_neg old] at made
      exact Nat.le_trans made (Nat.zero_le _)
  simp only [scheduledTimes_push]
  cases step with
  | scheduleRefused free _ =>
    refine ⟨fun task => by simpa using later task,fun task busy => ?_⟩
    simp [free] at busy
  | scheduleChecked _ _ =>
    refine ⟨fun task => by simpa using later task,fun task busy => ?_⟩
    simp only [Processor.scheduling.injEq,reduceCtorEq,or_false] at busy
    subst busy
    simpa using unmade
  | scheduleReset scheduling =>
    refine ⟨fun task => by simpa using ledger.made task,fun task busy => ?_⟩
    simp only [Processor.publishing.injEq,reduceCtorEq,false_or] at busy
    subst busy
    simpa using ledger.pending _ (.inl scheduling)
  | @schedule task success slot existingTask publishing exchange =>
    obtain ⟨unscheduled,old⟩ := ledger.pending task (.inr publishing)
    refine ⟨fun other => ?_,fun other busy => ?_⟩
    · by_cases same : other = task
      · subst same
        rw [if_pos old,unscheduled]
        split <;> omega
      · have distinct : Event.schedule task success ≠ .schedule other true := by
          intro equal
          exact same (Event.schedule.inj equal).1.symm
        rw [if_neg distinct]
        exact ledger.made other
    · cases success <;> simp at busy
  | @cancel task success manager token scheduled _ =>
    refine ⟨fun task => by simpa using ledger.made task,fun task busy => ?_⟩
    cases success <;> simp at busy
  | wake =>
    refine ⟨fun task => by simpa using ledger.made task,fun task busy => ?_⟩
    simp at busy
  | tryCancelSlowPath =>
    refine ⟨fun task => by simpa using ledger.made task,fun task busy => ?_⟩
    simpa using ledger.pending task busy

theorem ledger_step (custody : Custody s) (ledger : Ledger trace s) (step : Step s event s') :
    Ledger (trace ++ [event]) s' := by
  have balance : ∀ task, settledTimes (trace ++ [event]) task + here s'.manager.preemptTask task +
      here s'.typechecker.held task = scheduledTimes (trace ++ [event]) task :=
    fun task => move_conserves (step_moves custody step) (ledger.balance task)
  rcases step with step | step
  · obtain ⟨made,pending⟩ := processor_made ledger step
    refine ⟨balance,made,pending,?_⟩
    rw [(processor_frame step).2]
    exact fun task told => List.mem_append_left _ (ledger.notified task told)
  · obtain ⟨processor,nextTask,unscheduled,told⟩ := typechecker_frame step
    have same : ∀ task, scheduledTimes (trace ++ [event]) task = scheduledTimes trace task := by
      intro task
      rw [scheduledTimes_push,if_neg (unscheduled task true),Nat.add_zero]
    refine ⟨balance,?_,?_,?_⟩
    · simpa only [same,nextTask] using ledger.made
    · simpa only [same,nextTask,processor] using ledger.pending
    · intro task present
      rcases told task present with earlier | rfl
      · exact List.mem_append_left _ (ledger.notified task earlier)
      · simp

end Ledger

section Custody

theorem Custody.frame (custody : Custody s) (slot : s'.manager.preemptTask = s.manager.preemptTask)
    (typechecker : s'.typechecker = s.typechecker) (owned : s'.processor.owned = s.processor.owned) : Custody s' where
  slot := by simpa only [slot,owned] using custody.slot
  held := by simpa only [slot,owned,typechecker] using custody.held
  existing := by simpa only [typechecker] using custody.existing

theorem Custody.slot_none (custody : Custody s) (unowned : s.processor.owned = none) : s.manager.preemptTask = none := by
  cases full : s.manager.preemptTask with
  | none => rfl
  | some task =>
    rw [custody.slot task full] at unowned
    cases unowned

theorem Custody.held_none (custody : Custody s) (unowned : s.processor.owned = none) : s.typechecker.held = none := by
  cases full : s.typechecker.held with
  | none => rfl
  | some task =>
    rw [(custody.held task full).1] at unowned
    cases unowned

theorem custody_processor (custody : Custody s) (ledger : Ledger trace s) (step : ProcessorStep s event s') :
    Custody s' := by
  cases step with
  | scheduleRefused => exact custody.frame rfl rfl rfl
  | scheduleChecked free _ => exact custody.frame rfl rfl (by rw [free]; rfl)
  | scheduleReset scheduling => exact custody.frame rfl rfl (by rw [scheduling]; rfl)
  | @schedule task success slot existingTask publishing exchange =>
    have unowned : s.processor.owned = none := by rw [publishing]; rfl
    cases success with
    | false =>
      obtain ⟨occupied,-⟩ := compareExchange_false exchange
      exact absurd (custody.slot_none unowned) occupied
    | true =>
      obtain ⟨-,rfl⟩ := compareExchange_true exchange
      refine ⟨fun other full => full,fun other full => ?_,custody.existing⟩
      rw [custody.held_none unowned] at full
      cases full
  | @cancel task success manager token scheduled exchange =>
    cases success with
    | false =>
      rw [tryCancel_false exchange]
      exact custody.frame rfl rfl (by rw [scheduled]; rfl)
    | true =>
      obtain ⟨full,rfl⟩ := tryCancel_true exchange
      refine ⟨fun other impossible => (by cases impossible),fun other occupied => ?_,custody.existing⟩
      rw [(custody.held other occupied).2] at full
      cases full
  | @wake task awaiting told =>
    have settled := settledTimes_finish (ledger.notified task told)
    have owned : s.processor.owned = some task := by rw [awaiting]; rfl
    refine ⟨fun other full => ?_,fun other full => ?_,custody.existing⟩
    · have same : some task = some other := owned.symm.trans (custody.slot other full)
      cases same
      rw [ledger.unsettled_slot full] at settled
      cases settled
    · have same : some task = some other := owned.symm.trans (custody.held other full).1
      cases same
      rw [ledger.unsettled_held full] at settled
      cases settled
  | tryCancelSlowPath => exact custody.frame rfl rfl rfl

-- A typechecking thread with empty hands that leaves the slot alone.
theorem Custody.handsFree (custody : Custody s) (slot : s'.manager.preemptTask = s.manager.preemptTask)
    (processor : s'.processor = s.processor) (held : s'.typechecker.held = none) : Custody s' where
  slot := by simpa only [slot,processor] using custody.slot
  held := by
    intro task full
    rw [held] at full
    cases full
  existing := by
    intro call task existing restoring
    rw [restoring] at held
    cases held

theorem custody_typechecker (custody : Custody s) (step : TypecheckerStep s event s') : Custody s' := by
  cases step with
  | startCommitEpoch => exact custody.handsFree rfl rfl rfl
  | call => exact custody.handsFree rfl rfl rfl
  | commitSection => exact custody.handsFree rfl rfl rfl
  | loadEmpty => exact custody.handsFree rfl rfl held_returns
  | load => exact custody.handsFree rfl rfl (by dsimp only; split <;> rfl)
  | stratum =>
    refine custody.handsFree rfl rfl ?_
    dsimp only
    split
    · exact held_returns
    · rfl
  | @claim call task success slot preemptTask claiming exchange =>
    cases success with
    | false =>
      obtain ⟨-,rfl⟩ := compareExchange_false exchange
      exact custody.handsFree rfl rfl held_returns
    | true =>
      obtain ⟨full,rfl⟩ := compareExchange_true exchange
      refine ⟨fun other impossible => (by cases impossible),fun other occupied => ?_,?_⟩
      · cases occupied
        exact ⟨custody.slot task full,rfl⟩
      · intro call task existing impossible
        cases impossible
  | @run call task result running =>
    refine ⟨custody.slot,fun other full => ?_,fun call task existing impossible => (by cases impossible)⟩
    exact custody.held other (by rw [running]; exact full)
  | finish => exact custody.handsFree rfl rfl held_returns
  | reschedule ran _ _ =>
    refine ⟨custody.slot,fun other full => ?_,fun call task existing impossible => (by cases impossible)⟩
    exact custody.held other (by rw [ran]; exact full)
  | @reload call task requeuing =>
    have empty := (custody.held task (by rw [requeuing]; rfl)).2
    refine ⟨custody.slot,fun other full => ?_,?_⟩
    · exact custody.held other (by rw [requeuing]; exact full)
    · intro call other existing restoring
      cases restoring
      exact empty
  | @restore call task existing slot existingTask success restoring exchange =>
    obtain ⟨owned,unoccupied⟩ := custody.held task (by rw [restoring]; rfl)
    rw [unoccupied,custody.existing _ _ _ restoring] at exchange
    cases exchange
    refine ⟨fun other full => ?_,fun other full => ?_,?_⟩
    · cases full
      exact owned
    · simp at full
    · intro call other existing again
      have holding := congrArg Typechecker.held again
      rw [held_returns] at holding
      cases holding

theorem custody_step (custody : Custody s) (ledger : Ledger trace s) (step : Step s event s') : Custody s' := by
  rcases step with step | step
  · exact custody_processor custody ledger step
  · exact custody_typechecker custody step

end Custody

section Draining

-- The phases only a call that may reschedule passes through.
def Typechecker.deferring : Typechecker → Option RunCall
  | .loaded call _ | .requeuing call _ | .restoring call .. => some call
  | .idle | .typechecking _ | .loading _ | .claiming .. | .running .. | .ran .. => none

-- Past the commit section nothing more is scheduled, and the last call empties the slot.
structure Draining (s : System) : Prop where
  settled : s.typechecker.PastCommit → s.epochs.Settled
  locked : ¬s.processor.Unlocked → s.epochs.currentlyProcessingLSPEpoch ≠ s.epochs.lastCommittedLSPEpoch
  idle : s.typechecker = .idle → s.manager.preemptTask = none
  final : ∀ call, s.typechecker.call = some call → call.inside = none → call.allowReschedule = false
  deferring : ∀ call, s.typechecker.deferring = some call → call.inside ≠ none
  claiming : ∀ call task, s.typechecker = .claiming call task → call.inside = none →
    s.manager.preemptTask = none ∨ s.manager.preemptTask = some task

theorem Draining.unlocked (draining : Draining s) (past : s.typechecker.PastCommit) : s.processor.Unlocked := by
  by_contra locked
  exact draining.locked locked (draining.settled past).1

theorem mayPreempt_running (may : mayPreempt s.epochs.getStatus s.manager.preemptTask = true) :
    s.epochs.currentlyProcessingLSPEpoch ≠ s.epochs.lastCommittedLSPEpoch := by
  intro same
  simp [mayPreempt,getStatus,same] at may

theorem processor_slot (step : ProcessorStep s event s') (unlocked : s.processor.Unlocked) :
    s'.manager.preemptTask = s.manager.preemptTask ∨ s'.manager.preemptTask = none := by
  cases step with
  | schedule publishing _ =>
    rw [publishing] at unlocked
    exact unlocked.elim
  | @cancel task success manager token scheduled exchange =>
    cases success with
    | false => exact .inl (by rw [tryCancel_false exchange])
    | true => exact .inr (by rw [(tryCancel_true exchange).2])
  | _ => exact .inl rfl

theorem processor_epochs (step : ProcessorStep s event s') :
    s'.epochs.currentlyProcessingLSPEpoch = s.epochs.currentlyProcessingLSPEpoch ∧
      s'.epochs.lastCommittedLSPEpoch = s.epochs.lastCommittedLSPEpoch ∧ (s.epochs.Settled → s'.epochs.Settled) := by
  cases step with
  | @tryCancelSlowPath newEpoch canceled epochs _ tried =>
    cases canceled with
    | false =>
      rw [tryCancelSlowPath_false tried]
      exact ⟨rfl,rfl,id⟩
    | true =>
      obtain ⟨-,running,rfl⟩ := tryCancelSlowPath_true tried
      exact ⟨rfl,rfl,fun settled => absurd settled.1 running⟩
  | _ => exact ⟨rfl,rfl,id⟩

theorem draining_processor (draining : Draining s) (step : ProcessorStep s event s') : Draining s' := by
  obtain ⟨processing,committed,settled⟩ := processor_epochs step
  have same := (processor_frame step).1
  have drains : s.typechecker.PastCommit →
      s'.manager.preemptTask = s.manager.preemptTask ∨ s'.manager.preemptTask = none :=
    fun past => processor_slot step (draining.unlocked past)
  refine ⟨?_,?_,?_,?_,?_,?_⟩
  · intro past
    rw [same] at past
    exact settled (draining.settled past)
  · rw [processing,committed]
    intro locked
    cases step with
    | scheduleChecked _ may => exact mayPreempt_running may
    | scheduleReset scheduling =>
      apply draining.locked
      rw [scheduling]
      exact id
    | @schedule task success slot existingTask publishing _ =>
      apply draining.locked
      rw [publishing]
      exact id
    | @cancel task success manager token scheduled exchange =>
      cases success <;> exact absurd trivial locked
    | wake => exact absurd trivial locked
    | scheduleRefused => exact draining.locked locked
    | tryCancelSlowPath => exact draining.locked locked
  · intro idle
    rw [same] at idle
    rcases drains (.inl idle) with kept | emptied
    · rw [kept]
      exact draining.idle idle
    · exact emptied
  · rw [same]
    exact draining.final
  · rw [same]
    exact draining.deferring
  · intro call task claiming last
    rw [same] at claiming
    rcases drains (.inr ⟨call,by rw [claiming]; rfl,last⟩) with kept | emptied
    · rw [kept]
      exact draining.claiming call task claiming last
    · exact .inl emptied

theorem pastCommit_returns (past : call.returns.PastCommit) : call.inside = none := by
  rcases past with idle | ⟨other,calling,-⟩
  · unfold RunCall.returns at idle
    split at idle
    · cases idle
    · assumption
  · rw [call_returns] at calling
    cases calling

@[simp] theorem deferring_returns : call.returns.deferring = none := by
  unfold RunCall.returns
  split <;> rfl

-- The call returns; the last one must leave the slot empty.
theorem Draining.returns (draining : Draining s) (calling : s.typechecker.call = some call)
    (epochs : s'.epochs = s.epochs) (processor : s'.processor = s.processor) (returned : s'.typechecker = call.returns)
    (emptied : call.inside = none → s'.manager.preemptTask = none) : Draining s' where
  settled := by
    intro past
    rw [returned] at past
    rw [epochs]
    exact draining.settled (.inr ⟨call,calling,pastCommit_returns past⟩)
  locked := by
    rw [epochs,processor]
    exact draining.locked
  idle := by
    intro idle
    exact emptied (pastCommit_returns (.inl (returned.symm.trans idle)))
  final := by
    intro other called
    rw [returned,call_returns] at called
    cases called
  deferring := by
    intro other deferred
    rw [returned,deferring_returns] at deferred
    cases deferred
  claiming := by
    intro other task claiming
    have called := congrArg Typechecker.call (returned.symm.trans claiming)
    rw [call_returns] at called
    cases called

-- The call goes on to another of its phases.
theorem Draining.within (draining : Draining s) (calling : s.typechecker.call = some call)
    (epochs : s'.epochs = s.epochs) (processor : s'.processor = s.processor) (called : s'.typechecker.call = some call)
    (deferring : s'.typechecker.deferring ≠ none → call.inside ≠ none)
    (claiming : ∀ task, s'.typechecker = .claiming call task → call.inside = none →
      s'.manager.preemptTask = none ∨ s'.manager.preemptTask = some task) : Draining s' where
  settled := by
    intro past
    rw [epochs]
    apply draining.settled
    rcases past with idle | ⟨other,same,last⟩
    · rw [idle] at called
      cases called
    · rw [called] at same
      cases same
      exact .inr ⟨call,calling,last⟩
  locked := by
    rw [epochs,processor]
    exact draining.locked
  idle := by
    intro idle
    rw [idle] at called
    cases called
  final := by
    rw [called,←calling]
    exact draining.final
  deferring := by
    intro other deferred
    have same : s'.typechecker.call = some other := by
      revert deferred
      cases s'.typechecker <;> simp [Typechecker.deferring,Typechecker.call]
    rw [called] at same
    cases same
    exact deferring (by rw [deferred]; simp)
  claiming := by
    intro other task claimed
    have same := called
    rw [claimed] at same
    cases same
    exact claiming task claimed

theorem draining_typechecker (custody : Custody s) (draining : Draining s) (step : TypecheckerStep s event s') :
    Draining s' := by
  cases step with
  | startCommitEpoch idle unlocked =>
    refine ⟨?_,fun locked => absurd unlocked locked,fun impossible => (by cases impossible),
      fun call impossible => (by cases impossible),fun call impossible => (by cases impossible),
      fun call task impossible => (by cases impossible)⟩
    rintro (idle | ⟨call,impossible,-⟩)
    · cases idle
    · cases impossible
  | call typechecking =>
    refine ⟨?_,draining.locked,fun impossible => (by cases impossible),?_,fun call impossible => (by cases impossible),
      fun call task impossible => (by cases impossible)⟩
    · rintro (idle | ⟨call,same,last⟩)
      · cases idle
      · cases same
        cases last
    · intro call same last
      cases same
      cases last
  | commitSection typechecking unlocked section_ =>
    refine ⟨fun _ => commitSection_settled section_,fun locked => absurd unlocked locked,
      fun impossible => (by cases impossible),?_,fun call impossible => (by cases impossible),
      fun call task impossible => (by cases impossible)⟩
    intro call same _
    cases same
    rfl
  | loadEmpty loading empty =>
    exact draining.returns (by rw [loading]; rfl) rfl rfl rfl (fun _ => empty)
  | @load call task loading full =>
    have calling : s.typechecker.call = some call := by rw [loading]; rfl
    cases allow : call.allowReschedule with
    | true =>
      refine draining.within calling rfl rfl rfl ?_ (fun task impossible => (by cases impossible))
      intro _ last
      rw [draining.final call calling last] at allow
      cases allow
    | false =>
      refine draining.within calling rfl rfl rfl (fun impossible => absurd rfl impossible) ?_
      intro other same _
      cases same
      exact .inr full
  | @stratum call task loaded =>
    have calling : s.typechecker.call = some call := by rw [loaded]; rfl
    have inside : call.inside ≠ none := draining.deferring call (by rw [loaded]; rfl)
    by_cases early : call.currentStratum < s.manager.runnableAt
    · exact draining.returns calling rfl rfl (if_pos early) (fun last => absurd last inside)
    · refine draining.within calling rfl rfl (by simp only [if_neg early]; rfl) (fun _ => inside) ?_
      exact fun _ _ last => absurd last inside
  | @claim call task success slot preemptTask claiming exchange =>
    have calling : s.typechecker.call = some call := by rw [claiming]; rfl
    cases success with
    | false =>
      obtain ⟨different,rfl⟩ := compareExchange_false exchange
      refine draining.returns calling rfl rfl rfl (fun last => ?_)
      rcases draining.claiming call task claiming last with empty | full
      · exact empty
      · exact absurd full different
    | true =>
      refine draining.within calling rfl rfl rfl (fun impossible => absurd rfl impossible) ?_
      exact fun task impossible => (by cases impossible)
  | run running =>
    refine draining.within (by rw [running]; rfl) rfl rfl rfl (fun impossible => absurd rfl impossible) ?_
    exact fun task impossible => (by cases impossible)
  | @finish call task result ran _ =>
    refine draining.returns (by rw [ran]; rfl) rfl rfl rfl (fun _ => ?_)
    exact (custody.held task (by rw [ran]; rfl)).2
  | @reschedule call task result stratum ran allow _ =>
    have calling : s.typechecker.call = some call := by rw [ran]; rfl
    refine draining.within calling rfl rfl rfl ?_ (fun task impossible => (by cases impossible))
    intro _ last
    rw [draining.final call calling last] at allow
    cases allow
  | @reload call task requeuing =>
    have inside : call.inside ≠ none := draining.deferring call (by rw [requeuing]; rfl)
    refine draining.within (by rw [requeuing]; rfl) rfl rfl rfl (fun _ => inside) ?_
    exact fun task impossible => (by cases impossible)
  | @restore call task existing slot existingTask success restoring _ =>
    have inside : call.inside ≠ none := draining.deferring call (by rw [restoring]; rfl)
    exact draining.returns (by rw [restoring]; rfl) rfl rfl rfl (fun last => absurd last inside)

end Draining

section Runs

structure Inv (trace : List Event) (s : System) : Prop where
  ledger : Ledger trace s
  custody : Custody s
  draining : Draining s

theorem initial_inv : Inv [] {} where
  ledger := ⟨fun _ => rfl,fun _ => Nat.zero_le _,fun _ busy => (by rcases busy with busy | busy <;> cases busy),
    fun _ impossible => (by cases impossible)⟩
  custody := ⟨fun _ impossible => (by cases impossible),fun _ impossible => (by cases impossible),
    fun _ _ _ impossible => (by cases impossible)⟩
  draining := ⟨fun _ => ⟨rfl,rfl⟩,fun locked => absurd trivial locked,fun _ => rfl,
    fun _ impossible => (by cases impossible),fun _ impossible => (by cases impossible),
    fun _ _ impossible => (by cases impossible)⟩

theorem step_inv (inv : Inv trace s) (step : Step s event s') : Inv (trace ++ [event]) s' where
  ledger := ledger_step inv.custody inv.ledger step
  custody := custody_step inv.custody inv.ledger step
  draining := by
    rcases step with step | step
    · exact draining_processor inv.draining step
    · exact draining_typechecker inv.custody inv.draining step

theorem run_inv (ran : Runs Step {} trace s) : Inv trace s := by
  apply ran.history
  · exact initial_inv
  · intro trace t event u inv step
    exact step_inv inv step

-- finish() and a successful cancelation settle a task.
def Event.Settles (task : TaskId) (event : Event) : Prop := event = .finish task ∨ event = .cancel task true

theorem settledTimes_pos (settles : event.Settles task) (present : event ∈ trace) : 0 < settledTimes trace task := by
  rcases settles with rfl | rfl
  · exact settledTimes_finish present
  · exact Nat.add_pos_right _ (List.count_pos_iff.mpr present)

theorem run_unsettled {stratum : Stratum} {result : RunResult} (ran : Runs Step {} (trace ++ [.run task stratum result]) s) :
    settledTimes trace task = 0 := by
  obtain ⟨t,earlier,step⟩ := ran.last
  rcases step with step | step
  · cases step
  · cases step with
    | run running => exact (run_inv earlier).ledger.unsettled_held (by rw [running]; rfl)

-- The epoch lock is given back after finitely many steps of its holder.
theorem reaches_unlocked (typechecker : Typechecker) (same : s.typechecker = typechecker) :
    Reaches Step s (fun t => t.typechecker = typechecker ∧ t.processor.Unlocked) := by
  have publish : ∀ t : System, ∀ task, t.typechecker = typechecker → t.processor = .publishing task →
      Reaches Step t (fun u => u.typechecker = typechecker ∧ u.processor.Unlocked) := by
    intro t task same publishing
    refine Reaches.step (.inl (.schedule publishing rfl)) (.here ⟨same,?_⟩)
    dsimp only
    split <;> trivial
  cases busy : s.processor with
  | scheduling task => exact Reaches.step (.inl (.scheduleReset busy)) (publish _ task same rfl)
  | publishing task => exact publish s task same busy
  | _ => exact .here ⟨same,by rw [busy]; trivial⟩

-- A call returns after finitely many steps; a task in hand is run to its end.
theorem reaches_return (calling : s.typechecker.call = some call) :
    Reaches Step s (fun t => t.typechecker = call.returns) := by
  have ran : ∀ t : System, ∀ task, t.typechecker = .ran call task {} →
      Reaches Step t (fun u => u.typechecker = call.returns) :=
    fun t task ran => Reaches.step (.inr (.finish ran (Bool.and_false _))) (.here rfl)
  have running : ∀ t : System, ∀ task, t.typechecker = .running call task →
      Reaches Step t (fun u => u.typechecker = call.returns) :=
    fun t task running => Reaches.step (.inr (.run running)) (ran _ task rfl)
  have claiming : ∀ t : System, ∀ task, t.typechecker = .claiming call task →
      Reaches Step t (fun u => u.typechecker = call.returns) := by
    intro t task claiming
    obtain ⟨⟨success,slot,found⟩,attempt⟩ : ∃ outcome, compareExchange t.manager.preemptTask (some task) none = outcome :=
      ⟨_,rfl⟩
    refine Reaches.step (.inr (.claim claiming attempt)) ?_
    cases success with
    | false => exact .here rfl
    | true => exact running _ task rfl
  have loaded : ∀ t : System, ∀ task, t.typechecker = .loaded call task →
      Reaches Step t (fun u => u.typechecker = call.returns) := by
    intro t task loaded
    refine Reaches.step (.inr (.stratum loaded)) ?_
    by_cases early : call.currentStratum < t.manager.runnableAt
    · exact .here (if_pos early)
    · exact claiming _ task (if_neg early)
  have restoring : ∀ t : System, ∀ task existing, t.typechecker = .restoring call task existing →
      Reaches Step t (fun u => u.typechecker = call.returns) :=
    fun t task existing restoring => Reaches.step (.inr (.restore restoring rfl)) (.here rfl)
  have requeuing : ∀ t : System, ∀ task, t.typechecker = .requeuing call task →
      Reaches Step t (fun u => u.typechecker = call.returns) :=
    fun t task requeuing => Reaches.step (.inr (.reload requeuing)) (restoring _ task _ rfl)
  cases phase : s.typechecker <;> rw [phase] at calling <;> cases calling
  case loading =>
    cases slot : s.manager.preemptTask with
    | none => exact Reaches.step (.inr (.loadEmpty phase slot)) (.here rfl)
    | some task =>
      refine Reaches.step (.inr (.load phase slot)) ?_
      cases allow : call.allowReschedule with
      | false => exact claiming _ task rfl
      | true => exact loaded _ task rfl
  case loaded task => exact loaded s task phase
  case claiming task => exact claiming s task phase
  case running task => exact running s task phase
  case ran task result =>
    cases again : call.allowReschedule && result.rescheduled.isSome with
    | false => exact Reaches.step (.inr (.finish phase again)) (.here rfl)
    | true =>
      obtain ⟨allow,some_⟩ := Bool.and_eq_true_iff.mp again
      obtain ⟨stratum,rescheduled⟩ := Option.isSome_iff_exists.mp some_
      exact Reaches.step (.inr (.reschedule phase allow rescheduled)) (requeuing _ task rfl)
  case requeuing task => exact requeuing s task phase
  case restoring task existing => exact restoring s task existing phase

theorem reaches_idle (s : System) : Reaches Step s (fun t => t.typechecker = .idle) := by
  have last : ∀ t : System, ∀ call, t.typechecker.call = some call → call.inside = none →
      Reaches Step t (fun u => u.typechecker = .idle) := by
    intro t call calling outside
    apply (reaches_return calling).trans
    intro u returned
    exact .here (by rw [returned,RunCall.returns,outside])
  have commit : ∀ t : System, ∀ epoch, t.typechecker = .typechecking epoch →
      Reaches Step t (fun u => u.typechecker = .idle) := by
    intro t epoch typechecking
    apply (reaches_unlocked _ typechecking).trans
    rintro u ⟨typechecking,unlocked⟩
    exact Reaches.step (.inr (@TypecheckerStep.commitSection u epoch 0 _ _ typechecking unlocked rfl)) (last _ _ rfl rfl)
  cases calling : s.typechecker.call with
  | none =>
    cases phase : s.typechecker <;> rw [phase] at calling <;> cases calling
    case none.idle.refl => exact .here phase
    case none.typechecking.refl epoch => exact commit s epoch phase
  | some call =>
    cases inside : call.inside with
    | none => exact last s call calling inside
    | some epoch =>
      apply (reaches_return calling).trans
      intro t returned
      exact commit t epoch (by rw [returned,RunCall.returns,inside])

-- In every interleaving a scheduled task is in the slot, in the hands of the
-- typechecking thread or settled, in one of the three once; it is not run after it
-- is settled. tryCommitEpoch can always return, and whenever it has, the slot is
-- empty and every scheduled task has been finished or canceled exactly once.
theorem tasks_settled_once (ran : Runs Step {} trace s) :
    (∀ task, settledTimes trace task + here s.manager.preemptTask task + here s.typechecker.held task =
      scheduledTimes trace task ∧ scheduledTimes trace task ≤ 1) ∧
    (∀ task before event after, trace = before ++ event :: after → event.Settles task →
      ∀ stratum result, Event.run task stratum result ∉ after) ∧
    (s.typechecker = .idle → s.manager.preemptTask = none ∧
      ∀ task, Event.schedule task true ∈ trace → settledTimes trace task = 1) ∧
    Reaches Step s (fun t => t.typechecker = .idle) := by
  have inv := run_inv ran
  refine ⟨fun task => ⟨inv.ledger.balance task,inv.ledger.once⟩,?_,?_,reaches_idle s⟩
  · intro task before event after whole settles stratum result again
    obtain ⟨first,rest,rfl⟩ := List.append_of_mem again
    have shape : trace = ((before ++ event :: first) ++ [Event.run task stratum result]) ++ rest := by simp [whole]
    rw [shape] at ran
    obtain ⟨t,ran,-⟩ := ran.split
    have settled : 0 < settledTimes (before ++ event :: first) task := settledTimes_pos settles (by simp)
    rw [run_unsettled ran] at settled
    cases settled
  · intro idle
    have empty := inv.draining.idle idle
    refine ⟨empty,?_⟩
    intro task scheduled
    have balance := inv.ledger.balance task
    have once : scheduledTimes trace task ≤ 1 := inv.ledger.once
    have positive : 0 < scheduledTimes trace task := List.count_pos_iff.mpr scheduled
    simp only [empty,idle,Typechecker.held,here,reduceCtorEq,if_false] at balance
    omega

-- A task scheduled just before the commit section asks to be rescheduled in the
-- last call, and is finished all the same.
theorem tasks_settled_once_drained :
    settledTimes [.startCommitEpoch 1,.internal,.internal,.schedule 0 true,.commitSection true,.internal,.internal,
      .run 0 5 {rescheduled := some 7},.finish 0] 0 = 1 := by
  have scheduled : Runs Step {} [.startCommitEpoch 1,.internal,.internal,.schedule 0 true]
      ⟨⟨1,1,0⟩,⟨some 0,0⟩,.typechecking 1,.scheduled 0,1,[]⟩ :=
    (((Runs.nil.snoc (.inr (.startCommitEpoch rfl trivial))).snoc (.inl (.scheduleChecked rfl rfl))).snoc
      (.inl (.scheduleReset rfl))).snoc (.inl (.schedule rfl rfl))
  have committed : Step ⟨⟨1,1,0⟩,⟨some 0,0⟩,.typechecking 1,.scheduled 0,1,[]⟩ (.commitSection true)
      ⟨⟨1,1,1⟩,⟨some 0,0⟩,.loading ⟨5,false,none⟩,.scheduled 0,1,[]⟩ := .inr (.commitSection rfl trivial rfl)
  have loaded : Step ⟨⟨1,1,1⟩,⟨some 0,0⟩,.loading ⟨5,false,none⟩,.scheduled 0,1,[]⟩ .internal
      ⟨⟨1,1,1⟩,⟨some 0,0⟩,.claiming ⟨5,false,none⟩ 0,.scheduled 0,1,[]⟩ :=
    .inr (@TypecheckerStep.load ⟨⟨1,1,1⟩,⟨some 0,0⟩,.loading ⟨5,false,none⟩,.scheduled 0,1,[]⟩ ⟨5,false,none⟩ 0 rfl rfl)
  have claimed : Step ⟨⟨1,1,1⟩,⟨some 0,0⟩,.claiming ⟨5,false,none⟩ 0,.scheduled 0,1,[]⟩ .internal
      ⟨⟨1,1,1⟩,⟨none,0⟩,.running ⟨5,false,none⟩ 0,.scheduled 0,1,[]⟩ :=
    .inr (@TypecheckerStep.claim ⟨⟨1,1,1⟩,⟨some 0,0⟩,.claiming ⟨5,false,none⟩ 0,.scheduled 0,1,[]⟩ ⟨5,false,none⟩ 0 true none (some 0) rfl rfl)
  have finished : Runs Step {} [.startCommitEpoch 1,.internal,.internal,.schedule 0 true,.commitSection true,.internal,
      .internal,.run 0 5 {rescheduled := some 7},.finish 0] ⟨⟨1,1,1⟩,⟨none,0⟩,.idle,.scheduled 0,1,[0]⟩ :=
    ((((scheduled.snoc committed).snoc loaded).snoc claimed).snoc (.inr (.run rfl))).snoc
      (.inr (@TypecheckerStep.finish ⟨⟨1,1,1⟩,⟨none,0⟩,.ran ⟨5,false,none⟩ 0 {rescheduled := some 7},.scheduled 0,1,[]⟩
        ⟨5,false,none⟩ 0 {rescheduled := some 7} rfl rfl))
  exact ((tasks_settled_once finished).2.2.1 rfl).2 0 (by decide)

end Runs

end Preemption
end Lsp
