import ScipRuby.Lsp.EditProtocol

namespace Lsp
namespace Edits
open Patches Traces TypecheckEpochManager

variable {config : LSPConfiguration} {s s' : System} {event : Event} {edit : SorbetWorkspaceEditParams}
  {update update' : LSPFileUpdates} {evicted : EvictedFiles} {table : FileTable}

section Notions

def System.canceled (s : System) : Bool := s.epochs.currentlyProcessingLSPEpoch != s.epochs.lspEpochInvalidator

-- The table that a cancelation brings back.
def System.base (s : System) : FileTable :=
  match s.phase with
  | .idle | .started _ => s.typechecker.gs
  | .slowPath | .committed _ => s.typechecker.undo.getD s.typechecker.gs

def Phase.Active : Phase → Prop
  | .started _ | .slowPath => True
  | .idle | .committed _ => False

-- The table the typechecker will have when it is idle the next time, were nothing
-- more to happen than the end of its slow path.
def Lands (s : System) (table : FileTable) : Prop :=
  match s.phase with
  | .idle => table = s.typechecker.gs
  | .started update => ∃ after, Covers File.path s.typechecker.gs after update.updated ∧ (after.map File.path).Nodup ∧
      table = if s.canceled then s.base else after
  | .slowPath => table = if s.canceled then s.base else s.typechecker.gs
  | .committed committed => table = if committed then s.typechecker.gs else s.base

-- What the indexer keeps suffices to redo the slow path from `base`.
structure Pending (base table : FileTable) (indexer : LSPIndexer) : Prop where
  covers : Covers File.path base table indexer.pendingTypecheckUpdates.updated
  evicts : Evicts base indexer.pendingTypecheckUpdates.updated indexer.evictedFiles
  old : indexer.pendingTypecheckUpdates.hasNewFiles = false → table.length = base.length

def Uncanceled (s : System) : Prop := s.canceled = false ∧ s.phase ≠ .committed false

-- The processing thread is not inside an edit.
structure Quiet (s : System) : Prop where
  lands : Lands s s.indexer.gs
  uncanceled : Uncanceled s
  pending : s.phase.Active → Pending s.base s.indexer.gs s.indexer

-- It has put the files of an edit into the table and not yet finished commitEdit.
structure Open (s : System) (edit : SorbetWorkspaceEditParams) (update : LSPFileUpdates) (evicted : EvictedFiles)
    (before : FileTable) : Prop where
  lands : Lands s before
  uncanceled : Uncanceled s
  pending : s.phase.Active → Pending s.base before s.indexer
  covers : Covers File.path before s.indexer.gs update.updated
  evicts : Evicts before update.updated evicted
  old : update.hasNewFiles = false → s.indexer.gs.length = before.length
  fast : update.typecheckingPath = .fast → update.hasNewFiles = false
  files : update.updatedFiles = edit.updates
  canceledSlowPath : update.canceledSlowPath = false

-- It waits until the typechecker, idle with the table `before`, takes the update.
structure Handed (s : System) (update : LSPFileUpdates) (before : FileTable) : Prop where
  lands : Lands s before
  covers : Covers File.path before s.indexer.gs update.updated
  old : update.typecheckingPath = .fast → s.indexer.gs.length = before.length
  same : update.typecheckingPath = .slow → s.indexer.pendingTypecheckUpdates.updated = update.updated
  pending : update.typecheckingPath = .slow → Pending before s.indexer.gs s.indexer

def Plan (s : System) : Prop :=
  match s.processor with
  | .free | .preempting => Quiet s
  | .deferred edit => Quiet s ∧ Distinct edit
  | .indexed edit update evicted | .canceling edit update evicted => ∃ before, Open s edit update evicted before
  | .waiting update => ∃ before, Handed s update before

structure Inv (s : System) : Prop where
  settled : ¬s.phase.Active → s.epochs.Settled
  undo : s.phase = .slowPath → s.typechecker.undo ≠ none
  distinct : (s.indexer.gs.map File.path).Nodup
  plan : Plan s

end Notions

section Lemmas

theorem Inv.quiet (inv : Inv s) (free : s.processor = .free ∨ s.processor = .preempting) : Quiet s := by
  have plan := inv.plan
  unfold Plan at plan
  rcases free with free | free <;> rw [free] at plan <;> exact plan

theorem plan_of_quiet (quiet : Quiet s) (free : s.processor = .free ∨ s.processor = .preempting) : Plan s := by
  unfold Plan
  rcases free with free | free <;> rw [free] <;> exact quiet

theorem Inv.open_ (inv : Inv s)
    (busy : s.processor = .indexed edit update evicted ∨ s.processor = .canceling edit update evicted) :
    ∃ before, Open s edit update evicted before := by
  have plan := inv.plan
  unfold Plan at plan
  rcases busy with busy | busy <;> rw [busy] at plan <;> exact plan

theorem Inv.handed (inv : Inv s) (waits : s.processor = .waiting update) : ∃ before, Handed s update before := by
  have plan := inv.plan
  unfold Plan at plan
  rwa [waits] at plan

theorem Inv.deferred (inv : Inv s) (deferred : s.processor = .deferred edit) : Quiet s ∧ Distinct edit := by
  have plan := inv.plan
  unfold Plan at plan
  rwa [deferred] at plan

-- Lands and base read the typechecking thread and the epochs only.
theorem Lands.frame (lands : Lands s table) (phase : s'.phase = s.phase) (typechecker : s'.typechecker = s.typechecker)
    (canceled : s'.canceled = s.canceled) : Lands s' table := by
  have base : s'.base = s.base := by simp only [System.base,phase,typechecker]
  unfold Lands at lands ⊢
  rw [phase,typechecker,canceled,base]
  exact lands

theorem Lands.cancel (lands : Lands s table) (active : s.phase.Active) (phase : s'.phase = s.phase)
    (typechecker : s'.typechecker = s.typechecker) (canceled : s'.canceled = true) : Lands s' s.base := by
  have base : s'.base = s.base := by simp only [System.base,phase,typechecker]
  unfold Lands at lands ⊢
  rw [phase,typechecker,canceled,base]
  cases own : s.phase with
  | idle =>
    rw [own] at active
    exact active.elim
  | started update =>
    simp only [own] at lands
    obtain ⟨after,covers,distinct,-⟩ := lands
    exact ⟨after,covers,distinct,rfl⟩
  | slowPath => rfl
  | committed committed =>
    rw [own] at active
    exact active.elim

-- A whole edit that ends without a cancelation.
theorem handed_of_open {before : FileTable} (opened : Open s edit update evicted before) :
    Handed {s with indexer := s.indexer.finishEdit update evicted,processor := .waiting update} update before := by
  refine ⟨opened.lands.frame rfl rfl rfl,opened.covers,?_,?_,?_⟩
  · intro fast
    exact opened.old (opened.fast fast)
  · intro slow
    dsimp only
    rw [(finishEdit_slow slow).1]
    rfl
  · intro slow
    obtain ⟨pending,evictions⟩ := @finishEdit_slow s.indexer update evicted slow
    refine ⟨?_,?_,?_⟩
    · dsimp only
      rw [pending]
      exact opened.covers
    · dsimp only
      rw [pending,evictions]
      exact opened.evicts
    · dsimp only
      rw [pending]
      exact opened.old

theorem running_active (inv : Inv s) (running : s.epochs.currentlyProcessingLSPEpoch ≠ s.epochs.lastCommittedLSPEpoch) :
    s.phase.Active := by
  by_contra inactive
  exact running (inv.settled inactive).1

end Lemmas

section ProcessorSteps

theorem index_inv {indexer : LSPIndexer} (inv : Inv s) (free : s.processor = .free) (paths : Distinct edit)
    (started : s.indexer.startEdit config edit = some (indexer,update,evicted)) :
    Inv {s with indexer := indexer,processor := .indexed edit update evicted} := by
  have quiet := inv.quiet (.inl free)
  have edit_ := startEdit_started inv.distinct paths started
  refine ⟨inv.settled,inv.undo,edit_.distinct,s.indexer.gs,quiet.lands.frame rfl rfl rfl,quiet.uncanceled,?_,edit_.covers,
    edit_.evicts,edit_.old.mp,edit_.fast,edit_.files,edit_.uncanceled⟩
  intro active
  have pending := quiet.pending active
  refine ⟨?_,?_,?_⟩
  · dsimp only
    rw [edit_.pending]
    exact pending.covers
  · dsimp only
    rw [edit_.pending,edit_.evictedFiles]
    exact pending.evicts
  · dsimp only
    rw [edit_.pending]
    exact pending.old

-- The update that canceled a slow path covers everything since the table before it.
theorem handed_of_cancel {before : FileTable} {merged : LSPFileUpdates} {older : EvictedFiles}
    {epochs : TypecheckEpochManager} (inv : Inv s) (opened : Open s edit update evicted before)
    (canceled : s.epochs.tryCancelSlowPath update.epoch = (true,epochs))
    (cancel : s.indexer.cancelEdit config update evicted = some (merged,older)) :
    Covers File.path s.base s.indexer.gs merged.updated ∧ Evicts s.base merged.updated older ∧
    Handed {s with epochs := epochs,indexer := s.indexer.finishEdit merged older,processor := .waiting merged} merged
      s.base := by
  obtain ⟨fresh,running,rfl⟩ := tryCancelSlowPath_true canceled
  obtain ⟨updated,-,-,newFiles,-,fast,evictions⟩ := cancelEdit_merged cancel
  have active := running_active inv running
  have pending := opened.pending active
  have covers : Covers File.path s.base s.indexer.gs merged.updated := by
    rw [updated]
    exact pending.covers.trans opened.covers
  have evicts : Evicts s.base merged.updated older := by
    rw [updated,evictions]
    exact pending.evicts.merge pending.covers opened.evicts
  have old : merged.hasNewFiles = false → s.indexer.gs.length = s.base.length := by
    intro none_
    rw [newFiles,Bool.or_eq_false_iff] at none_
    rw [opened.old none_.1,pending.old none_.2]
  refine ⟨covers,evicts,?_,covers,fun path => old (fast path),?_,?_⟩
  · refine opened.lands.cancel active rfl rfl ?_
    simp only [System.canceled,bne_iff_ne,ne_eq]
    exact fun same => fresh same.symm
  · intro slow
    dsimp only
    rw [(finishEdit_slow slow).1]
    rfl
  · intro slow
    obtain ⟨kept,evictions⟩ := @finishEdit_slow s.indexer merged older slow
    refine ⟨?_,?_,?_⟩
    · dsimp only
      rw [kept]
      exact covers
    · dsimp only
      rw [kept,evictions]
      exact evicts
    · dsimp only
      rw [kept]
      exact old

theorem processor_inv (inv : Inv s) (step : ProcessorStep config s event s') : Inv s' := by
  cases step with
  | index free paths _ started => exact index_inv inv free paths started
  | keep indexed _ =>
    obtain ⟨before,opened⟩ := inv.open_ (.inl indexed)
    exact ⟨inv.settled,inv.undo,inv.distinct,before,handed_of_open opened⟩
  | check indexed _ =>
    obtain ⟨before,opened⟩ := inv.open_ (.inl indexed)
    exact ⟨inv.settled,inv.undo,inv.distinct,before,opened.lands.frame rfl rfl rfl,opened.uncanceled,opened.pending,opened.covers,
      opened.evicts,opened.old,opened.fast,opened.files,opened.canceledSlowPath⟩
  | cancel canceling canceled cancel =>
    obtain ⟨before,opened⟩ := inv.open_ (.inr canceling)
    have running := (tryCancelSlowPath_true canceled).2.1
    refine ⟨?_,inv.undo,inv.distinct,s.base,(handed_of_cancel inv opened canceled cancel).2.2⟩
    intro inactive
    exact absurd (running_active inv running) inactive
  | refused canceling refused =>
    obtain ⟨before,opened⟩ := inv.open_ (.inr canceling)
    rw [tryCancelSlowPath_false refused]
    exact ⟨inv.settled,inv.undo,inv.distinct,before,handed_of_open opened⟩
  | defer free paths _ =>
    have quiet := inv.quiet (.inl free)
    exact ⟨inv.settled,inv.undo,inv.distinct,⟨quiet.lands.frame rfl rfl rfl,quiet.uncanceled,quiet.pending⟩,paths⟩
  | schedule free _ _ =>
    have quiet := inv.quiet (.inl free)
    exact ⟨inv.settled,inv.undo,inv.distinct,⟨quiet.lands.frame rfl rfl rfl,quiet.uncanceled,quiet.pending⟩⟩
  | unschedule preempting =>
    have quiet := inv.quiet (.inr preempting)
    exact ⟨inv.settled,inv.undo,inv.distinct,⟨quiet.lands.frame rfl rfl rfl,quiet.uncanceled,quiet.pending⟩⟩

end ProcessorSteps

section TypecheckerSteps

theorem withErrorFiles_covers {typechecker : LSPTypechecker} {after : FileTable} {filesWithErrors : List FileRef}
    (covers : Covers File.path typechecker.gs after update.updated) :
    Covers File.path typechecker.gs after (typechecker.withErrorFiles update filesWithErrors).updated := by
  unfold LSPTypechecker.withErrorFiles
  split
  · apply covers.noop
    intro entry present
    obtain ⟨fref,-,read⟩ := List.mem_filterMap.mp present
    obtain ⟨file,stored,rfl⟩ := Option.map_eq_some_iff.mp read
    exact stored
  · exact covers

-- While the typechecking thread is idle there is no slow path to cancel.
theorem commitDeferred_started {indexer : LSPIndexer} {epochs : TypecheckEpochManager} (inv : Inv s)
    (idle : s.phase = .idle) (committed : s.indexer.commitEdit config s.epochs edit = some (indexer,epochs,update)) :
    ∃ middle evicted, s.indexer.startEdit config edit = some (middle,update,evicted) ∧
      indexer = middle.finishEdit update evicted ∧ epochs = s.epochs := by
  have settled := inv.settled (by rw [idle]; exact id)
  have stopped : s.epochs.getStatus.slowPathRunning = false := by simp [getStatus,settled.1]
  unfold LSPIndexer.commitEdit at committed
  obtain ⟨⟨middle,decided,evicted⟩,started,rest⟩ := Option.bind_eq_some_iff.mp committed
  simp only [stopped,Bool.false_and,Bool.false_eq_true,if_false,Option.some.injEq,Prod.mk.injEq] at rest
  obtain ⟨rfl,rfl,rfl⟩ := rest
  exact ⟨middle,evicted,started,rfl,rfl⟩

theorem commitDeferred_inv {indexer : LSPIndexer} {epochs : TypecheckEpochManager} (inv : Inv s) (idle : s.phase = .idle)
    (deferred : s.processor = .deferred edit)
    (committed : s.indexer.commitEdit config s.epochs edit = some (indexer,epochs,update)) :
    Inv {s with indexer := indexer,epochs := epochs,processor := .waiting update} := by
  obtain ⟨quiet,paths⟩ := inv.deferred deferred
  obtain ⟨middle,evicted,started,rfl,rfl⟩ := commitDeferred_started inv idle committed
  have edit_ := startEdit_started inv.distinct paths started
  have opened : Open {s with indexer := middle} edit update evicted s.indexer.gs := by
    refine ⟨quiet.lands.frame rfl rfl rfl,quiet.uncanceled,?_,edit_.covers,edit_.evicts,edit_.old.mp,edit_.fast,edit_.files,
      edit_.uncanceled⟩
    intro active
    rw [show ({s with indexer := middle} : System).phase = .idle from idle] at active
    exact active.elim
  exact ⟨inv.settled,inv.undo,edit_.distinct,s.indexer.gs,(handed_of_open opened).lands,(handed_of_open opened).covers,
    (handed_of_open opened).old,(handed_of_open opened).same,(handed_of_open opened).pending⟩

theorem start_inv (inv : Inv s) (idle : s.phase = .idle) (waits : s.processor = .waiting update)
    (slow : update.typecheckingPath = .slow) :
    Inv {s with epochs := s.epochs.startCommitEpoch update.epoch,phase := .started update,processor := .free} := by
  obtain ⟨before,handed⟩ := inv.handed waits
  have lands := handed.lands
  simp only [Lands,idle] at lands
  subst lands
  refine ⟨fun inactive => absurd trivial inactive,fun impossible => (by cases impossible),inv.distinct,?_,⟨?_,fun impossible => (by cases impossible)⟩,?_⟩
  · refine ⟨s.indexer.gs,handed.covers,inv.distinct,?_⟩
    simp [System.canceled]
  · simp [System.canceled]
  · exact fun _ => handed.pending slow

-- The tables that a slow path finds when it applies its update.
theorem started_covers (inv : Inv s) (started : s.phase = .started update) :
    ∃ after, Covers File.path s.typechecker.gs after update.updated ∧ (after.map File.path).Nodup := by
  have lands : ∃ table, Lands s table := by
    have plan := inv.plan
    unfold Plan at plan
    split at plan
    · exact ⟨_,plan.lands⟩
    · exact ⟨_,plan.lands⟩
    · exact ⟨_,plan.1.lands⟩
    · obtain ⟨before,opened⟩ := plan
      exact ⟨before,opened.lands⟩
    · obtain ⟨before,opened⟩ := plan
      exact ⟨before,opened.lands⟩
    · obtain ⟨before,handed⟩ := plan
      exact ⟨before,handed.lands⟩
  obtain ⟨table,lands⟩ := lands
  simp only [Lands,started] at lands
  obtain ⟨after,covers,distinct,-⟩ := lands
  exact ⟨after,covers,distinct⟩

-- Steps of the typechecking thread that change what Lands reads and nothing else.
theorem Inv.moves (inv : Inv s) (indexer : s'.indexer = s.indexer) (processor : s'.processor = s.processor)
    (settled : ¬s'.phase.Active → s'.epochs.Settled) (undo : s'.phase = .slowPath → s'.typechecker.undo ≠ none)
    (lands : ∀ table, Lands s table → Lands s' table)
    (uncanceled : Uncanceled s → Uncanceled s') (active : s'.phase.Active → s.phase.Active ∧ s'.base = s.base) : Inv s' := by
  have pending : ∀ table, (s.phase.Active → Pending s.base table s.indexer) →
      s'.phase.Active → Pending s'.base table s'.indexer := by
    intro table pending going
    obtain ⟨before,same⟩ := active going
    rw [same,indexer]
    exact pending before
  have quiet : Quiet s → Quiet s' := by
    intro quiet
    refine ⟨?_,uncanceled quiet.uncanceled,?_⟩
    · rw [indexer]
      exact lands _ quiet.lands
    · intro going
      have kept := pending _ quiet.pending going
      rw [indexer] at kept ⊢
      exact kept
  refine ⟨settled,undo,by rw [indexer]; exact inv.distinct,?_⟩
  have plan := inv.plan
  unfold Plan at plan ⊢
  rw [processor]
  revert plan
  cases s.processor with
  | free => exact quiet
  | preempting => exact quiet
  | deferred edit => exact fun plan => ⟨quiet plan.1,plan.2⟩
  | waiting update =>
    rintro ⟨before,handed⟩
    refine ⟨before,lands _ handed.lands,?_,?_,?_,?_⟩
    all_goals rw [indexer]
    · exact handed.covers
    · exact handed.old
    · exact handed.same
    · exact handed.pending
  | indexed edit update evicted =>
    rintro ⟨before,opened⟩
    refine ⟨before,lands _ opened.lands,uncanceled opened.uncanceled,pending _ opened.pending,?_,opened.evicts,?_,
      opened.fast,opened.files,opened.canceledSlowPath⟩
    all_goals rw [indexer]
    · exact opened.covers
    · exact opened.old
  | canceling edit update evicted =>
    rintro ⟨before,opened⟩
    refine ⟨before,lands _ opened.lands,uncanceled opened.uncanceled,pending _ opened.pending,?_,opened.evicts,?_,
      opened.fast,opened.files,opened.canceledSlowPath⟩
    all_goals rw [indexer]
    · exact opened.covers
    · exact opened.old

theorem apply_inv {filesWithErrors : List FileRef} (inv : Inv s) (started : s.phase = .started update) :
    Inv {s with
      typechecker := {
        gs := (applyFileTableUpdates s.typechecker.gs (s.typechecker.withErrorFiles update filesWithErrors).updated).1
        undo := some s.typechecker.gs}
      phase := .slowPath} := by
  refine inv.moves rfl rfl (fun inactive => absurd trivial inactive) (fun _ => Option.some_ne_none _) ?_ ?_ ?_
  · intro table lands
    simp only [Lands,started] at lands
    obtain ⟨after,covers,distinct,landed⟩ := lands
    have whole : Covers File.path s.typechecker.gs after (s.typechecker.withErrorFiles update filesWithErrors).updated :=
      withErrorFiles_covers covers
    have applied := applyFileTableUpdates_covers whole distinct
    simp only [Lands,applied]
    rw [landed]
    simp only [System.canceled,System.base,started]
    rfl
  · exact fun uncanceled => ⟨uncanceled.1,fun impossible => (by cases impossible)⟩
  · intro _
    rw [started]
    refine ⟨trivial,?_⟩
    simp only [System.base,started]
    rfl

theorem commitSection_inv {committed : Bool} {epochs : TypecheckEpochManager} (inv : Inv s) (slow : s.phase = .slowPath)
    (section_ : s.epochs.commitSection = (committed,epochs)) :
    Inv {s with epochs := epochs,phase := .committed committed} := by
  have flag : committed = !s.canceled := by
    cases committed with
    | true => simp [System.canceled,(commitSection_true section_).1]
    | false => simp [System.canceled,(commitSection_false section_).1]
  have settled := commitSection_settled section_
  refine inv.moves rfl rfl (fun _ => settled) (fun impossible => (by cases impossible)) ?_ ?_ ?_
  · intro table lands
    simp only [Lands,slow] at lands
    simp only [Lands,lands,flag,System.base,slow]
    cases s.canceled <;> rfl
  · intro uncanceled
    rw [flag,uncanceled.1]
    exact ⟨by simp [System.canceled,settled.1,settled.2],fun impossible => (by cases impossible)⟩
  · exact fun impossible => impossible.elim

theorem finish_inv {committed : Bool} (inv : Inv s) (done : s.phase = .committed committed) :
    Inv {s with
      typechecker := ⟨if committed then s.typechecker.gs else s.typechecker.undo.getD s.typechecker.gs,none⟩
      phase := .idle} := by
  have settled := inv.settled (by rw [done]; exact id)
  refine inv.moves rfl rfl (fun _ => settled) (fun impossible => (by cases impossible)) ?_ ?_ ?_
  · intro table lands
    simp only [Lands,done] at lands
    simp only [Lands,lands,System.base,done]
  · exact fun uncanceled => ⟨uncanceled.1,fun impossible => (by cases impossible)⟩
  · exact fun impossible => impossible.elim

theorem committed_of_quiet {committed : Bool} (quiet : Quiet s) (done : s.phase = .committed committed) : committed = true := by
  by_contra canceled
  rw [Bool.not_eq_true] at canceled
  exact quiet.uncanceled.2 (by rw [done,canceled])

-- In the hands of a scheduled task both tables are the same.
theorem preempting_tables (inv : Inv s) (preempting : s.processor = .preempting)
    (slow : s.phase = .slowPath ∨ ∃ b, s.phase = .committed b) : s.typechecker.gs = s.indexer.gs := by
  have quiet := inv.quiet (.inr preempting)
  have lands := quiet.lands
  rcases slow with slow | ⟨b,slow⟩
  · simp only [Lands,slow,quiet.uncanceled.1] at lands
    exact lands.symm
  · simp only [Lands,slow,committed_of_quiet quiet slow,if_true] at lands
    exact lands.symm

-- A preempting edit leaves alone the table that a cancelation brings back.
theorem Inv.base_kept (inv : Inv s) (slow : s.phase = .slowPath ∨ ∃ b, s.phase = .committed b) (active : s.phase.Active)
    (phase : s'.phase = s.phase) (undo : s'.typechecker.undo = s.typechecker.undo) : s'.base = s.base := by
  rcases slow with slow | ⟨_,done⟩
  · obtain ⟨table,kept⟩ := Option.ne_none_iff_exists'.mp (inv.undo slow)
    simp only [System.base,phase,slow,undo,kept,Option.getD_some]
  · rw [done] at active
    exact active.elim

theorem preempt_inv {indexer : LSPIndexer} (inv : Inv s) (preempting : s.processor = .preempting)
    (slow : s.phase = .slowPath ∨ ∃ b, s.phase = .committed b) (paths : Distinct edit)
    (started : s.indexer.startEdit config edit = some (indexer,update,evicted)) (fast : update.typecheckingPath = .fast) :
    Inv {s with
      indexer := indexer.finishEdit update evicted
      typechecker := {s.typechecker with gs := replaceAll s.typechecker.gs update.updated}} := by
  have quiet := inv.quiet (.inr preempting)
  have tables := preempting_tables inv preempting slow
  have edit_ := startEdit_started inv.distinct paths started
  have applied : replaceAll s.typechecker.gs update.updated = indexer.gs := by
    rw [tables]
    exact replaceAll_covers edit_.covers (Nat.le_of_eq (edit_.old.mp (edit_.fast fast)))
  obtain ⟨pending,evictions⟩ := @finishEdit_fast indexer update evicted fast edit_.uncanceled
  rw [applied]
  have after : Quiet {s with
      indexer := indexer.finishEdit update evicted,typechecker := {s.typechecker with gs := indexer.gs}} := by
    refine ⟨?_,quiet.uncanceled,?_⟩
    · rcases slow with slow | ⟨committed,slow⟩
      · have running := quiet.uncanceled.1
        simp only [System.canceled] at running
        simp only [Lands,slow,System.canceled,running,Bool.false_eq_true,if_false]
        rfl
      · simp only [Lands,slow,committed_of_quiet quiet slow,if_true]
        rfl
    · intro active
      have kept := quiet.pending active
      have base : System.base {s with
          indexer := indexer.finishEdit update evicted
          typechecker := {s.typechecker with gs := indexer.gs}} = s.base := inv.base_kept slow active rfl rfl
      rw [base]
      refine ⟨?_,?_,?_⟩
      · dsimp only
        rw [pending,edit_.pending]
        exact kept.covers.trans edit_.covers
      · dsimp only
        rw [pending,evictions,edit_.pending,edit_.evictedFiles]
        exact kept.evicts.merge kept.covers edit_.evicts
      · dsimp only
        rw [pending,edit_.pending]
        intro none_
        have none_ : (update.hasNewFiles || s.indexer.pendingTypecheckUpdates.hasNewFiles) = false := none_
        rw [Bool.or_eq_false_iff] at none_
        rw [finishEdit_gs,edit_.old.mp none_.1,kept.old none_.2]
  exact ⟨inv.settled,inv.undo,edit_.distinct,plan_of_quiet after (.inr preempting)⟩

theorem runFastPath_inv {filesWithErrors : List FileRef} (inv : Inv s) (idle : s.phase = .idle)
    (waits : s.processor = .waiting update) (fast : update.typecheckingPath = .fast) :
    Inv {s with
      typechecker := {s.typechecker with
        gs := replaceAll s.typechecker.gs (s.typechecker.withErrorFiles update filesWithErrors).updated}
      processor := .free} := by
  obtain ⟨before,handed⟩ := inv.handed waits
  have lands := handed.lands
  simp only [Lands,idle] at lands
  subst lands
  have covers : Covers File.path s.typechecker.gs s.indexer.gs
      (s.typechecker.withErrorFiles update filesWithErrors).updated := withErrorFiles_covers handed.covers
  rw [replaceAll_covers covers (Nat.le_of_eq (handed.old fast))]
  have settled := inv.settled (by rw [idle]; exact id)
  refine ⟨fun _ => settled,?_,inv.distinct,?_,⟨?_,?_⟩,?_⟩
  · intro slow
    rw [show _ = _ from idle] at slow
    cases slow
  · simp only [Lands,idle]
  · simp [System.canceled,settled.1,settled.2]
  · intro canceled
    rw [show _ = _ from idle] at canceled
    cases canceled
  · intro active
    rw [show _ = _ from idle] at active
    exact active.elim

theorem typechecker_inv (inv : Inv s) (step : TypecheckerStep config s event s') : Inv s' := by
  cases step with
  | commitDeferred idle deferred committed => exact commitDeferred_inv inv idle deferred committed
  | start idle waits slow => exact start_inv inv idle waits slow
  | apply started => exact apply_inv inv started
  | preempt preempting slow paths started fast => exact preempt_inv inv preempting slow paths started fast
  | commitSection slow section_ => exact commitSection_inv inv slow section_
  | finish done _ => exact finish_inv inv done
  | runFastPath idle waits fast => exact runFastPath_inv inv idle waits fast

end TypecheckerSteps

section Runs
variable {gs : FileTable} {trace : List Event}

theorem initial_inv (distinct : (gs.map File.path).Nodup) : Inv (initial gs) := by
  refine ⟨fun _ => ⟨rfl,rfl⟩,fun impossible => (by cases impossible),distinct,?_⟩
  refine ⟨rfl,⟨rfl,fun impossible => (by cases impossible)⟩,?_⟩
  exact fun impossible => impossible.elim

theorem step_inv (inv : Inv s) (step : Step config s event s') : Inv s' := by
  rcases step with step | step
  · exact processor_inv inv step
  · exact typechecker_inv inv step

theorem run_inv (distinct : (gs.map File.path).Nodup) (ran : Runs (Step config) (initial gs) trace s) : Inv s := by
  induction ran with
  | nil => exact initial_inv distinct
  | snoc _ step ih => exact step_inv ih step

end Runs
end Edits
end Lsp
