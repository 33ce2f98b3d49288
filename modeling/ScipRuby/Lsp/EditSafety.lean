import ScipRuby.Lsp.EditInvariant

namespace Lsp
namespace Edits
open Patches Traces TypecheckEpochManager

variable {config : LSPConfiguration} {s s' : System} {event : Event} {edit : SorbetWorkspaceEditParams}
  {update slow : LSPFileUpdates} {gs table : FileTable} {updated : Patch File} {trace between : List Event}

section Tables

-- The refs of an update are old ones with their paths, or the next new ones.
structure Agrees (table : FileTable) (updated : Patch File) : Prop where
  old : ∀ entry ∈ updated,entry.1 < table.length → ∃ file, table[entry.1]? = some file ∧ file.path = entry.2.path
  new : (newFiles table.length updated).map Prod.fst =
    List.range' table.length (newFiles table.length updated).length
  silent : (applyFileTableUpdates table updated).2 = []

theorem agrees_of_covers {target : FileTable} (covers : Covers File.path table target updated)
    (distinct : (target.map File.path).Nodup) : Agrees table updated where
  old := by
    intro entry present inside
    obtain ⟨file,stored,same⟩ := covers.names _ _ (List.getElem?_eq_getElem inside)
    rw [covers.current entry present] at stored
    refine ⟨_,List.getElem?_eq_getElem inside,?_⟩
    rw [Option.some.inj stored,same]
  new := by
    rw [newFiles,covers.tail,List.map_map,List.length_map,List.length_zipIdx]
    exact List.zipIdx_map_snd _ _
  silent := by rw [applyFileTableUpdates_covers covers distinct]

theorem applyFileTableUpdates_agrees (distinct : (gs.map File.path).Nodup)
    (ran : Runs (Step config) (initial gs) trace s) (step : Step config s (.applyFileTableUpdates table updated) s') :
    table = s.typechecker.gs ∧ Agrees table updated := by
  rcases step with step | step
  · cases step
  · cases step with
    | apply started =>
      obtain ⟨after,covers,apart⟩ := started_covers (run_inv distinct ran) started
      exact ⟨rfl,agrees_of_covers (withErrorFiles_covers covers) apart⟩

def fileA : File := {path := "a.rb"}
def fileB : File := {path := "b.rb"}
def changedB : File := {path := "b.rb",hash := ⟨3,[],[]⟩}

-- A new file whose first slow path is canceled by its next edit.
def firstEdit : SorbetWorkspaceEditParams := ⟨1,0,[fileB],false,0⟩
def secondEdit : SorbetWorkspaceEditParams := ⟨2,0,[changedB],false,0⟩

theorem applyFileTableUpdates_agrees_canceled : Agrees [fileA] [(1,changedB)] := by
  have first : Distinct firstEdit := List.nodup_singleton _
  have second : Distinct secondEdit := List.nodup_singleton _
  have ran : Runs (Step {}) (initial [fileA]) [] (initial [fileA]) := .nil
  have ran := ran.snoc (.inl (.index rfl first (by decide) rfl))
  have ran := ran.snoc (.inl (.keep rfl rfl))
  have ran := ran.snoc (.inr (.start rfl rfl rfl))
  have ran := ran.snoc (.inr (@TypecheckerStep.apply _ _ _ [] rfl))
  have ran := ran.snoc (.inl (.index rfl second (by decide) rfl))
  have ran := ran.snoc (.inl (.check rfl rfl))
  have ran := ran.snoc (.inl (.cancel rfl rfl rfl))
  have ran := ran.snoc (.inr (.commitSection rfl rfl))
  have ran := ran.snoc (.inr (.finish rfl (fun impossible => (by cases impossible))))
  have ran := ran.snoc (.inr (.start rfl rfl rfl))
  exact (applyFileTableUpdates_agrees (by decide) ran (.inr (@TypecheckerStep.apply _ _ _ [] rfl))).2

end Tables

section Cancelations

def Event.edits : Event → List File
  | .commitEdit edit _ => edit.updates
  | _ => []

-- The slow path that runs in `s`: the state it started from and the run since.
structure Running (config : LSPConfiguration) (gs : FileTable) (trace : List Event) (s : System) (before : System)
    (slow : LSPFileUpdates) (between : List Event) : Prop where
  trace : ∃ earlier started, trace = earlier ++ [.startCommitEpoch slow] ++ between ∧
    Runs (Step config) (initial gs) earlier before ∧ Step config before (.startCommitEpoch slow) started ∧
    Runs (Step config) started between s
  last : ∀ later, Event.startCommitEpoch later ∉ between

def edited (slow : LSPFileUpdates) (between : List Event) : List File := slow.updatedFiles ++ between.flatMap Event.edits

theorem Running.step {before : System} (running : Running config gs trace s before slow between)
    (step : Step config s event s') (other : ∀ later, event ≠ .startCommitEpoch later) :
    Running config gs (trace ++ [event]) s' before slow (between ++ [event]) := by
  obtain ⟨⟨earlier,started,rfl,ran,start,since⟩,last⟩ := running
  refine ⟨⟨earlier,started,List.append_assoc _ _ _,ran,start,since.snoc step⟩,?_⟩
  intro later present
  rcases List.mem_append.mp present with old | new
  · exact last later old
  · exact other later (List.mem_singleton.mp new).symm

def Processor.Waits : Processor → Prop
  | .waiting _ => True
  | _ => False

-- What a cancelation would merge is what was edited since the slow path started.
structure Tracked (config : LSPConfiguration) (gs : FileTable) (trace : List Event) (s : System) : Prop where
  inv : Inv s
  tracks : s.phase.Active → ¬s.processor.Waits → ∃ before slow between,
    Running config gs trace s before slow between ∧ s.base = before.typechecker.gs ∧
    Tracks File.path (edited slow between) s.indexer.pendingTypecheckUpdates.updatedFiles

theorem Tracked.frame (tracked : Tracked config gs trace s) (step : Step config s event s')
    (other : ∀ later, event ≠ .startCommitEpoch later) (edits : event.edits = [])
    (pending : s'.indexer.pendingTypecheckUpdates = s.indexer.pendingTypecheckUpdates)
    (active : s'.phase.Active → s.phase.Active ∧ s'.base = s.base) (waits : s.processor.Waits → s'.processor.Waits) :
    Tracked config gs (trace ++ [event]) s' := by
  refine ⟨step_inv tracked.inv step,?_⟩
  intro going free
  obtain ⟨before,same⟩ := active going
  obtain ⟨start,slow,between,running,base,tracks⟩ := tracked.tracks before (fun waiting => free (waits waiting))
  refine ⟨start,slow,between ++ [event],running.step step other,same.trans base,?_⟩
  rw [pending,edited,List.flatMap_append,List.flatMap_singleton,edits,List.append_nil]
  exact tracks

-- No edit is committed before the typechecking thread has taken this one.
theorem Tracked.waits (tracked : Tracked config gs trace s) (step : Step config s event s') (waits : s'.processor.Waits) :
    Tracked config gs (trace ++ [event]) s' :=
  ⟨step_inv tracked.inv step,fun _ free => absurd waits free⟩

theorem Tracked.inactive (tracked : Tracked config gs trace s) (step : Step config s event s')
    (inactive : ¬s'.phase.Active) : Tracked config gs (trace ++ [event]) s' :=
  ⟨step_inv tracked.inv step,fun active => absurd active inactive⟩

theorem processor_tracked (tracked : Tracked config gs trace s) (step : ProcessorStep config s event s') :
    Tracked config gs (trace ++ [event]) s' := by
  have whole : Step config s event s' := .inl step
  cases step with
  | index free paths _ started =>
    have edit_ := startEdit_started tracked.inv.distinct paths started
    refine tracked.frame whole (fun _ impossible => (by cases impossible)) rfl edit_.pending (fun active => ⟨active,rfl⟩) ?_
    rw [free]
    exact fun impossible => impossible.elim
  | keep _ _ => exact tracked.waits whole trivial
  | check indexed _ =>
    refine tracked.frame whole (fun _ impossible => (by cases impossible)) rfl rfl (fun active => ⟨active,rfl⟩) ?_
    rw [indexed]
    exact fun impossible => impossible.elim
  | cancel _ _ _ => exact tracked.waits whole trivial
  | refused _ _ => exact tracked.waits whole trivial
  | defer free _ _ =>
    refine tracked.frame whole (fun _ impossible => (by cases impossible)) rfl rfl (fun active => ⟨active,rfl⟩) ?_
    rw [free]
    exact fun impossible => impossible.elim
  | schedule free _ _ =>
    refine tracked.frame whole (fun _ impossible => (by cases impossible)) rfl rfl (fun active => ⟨active,rfl⟩) ?_
    rw [free]
    exact fun impossible => impossible.elim
  | unschedule preempting =>
    refine tracked.frame whole (fun _ impossible => (by cases impossible)) rfl rfl (fun active => ⟨active,rfl⟩) ?_
    rw [preempting]
    exact fun impossible => impossible.elim

theorem start_tracked (ran : Runs (Step config) (initial gs) trace s) (tracked : Tracked config gs trace s)
    (waits : s.processor = .waiting update)
    (step : Step config s (.startCommitEpoch update)
      {s with epochs := s.epochs.startCommitEpoch update.epoch,phase := .started update,processor := .free})
    (slow : update.typecheckingPath = .slow) :
    Tracked config gs (trace ++ [.startCommitEpoch update])
      {s with epochs := s.epochs.startCommitEpoch update.epoch,phase := .started update,processor := .free} := by
  refine ⟨step_inv tracked.inv step,?_⟩
  intro _ _
  obtain ⟨before,handed⟩ := tracked.inv.handed waits
  refine ⟨s,update,[],⟨⟨trace,_,(List.append_nil _).symm,ran,step,.nil⟩,fun _ impossible => (by cases impossible)⟩,rfl,?_⟩
  have same := handed.same slow
  rw [edited,List.flatMap_nil,List.append_nil,LSPFileUpdates.updatedFiles,LSPFileUpdates.updatedFiles,same]
  exact Tracks.self (handed.covers.names_nodup tracked.inv.distinct)

theorem preempt_tracked {indexer : LSPIndexer} {evicted : EvictedFiles} (tracked : Tracked config gs trace s)
    (preempting : s.processor = .preempting) (paths : Distinct edit)
    (started : s.indexer.startEdit config edit = some (indexer,update,evicted)) (fast : update.typecheckingPath = .fast)
    (phase : s'.phase = s.phase) (indexer_ : s'.indexer = indexer.finishEdit update evicted)
    (base : s.phase.Active → s'.base = s.base) (step : Step config s (.commitEdit edit update) s') : Tracked config gs (trace ++ [.commitEdit edit update]) s' := by
  have edit_ := startEdit_started tracked.inv.distinct paths started
  refine ⟨step_inv tracked.inv step,?_⟩
  intro active _
  rw [phase] at active
  have free : ¬s.processor.Waits := by
    rw [preempting]
    exact id
  obtain ⟨before,slow,between,running,same,tracks⟩ := tracked.tracks active free
  refine ⟨before,slow,_,running.step step (fun _ impossible => (by cases impossible)),(base active).trans same,?_⟩
  have pending := (tracked.inv.quiet (.inr preempting)).pending active
  have merged := tracks.overlay pending.covers edit_.covers edit_.distinct
  have kept := (@finishEdit_fast indexer update evicted fast edit_.uncanceled).1
  have edits : edited slow (between ++ [.commitEdit edit update]) = edited slow between ++ update.updated.map Prod.snd := by
    rw [edited,edited,List.flatMap_append,List.flatMap_singleton,List.append_assoc]
    have files : update.updated.map Prod.snd = edit.updates := edit_.files
    rw [files]
    rfl
  rw [edits,indexer_,kept,edit_.pending]
  exact merged

theorem typechecker_tracked (ran : Runs (Step config) (initial gs) trace s) (tracked : Tracked config gs trace s)
    (step : TypecheckerStep config s event s') : Tracked config gs (trace ++ [event]) s' := by
  have whole : Step config s event s' := .inr step
  cases step with
  | commitDeferred _ _ _ => exact tracked.waits whole trivial
  | start _ waits slow => exact start_tracked ran tracked waits whole slow
  | apply started =>
    refine tracked.frame whole (fun _ impossible => (by cases impossible)) rfl rfl ?_ id
    intro _
    rw [started]
    refine ⟨trivial,?_⟩
    simp only [System.base,started,Option.getD_some]
  | preempt preempting slow paths started fast =>
    exact preempt_tracked tracked preempting paths started fast rfl rfl
      (fun active => tracked.inv.base_kept slow active rfl rfl) whole
  | commitSection _ _ => exact tracked.inactive whole id
  | finish _ _ => exact tracked.inactive whole id
  | runFastPath idle _ _ =>
    apply tracked.inactive whole
    rw [show _ = _ from idle]
    exact id

theorem run_tracked (distinct : (gs.map File.path).Nodup) (ran : Runs (Step config) (initial gs) trace s) :
    Tracked config gs trace s := by
  induction ran with
  | nil => exact ⟨initial_inv distinct,fun impossible => impossible.elim⟩
  | snoc ran step ih =>
    rcases step with step | step
    · exact processor_tracked ih step
    · exact typechecker_tracked ran ih step

-- The update that commitEdit returns after a cancelation.
structure Recovers (edits : List File) (before : FileTable) (update : LSPFileUpdates) (evictedFiles : EvictedFiles) :
    Prop where
  latest : ∀ path, update.updatedFiles.filter (fun file => file.path = path) = (latest File.path edits path).toList
  evicted : ∀ (fref : FileRef) (file : File), before[fref]? = some file → file.path ∈ edits.map File.path →
    evictedFiles.lookup fref = some file

-- Only one step returns an update that canceled a slow path.
theorem canceled_step (inv : Inv s) (step : Step config s (.commitEdit edit update) s')
    (canceled : update.canceledSlowPath = true) :
    ∃ own evicted older epochs before, Open s edit own evicted before ∧ s.processor = .canceling edit own evicted ∧
      s.epochs.tryCancelSlowPath own.epoch = (true,epochs) ∧
      s.indexer.cancelEdit config own evicted = some (update,older) ∧
      s'.indexer = s.indexer.finishEdit update older := by
  rcases step with step | step
  · cases step with
    | keep indexed _ =>
      obtain ⟨before,opened⟩ := inv.open_ (.inl indexed)
      rw [opened.canceledSlowPath] at canceled
      cases canceled
    | cancel canceling cancels merges =>
      obtain ⟨before,opened⟩ := inv.open_ (.inr canceling)
      exact ⟨_,_,_,_,before,opened,canceling,cancels,merges,rfl⟩
    | refused canceling _ =>
      obtain ⟨before,opened⟩ := inv.open_ (.inr canceling)
      rw [opened.canceledSlowPath] at canceled
      cases canceled
  · cases step with
    | commitDeferred idle deferred committed =>
      obtain ⟨middle,evicted,started,-,-⟩ := commitDeferred_started inv idle committed
      rw [(startEdit_started inv.distinct (inv.deferred deferred).2 started).uncanceled] at canceled
      cases canceled
    | preempt preempting slow paths started fast =>
      rw [(startEdit_started inv.distinct paths started).uncanceled] at canceled
      cases canceled

theorem commitEdit_recovers (distinct : (gs.map File.path).Nodup) (ran : Runs (Step config) (initial gs) trace s)
    (step : Step config s (.commitEdit edit update) s') (canceled : update.canceledSlowPath = true) :
    ∃ before slow between, Running config gs trace s before slow between ∧
      Recovers (edited slow between ++ edit.updates) before.typechecker.gs update s'.indexer.evictedFiles := by
  have tracked := run_tracked distinct ran
  obtain ⟨own,evicted,older,epochs,before,opened,canceling,cancels,merges,indexer⟩ :=
    canceled_step tracked.inv step canceled
  have active := running_active tracked.inv (tryCancelSlowPath_true cancels).2.1
  have free : ¬s.processor.Waits := by
    rw [canceling]
    exact id
  obtain ⟨start,slow,between,running,base,tracks⟩ := tracked.tracks active free
  obtain ⟨covers,evicts,-⟩ := handed_of_cancel tracked.inv opened cancels merges
  obtain ⟨updated,-,-,-,-,-,rfl⟩ := cancelEdit_merged merges
  have merged : Tracks File.path (edited slow between ++ edit.updates) update.updatedFiles := by
    rw [←opened.files,LSPFileUpdates.updatedFiles,LSPFileUpdates.updatedFiles,updated]
    exact tracks.overlay (opened.pending active).covers opened.covers tracked.inv.distinct
  refine ⟨start,slow,between,running,merged.filter,?_⟩
  intro fref file present path
  rw [←base] at present
  rw [indexer,finishEdit_lookup]
  exact evicts.version fref file present (covers.key_of_name tracked.inv.distinct present (merged.mem_names.mpr path))

def changedA : File := {path := "a.rb",hash := ⟨3,[],[]⟩}
def savedB : File := {path := "b.rb",sourceHash := 1}

def slowEdit : SorbetWorkspaceEditParams := ⟨1,0,[changedA],false,0⟩
def fastEdit : SorbetWorkspaceEditParams := ⟨2,0,[savedB],false,0⟩
def cancelingEdit : SorbetWorkspaceEditParams := ⟨3,0,[changedB],false,0⟩

-- A slow path, a fast path edit that preempts it, and an edit that cancels it.
theorem commitEdit_recovers_preempted : ∃ trace s s' update,
    Runs (Step {}) (initial [fileA,fileB]) trace s ∧ Step {} s (.commitEdit cancelingEdit update) s' ∧
    update.updatedFiles = [changedB,changedA] ∧ ∃ before slow between,
      Running {} [fileA,fileB] trace s before slow between ∧
      Recovers (edited slow between ++ cancelingEdit.updates) before.typechecker.gs update s'.indexer.evictedFiles := by
  have slow : Distinct slowEdit := List.nodup_singleton _
  have fast : Distinct fastEdit := List.nodup_singleton _
  have canceling : Distinct cancelingEdit := List.nodup_singleton _
  have ran : Runs (Step {}) (initial [fileA,fileB]) [] (initial [fileA,fileB]) := .nil
  have ran := ran.snoc (.inl (.index rfl slow (by decide) rfl))
  have ran := ran.snoc (.inl (.keep rfl rfl))
  have ran := ran.snoc (.inr (.start rfl rfl rfl))
  have ran := ran.snoc (.inr (@TypecheckerStep.apply _ _ _ [] rfl))
  have ran := ran.snoc (.inl (.schedule rfl rfl rfl))
  have ran := ran.snoc (.inr (.preempt rfl (.inl rfl) fast rfl rfl))
  have ran := ran.snoc (.inl (.unschedule rfl))
  have ran := ran.snoc (.inl (.index rfl canceling (by decide) rfl))
  have ran := ran.snoc (.inl (.check rfl rfl))
  refine ⟨_,_,_,_,ran,.inl (.cancel rfl rfl rfl),rfl,?_⟩
  exact commitEdit_recovers (by decide) ran (.inl (.cancel rfl rfl rfl)) rfl

end Cancelations
end Edits
end Lsp
