import ScipRuby.Lsp.EpochManager
import ScipRuby.Lsp.FileTables

namespace Lsp
open Patches Traces

-- commitEdit on one thread that nothing interleaves with.
def LSPIndexer.commitEdit (config : LSPConfiguration) (indexer : LSPIndexer) (epochs : TypecheckEpochManager)
    (edit : SorbetWorkspaceEditParams) : Option (LSPIndexer × TypecheckEpochManager × LSPFileUpdates) := do
  let (indexer,update,newlyEvictedFiles) ← indexer.startEdit config edit
  if epochs.getStatus.slowPathRunning && update.typecheckingPath != .fast then
    let (canceled,epochs) := epochs.tryCancelSlowPath update.epoch
    if canceled then do
      let (update,newlyEvictedFiles) ← indexer.cancelEdit config update newlyEvictedFiles
      some (indexer.finishEdit update newlyEvictedFiles,epochs,update)
    else some (indexer.finishEdit update newlyEvictedFiles,epochs,update)
  else some (indexer.finishEdit update newlyEvictedFiles,epochs,update)

-- LSPTypechecker: its file table, and the one that cancellationUndoState holds.
structure LSPTypechecker where
  gs : FileTable
  undo : Option FileTable := none

-- The update that typecheck() works on: the files that had errors since the
-- canceled slow path are typechecked again.
def LSPTypechecker.withErrorFiles (typechecker : LSPTypechecker) (update : LSPFileUpdates)
    (filesWithErrors : List FileRef) : LSPFileUpdates :=
  if update.canceledSlowPath then
    {update.mergeOlder (getNoopUpdate typechecker.gs (filesWithErrors.filter (· < typechecker.gs.length))) with
      typecheckingPath := update.typecheckingPath}
  else update

namespace Edits

-- Where the typechecking thread stands: runSpecial has called startCommitEpoch, the
-- slow path has applied its update, the commit section has been passed.
inductive Phase where
  | idle
  | started (update : LSPFileUpdates)
  | slowPath
  | committed (committed : Bool)
  deriving DecidableEq

-- Where the processing thread stands: inside commitEdit before its look at the
-- status or before tryCancelSlowPath, waiting for the typechecking thread to take
-- the update over, or blocked while a preemption task is scheduled. An edit of too
-- many files is deferred: the typechecking thread commits it.
inductive Processor where
  | free
  | preempting
  | indexed (edit : SorbetWorkspaceEditParams) (update : LSPFileUpdates) (newlyEvictedFiles : EvictedFiles)
  | canceling (edit : SorbetWorkspaceEditParams) (update : LSPFileUpdates) (newlyEvictedFiles : EvictedFiles)
  | waiting (update : LSPFileUpdates)
  | deferred (edit : SorbetWorkspaceEditParams)

structure System where
  indexer : LSPIndexer
  epochs : TypecheckEpochManager := {}
  typechecker : LSPTypechecker
  phase : Phase := .idle
  processor : Processor := .free

def initial (gs : FileTable) : System := {indexer := {gs := gs},typechecker := {gs := gs}}

inductive Event where
  | index (edit : SorbetWorkspaceEditParams)
  | commitEdit (edit : SorbetWorkspaceEditParams) (update : LSPFileUpdates)
  | startCommitEpoch (update : LSPFileUpdates)
  | applyFileTableUpdates (gs : FileTable) (updated : Patch File)
  | runFastPath (update : LSPFileUpdates)
  | internal

def Distinct (edit : SorbetWorkspaceEditParams) : Prop := (edit.updates.map File.path).Nodup

def mayCancel (s : System) (update : LSPFileUpdates) : Bool :=
  s.epochs.getStatus.slowPathRunning && update.typecheckingPath != .fast

inductive ProcessorStep (config : LSPConfiguration) : System → Event → System → Prop where
  | index {s : System} {edit : SorbetWorkspaceEditParams} {indexer : LSPIndexer} {update : LSPFileUpdates}
      {evicted : EvictedFiles} : s.processor = .free → Distinct edit → edit.updates.length ≤ config.lspMaxFilesOnFastPath →
      s.indexer.startEdit config edit = some (indexer,update,evicted) →
      ProcessorStep config s (.index edit) {s with indexer := indexer,processor := .indexed edit update evicted}
  | keep {s : System} {edit : SorbetWorkspaceEditParams} {update : LSPFileUpdates} {evicted : EvictedFiles} :
      s.processor = .indexed edit update evicted → mayCancel s update = false →
      ProcessorStep config s (.commitEdit edit update)
        {s with indexer := s.indexer.finishEdit update evicted,processor := .waiting update}
  | check {s : System} {edit : SorbetWorkspaceEditParams} {update : LSPFileUpdates} {evicted : EvictedFiles} :
      s.processor = .indexed edit update evicted → mayCancel s update = true →
      ProcessorStep config s .internal {s with processor := .canceling edit update evicted}
  | cancel {s : System} {edit : SorbetWorkspaceEditParams} {update merged : LSPFileUpdates}
      {evicted older : EvictedFiles} {epochs : TypecheckEpochManager} : s.processor = .canceling edit update evicted →
      s.epochs.tryCancelSlowPath update.epoch = (true,epochs) →
      s.indexer.cancelEdit config update evicted = some (merged,older) →
      ProcessorStep config s (.commitEdit edit merged)
        {s with epochs := epochs,indexer := s.indexer.finishEdit merged older,processor := .waiting merged}
  | refused {s : System} {edit : SorbetWorkspaceEditParams} {update : LSPFileUpdates} {evicted : EvictedFiles}
      {epochs : TypecheckEpochManager} : s.processor = .canceling edit update evicted →
      s.epochs.tryCancelSlowPath update.epoch = (false,epochs) →
      ProcessorStep config s (.commitEdit edit update)
        {s with epochs := epochs,indexer := s.indexer.finishEdit update evicted,processor := .waiting update}
  | defer {s : System} {edit : SorbetWorkspaceEditParams} : s.processor = .free → Distinct edit →
      config.lspMaxFilesOnFastPath < edit.updates.length →
      ProcessorStep config s (.index edit) {s with processor := .deferred edit}
  | schedule {s : System} : s.processor = .free → s.epochs.getStatus.slowPathRunning = true →
      s.epochs.getStatus.slowPathWasCanceled = false → ProcessorStep config s .internal {s with processor := .preempting}
  | unschedule {s : System} : s.processor = .preempting → ProcessorStep config s .internal {s with processor := .free}

inductive TypecheckerStep (config : LSPConfiguration) : System → Event → System → Prop where
  | commitDeferred {s : System} {edit : SorbetWorkspaceEditParams} {indexer : LSPIndexer} {update : LSPFileUpdates}
      {epochs : TypecheckEpochManager} : s.phase = .idle → s.processor = .deferred edit →
      s.indexer.commitEdit config s.epochs edit = some (indexer,epochs,update) →
      TypecheckerStep config s (.commitEdit edit update)
        {s with indexer := indexer,epochs := epochs,processor := .waiting update}
  | start {s : System} {update : LSPFileUpdates} : s.phase = .idle → s.processor = .waiting update →
      update.typecheckingPath = .slow →
      TypecheckerStep config s (.startCommitEpoch update)
        {s with epochs := s.epochs.startCommitEpoch update.epoch,phase := .started update,processor := .free}
  | apply {s : System} {update : LSPFileUpdates} {filesWithErrors : List FileRef} : s.phase = .started update →
      TypecheckerStep config s
        (.applyFileTableUpdates s.typechecker.gs (s.typechecker.withErrorFiles update filesWithErrors).updated)
        {s with
          typechecker := {
            gs := (applyFileTableUpdates s.typechecker.gs (s.typechecker.withErrorFiles update filesWithErrors).updated).1
            undo := some s.typechecker.gs}
          phase := .slowPath}
  -- a fast path edit of the preemption task, also in the drain after the commit section
  | preempt {s : System} {edit : SorbetWorkspaceEditParams} {indexer : LSPIndexer} {update : LSPFileUpdates}
      {evicted : EvictedFiles} : s.processor = .preempting → (s.phase = .slowPath ∨ ∃ b, s.phase = .committed b) →
      Distinct edit → s.indexer.startEdit config edit = some (indexer,update,evicted) → update.typecheckingPath = .fast →
      TypecheckerStep config s (.commitEdit edit update)
        {s with
          indexer := indexer.finishEdit update evicted
          typechecker := {s.typechecker with gs := replaceAll s.typechecker.gs update.updated}}
  | commitSection {s : System} {committed : Bool} {epochs : TypecheckEpochManager} : s.phase = .slowPath →
      s.epochs.commitSection = (committed,epochs) →
      TypecheckerStep config s .internal {s with epochs := epochs,phase := .committed committed}
  -- the slot of the preemption task is empty when tryCommitEpoch returns
  | finish {s : System} {committed : Bool} : s.phase = .committed committed → s.processor ≠ .preempting →
      TypecheckerStep config s .internal
        {s with
          typechecker := ⟨if committed then s.typechecker.gs else s.typechecker.undo.getD s.typechecker.gs,none⟩
          phase := .idle}
  | runFastPath {s : System} {update : LSPFileUpdates} {filesWithErrors : List FileRef} : s.phase = .idle →
      s.processor = .waiting update → update.typecheckingPath = .fast →
      TypecheckerStep config s (.runFastPath update)
        {s with
          typechecker := {s.typechecker with
            gs := replaceAll s.typechecker.gs (s.typechecker.withErrorFiles update filesWithErrors).updated}
          processor := .free}

def Step (config : LSPConfiguration) (s : System) (event : Event) (s' : System) : Prop :=
  ProcessorStep config s event s' ∨ TypecheckerStep config s event s'

end Edits
end Lsp
