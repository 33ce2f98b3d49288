import ScipRuby.Lsp.EditProtocol
import ScipRuby.Lsp.EditSafety

namespace Lsp
open Patches

-- The newer edit takes over; what it says of other files than the older one stays.
def SorbetWorkspaceEditParams.merge (this newerParams : SorbetWorkspaceEditParams) : SorbetWorkspaceEditParams where
  epoch := newerParams.epoch
  updates := this.updates.foldl
    (fun newUpdates f => if f.path ∈ newUpdates.map File.path then newUpdates else newUpdates ++ [f]) newerParams.updates
  mergeCount := this.mergeCount + (newerParams.mergeCount + 1)
  sorbetCancellationExpected := this.sorbetCancellationExpected || newerParams.sorbetCancellationExpected
  sorbetPreemptionsExpected := this.sorbetPreemptionsExpected + newerParams.sorbetPreemptionsExpected

-- The cached decision is valid when it is there.
structure SorbetWorkspaceEditTask where
  params : SorbetWorkspaceEditParams
  cachedFastPathDecision : Option TypecheckingPath := none
  deriving DecidableEq,Repr

def SorbetWorkspaceEditTask.mergeNewer (this task : SorbetWorkspaceEditTask) : SorbetWorkspaceEditTask :=
  {params := this.params.merge task.params}

-- The methods whose task is a LSPRequestTask.
inductive RequestMethod where
  | codeActionResolve
  | initialize_
  | shutdown
  | sorbetHierarchyReferences
  | sorbetReadFile
  | sorbetShowSymbol
  | textDocumentCodeAction
  | textDocumentCompletion
  | textDocumentDefinition
  | textDocumentDocumentHighlight
  | textDocumentDocumentSymbol
  | textDocumentHover
  | textDocumentImplementation
  | textDocumentPrepareRename
  | textDocumentReferences
  | textDocumentRename
  | textDocumentSignatureHelp
  | textDocumentTypeDefinition
  | workspaceSymbol
  deriving DecidableEq,Repr

namespace RequestMethod

def isDelayable : RequestMethod → Bool
  | .textDocumentDocumentSymbol | .workspaceSymbol => true
  | _ => false

-- ReferencesTask answers both kinds of references.
def canPreempt : RequestMethod → Bool
  | .initialize_ | .textDocumentReferences | .sorbetHierarchyReferences => false
  | _ => true

end RequestMethod

-- The methods whose task is a plain LSPTask in the queue. No task of these is
-- delayable, none is cancelled and none can preempt.
inductive PlainMethod where
  | getCounters
  | initialized
  | sorbetFence
  deriving DecidableEq,Repr

-- The tasks that reach the queue.
inductive Task where
  | edit (task : SorbetWorkspaceEditTask)
  | didChangeConfiguration (epoch : UInt32)
  | request (id : Nat) (method : RequestMethod)
  | plain (method : PlainMethod)
  deriving DecidableEq,Repr

namespace Task

def isDelayable : Task → Bool
  | .request _ method => method.isDelayable
  | .edit _ | .didChangeConfiguration _ | .plain _ => false

def isEdit : Task → Bool
  | .edit _ => true
  | .didChangeConfiguration _ | .request _ _ | .plain _ => false

def params? : Task → Option SorbetWorkspaceEditParams
  | .edit task => some task.params
  | .didChangeConfiguration _ | .request _ _ | .plain _ => none

def cancel (id : Nat) : Task → Bool
  | .request own _ => own == id
  | .edit _ | .didChangeConfiguration _ | .plain _ => false

end Task

abbrev TaskQueue := List Task

-- The edits of a queue in their order.
def queuedEdits (queue : TaskQueue) : List SorbetWorkspaceEditParams := queue.filterMap Task.params?

-- The loop of mergeFileChanges, with the edit that it merges into and the
-- delayable tasks it has passed since.
def mergeLoop : Option (SorbetWorkspaceEditTask × TaskQueue) → TaskQueue → TaskQueue
  | none,[] => []
  | some (olderEdit,passed),[] => .edit olderEdit :: passed
  | none,.edit task :: queue => mergeLoop (some (task,[])) queue
  | none,task :: queue => task :: mergeLoop none queue
  | some (olderEdit,passed),.edit newerEdit :: queue => mergeLoop (some (olderEdit.mergeNewer newerEdit,passed)) queue
  | some (olderEdit,passed),task :: queue =>
    if task.isDelayable then mergeLoop (some (olderEdit,passed ++ [task])) queue
    else .edit olderEdit :: passed ++ task :: mergeLoop none queue

def mergeFileChanges (queue : TaskQueue) : TaskQueue := mergeLoop none queue

-- LSPPreprocessor::cancelRequest; a task that is gone already leaves all as it is.
def cancelRequest (id : Nat) (queue : TaskQueue) : TaskQueue :=
  if queue.any (Task.cancel id) then mergeFileChanges (queue.eraseP (Task.cancel id)) else queue

-- What of the configuration decides whether a document is followed, by local path.
structure Workspace where
  isUriInWorkspace : String → Bool
  isFileIgnored : String → Bool
  hasAllowedExtension : String → Bool

-- A message of the client or of Watchman, with the file as the message leaves it.
-- Watchman names every changed file once.
inductive Message where
  | textDocumentDidOpen (file : File)
  | textDocumentDidChange (file : File) (sorbetCancellationExpected : Bool) (sorbetPreemptionsExpected : Int)
  | textDocumentDidClose (file : File)
  | sorbetWatchmanFileChange (files : {files : List File // (files.map File.path).Nodup})
  | workspaceDidChangeConfiguration
  | request (id : Nat) (method : RequestMethod)
  | plain (method : PlainMethod)
  | cancelRequest (id : Nat)

structure LSPPreprocessor where
  openFiles : List String := []
  nextVersion : UInt32 := 1

namespace LSPPreprocessor
variable (workspace : Workspace) (preprocessor : LSPPreprocessor)

def follows (path : String) : Bool :=
  workspace.isUriInWorkspace path && !workspace.isFileIgnored path && workspace.hasAllowedExtension path

-- An edit of one document that is open after it, or not.
def canonicalizeDocument (file : File) (isOpen : Bool) : LSPPreprocessor × List File :=
  if follows workspace file.path then
    ({preprocessor with
      openFiles := if isOpen then preprocessor.openFiles.insert file.path else preprocessor.openFiles.erase file.path},
      [{file with sourceType := .normal,isOpenInClient := isOpen}])
  else (preprocessor,[])

def canonicalizeWatchman (files : List File) : List File :=
  (files.filter (fun file => !workspace.isFileIgnored file.path && workspace.hasAllowedExtension file.path &&
    !preprocessor.openFiles.contains file.path)).map
    (fun file => {file with sourceType := .normal,isOpenInClient := false})

-- canonicalizeEdits: the edit of a message that is one.
def canonicalizeEdits (v : UInt32) : Message → Option (LSPPreprocessor × SorbetWorkspaceEditParams)
  | .textDocumentDidOpen file =>
    let (preprocessor,updates) := canonicalizeDocument workspace preprocessor file true
    some (preprocessor,{epoch := v,updates := updates})
  | .textDocumentDidChange file cancellationExpected preemptionsExpected =>
    let (preprocessor,updates) := canonicalizeDocument workspace preprocessor file true
    some (preprocessor,
      { epoch := v,updates := updates,sorbetCancellationExpected := cancellationExpected
        sorbetPreemptionsExpected := preemptionsExpected })
  | .textDocumentDidClose file =>
    let (preprocessor,updates) := canonicalizeDocument workspace preprocessor file false
    some (preprocessor,{epoch := v,updates := updates})
  | .sorbetWatchmanFileChange files =>
    some (preprocessor,{epoch := v,updates := canonicalizeWatchman workspace preprocessor files.val})
  | .workspaceDidChangeConfiguration | .request _ _ | .plain _ | .cancelRequest _ => none

-- Whether a message takes a version, and whether an edit of that version is enqueued.
inductive Stamp where
  | unversioned
  | skipped
  | edit
  deriving DecidableEq,Repr

def stamp (msg : Message) : Stamp :=
  match canonicalizeEdits workspace preprocessor preprocessor.nextVersion msg with
  | some (_,params) => if params.updates.isEmpty then .skipped else .edit
  | none =>
    match msg with
    | .workspaceDidChangeConfiguration => .skipped
    | _ => .unversioned

-- An edit without updates has the final phase PREPROCESS and is not enqueued.
def preprocessAndEnqueue (queue : TaskQueue) (msg : Message) : LSPPreprocessor × TaskQueue :=
  match canonicalizeEdits workspace preprocessor preprocessor.nextVersion msg with
  | some (next,params) =>
    ({next with nextVersion := preprocessor.nextVersion + 1},
      if params.updates.isEmpty then queue else mergeFileChanges (queue ++ [.edit {params := params}]))
  | none =>
    match msg with
    | .workspaceDidChangeConfiguration =>
      ({preprocessor with nextVersion := preprocessor.nextVersion + 1},
        queue ++ [.didChangeConfiguration preprocessor.nextVersion])
    | .request id method => (preprocessor,queue ++ [.request id method])
    | .plain method => (preprocessor,queue ++ [.plain method])
    | .cancelRequest id => (preprocessor,Lsp.cancelRequest id queue)
    | _ => (preprocessor,queue)

end LSPPreprocessor
end Lsp

namespace Lsp
open Patches Traces

section Decisions
variable (config : LSPConfiguration) (gs : FileTable)

-- The overload of getTypecheckingPath that looks at files before they are indexed.
def typecheckingPathOf (changedFiles : List File) : TypecheckingPath :=
  if changedFiles.length > config.lspMaxFilesOnFastPath then .slow
  else
    match getTypecheckingPathInternal config gs changedFiles ∅ with
    | some result => result.path
    | none => .slow

def wouldUpdateFileTable (newer : File) : Bool :=
  match (findFileByPath gs newer.path).bind (fun fref => gs[fref]?) with
  | none => true
  | some existing =>
    existing.sourceType != .normal || existing.sourceType != newer.sourceType ||
      existing.isOpenInClient != newer.isOpenInClient || existing.sourceSize != newer.sourceSize ||
      existing.sourceHash != newer.sourceHash

namespace SorbetWorkspaceEditTask

-- The decision of a task that is not indexed yet, and the task with its cache.
def getTypecheckingPath (task : SorbetWorkspaceEditTask) : TypecheckingPath × SorbetWorkspaceEditTask :=
  match task.cachedFastPathDecision with
  | some path => (path,task)
  | none =>
    let path := typecheckingPathOf config gs task.params.updates
    (path,{task with cachedFastPathDecision := some path})

-- What index() leaves of the edit for commitEdit.
def indexed (task : SorbetWorkspaceEditTask) : SorbetWorkspaceEditParams :=
  {task.params with updates := task.params.updates.filter (wouldUpdateFileTable gs)}

end SorbetWorkspaceEditTask

namespace Task

def canPreempt : Task → Bool × Task
  | .edit task =>
    let (path,task) := task.getTypecheckingPath config gs
    (path == .fast,.edit task)
  | .didChangeConfiguration epoch => (true,.didChangeConfiguration epoch)
  | .request id method => (method.canPreempt,.request id method)
  | .plain method => (false,.plain method)

end Task

-- The search for the first task that cannot preempt fills the caches up to it.
def findCannotPreempt : TaskQueue → TaskQueue × TaskQueue
  | [] => ([],[])
  | task :: queue =>
    match task.canPreempt config gs with
    | (true,task) =>
      let (before,rest) := findCannotPreempt queue
      (task :: before,rest)
    | (false,task) => ([],task :: queue)

def preemptionPossible (queue : TaskQueue) : Bool × TaskQueue :=
  let (before,rest) := findCannotPreempt config gs queue
  (match before,rest with
    | [],_ => false
    | _ :: _,[] => true
    | _ :: _,.edit _ :: _ => false
    | _ :: _,_ :: _ => true,
    before ++ rest)

def mergeTask (oldestEdit : SorbetWorkspaceEditTask) : Task → SorbetWorkspaceEditTask
  | .edit newerEdit => oldestEdit.mergeNewer newerEdit
  | .didChangeConfiguration _ | .request _ _ | .plain _ => oldestEdit

def mergeEdits : TaskQueue → Option SorbetWorkspaceEditTask
  | [] => none
  | .edit oldestEdit :: queue => some (queue.foldl mergeTask oldestEdit)
  | _ :: queue => mergeEdits queue

-- The end of a preemption in runLSP: the edits before the first task that cannot
-- preempt go to the front and become one, if that task is an edit too.
def promoteEdits (queue : TaskQueue) : TaskQueue :=
  match findCannotPreempt config gs queue with
  | (first :: before,.edit last :: rest) =>
    let promoted := first :: before ++ [.edit last]
    (mergeEdits promoted).toList.map Task.edit ++ promoted.filter (fun task => !task.isEdit) ++ rest
  | (before,rest) => before ++ rest

end Decisions

namespace Messages

-- The two threads of the edits, the preprocessor before them and the queue between.
structure System where
  preprocessor : LSPPreprocessor := {}
  queue : TaskQueue := []
  edits : Edits.System

def initial (gs : FileTable) : System := {edits := Edits.initial gs}

inductive Event where
  | receive (msg : Message) (stamp : LSPPreprocessor.Stamp)
  | edits (event : Edits.Event)
  | internal

-- Whether a step of the edits takes the front of the queue.
def takesEdit (s : Edits.System) (event : Edits.Event) : Prop :=
  match event with
  | .index _ => True
  | .commitEdit _ _ => s.processor = .preempting
  | _ => False

inductive Step (workspace : Workspace) (config : LSPConfiguration) : System → Event → System → Prop where
  | receive {s : System} {msg : Message} :
      Step workspace config s (.receive msg (s.preprocessor.stamp workspace msg))
        {s with
          preprocessor := (s.preprocessor.preprocessAndEnqueue workspace s.queue msg).1
          queue := (s.preprocessor.preprocessAndEnqueue workspace s.queue msg).2}
  | preemptionPossible {s : System} :
      Step workspace config s .internal {s with queue := (preemptionPossible config s.edits.indexer.gs s.queue).2}
  | promote {s : System} :
      Step workspace config s .internal {s with queue := promoteEdits config s.edits.indexer.gs s.queue}
  -- a task that is not an edit leaves the queue, in either thread; the server is
  -- initialized and raises when an InitializedTask is handled once more
  | handle {s : System} {task : Task} {rest : TaskQueue} : s.queue = task :: rest → task.isEdit = false →
      task ≠ .plain .initialized →
      Step workspace config s .internal {s with queue := rest}
  | index {s : System} {task : SorbetWorkspaceEditTask} {rest : TaskQueue} {edits : Edits.System} :
      s.queue = .edit task :: rest →
      Edits.ProcessorStep config s.edits (.index (task.indexed s.edits.indexer.gs)) edits →
      Step workspace config s (.edits (.index (task.indexed s.edits.indexer.gs))) {s with queue := rest,edits := edits}
  -- PreemptionLoop::run
  | preempt {s : System} {task : SorbetWorkspaceEditTask} {rest : TaskQueue} {update : LSPFileUpdates}
      {edits : Edits.System} : s.edits.processor = .preempting →
      preemptionPossible config s.edits.indexer.gs s.queue = (true,.edit task :: rest) →
      Edits.TypecheckerStep config s.edits (.commitEdit (task.indexed s.edits.indexer.gs) update) edits →
      Step workspace config s (.edits (.commitEdit (task.indexed s.edits.indexer.gs) update))
        {s with queue := rest,edits := edits}
  | edits {s : System} {event : Edits.Event} {edits : Edits.System} : Edits.Step config s.edits event edits →
      ¬takesEdit s.edits event → Step workspace config s (.edits event) {s with edits := edits}

variable {workspace : Workspace} {config : LSPConfiguration} {gs : FileTable} {trace : List Event} {s s' : System}
  {event : Event}

-- The steps of the whole are steps of the edits.
theorem edits_step (step : Step workspace config s event s') :
    (∃ inner, event = .edits inner ∧ Edits.Step config s.edits inner s'.edits) ∨ s'.edits = s.edits := by
  cases step with
  | receive | preemptionPossible | promote | handle _ _ _ => exact .inr rfl
  | index _ step => exact .inl ⟨_,rfl,.inl step⟩
  | preempt _ _ step => exact .inl ⟨_,rfl,.inr step⟩
  | edits step _ => exact .inl ⟨_,rfl,step⟩

end Messages
end Lsp
