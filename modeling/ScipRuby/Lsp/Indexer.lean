import ScipRuby.Lsp.FileUpdates

namespace Lsp
open Patches

structure SorbetWorkspaceEditParams where
  epoch : UInt32
  mergeCount : UInt32 := 0
  updates : List File
  sorbetCancellationExpected : Bool := false
  sorbetPreemptionsExpected : Int := 0
  deriving DecidableEq,Repr

structure TypecheckingPathResult where
  path : TypecheckingPath := .slow
  files : FastPathFilesToTypecheckResult := {}
  deriving DecidableEq,Repr

def getOldFile (gs : FileTable) (evictedFiles : EvictedFiles) (fref : FileRef) : Option File :=
  match evictedFiles.lookup fref with
  | some file => some file
  | none => gs[fref]?

-- Whether one changed file, on its own, sends the edit to the slow path.
def needsSlowPath (config : LSPConfiguration) (gs : FileTable) (evictedFiles : EvictedFiles) (f : File) : Bool :=
  match findFileByPath gs f.path with
  | none => true
  | some fref =>
    match getOldFile gs evictedFiles fref with
    | none => true
    | some oldFile =>
      (config.sorbetPackages && oldFile.hasPackageRbPath && oldFile.sourceHash != f.sourceHash) ||
        f.hash.isInvalidParse || f.hash.hierarchyHash != oldFile.hash.hierarchyHash

def getTypecheckingPathInternal (config : LSPConfiguration) (gs : FileTable) (changedFiles : List File)
    (evictedFiles : EvictedFiles) : Option TypecheckingPathResult :=
  if config.disableFastPath then some {}
  else if changedFiles.length > config.lspMaxFilesOnFastPath then some {}
  else if changedFiles.any (needsSlowPath config gs evictedFiles) then some {}
  else do
    let files ← fastPathFilesToTypecheck config gs changedFiles evictedFiles
    if files.totalChanged > config.lspMaxFilesOnFastPath then some {files := files}
    else some {path := .fast,files := files}

-- The overload that commitEdit uses; it notes the extra files of a fast path edit.
def getTypecheckingPath (config : LSPConfiguration) (gs : FileTable) (edit : LSPFileUpdates) (evictedFiles : EvictedFiles) :
    Option LSPFileUpdates :=
  if edit.hasNewFiles then some {edit with typecheckingPath := .slow}
  else do
    let result ← getTypecheckingPathInternal config gs edit.updatedFiles evictedFiles
    match result.path with
    | .fast => some {edit with
        typecheckingPath := .fast,fastPathUseIncrementalNamer := result.files.useIncrementalNamer
        fastPathExtraFiles := result.files.extraFiles}
    | .slow => some {edit with typecheckingPath := .slow}

def mergeEvictedFiles (oldEvictedFiles newlyEvictedFiles : EvictedFiles) : EvictedFiles := oldEvictedFiles ∪ newlyEvictedFiles

structure LSPIndexer where
  gs : FileTable
  pendingTypecheckUpdates : LSPFileUpdates := {}
  evictedFiles : EvictedFiles := ∅

-- The loop of commitEdit that puts the files of the edit into the table.
structure Entering where
  gs : FileTable
  updated : Patch File := []
  hasNewFiles : Bool := false
  newlyEvictedFiles : EvictedFiles := ∅

def enterUpdate (state : Entering) (file : File) : Entering :=
  match findFileByPath state.gs file.path with
  | some fref =>
    {state with
      gs := state.gs.set fref file
      updated := state.updated ++ [(fref,file)]
      newlyEvictedFiles := match state.gs[fref]? with
        | some old => state.newlyEvictedFiles.insert fref old
        | none => state.newlyEvictedFiles}
  | none =>
    {state with gs := state.gs ++ [file],updated := state.updated ++ [(state.gs.length,file)],hasNewFiles := true}

def enterUpdates (gs : FileTable) (files : List File) : Entering := files.foldl enterUpdate {gs := gs}

namespace LSPIndexer

-- commitEdit up to the fast path decision.
def startEdit (config : LSPConfiguration) (indexer : LSPIndexer) (edit : SorbetWorkspaceEditParams) :
    Option (LSPIndexer × LSPFileUpdates × EvictedFiles) := do
  let entered := enterUpdates indexer.gs edit.updates
  let update ← getTypecheckingPath config entered.gs
    { epoch := edit.epoch,editCount := edit.mergeCount + 1,updated := entered.updated,hasNewFiles := entered.hasNewFiles
      cancellationExpected := edit.sorbetCancellationExpected
      preemptionsExpected := edit.sorbetPreemptionsExpected } entered.newlyEvictedFiles
  some ({indexer with gs := entered.gs},update,entered.newlyEvictedFiles)

-- The merge that follows a successful cancelation.
def cancelEdit (config : LSPConfiguration) (indexer : LSPIndexer) (update : LSPFileUpdates)
    (newlyEvictedFiles : EvictedFiles) : Option (LSPFileUpdates × EvictedFiles) := do
  let newlyEvictedFiles := mergeEvictedFiles indexer.evictedFiles newlyEvictedFiles
  let update ← getTypecheckingPath config indexer.gs (update.mergeOlder indexer.pendingTypecheckUpdates) newlyEvictedFiles
  some ({update with canceledSlowPath := true},newlyEvictedFiles)

-- The end of commitEdit: what the indexer keeps for a later cancelation.
def finishEdit (indexer : LSPIndexer) (update : LSPFileUpdates) (newlyEvictedFiles : EvictedFiles) : LSPIndexer :=
  let (pending,evicted) : LSPFileUpdates × EvictedFiles :=
    match update.typecheckingPath with
    | .fast =>
      let merged := update.copy.mergeOlder indexer.pendingTypecheckUpdates
      (if update.canceledSlowPath then merged
        else {merged with committedEditCount := merged.committedEditCount + update.editCount},
        mergeEvictedFiles indexer.evictedFiles newlyEvictedFiles)
    | .slow => (update.copy,newlyEvictedFiles)
  { indexer with
    pendingTypecheckUpdates := {pending with cancellationExpected := false,preemptionsExpected := 0}
    evictedFiles := evicted }

end LSPIndexer
end Lsp
