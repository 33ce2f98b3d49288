import ScipRuby.Scip.SymbolInfos

namespace Scip

-- The loops of the comparators over two repeated fields of one size.
def compareEach {α : Type} (cmp : α → α → Ordering) : List α → List α → Ordering
  | a :: s,b :: t => (cmp a b).then (compareEach cmp s t)
  | _,_ => .eq

def compareRepeated {α : Type} (cmp : α → α → Ordering) (s t : List α) : Ordering :=
  (compare s.length t.length).then (compareEach cmp s t)

-- Nothing sets the syntax kind and the diagnostics, which come last in the
-- source; the enclosing range is set but not compared.
def compareOccurrence (o1 o2 : Occurrence) : Ordering :=
  (((compareRepeated compare o1.range o2.range).then (compareText o1.symbol o2.symbol)).then
    (compare o1.symbolRoles o2.symbolRoles)).then
    (compareRepeated compareText o1.overrideDocumentation o2.overrideDocumentation)

def compareSymbolInformation (s1 s2 : SymbolInformation) : Ordering :=
  ((compareText s1.symbol s2.symbol).then (compareRepeated compareText s1.documentation s2.documentation)).then
    (compareRepeated compareRelationship s1.relationships s2.relationships)

structure Document where
  relativePath : Str
  occurrences : List Occurrence
  symbols : List SymbolInformation
  deriving DecidableEq,Repr

def compareDocument (d1 d2 : Document) : Ordering := compareText d1.relativePath d2.relativePath

-- fast_sort is pdqsort, which does not keep the order of equal elements.
structure FastSort where
  sort : {α : Type} → (α → α → Ordering) → List α → List α
  perm : ∀ {α : Type} (cmp : α → α → Ordering) (l : List α), (sort cmp l).Perm l
  sorted : ∀ {α : Type} (cmp : α → α → Ordering) [Std.TransCmp cmp] (l : List α),
    (sort cmp l).Pairwise (fun a b => (cmp a b).isLE)

-- The file names of an absolute path. A slash at its end counts as an empty one.
def filenames (path : Str) : List Str :=
  let parts := path.splitOn '/'
  if parts.all List.isEmpty then []
  else parts.dropLast.filter (fun part => !part.isEmpty) ++ parts.getLast?.toList

def dropCommon : List Str → List Str → List Str × List Str
  | a :: path,b :: base => if a = b then dropCommon path base else (a :: path,b :: base)
  | path,base => (path,base)

-- filesystem::path::lexically_relative between absolute paths.
def lexicallyRelative (path base : Str) : Str :=
  let (here,there) := dropCommon (filenames path) (filenames base)
  let ups := (there.filter (fun name => name ≠ [] ∧ name ≠ ['.'] ∧ name ≠ ['.','.'])).length
  let downs := there.count ['.','.']
  if here = [] ∧ there = [] then ['.']
  else if ups < downs then []
  else if ups = downs ∧ (here = [] ∨ here.head? = some []) then ['.']
  else List.intercalate ['/'] (List.replicate (ups - downs) ['.','.'] ++ here)

def documentPath (currentPath path : Str) : Str :=
  match path with
  | '/' :: _ => lexicallyRelative path currentPath
  | _ => path

namespace SCIPState

-- Erasing an entry of a map leaves the empty list in its place.
def saveDocument (gs : GlobalState) (currentPath : Str) (sorting : FastSort) (state : SCIPState) (file : FileRef) :
    SCIPState × Document :=
  ({ state with
      occurrenceMap := Function.update state.occurrenceMap file []
      symbolMap := Function.update state.symbolMap file [] },
    ⟨documentPath currentPath (gs.files file).path,sorting.sort compareOccurrence (state.occurrenceMap file),
      sorting.sort compareSymbolInformation (state.symbolMap file)⟩)

def finishTypecheckFile (gs : GlobalState) (currentPath : Str) (sorting : FastSort) (state : SCIPState)
    (file : FileRef) (order : HashOrder) : SCIPState × Document :=
  (state.finalizeRefOnlySymbolInfos gs file order).saveDocument gs currentPath sorting file

end SCIPState

namespace Step

def isLocal : Step → Bool
  | .localDefinition _ | .localReference _ => true
  | _ => false

def isClear : Step → Bool
  | .clearFunctionLocalCaches => true
  | _ => false

def isSave : Step → Bool
  | .localDefinition _ | .localReference _ | .definition _ | .reference _ => true
  | _ => false

-- The steps made while the syntax trees of this file are visited.
def VisitsFile (file : FileRef) : Step → Prop
  | .localDefinition d => d.file = file
  | .definition d => d.file = file
  | .localReference r => r.file = file
  | .reference r => r.file = file
  | .enterRelationships file' _ _ => file' = file
  | .clearFunctionLocalCaches => True
  | .finalizeRefOnlySymbolInfos _ _ => False

end Step

-- Locals are only saved by a traversal of a function body, and typecheck
-- clears their caches after each traversal.
def bodiesCleared : List Step → Bool
  | [] => true
  | step :: rest => (!step.isLocal || rest.any Step.isClear) && bodiesCleared rest

-- One file with the saves its syntax tree leads to.
structure FileVisit where
  file : FileRef
  steps : List Step
  own : ∀ step ∈ steps, step.VisitsFile file
  cleared : bodiesCleared steps = true

structure Worker where
  state : SCIPState
  documents : List Document

section Indexing
variable (gs : GlobalState) (currentPath : Str) (sorting : FastSort)

-- typecheckOne, with the order in which this worker's hash set happens to be walked.
def Worker.typecheckFile (worker : Worker) (job : FileVisit × HashOrder) : Worker :=
  let (state,document) := (run gs worker.state job.1.steps).finishTypecheckFile gs currentPath sorting job.1.file job.2
  ⟨state,worker.documents ++ [document]⟩

-- getSCIPState makes a new state for a thread that has none.
def Worker.runFrom (worker : Worker) (jobs : List (FileVisit × HashOrder)) : Worker :=
  jobs.foldl (Worker.typecheckFile gs currentPath sorting) worker

def Worker.ofJobs (gemMap : GemMapping) (jobs : List (FileVisit × HashOrder)) : Worker :=
  Worker.runFrom gs currentPath sorting ⟨.initial gemMap,[]⟩ jobs

-- The documents in the order in which they are written. Nothing ever fills
-- externalSymbols, so they are all there is after the metadata.
def finishTypecheck (workers : List Worker) : List Document :=
  sorting.sort compareDocument (workers.flatMap Worker.documents)

-- The files of each thread in its own order; the threads stand in the order in
-- which the map of their states is walked.
abbrev Schedule := List (List (FileVisit × HashOrder))

def Schedule.Distributes (schedule : Schedule) (files : List FileVisit) : Prop :=
  (schedule.flatten.map Prod.fst).Perm files

def writtenIndex (gemMap : GemMapping) (schedule : Schedule) : List Document :=
  finishTypecheck sorting (schedule.map (Worker.ofJobs gs currentPath sorting gemMap))

end Indexing

end Scip
