import ScipRuby.Common.DirectoryTree
import ScipRuby.Lib.Interleaving

namespace Common.FileOps
open Interleaving Traces

-- A queued directory is given with what the iterator will find there.
inductive Job where
  | QuitToken
  | path (path : Path) (contents : Contents)

inductive JobOutput where
  | exception (e : SorbetException)
  | paths (output : List Path)

-- How a worker leaves its loop.
inductive Exit where
  | quitToken
  | lastJob
  | caught

-- What a worker does next.
inductive Phase where
  | popping
  | listing (path : Path) (ec : Option Errno) (entries : Entries)
  | pushing (entry : Path) (contents : Contents) (path : Path) (ec : Option Errno) (entries : Entries)
  | throwing (e : SorbetException)
  | signaling (exit : Exit)
  | quitting (exit : Exit) (left : Nat)
  | publishing (exit : Exit)
  | finished (exit : Exit)

structure Worker where
  phase : Phase
  output : List Path

structure Shared where
  jobq : Multiset Job
  pendingJobs : Int
  resultq : Multiset JobOutput
  elementsLeftToPush : Int

-- The atomic steps of the lambda. A pop gives any element, and none only of an empty queue.
inductive Acts (o : Options) : Shared → Worker → Shared → Worker → Prop where
  | missed {s : Shared} {output : List Path} (empty : s.jobq = 0) : Acts o s ⟨.popping,output⟩ s ⟨.popping,output⟩
  | quitToken {s : Shared} {output : List Path} {rest : Multiset Job} (found : s.jobq = .QuitToken ::ₘ rest) :
      Acts o s ⟨.popping,output⟩ {s with jobq := rest} ⟨.publishing .quitToken,output⟩
  | directory {s : Shared} {output : List Path} {rest : Multiset Job} {path : Path} {contents : Contents}
      (found : s.jobq = .path path contents ::ₘ rest) :
      Acts o s ⟨.popping,output⟩ {s with jobq := rest} ⟨.listing path contents.ec contents.entries,output⟩
  | skipFile {s : Shared} {output : List Path} {path name : Path} {ec : Option Errno} {entries : Entries}
      (skipped : o.lists (join path name) = false) :
      Acts o s ⟨.listing path ec (.file name entries),output⟩ s ⟨.listing path ec entries,output⟩
  | pushBack {s : Shared} {output : List Path} {path name : Path} {ec : Option Errno} {entries : Entries}
      (listed : o.lists (join path name) = true) :
      Acts o s ⟨.listing path ec (.file name entries),output⟩ s ⟨.listing path ec entries,output ++ [join path name]⟩
  | skipDirectory {s : Shared} {output : List Path} {path name : Path} {is_symlink : Bool} {contents : Contents}
      {ec : Option Errno} {entries : Entries} (skipped : o.enters is_symlink (join path name) = false) :
      Acts o s ⟨.listing path ec (.directory name is_symlink contents entries),output⟩ s ⟨.listing path ec entries,output⟩
  | count {s : Shared} {output : List Path} {path name : Path} {is_symlink : Bool} {contents : Contents}
      {ec : Option Errno} {entries : Entries} (entered : o.enters is_symlink (join path name) = true) :
      Acts o s ⟨.listing path ec (.directory name is_symlink contents entries),output⟩
        {s with pendingJobs := s.pendingJobs + 1} ⟨.pushing (join path name) contents path ec entries,output⟩
  | push {s : Shared} {output : List Path} {entry path : Path} {contents : Contents} {ec : Option Errno} {entries : Entries} :
      Acts o s ⟨.pushing entry contents path ec entries,output⟩
        {s with jobq := .path entry contents ::ₘ s.jobq} ⟨.listing path ec entries,output⟩
  | throw {s : Shared} {output : List Path} {path : Path} {ec : Errno} (failed : o.vanished path ec = false) :
      Acts o s ⟨.listing path (some ec) .nil,output⟩ s ⟨.throwing (exceptionFor path ec),output⟩
  | decrement {s : Shared} {output : List Path} {path : Path} {ec : Option Errno}
      (survived : ∀ e, ec = some e → o.vanished path e = true) (remaining : s.pendingJobs - 1 ≠ 0) :
      Acts o s ⟨.listing path ec .nil,output⟩ {s with pendingJobs := s.pendingJobs - 1} ⟨.popping,output⟩
  | lastJob {s : Shared} {output : List Path} {path : Path} {ec : Option Errno}
      (survived : ∀ e, ec = some e → o.vanished path e = true) (remaining : s.pendingJobs - 1 = 0) :
      Acts o s ⟨.listing path ec .nil,output⟩ {s with pendingJobs := s.pendingJobs - 1} ⟨.signaling .lastJob,output⟩
  | report {s : Shared} {output : List Path} {e : SorbetException} :
      Acts o s ⟨.throwing e,output⟩
        {s with resultq := .exception e ::ₘ s.resultq, elementsLeftToPush := s.elementsLeftToPush - 1}
        ⟨.signaling .caught,output⟩
  | signal {s : Shared} {output : List Path} {exit : Exit} :
      Acts o s ⟨.signaling exit,output⟩ {s with pendingJobs := s.pendingJobs + o.numWorkers}
        ⟨.quitting exit o.numWorkers,output⟩
  | quit {s : Shared} {output : List Path} {exit : Exit} {left : Nat} :
      Acts o s ⟨.quitting exit (left + 1),output⟩ {s with jobq := .QuitToken ::ₘ s.jobq} ⟨.quitting exit left,output⟩
  | leave {s : Shared} {output : List Path} :
      Acts o s ⟨.quitting .lastJob 0,output⟩ s ⟨.publishing .lastJob,output⟩
  | giveUp {s : Shared} {output : List Path} :
      Acts o s ⟨.quitting .caught 0,output⟩ s ⟨.finished .caught,output⟩
  | publish {s : Shared} {output : List Path} {exit : Exit} :
      Acts o s ⟨.publishing exit,output⟩
        {s with resultq := .paths output ::ₘ s.resultq, elementsLeftToPush := s.elementsLeftToPush - 1}
        ⟨.finished exit,[]⟩

-- The variables of the main thread's loop, which starts with no paths.
structure Collected where
  allPaths : List Path
  fileNotFound : Option (List UInt8)
  fileNotDir : Bool

def Collected.add (collected : Collected) : JobOutput → Collected
  | .paths output => {collected with allPaths := collected.allPaths ++ output}
  | .exception (.FileNotFoundException message) => {collected with fileNotFound := collected.fileNotFound.or (some message)}
  | .exception .FileNotDirException => {collected with fileNotDir := true}

def Collected.result (collected : Collected) : Except SorbetException (List Path) :=
  match collected.fileNotFound with
  | some message => .error (.FileNotFoundException message)
  | none => if collected.fileNotDir then .error .FileNotDirException else .ok collected.allPaths

def collect (received : List JobOutput) : Collected := received.foldl Collected.add ⟨[],none,false⟩

-- The results popped so far, and how the call has ended.
structure Main where
  received : List JobOutput
  result : Option (Except SorbetException (List Path))

inductive MainActs : Shared → Main → Shared → Main → Prop where
  | gotItem {s : Shared} {received : List JobOutput} {threadResult : JobOutput} {rest : Multiset JobOutput}
      (found : s.resultq = threadResult ::ₘ rest) :
      MainActs s ⟨received,none⟩ {s with resultq := rest} ⟨received ++ [threadResult],none⟩
  | retry {s : Shared} {received : List JobOutput} (empty : s.resultq = 0) (more : s.elementsLeftToPush ≠ 0) :
      MainActs s ⟨received,none⟩ s ⟨received,none⟩
  | done {s : Shared} {received : List JobOutput} (empty : s.resultq = 0) (through : s.elementsLeftToPush = 0) :
      MainActs s ⟨received,none⟩ s ⟨received,some (collect received).result⟩

inductive Thread (o : Options) where
  | worker (i : Fin o.numWorkers)
  | main

structure State (o : Options) where
  pool : Parties Shared Worker (Fin o.numWorkers)
  main : Main

inductive Step (o : Options) : State o → Thread o → State o → Prop where
  | worker {s : State o} {i : Fin o.numWorkers} {pool : Parties Shared Worker (Fin o.numWorkers)}
      (acting : Acting (Acts o) s.pool i pool) : Step o s (.worker i) ⟨pool,s.main⟩
  | main {s : State o} {shared : Shared} {main : Main} (acts : MainActs s.pool.shared s.main shared main) :
      Step o s .main ⟨⟨shared,s.pool.locals⟩,main⟩

-- The root is queued before the workers start. With an empty pool the calling thread is the worker.
def initial (o : Options) (tree : DirectoryTree) : State o :=
  ⟨⟨⟨{.path o.basePath tree.contents},1,0,o.numWorkers⟩,fun _ => ⟨.popping,[]⟩⟩,⟨[],none⟩⟩

end Common.FileOps
