import Mathlib.Algebra.BigOperators.Group.Multiset.Basic
import Mathlib.Algebra.Group.Prod
import Mathlib.Tactic.Abel
import ScipRuby.Common.AppendFiles

namespace Common.FileOps
open Interleaving Traces

def Job.directories : Job → Int
  | .QuitToken => 0
  | .path _ _ => 1

def Job.tokens : Job → Int
  | .QuitToken => 1
  | .path _ _ => 0

def Exit.held : Exit → Int
  | .caught => 1
  | _ => 0

def Exit.signaled (o : Options) : Exit → Int
  | .quitToken => 0
  | _ => o.numWorkers

-- The part of pendingJobs that a worker stands for. A directory whose listing
-- threw is never taken off.
def Phase.pending (o : Options) : Phase → Int
  | .popping => 0
  | .listing _ _ _ => 1
  | .pushing _ _ _ _ _ => 2
  | .throwing _ => 1
  | .signaling exit => exit.held
  | .quitting exit _ => exit.held + o.numWorkers
  | .publishing exit => exit.held + exit.signaled o
  | .finished exit => exit.held + exit.signaled o

def Exit.tokens (o : Options) : Exit → Int
  | .quitToken => 1
  | _ => -o.numWorkers

-- The tokens that a worker has popped, less those that it has pushed.
def Phase.tokens (o : Options) : Phase → Int
  | .quitting _ left => left - o.numWorkers
  | .publishing exit => exit.tokens o
  | .finished exit => exit.tokens o
  | _ => 0

def Exit.unreported : Exit → Int
  | .caught => 0
  | _ => 1

-- The results that a worker has still to push, and the exceptions that it has pushed.
def Phase.unreported : Phase → Int
  | .signaling exit => exit.unreported
  | .quitting exit _ => exit.unreported
  | .finished _ => 0
  | _ => 1

def Phase.reported : Phase → Int
  | .signaling exit => exit.held
  | .quitting exit _ => exit.held
  | .publishing exit => exit.held
  | .finished exit => exit.held
  | _ => 0

def JobOutput.exceptions : JobOutput → Int
  | .exception _ => 1
  | .paths _ => 0

abbrev Yield := Multiset Path × Multiset SorbetException

def found (output : List Path) : Yield := (output,0)
def raised (e : SorbetException) : Yield := (0,{e})

theorem found_append (first second : List Path) : found (first ++ second) = found first + found second := rfl

def JobOutput.yields : JobOutput → Yield
  | .exception e => raised e
  | .paths output => found output

def Contents.yields (o : Options) (path : Path) (contents : Contents) : Yield :=
  (contents.files o path,contents.failures o path)

def Entries.yields (o : Options) (path : Path) (entries : Entries) : Yield :=
  (entries.files o path,entries.failures o path)

def Job.yields (o : Options) : Job → Yield
  | .QuitToken => 0
  | .path entry contents => contents.yields o entry

def ending (o : Options) (path : Path) : Option Errno → Yield
  | none => 0
  | some ec => if o.vanished path ec then 0 else raised (exceptionFor path ec)

-- What the rest of a listing gives, and the directory about to be queued.
def Phase.yields (o : Options) : Phase → Yield
  | .listing path ec entries => entries.yields o path + ending o path ec
  | .pushing entry contents path ec entries => contents.yields o entry + (entries.yields o path + ending o path ec)
  | .throwing e => raised e
  | _ => 0

def Worker.yields (o : Options) (worker : Worker) : Yield := found worker.output + worker.phase.yields o

theorem Contents.yields_eq (o : Options) (path : Path) (contents : Contents) :
    contents.yields o path = contents.entries.yields o path + ending o path contents.ec := by
  cases contents with
  | readable entries => exact (add_zero _).symm
  | unreadable ec =>
    have none_ : Contents.entries (.unreadable ec) = .nil := rfl
    rw [none_]
    simp only [Contents.yields,Contents.ec,ending,Contents.files,Contents.failures]
    cases o.vanished path ec <;> rfl

@[simp] theorem Entries.yields_nil (o : Options) (path : Path) : Entries.nil.yields o path = 0 := rfl

theorem Entries.yields_file (o : Options) (path name : Path) (rest : Entries) :
    (Entries.file name rest).yields o path =
      found (if o.lists (join path name) then [join path name] else []) + rest.yields o path := by
  simp only [Entries.yields,Entries.files,Entries.failures,← Multiset.coe_add,found,Prod.mk_add_mk,zero_add]

theorem Entries.yields_directory (o : Options) (path name : Path) (is_symlink : Bool) (contents : Contents) (rest : Entries) :
    (Entries.directory name is_symlink contents rest).yields o path =
      (if o.enters is_symlink (join path name) then contents.yields o (join path name) else 0) + rest.yields o path := by
  simp only [Entries.yields,Entries.files,Entries.failures,← Multiset.coe_add]
  cases o.enters is_symlink (join path name) with
  | true => rfl
  | false => simp

theorem ending_survived {o : Options} {path : Path} {ec : Option Errno} (survived : ∀ e, ec = some e → o.vanished path e = true) :
    ending o path ec = 0 := by
  cases ec with
  | none => rfl
  | some e => exact if_pos (survived e rfl)

section Local
variable {o : Options} {a b : Shared} {l m : Worker}

-- What each action keeps.
theorem Acts.pending (acts : Acts o a l b m) :
    (b.pendingJobs - (b.jobq.map Job.directories).sum) + -m.phase.pending o =
      (a.pendingJobs - (a.jobq.map Job.directories).sum) + -l.phase.pending o := by
  cases acts with
  | quitToken found => simp [found,Job.directories,Phase.pending,Exit.held,Exit.signaled]
  | directory found =>
    simp [found,Job.directories,Phase.pending]
    omega
  | push =>
    simp [Job.directories,Phase.pending]
    omega
  | _ =>
    simp [Job.directories,Phase.pending,Exit.held,Exit.signaled]
    try omega

theorem Acts.tokens (acts : Acts o a l b m) :
    (b.jobq.map Job.tokens).sum + m.phase.tokens o = (a.jobq.map Job.tokens).sum + l.phase.tokens o := by
  cases acts with
  | quitToken found =>
    simp [found,Job.tokens,Phase.tokens,Exit.tokens]
    omega
  | directory found => simp [found,Job.tokens,Phase.tokens]
  | quit =>
    simp [Job.tokens,Phase.tokens]
    omega
  | _ => simp [Job.tokens,Phase.tokens,Exit.tokens]

theorem Acts.unreported (acts : Acts o a l b m) :
    b.elementsLeftToPush + -m.phase.unreported = a.elementsLeftToPush + -l.phase.unreported := by
  cases acts <;> simp [Phase.unreported,Exit.unreported,Int.sub_eq_add_neg]

theorem Acts.reported (acts : Acts o a l b m) :
    (b.resultq.map JobOutput.exceptions).sum + -m.phase.reported =
      (a.resultq.map JobOutput.exceptions).sum + -l.phase.reported := by
  cases acts <;> simp [Phase.reported,Exit.held,JobOutput.exceptions]

theorem Acts.yields (acts : Acts o a l b m) :
    ((b.jobq.map (Job.yields o)).sum + (b.resultq.map JobOutput.yields).sum) + m.yields o =
      ((a.jobq.map (Job.yields o)).sum + (a.resultq.map JobOutput.yields).sum) + l.yields o := by
  cases acts with
  | quitToken popped => simp [popped,Job.yields,Worker.yields,Phase.yields]
  | directory popped =>
    simp only [popped,Job.yields,Worker.yields,Phase.yields,Multiset.map_cons,Multiset.sum_cons,Contents.yields_eq]
    abel
  | skipFile skipped => simp [Worker.yields,Phase.yields,Entries.yields_file,skipped,found]
  | pushBack listed =>
    simp only [Worker.yields,Phase.yields,Entries.yields_file,listed,if_true,found_append]
    abel
  | skipDirectory skipped => simp [Worker.yields,Phase.yields,Entries.yields_directory,skipped]
  | count entered =>
    simp only [Worker.yields,Phase.yields,Entries.yields_directory,entered,if_true]
    abel
  | push =>
    simp only [Job.yields,Worker.yields,Phase.yields,Multiset.map_cons,Multiset.sum_cons]
    abel
  | throw failed => simp [Worker.yields,Phase.yields,ending,failed]
  | decrement survived _ => simp [Worker.yields,Phase.yields,ending_survived survived]
  | lastJob survived _ => simp [Worker.yields,Phase.yields,ending_survived survived]
  | report =>
    simp only [JobOutput.yields,Worker.yields,Phase.yields,Multiset.map_cons,Multiset.sum_cons]
    abel
  | publish =>
    have moved : found [] = 0 := rfl
    simp only [JobOutput.yields,Worker.yields,Phase.yields,Multiset.map_cons,Multiset.sum_cons,moved]
    abel
  | quit => simp [Job.yields,Worker.yields,Phase.yields]
  | _ => simp [Worker.yields,Phase.yields]

end Local

def Phase.exit : Phase → Option Exit
  | .signaling exit => some exit
  | .quitting exit _ => some exit
  | .publishing exit => some exit
  | .finished exit => some exit
  | _ => none

-- The worker neither holds a directory nor has left one unfinished.
def Phase.quiet : Phase → Bool
  | .popping => true
  | .listing _ _ _ => false
  | .pushing _ _ _ _ _ => false
  | .throwing _ => false
  | .signaling exit => exit.held = 0
  | .quitting exit _ => exit.held = 0
  | .publishing exit => exit.held = 0
  | .finished exit => exit.held = 0

def Shared.onlyTokens (shared : Shared) : Prop := ∀ job ∈ shared.jobq, job = .QuitToken

-- The output of a worker that is through has been moved, and no worker that
-- has popped a token pushes any.
structure Worker.Sound (worker : Worker) : Prop where
  moved : ∀ exit, worker.phase = .finished exit → exit = .caught ∨ worker.output = []
  signaling : worker.phase ≠ .signaling .quitToken
  quitting : ∀ left, worker.phase ≠ .quitting .quitToken left

section Control
variable {o : Options} {a b : Shared} {l m : Worker}

theorem numWorkers_pos : 0 < o.numWorkers := Nat.lt_of_lt_of_le Nat.zero_lt_one (Nat.le_max_right _ _)

theorem Exit.held_nonneg (exit : Exit) : 0 ≤ exit.held := by cases exit <;> simp [Exit.held]

theorem Exit.signaled_nonneg (exit : Exit) : 0 ≤ exit.signaled o := by cases exit <;> simp [Exit.signaled]

theorem Exit.held_zero (exit : Exit) (sum : exit.held + exit.signaled o = 0) : exit.held = 0 := by
  have held := exit.held_nonneg
  have signaled := @Exit.signaled_nonneg o exit
  omega

theorem Phase.pending_nonneg (phase : Phase) : 0 ≤ phase.pending o := by
  cases phase with
  | signaling exit => exact exit.held_nonneg
  | quitting exit left => exact add_nonneg exit.held_nonneg (Int.natCast_nonneg _)
  | publishing exit => exact add_nonneg exit.held_nonneg exit.signaled_nonneg
  | finished exit => exact add_nonneg exit.held_nonneg exit.signaled_nonneg
  | _ => simp [Phase.pending]

theorem Phase.quiet_of_pending {phase : Phase} (none_ : phase.pending o = 0) : phase.quiet = true := by
  cases phase with
  | popping => rfl
  | listing => simp [Phase.pending] at none_
  | pushing => simp [Phase.pending] at none_
  | throwing => simp [Phase.pending] at none_
  | signaling exit => exact decide_eq_true none_
  | quitting exit left =>
    have held := exit.held_nonneg
    have sum : exit.held + o.numWorkers = 0 := none_
    exact decide_eq_true (by omega)
  | publishing exit =>
    have sum : exit.held + exit.signaled o = 0 := none_
    exact decide_eq_true (exit.held_zero sum)
  | finished exit =>
    have sum : exit.held + exit.signaled o = 0 := none_
    exact decide_eq_true (exit.held_zero sum)

theorem Acts.exit {exit : Exit} (acts : Acts o a l b m) (left : l.phase.exit = some exit) : m.phase.exit = some exit := by
  cases acts <;> first | exact left | cases left

-- The only way to the end of all jobs is to bring the count to zero.
theorem Acts.zero (acts : Acts o a l b m) (ends : m.phase.exit = some .lastJob) (working : l.phase.exit ≠ some .lastJob) :
    b.pendingJobs = 0 := by
  cases acts with
  | lastJob _ remaining => exact remaining
  | _ => first | exact absurd ends working | cases ends

theorem Acts.positive (acts : Acts o a l b m) (working : m.phase.exit ≠ some .lastJob) (before : 1 ≤ a.pendingJobs) :
    1 ≤ b.pendingJobs := by
  cases acts with
  | lastJob => exact absurd rfl working
  | decrement _ remaining =>
    dsimp only
    omega
  | count =>
    dsimp only
    omega
  | signal =>
    dsimp only
    omega
  | _ => exact before

theorem Acts.stays_quiet (acts : Acts o a l b m) (only : a.onlyTokens) (quiet : l.phase.quiet = true) :
    b.onlyTokens ∧ m.phase.quiet = true := by
  cases acts with
  | quitToken popped =>
    refine ⟨?_,rfl⟩
    intro job member
    apply only
    rw [popped]
    exact Multiset.mem_cons_of_mem member
  | directory popped =>
    have queued := only _ (popped ▸ Multiset.mem_cons_self _ _)
    cases queued
  | quit =>
    refine ⟨?_,quiet⟩
    intro job member
    rcases Multiset.mem_cons.mp member with rfl | member
    · rfl
    · exact only job member
  | _ => first | exact ⟨only,quiet⟩ | cases quiet

theorem Acts.sound (acts : Acts o a l b m) (before : l.Sound) : m.Sound := by
  obtain ⟨_,signaling,quitting⟩ := before
  cases acts with
  | giveUp =>
    refine ⟨?_,(nomatch ·),fun _ => (nomatch ·)⟩
    intro exit through
    cases through
    exact .inl rfl
  | publish => exact ⟨fun _ _ => .inr rfl,(nomatch ·),fun _ => (nomatch ·)⟩
  | @signal _ exit =>
    refine ⟨fun _ => (nomatch ·),(nomatch ·),?_⟩
    intro left same
    cases same
    exact signaling rfl
  | @quit _ exit left =>
    refine ⟨fun _ => (nomatch ·),(nomatch ·),?_⟩
    intro left same
    cases same
    exact quitting _ rfl
  | _ => exact ⟨fun _ => (nomatch ·),(nomatch ·),fun _ => (nomatch ·)⟩

end Control
end Common.FileOps
