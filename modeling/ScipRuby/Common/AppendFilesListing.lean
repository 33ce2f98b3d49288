import Mathlib.Algebra.BigOperators.Ring.Finset
import ScipRuby.Common.AppendFilesInvariant

namespace Common.FileOps
open Interleaving Traces

variable {o : Options}

-- The state of the pool and of the main thread in the terms of each account.
structure Invariant (o : Options) (tree : DirectoryTree) (s : State o) : Prop where
  pending : (s.pool.shared.pendingJobs - (s.pool.shared.jobq.map Job.directories).sum) +
    ∑ i, -(s.pool.locals i).phase.pending o = 0
  tokens : (s.pool.shared.jobq.map Job.tokens).sum + ∑ i, (s.pool.locals i).phase.tokens o = 0
  unreported : s.pool.shared.elementsLeftToPush + ∑ i, -(s.pool.locals i).phase.unreported = 0
  reported : (s.pool.shared.resultq.map JobOutput.exceptions).sum + ∑ i, -(s.pool.locals i).phase.reported +
    (s.main.received.map JobOutput.exceptions).sum = 0
  yields : ((s.pool.shared.jobq.map (Job.yields o)).sum + (s.pool.shared.resultq.map JobOutput.yields).sum) +
    ∑ i, (s.pool.locals i).yields o + (s.main.received.map JobOutput.yields).sum = tree.contents.yields o o.basePath
  sound : ∀ i, (s.pool.locals i).Sound
  started : (∀ i, (s.pool.locals i).phase.exit ≠ some .lastJob) → 1 ≤ s.pool.shared.pendingJobs
  quiet : (∃ i, (s.pool.locals i).phase.exit = some .lastJob) →
    s.pool.shared.onlyTokens ∧ ∀ i, (s.pool.locals i).phase.quiet = true
  done : ∀ result, s.main.result = some result →
    result = (collect s.main.received).result ∧ s.pool.shared.resultq = 0 ∧ s.pool.shared.elementsLeftToPush = 0

theorem initial_invariant (o : Options) (tree : DirectoryTree) : Invariant o tree (initial o tree) where
  pending := by simp [initial,Job.directories,Phase.pending]
  tokens := by simp [initial,Job.tokens,Phase.tokens]
  unreported := by simp [initial,Phase.unreported]
  reported := by simp [initial,Phase.reported]
  yields := by
    have none_ : found [] = 0 := rfl
    simp [initial,Job.yields,Worker.yields,Phase.yields,none_]
  sound := fun _ => ⟨fun _ => (nomatch ·),(nomatch ·),fun _ => (nomatch ·)⟩
  started := fun _ => Int.le_refl 1
  quiet := fun ⟨_,ends⟩ => nomatch ends
  done := fun _ result => nomatch result

theorem directories_nonneg (jobq : Multiset Job) : 0 ≤ (jobq.map Job.directories).sum := by
  induction jobq using Multiset.induction_on with
  | empty => exact Int.le_refl 0
  | cons job jobq ih =>
    rw [Multiset.map_cons,Multiset.sum_cons]
    cases job with
    | QuitToken => exact add_nonneg (Int.le_refl 0) ih
    | path => exact add_nonneg Int.one_nonneg ih

theorem onlyTokens_of_directories {jobq : Multiset Job} (none_ : (jobq.map Job.directories).sum = 0) :
    ∀ job ∈ jobq, job = .QuitToken := by
  induction jobq using Multiset.induction_on with
  | empty => exact fun job member => absurd member (Multiset.notMem_zero job)
  | cons head jobq ih =>
    rw [Multiset.map_cons,Multiset.sum_cons] at none_
    have rest := directories_nonneg jobq
    cases head with
    | path =>
      simp only [Job.directories] at none_ rest
      omega
    | QuitToken =>
      simp only [Job.directories,zero_add] at none_
      intro job member
      rcases Multiset.mem_cons.mp member with rfl | member
      · rfl
      · exact ih none_ job member

-- A count of zero leaves nothing to be done.
theorem nothing_left {jobq : Multiset Job} {locals : Fin o.numWorkers → Worker}
    (pending : (0 - (jobq.map Job.directories).sum) + ∑ i, -(locals i).phase.pending o = 0) :
    (∀ job ∈ jobq, job = .QuitToken) ∧ ∀ i, (locals i).phase.quiet = true := by
  have queued := directories_nonneg jobq
  have each : ∀ i ∈ Finset.univ, 0 ≤ (locals i).phase.pending o := fun i _ => Phase.pending_nonneg _
  have held := Finset.sum_nonneg each
  rw [Finset.sum_neg_distrib] at pending
  refine ⟨onlyTokens_of_directories (by omega),?_⟩
  intro i
  have zero : ∑ i, (locals i).phase.pending o = 0 := by omega
  exact Phase.quiet_of_pending ((Finset.sum_eq_zero_iff_of_nonneg each).mp zero i (Finset.mem_univ i))

theorem Phase.unreported_nonneg (phase : Phase) : 0 ≤ phase.unreported := by
  cases phase with
  | signaling exit => cases exit <;> simp [Phase.unreported,Exit.unreported]
  | quitting exit left => cases exit <;> simp [Phase.unreported,Exit.unreported]
  | _ => simp [Phase.unreported]

theorem all_reported {locals : Fin o.numWorkers → Worker} (zero : (0 : Int) + ∑ i, -(locals i).phase.unreported = 0)
    (i : Fin o.numWorkers) : (locals i).phase.unreported = 0 := by
  have each : ∀ i ∈ Finset.univ, 0 ≤ (locals i).phase.unreported := fun i _ => Phase.unreported_nonneg _
  rw [Finset.sum_neg_distrib] at zero
  have total : ∑ i, (locals i).phase.unreported = 0 := by omega
  exact (Finset.sum_eq_zero_iff_of_nonneg each).mp total i (Finset.mem_univ i)

-- Nothing is pushed any more by a worker that has pushed its result.
theorem Acts.no_more {a b : Shared} {l m : Worker} (acts : Acts o a l b m) (reported : l.phase.unreported = 0) :
    b.resultq = a.resultq ∧ b.elementsLeftToPush = a.elementsLeftToPush := by
  cases acts with
  | report => cases reported
  | publish => cases reported
  | _ => exact ⟨rfl,rfl⟩

theorem Invariant.worker {tree : DirectoryTree} {s : State o} {i : Fin o.numWorkers}
    {pool : Parties Shared Worker (Fin o.numWorkers)} (inv : Invariant o tree s) (acting : Acting (Acts o) s.pool i pool) :
    Invariant o tree ⟨pool,s.main⟩ := by
  have pending := acting.conserves (fun a => a.pendingJobs - (a.jobq.map Job.directories).sum) (fun l => -l.phase.pending o)
    fun _ _ _ _ => Acts.pending
  have tokens := acting.conserves (fun a => (a.jobq.map Job.tokens).sum) (fun l => l.phase.tokens o) fun _ _ _ _ => Acts.tokens
  have unreported := acting.conserves (fun a => a.elementsLeftToPush) (fun l => -l.phase.unreported)
    fun _ _ _ _ => Acts.unreported
  have reported := acting.conserves (fun a => (a.resultq.map JobOutput.exceptions).sum) (fun l => -l.phase.reported)
    fun _ _ _ _ => Acts.reported
  have yields := acting.conserves (fun a => (a.jobq.map (Job.yields o)).sum + (a.resultq.map JobOutput.yields).sum)
    (fun l => l.yields o) fun _ _ _ _ => Acts.yields
  have counted := pending.trans inv.pending
  refine ⟨counted,tokens.trans inv.tokens,unreported.trans inv.unreported,?_,?_,?_,?_,?_,?_⟩
  · exact (congrArg (· + _) reported).trans inv.reported
  · exact (congrArg (· + _) yields).trans inv.yields
  · exact acting.keeps (fun _ l => l.Sound) (fun _ _ _ _ before acts => acts.sound before)
      (fun _ _ _ _ _ _ other _ => other) inv.sound
  · intro working
    apply acting.own.positive (working i)
    apply inv.started
    intro j ends
    by_cases same : j = i
    · subst same
      exact working j (acting.own.exit ends)
    · apply working j
      rw [acting.others same]
      exact ends
  · rintro ⟨j,ends⟩
    by_cases earlier : ∃ i, (s.pool.locals i).phase.exit = some .lastJob
    · obtain ⟨only,quiet⟩ := inv.quiet earlier
      have rule := acting.keeps fun a l => a.onlyTokens ∧ l.phase.quiet = true
      have kept := rule
        (fun _ _ _ _ before acts => acts.stays_quiet before.1 before.2)
        (fun _ _ _ _ _ before other acts => ⟨(acts.stays_quiet before.1 before.2).1,other.2⟩) fun i => ⟨only,quiet i⟩
      exact ⟨(kept j).1,fun i => (kept i).2⟩
    · -- This action has just found the count at zero.
      have own : j = i := by
        by_contra other
        rw [acting.others other] at ends
        exact earlier ⟨j,ends⟩
      subst own
      have zero := acting.own.zero ends fun before => earlier ⟨j,before⟩
      rw [zero] at counted
      exact nothing_left counted
  · intro result ended
    obtain ⟨whole,empty,through⟩ := inv.done result ended
    have balance := inv.unreported
    rw [through] at balance
    obtain ⟨resultq,left⟩ := acting.own.no_more (all_reported balance i)
    exact ⟨whole,resultq.trans empty,left.trans through⟩

theorem Invariant.main {tree : DirectoryTree} {s : State o} {shared : Shared} {main : Main} (inv : Invariant o tree s)
    (acts : MainActs s.pool.shared s.main shared main) : Invariant o tree ⟨⟨shared,s.pool.locals⟩,main⟩ := by
  obtain ⟨⟨a,locals⟩,before⟩ := s
  obtain ⟨pending,tokens,unreported,reported,yields,sound,started,quiet,_⟩ := inv
  dsimp only at acts pending tokens unreported reported yields started quiet
  cases acts with
  | gotItem popped =>
    refine ⟨pending,tokens,unreported,?_,?_,sound,started,quiet,fun _ ended => nomatch ended⟩
    · rw [popped] at reported
      rw [← reported]
      simp only [Multiset.map_cons,Multiset.sum_cons,List.map_append,List.sum_append,List.map_singleton,List.sum_singleton]
      abel
    · rw [popped] at yields
      rw [← yields]
      simp only [Multiset.map_cons,Multiset.sum_cons,List.map_append,List.sum_append,List.map_singleton,List.sum_singleton]
      abel
  | retry => exact ⟨pending,tokens,unreported,reported,yields,sound,started,quiet,fun _ ended => nomatch ended⟩
  | done empty through =>
    refine ⟨pending,tokens,unreported,reported,yields,sound,started,quiet,?_⟩
    intro result ended
    exact ⟨(Option.some.inj ended).symm,empty,through⟩

section Measure

-- The steps left: each queued, listed or counted directory pays for its own,
-- and each worker for the tokens it may yet have to push.
mutual
def Contents.work : Contents → Nat
  | .unreadable _ => 0
  | .readable entries => entries.work
def Entries.work : Entries → Nat
  | .nil => 0
  | .file _ rest => rest.work + 1
  | .directory _ _ contents rest => contents.work + rest.work + 4
end

def Job.work : Job → Nat
  | .QuitToken => 0
  | .path _ contents => contents.work + 2

def Phase.work (o : Options) : Phase → Nat
  | .popping => o.numWorkers + 7
  | .listing _ _ entries => o.numWorkers + 8 + entries.work
  | .pushing _ contents _ _ entries => o.numWorkers + 8 + entries.work + contents.work + 3
  | .throwing _ => o.numWorkers + 6
  | .signaling _ => o.numWorkers + 4
  | .quitting _ left => left + 3
  | .publishing _ => 2
  | .finished _ => 0

def Shared.work (shared : Shared) : Nat := (shared.jobq.map Job.work).sum + shared.resultq.card

def Main.work (main : Main) : Nat := if main.result.isSome then 0 else 1

def State.work (s : State o) : Nat := s.pool.shared.work + ∑ i, (s.pool.locals i).phase.work o + s.main.work

theorem Contents.work_entries (contents : Contents) : contents.entries.work = contents.work := by
  cases contents with
  | unreadable => rfl
  | readable => rfl

variable {a b : Shared} {l m : Worker}

theorem Acts.work (acts : Acts o a l b m) :
    (a.jobq = 0 ∧ l.phase = .popping ∧ b = a ∧ m = l) ∨ b.work + m.phase.work o < a.work + l.phase.work o := by
  cases acts with
  | missed empty => exact .inl ⟨empty,rfl,rfl,rfl⟩
  | quitToken popped =>
    right
    simp [Shared.work,popped,Job.work,Phase.work]
  | directory popped =>
    right
    simp [Shared.work,popped,Job.work,Phase.work,Contents.work_entries]
    omega
  | _ =>
    right
    simp [Shared.work,Job.work,Phase.work,Entries.work]
    try omega

end Measure

section Termination
variable {a b : Shared} {l m : Worker} {tree : DirectoryTree} {s t : State o}

theorem Step.work {thread : Thread o} (step : Step o s thread t) : t.work < s.work ∨ t = s := by
  cases step with
  | @worker i pool acting =>
    rcases acting.own.work with ⟨_,_,same,kept⟩ | less
    · right
      obtain ⟨⟨shared,locals⟩,main⟩ := s
      obtain ⟨act⟩ := acting
      dsimp only [Function.update_self] at same kept
      rw [Function.update_self] at kept
      rw [same,kept,Function.update_eq_self]
    · left
      exact Nat.add_lt_add_right (acting.lowers Shared.work (fun l => l.phase.work o) less) _
  | main acts =>
    obtain ⟨⟨shared,locals⟩,main⟩ := s
    dsimp only at acts
    cases acts with
    | gotItem popped =>
      left
      simp [State.work,Shared.work,popped,Main.work]
    | retry => exact .inr rfl
    | done =>
      left
      simp [State.work,Main.work]

-- What a worker does that neither waits for a job nor is through.
theorem Worker.Sound.enabled (sound : l.Sound) (busy : l.phase ≠ .popping) (working : ∀ exit, l.phase ≠ .finished exit) :
    ∃ b m, Acts o a l b m := by
  obtain ⟨phase,output⟩ := l
  cases phase with
  | popping => exact absurd rfl busy
  | listing path ec entries =>
    cases entries with
    | file name rest =>
      by_cases listed : o.lists (join path name) = true
      · exact ⟨_,_,.pushBack listed⟩
      · exact ⟨_,_,.skipFile (Bool.eq_false_iff.mpr listed)⟩
    | directory name is_symlink contents rest =>
      by_cases entered : o.enters is_symlink (join path name) = true
      · exact ⟨_,_,.count entered⟩
      · exact ⟨_,_,.skipDirectory (Bool.eq_false_iff.mpr entered)⟩
    | nil =>
      by_cases survived : ∀ e, ec = some e → o.vanished path e = true
      · by_cases remaining : a.pendingJobs - 1 = 0
        · exact ⟨_,_,.lastJob survived remaining⟩
        · exact ⟨_,_,.decrement survived remaining⟩
      · push Not at survived
        obtain ⟨e,rfl,failed⟩ := survived
        exact ⟨_,_,.throw (Bool.eq_false_iff.mpr failed)⟩
  | pushing => exact ⟨_,_,.push⟩
  | throwing => exact ⟨_,_,.report⟩
  | signaling exit => exact ⟨_,_,.signal⟩
  | quitting exit left =>
    cases left with
    | succ left => exact ⟨_,_,.quit⟩
    | zero =>
      cases exit with
      | quitToken => exact absurd rfl (sound.quitting 0)
      | lastJob => exact ⟨_,_,.leave⟩
      | caught => exact ⟨_,_,.giveUp⟩
  | publishing => exact ⟨_,_,.publish⟩
  | finished exit => exact absurd rfl (working exit)

theorem Acts.pops {output : List Path} (filled : a.jobq ≠ 0) : ∃ b m, Acts o a ⟨.popping,output⟩ b m := by
  obtain ⟨job,member⟩ := Multiset.exists_mem_of_ne_zero filled
  obtain ⟨rest,popped⟩ := Multiset.exists_cons_of_mem member
  cases job with
  | QuitToken => exact ⟨_,_,.quitToken popped⟩
  | path => exact ⟨_,_,.directory popped⟩

def Waiting (worker : Worker) : Prop := worker.phase = .popping ∨ ∃ exit, worker.phase = .finished exit

theorem tokens_le {worker : Worker} (waiting : Waiting worker) : worker.phase.tokens o ≤ 1 := by
  rcases waiting with now | ⟨exit,now⟩
  · rw [now]
    exact Int.zero_le_ofNat 1
  · rw [now]
    cases exit <;> simp [Phase.tokens,Exit.tokens]

theorem tokens_of_pending {worker : Worker} (waiting : Waiting worker) (counts : worker.phase.pending o ≠ 0) :
    worker.phase.tokens o = -o.numWorkers := by
  rcases waiting with now | ⟨exit,now⟩
  · exact absurd (now ▸ rfl) counts
  · rw [now] at counts ⊢
    cases exit with
    | quitToken => exact absurd rfl counts
    | lastJob => rfl
    | caught => rfl

-- While the workers only wait the queue has an element: before the shutdown a directory, then
-- a token of which there are as many as workers from each that has given the sign.
theorem Invariant.filled (inv : Invariant o tree s) (waiting : ∀ i, Waiting (s.pool.locals i)) : s.pool.shared.jobq ≠ 0 := by
  intro empty
  have signaled : ∃ i, (s.pool.locals i).phase.tokens o = -o.numWorkers := by
    by_cases ended : ∃ i, (s.pool.locals i).phase.exit = some .lastJob
    · obtain ⟨i,ended⟩ := ended
      rcases waiting i with now | ⟨exit,now⟩
      · rw [now] at ended
        cases ended
      · rw [now] at ended
        cases ended
        exact ⟨i,now ▸ rfl⟩
    · push Not at ended
      have positive := inv.started ended
      have pending := inv.pending
      rw [empty,Multiset.map_zero,Multiset.sum_zero,Finset.sum_neg_distrib] at pending
      have some_ : ∑ i, (s.pool.locals i).phase.pending o ≠ 0 := by omega
      obtain ⟨i,_,counts⟩ := Finset.exists_ne_zero_of_sum_ne_zero some_
      exact ⟨i,tokens_of_pending (waiting i) counts⟩
  obtain ⟨i,taken⟩ := signaled
  have tokens := inv.tokens
  rw [empty,Multiset.map_zero,Multiset.sum_zero,zero_add] at tokens
  have each : ∀ j ∈ Finset.univ, 0 ≤ 1 - (s.pool.locals j).phase.tokens o := fun j _ => Int.sub_nonneg_of_le (tokens_le (waiting j))
  have one := Finset.single_le_sum each (Finset.mem_univ i)
  rw [Finset.sum_sub_distrib,tokens,taken] at one
  simp at one

def State.Ended (s : State o) : Prop := (∀ i, ∃ exit, (s.pool.locals i).phase = .finished exit) ∧ s.main.result.isSome = true

theorem worker_live {i : Fin o.numWorkers} (able : ∃ b m, Acts o s.pool.shared (s.pool.locals i) b m)
    (moves : (s.pool.locals i).phase = .popping → s.pool.shared.jobq ≠ 0) :
    ∃ thread, (∃ t, Step o s thread t) ∧ ∀ t, Step o s thread t → t.work < s.work := by
  obtain ⟨b,m,acts⟩ := able
  refine ⟨.worker i,⟨_,.worker (.act acts)⟩,?_⟩
  intro t step
  cases step with
  | worker acting =>
    rcases acting.own.work with ⟨empty,now,_⟩ | less
    · exact absurd empty (moves now)
    · exact Nat.add_lt_add_right (acting.lowers Shared.work (fun l => l.phase.work o) less) _

theorem Invariant.main_live (inv : Invariant o tree s) (through : ∀ i, ∃ exit, (s.pool.locals i).phase = .finished exit)
    (open_ : s.main.result = none) : ∃ thread, (∃ t, Step o s thread t) ∧ ∀ t, Step o s thread t → t.work < s.work := by
  have none_ : s.pool.shared.elementsLeftToPush = 0 := by
    have unreported := inv.unreported
    have each : ∀ i ∈ Finset.univ, -(s.pool.locals i).phase.unreported = 0 := by
      intro i _
      obtain ⟨exit,now⟩ := through i
      rw [now]
      rfl
    rwa [Finset.sum_eq_zero each,add_zero] at unreported
  obtain ⟨⟨shared,locals⟩,⟨received,result⟩⟩ := s
  dsimp only at none_ open_
  subst open_
  refine ⟨.main,?_,?_⟩
  · by_cases empty : shared.resultq = 0
    · exact ⟨_,.main (.done empty none_)⟩
    · obtain ⟨threadResult,member⟩ := Multiset.exists_mem_of_ne_zero empty
      obtain ⟨rest,popped⟩ := Multiset.exists_cons_of_mem member
      exact ⟨_,.main (.gotItem popped)⟩
  · intro t step
    cases step with
    | main acts =>
      dsimp only at acts
      cases acts with
      | gotItem popped => simp [State.work,Shared.work,popped,Main.work]
      | retry _ more => exact absurd none_ more
      | done => simp [State.work,Main.work]

theorem Invariant.live (inv : Invariant o tree s) (open_ : ¬s.Ended) :
    ∃ thread, (∃ t, Step o s thread t) ∧ ∀ t, Step o s thread t → t.work < s.work := by
  by_cases waiting : ∀ i, Waiting (s.pool.locals i)
  · by_cases popping : ∃ i, (s.pool.locals i).phase = .popping
    · obtain ⟨i,now⟩ := popping
      have filled := inv.filled waiting
      apply @worker_live _ _ i ?_ fun _ => filled
      have own : s.pool.locals i = ⟨.popping,(s.pool.locals i).output⟩ := by rw [← now]
      rw [own]
      exact Acts.pops filled
    · have through : ∀ i, ∃ exit, (s.pool.locals i).phase = .finished exit :=
        fun i => (waiting i).resolve_left fun now => popping ⟨i,now⟩
      apply inv.main_live through
      cases result : s.main.result with
      | none => rfl
      | some _ => exact absurd ⟨through,result ▸ rfl⟩ open_
  · push Not at waiting
    obtain ⟨i,busy⟩ := waiting
    have moves : (s.pool.locals i).phase ≠ .popping := fun now => busy (.inl now)
    exact worker_live ((inv.sound i).enabled moves fun exit now => busy (.inr ⟨exit,now⟩)) fun now => absurd now moves

end Termination

section Results

def gained (received : List JobOutput) : Yield := (received.map JobOutput.yields).sum

theorem collect_snoc (received : List JobOutput) (r : JobOutput) : collect (received ++ [r]) = (collect received).add r := by
  rw [collect,List.foldl_append]
  rfl

theorem gained_snoc (received : List JobOutput) (r : JobOutput) : gained (received ++ [r]) = gained received + r.yields := by
  rw [gained,List.map_append,List.sum_append,List.map_singleton,List.sum_singleton]
  rfl

-- What the main thread has of the results.
structure Gathered (received : List JobOutput) : Prop where
  paths : (gained received).1 = (collect received).allPaths
  fileNotFound : ∀ message, (collect received).fileNotFound = some message → .FileNotFoundException message ∈ (gained received).2
  fileNotDir : (collect received).fileNotDir = true → .FileNotDirException ∈ (gained received).2
  some_ : (gained received).2 ≠ 0 → (collect received).fileNotFound.isSome = true ∨ (collect received).fileNotDir = true

theorem gathered (received : List JobOutput) : Gathered received := by
  induction received using List.reverseRecOn with
  | nil => exact ⟨rfl,fun _ => (nomatch ·),(nomatch ·),fun some_ => absurd rfl some_⟩
  | append_singleton received r ih =>
    obtain ⟨paths,fileNotFound,fileNotDir,some_⟩ := ih
    have splits : ∀ e, e ∈ (gained received + r.yields).2 ↔ e ∈ (gained received).2 ∨ e ∈ r.yields.2 :=
      fun _ => Multiset.mem_add
    constructor
    · rw [collect_snoc,gained_snoc,Prod.fst_add,paths]
      cases r with
      | paths output => rfl
      | exception e => cases e <;> exact add_zero _
    · intro message first
      rw [collect_snoc] at first
      rw [gained_snoc,splits]
      cases r with
      | paths output => exact .inl (fileNotFound message first)
      | exception e =>
        cases e with
        | FileNotDirException => exact .inl (fileNotFound message first)
        | FileNotFoundException own =>
          dsimp only [Collected.add] at first
          cases earlier : (collect received).fileNotFound with
          | some _ =>
            rw [earlier] at first
            exact .inl (fileNotFound message (earlier.trans first))
          | none =>
            rw [earlier] at first
            cases first
            exact .inr (Multiset.mem_singleton_self _)
    · intro seen
      rw [collect_snoc] at seen
      rw [gained_snoc,splits]
      cases r with
      | paths output => exact .inl (fileNotDir seen)
      | exception e =>
        cases e with
        | FileNotFoundException own => exact .inl (fileNotDir seen)
        | FileNotDirException => exact .inr (Multiset.mem_singleton_self _)
    · intro raised
      rw [collect_snoc]
      rw [gained_snoc,Prod.snd_add] at raised
      cases r with
      | paths output => exact some_ fun none_ => raised (by rw [none_]; rfl)
      | exception e =>
        cases e with
        | FileNotDirException => exact .inr rfl
        | FileNotFoundException own =>
          left
          cases earlier : (collect received).fileNotFound <;> simp [Collected.add,earlier]

theorem Gathered.ok {received : List JobOutput} (all : Gathered received) (none_ : (gained received).2 = 0) :
    (collect received).result = .ok (collect received).allPaths := by
  have noFile : (collect received).fileNotFound = none := by
    cases seen : (collect received).fileNotFound with
    | none => rfl
    | some message => exact absurd (none_ ▸ all.fileNotFound message seen) (Multiset.notMem_zero _)
  have noDir : (collect received).fileNotDir = false := by
    cases seen : (collect received).fileNotDir with
    | false => rfl
    | true => exact absurd (none_ ▸ all.fileNotDir seen) (Multiset.notMem_zero _)
  unfold Collected.result
  rw [noFile,noDir]
  rfl

theorem Gathered.error {received : List JobOutput} (all : Gathered received) (some_ : (gained received).2 ≠ 0) :
    ∃ e ∈ (gained received).2, (collect received).result = .error e := by
  unfold Collected.result
  cases seen : (collect received).fileNotFound with
  | some message => exact ⟨_,all.fileNotFound message seen,rfl⟩
  | none =>
    have dir := (all.some_ some_).resolve_left (by rw [seen]; exact Bool.false_ne_true)
    exact ⟨_,all.fileNotDir dir,by rw [dir]; rfl⟩

theorem exceptions_card (received : List JobOutput) : (received.map JobOutput.exceptions).sum = (gained received).2.card := by
  induction received with
  | nil => rfl
  | cons r received ih =>
    have head : r.exceptions = r.yields.2.card := by cases r <;> rfl
    have tail : (gained (r :: received)).2 = r.yields.2 + (gained received).2 := by
      rw [gained,List.map_cons,List.sum_cons]
      rfl
    rw [List.map_cons,List.sum_cons,ih,head,tail,Multiset.card_add,Nat.cast_add]

theorem Phase.reported_nonneg (phase : Phase) : 0 ≤ phase.reported := by
  cases phase <;> first | exact Exit.held_nonneg _ | exact Int.le_refl 0

-- A worker that has pushed its result and no exception is through.
theorem through_of_reported {phase : Phase} (pushed : phase.unreported = 0) (fine : phase.reported = 0) :
    ∃ exit, phase = .finished exit ∧ exit.held = 0 := by
  cases phase with
  | finished exit => exact ⟨exit,rfl,fine⟩
  | signaling exit => cases exit <;> simp_all [Phase.unreported,Exit.unreported,Phase.reported,Exit.held]
  | quitting exit left => cases exit <;> simp_all [Phase.unreported,Exit.unreported,Phase.reported,Exit.held]
  | _ => cases pushed

theorem tokens_nonneg (jobq : Multiset Job) : 0 ≤ (jobq.map Job.tokens).sum := by
  apply Multiset.sum_nonneg
  intro count member
  obtain ⟨job,_,rfl⟩ := Multiset.mem_map.mp member
  cases job
  · exact Int.one_nonneg
  · exact Int.le_refl 0

variable {tree : DirectoryTree} {s : State o}

-- The last worker has given the sign where all are through without an exception.
theorem Invariant.ended (inv : Invariant o tree s) (through : ∀ i, ∃ exit, (s.pool.locals i).phase = .finished exit ∧ exit.held = 0) :
    ∃ i, (s.pool.locals i).phase.exit = some .lastJob := by
  by_contra never
  have each : ∀ i ∈ Finset.univ, (s.pool.locals i).phase.tokens o = 1 := by
    intro i _
    obtain ⟨exit,now,fine⟩ := through i
    cases exit with
    | quitToken =>
      rw [now]
      rfl
    | lastJob => exact absurd ⟨i,now ▸ rfl⟩ never
    | caught => cases fine
  have tokens := inv.tokens
  have left := tokens_nonneg s.pool.shared.jobq
  have filled : 0 < o.numWorkers := numWorkers_pos
  rw [Finset.sum_congr rfl each] at tokens
  simp only [Finset.sum_const,Finset.card_univ,Fintype.card_fin,nsmul_eq_mul,mul_one] at tokens
  omega

-- Without an exception everything that the tree has to give has been received.
theorem Invariant.complete (inv : Invariant o tree s) (empty : s.pool.shared.resultq = 0)
    (through : s.pool.shared.elementsLeftToPush = 0) (fine : (gained s.main.received).2 = 0) :
    gained s.main.received = tree.contents.yields o o.basePath := by
  have unreported := inv.unreported
  rw [through] at unreported
  have reported := inv.reported
  rw [exceptions_card,fine,empty,Finset.sum_neg_distrib] at reported
  have each : ∀ i ∈ Finset.univ, 0 ≤ (s.pool.locals i).phase.reported := fun i _ => Phase.reported_nonneg _
  have zero : ∑ i, (s.pool.locals i).phase.reported = 0 := by simpa using reported
  have ends : ∀ i, ∃ exit, (s.pool.locals i).phase = .finished exit ∧ exit.held = 0 := by
    intro i
    have own := (Finset.sum_eq_zero_iff_of_nonneg each).mp zero i (Finset.mem_univ i)
    exact through_of_reported (all_reported unreported i) own
  obtain ⟨only,_⟩ := inv.quiet (inv.ended ends)
  have queued : (s.pool.shared.jobq.map (Job.yields o)).sum = 0 := by
    apply Multiset.sum_eq_zero
    intro part member
    obtain ⟨job,queued,rfl⟩ := Multiset.mem_map.mp member
    rw [only job queued]
    rfl
  have held : ∀ i ∈ Finset.univ, (s.pool.locals i).yields o = 0 := by
    intro i _
    obtain ⟨exit,now,fine⟩ := ends i
    have moved := ((inv.sound i).moved exit now).resolve_left (by rintro rfl; cases fine)
    unfold Worker.yields
    rw [now,moved]
    rfl
  have yields := inv.yields
  rw [queued,empty,Finset.sum_eq_zero held,Multiset.map_zero,Multiset.sum_zero,zero_add,zero_add,zero_add] at yields
  exact yields

theorem Invariant.result (inv : Invariant o tree s) {result : Except SorbetException (List Path)}
    (returned : s.main.result = some result) :
    (tree.contents.failures o o.basePath = [] → ∃ paths, result = .ok paths ∧ paths.Perm (tree.contents.files o o.basePath)) ∧
    (tree.contents.failures o o.basePath ≠ [] → ∃ e ∈ tree.contents.failures o o.basePath, result = .error e) := by
  obtain ⟨rfl,empty,through⟩ := inv.done result returned
  have all := gathered s.main.received
  have within : ∀ e ∈ (gained s.main.received).2, e ∈ tree.contents.failures o o.basePath := by
    intro e raised
    have second := congrArg Prod.snd inv.yields
    rw [Prod.snd_add] at second
    have member : e ∈ (tree.contents.yields o o.basePath).2 := second ▸ Multiset.mem_add.mpr (.inr raised)
    exact Multiset.mem_coe.mp member
  by_cases fine : (gained s.main.received).2 = 0
  · have whole := inv.complete empty through fine
    have noFailure : tree.contents.failures o o.basePath = [] := by
      rw [whole] at fine
      exact (Multiset.coe_eq_zero _).mp fine
    refine ⟨fun _ => ⟨_,all.ok fine,?_⟩,fun failed => absurd noFailure failed⟩
    have paths := all.paths
    rw [whole] at paths
    exact (Multiset.coe_eq_coe.mp paths).symm
  · obtain ⟨e,raised,result⟩ := all.error fine
    refine ⟨?_,fun _ => ⟨e,within e raised,result⟩⟩
    intro noFailure
    have member := within e raised
    rw [noFailure] at member
    cases member

end Results

section Main

def Job.isDirectory : Job → Bool
  | .QuitToken => false
  | .path _ _ => true

def Phase.lists : Phase → Bool
  | .listing _ _ _ => true
  | .pushing _ _ _ _ _ => true
  | _ => false

def State.queued (s : State o) : Nat := s.pool.shared.jobq.countP fun job => job.isDirectory
def State.listed (s : State o) : Nat := (Finset.univ.filter fun i => (s.pool.locals i).phase.lists).card

theorem countP_directories (jobq : Multiset Job) : (jobq.countP fun job => job.isDirectory) = (jobq.map Job.directories).sum := by
  induction jobq using Multiset.induction_on with
  | empty => rfl
  | cons job jobq ih =>
    rw [Multiset.countP_cons,Multiset.map_cons,Multiset.sum_cons,← ih]
    cases job with
    | QuitToken => simp [Job.isDirectory,Job.directories]
    | path => simp [Job.isDirectory,Job.directories,add_comm]

theorem Invariant.covers {tree : DirectoryTree} {s : State o} (inv : Invariant o tree s) :
    (s.queued + s.listed : Int) ≤ s.pool.shared.pendingJobs := by
  have each : ∀ i ∈ Finset.univ,
      (if (s.pool.locals i).phase.lists then (1 : Int) else 0) ≤ (s.pool.locals i).phase.pending o := by
    intro i _
    cases now : (s.pool.locals i).phase with
    | listing => simp [Phase.lists,Phase.pending]
    | pushing => simp [Phase.lists,Phase.pending]
    | _ =>
      rw [← now]
      have notListed : (s.pool.locals i).phase.lists = false := by rw [now]; rfl
      rw [notListed]
      exact Phase.pending_nonneg _
  have held := Finset.sum_le_sum each
  have listed : (s.listed : Int) = ∑ i, if (s.pool.locals i).phase.lists then (1 : Int) else 0 :=
    Finset.natCast_card_filter _ _
  have queued := countP_directories s.pool.shared.jobq
  have pending := inv.pending
  rw [Finset.sum_neg_distrib] at pending
  unfold State.queued
  rw [queued,listed]
  omega

-- A directory of the root that is gone when it is opened: "/r" with "a", and no extension allowed.
def vanishedOptions : Options := ⟨[0x2F,0x72],[],0,true,[],[]⟩
def alone (a : Shared) (l : Worker) (main : Main) : State vanishedOptions := ⟨⟨a,fun _ => l⟩,main⟩

end Main
end Common.FileOps
