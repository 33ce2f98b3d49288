import ScipRuby.Lib.Traces

namespace Lsp
open Traces

structure TypecheckingStatus where
  slowPathRunning : Bool
  slowPathWasCanceled : Bool
  epoch : UInt32
  deriving DecidableEq,Repr

-- The three counters that `epochMutex` guards.
structure TypecheckEpochManager where
  currentlyProcessingLSPEpoch : UInt32 := 0
  lspEpochInvalidator : UInt32 := 0
  lastCommittedLSPEpoch : UInt32 := 0
  deriving DecidableEq,Repr

namespace TypecheckEpochManager

def startCommitEpoch (m : TypecheckEpochManager) (epoch : UInt32) : TypecheckEpochManager :=
  {m with currentlyProcessingLSPEpoch := epoch,lspEpochInvalidator := epoch}

def wasTypecheckingCanceled (m : TypecheckEpochManager) : Bool :=
  m.lspEpochInvalidator != m.currentlyProcessingLSPEpoch

def getStatus (m : TypecheckEpochManager) : TypecheckingStatus where
  slowPathRunning := m.currentlyProcessingLSPEpoch != m.lastCommittedLSPEpoch
  slowPathWasCanceled := m.currentlyProcessingLSPEpoch != m.lspEpochInvalidator
  epoch := m.currentlyProcessingLSPEpoch

def tryCancelSlowPath (m : TypecheckEpochManager) (newEpoch : UInt32) : Bool × TypecheckEpochManager :=
  let processing := m.currentlyProcessingLSPEpoch
  if processing = m.lastCommittedLSPEpoch ∨ newEpoch = processing then (false,m)
  else (true,{m with lspEpochInvalidator := newEpoch})

-- The section of tryCommitEpoch that runs under the mutex. The typechecking
-- before it and the drain of the preemption slot after it take no epoch lock.
def commitSection (m : TypecheckEpochManager) : Bool × TypecheckEpochManager :=
  let processing := m.currentlyProcessingLSPEpoch
  if processing = m.lspEpochInvalidator then (true,{m with lastCommittedLSPEpoch := processing})
  else
    let lastCommitted := m.lastCommittedLSPEpoch
    (false,{m with currentlyProcessingLSPEpoch := lastCommitted,lspEpochInvalidator := lastCommitted})

-- All three counters stand at the last committed epoch.
def Settled (m : TypecheckEpochManager) : Prop :=
  m.currentlyProcessingLSPEpoch = m.lastCommittedLSPEpoch ∧ m.lspEpochInvalidator = m.lastCommittedLSPEpoch

instance (m : TypecheckEpochManager) : Decidable m.Settled := inferInstanceAs (Decidable (_ ∧ _))

variable {m m' : TypecheckEpochManager} {epoch newEpoch : UInt32}

@[simp] theorem startCommitEpoch_processing : (m.startCommitEpoch epoch).currentlyProcessingLSPEpoch = epoch := rfl
@[simp] theorem startCommitEpoch_invalidator : (m.startCommitEpoch epoch).lspEpochInvalidator = epoch := rfl
@[simp] theorem startCommitEpoch_committed :
    (m.startCommitEpoch epoch).lastCommittedLSPEpoch = m.lastCommittedLSPEpoch := rfl

theorem tryCancelSlowPath_true (canceled : m.tryCancelSlowPath newEpoch = (true,m')) :
    newEpoch ≠ m.currentlyProcessingLSPEpoch ∧ m.currentlyProcessingLSPEpoch ≠ m.lastCommittedLSPEpoch ∧
      m' = {m with lspEpochInvalidator := newEpoch} := by
  simp only [tryCancelSlowPath] at canceled
  split at canceled
  · cases canceled
  · rename_i open_
    cases canceled
    exact ⟨fun same => open_ (.inr same),fun same => open_ (.inl same),rfl⟩

theorem tryCancelSlowPath_false (refused : m.tryCancelSlowPath newEpoch = (false,m')) : m' = m := by
  simp only [tryCancelSlowPath] at refused
  split at refused <;> cases refused
  rfl

theorem commitSection_true (committed : m.commitSection = (true,m')) :
    m.currentlyProcessingLSPEpoch = m.lspEpochInvalidator ∧
      m' = {m with lastCommittedLSPEpoch := m.currentlyProcessingLSPEpoch} := by
  simp only [commitSection] at committed
  split at committed
  · rename_i same
    cases committed
    exact ⟨same,rfl⟩
  · cases committed

theorem commitSection_false (canceled : m.commitSection = (false,m')) :
    m.currentlyProcessingLSPEpoch ≠ m.lspEpochInvalidator ∧ m'.Settled ∧
      m'.lastCommittedLSPEpoch = m.lastCommittedLSPEpoch := by
  simp only [commitSection] at canceled
  split at canceled
  · cases canceled
  · rename_i different
    cases canceled
    exact ⟨different,⟨rfl,rfl⟩,rfl⟩

theorem commitSection_settled {committed : Bool} (section_ : m.commitSection = (committed,m')) : m'.Settled := by
  cases committed with
  | false => exact (commitSection_false section_).2.1
  | true =>
    obtain ⟨same,rfl⟩ := commitSection_true section_
    exact ⟨rfl,same.symm⟩

end TypecheckEpochManager

namespace Epochs
open TypecheckEpochManager

-- The mutex sections of the two threads with the results they give.
inductive Event where
  | startCommitEpoch (epoch : UInt32)
  | tryCommitEpoch (epoch : UInt32) (committed : Bool)
  | tryCancelSlowPath (newEpoch : UInt32) (canceled : Bool)
  | getStatus (status : TypecheckingStatus)
  deriving DecidableEq,Repr

structure System where
  manager : TypecheckEpochManager := {}
  -- the epoch that the typechecking thread has started and not yet tried to commit
  typechecking : Option UInt32 := none
  deriving DecidableEq,Repr

-- The typechecking thread alternates startCommitEpoch and tryCommitEpoch; the
-- processing thread calls the other two at any moment. The ENFORCEs on the epochs
-- are left out: the runs here include those that would fail them.
inductive Step : System → Event → System → Prop where
  | startCommitEpoch {m : TypecheckEpochManager} {epoch : UInt32} :
      Step ⟨m,none⟩ (.startCommitEpoch epoch) ⟨m.startCommitEpoch epoch,some epoch⟩
  | tryCommitEpoch {m m' : TypecheckEpochManager} {epoch : UInt32} {committed : Bool} :
      m.commitSection = (committed,m') → Step ⟨m,some epoch⟩ (.tryCommitEpoch epoch committed) ⟨m',none⟩
  | tryCancelSlowPath {m m' : TypecheckEpochManager} {typechecking : Option UInt32} {newEpoch : UInt32} {canceled : Bool} :
      m.tryCancelSlowPath newEpoch = (canceled,m') →
      Step ⟨m,typechecking⟩ (.tryCancelSlowPath newEpoch canceled) ⟨m',typechecking⟩
  | getStatus {m : TypecheckEpochManager} {typechecking : Option UInt32} :
      Step ⟨m,typechecking⟩ (.getStatus m.getStatus) ⟨m,typechecking⟩

-- The sections of the typechecking thread; none of them lies inside a pair.
def Event.OfPair : Event → Prop
  | .startCommitEpoch _ | .tryCommitEpoch .. => True
  | .tryCancelSlowPath .. | .getStatus _ => False

def Uncanceled (between : List Event) : Prop := ∀ newEpoch, Event.tryCancelSlowPath newEpoch true ∉ between

-- `between` is what happened since the start of the pair that is still open.
structure OpenPair (trace : List Event) (epoch : UInt32) (before between : List Event) : Prop where
  split : trace = before ++ .startCommitEpoch epoch :: between
  inside : ∀ event ∈ between,¬event.OfPair

variable {s s' : System} {trace before between : List Event} {event : Event} {epoch : UInt32}

theorem OpenPair.push (pair : OpenPair trace epoch before between) (inside : ¬event.OfPair) :
    OpenPair (trace ++ [event]) epoch before (between ++ [event]) where
  split := by simp [pair.split]
  inside := by
    intro e present
    rcases List.mem_append.mp present with earlier | last
    · exact pair.inside e earlier
    · rwa [List.mem_singleton.mp last]

theorem uncanceled_push : Uncanceled (between ++ [event]) ↔
    Uncanceled between ∧ ∀ newEpoch, event ≠ .tryCancelSlowPath newEpoch true := by
  simp only [Uncanceled,List.mem_append,List.mem_singleton,not_or,forall_and,ne_eq,eq_comm]

-- Idle, the counters agree. Inside a pair the invalidator still holds the started
-- epoch exactly while no cancelation has succeeded.
def Inv (trace : List Event) (s : System) : Prop :=
  match s.typechecking with
  | none => s.manager.Settled
  | some epoch => s.manager.currentlyProcessingLSPEpoch = epoch ∧ ∃ before between, OpenPair trace epoch before between ∧
      (s.manager.lspEpochInvalidator = epoch ↔ Uncanceled between)

theorem step_inv (inv : Inv trace s) (step : Step s event s') : Inv (trace ++ [event]) s' := by
  cases step with
  | startCommitEpoch =>
    refine ⟨rfl,trace,[],⟨rfl,fun _ impossible => (by cases impossible)⟩,?_⟩
    simp [Uncanceled]
  | tryCommitEpoch section_ => exact commitSection_settled section_
  | @tryCancelSlowPath m m' typechecking newEpoch canceled section_ =>
    cases canceled with
    | false =>
      rw [tryCancelSlowPath_false section_]
      cases typechecking with
      | none => exact inv
      | some epoch =>
        obtain ⟨processing,before,between,pair,invalidator⟩ := inv
        refine ⟨processing,before,_,pair.push (by simp [Event.OfPair]),?_⟩
        rw [uncanceled_push]
        simp [invalidator]
    | true =>
      obtain ⟨fresh,running,rfl⟩ := tryCancelSlowPath_true section_
      cases typechecking with
      | none => exact absurd inv.1 running
      | some epoch =>
        obtain ⟨processing,before,between,pair,invalidator⟩ := inv
        refine ⟨processing,before,_,pair.push (by simp [Event.OfPair]),?_⟩
        rw [uncanceled_push]
        have different : newEpoch ≠ epoch := fun same => fresh (same.trans processing.symm)
        simp [different]
  | @getStatus m typechecking =>
    cases typechecking with
    | none => exact inv
    | some epoch =>
      obtain ⟨processing,before,between,pair,invalidator⟩ := inv
      refine ⟨processing,before,_,pair.push (by simp [Event.OfPair]),?_⟩
      rw [uncanceled_push]
      simp [invalidator]

theorem run_inv (ran : Runs Step {} trace s) : Inv trace s := by
  apply ran.history
  · exact ⟨rfl,rfl⟩
  · intro trace t event u inv step
    exact step_inv inv step

theorem committed_changes (step : Step s event s')
    (changed : s'.manager.lastCommittedLSPEpoch ≠ s.manager.lastCommittedLSPEpoch) :
    ∃ epoch, event = .tryCommitEpoch epoch true := by
  cases step with
  | startCommitEpoch => exact absurd rfl changed
  | @tryCommitEpoch m m' epoch committed section_ =>
    cases committed with
    | false => exact absurd (commitSection_false section_).2.2 changed
    | true => exact ⟨epoch,rfl⟩
  | @tryCancelSlowPath m m' typechecking newEpoch canceled section_ =>
    cases canceled with
    | false =>
      rw [tryCancelSlowPath_false section_] at changed
      exact absurd rfl changed
    | true =>
      obtain ⟨-,-,rfl⟩ := tryCancelSlowPath_true section_
      exact absurd rfl changed
  | getStatus => exact absurd rfl changed

-- A commit section gives true exactly when no cancelation has succeeded since the
-- start of its pair; only then does the last committed epoch move, to the epoch of
-- the pair; and a canceled pair leaves all three counters at the last committed epoch.
theorem tryCommitEpoch_safe (ran : Runs Step {} trace s) (step : Step s event s') :
    (∀ epoch committed, event = .tryCommitEpoch epoch committed →
      ∃ before between, OpenPair trace epoch before between ∧ (committed = true ↔ Uncanceled between) ∧
        s'.manager.Settled ∧
        s'.manager.lastCommittedLSPEpoch = if committed then epoch else s.manager.lastCommittedLSPEpoch) ∧
    (s'.manager.lastCommittedLSPEpoch ≠ s.manager.lastCommittedLSPEpoch → ∃ epoch, event = .tryCommitEpoch epoch true) := by
  refine ⟨?_,committed_changes step⟩
  rintro epoch committed rfl
  have inv := run_inv ran
  cases step with
  | tryCommitEpoch section_ =>
    obtain ⟨processing,before,between,pair,invalidator⟩ := inv
    refine ⟨before,between,pair,?_⟩
    cases committed with
    | false =>
      obtain ⟨different,settled,kept⟩ := commitSection_false section_
      refine ⟨?_,settled,kept⟩
      rw [←invalidator]
      constructor
      · intro impossible
        cases impossible
      · intro same
        exact absurd (processing.trans same.symm) different
    | true =>
      obtain ⟨same,rfl⟩ := commitSection_true section_
      refine ⟨?_,⟨rfl,same.symm⟩,processing⟩
      rw [←invalidator]
      exact iff_of_true rfl (same.symm.trans processing)

-- An epoch is canceled and rolled back, the next one is committed.
theorem tryCommitEpoch_safe_canceled : ∃ before between, OpenPair
      [.startCommitEpoch 1,.tryCommitEpoch 1 true,.startCommitEpoch 2,.tryCancelSlowPath 3 true,.tryCancelSlowPath 4 true]
      2 before between ∧ (false = true ↔ Uncanceled between) ∧
      (⟨1,1,1⟩ : TypecheckEpochManager).Settled ∧ (1 : UInt32) = if false then 2 else 1 := by
  have committed : Runs Step {} [.startCommitEpoch 1,.tryCommitEpoch 1 true] ⟨⟨1,1,1⟩,none⟩ :=
    (Runs.nil.snoc .startCommitEpoch).snoc (.tryCommitEpoch (by rfl))
  have started : Runs Step {} [.startCommitEpoch 1,.tryCommitEpoch 1 true,.startCommitEpoch 2] ⟨⟨2,2,1⟩,some 2⟩ :=
    committed.snoc .startCommitEpoch
  have canceled : Step ⟨⟨2,2,1⟩,some 2⟩ (.tryCancelSlowPath 3 true) ⟨⟨2,3,1⟩,some 2⟩ := .tryCancelSlowPath (by rfl)
  have again : Step ⟨⟨2,3,1⟩,some 2⟩ (.tryCancelSlowPath 4 true) ⟨⟨2,4,1⟩,some 2⟩ := .tryCancelSlowPath (by rfl)
  have step : Step ⟨⟨2,4,1⟩,some 2⟩ (.tryCommitEpoch 2 false) ⟨⟨1,1,1⟩,none⟩ := .tryCommitEpoch (by rfl)
  exact (tryCommitEpoch_safe ((started.snoc canceled).snoc again) step).1 2 false rfl

end Epochs
end Lsp
