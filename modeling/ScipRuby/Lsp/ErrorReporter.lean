import Mathlib.Algebra.BigOperators.Group.List.Basic
import Mathlib.Algebra.GroupWithZero.Nat
import ScipRuby.Lib.Traces

namespace Lsp
open Traces

structure ErrorStatus where
  lastReportedEpoch : UInt32 := 0
  errorCount : UInt32 := 0
  deriving DecidableEq,Repr

-- `epochTimers` keeps the keys of the map; what the timers measure is left out.
structure ErrorReporter where
  fileErrorStatuses : List ErrorStatus := []
  epochTimers : List UInt32 := []
  clientErrorCount : UInt32 := 0
  lastFullTypecheckEpoch : UInt32 := 0
  deriving DecidableEq,Repr

namespace ErrorReporter

def beginEpoch (r : ErrorReporter) (epoch : UInt32) (isIncremental : Bool) : ErrorReporter :=
  let r := if isIncremental then r else {r with lastFullTypecheckEpoch := epoch,clientErrorCount := 0}
  {r with epochTimers := epoch :: r.epochTimers}

-- Whether the epoch was committed matters to its timers only.
def endEpoch (r : ErrorReporter) (epoch : UInt32) : ErrorReporter :=
  {r with epochTimers := r.epochTimers.erase epoch}

def wouldReportForFile (r : ErrorReporter) (epoch : UInt32) (file : Nat) : Bool :=
  match r.fileErrorStatuses[file]? with
  | none => true
  | some status => decide (status.lastReportedEpoch ≤ epoch)

-- The vector after the resize of getFileErrorStatus, which then reads the entry of the file.
def resized (r : ErrorReporter) (file : Nat) : List ErrorStatus :=
  if file ≥ r.fileErrorStatuses.length then
    r.fileErrorStatuses ++ List.replicate (file + 1 - r.fileErrorStatuses.length) ⟨0,0⟩
  else r.fileErrorStatuses

def getFileErrorStatus (r : ErrorReporter) (file : Nat) : ErrorStatus := (r.resized file).getD file ⟨0,0⟩

-- How many of `size` errors still fit under the cap; a cap of 0 imposes no maximum.
def errorsToReport (maxErrors : UInt32) (size : Nat) (clientErrorCount : UInt32) : UInt32 :=
  if maxErrors > 0 then
    if maxErrors > clientErrorCount then min (UInt32.ofNat size) (maxErrors - clientErrorCount) else 0
  else UInt32.ofNat size

def isLive (r : ErrorReporter) (status : ErrorStatus) : Bool :=
  decide (status.lastReportedEpoch ≥ r.lastFullTypecheckEpoch)

-- clientErrorCount without the errors that the new list of the file revokes.
def withoutFile (r : ErrorReporter) (file : Nat) : UInt32 :=
  let status := r.getFileErrorStatus file
  if r.isLive status then r.clientErrorCount - status.errorCount else r.clientErrorCount

-- The reporter and, when it sends one, the list of diagnostics. `located` stands
-- for the errors whose location has a range.
def pushDiagnostics {Error : Type*} (lspErrorCap : UInt32) (located : Error → Bool) (r : ErrorReporter) (epoch : UInt32)
    (file : Nat) (errors : List Error) : ErrorReporter × Option (List Error) :=
  if !r.wouldReportForFile epoch file then (r,none)
  else
    let status := r.getFileErrorStatus file
    let toReport := errorsToReport lspErrorCap errors.length (r.withoutFile file)
    let clientErrorCount := r.withoutFile file + toReport
    if toReport = 0 ∧ status.errorCount = 0 then
      ({r with clientErrorCount := clientErrorCount
               fileErrorStatuses := (r.resized file).set file {status with lastReportedEpoch := epoch}},none)
    else
      ({r with clientErrorCount := clientErrorCount
               fileErrorStatuses := (r.resized file).set file {lastReportedEpoch := epoch,errorCount := toReport}},
        some ((errors.take toReport.toNat).filter located))

-- The sum that sanityCheck computes, without its wrapping.
def shownBy (r : ErrorReporter) (status : ErrorStatus) : Nat := if r.isLive status then status.errorCount.toNat else 0

def shown (r : ErrorReporter) : Nat := (r.fileErrorStatuses.map r.shownBy).sum

end ErrorReporter

namespace Reporting
open ErrorReporter

inductive Event (Error : Type*) where
  | beginEpoch (epoch : UInt32) (isIncremental : Bool)
  | pushDiagnostics (epoch : UInt32) (file : Nat) (errors : List Error)
  | endEpoch (epoch : UInt32) (committed : Bool)

structure System where
  reporter : ErrorReporter := {}
  -- the epoch begun last
  begun : Option UInt32 := none
  deriving DecidableEq,Repr

variable {Error : Type*} (lspErrorCap : UInt32) (located : Error → Bool)

-- The promises of the callers: epochs increase strictly, and diagnostics are pushed
-- for an open epoch that is not older than the last full one.
inductive Step : System → Event Error → System → Prop where
  | beginEpoch {r : ErrorReporter} {begun : Option UInt32} {epoch : UInt32} {isIncremental : Bool} :
      (∀ earlier, begun = some earlier → earlier < epoch) →
      Step ⟨r,begun⟩ (.beginEpoch epoch isIncremental) ⟨r.beginEpoch epoch isIncremental,some epoch⟩
  | pushDiagnostics {r : ErrorReporter} {begun : Option UInt32} {epoch : UInt32} {file : Nat} {errors : List Error} :
      epoch ∈ r.epochTimers → r.lastFullTypecheckEpoch ≤ epoch → file ≠ 0 →
      Step ⟨r,begun⟩ (.pushDiagnostics epoch file errors)
        ⟨(r.pushDiagnostics lspErrorCap located epoch file errors).1,begun⟩
  | endEpoch {r : ErrorReporter} {begun : Option UInt32} {epoch : UInt32} {committed : Bool} :
      epoch ∈ r.epochTimers → Step ⟨r,begun⟩ (.endEpoch epoch committed) ⟨r.endEpoch epoch,begun⟩

variable {lspErrorCap located} {s s' : System} {r r' : ErrorReporter} {trace : List (Event Error)} {event : Event Error}
  {epoch : UInt32} {file : Nat} {errors : List Error} {status : ErrorStatus}

section Sums
variable {α : Type*} {f : α → Nat} {l : List α} {i : Nat}

theorem sum_map_set (x d : α) (inside : i < l.length) :
    ((l.set i x).map f).sum + f (l.getD i d) = (l.map f).sum + f x := by
  induction l generalizing i with
  | nil => cases inside
  | cons a rest ih =>
    cases i with
    | zero =>
      simp only [List.set_cons_zero,List.map_cons,List.sum_cons,List.getD_cons_zero]
      omega
    | succ i =>
      have later := ih (Nat.lt_of_succ_lt_succ inside)
      simp only [List.set_cons_succ,List.map_cons,List.sum_cons,List.getD_cons_succ]
      omega

theorem getD_le_sum (d : α) (inside : i < l.length) : f (l.getD i d) ≤ (l.map f).sum := by
  induction l generalizing i with
  | nil => cases inside
  | cons a rest ih =>
    cases i with
    | zero => exact Nat.le_add_right _ _
    | succ i => exact Nat.le_trans (ih (Nat.lt_of_succ_lt_succ inside)) (Nat.le_add_left _ _)

end Sums

section Push

theorem resized_length : file < (r.resized file).length := by
  unfold resized
  split
  · simp only [List.length_append,List.length_replicate]
    omega
  · omega

theorem shownBy_default : r.shownBy ⟨0,0⟩ = 0 := by
  unfold shownBy
  split <;> rfl

theorem sum_resized (r : ErrorReporter) (file : Nat) : ((r.resized file).map r.shownBy).sum = r.shown := by
  unfold resized shown
  split
  · rw [List.map_append,List.sum_append,List.map_replicate,shownBy_default,List.sum_replicate_nat,Nat.mul_zero,Nat.add_zero]
  · rfl

def toReport (lspErrorCap : UInt32) (r : ErrorReporter) (file size : Nat) : UInt32 :=
  errorsToReport lspErrorCap size (r.withoutFile file)

-- The early return leaves out an assignment that would not change the count.
theorem pushDiagnostics_reports (reports : r.wouldReportForFile epoch file = true) :
    (r.pushDiagnostics lspErrorCap located epoch file errors).1 =
      {r with clientErrorCount := r.withoutFile file + toReport lspErrorCap r file errors.length
              fileErrorStatuses := (r.resized file).set file ⟨epoch,toReport lspErrorCap r file errors.length⟩} := by
  simp only [pushDiagnostics,reports,Bool.not_true,Bool.false_eq_true,if_false,toReport]
  split
  · rename_i quiet
    obtain ⟨none_,before⟩ := quiet
    rw [before,none_]
  · rfl

theorem pushDiagnostics_skips (skips : r.wouldReportForFile epoch file = false) :
    (r.pushDiagnostics lspErrorCap located epoch file errors).1 = r := by
  simp [pushDiagnostics,skips]

theorem status_le_shown : r.shownBy (r.getFileErrorStatus file) ≤ r.shown := by
  rw [←sum_resized r file]
  exact getD_le_sum _ resized_length

theorem shown_push (reports : r.wouldReportForFile epoch file = true) (fresh : r.lastFullTypecheckEpoch ≤ epoch) :
    (r.pushDiagnostics lspErrorCap located epoch file errors).1.shown + r.shownBy (r.getFileErrorStatus file) =
      r.shown + (toReport lspErrorCap r file errors.length).toNat := by
  have counted : ∀ count, r.shownBy ⟨epoch,count⟩ = count.toNat := by
    intro count
    simp [shownBy,isLive,fresh]
  have replaced : ((((r.resized file).set file ⟨epoch,toReport lspErrorCap r file errors.length⟩).map r.shownBy).sum +
      r.shownBy (r.getFileErrorStatus file)) =
      ((r.resized file).map r.shownBy).sum + r.shownBy ⟨epoch,toReport lspErrorCap r file errors.length⟩ :=
    sum_map_set _ _ resized_length
  rw [sum_resized,counted] at replaced
  rw [pushDiagnostics_reports reports]
  exact replaced

theorem withoutFile_toNat (modular : r.clientErrorCount.toNat = r.shown % 2 ^ 32) :
    (r.withoutFile file).toNat = (r.shown - r.shownBy (r.getFileErrorStatus file)) % 2 ^ 32 := by
  have inside : r.shownBy (r.getFileErrorStatus file) ≤ r.shown := status_le_shown
  have small := (r.getFileErrorStatus file).errorCount.toNat_lt
  revert inside
  unfold withoutFile shownBy
  dsimp only
  split
  · rw [UInt32.toNat_sub,modular]
    omega
  · rw [modular,Nat.sub_zero]
    exact fun _ => rfl

theorem errorsToReport_capped {maxErrors count : UInt32} {size : Nat} (capped : 0 < maxErrors) (room : count ≤ maxErrors) :
    count.toNat + (errorsToReport maxErrors size count).toNat ≤ maxErrors.toNat := by
  have least := UInt32.le_iff_toNat_le.mp room
  unfold errorsToReport
  rw [if_pos capped]
  split
  · have left : (maxErrors - count).toNat = maxErrors.toNat - count.toNat := UInt32.toNat_sub_of_le _ _ room
    have most : min (UInt32.ofNat size) (maxErrors - count) ≤ maxErrors - count := by
      change (if UInt32.ofNat size ≤ maxErrors - count then UInt32.ofNat size else maxErrors - count) ≤ maxErrors - count
      split
      · assumption
      · exact UInt32.le_refl _
    rw [UInt32.le_iff_toNat_le,left] at most
    omega
  · simpa using least

end Push

section Accounting

structure Accounts (lspErrorCap : UInt32) (s : System) : Prop where
  modular : s.reporter.clientErrorCount.toNat = s.reporter.shown % 2 ^ 32
  capped : 0 < lspErrorCap → s.reporter.shown ≤ lspErrorCap.toNat
  opened : ∀ epoch ∈ s.reporter.epochTimers,∃ begun, s.begun = some begun ∧ epoch ≤ begun
  reported : ∀ status ∈ s.reporter.fileErrorStatuses,status.errorCount = 0 ∨
    ∃ begun, s.begun = some begun ∧ status.lastReportedEpoch ≤ begun

-- A full epoch is newer than every report, so that nothing is shown when it begins.
theorem begin_full {begun : Option UInt32} (increasing : ∀ earlier, begun = some earlier → earlier < epoch)
    (reported : ∀ status ∈ r.fileErrorStatuses,status.errorCount = 0 ∨
      ∃ earlier, begun = some earlier ∧ status.lastReportedEpoch ≤ earlier) :
    (r.beginEpoch epoch false).shown = 0 := by
  apply List.sum_eq_zero
  intro shown present
  obtain ⟨status,stored,rfl⟩ := List.mem_map.mp present
  unfold shownBy isLive
  rcases reported status stored with none_ | ⟨earlier,same,older⟩
  · simp [none_]
  · have newer : status.lastReportedEpoch < epoch := UInt32.lt_of_le_of_lt older (increasing earlier same)
    rw [if_neg]
    simpa [beginEpoch] using newer

theorem begin_accounts {begun : Option UInt32} {isIncremental : Bool} (accounts : Accounts lspErrorCap ⟨r,begun⟩)
    (increasing : ∀ earlier, begun = some earlier → earlier < epoch) :
    Accounts lspErrorCap ⟨r.beginEpoch epoch isIncremental,some epoch⟩ := by
  have later : ∀ older, (∃ earlier, begun = some earlier ∧ older ≤ earlier) → older ≤ epoch := by
    rintro older ⟨earlier,same,le⟩
    exact UInt32.le_of_lt (UInt32.lt_of_le_of_lt le (increasing earlier same))
  have timers : (r.beginEpoch epoch isIncremental).epochTimers = epoch :: r.epochTimers := by cases isIncremental <;> rfl
  have statuses : (r.beginEpoch epoch isIncremental).fileErrorStatuses = r.fileErrorStatuses := by
    cases isIncremental <;> rfl
  refine ⟨?_,?_,?_,?_⟩
  · cases isIncremental with
    | false =>
      rw [begin_full increasing accounts.reported]
      rfl
    | true => exact accounts.modular
  · cases isIncremental with
    | false =>
      rw [begin_full increasing accounts.reported]
      exact fun _ => Nat.zero_le _
    | true => exact accounts.capped
  · intro other present
    refine ⟨epoch,rfl,?_⟩
    rw [timers] at present
    rcases List.mem_cons.mp present with rfl | earlier
    · exact UInt32.le_refl _
    · exact later other (accounts.opened other earlier)
  · intro status present
    rw [statuses] at present
    rcases accounts.reported status present with none_ | older
    · exact .inl none_
    · exact .inr ⟨epoch,rfl,later _ older⟩

theorem push_accounts {begun : Option UInt32} (accounts : Accounts lspErrorCap ⟨r,begun⟩)
    (opened : epoch ∈ r.epochTimers) (fresh : r.lastFullTypecheckEpoch ≤ epoch) :
    Accounts lspErrorCap ⟨(r.pushDiagnostics lspErrorCap located epoch file errors).1,begun⟩ := by
  cases reports : r.wouldReportForFile epoch file with
  | false =>
    rw [pushDiagnostics_skips reports]
    exact accounts
  | true =>
    have pushed : (r.pushDiagnostics lspErrorCap located epoch file errors).1.shown +
        r.shownBy (r.getFileErrorStatus file) = r.shown + (toReport lspErrorCap r file errors.length).toNat :=
      shown_push reports fresh
    have inside : r.shownBy (r.getFileErrorStatus file) ≤ r.shown := status_le_shown
    have remaining : (r.withoutFile file).toNat = (r.shown - r.shownBy (r.getFileErrorStatus file)) % 2 ^ 32 :=
      withoutFile_toNat accounts.modular
    refine ⟨?_,?_,?_,?_⟩
    · have count : (r.pushDiagnostics lspErrorCap located epoch file errors).1.clientErrorCount =
          r.withoutFile file + toReport lspErrorCap r file errors.length := by
        rw [pushDiagnostics_reports reports]
      dsimp only
      rw [count,UInt32.toNat_add,remaining]
      omega
    · intro positive
      have within : r.shown ≤ lspErrorCap.toNat := accounts.capped positive
      have small := lspErrorCap.toNat_lt
      have room : r.withoutFile file ≤ lspErrorCap := by
        rw [UInt32.le_iff_toNat_le,remaining]
        omega
      have fits : (r.withoutFile file).toNat + (toReport lspErrorCap r file errors.length).toNat ≤ lspErrorCap.toNat :=
        errorsToReport_capped positive room
      dsimp only
      omega
    · rw [pushDiagnostics_reports reports]
      exact accounts.opened
    · rw [pushDiagnostics_reports reports]
      intro status present
      rcases List.mem_or_eq_of_mem_set present with stored | rfl
      · unfold resized at stored
        split at stored
        · rcases List.mem_append.mp stored with old | padded
          · exact accounts.reported status old
          · rw [(List.mem_replicate.mp padded).2]
            exact .inl rfl
        · exact accounts.reported status stored
      · exact .inr (accounts.opened epoch opened)

theorem step_accounts (accounts : Accounts lspErrorCap s) (step : Step lspErrorCap located s event s') :
    Accounts lspErrorCap s' := by
  cases step with
  | beginEpoch increasing => exact begin_accounts accounts increasing
  | pushDiagnostics opened fresh _ => exact push_accounts accounts opened fresh
  | endEpoch _ =>
    refine ⟨accounts.modular,accounts.capped,?_,accounts.reported⟩
    intro epoch present
    exact accounts.opened epoch (List.mem_of_mem_erase present)

theorem run_accounts (ran : Runs (Step lspErrorCap located) {} trace s) : Accounts lspErrorCap s := by
  apply ran.history (fun _ s => Accounts lspErrorCap s)
  · exact ⟨rfl,fun _ => Nat.zero_le _,fun _ impossible => (by cases impossible),fun _ impossible => (by cases impossible)⟩
  · intro trace t event u accounts step
    exact step_accounts accounts step

-- The law of sanityCheck, and that the subtraction of pushDiagnostics does not underflow.
structure Exact (r : ErrorReporter) : Prop where
  count : r.clientErrorCount.toNat = r.shown
  revocable : ∀ file, r.isLive (r.getFileErrorStatus file) = true →
    (r.getFileErrorStatus file).errorCount ≤ r.clientErrorCount

theorem exact_of_lt (modular : r.clientErrorCount.toNat = r.shown % 2 ^ 32) (small : r.shown < 2 ^ 32) : Exact r := by
  have count : r.clientErrorCount.toNat = r.shown := by rwa [Nat.mod_eq_of_lt small] at modular
  refine ⟨count,?_⟩
  intro file live
  have inside : r.shownBy (r.getFileErrorStatus file) ≤ r.shown := status_le_shown
  rw [UInt32.le_iff_toNat_le,count]
  simpa only [shownBy,live,if_true] using inside

-- Under a cap the count is exact in every run and stays below the cap. Without one
-- it is exact modulo 2 ^ 32, and exact while fewer than 2 ^ 32 errors are shown.
theorem clientErrorCount_accounts (ran : Runs (Step lspErrorCap located) {} trace s) :
    (0 < lspErrorCap → Exact s.reporter ∧ s.reporter.clientErrorCount ≤ lspErrorCap) ∧
    (s.reporter.shown < 2 ^ 32 → Exact s.reporter) ∧
    s.reporter.clientErrorCount.toNat = s.reporter.shown % 2 ^ 32 := by
  have accounts := run_accounts ran
  refine ⟨?_,exact_of_lt accounts.modular,accounts.modular⟩
  intro positive
  have within := accounts.capped positive
  have whole := exact_of_lt accounts.modular (Nat.lt_of_le_of_lt within lspErrorCap.toNat_lt)
  refine ⟨whole,?_⟩
  rw [UInt32.le_iff_toNat_le,whole.count]
  exact within

-- A fast path of epoch 2 reports while the full epoch 1 is open; its errors stay
-- when the slow path reaches the file, and the cap cuts off the rest.
theorem clientErrorCount_accounts_interleaved :
    Exact ⟨[⟨0,0⟩,⟨2,2⟩,⟨1,1⟩],[2,1],3,1⟩ ∧ (3 : UInt32) ≤ 3 := by
  have ran : Runs (Step 3 (fun _ : Unit => true)) {} [.beginEpoch 1 false,.beginEpoch 2 true,
      .pushDiagnostics 2 1 [(),()],.pushDiagnostics 1 1 [(),(),()],.pushDiagnostics 1 2 [(),(),()]]
      ⟨⟨[⟨0,0⟩,⟨2,2⟩,⟨1,1⟩],[2,1],3,1⟩,some 2⟩ :=
    ((((Runs.nil.snoc (.beginEpoch (fun _ impossible => (by cases impossible)))).snoc (.beginEpoch (by simp))).snoc
      (.pushDiagnostics (by decide) (by decide) (by decide))).snoc
      (.pushDiagnostics (by decide) (by decide) (by decide))).snoc
      (.pushDiagnostics (by decide) (by decide) (by decide))
  exact (clientErrorCount_accounts ran).1 (by decide)

def manyErrors : List Unit := List.replicate (2 ^ 31) ()

-- Without a cap two files of 2 ^ 31 errors bring the counter back to zero.
theorem clientErrorCount_wraps : ∃ trace s, Runs (Step 0 (fun _ : Unit => true)) {} trace s ∧
    s.reporter.clientErrorCount = 0 ∧ s.reporter.shown = 2 ^ 32 ∧
    s.reporter.isLive (s.reporter.getFileErrorStatus 1) = true ∧
    ¬(s.reporter.getFileErrorStatus 1).errorCount ≤ s.reporter.clientErrorCount := by
  have first : ((⟨[],[1],0,1⟩ : ErrorReporter).pushDiagnostics 0 (fun _ => true) 1 1 manyErrors).1 =
      ⟨[⟨0,0⟩,⟨1,2147483648⟩],[1],2147483648,1⟩ := by
    rw [pushDiagnostics_reports (by decide),toReport,manyErrors,List.length_replicate]
    decide
  have second : ((⟨[⟨0,0⟩,⟨1,2147483648⟩],[1],2147483648,1⟩ : ErrorReporter).pushDiagnostics 0 (fun _ => true) 1 2
      manyErrors).1 = ⟨[⟨0,0⟩,⟨1,2147483648⟩,⟨1,2147483648⟩],[1],0,1⟩ := by
    rw [pushDiagnostics_reports (by decide),toReport,manyErrors,List.length_replicate]
    decide
  have begun : Runs (Step 0 (fun _ : Unit => true)) {} [.beginEpoch 1 false] ⟨⟨[],[1],0,1⟩,some 1⟩ :=
    Runs.nil.snoc (.beginEpoch (fun _ impossible => (by cases impossible)))
  have filled : Step 0 (fun _ : Unit => true) ⟨⟨[],[1],0,1⟩,some 1⟩ (.pushDiagnostics 1 1 manyErrors)
      ⟨⟨[⟨0,0⟩,⟨1,2147483648⟩],[1],2147483648,1⟩,some 1⟩ := by
    rw [←first]
    exact .pushDiagnostics (by decide) (by decide) (by decide)
  have wrapped : Step 0 (fun _ : Unit => true) ⟨⟨[⟨0,0⟩,⟨1,2147483648⟩],[1],2147483648,1⟩,some 1⟩
      (.pushDiagnostics 1 2 manyErrors) ⟨⟨[⟨0,0⟩,⟨1,2147483648⟩,⟨1,2147483648⟩],[1],0,1⟩,some 1⟩ := by
    rw [←second]
    exact .pushDiagnostics (by decide) (by decide) (by decide)
  exact ⟨_,_,(begun.snoc filled).snoc wrapped,rfl,by decide,by decide,by decide⟩

end Accounting

end Reporting
end Lsp
