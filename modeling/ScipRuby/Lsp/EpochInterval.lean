import Mathlib.Algebra.Group.Nat.Defs
import ScipRuby.Lsp.MessageLoop

namespace Lsp
namespace Messages
open Patches Traces TypecheckEpochManager

variable {workspace : Workspace} {config : LSPConfiguration} {gs : FileTable} {trace : List Event} {s s' : System}
  {event : Event} {edit newer : SorbetWorkspaceEditParams} {edits : List SorbetWorkspaceEditParams} {queue : TaskQueue}
  {numbers own later : List Nat} {epoch epoch' count count' : UInt32}

section Versions

-- The messages that took a version, in their order, and whether each became an edit.
def versions (trace : List Event) : List Bool :=
  trace.filterMap (fun
    | .receive _ .skipped => some false
    | .receive _ .edit => some true
    | _ => none)

-- The version of the first message is 1.
def isEdit (versions : List Bool) (version : Nat) : Bool := versions[version - 1]? == some true

def editVersions (versions : List Bool) : List Nat := (List.range' 1 versions.length).filter (isEdit versions)

-- How many of the versions after `first` up to `last` were not edits.
def skipped (versions : List Bool) (first last : Nat) : Nat :=
  ((List.range' (first + 1) (last - first)).filter (fun version => !isEdit versions version)).length

theorem editVersions_append (versions : List Bool) (last : Bool) : editVersions (versions ++ [last]) =
    editVersions versions ++ if last then [versions.length + 1] else [] := by
  have old : ∀ version ∈ List.range' 1 versions.length,
      isEdit (versions ++ [last]) version = isEdit versions version := by
    intro version inside
    obtain ⟨_,bound⟩ := List.mem_range'_1.mp inside
    rw [isEdit,isEdit,List.getElem?_append_left (by omega)]
  have new : isEdit (versions ++ [last]) (1 + 1 * versions.length) = last := by
    cases last <;> simp [isEdit,Nat.add_comm]
  rw [editVersions,editVersions,List.length_append,List.length_singleton,List.range'_concat,List.filter_append,
    List.filter_congr old]
  congr 1
  cases last <;> simp_all [Nat.add_comm]

theorem editVersions_sorted (versions : List Bool) : (editVersions versions).Pairwise (· < ·) :=
  (List.pairwise_lt_range' 1).filter _

theorem mem_editVersions {versions : List Bool} {version : Nat} : version ∈ editVersions versions ↔
    (1 ≤ version ∧ version ≤ versions.length) ∧ isEdit versions version = true := by
  rw [editVersions,List.mem_filter,List.mem_range'_1]
  constructor
  · exact fun both => ⟨⟨both.1.1,by omega⟩,both.2⟩
  · exact fun both => ⟨⟨both.1.1,by omega⟩,both.2⟩

theorem le_getLast (sorted : numbers.Pairwise (· < ·)) {last : Nat} (last_ : numbers.getLast? = some last) :
    ∀ n ∈ numbers,n ≤ last := by
  obtain ⟨front,rfl⟩ := List.getLast?_eq_some_iff.mp last_
  intro n present
  rcases List.mem_append.mp present with earlier | same
  · exact Nat.le_of_lt ((List.pairwise_append.mp sorted).2.2 n earlier last List.mem_cons_self)
  · exact Nat.le_of_eq (List.mem_singleton.mp same)

-- The edits after one edit up to a later one.
theorem later_eq_filter {versions : List Bool} {front back : List Nat} {first last : Nat}
    (own_ : own.getLast? = some first) (last_ : (own ++ later).getLast? = some last)
    (all : editVersions versions = front ++ (own ++ later) ++ back) :
    (List.range' (first + 1) (last - first)).filter (isEdit versions) = later := by
  have sorted := editVersions_sorted versions
  rw [all,List.pairwise_append,List.pairwise_append,List.pairwise_append] at sorted
  obtain ⟨⟨_,⟨ownSorted,laterSorted,apart⟩,beforeOwn⟩,_,beforeBack⟩ := sorted
  have both : (own ++ later).Pairwise (· < ·) := List.pairwise_append.mpr ⟨ownSorted,laterSorted,apart⟩
  have ownMember : first ∈ own := List.mem_of_getLast? own_
  have lastMember : last ∈ own ++ later := List.mem_of_getLast? last_
  have between : ((List.range' (first + 1) (last - first)).filter (isEdit versions)).Pairwise (· < ·) :=
    (List.pairwise_lt_range' 1).filter _
  refine List.Perm.eq_of_pairwise ?_ between laterSorted ?_
  · intro a b _ _ ab ba
    exact absurd (Nat.lt_trans ab ba) (Nat.lt_irrefl a)
  rw [List.perm_ext_iff_of_nodup (between.imp Nat.ne_of_lt) (laterSorted.imp Nat.ne_of_lt)]
  intro version
  rw [List.mem_filter,List.mem_range'_1]
  have known := @mem_editVersions versions version
  rw [all,List.mem_append,List.mem_append,List.mem_append] at known
  constructor
  · rintro ⟨⟨low,high⟩,edit⟩
    have bound : last ≤ versions.length := by
      refine (mem_editVersions.mp ?_).1.2
      rw [all]
      exact List.mem_append_left _ (List.mem_append_right _ lastMember)
    rcases known.mpr ⟨⟨by omega,by omega⟩,edit⟩ with (before | own' | inside) | after
    · have := beforeOwn version before first (List.mem_append_left _ ownMember)
      omega
    · have := le_getLast ownSorted own_ version own'
      omega
    · exact inside
    · have := beforeBack last (List.mem_append_right _ lastMember) version after
      omega
  · intro inside
    have low := apart first ownMember version inside
    have high := le_getLast both last_ version (List.mem_append_right _ inside)
    exact ⟨⟨by omega,by omega⟩,(known.mp (.inl (.inr (.inr inside)))).2⟩

-- Between two edits the versions are the edits there and the skipped ones.
theorem skipped_add {versions : List Bool} {front back : List Nat} {first last : Nat} (own_ : own.getLast? = some first)
    (last_ : (own ++ later).getLast? = some last) (all : editVersions versions = front ++ (own ++ later) ++ back) :
    skipped versions first last + later.length = last - first := by
  have split := List.length_eq_length_filter_add (l := List.range' (first + 1) (last - first)) (isEdit versions)
  rw [later_eq_filter own_ last_ all,List.length_range'] at split
  rw [skipped]
  omega

end Versions

section Segments

-- An edit of this epoch and count stands for the messages of these versions.
structure Spans (epoch count : UInt32) (own : List Nat) : Prop where
  epoch : own.getLast?.map UInt32.ofNat = some epoch
  count : count = UInt32.ofNat own.length

theorem Spans.append (first : Spans epoch count own) (second : Spans epoch' count' later) :
    Spans epoch' (count + count') (own ++ later) where
  epoch := by
    obtain ⟨last,found,same⟩ := Option.map_eq_some_iff.mp second.epoch
    rw [List.getLast?_append,found,Option.some_or,Option.map_some,same]
  count := by rw [first.count,second.count,List.length_append,UInt32.ofNat_add]

inductive Segments : List SorbetWorkspaceEditParams → List Nat → Prop where
  | nil : Segments [] []
  | cons {edit : SorbetWorkspaceEditParams} {edits : List SorbetWorkspaceEditParams} {own rest : List Nat} :
      Spans edit.epoch (edit.mergeCount + 1) own → Segments edits rest → Segments (edit :: edits) (own ++ rest)

theorem spans_merge (first : Spans edit.epoch (edit.mergeCount + 1) own)
    (second : Spans newer.epoch (newer.mergeCount + 1) later) :
    Spans (edit.merge newer).epoch ((edit.merge newer).mergeCount + 1) (own ++ later) := by
  have counts : (edit.merge newer).mergeCount + 1 = (edit.mergeCount + 1) + (newer.mergeCount + 1) := by
    simp only [SorbetWorkspaceEditParams.merge]
    ac_rfl
  rw [counts]
  exact first.append second

theorem Segments.merge (segments : Segments (edit :: newer :: edits) numbers) :
    Segments (edit.merge newer :: edits) numbers := by
  cases segments with
  | cons first segments =>
    cases segments with
    | cons second segments =>
      rw [←List.append_assoc]
      exact .cons (spans_merge first second) segments

theorem Segments.snoc (segments : Segments edits numbers) (last : Spans edit.epoch (edit.mergeCount + 1) own) :
    Segments (edits ++ [edit]) (numbers ++ own) := by
  induction segments with
  | nil =>
    have whole := Segments.cons last .nil
    rwa [List.append_nil] at whole
  | cons first _ ih =>
    rw [List.append_assoc]
    exact .cons first ih

end Segments

section Queue

theorem queuedEdits_append (front back : TaskQueue) : queuedEdits (front ++ back) = queuedEdits front ++ queuedEdits back :=
  List.filterMap_append

theorem queuedEdits_none {tasks : TaskQueue} (none_ : ∀ task ∈ tasks,task.params? = none) : queuedEdits tasks = [] :=
  List.filterMap_eq_nil_iff.mpr none_

theorem queuedEdits_cons {task : Task} (other : task.params? = none) : queuedEdits (task :: queue) = queuedEdits queue :=
  List.filterMap_cons_none other

theorem mergeLoop_other {task : Task} (other : task.params? = none) :
    mergeLoop none (task :: queue) = task :: mergeLoop none queue ∧ ∀ olderEdit passed,
      mergeLoop (some (olderEdit,passed)) (task :: queue) =
        if task.isDelayable then mergeLoop (some (olderEdit,passed ++ [task])) queue
        else .edit olderEdit :: passed ++ task :: mergeLoop none queue := by
  cases task with
  | edit _ => cases other
  | didChangeConfiguration _ => exact ⟨rfl,fun _ _ => rfl⟩
  | request _ _ => exact ⟨rfl,fun _ _ => rfl⟩
  | plain _ => exact ⟨rfl,fun _ _ => rfl⟩

-- What the loop of mergeFileChanges has in hand.
def inHand : Option (SorbetWorkspaceEditTask × TaskQueue) → List SorbetWorkspaceEditParams
  | none => []
  | some (olderEdit,_) => [olderEdit.params]

theorem mergeLoop_segments (older : Option (SorbetWorkspaceEditTask × TaskQueue))
    (passed : ∀ hand ∈ older,∀ task ∈ hand.2,task.params? = none)
    (segments : Segments (inHand older ++ queuedEdits queue) numbers) :
    Segments (queuedEdits (mergeLoop older queue)) numbers := by
  induction queue generalizing older numbers with
  | nil =>
    cases older with
    | none => exact segments
    | some hand =>
      have none_ := queuedEdits_none (passed hand rfl)
      rw [show queuedEdits (mergeLoop (some hand) []) = hand.1.params :: queuedEdits hand.2 from rfl,none_]
      exact segments
  | cons task queue ih =>
    by_cases other : task.params? = none
    · rw [queuedEdits_cons other] at segments
      cases older with
      | none =>
        rw [(mergeLoop_other other).1,queuedEdits_cons other]
        exact ih none passed segments
      | some hand =>
        rw [(mergeLoop_other other).2]
        split
        · apply ih (some (hand.1,hand.2 ++ [task])) _ segments
          intro hand' same later present
          cases same
          rcases List.mem_append.mp present with earlier | last
          · exact passed hand rfl later earlier
          · rw [List.mem_singleton.mp last]
            exact other
        · have none_ := queuedEdits_none (passed hand rfl)
          cases segments with
          | cons first segments =>
            rw [List.cons_append,show ∀ rest, queuedEdits (.edit hand.1 :: rest) = hand.1.params :: queuedEdits rest from
              fun _ => rfl,queuedEdits_append,none_,List.nil_append,queuedEdits_cons other]
            exact .cons first (ih none (fun _ impossible => (by cases impossible)) segments)
    · cases task with
      | didChangeConfiguration _ => exact absurd rfl other
      | request _ _ => exact absurd rfl other
      | plain _ => exact absurd rfl other
      | edit task =>
        cases older with
        | none =>
          apply ih (some (task,[])) _ segments
          intro hand same later present
          cases same
          cases present
        | some hand => exact ih (some (hand.1.mergeNewer task,hand.2)) (fun _ same => (by cases same; exact passed hand rfl)) segments.merge

theorem mergeFileChanges_segments (segments : Segments (queuedEdits queue) numbers) :
    Segments (queuedEdits (mergeFileChanges queue)) numbers :=
  mergeLoop_segments none (fun _ impossible => (by cases impossible)) segments

theorem cancelRequest_segments (id : Nat) (segments : Segments (queuedEdits queue) numbers) :
    Segments (queuedEdits (cancelRequest id queue)) numbers := by
  have kept : ∀ queue : TaskQueue, queuedEdits (queue.eraseP (Task.cancel id)) = queuedEdits queue := by
    intro queue
    induction queue with
    | nil => rfl
    | cons task queue ih =>
      cases found : Task.cancel id task with
      | true =>
        rw [List.eraseP_cons_of_pos found]
        cases task with
        | request _ _ => rfl
        | plain _ => cases found
        | edit _ => cases found
        | didChangeConfiguration _ => cases found
      | false =>
        rw [List.eraseP_cons_of_neg (by simp [found])]
        simp only [queuedEdits,List.filterMap_cons] at ih ⊢
        rw [ih]
  unfold cancelRequest
  split
  · apply mergeFileChanges_segments
    rwa [kept]
  · exact segments

theorem canPreempt_params (task : Task) : (task.canPreempt config gs).2.params? = task.params? := by
  cases task with
  | edit task =>
    simp only [Task.canPreempt,SorbetWorkspaceEditTask.getTypecheckingPath]
    split <;> rfl
  | didChangeConfiguration _ => rfl
  | request _ _ => rfl
  | plain _ => rfl

theorem findCannotPreempt_edits (config : LSPConfiguration) (gs : FileTable) (queue : TaskQueue) :
    queuedEdits ((findCannotPreempt config gs queue).1 ++ (findCannotPreempt config gs queue).2) = queuedEdits queue := by
  induction queue with
  | nil => rfl
  | cons task queue ih =>
    have params := @canPreempt_params config gs task
    simp only [queuedEdits] at ih ⊢
    simp only [findCannotPreempt]
    split
    all_goals
      rename_i decided
      rw [decided] at params
      simp only [List.nil_append,List.cons_append,List.filterMap_cons,params,ih]

theorem Segments.mergeAll {rest : List SorbetWorkspaceEditParams} (segments : Segments (edit :: edits ++ rest) numbers) :
    Segments (edits.foldl SorbetWorkspaceEditParams.merge edit :: rest) numbers := by
  induction edits generalizing edit with
  | nil => exact segments
  | cons newer edits ih => exact ih segments.merge

theorem mergeEdits_params (tasks : TaskQueue) :
    ((mergeEdits tasks).map SorbetWorkspaceEditTask.params).toList = match queuedEdits tasks with
      | [] => []
      | edit :: edits => [edits.foldl SorbetWorkspaceEditParams.merge edit] := by
  have loop : ∀ (tasks : TaskQueue) (older : SorbetWorkspaceEditTask), (tasks.foldl mergeTask older).params =
      (queuedEdits tasks).foldl SorbetWorkspaceEditParams.merge older.params := by
    intro tasks
    induction tasks with
    | nil => exact fun _ => rfl
    | cons task tasks ih =>
      intro older
      cases task with
      | edit newer => exact ih (older.mergeNewer newer)
      | didChangeConfiguration _ => exact ih older
      | request _ _ => exact ih older
      | plain _ => exact ih older
  induction tasks with
  | nil => rfl
  | cons task tasks ih =>
    cases task with
    | edit task =>
      simp only [mergeEdits,Option.map_some,Option.toList_some,queuedEdits,List.filterMap_cons,Task.params?]
      rw [loop tasks task]
      rfl
    | didChangeConfiguration _ => exact ih
    | request _ _ => exact ih
    | plain _ => exact ih

theorem promoteEdits_segments (segments : Segments (queuedEdits queue) numbers) :
    Segments (queuedEdits (promoteEdits config gs queue)) numbers := by
  have same := findCannotPreempt_edits config gs queue
  unfold promoteEdits
  split
  · rename_i first before last rest found
    rw [found] at same
    have split : first :: before ++ Task.edit last :: rest = (first :: before ++ [.edit last]) ++ rest := by simp
    rw [split,queuedEdits_append] at same
    rw [←same] at segments
    have others : queuedEdits ((first :: before ++ [Task.edit last]).filter (fun task => !task.isEdit)) = [] := by
      apply queuedEdits_none
      intro task present
      have other := (List.mem_filter.mp present).2
      cases task with
      | edit _ => cases other
      | didChangeConfiguration _ => rfl
      | request _ _ => rfl
      | plain _ => rfl
    have merged : queuedEdits ((mergeEdits (first :: before ++ [.edit last])).toList.map Task.edit) =
        ((mergeEdits (first :: before ++ [.edit last])).map SorbetWorkspaceEditTask.params).toList := by
      cases mergeEdits (first :: before ++ [.edit last]) <;> rfl
    dsimp only
    rw [queuedEdits_append,queuedEdits_append,others,List.append_nil,merged,mergeEdits_params]
    cases promoted : queuedEdits (first :: before ++ [.edit last]) with
    | nil => rwa [promoted] at segments
    | cons edit edits =>
      rw [promoted] at segments
      exact segments.mergeAll
  · rename_i before rest _ found
    rw [found] at same
    rwa [same]

end Queue

section Accounts
variable {e e' : Edits.System} {inner : Edits.Event} {done : List Nat} {slowCount : UInt32}

-- The slow path that runs stands for `own`, and what a cancelation would merge for
-- all edits from there on.
def Current (e : Edits.System) (slowCount : UInt32) (done : List Nat) : Prop :=
  e.phase.Active → ∃ front own later, done = front ++ (own ++ later) ∧
    Spans e.epochs.currentlyProcessingLSPEpoch slowCount own ∧
    Spans e.indexer.pendingTypecheckUpdates.epoch e.indexer.pendingTypecheckUpdates.editCount (own ++ later)

-- The edit in hand stands for the last versions that left the queue.
def InHand (e : Edits.System) (slowCount : UInt32) (done : List Nat) (epoch count : UInt32) : Prop :=
  ∃ front own, done = front ++ own ∧ Spans epoch count own ∧ Current e slowCount front

def Accounted (e : Edits.System) (slowCount : UInt32) (done : List Nat) : Prop :=
  match e.processor with
  | .free | .preempting => Current e slowCount done
  | .deferred edit => InHand e slowCount done edit.epoch (edit.mergeCount + 1)
  | .indexed _ update _ | .canceling _ update _ => InHand e slowCount done update.epoch update.editCount
  | .waiting update => update.typecheckingPath = .slow → ∃ front covered, done = front ++ covered ∧
      Spans update.epoch update.editCount covered ∧
      e.indexer.pendingTypecheckUpdates.epoch = update.epoch ∧
      e.indexer.pendingTypecheckUpdates.editCount = update.editCount

theorem Current.frame (current : Current e slowCount done)
    (pending : e'.indexer.pendingTypecheckUpdates = e.indexer.pendingTypecheckUpdates)
    (active : e'.phase.Active → e.phase.Active)
    (epoch : e'.phase.Active → e'.epochs.currentlyProcessingLSPEpoch = e.epochs.currentlyProcessingLSPEpoch) :
    Current e' slowCount done := by
  intro going
  rw [pending,epoch going]
  exact current (active going)

theorem Accounted.frame (accounted : Accounted e slowCount done) (processor : e'.processor = e.processor)
    (pending : e'.indexer.pendingTypecheckUpdates = e.indexer.pendingTypecheckUpdates)
    (active : e'.phase.Active → e.phase.Active)
    (epoch : e'.phase.Active → e'.epochs.currentlyProcessingLSPEpoch = e.epochs.currentlyProcessingLSPEpoch) :
    Accounted e' slowCount done := by
  unfold Accounted at accounted ⊢
  rw [processor]
  revert accounted
  cases e.processor with
  | free => exact fun current => current.frame pending active epoch
  | preempting => exact fun current => current.frame pending active epoch
  | deferred _ => exact fun ⟨front,own,all,spans,current⟩ => ⟨front,own,all,spans,current.frame pending active epoch⟩
  | indexed _ _ _ => exact fun ⟨front,own,all,spans,current⟩ => ⟨front,own,all,spans,current.frame pending active epoch⟩
  | canceling _ _ _ => exact fun ⟨front,own,all,spans,current⟩ => ⟨front,own,all,spans,current.frame pending active epoch⟩
  | waiting _ =>
    intro waits
    rwa [pending]

-- An edit that is done and did not cancel.
theorem waits_of_hand {indexer : LSPIndexer} {update : LSPFileUpdates} {evicted : EvictedFiles}
    (hand : InHand e slowCount done update.epoch update.editCount) (processor : e'.processor = .waiting update)
    (indexer_ : e'.indexer = indexer.finishEdit update evicted) : Accounted e' slowCount done := by
  unfold Accounted
  rw [processor]
  intro slow
  obtain ⟨front,own,all,spans,-⟩ := hand
  refine ⟨front,own,all,spans,?_⟩
  rw [indexer_,(finishEdit_slow slow).1]
  exact ⟨rfl,rfl⟩

theorem cancel_accounted {update merged : LSPFileUpdates} {evicted older : EvictedFiles}
    (hand : InHand e slowCount done update.epoch update.editCount) (active : e.phase.Active)
    (canceled : e.indexer.cancelEdit config update evicted = some (merged,older)) (processor : e'.processor = .waiting merged)
    (indexer_ : e'.indexer = e.indexer.finishEdit merged older) : Accounted e' slowCount done := by
  unfold Accounted
  rw [processor]
  intro slow
  obtain ⟨front,new,rfl,spans,current⟩ := hand
  obtain ⟨before,own,later,rfl,-,pending⟩ := current active
  obtain ⟨-,epoch,count,-⟩ := cancelEdit_merged canceled
  refine ⟨before,own ++ later ++ new,List.append_assoc _ _ _,?_,?_⟩
  · rw [epoch,count,UInt32.add_comm]
    exact pending.append spans
  · rw [indexer_,(finishEdit_slow slow).1]
    exact ⟨rfl,rfl⟩

theorem free_accounted (accounted : Accounted e slowCount done) (free : e.processor = .free ∨ e.processor = .preempting) :
    Current e slowCount done := by
  unfold Accounted at accounted
  rcases free with free | free <;> rw [free] at accounted <;> exact accounted

theorem index_accounted (inv : Edits.Inv e) (accounted : Accounted e slowCount done)
    (spans : Spans edit.epoch (edit.mergeCount + 1) own) (step : Edits.ProcessorStep config e (.index edit) e') :
    Accounted e' slowCount (done ++ own) := by
  cases step with
  | index free paths _ started =>
    have edit_ := startEdit_started inv.distinct paths started
    have current := free_accounted accounted (.inl free)
    refine ⟨done,own,rfl,?_,current.frame edit_.pending id (fun _ => rfl)⟩
    rw [edit_.epoch,edit_.editCount]
    exact spans
  | defer free _ _ =>
    exact ⟨done,own,rfl,spans,(free_accounted accounted (.inl free)).frame rfl id (fun _ => rfl)⟩

def slowCountAfter (slowCount : UInt32) : Edits.Event → UInt32
  | .startCommitEpoch update => update.editCount
  | _ => slowCount

theorem processor_accounted (inv : Edits.Inv e) (accounted : Accounted e slowCount done)
    (step : Edits.ProcessorStep config e inner e') (other : ¬takesEdit e inner) :
    Accounted e' (slowCountAfter slowCount inner) done := by
  have whole := accounted
  unfold Accounted at accounted
  cases step with
  | index _ _ _ _ => exact absurd trivial other
  | defer _ _ _ => exact absurd trivial other
  | keep indexed _ =>
    rw [indexed] at accounted
    exact waits_of_hand accounted rfl rfl
  | check indexed _ =>
    rw [indexed] at accounted
    obtain ⟨front,own,all,spans,current⟩ := accounted
    exact ⟨front,own,all,spans,current.frame rfl id (fun _ => rfl)⟩
  | cancel canceling canceled merges =>
    rw [canceling] at accounted
    exact cancel_accounted accounted (Edits.running_active inv (tryCancelSlowPath_true canceled).2.1) merges rfl rfl
  | refused canceling refused =>
    rw [canceling] at accounted
    exact waits_of_hand accounted rfl rfl
  | schedule free _ _ => exact (free_accounted whole (.inl free)).frame rfl id (fun _ => rfl)
  | unschedule preempting => exact (free_accounted whole (.inr preempting)).frame rfl id (fun _ => rfl)

theorem preempt_accounted {update : LSPFileUpdates} (inv : Edits.Inv e) (accounted : Accounted e slowCount done)
    (preempting : e.processor = .preempting) (spans : Spans edit.epoch (edit.mergeCount + 1) own)
    (step : Edits.TypecheckerStep config e (.commitEdit edit update) e') : Accounted e' slowCount (done ++ own) := by
  cases step with
  | commitDeferred _ deferred _ =>
    rw [preempting] at deferred
    cases deferred
  | preempt _ _ paths started fast =>
    have edit_ := startEdit_started inv.distinct paths started
    unfold Accounted
    rw [show _ = _ from preempting]
    intro active
    obtain ⟨front,first,later,rfl,current,pending⟩ := free_accounted accounted (.inr preempting) active
    refine ⟨front,first,later ++ own,by simp,current,?_⟩
    dsimp only
    rw [(finishEdit_fast fast edit_.uncanceled).1,edit_.pending,←List.append_assoc]
    have merged := pending.append spans
    rw [←edit_.epoch,←edit_.editCount,UInt32.add_comm] at merged
    exact merged

theorem typechecker_accounted (inv : Edits.Inv e) (accounted : Accounted e slowCount done)
    (step : Edits.TypecheckerStep config e inner e') (other : ¬takesEdit e inner) :
    Accounted e' (slowCountAfter slowCount inner) done := by
  cases step with
  | commitDeferred idle deferred committed =>
    obtain ⟨middle,evicted,started,rfl,rfl⟩ := Edits.commitDeferred_started inv idle committed
    have edit_ := startEdit_started inv.distinct (inv.deferred deferred).2 started
    unfold Accounted at accounted
    rw [deferred] at accounted
    obtain ⟨front,own,all,spans,current⟩ := accounted
    rw [←edit_.epoch,←edit_.editCount] at spans
    exact waits_of_hand ⟨front,own,all,spans,current⟩ rfl rfl
  | start idle waits slow =>
    unfold Accounted at accounted
    rw [waits] at accounted
    obtain ⟨front,covered,all,spans,epoch,count⟩ := accounted slow
    intro _
    refine ⟨front,covered,[],by rw [List.append_nil,all],spans,?_⟩
    dsimp only
    rw [epoch,count,List.append_nil]
    exact spans
  | apply started => exact accounted.frame rfl rfl (fun _ => by rw [started]; trivial) (fun _ => rfl)
  | preempt preempting _ _ _ _ => exact absurd preempting other
  | commitSection _ _ => exact accounted.frame rfl rfl (fun impossible => impossible.elim) (fun impossible => impossible.elim)
  | finish _ _ => exact accounted.frame rfl rfl (fun impossible => impossible.elim) (fun impossible => impossible.elim)
  | runFastPath idle _ _ =>
    intro active
    rw [show _ = _ from idle] at active
    exact active.elim

end Accounts

section Runs
variable {n : Nat} {preprocessor next : LSPPreprocessor} {msg : Message}

theorem canonicalizeEdits_stamped {v : UInt32}
    (edits_ : preprocessor.canonicalizeEdits workspace v msg = some (next,edit)) : edit.epoch = v ∧ edit.mergeCount = 0 := by
  cases msg with
  | textDocumentDidOpen _ | textDocumentDidChange _ _ _ | textDocumentDidClose _ | sorbetWatchmanFileChange _ =>
    cases edits_
    exact ⟨rfl,rfl⟩
  | workspaceDidChangeConfiguration | request _ _ | plain _ | cancelRequest _ => cases edits_

theorem spans_new (version : epoch = UInt32.ofNat n) : Spans epoch (0 + 1) [n] := ⟨by rw [version]; rfl,rfl⟩

-- What a message does to the version counter and to the edits of the queue.
theorem preprocess_segments (segments : Segments (queuedEdits queue) numbers)
    (version : preprocessor.nextVersion = UInt32.ofNat n) :
    match preprocessor.stamp workspace msg with
    | .unversioned => (preprocessor.preprocessAndEnqueue workspace queue msg).1.nextVersion = preprocessor.nextVersion ∧
        Segments (queuedEdits (preprocessor.preprocessAndEnqueue workspace queue msg).2) numbers
    | .skipped => (preprocessor.preprocessAndEnqueue workspace queue msg).1.nextVersion = preprocessor.nextVersion + 1 ∧
        Segments (queuedEdits (preprocessor.preprocessAndEnqueue workspace queue msg).2) numbers
    | .edit => (preprocessor.preprocessAndEnqueue workspace queue msg).1.nextVersion = preprocessor.nextVersion + 1 ∧
        Segments (queuedEdits (preprocessor.preprocessAndEnqueue workspace queue msg).2) (numbers ++ [n]) := by
  have appended : ∀ task : Task, task.params? = none → queuedEdits (queue ++ [task]) = queuedEdits queue := by
    intro task other
    rw [queuedEdits_append,queuedEdits_cons other]
    exact List.append_nil _
  unfold LSPPreprocessor.stamp LSPPreprocessor.preprocessAndEnqueue
  cases edits_ : preprocessor.canonicalizeEdits workspace preprocessor.nextVersion msg with
  | some result =>
    obtain ⟨next,params⟩ := result
    obtain ⟨epoch,count⟩ := canonicalizeEdits_stamped edits_
    cases empty : params.updates.isEmpty with
    | true =>
      simp only [empty,if_true]
      exact ⟨trivial,segments⟩
    | false =>
      simp only [empty,Bool.false_eq_true,if_false]
      refine ⟨trivial,mergeFileChanges_segments ?_⟩
      rw [queuedEdits_append]
      apply segments.snoc
      rw [count]
      exact spans_new (epoch.trans version)
  | none =>
    cases msg with
    | workspaceDidChangeConfiguration => exact ⟨rfl,by rw [appended _ rfl]; exact segments⟩
    | request id method => exact ⟨rfl,by rw [appended _ rfl]; exact segments⟩
    | plain method => exact ⟨rfl,by rw [appended _ rfl]; exact segments⟩
    | cancelRequest id => exact ⟨rfl,cancelRequest_segments id segments⟩
    | textDocumentDidOpen _ | textDocumentDidChange _ _ _ | textDocumentDidClose _ | sorbetWatchmanFileChange _ =>
      cases edits_

-- The edits in the update of the last slow path that started.
def slowEdits (trace : List Event) : UInt32 :=
  trace.foldl (fun slowCount event =>
    match event with
    | .edits inner => slowCountAfter slowCount inner
    | .receive _ _ | .internal => slowCount) 0

structure Accounts (trace : List Event) (s : System) : Prop where
  inv : Edits.Inv s.edits
  next : s.preprocessor.nextVersion = UInt32.ofNat ((versions trace).length + 1)
  split : ∃ done waiting, editVersions (versions trace) = done ++ waiting ∧
    Accounted s.edits (slowEdits trace) done ∧ Segments (queuedEdits s.queue) waiting

theorem slowEdits_append (event : Event) : slowEdits (trace ++ [event]) =
    match event with
    | .edits inner => slowCountAfter (slowEdits trace) inner
    | .receive _ _ | .internal => slowEdits trace := by
  rw [slowEdits,List.foldl_append]
  cases event <;> rfl

theorem versions_append (event : Event) : versions (trace ++ [event]) = versions trace ++
    match event with
    | .receive _ .skipped => [false]
    | .receive _ .edit => [true]
    | _ => [] := by
  rw [versions,List.filterMap_append]
  congr 1
  rcases event with ⟨_,_ | _ | _⟩ | _ | _ <;> rfl

theorem receive_accounts (accounts : Accounts trace s) (inv : Edits.Inv s.edits) :
    Accounts (trace ++ [.receive msg (s.preprocessor.stamp workspace msg)])
      {s with
        preprocessor := (s.preprocessor.preprocessAndEnqueue workspace s.queue msg).1
        queue := (s.preprocessor.preprocessAndEnqueue workspace s.queue msg).2} := by
  obtain ⟨done,waiting,all,accounted,segments⟩ := accounts.split
  have processed := @preprocess_segments workspace s.queue waiting _ s.preprocessor msg segments accounts.next
  have kept : ∀ stamp, Accounted s.edits (slowEdits (trace ++ [.receive msg stamp])) done := by
    intro stamp
    rw [slowEdits_append]
    exact accounted
  revert processed
  cases stamped : s.preprocessor.stamp workspace msg with
  | unversioned =>
    rintro ⟨next,segments⟩
    refine ⟨inv,?_,done,waiting,?_,kept _,segments⟩
    · rw [versions_append,List.append_nil,next,accounts.next]
    · rw [versions_append,List.append_nil,all]
  | skipped =>
    rintro ⟨next,segments⟩
    refine ⟨inv,?_,done,waiting,?_,kept _,segments⟩
    · rw [versions_append,next,accounts.next,List.length_append]
      exact (UInt32.ofNat_add _ 1).symm
    · rw [versions_append,editVersions_append,all,if_neg (by decide),List.append_nil]
  | edit =>
    rintro ⟨next,segments⟩
    refine ⟨inv,?_,done,waiting ++ [(versions trace).length + 1],?_,kept _,segments⟩
    · rw [versions_append,next,accounts.next,List.length_append]
      exact (UInt32.ofNat_add _ 1).symm
    · rw [versions_append,editVersions_append,all,if_pos rfl,List.append_assoc]

-- A step that neither receives a message nor commits an edit.
theorem queue_accounts (accounts : Accounts trace s)
    (segments : ∀ numbers, Segments (queuedEdits s.queue) numbers → Segments (queuedEdits queue) numbers) :
    Accounts (trace ++ [.internal]) {s with queue := queue} := by
  obtain ⟨done,waiting,all,accounted,old⟩ := accounts.split
  refine ⟨accounts.inv,?_,done,waiting,?_,?_,segments waiting old⟩
  · rw [versions_append,List.append_nil]
    exact accounts.next
  · rw [versions_append,List.append_nil,all]
  · rw [slowEdits_append]
    exact accounted

theorem edits_accounts {inner : Edits.Event} {e : Edits.System} {done waiting : List Nat} (accounts : Accounts trace s)
    (inv : Edits.Inv e) (all : editVersions (versions trace) = done ++ waiting)
    (accounted : Accounted e (slowCountAfter (slowEdits trace) inner) done) (segments : Segments (queuedEdits queue) waiting) :
    Accounts (trace ++ [.edits inner]) {s with queue := queue,edits := e} := by
  refine ⟨inv,?_,done,waiting,?_,?_,segments⟩
  · rw [versions_append,List.append_nil]
    exact accounts.next
  · rw [versions_append,List.append_nil,all]
  · rw [slowEdits_append]
    exact accounted

theorem step_accounts (accounts : Accounts trace s) (step : Step workspace config s event s') :
    Accounts (trace ++ [event]) s' := by
  have inv : Edits.Inv s'.edits := by
    rcases edits_step step with ⟨inner,-,own⟩ | same
    · exact Edits.step_inv accounts.inv own
    · rw [same]
      exact accounts.inv
  cases step with
  | receive => exact receive_accounts accounts accounts.inv
  | preemptionPossible =>
    apply queue_accounts accounts
    intro numbers segments
    rwa [preemptionPossible,findCannotPreempt_edits]
  | promote => exact queue_accounts accounts (fun _ segments => promoteEdits_segments segments)
  | @handle task rest front other _ =>
    apply queue_accounts accounts
    intro numbers segments
    rw [front] at segments
    cases task with
    | edit _ => cases other
    | didChangeConfiguration _ => exact segments
    | request _ _ => exact segments
    | plain _ => exact segments
  | index front step =>
    rename_i task rest e
    obtain ⟨done,waiting,all,accounted,segments⟩ := accounts.split
    rw [front] at segments
    cases segments with
    | cons spans segments =>
      have spans : Spans (task.indexed s.edits.indexer.gs).epoch ((task.indexed s.edits.indexer.gs).mergeCount + 1) _ := spans
      rw [←List.append_assoc] at all
      exact edits_accounts accounts inv all (index_accounted accounts.inv accounted spans step) segments
  | preempt preempting possible step =>
    rename_i task rest update e
    obtain ⟨done,waiting,all,accounted,segments⟩ := accounts.split
    have same := findCannotPreempt_edits config s.edits.indexer.gs s.queue
    rw [show (findCannotPreempt config s.edits.indexer.gs s.queue).1 ++
      (findCannotPreempt config s.edits.indexer.gs s.queue).2 = _ from congrArg Prod.snd possible] at same
    rw [←same] at segments
    cases segments with
    | cons spans segments =>
      have spans : Spans (task.indexed s.edits.indexer.gs).epoch ((task.indexed s.edits.indexer.gs).mergeCount + 1) _ := spans
      rw [←List.append_assoc] at all
      exact edits_accounts accounts inv all (preempt_accounted accounts.inv accounted preempting spans step) segments
  | edits step other =>
    obtain ⟨done,waiting,all,accounted,segments⟩ := accounts.split
    apply edits_accounts accounts inv all _ segments
    rcases step with step | step
    · exact processor_accounted accounts.inv accounted step other
    · exact typechecker_accounted accounts.inv accounted step other

theorem run_accounts (distinct : (gs.map File.path).Nodup) (ran : Runs (Step workspace config) (initial gs) trace s) :
    Accounts trace s := by
  induction ran with
  | nil => exact ⟨Edits.initial_inv distinct,rfl,[],[],rfl,fun impossible => impossible.elim,.nil⟩
  | snoc _ step ih => exact step_accounts ih step

end Runs

section Interval

-- The two assertions of commitEdit on the epoch of the slow path that it finds.
def InInterval (e : Edits.System) : Prop :=
  e.epochs.getStatus.epoch ≤ e.indexer.pendingTypecheckUpdates.epoch ∧
  e.epochs.getStatus.epoch > e.indexer.pendingTypecheckUpdates.epoch - e.indexer.pendingTypecheckUpdates.editCount

instance (e : Edits.System) : Decidable (InInterval e) := inferInstanceAs (Decidable (_ ∧ _))

-- commitEdit is about to look at the status, on either thread, and a slow path runs.
def FindsSlowPath (e : Edits.System) : Prop :=
  e.epochs.getStatus.slowPathRunning = true ∧
  ((∃ edit update evicted, e.processor = .indexed edit update evicted) ∨ e.processor = .preempting)

theorem length_le_last (sorted : numbers.Pairwise (· < ·)) (positive : ∀ n ∈ numbers,1 ≤ n) {last : Nat}
    (last_ : numbers.getLast? = some last) : numbers.length ≤ last := by
  have within : numbers ⊆ List.range' 1 last := by
    intro n present
    have := positive n present
    have := le_getLast sorted last_ n present
    exact List.mem_range'_1.mpr ⟨by omega,by omega⟩
  have bound := (List.subperm_of_subset (sorted.imp Nat.ne_of_lt) within).length_le
  rwa [List.length_range'] at bound

-- The edits that the slow path and the pending updates stand for, among all edits.
theorem finds_current (accounts : Accounts trace s) (finds : FindsSlowPath s.edits) : ∃ front own later back,
    editVersions (versions trace) = front ++ (own ++ later) ++ back ∧
    Spans s.edits.epochs.getStatus.epoch (slowEdits trace) own ∧
    Spans s.edits.indexer.pendingTypecheckUpdates.epoch s.edits.indexer.pendingTypecheckUpdates.editCount (own ++ later) := by
  obtain ⟨running,where_⟩ := finds
  have active : s.edits.phase.Active := by
    apply Edits.running_active accounts.inv
    simpa [getStatus] using running
  obtain ⟨done,waiting,all,accounted,-⟩ := accounts.split
  rcases where_ with ⟨edit,update,evicted,indexed⟩ | preempting
  · unfold Accounted at accounted
    rw [indexed] at accounted
    obtain ⟨before,new,rfl,-,current⟩ := accounted
    obtain ⟨front,own,later,rfl,slow,pending⟩ := current active
    exact ⟨front,own,later,new ++ waiting,by rw [all,List.append_assoc],slow,pending⟩
  · obtain ⟨front,own,later,rfl,slow,pending⟩ := free_accounted accounted (.inr preempting) active
    exact ⟨front,own,later,waiting,all,slow,pending⟩

theorem inInterval_iff (distinct : (gs.map File.path).Nodup) (ran : Runs (Step workspace config) (initial gs) trace s)
    (few : (versions trace).length < 2 ^ 32) (finds : FindsSlowPath s.edits) :
    InInterval s.edits ↔ skipped (versions trace) s.edits.epochs.getStatus.epoch.toNat
      s.edits.indexer.pendingTypecheckUpdates.epoch.toNat < (slowEdits trace).toNat := by
  have accounts := run_accounts distinct ran
  obtain ⟨front,own,later,back,all,running,pending⟩ := finds_current accounts finds
  obtain ⟨first,own_,runningEpoch⟩ := Option.map_eq_some_iff.mp running.epoch
  obtain ⟨last,last_,pendingEpoch⟩ := Option.map_eq_some_iff.mp pending.epoch
  have between := skipped_add own_ last_ all
  have members : ∀ version ∈ own ++ later,1 ≤ version ∧ version ≤ (versions trace).length := by
    intro version present
    refine (mem_editVersions.mp ?_).1
    rw [all]
    exact List.mem_append_left _ (List.mem_append_right _ present)
  have sorted : (own ++ later).Pairwise (· < ·) := by
    have whole := editVersions_sorted (versions trace)
    rw [all] at whole
    exact whole.sublist ((List.sublist_append_right _ _).trans (List.sublist_append_left _ _))
  have length := length_le_last sorted (fun version present => (members version present).1) last_
  have lastBound := (members last (List.mem_of_getLast? last_)).2
  have order := le_getLast sorted last_ first (List.mem_append_left _ (List.mem_of_getLast? own_))
  rw [List.length_append] at length
  have size : UInt32.size = 2 ^ 32 := rfl
  -- no counter has wrapped
  have firstNat : s.edits.epochs.getStatus.epoch.toNat = first := by
    rw [←runningEpoch]
    exact UInt32.toNat_ofNat_of_lt' (by omega)
  have lastNat : s.edits.indexer.pendingTypecheckUpdates.epoch.toNat = last := by
    rw [←pendingEpoch]
    exact UInt32.toNat_ofNat_of_lt' (by omega)
  have countNat : s.edits.indexer.pendingTypecheckUpdates.editCount.toNat = own.length + later.length := by
    rw [pending.count,List.length_append]
    exact UInt32.toNat_ofNat_of_lt' (by omega)
  have ownNat : (slowEdits trace).toNat = own.length := by
    rw [running.count]
    exact UInt32.toNat_ofNat_of_lt' (by omega)
  have fits : s.edits.indexer.pendingTypecheckUpdates.editCount ≤ s.edits.indexer.pendingTypecheckUpdates.epoch := by
    rw [UInt32.le_iff_toNat_le]
    omega
  rw [InInterval,UInt32.le_iff_toNat_le,gt_iff_lt,UInt32.lt_iff_toNat_lt,UInt32.toNat_sub_of_le _ _ fits,firstNat,lastNat,
    countNat,ownNat]
  omega

def insideOnly : Workspace := ⟨fun path => path != "outside.rb",fun _ => false,fun _ => true⟩

open Edits in
-- An edit that finds the slow path of the edit before it.
theorem inInterval_iff_next : ∃ trace s, Runs (Step insideOnly {}) (initial [fileA,fileB]) trace s ∧ FindsSlowPath s.edits ∧
    InInterval s.edits := by
  have ran : Runs (Step insideOnly {}) (initial [fileA,fileB]) [] (initial [fileA,fileB]) := .nil
  have ran := ran.snoc (@Step.receive _ _ _ (.textDocumentDidOpen changedA))
  have ran := ran.snoc (.index rfl (.index rfl (List.nodup_singleton _) (by decide) rfl))
  have ran := ran.snoc (.edits (.inl (.keep rfl rfl)) (fun impossible => (by cases impossible)))
  have ran := ran.snoc (.edits (.inr (.start rfl rfl rfl)) id)
  have ran := ran.snoc (.edits (.inr (@TypecheckerStep.apply _ _ _ [] rfl)) id)
  have ran := ran.snoc (@Step.receive _ _ _ (.textDocumentDidOpen changedB))
  have ran := ran.snoc (.index rfl (.index rfl (List.nodup_singleton _) (by decide) rfl))
  refine ⟨_,_,ran,⟨rfl,.inl ⟨_,_,_,rfl⟩⟩,?_⟩
  exact (inInterval_iff (by decide) ran (by decide) ⟨rfl,.inl ⟨_,_,_,rfl⟩⟩).mpr (by decide)

open Edits in
-- A file outside the workspace takes a version between the slow path and an edit
-- that preempts it.
theorem inInterval_outside : ∃ trace s, Runs (Step insideOnly {}) (initial [fileA,fileB]) trace s ∧ FindsSlowPath s.edits ∧
    ¬InInterval s.edits := by
  have ran : Runs (Step insideOnly {}) (initial [fileA,fileB]) [] (initial [fileA,fileB]) := .nil
  have ran := ran.snoc (@Step.receive _ _ _ (.textDocumentDidOpen changedA))
  have ran := ran.snoc (.index rfl (.index rfl (List.nodup_singleton _) (by decide) rfl))
  have ran := ran.snoc (.edits (.inl (.keep rfl rfl)) (fun impossible => (by cases impossible)))
  have ran := ran.snoc (.edits (.inr (.start rfl rfl rfl)) id)
  have ran := ran.snoc (.edits (.inr (@TypecheckerStep.apply _ _ _ [] rfl)) id)
  have ran := ran.snoc (@Step.receive _ _ _ (.textDocumentDidOpen {path := "outside.rb"}))
  have ran := ran.snoc (@Step.receive _ _ _ (.textDocumentDidOpen fileB))
  have ran := ran.snoc (.edits (.inl (.schedule rfl rfl rfl)) id)
  have ran := ran.snoc (.preempt rfl rfl (.preempt rfl (.inl rfl) (List.nodup_singleton _) rfl rfl))
  have ran := ran.snoc (.edits (.inl (.unschedule rfl)) id)
  have ran := ran.snoc (@Step.receive _ _ _ (.textDocumentDidOpen savedB))
  have ran := ran.snoc (.index rfl (.index rfl (List.nodup_singleton _) (by decide) rfl))
  exact ⟨_,_,ran,⟨rfl,.inl ⟨_,_,_,rfl⟩⟩,by decide⟩

end Interval
end Messages
end Lsp
