import Mathlib.Algebra.BigOperators.Group.List.Basic
import Mathlib.Data.UInt
import ScipRuby.Lsp.PreemptionDecision

namespace Lsp
namespace Messages
open Patches

variable {queue merged front back : TaskQueue} {passed : TaskQueue} {task : Task}

def others (queue : TaskQueue) : TaskQueue := queue.filter (fun task => !task.isEdit)

-- All updates of a queue's edits, the newest last.
def queuedUpdates (queue : TaskQueue) : List File := (queuedEdits queue).flatMap SorbetWorkspaceEditParams.updates

def lastVersion (queue : TaskQueue) (path : String) : Option File := latest File.path (queuedUpdates queue) path

def editedPaths (queue : TaskQueue) : Set String := {path | path ∈ (queuedUpdates queue).map File.path}

-- The total of the client's edits, in the type of mergeCount.
def editCount (queue : TaskQueue) : UInt32 := ((queuedEdits queue).map (fun edit => edit.mergeCount + 1)).sum

def DistinctPaths (queue : TaskQueue) : Prop := ∀ edit ∈ queuedEdits queue,(edit.updates.map File.path).Nodup

-- What one queue may be replaced by with no task noticing.
structure Replaces (queue merged : TaskQueue) : Prop where
  others : others merged = others queue
  count : editCount merged = editCount queue
  distinct : DistinctPaths queue → DistinctPaths merged
  versions : DistinctPaths queue → ∀ path, lastVersion merged path = lastVersion queue path

theorem queuedUpdates_append (front back : TaskQueue) :
    queuedUpdates (front ++ back) = queuedUpdates front ++ queuedUpdates back := by
  rw [queuedUpdates,queuedEdits_append,List.flatMap_append]
  rfl

theorem lastVersion_append (front back : TaskQueue) (path : String) :
    lastVersion (front ++ back) path = (lastVersion back path).or (lastVersion front path) := by
  rw [lastVersion,queuedUpdates_append,latest_append]
  rfl

theorem others_append (front back : TaskQueue) : others (front ++ back) = others front ++ others back :=
  List.filter_append _ _

theorem editCount_append (front back : TaskQueue) : editCount (front ++ back) = editCount front + editCount back := by
  rw [editCount,queuedEdits_append,List.map_append,List.sum_append]
  rfl

theorem distinctPaths_append : DistinctPaths (front ++ back) ↔ DistinctPaths front ∧ DistinctPaths back := by
  simp only [DistinctPaths,queuedEdits_append,List.mem_append]
  constructor
  · intro distinct
    exact ⟨fun edit here => distinct edit (.inl here),fun edit here => distinct edit (.inr here)⟩
  · rintro ⟨first,second⟩ edit (here | there)
    · exact first edit here
    · exact second edit there

theorem Replaces.refl (queue : TaskQueue) : Replaces queue queue := ⟨rfl,rfl,id,fun _ _ => rfl⟩

theorem Replaces.trans (first : Replaces queue middle) (second : Replaces middle merged) : Replaces queue merged :=
  ⟨second.others.trans first.others,second.count.trans first.count,
    fun distinct => second.distinct (first.distinct distinct),
    fun distinct path => (second.versions (first.distinct distinct) path).trans (first.versions distinct path)⟩

theorem Replaces.append (first : Replaces front front') (second : Replaces back back') :
    Replaces (front ++ back) (front' ++ back') := by
  refine ⟨?_,?_,fun distinct => ?_,fun distinct path => ?_⟩
  · rw [others_append,others_append,first.others,second.others]
  · rw [editCount_append,editCount_append,first.count,second.count]
  · obtain ⟨left,right⟩ := distinctPaths_append.mp distinct
    exact distinctPaths_append.mpr ⟨first.distinct left,second.distinct right⟩
  · obtain ⟨left,right⟩ := distinctPaths_append.mp distinct
    rw [lastVersion_append,lastVersion_append,first.versions left,second.versions right]

theorem latest_singleton (f : File) (path : String) :
    latest File.path [f] path = if f.path = path then some f else none := by
  by_cases same : f.path = path <;> simp [latest,same]

-- An older update counts unless the newer edit has one of its path.
theorem merged_latest {older updates : List File} (distinct : (older.map File.path).Nodup) (path : String) :
    latest File.path (older.foldl (fun newUpdates f =>
      if f.path ∈ newUpdates.map File.path then newUpdates else newUpdates ++ [f]) updates) path =
        (latest File.path updates path).or (latest File.path older path) := by
  induction older generalizing updates with
  | nil => simp [latest]
  | cons f older ih =>
    rw [List.map_cons,List.nodup_cons] at distinct
    have split : latest File.path (f :: older) path = (latest File.path older path).or (latest File.path [f] path) := by
      rw [← List.singleton_append,latest_append]
    rw [List.foldl_cons,split,latest_singleton]
    by_cases newer : f.path ∈ updates.map File.path
    · rw [if_pos newer,ih distinct.2]
      split
      · rename_i same
        subst same
        obtain ⟨last,found⟩ := Option.ne_none_iff_exists'.mp (fun none => latest_none.mp none newer)
        simp [found]
      · rw [Option.or_none]
    · rw [if_neg newer,ih distinct.2,latest_append,latest_singleton]
      split
      · rename_i same
        subst same
        rw [latest_none.mpr newer,latest_none.mpr distinct.1]
        rfl
      · rw [Option.none_or,Option.or_none]

-- Merging a newer edit into an older one across tasks that are no edits.
theorem mergeNewer_replaces (older newer : SorbetWorkspaceEditTask) (none_ : ∀ task ∈ passed,task.params? = none) :
    Replaces (.edit older :: passed ++ [.edit newer]) (.edit (older.mergeNewer newer) :: passed) := by
  have before : queuedEdits (.edit older :: passed ++ [.edit newer]) = [older.params,newer.params] := by
    rw [queuedEdits_append]
    exact congrArg (older.params :: · ++ [newer.params]) (queuedEdits_none none_)
  have after : queuedEdits (.edit (older.mergeNewer newer) :: passed) = [older.params.merge newer.params] :=
    congrArg (older.params.merge newer.params :: ·) (queuedEdits_none none_)
  refine ⟨?_,?_,fun distinct => ?_,fun distinct path => ?_⟩
  · rw [others_append]
    simp [others,Task.isEdit]
  · rw [editCount,editCount,before,after]
    simp only [List.map_cons,List.map_nil,List.sum_cons,List.sum_nil,add_zero,SorbetWorkspaceEditParams.merge]
    exact add_right_comm ..
  · intro edit member
    rw [after,List.mem_singleton] at member
    subst member
    exact merge_distinct (distinct newer.params (by rw [before]; simp))
  · have own : (older.params.updates.map File.path).Nodup := distinct older.params (by rw [before]; simp)
    rw [lastVersion,lastVersion,queuedUpdates,queuedUpdates,before,after]
    simp only [List.flatMap_cons,List.flatMap_nil,List.append_nil,SorbetWorkspaceEditParams.merge]
    rw [merged_latest own,latest_append]

-- The tasks that the loop holds back, in their order.
def held : Option (SorbetWorkspaceEditTask × TaskQueue) → TaskQueue
  | none => []
  | some (olderEdit,passed) => .edit olderEdit :: passed

theorem mergeLoop_replaces (older : Option (SorbetWorkspaceEditTask × TaskQueue))
    (passed : ∀ hand ∈ older,∀ task ∈ hand.2,task.params? = none) :
    Replaces (held older ++ queue) (mergeLoop older queue) := by
  induction queue generalizing older with
  | nil =>
    cases older with
    | none => exact .refl _
    | some hand =>
      rw [List.append_nil]
      exact .refl _
  | cons task queue ih =>
    by_cases other : task.params? = none
    · cases older with
      | none =>
        rw [(mergeLoop_other other).1]
        exact (Replaces.refl [task]).append (ih none passed)
      | some hand =>
        rw [(mergeLoop_other other).2]
        split
        · have later := ih (some (hand.1,hand.2 ++ [task])) (by
            intro hand' same later present
            cases same
            rcases List.mem_append.mp present with earlier | last
            · exact passed hand rfl later earlier
            · rw [List.mem_singleton.mp last]
              exact other)
          simpa [held] using later
        · have rest := ih none (fun _ impossible => (by cases impossible))
          exact (Replaces.refl (.edit hand.1 :: hand.2)).append ((Replaces.refl [task]).append rest)
    · cases task with
      | didChangeConfiguration _ => exact absurd rfl other
      | request _ _ => exact absurd rfl other
      | plain _ => exact absurd rfl other
      | edit task =>
        cases older with
        | none =>
          apply ih (some (task,[]))
          intro hand same later present
          cases same
          cases present
        | some hand =>
          have joined := (mergeNewer_replaces hand.1 task (passed hand rfl)).append (Replaces.refl queue)
          have later := ih (some (hand.1.mergeNewer task,hand.2)) (fun _ same => (by cases same; exact passed hand rfl))
          rw [List.append_assoc] at joined
          exact joined.trans later

-- A task that edits may not be moved across starts the loop afresh.
theorem mergeLoop_barrier (other : task.params? = none) (fixed : task.isDelayable = false)
    (older : Option (SorbetWorkspaceEditTask × TaskQueue)) :
    mergeLoop older (front ++ task :: back) = mergeLoop older front ++ task :: mergeLoop none back := by
  induction front generalizing older with
  | nil =>
    cases older with
    | none => exact (mergeLoop_other other).1
    | some hand =>
      rw [List.nil_append,(mergeLoop_other other).2,fixed]
      rfl
  | cons first front ih =>
    rw [List.cons_append]
    by_cases plain : first.params? = none
    · cases older with
      | none => rw [(mergeLoop_other plain).1,(mergeLoop_other plain).1,ih,List.cons_append]
      | some hand =>
        rw [(mergeLoop_other plain).2,(mergeLoop_other plain).2]
        split
        · exact ih _
        · rw [ih]
          simp
    · cases first with
      | didChangeConfiguration _ => exact absurd rfl plain
      | request _ _ => exact absurd rfl plain
      | plain _ => exact absurd rfl plain
      | edit first =>
        cases older with
        | none => exact ih _
        | some hand => exact ih _

-- The edits that a request waits for are, as far as it can tell, the same.
structure Unnoticed (queue merged : TaskQueue) : Prop where
  others : others merged = others queue
  versions : ∀ front task back, queue = front ++ task :: back → task.isEdit = false → task.isDelayable = false →
    ∃ front' back', merged = front' ++ task :: back' ∧ Messages.others front' = Messages.others front ∧
      (∀ path, lastVersion front' path = lastVersion front path) ∧ editedPaths front' = editedPaths front
  count : editCount merged = editCount queue
  distinct : DistinctPaths merged

theorem editedPaths_lastVersion (queue : TaskQueue) (path : String) :
    path ∈ editedPaths queue ↔ lastVersion queue path ≠ none := by
  rw [Ne,lastVersion,latest_none,not_not]
  rfl

theorem mergeFileChanges_unnoticed (queue : TaskQueue) (distinct : DistinctPaths queue) :
    Unnoticed queue (mergeFileChanges queue) := by
  have replaces (queue : TaskQueue) : Replaces queue (mergeFileChanges queue) :=
    mergeLoop_replaces none (fun _ impossible => (by cases impossible))
  refine ⟨(replaces queue).others,?_,(replaces queue).count,(replaces queue).distinct distinct⟩
  rintro front task back rfl other fixed
  have plain : task.params? = none := by cases task <;> first | rfl | cases other
  have versions := (replaces front).versions (distinctPaths_append.mp distinct).1
  refine ⟨mergeFileChanges front,mergeFileChanges back,mergeLoop_barrier plain fixed none,(replaces front).others,
    versions,?_⟩
  ext path
  rw [editedPaths_lastVersion,editedPaths_lastVersion,versions]

-- Two edits of one file with a delayable request between them, a request that is
-- not delayable, and one more edit.
theorem mergeFileChanges_unnoticed_sample :
    Unnoticed [.edit {params := {epoch := 1,updates := [{path := "a.rb",sourceSize := 1}]}},.request 1 .workspaceSymbol,
      .edit {params := {epoch := 2,updates := [{path := "a.rb",sourceSize := 2},{path := "b.rb"}]}},.request 2 .textDocumentHover,
      .edit {params := {epoch := 3,updates := [{path := "b.rb",sourceSize := 3}]}}]
      (mergeFileChanges [.edit {params := {epoch := 1,updates := [{path := "a.rb",sourceSize := 1}]}},.request 1 .workspaceSymbol,
      .edit {params := {epoch := 2,updates := [{path := "a.rb",sourceSize := 2},{path := "b.rb"}]}},.request 2 .textDocumentHover,
      .edit {params := {epoch := 3,updates := [{path := "b.rb",sourceSize := 3}]}}]) := by
  apply mergeFileChanges_unnoticed
  intro edit member
  simp only [queuedEdits,Task.params?,List.filterMap_cons,List.filterMap_nil,List.mem_cons,List.not_mem_nil,
    or_false] at member
  rcases member with rfl | rfl | rfl <;> decide

end Messages
end Lsp
