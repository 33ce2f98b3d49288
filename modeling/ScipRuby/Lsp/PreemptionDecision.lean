import ScipRuby.Lsp.EpochInterval

namespace Lsp
open Patches

section Decisions
variable {config : LSPConfiguration} {base target : FileTable} {patch : Patch File} {evicted : EvictedFiles}

-- An edit decided before it is indexed, against the table `base`, and after, with
-- the evicted files in place of the old versions in `target`.
structure Indexing (base target : FileTable) (patch : Patch File) (evicted : EvictedFiles) : Prop where
  covers : Covers File.path base target patch
  evicts : Evicts base patch evicted
  length : target.length = base.length
  distinct : (target.map File.path).Nodup

theorem Indexing.names (indexing : Indexing base target patch evicted) : base.map File.path = target.map File.path := by
  rw [indexing.covers.map_name,←indexing.length,List.take_length]

theorem Indexing.find (indexing : Indexing base target patch evicted) (path : String) :
    findFileByPath target path = findFileByPath base path := by
  have byNames : ∀ table : FileTable, findFileByPath table path = (table.map File.path).findIdx? (fun name => name = path) := by
    intro table
    rw [List.findIdx?_map]
    rfl
  rw [byNames,byNames,indexing.names]

-- The place of an indexed file, and its old version.
theorem Indexing.old (indexing : Indexing base target patch evicted) {file : File} (present : file ∈ patch.map Prod.snd) :
    ∃ fref old, findFileByPath base file.path = some fref ∧ fref ∈ keys patch ∧ base[fref]? = some old ∧
      old.path = file.path ∧ evicted.lookup fref = some old := by
  obtain ⟨entry,stored,rfl⟩ := List.mem_map.mp present
  have current := indexing.covers.current entry stored
  have inside := (List.getElem?_eq_some_iff.mp current).1
  rw [indexing.length] at inside
  obtain ⟨w,again,same⟩ := indexing.covers.names _ _ (List.getElem?_eq_getElem inside)
  rw [current] at again
  refine ⟨entry.1,base[entry.1],?_,mem_keys stored,List.getElem?_eq_getElem inside,?_,?_⟩
  · rw [←indexing.find]
    exact locate_of_getElem indexing.distinct current
  · rw [←same,Option.some.inj again]
  · exact indexing.evicts.version _ _ (List.getElem?_eq_getElem inside) (mem_keys stored)

theorem Indexing.needsSlowPath (indexing : Indexing base target patch evicted) {file : File}
    (present : file ∈ patch.map Prod.snd) :
    needsSlowPath config target evicted file = needsSlowPath config base ∅ file := by
  obtain ⟨fref,old,found,-,stored,-,version⟩ := indexing.old present
  simp only [Lsp.needsSlowPath,indexing.find,found,getOldFile,version,AList.lookup_empty,stored]

theorem oldFileOf_version {fref : FileRef} {old : File} (version : evicted.lookup fref = some old) (stored : base[fref]? = some old) :
    oldFileOf target evicted fref = some old ∧ oldFileOf base ∅ fref = some old := by
  have nonempty : evicted.entries.isEmpty = false := by
    cases entries : evicted.entries with
    | nil =>
      rw [AList.lookup,entries] at version
      cases version
    | cons _ _ => rfl
  constructor
  · rw [oldFileOf,nonempty]
    exact version
  · exact stored

theorem Indexing.changed (indexing : Indexing base target patch evicted) {files : List File}
    (present : ∀ file ∈ files,file ∈ patch.map Prod.snd) : ∃ refs hashes,
    changedFilesAndSymbols config target evicted files = some (refs,hashes) ∧
    changedFilesAndSymbols config base ∅ files = some (refs,hashes) ∧
    ∀ file ∈ files,(config.sorbetPackages && file.isPackage config) = false →
      ∀ fref, findFileByPath base file.path = some fref → fref ∈ refs := by
  induction files with
  | nil => exact ⟨[],[],rfl,rfl,fun _ impossible => (by cases impossible)⟩
  | cons file files ih =>
    obtain ⟨refs,hashes,after,before,noted⟩ := ih (fun file later => present file (List.mem_cons_of_mem _ later))
    obtain ⟨fref,old,found,-,stored,-,version⟩ := indexing.old (present file List.mem_cons_self)
    have both : oldFileOf target evicted fref = some old ∧ oldFileOf base ∅ fref = some old :=
      oldFileOf_version version stored
    obtain ⟨new_,old_⟩ := both
    cases package : config.sorbetPackages && file.isPackage config with
    | true =>
      refine ⟨refs,hashes,?_,?_,?_⟩
      · simp only [changedFilesAndSymbols,after,Option.bind_eq_bind,Option.bind_some,package,if_true]
      · simp only [changedFilesAndSymbols,before,Option.bind_eq_bind,Option.bind_some,package,if_true]
      · intro other member notPackage
        rcases List.mem_cons.mp member with rfl | later
        · rw [package] at notPackage
          cases notPackage
        · exact noted other later notPackage
    | false =>
      refine ⟨if fref ∈ refs then refs else fref :: refs,changedNameHashes old.hash file.hash ++ hashes,?_,?_,?_⟩
      · simp only [changedFilesAndSymbols,after,Option.bind_eq_bind,Option.bind_some,package,Bool.false_eq_true,if_false,
          indexing.find,found,new_]
      · simp only [changedFilesAndSymbols,before,Option.bind_eq_bind,Option.bind_some,package,Bool.false_eq_true,if_false,
          found,old_]
      · intro other member notPackage ref place
        rcases List.mem_cons.mp member with rfl | later
        · rw [found] at place
          cases place
          split
          · assumption
          · exact List.mem_cons_self
        · have kept := noted other later notPackage ref place
          split
          · exact kept
          · exact List.mem_cons_of_mem _ kept

-- A loop over fewer mentions stays below the bound that the other loop met.
theorem addExtraFiles_le {changed : List FileRef} {hashes : List NameHash} {before after : List File} {ref : FileRef}
    {first second : FastPathFilesToTypecheckResult} (length : after.length = before.length)
    (fewer : ∀ (i : Nat) (new old : File), after[i]? = some new → before[i]? = some old →
      mentionsChange config changed hashes (ref + i) new = true → mentionsChange config changed hashes (ref + i) old = true)
    (less : second.totalChanged ≤ first.totalChanged)
    (small : (addExtraFiles config changed hashes ref before first).totalChanged ≤ config.lspMaxFilesOnFastPath) :
    (addExtraFiles config changed hashes ref after second).totalChanged ≤ config.lspMaxFilesOnFastPath := by
  induction before generalizing after ref first second with
  | nil =>
    rw [List.length_nil,List.length_eq_zero_iff] at length
    subst length
    exact Nat.le_trans less small
  | cons old before ih =>
    cases after with
    | nil => cases length
    | cons new after =>
      have shorter : after.length = before.length := Nat.succ.inj length
      have rest : ∀ (i : Nat) (new old : File), after[i]? = some new → before[i]? = some old →
          mentionsChange config changed hashes (ref + 1 + i) new = true →
          mentionsChange config changed hashes (ref + 1 + i) old = true := by
        intro i new old inAfter inBefore
        have := fewer (i + 1) new old inAfter inBefore
        rwa [Nat.add_comm i 1,←Nat.add_assoc] at this
      have head := fewer 0 new old rfl rfl
      simp only [Nat.add_zero] at head
      simp only [addExtraFiles] at small ⊢
      cases oldMentions : mentionsChange config changed hashes ref old with
      | false =>
        cases newMentions : mentionsChange config changed hashes ref new with
        | true =>
          rw [head newMentions] at oldMentions
          cases oldMentions
        | false =>
          simp only [oldMentions,Bool.false_eq_true,if_false] at small ⊢
          exact ih shorter rest less small
      | true =>
        simp only [oldMentions,if_true] at small
        split at small
        · rename_i past
          simp only at small past
          omega
        · rename_i within
          split
          · split
            · rename_i past
              omega
            · exact ih shorter rest (Nat.succ_le_succ less) small
          · exact ih shorter rest (Nat.le_succ_of_le less) small

-- Only fewer files mention the change once the edit is in the table.
theorem Indexing.fewer (indexing : Indexing base target patch evicted) {refs : List FileRef} {hashes : List NameHash}
    (noted : ∀ file ∈ patch.map Prod.snd,(config.sorbetPackages && file.isPackage config) = false →
      ∀ fref, findFileByPath base file.path = some fref → fref ∈ refs)
    (i : Nat) (new old : File) (inTarget : target[i]? = some new) (inBase : base[i]? = some old)
    (mentions : mentionsChange config refs hashes (0 + i) new = true) :
    mentionsChange config refs hashes (0 + i) old = true := by
  rw [Nat.zero_add] at mentions ⊢
  by_cases touched : i ∈ keys patch
  · obtain ⟨entry,stored,rfl⟩ := List.mem_map.mp touched
    have current := indexing.covers.current entry stored
    rw [inTarget] at current
    cases current
    simp only [mentionsChange,Bool.and_eq_true,Bool.not_eq_true'] at mentions
    have place : findFileByPath base entry.2.path = some entry.1 := by
      rw [←indexing.find]
      exact locate_of_getElem indexing.distinct inTarget
    have member := noted entry.2 (List.mem_map_of_mem stored) mentions.1.1.2 entry.1 place
    rw [List.contains_iff_mem.mpr member] at mentions
    exact absurd mentions.1.1.1 (by simp)
  · have same := indexing.covers.unchanged inBase touched
    rw [inTarget] at same
    cases same
    exact mentions

-- When the decision is for the fast path.
theorem fast_iff {gs : FileTable} {changedFiles : List File} :
    (∃ result, getTypecheckingPathInternal config gs changedFiles evicted = some result ∧ result.path = .fast) ↔
      config.disableFastPath = false ∧ changedFiles.length ≤ config.lspMaxFilesOnFastPath ∧
      changedFiles.any (needsSlowPath config gs evicted) = false ∧
      ∃ files, fastPathFilesToTypecheck config gs changedFiles evicted = some files ∧
        files.totalChanged ≤ config.lspMaxFilesOnFastPath := by
  unfold getTypecheckingPathInternal
  constructor
  · rintro ⟨result,decided,fast⟩
    split at decided
    · cases decided
      cases fast
    · split at decided
      · cases decided
        cases fast
      · split at decided
        · cases decided
          cases fast
        · rename_i enabled short quick
          obtain ⟨files,found,rest⟩ := Option.bind_eq_some_iff.mp decided
          split at rest
          · cases rest
            cases fast
          · rename_i bounded
            exact ⟨by simpa using enabled,Nat.le_of_not_lt short,by simpa using quick,files,found,Nat.le_of_not_lt bounded⟩
  · rintro ⟨enabled,short,quick,files,found,bounded⟩
    simp only [enabled,quick,found,Bool.false_eq_true,if_false,if_neg (Nat.not_lt.mpr short),Option.bind_eq_bind,
      Option.bind_some,if_neg (Nat.not_lt.mpr bounded)]
    exact ⟨_,rfl,rfl⟩

theorem fast_of_typecheckingPathOf {gs : FileTable} {changedFiles : List File}
    (fresh : typecheckingPathOf config gs changedFiles = .fast) :
    ∃ result, getTypecheckingPathInternal config gs changedFiles ∅ = some result ∧ result.path = .fast := by
  unfold typecheckingPathOf at fresh
  split at fresh
  · cases fresh
  · split at fresh
    · rename_i result decided
      exact ⟨result,decided,fresh⟩
    · cases fresh

theorem Indexing.decided (indexing : Indexing base target patch evicted)
    (fresh : typecheckingPathOf config base (patch.map Prod.snd) = .fast) :
    ∃ result, getTypecheckingPathInternal config target (patch.map Prod.snd) evicted = some result ∧ result.path = .fast := by
  have slow : (patch.map Prod.snd).any (Lsp.needsSlowPath config target evicted) =
      (patch.map Prod.snd).any (Lsp.needsSlowPath config base ∅) := by
    rw [Bool.eq_iff_iff,List.any_eq_true,List.any_eq_true]
    constructor
    · rintro ⟨file,present,slow⟩
      exact ⟨file,present,by rwa [←indexing.needsSlowPath present]⟩
    · rintro ⟨file,present,slow⟩
      exact ⟨file,present,by rwa [indexing.needsSlowPath present]⟩
  obtain ⟨refs,hashes,after,before,noted⟩ := @Indexing.changed config _ _ _ _ indexing _ (fun _ present => present)
  have small : ∀ start, (addExtraFiles config refs (sortAndDedupe hashes) 0 base start).totalChanged ≤
      config.lspMaxFilesOnFastPath →
      (addExtraFiles config refs (sortAndDedupe hashes) 0 target start).totalChanged ≤ config.lspMaxFilesOnFastPath :=
    fun _ => addExtraFiles_le indexing.length (indexing.fewer noted) (Nat.le_refl _)
  have decided := fast_iff.mp (fast_of_typecheckingPathOf fresh)
  obtain ⟨enabled,short,quick,files,found,bounded⟩ := decided
  apply fast_iff.mpr
  rw [slow]
  refine ⟨enabled,short,quick,?_⟩
  simp only [fastPathFilesToTypecheck,after,before,Option.bind_eq_bind,Option.bind_some] at found ⊢
  cases none_ : hashes.isEmpty with
  | true =>
    simp only [none_,if_true] at found ⊢
    exact ⟨files,found,bounded⟩
  | false =>
    simp only [none_,Bool.false_eq_true,if_false,Option.some.injEq] at found ⊢
    rw [←found] at bounded
    exact ⟨_,rfl,small _ bounded⟩

-- A new file is in no old table.
theorem length_of_found (covers : Covers File.path base target patch) (distinct : (target.map File.path).Nodup)
    (found : ∀ file ∈ patch.map Prod.snd,findFileByPath base file.path ≠ none) : target.length = base.length := by
  apply Nat.le_antisymm _ covers.le
  by_contra longer
  rw [Nat.not_le] at longer
  have last := List.getElem?_eq_getElem longer
  have touched : base.length ∈ keys patch := by
    by_contra untouched
    have old := covers.rest _ _ last untouched
    simp at old
  obtain ⟨entry,stored,place⟩ := List.mem_map.mp touched
  have current := covers.current entry stored
  obtain ⟨i,there⟩ := Option.ne_none_iff_exists'.mp (found entry.2 (List.mem_map_of_mem stored))
  obtain ⟨old,inBase,same⟩ := getElem_of_locate there
  obtain ⟨new,inTarget,again⟩ := covers.names i old inBase
  have left := locate_of_getElem distinct inTarget
  rw [again,same,locate_of_getElem distinct current] at left
  have inside := (List.getElem?_eq_some_iff.mp inBase).1
  rw [←Option.some.inj left,place] at inside
  exact Nat.lt_irrefl _ inside

theorem startEdit_fast {indexer : LSPIndexer} {edit : SorbetWorkspaceEditParams}
    (distinct : (indexer.gs.map File.path).Nodup) (paths : (edit.updates.map File.path).Nodup)
    (fresh : typecheckingPathOf config indexer.gs edit.updates = .fast) : ∃ indexer' update evicted,
    indexer.startEdit config edit = some (indexer',update,evicted) ∧ update.typecheckingPath = .fast := by
  have enters := enterUpdates_enters distinct paths
  obtain ⟨_,_,quick,_⟩ := fast_iff.mp (fast_of_typecheckingPathOf fresh)
  have found : ∀ file ∈ (enterUpdates indexer.gs edit.updates).updated.map Prod.snd,
      findFileByPath indexer.gs file.path ≠ none := by
    rw [enters.files]
    intro file present none_
    have slow := List.any_eq_false.mp quick file present
    simp [needsSlowPath,none_] at slow
  have length := length_of_found enters.covers enters.distinct found
  have indexing : Indexing indexer.gs (enterUpdates indexer.gs edit.updates).gs
      (enterUpdates indexer.gs edit.updates).updated (enterUpdates indexer.gs edit.updates).newlyEvictedFiles :=
    ⟨enters.covers,enters.evicts,length,enters.distinct⟩
  rw [←enters.files] at fresh
  obtain ⟨result,decided,fast⟩ := indexing.decided fresh
  simp only [LSPIndexer.startEdit,getTypecheckingPath,enters.old.mpr length,Bool.false_eq_true,if_false,
    LSPFileUpdates.updatedFiles,decided,Option.bind_eq_bind,Option.bind_some,fast]
  exact ⟨_,_,_,rfl,rfl⟩

end Decisions

section Tasks
variable (config : LSPConfiguration)

-- SorbetWorkspaceEditTask::index; too many files are left to runSpecial.
def SorbetWorkspaceEditTask.index (indexer : LSPIndexer) (epochs : TypecheckEpochManager)
    (task : SorbetWorkspaceEditTask) : Option (LSPIndexer × TypecheckEpochManager × LSPFileUpdates) :=
  if (task.indexed indexer.gs).updates.length ≤ config.lspMaxFilesOnFastPath then
    indexer.commitEdit config epochs (task.indexed indexer.gs)
  else none

-- The files of an edit have their own paths, and a cached decision for the fast path
-- was made about few files.
def Task.Sound : Task → Prop
  | .edit task => (task.params.updates.map File.path).Nodup ∧
      (task.cachedFastPathDecision = some .fast → task.params.updates.length ≤ config.lspMaxFilesOnFastPath)
  | .didChangeConfiguration _ | .request _ _ | .plain _ => True

variable {config} {gs : FileTable} {queue before rest : TaskQueue} {task : SorbetWorkspaceEditTask}

theorem merge_distinct {older newer : SorbetWorkspaceEditParams} (distinct : (newer.updates.map File.path).Nodup) :
    ((older.merge newer).updates.map File.path).Nodup := by
  unfold SorbetWorkspaceEditParams.merge
  dsimp only
  generalize newer.updates = updates at distinct
  induction older.updates generalizing updates with
  | nil => exact distinct
  | cons file files ih =>
    rw [List.foldl_cons]
    apply ih
    split
    · exact distinct
    · rename_i unseen
      rw [List.map_append]
      refine distinct.append (List.nodup_singleton _) ?_
      intro path old last
      rw [List.mem_singleton.mp last] at old
      exact unseen old

theorem sound_mergeNewer {older newer : SorbetWorkspaceEditTask} (sound : Task.Sound config (.edit newer)) :
    Task.Sound config (.edit (older.mergeNewer newer)) :=
  ⟨merge_distinct sound.1,fun impossible => (by cases impossible)⟩

theorem mergeLoop_sound (older : Option (SorbetWorkspaceEditTask × TaskQueue))
    (hand : ∀ hand ∈ older,Task.Sound config (.edit hand.1) ∧ ∀ task ∈ hand.2,task.Sound config)
    (sound : ∀ task ∈ queue,task.Sound config) : ∀ task ∈ mergeLoop older queue,task.Sound config := by
  induction queue generalizing older with
  | nil =>
    cases older with
    | none => exact sound
    | some hand_ =>
      intro task present
      obtain ⟨own,passed⟩ := hand hand_ rfl
      rcases List.mem_cons.mp present with rfl | later
      · exact own
      · exact passed task later
  | cons first queue ih =>
    have head := sound first List.mem_cons_self
    have tail : ∀ task ∈ queue,task.Sound config := fun task present => sound task (List.mem_cons_of_mem _ present)
    cases first with
    | edit first =>
      cases older with
      | none =>
        apply ih (some (first,[])) _ tail
        intro hand_ same
        cases same
        exact ⟨head,fun _ impossible => (by cases impossible)⟩
      | some hand_ =>
        apply ih (some (hand_.1.mergeNewer first,hand_.2)) _ tail
        intro merged same
        cases same
        exact ⟨sound_mergeNewer head,(hand hand_ rfl).2⟩
    | didChangeConfiguration _ | request _ _ | plain _ =>
      all_goals
        cases older with
        | none =>
          rw [(Messages.mergeLoop_other rfl).1]
          intro task present
          rcases List.mem_cons.mp present with rfl | later
          · exact trivial
          · exact ih none hand tail task later
        | some hand_ =>
          rw [(Messages.mergeLoop_other rfl).2]
          obtain ⟨own,passed⟩ := hand hand_ rfl
          split
          · apply ih (some (hand_.1,hand_.2 ++ [_])) _ tail
            intro next same
            cases same
            refine ⟨own,?_⟩
            intro task present
            rcases List.mem_append.mp present with earlier | last
            · exact passed task earlier
            · rw [List.mem_singleton.mp last]
              exact trivial
          · intro task present
            rcases List.mem_append.mp present with earlier | later
            · rcases List.mem_cons.mp earlier with rfl | between
              · exact own
              · exact passed task between
            · rcases List.mem_cons.mp later with rfl | after
              · exact trivial
              · exact ih none (fun _ impossible => (by cases impossible)) tail task after

theorem mergeFileChanges_sound (sound : ∀ task ∈ queue,task.Sound config) :
    ∀ task ∈ mergeFileChanges queue,task.Sound config :=
  mergeLoop_sound none (fun _ impossible => (by cases impossible)) sound

theorem canPreempt_sound {task : Task} (sound : task.Sound config) : (task.canPreempt config gs).2.Sound config := by
  cases task with
  | didChangeConfiguration _ => trivial
  | request _ _ => trivial
  | plain _ => trivial
  | edit task =>
    simp only [Task.canPreempt,SorbetWorkspaceEditTask.getTypecheckingPath]
    split
    · exact sound
    · refine ⟨sound.1,?_⟩
      intro fast
      have fresh := Option.some.inj fast
      exact (fast_iff.mp (fast_of_typecheckingPathOf fresh)).2.1

-- A task that can preempt and is an edit has the decision in its cache.
theorem canPreempt_cached {task : Task} {edit : SorbetWorkspaceEditTask}
    (can : task.canPreempt config gs = (true,.edit edit)) : edit.cachedFastPathDecision = some .fast := by
  cases task with
  | didChangeConfiguration _ => cases can
  | request _ _ => cases (Prod.mk.inj can).2
  | plain _ => cases can
  | edit task =>
    simp only [Task.canPreempt,SorbetWorkspaceEditTask.getTypecheckingPath] at can
    split at can
    · rename_i path cached
      simp only [Prod.mk.injEq,beq_iff_eq,Task.edit.injEq] at can
      rw [←can.2,cached,can.1]
    · simp only [Prod.mk.injEq,beq_iff_eq,Task.edit.injEq] at can
      rw [←can.2,can.1]

theorem findCannotPreempt_sound (sound : ∀ task ∈ queue,task.Sound config) :
    ∀ task ∈ (findCannotPreempt config gs queue).1 ++ (findCannotPreempt config gs queue).2,task.Sound config := by
  induction queue with
  | nil => exact sound
  | cons first queue ih =>
    have head := @canPreempt_sound config gs first (sound first List.mem_cons_self)
    have tail : ∀ task ∈ queue,task.Sound config := fun task present => sound task (List.mem_cons_of_mem _ present)
    simp only [findCannotPreempt]
    split
    all_goals
      rename_i decided
      rw [decided] at head
      intro task present
      rcases List.mem_cons.mp present with rfl | later
      · exact head
      · first
        | exact ih tail task later
        | exact tail task later

theorem promoteEdits_sound (sound : ∀ task ∈ queue,task.Sound config) :
    ∀ task ∈ promoteEdits config gs queue,task.Sound config := by
  have found := @findCannotPreempt_sound config gs queue sound
  have loop : ∀ (tasks : TaskQueue) (oldest : SorbetWorkspaceEditTask), Task.Sound config (.edit oldest) →
      (∀ task ∈ tasks,task.Sound config) → Task.Sound config (.edit (tasks.foldl mergeTask oldest)) := by
    intro tasks
    induction tasks with
    | nil => exact fun _ own _ => own
    | cons task tasks ih =>
      intro oldest own rest
      apply ih _ _ (fun task present => rest task (List.mem_cons_of_mem _ present))
      have head := rest task List.mem_cons_self
      cases task with
      | edit task => exact sound_mergeNewer head
      | didChangeConfiguration _ => exact own
      | request _ _ => exact own
      | plain _ => exact own
  have merged : ∀ tasks : TaskQueue, (∀ task ∈ tasks,task.Sound config) →
      ∀ task ∈ (mergeEdits tasks).toList.map Task.edit,task.Sound config := by
    intro tasks
    induction tasks with
    | nil => exact fun _ _ impossible => (by cases impossible)
    | cons first tasks ih =>
      intro all
      have rest : ∀ task ∈ tasks,task.Sound config := fun task present => all task (List.mem_cons_of_mem _ present)
      cases first with
      | edit first =>
        intro task present
        rw [List.mem_singleton.mp present]
        exact loop tasks first (all _ List.mem_cons_self) rest
      | didChangeConfiguration _ => exact ih rest
      | request _ _ => exact ih rest
      | plain _ => exact ih rest
  unfold promoteEdits
  split
  · rename_i first before last rest decided
    rw [decided] at found
    have promoted : ∀ task ∈ first :: before ++ [Task.edit last],task.Sound config := by
      intro task present
      apply found
      rcases List.mem_append.mp present with earlier | same
      · exact List.mem_append_left _ earlier
      · rw [List.mem_singleton.mp same]
        exact List.mem_append_right _ List.mem_cons_self
    intro task present
    rcases List.mem_append.mp present with front | later
    · rcases List.mem_append.mp front with edit | other
      · exact merged _ promoted task edit
      · exact promoted task (List.mem_filter.mp other).1
    · exact found task (List.mem_append_right _ (List.mem_cons_of_mem _ later))
  · rename_i decided
    rw [decided] at found
    exact found

end Tasks

namespace Messages
open Traces

variable {workspace : Workspace} {config : LSPConfiguration} {gs : FileTable} {trace : List Event} {s s' : System}
  {event : Event} {queue rest : TaskQueue} {task : SorbetWorkspaceEditTask} {preprocessor next : LSPPreprocessor}
  {msg : Message} {edit : SorbetWorkspaceEditParams}

theorem canonicalizeEdits_distinct {v : UInt32}
    (edits_ : preprocessor.canonicalizeEdits workspace v msg = some (next,edit)) :
    (edit.updates.map File.path).Nodup := by
  have document : ∀ file isOpen, (((preprocessor.canonicalizeDocument workspace file isOpen).2).map File.path).Nodup := by
    intro file isOpen
    unfold LSPPreprocessor.canonicalizeDocument
    split
    · exact List.nodup_singleton _
    · exact List.nodup_nil
  cases msg with
  | textDocumentDidOpen file | textDocumentDidClose file =>
    all_goals
      cases edits_
      exact document file _
  | textDocumentDidChange file _ _ =>
    cases edits_
    exact document file _
  | sorbetWatchmanFileChange files =>
    cases edits_
    simp only [LSPPreprocessor.canonicalizeWatchman,List.map_map]
    exact (files.property.sublist (List.filter_sublist.map _))
  | workspaceDidChangeConfiguration | request _ _ | plain _ | cancelRequest _ => cases edits_

theorem preprocess_sound (sound : ∀ task ∈ queue,task.Sound config) :
    ∀ task ∈ (preprocessor.preprocessAndEnqueue workspace queue msg).2,task.Sound config := by
  have appended : ∀ last : Task, last.Sound config → ∀ task ∈ queue ++ [last],task.Sound config := by
    intro last own task present
    rcases List.mem_append.mp present with old | new
    · exact sound task old
    · rw [List.mem_singleton.mp new]
      exact own
  unfold LSPPreprocessor.preprocessAndEnqueue
  cases edits_ : preprocessor.canonicalizeEdits workspace preprocessor.nextVersion msg with
  | some result =>
    obtain ⟨next,params⟩ := result
    dsimp only
    split
    · exact sound
    · apply mergeFileChanges_sound
      exact appended _ ⟨canonicalizeEdits_distinct edits_,fun impossible => (by cases impossible)⟩
  | none =>
    cases msg with
    | workspaceDidChangeConfiguration => exact appended _ trivial
    | request _ _ => exact appended _ trivial
    | plain _ => exact appended _ trivial
    | cancelRequest id =>
      dsimp only [cancelRequest]
      split
      · apply mergeFileChanges_sound
        exact fun task present => sound task (List.mem_of_mem_eraseP present)
      · exact sound
    | textDocumentDidOpen _ | textDocumentDidChange _ _ _ | textDocumentDidClose _ | sorbetWatchmanFileChange _ =>
      cases edits_

theorem step_sound (sound : ∀ task ∈ s.queue,task.Sound config) (step : Step workspace config s event s') :
    ∀ task ∈ s'.queue,task.Sound config := by
  cases step with
  | receive => exact preprocess_sound sound
  | preemptionPossible => exact findCannotPreempt_sound sound
  | promote => exact promoteEdits_sound sound
  | handle front _ _ =>
    rw [front] at sound
    exact fun task present => sound task (List.mem_cons_of_mem _ present)
  | index front _ =>
    rw [front] at sound
    exact fun task present => sound task (List.mem_cons_of_mem _ present)
  | preempt _ possible _ =>
    have found := @findCannotPreempt_sound config s.edits.indexer.gs s.queue sound
    rw [show (findCannotPreempt config s.edits.indexer.gs s.queue).1 ++
      (findCannotPreempt config s.edits.indexer.gs s.queue).2 = _ from congrArg Prod.snd possible] at found
    exact fun task present => found task (List.mem_cons_of_mem _ present)
  | edits _ _ => exact sound

theorem run_sound (ran : Runs (Step workspace config) (initial gs) trace s) : ∀ task ∈ s.queue,task.Sound config := by
  induction ran with
  | nil => exact fun _ impossible => (by cases impossible)
  | snoc _ step ih => exact step_sound ih step

-- The front of the queue when preemption is possible.
theorem possible_front (sound : ∀ task ∈ queue,task.Sound config)
    (possible : preemptionPossible config gs queue = (true,.edit task :: rest)) :
    (task.params.updates.map File.path).Nodup ∧ task.params.updates.length ≤ config.lspMaxFilesOnFastPath := by
  cases queue with
  | nil => cases possible
  | cons first queue =>
    have head := @canPreempt_sound config gs first (sound first List.mem_cons_self)
    cases can : first.canPreempt config gs with
    | mk able decided =>
      cases able with
      | false =>
        simp only [preemptionPossible,findCannotPreempt,can] at possible
        cases congrArg Prod.fst possible
      | true =>
        simp only [preemptionPossible,findCannotPreempt,can] at possible
        have front := congrArg Prod.snd possible
        simp only [List.cons_append,List.cons.injEq] at front
        rw [can,front.1] at head
        rw [front.1] at can
        exact ⟨head.1,head.2 (canPreempt_cached can)⟩

theorem preempted_fast (distinct : (gs.map File.path).Nodup) (ran : Runs (Step workspace config) (initial gs) trace s)
    (possible : preemptionPossible config s.edits.indexer.gs s.queue = (true,.edit task :: rest))
    (fresh : typecheckingPathOf config s.edits.indexer.gs (task.indexed s.edits.indexer.gs).updates = .fast) :
    ∃ indexer epochs update, task.index config s.edits.indexer s.edits.epochs = some (indexer,epochs,update) ∧
      update.typecheckingPath = .fast := by
  obtain ⟨paths,few⟩ := possible_front (run_sound ran) possible
  have kept : ((task.indexed s.edits.indexer.gs).updates.map File.path).Nodup :=
    paths.sublist (List.filter_sublist.map _)
  have short : (task.indexed s.edits.indexer.gs).updates.length ≤ config.lspMaxFilesOnFastPath :=
    Nat.le_trans (List.length_filter_le _ _) few
  obtain ⟨indexer,update,evicted,started,fast⟩ :=
    startEdit_fast (run_accounts distinct ran).inv.distinct kept fresh
  rw [SorbetWorkspaceEditTask.index,if_pos short,LSPIndexer.commitEdit,started]
  simp only [fast,Option.bind_eq_bind,Option.bind_some,bne_self_eq_false,Bool.and_false,Bool.false_eq_true,if_false]
  exact ⟨_,_,_,rfl,fast⟩

def usesX : File := {path := "g.rb",hash := ⟨1,[],[1]⟩}
def usesY : File := {path := "h.rb",hash := ⟨1,[],[2]⟩}
def defines : File := {path := "f.rb",hash := ⟨1,[⟨1,0⟩,⟨2,0⟩],[]⟩}
def changesX : File := {path := "f.rb",sourceHash := 1,hash := ⟨1,[⟨1,1⟩,⟨2,0⟩],[]⟩}
def changesY : File := {path := "f.rb",sourceHash := 2,hash := ⟨1,[⟨1,0⟩,⟨2,1⟩],[]⟩}
def twoFiles : LSPConfiguration := {lspMaxFilesOnFastPath := 2}

open Edits in
-- An edit that preempts a slow path with the decision just made, before a request that
-- cannot preempt and one more edit.
theorem preempted_fast_first : ∃ trace s task rest indexer epochs update,
    Runs (Step insideOnly twoFiles) (initial [fileA,defines,usesX,usesY]) trace s ∧ s.edits.processor = .preempting ∧
    preemptionPossible twoFiles s.edits.indexer.gs s.queue = (true,.edit task :: rest) ∧
    task.index twoFiles s.edits.indexer s.edits.epochs = some (indexer,epochs,update) ∧ update.typecheckingPath = .fast := by
  have ran : Runs (Step insideOnly twoFiles) (initial [fileA,defines,usesX,usesY]) [] _ := .nil
  have ran := ran.snoc (@Step.receive _ _ _ (.textDocumentDidOpen changedA))
  have ran := ran.snoc (.index rfl (.index rfl (List.nodup_singleton _) (by decide) rfl))
  have ran := ran.snoc (.edits (.inl (.keep rfl rfl)) (fun impossible => (by cases impossible)))
  have ran := ran.snoc (.edits (.inr (.start rfl rfl rfl)) id)
  have ran := ran.snoc (.edits (.inr (@TypecheckerStep.apply _ _ _ [] rfl)) id)
  have ran := ran.snoc (@Step.receive _ _ _ (.textDocumentDidOpen changesX))
  have ran := ran.snoc (@Step.receive _ _ _ (.request 1 .textDocumentReferences))
  have ran := ran.snoc (@Step.receive _ _ _ (.textDocumentDidOpen defines))
  have ran := ran.snoc (.edits (.inl (.schedule rfl rfl rfl)) id)
  obtain ⟨indexer,epochs,update,indexed,fast⟩ := preempted_fast (by decide) ran rfl rfl
  exact ⟨_,_,_,_,indexer,epochs,update,ran,rfl,rfl,indexed,fast⟩

open Edits in
-- The second of two edits of one file, both decided while the first was not indexed.
theorem preempted_slow : ∃ trace s task rest indexer epochs update,
    Runs (Step insideOnly twoFiles) (initial [fileA,defines,usesX,usesY]) trace s ∧ s.edits.processor = .preempting ∧
    preemptionPossible twoFiles s.edits.indexer.gs s.queue = (true,.edit task :: rest) ∧
    task.index twoFiles s.edits.indexer s.edits.epochs = some (indexer,epochs,update) ∧ update.typecheckingPath = .slow := by
  have ran : Runs (Step insideOnly twoFiles) (initial [fileA,defines,usesX,usesY]) [] _ := .nil
  have ran := ran.snoc (@Step.receive _ _ _ (.textDocumentDidOpen changedA))
  have ran := ran.snoc (.index rfl (.index rfl (List.nodup_singleton _) (by decide) rfl))
  have ran := ran.snoc (.edits (.inl (.keep rfl rfl)) (fun impossible => (by cases impossible)))
  have ran := ran.snoc (.edits (.inr (.start rfl rfl rfl)) id)
  have ran := ran.snoc (.edits (.inr (@TypecheckerStep.apply _ _ _ [] rfl)) id)
  have ran := ran.snoc (@Step.receive _ _ _ (.textDocumentDidOpen changesX))
  have ran := ran.snoc (@Step.receive _ _ _ (.request 1 .textDocumentHover))
  have ran := ran.snoc (@Step.receive _ _ _ (.textDocumentDidOpen changesY))
  have ran := ran.snoc (.edits (.inl (.schedule rfl rfl rfl)) id)
  have ran := ran.snoc (.preempt rfl rfl (.preempt rfl (.inl rfl) (List.nodup_singleton _) rfl rfl))
  have ran := ran.snoc (.handle rfl rfl nofun)
  exact ⟨_,_,_,_,_,_,_,ran,rfl,rfl,rfl,rfl⟩

end Messages
end Lsp
