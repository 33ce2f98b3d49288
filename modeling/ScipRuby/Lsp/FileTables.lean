import ScipRuby.Lsp.Indexer

namespace Lsp
open Patches

-- The two branches of applyFileTableUpdates that must not be taken.
inductive Mismatch where
  | path (fref : FileRef)
  | fileRef (expected actual : FileRef)
  deriving DecidableEq,Repr

-- The loop over the updated files: replacements are made, new files are put aside.
def replaceFiles (usedFiles : Nat) : FileTable → Patch File → FileTable × List Mismatch
  | gs,[] => (gs,[])
  | gs,(fref,file) :: updated =>
    if fref ≥ usedFiles then replaceFiles usedFiles gs updated
    else
      let (gs',mismatches) := replaceFiles usedFiles (gs.set fref file) updated
      (gs',if findFileByPath gs file.path = some fref then mismatches else .path fref :: mismatches)

def enterFiles : FileTable → Patch File → FileTable × List Mismatch
  | gs,[] => (gs,[])
  | gs,(fref,file) :: newFiles =>
    let (gs',mismatches) := enterFiles (gs ++ [file]) newFiles
    (gs',if fref = gs.length then mismatches else .fileRef fref gs.length :: mismatches)

def newFiles (usedFiles : Nat) (updated : Patch File) : Patch File :=
  (updated.filter (fun entry => usedFiles ≤ entry.1)).insertionSort (fun a b => a.1 ≤ b.1)

def applyFileTableUpdates (gs : FileTable) (updated : Patch File) : FileTable × List Mismatch :=
  let (replaced,mismatches) := replaceFiles gs.length gs updated
  let (entered,more) := enterFiles replaced (newFiles gs.length updated)
  (entered,mismatches ++ more)

-- The parts of LSPTypechecker::getNoopUpdate.
def getNoopUpdate (gs : FileTable) (frefs : List FileRef) : LSPFileUpdates :=
  {updated := frefs.filterMap (fun fref => gs[fref]?.map (fref,·)),typecheckingPath := .fast}

variable {gs base target : FileTable} {updated : Patch File} {files : List File} {file : File}

section Apply

theorem replaceFiles_table {usedFiles : Nat} (same : gs.length = usedFiles) :
    (replaceFiles usedFiles gs updated).1 = replaceAll gs updated := by
  induction updated generalizing gs with
  | nil => rfl
  | cons entry updated ih =>
    obtain ⟨fref,file⟩ := entry
    simp only [replaceFiles]
    split
    · rename_i past
      have untouched : gs.set fref file = gs := List.set_eq_of_length_le (by omega)
      rw [ih same,replaceAll,replaceAll,List.foldl_cons,untouched]
    · exact ih (by rwa [List.length_set])

-- Every replacement meets a file of its own path.
theorem replaceFiles_agrees {usedFiles : Nat} (distinct : (gs.map File.path).Nodup)
    (agree : ∀ entry ∈ updated,entry.1 < usedFiles → ∃ old, gs[entry.1]? = some old ∧ old.path = entry.2.path) :
    (replaceFiles usedFiles gs updated).2 = [] := by
  induction updated generalizing gs with
  | nil => rfl
  | cons entry updated ih =>
    obtain ⟨fref,file⟩ := entry
    have later : ∀ entry ∈ updated,entry.1 < usedFiles → ∃ old, gs[entry.1]? = some old ∧ old.path = entry.2.path :=
      fun entry present => agree entry (List.mem_cons_of_mem _ present)
    simp only [replaceFiles]
    split
    · exact ih distinct later
    · rename_i inside
      obtain ⟨old,present,path⟩ := agree _ List.mem_cons_self (Nat.lt_of_not_ge inside)
      dsimp only at present path
      have bound := (List.getElem?_eq_some_iff.mp present).1
      have found : findFileByPath gs file.path = some fref := by
        rw [←path]
        exact locate_of_getElem distinct present
      have names : (gs.set fref file).map File.path = gs.map File.path := by
        obtain ⟨_,rfl⟩ := List.getElem?_eq_some_iff.mp present
        rw [List.map_set,←path,←List.getElem_map File.path (h := by simpa using bound),List.set_getElem_self]
      simp only [found,if_true]
      apply ih
      · rwa [names]
      · intro entry stored old
        obtain ⟨current,there,same⟩ := later entry stored old
        by_cases equal : fref = entry.1
        · subst equal
          refine ⟨file,by simp [bound],?_⟩
          rw [←path,←same]
          rw [there] at present
          rw [Option.some.inj present]
        · exact ⟨current,by rwa [List.getElem?_set_ne equal],same⟩

theorem enterFiles_agrees (tail : List File) :
    enterFiles gs ((tail.zipIdx gs.length).map Prod.swap) = (gs ++ tail,[]) := by
  induction tail generalizing gs with
  | nil => simp [enterFiles]
  | cons file tail ih =>
    have rest := @ih (gs ++ [file])
    rw [List.length_append,List.length_singleton] at rest
    simp only [List.zipIdx_cons,List.map_cons,Prod.swap_prod_mk,enterFiles,rest,if_true,List.append_assoc,
      List.singleton_append]

theorem applyFileTableUpdates_covers (covers : Covers File.path base target updated)
    (distinct : (target.map File.path).Nodup) : applyFileTableUpdates base updated = (target,[]) := by
  have agree : ∀ entry ∈ updated,entry.1 < base.length → ∃ old, base[entry.1]? = some old ∧ old.path = entry.2.path := by
    intro entry present inside
    obtain ⟨w,stored,same⟩ := covers.names entry.1 _ (List.getElem?_eq_getElem inside)
    rw [covers.current entry present] at stored
    refine ⟨_,List.getElem?_eq_getElem inside,?_⟩
    rw [Option.some.inj stored,same]
  have replaced : replaceFiles base.length base updated = (target.take base.length,[]) := by
    apply Prod.ext
    · rw [replaceFiles_table rfl,covers.replaceAll]
    · exact replaceFiles_agrees (covers.nodup distinct) agree
  have length : (target.take base.length).length = base.length := List.length_take_of_le covers.le
  have entered : enterFiles (target.take base.length) (((target.drop base.length).zipIdx base.length).map Prod.swap) =
      (target.take base.length ++ target.drop base.length,[]) := by
    have whole := @enterFiles_agrees (target.take base.length) (target.drop base.length)
    rwa [length] at whole
  simp only [applyFileTableUpdates,replaced,newFiles,covers.tail,entered,List.take_append_drop,List.append_nil]

theorem replaceAll_covers (covers : Covers File.path base target updated) (same : target.length ≤ base.length) :
    replaceAll base updated = target := by
  rw [covers.replaceAll,List.take_of_length_le same]

end Apply

section Enter
variable {older newer : Patch File} {middle : FileTable} {state : Entering} {old_ new_ : EvictedFiles}

-- The evicted files are the versions that the patched files had in the base.
structure Evicts (base : FileTable) (patch : Patch File) (evicted : EvictedFiles) : Prop where
  version : ∀ (fref : FileRef) (old : File), base[fref]? = some old → fref ∈ keys patch → evicted.lookup fref = some old
  keys : ∀ fref ∈ evicted,fref ∈ keys patch

-- The oldest version wins where the patches are laid over each other.
theorem Evicts.merge (covers : Covers File.path base middle older) (first : Evicts base older old_)
    (second : Evicts middle newer new_) : Evicts base (overlay newer older) (mergeEvictedFiles old_ new_) where
  version := by
    intro fref file present touched
    by_cases earlier : fref ∈ Patches.keys older
    · have found := first.version fref file present earlier
      have stored : fref ∈ old_ := AList.lookup_isSome.mp (by rw [found]; rfl)
      rw [mergeEvictedFiles,AList.lookup_union_left stored,found]
    · have absent : fref ∉ old_ := fun stored => earlier (first.keys fref stored)
      rw [mergeEvictedFiles,AList.lookup_union_right absent]
      apply second.version fref file (covers.unchanged present earlier)
      exact (mem_keys_overlay.mp touched).resolve_right earlier
  keys := by
    intro fref stored
    rw [mem_keys_overlay]
    rcases AList.mem_union.mp stored with earlier | later
    · exact .inr (first.keys fref earlier)
    · exact .inl (second.keys fref later)

-- What the loop of commitEdit has done once it has seen `files`.
structure Enters (base : FileTable) (files : List File) (state : Entering) : Prop where
  covers : Covers File.path base state.gs state.updated
  files : state.updated.map Prod.snd = files
  distinct : (state.gs.map File.path).Nodup
  evicts : Evicts base state.updated state.newlyEvictedFiles
  old : state.hasNewFiles = false ↔ state.gs.length = base.length

theorem enterUpdate_enters (enters : Enters base files state) (unnamed : file.path ∉ files.map File.path) :
    Enters base (files ++ [file]) (enterUpdate state file) := by
  have fresh : ∀ entry ∈ state.updated,entry.2.path ≠ file.path := by
    intro entry present same
    apply unnamed
    rw [←same,←enters.files,List.map_map]
    exact List.mem_map_of_mem present
  have covers := enters.covers.upsert fresh
  have distinct : ((upsert File.path state.gs file).1.map File.path).Nodup := nodup_upsert enters.distinct
  rcases upsert_cases File.path state.gs file with ⟨i,old,present,same,found,replaced⟩ | ⟨_,absent,appended⟩
  · have entered : enterUpdate state file = {state with
        gs := state.gs.set i file,updated := state.updated ++ [(i,file)]
        newlyEvictedFiles := state.newlyEvictedFiles.insert i old} := by
      simp only [enterUpdate,findFileByPath,found,present]
    rw [replaced] at covers distinct
    rw [entered]
    refine ⟨covers,by simp [enters.files],distinct,⟨?_,?_⟩,?_⟩
    · intro fref file_ stored touched
      by_cases equal : fref = i
      · subst equal
        have untouched : fref ∉ keys state.updated := by
          have unique := covers.distinct
          rw [keys_append] at unique
          exact fun before => (List.disjoint_of_nodup_append unique) before (by simp [keys])
        rw [enters.covers.unchanged stored untouched] at present
        rw [AList.lookup_insert,Option.some.inj present]
      · rw [AList.lookup_insert_ne equal]
        apply enters.evicts.version fref file_ stored
        rw [keys_append,List.mem_append] at touched
        exact touched.resolve_right (by simp [keys,equal])
    · intro fref stored
      rw [keys_append,List.mem_append]
      rcases (AList.mem_insert _).mp stored with rfl | earlier
      · exact .inr (by simp [keys])
      · exact .inl (enters.evicts.keys fref earlier)
    · rw [List.length_set]
      exact enters.old
  · have entered : enterUpdate state file = {state with
        gs := state.gs ++ [file],updated := state.updated ++ [(state.gs.length,file)],hasNewFiles := true} := by
      simp only [enterUpdate,findFileByPath,absent]
    rw [appended] at covers distinct
    rw [entered]
    refine ⟨covers,by simp [enters.files],distinct,⟨?_,?_⟩,?_⟩
    · intro fref file_ stored touched
      apply enters.evicts.version fref file_ stored
      rw [keys_append,List.mem_append] at touched
      refine touched.resolve_right ?_
      intro last
      have same : fref = state.gs.length := by simpa [keys] using last
      have inside := (List.getElem?_eq_some_iff.mp stored).1
      rw [same] at inside
      exact Nat.not_le_of_lt inside enters.covers.le
    · intro fref stored
      rw [keys_append,List.mem_append]
      exact .inl (enters.evicts.keys fref stored)
    · have longer := enters.covers.le
      simp only [Bool.true_eq_false,List.length_append,List.length_singleton,false_iff]
      omega

theorem enterUpdates_enters (distinct : (gs.map File.path).Nodup) (paths : (files.map File.path).Nodup) :
    Enters gs files (enterUpdates gs files) := by
  have loop : ∀ seen todo state, Enters gs seen state → ((seen ++ todo).map File.path).Nodup →
      Enters gs (seen ++ todo) (todo.foldl enterUpdate state) := by
    intro seen todo
    induction todo generalizing seen with
    | nil =>
      intro state enters _
      rwa [List.append_nil]
    | cons file todo ih =>
      intro state enters unique
      have shape : seen ++ file :: todo = (seen ++ [file]) ++ todo := by simp
      rw [shape] at unique ⊢
      apply ih (seen ++ [file]) _ _ unique
      apply enterUpdate_enters enters
      rw [List.map_append,List.map_append] at unique
      have apart := List.disjoint_of_nodup_append (List.Nodup.of_append_left unique)
      exact fun earlier => apart earlier (by simp)
  have start : Enters gs [] {gs := gs} :=
    ⟨Covers.refl _ _,rfl,distinct,⟨fun _ _ _ impossible => (by cases impossible),
      fun _ impossible => absurd impossible (AList.notMem_empty _)⟩,fun _ => rfl,fun _ => rfl⟩
  exact loop [] files _ start paths

end Enter

section Edits
variable {config : LSPConfiguration} {indexer indexer' : LSPIndexer} {update update' : LSPFileUpdates}
  {evicted evicted' : EvictedFiles} {edit : SorbetWorkspaceEditParams}

-- The decision touches only the path and what the fast path needs.
structure SameEdit (update update' : LSPFileUpdates) : Prop where
  updated : update'.updated = update.updated
  epoch : update'.epoch = update.epoch
  editCount : update'.editCount = update.editCount
  hasNewFiles : update'.hasNewFiles = update.hasNewFiles
  canceledSlowPath : update'.canceledSlowPath = update.canceledSlowPath

theorem getTypecheckingPath_same (decided : getTypecheckingPath config gs update evicted = some update') :
    SameEdit update update' ∧ (update'.typecheckingPath = .fast → update'.hasNewFiles = false) := by
  unfold getTypecheckingPath at decided
  split at decided
  · cases decided
    exact ⟨⟨rfl,rfl,rfl,rfl,rfl⟩,fun impossible => (by cases impossible)⟩
  · rename_i old
    cases result : getTypecheckingPathInternal config gs update.updatedFiles evicted with
    | none =>
      rw [result] at decided
      cases decided
    | some result_ =>
      rw [result] at decided
      simp only [Option.bind_eq_bind,Option.bind_some] at decided
      split at decided <;> cases decided
      · exact ⟨⟨rfl,rfl,rfl,rfl,rfl⟩,fun _ => by simpa using old⟩
      · exact ⟨⟨rfl,rfl,rfl,rfl,rfl⟩,fun impossible => (by cases impossible)⟩

-- What commitEdit knows of an edit before it looks at the slow path.
structure Started (indexer : LSPIndexer) (edit : SorbetWorkspaceEditParams) (indexer' : LSPIndexer)
    (update : LSPFileUpdates) (evicted : EvictedFiles) : Prop where
  covers : Covers File.path indexer.gs indexer'.gs update.updated
  distinct : (indexer'.gs.map File.path).Nodup
  evicts : Evicts indexer.gs update.updated evicted
  files : update.updatedFiles = edit.updates
  old : update.hasNewFiles = false ↔ indexer'.gs.length = indexer.gs.length
  fast : update.typecheckingPath = .fast → update.hasNewFiles = false
  pending : indexer'.pendingTypecheckUpdates = indexer.pendingTypecheckUpdates
  evictedFiles : indexer'.evictedFiles = indexer.evictedFiles
  epoch : update.epoch = edit.epoch
  editCount : update.editCount = edit.mergeCount + 1
  uncanceled : update.canceledSlowPath = false

theorem startEdit_started (distinct : (indexer.gs.map File.path).Nodup) (paths : (edit.updates.map File.path).Nodup)
    (started : indexer.startEdit config edit = some (indexer',update,evicted)) :
    Started indexer edit indexer' update evicted := by
  have enters := enterUpdates_enters distinct paths
  unfold LSPIndexer.startEdit at started
  obtain ⟨decided,chosen,rest⟩ := Option.bind_eq_some_iff.mp started
  cases rest
  obtain ⟨same,fast⟩ := getTypecheckingPath_same chosen
  refine ⟨?_,enters.distinct,?_,?_,?_,fast,rfl,rfl,same.epoch,same.editCount,same.canceledSlowPath⟩
  · rw [same.updated]
    exact enters.covers
  · rw [same.updated]
    exact enters.evicts
  · rw [LSPFileUpdates.updatedFiles,same.updated]
    exact enters.files
  · rw [same.hasNewFiles]
    exact enters.old

theorem finishEdit_gs : (indexer.finishEdit update evicted).gs = indexer.gs := rfl

theorem finishEdit_slow (slow : update.typecheckingPath = .slow) :
    (indexer.finishEdit update evicted).pendingTypecheckUpdates =
      {update.copy with cancellationExpected := false,preemptionsExpected := 0} ∧
    (indexer.finishEdit update evicted).evictedFiles = evicted := by
  simp [LSPIndexer.finishEdit,slow]

theorem finishEdit_fast (fast : update.typecheckingPath = .fast) (uncanceled : update.canceledSlowPath = false) :
    (indexer.finishEdit update evicted).pendingTypecheckUpdates =
      {update.copy.mergeOlder indexer.pendingTypecheckUpdates with
        committedEditCount := (update.copy.mergeOlder indexer.pendingTypecheckUpdates).committedEditCount + update.editCount
        cancellationExpected := false,preemptionsExpected := 0} ∧
    (indexer.finishEdit update evicted).evictedFiles = mergeEvictedFiles indexer.evictedFiles evicted := by
  simp [LSPIndexer.finishEdit,fast,uncanceled]

-- The evicted files that a cancelation merged stay what they are.
theorem finishEdit_lookup (fref : FileRef) :
    (indexer.finishEdit update (mergeEvictedFiles indexer.evictedFiles evicted)).evictedFiles.lookup fref =
      (mergeEvictedFiles indexer.evictedFiles evicted).lookup fref := by
  cases path : update.typecheckingPath with
  | slow => rw [(finishEdit_slow path).2]
  | fast =>
    simp only [LSPIndexer.finishEdit,path,mergeEvictedFiles]
    by_cases old : fref ∈ indexer.evictedFiles
    · rw [AList.lookup_union_left old,AList.lookup_union_left old]
    · rw [AList.lookup_union_right old]

theorem cancelEdit_merged (canceled : indexer.cancelEdit config update evicted = some (update',evicted')) :
    update'.updated = overlay update.updated indexer.pendingTypecheckUpdates.updated ∧
    update'.epoch = update.epoch ∧
    update'.editCount = update.editCount + indexer.pendingTypecheckUpdates.editCount ∧
    update'.hasNewFiles = (update.hasNewFiles || indexer.pendingTypecheckUpdates.hasNewFiles) ∧
    update'.canceledSlowPath = true ∧ (update'.typecheckingPath = .fast → update'.hasNewFiles = false) ∧
    evicted' = mergeEvictedFiles indexer.evictedFiles evicted := by
  unfold LSPIndexer.cancelEdit at canceled
  obtain ⟨decided,chosen,rest⟩ := Option.bind_eq_some_iff.mp canceled
  cases rest
  obtain ⟨same,fast⟩ := getTypecheckingPath_same chosen
  exact ⟨same.updated,same.epoch,same.editCount,same.hasNewFiles,rfl,fast,rfl⟩

end Edits
end Lsp
