import Mathlib.Data.List.Perm.Subperm
import ScipRuby.Lib.Dedup
import ScipRuby.Scip.FileRuns

namespace Scip

-- The occurrence a save is made for.
def Step.occurrence (gs : GlobalState) (gemMap : GemMapping) : Step → Option Occurrence
  | .localDefinition d =>
    definitionOccurrence gs (d.occ.toSCIPString gs) ⟨d.file,d.occ.offsets⟩ d.enclosingLoc
  | .localReference r =>
    referenceOccurrence gs (r.occ.toSCIPString gs) (localDocs gs r.file r.occ r.overrideType) ⟨r.file,r.occ.offsets⟩
      r.symbolRoles
  | .definition d =>
    (d.spelled gs gemMap).bind (fun text => definitionOccurrence gs text (d.occLoc gs) d.enclosingLoc)
  | .reference r =>
    if r.hidden gs then none
    else (r.symRef.withoutType.tabled gs gemMap).bind
      (fun text => referenceOccurrence gs text (r.overrideDocs gs) r.loc r.symbolRoles)
  | _ => none

abbrev SaveKey := (UntypedGenericSymbolRef × Loc × Nat) ⊕ (Nat × LocOffsets × Nat × Nat)

-- What the deduplication goes by. That of locals stays within a function body.
def Step.saveKey (gs : GlobalState) (body : Nat) : Step → Option SaveKey
  | .localDefinition d => some (.inr (body,d.occ.offsets,definitionRole,d.occ.counter))
  | .localReference r => some (.inr (body,r.occ.offsets,r.symbolRoles,r.occ.counter))
  | .reference r => if r.hidden gs then none else some (.inl r.key)
  | _ => none

-- The saves of a file; those of locals are numbered by the body they are in.
def saves : Nat → List Step → List (Nat × Step)
  | _,[] => []
  | body,step :: rest =>
    if step.isClear then saves (body + 1) rest
    else if step.isSave then (if step.isLocal then body else 0,step) :: saves body rest
    else saves body rest

-- The same saves in another order, each save of a local in the body it was in.
structure Rearranged (visit visit' : FileVisit) : Prop where
  file : visit'.file = visit.file
  saves : (Scip.saves 0 visit.steps).Perm (Scip.saves 0 visit'.steps)
  entered : visit'.steps.filterMap Step.entered = visit.steps.filterMap Step.entered

section Statement
variable (gs : GlobalState) (currentPath : Str) (sorting : FastSort) (gemMap : GemMapping)

def occurrencesAfter (before : List (FileVisit × HashOrder)) (job : FileVisit × HashOrder) : Option (List Occurrence) :=
  (Worker.ofJobs gs currentPath sorting gemMap (before ++ [job])).documents.getLast?.map Document.occurrences

structure SchedulingIndependent (files : List FileVisit) : Prop where
  schedules : ∀ schedule schedule' : Schedule, schedule.Distributes files → schedule'.Distributes files →
    writtenIndex gs currentPath sorting gemMap schedule = writtenIndex gs currentPath sorting gemMap schedule'
  rearranged : ∀ visit visit', Rearranged visit visit' → ∀ before order order',
    (before.map Prod.fst ++ [visit]).Subperm files →
    occurrencesAfter gs currentPath sorting gemMap before (visit,order) =
      occurrencesAfter gs currentPath sorting gemMap before (visit',order')

def Asked (files : List FileVisit) (s : UntypedGenericSymbolRef) (answer : Option Str) : Prop :=
  ∃ visit ∈ files, ∃ step ∈ visit.steps, step.Asks gs gemMap visit.relationships s answer

-- All lookups of a symbol spell it alike, whichever file they come from; no two
-- files share a path; and within a file, saves that the deduplication or the
-- comparator takes for one another have the same occurrence.
structure Unambiguous (files : List FileVisit) : Prop where
  strings : OneAnswer (Asked gs gemMap files)
  paths : ∀ visit ∈ files, ∀ visit' ∈ files, documentPath currentPath (gs.files visit.file).path =
    documentPath currentPath (gs.files visit'.file).path → visit.file = visit'.file
  repeated : ∀ visit ∈ files, ∀ a ∈ saves 0 visit.steps, ∀ b ∈ saves 0 visit.steps, ∀ key,
    a.2.saveKey gs a.1 = some key → b.2.saveKey gs b.1 = some key → a.2.occurrence gs gemMap = b.2.occurrence gs gemMap
  enclosed : ∀ visit ∈ files, ∀ a ∈ saves 0 visit.steps, ∀ b ∈ saves 0 visit.steps, ∀ o o',
    a.2.occurrence gs gemMap = some o → b.2.occurrence gs gemMap = some o' → compareOccurrence o o' = .eq →
      o.enclosingRange = o'.enclosingRange

end Statement

section Occurrences
variable {gs : GlobalState} {gemMap : GemMapping} {index : FileIndex}

def request (gs : GlobalState) (gemMap : GemMapping) (save : Nat × Step) : Dedup.Request SaveKey Occurrence :=
  ⟨save.2.saveKey gs save.1,save.2.occurrence gs gemMap⟩

theorem define_occurrences (text : Str) (occLoc : Loc) (docs : List Str) (rels : List Relationship)
    (enclosingLoc : Option Loc) : (index.define gs text occLoc docs rels enclosingLoc).occurrences =
      index.occurrences ++ (definitionOccurrence gs text occLoc enclosingLoc).toList := by
  unfold FileIndex.define
  split <;> simp_all

@[simp] theorem define_seen (text : Str) (occLoc : Loc) (docs : List Str) (rels : List Relationship)
    (enclosingLoc : Option Loc) : (index.define gs text occLoc docs rels enclosingLoc).seen = index.seen := by
  unfold FileIndex.define
  split <;> rfl

-- The keys that a file's index has met, as one set.
structure Met (index : FileIndex) (body : Nat) (met : Set SaveKey) : Prop where
  symbols : ∀ key, key ∈ index.seen ↔ .inl key ∈ met
  locals : ∀ offsets roles counter, counter ∈ index.locals (offsets,roles) ↔ .inr (body,offsets,roles,counter) ∈ met
  earlier : ∀ body' rest, .inr (body',rest) ∈ met → body' ≤ body

theorem Met.same (met : Met index body keys) (seen : index'.seen = index.seen) (locals : index'.locals = index.locals) :
    Met index' body keys :=
  ⟨by rw [seen]; exact met.symbols,by rw [locals]; exact met.locals,met.earlier⟩

theorem Met.local (met : Met index body keys) (offsets : LocOffsets) (roles counter : Nat) :
    Met { index with locals := append index.locals (offsets,roles) counter } body
      (insert (.inr (body,offsets,roles,counter)) keys) := by
  refine ⟨fun key => ?_,fun offsets' roles' counter' => ?_,fun body' rest member => ?_⟩
  · simp [met.symbols]
  · by_cases same : (offsets',roles') = (offsets,roles)
    · cases same
      simp [append_self,met.locals,or_comm]
    · have other : ¬ (offsets' = offsets ∧ roles' = roles ∧ counter' = counter) := by
        intro both
        exact same (by rw [both.1,both.2.1])
      simp only [append_other index.locals counter same,met.locals,Set.mem_insert_iff,Sum.inr.injEq,Prod.mk.injEq,
        true_and,other,false_or]
  · rcases member with same | old
    · cases same
      exact Nat.le_refl body
    · exact met.earlier body' rest old

theorem Met.remember (met : Met index body keys) (key : UntypedGenericSymbolRef × Loc × Nat) :
    Met (index.remember key) body (insert (.inl key) keys) := by
  refine ⟨fun key' => ?_,fun offsets roles counter => ?_,fun body' rest member => ?_⟩
  · simp [FileIndex.remember,met.symbols]
  · simp [FileIndex.remember,met.locals]
  · exact met.earlier body' rest (by simpa using member)

theorem Met.clear (met : Met index body keys) : Met { index with locals := fun _ => [] } (body + 1) keys := by
  refine ⟨met.symbols,fun offsets roles counter => ?_,fun body' rest member => ?_⟩
  · have fresh : Sum.inr (body + 1,offsets,roles,counter) ∉ keys := fun member =>
      absurd (met.earlier _ _ member) (Nat.not_succ_le_self body)
    simp [fresh]
  · exact Nat.le_succ_of_le (met.earlier body' rest member)

@[simp] theorem await_occurrences (s : UntypedGenericSymbolRef) : (index.await s).occurrences = index.occurrences := by
  unfold FileIndex.await
  split <;> rfl

@[simp] theorem await_seen (s : UntypedGenericSymbolRef) : (index.await s).seen = index.seen := by
  unfold FileIndex.await
  split <;> rfl

-- The occurrences of a file are those of the saves that get past the
-- deduplication.
theorem run_occurrences (steps : List Step) (index : FileIndex) (body : Nat) (keys : Set SaveKey)
    (met : Met index body keys) : (steps.foldl (FileIndex.step gs gemMap) index).occurrences =
      index.occurrences ++ Dedup.admitted keys ((saves body steps).map (request gs gemMap)) := by
  induction steps generalizing index body keys with
  | nil => simp [saves,Dedup.admitted]
  | cons step steps ih =>
    rw [List.foldl_cons]
    cases step with
    | clearFunctionLocalCaches =>
      simp only [saves,Step.isClear,if_true]
      exact ih _ _ _ met.clear
    | finalizeRefOnlySymbolInfos file order =>
      simp only [saves,Step.isClear,Step.isSave,Bool.false_eq_true,if_false]
      exact ih _ _ _ met
    | enterRelationships file s result =>
      simp only [saves,Step.isClear,Step.isSave,Bool.false_eq_true,if_false,FileIndex.step,FileIndex.enter]
      split
      · exact ih _ _ _ met
      · exact ih _ _ _ (met.same rfl rfl)
    | definition d =>
      simp only [saves,Step.isClear,Step.isSave,Step.isLocal,Bool.false_eq_true,if_false,if_true,List.map_cons]
      rw [Dedup.admitted_unkeyed keys _ _ rfl]
      simp only [request,Step.occurrence,FileIndex.step]
      cases spelled : d.spelled gs gemMap with
      | none => simpa using ih _ _ _ met
      | some text =>
        simp only [Option.bind_some]
        rw [ih _ _ _ (met.same (by simp) (by simp)),define_occurrences,List.append_assoc]
    | reference r =>
      simp only [saves,Step.isClear,Step.isSave,Step.isLocal,Bool.false_eq_true,if_false,if_true,List.map_cons]
      cases hidden : r.hidden gs with
      | true =>
        rw [Dedup.admitted_unkeyed keys _ _ (by simp [request,Step.saveKey,hidden])]
        rw [FileIndex.step_passed gs gemMap index r (.inl hidden)]
        simpa [request,Step.occurrence,hidden] using ih _ _ _ met
      | false =>
        have keyed : (request gs gemMap (0,.reference r)).key = some (.inl r.key) := by
          simp [request,Step.saveKey,hidden]
        by_cases seen : r.key ∈ index.seen
        · rw [Dedup.admitted_repeated keys _ _ keyed ((met.symbols _).mp seen),
            FileIndex.step_passed gs gemMap index r (.inr seen)]
          exact ih _ _ _ met
        · rw [Dedup.admitted_new keys _ _ keyed (fun member => seen ((met.symbols _).mpr member))]
          rw [FileIndex.step_referred gs gemMap index r hidden seen]
          simp only [request,Step.occurrence,hidden,Bool.false_eq_true,if_false]
          cases tabled : r.symRef.withoutType.tabled gs gemMap with
          | none => exact ih _ _ _ (met.remember r.key)
          | some text =>
            simp only [Option.bind_some]
            rw [ih _ _ _ ((met.remember r.key).same (by simp [FileIndex.refer]) (by simp))]
            simp [FileIndex.refer,FileIndex.remember]
    | localDefinition d =>
      simp only [saves,Step.isClear,Step.isSave,Step.isLocal,Bool.false_eq_true,if_false,if_true,List.map_cons]
      have keyed : (request gs gemMap (body,.localDefinition d)).key =
        some (.inr (body,d.occ.offsets,definitionRole,d.occ.counter)) := rfl
      by_cases seen : d.occ.counter ∈ index.locals (d.occ.offsets,definitionRole)
      · rw [Dedup.admitted_repeated keys _ _ keyed ((met.locals ..).mp seen)]
        simpa [FileIndex.step,seen] using ih _ _ _ met
      · rw [Dedup.admitted_new keys _ _ keyed (fun member => seen ((met.locals ..).mpr member))]
        simp only [request,Step.occurrence,FileIndex.step,seen,if_false]
        rw [ih _ _ _ ((met.local d.occ.offsets definitionRole d.occ.counter).same (by simp) (by simp)),
          define_occurrences,List.append_assoc]
    | localReference r =>
      simp only [saves,Step.isClear,Step.isSave,Step.isLocal,Bool.false_eq_true,if_false,if_true,List.map_cons]
      have keyed : (request gs gemMap (body,.localReference r)).key =
        some (.inr (body,r.occ.offsets,r.symbolRoles,r.occ.counter)) := rfl
      by_cases seen : r.occ.counter ∈ index.locals (r.occ.offsets,r.symbolRoles)
      · rw [Dedup.admitted_repeated keys _ _ keyed ((met.locals ..).mp seen)]
        simpa [FileIndex.step,seen] using ih _ _ _ met
      · rw [Dedup.admitted_new keys _ _ keyed (fun member => seen ((met.locals ..).mpr member))]
        simp only [request,Step.occurrence,FileIndex.step,seen,if_false]
        rw [ih _ _ _ ((met.local r.occ.offsets r.symbolRoles r.occ.counter).same (by simp [FileIndex.refer]) (by simp))]
        simp [FileIndex.refer]

theorem blank_met : Met {} 0 ∅ := ⟨by simp,by simp,by simp⟩

theorem ofSteps_occurrences (steps : List Step) : (FileIndex.ofSteps gs gemMap steps).occurrences =
    Dedup.admitted ∅ ((saves 0 steps).map (request gs gemMap)) := by
  rw [FileIndex.ofSteps,run_occurrences steps {} 0 ∅ blank_met]
  rfl

end Occurrences

section Documents
variable {gs : GlobalState} (currentPath : Str) (sorting : FastSort) {gemMap : GemMapping}
variable {asks : UntypedGenericSymbolRef → Option Str → Prop}

theorem initial_steady (gs : GlobalState) (gemMap : GemMapping) (asks : UntypedGenericSymbolRef → Option Str → Prop) :
    Steady gs gemMap asks (.initial gemMap) :=
  ⟨initial_tracked gs gemMap,rfl,fun _ _ hit => by cases hit⟩

theorem initial_views (gemMap : GemMapping) (file : FileRef) : Views file (.initial gemMap) {} :=
  ⟨rfl,rfl,rfl,rfl,rfl,fun _ _ => Iff.rfl⟩

-- A file that no step has visited yet stays as it was while others are indexed.
theorem Apart.views (apart : Apart file state state') (other : file' ≠ file) (views : Views file' state {})
    (locals : state'.localOccurrenceCache = fun _ => []) : Views file' state' {} := by
  refine ⟨(apart.occurrences _ other).trans views.occurrences,(apart.symbols _ other).trans views.symbols,
    (apart.waiting _ other).trans views.waiting,(apart.related _ other).trans views.related,locals,?_⟩
  intro key inside
  exact (apart.seen key (by rw [inside]; exact other)).trans (views.seen key inside)

structure Indexed (gs : GlobalState) (gemMap : GemMapping) (asks : UntypedGenericSymbolRef → Option Str → Prop)
    (file : FileRef) (before after : SCIPState) : Prop where
  steady : Steady gs gemMap asks after
  locals : after.localOccurrenceCache = fun _ => []
  apart : Apart file before after

theorem typecheckFile_document (one : OneAnswer asks) (worker : Worker) (visit : FileVisit) (order : HashOrder)
    (steady : Steady gs gemMap asks worker.state) (views : Views visit.file worker.state {})
    (asked : ∀ step ∈ visit.steps, ∀ s answer, step.Asks gs gemMap visit.relationships s answer → asks s answer) :
    Indexed gs gemMap asks visit.file worker.state
      (worker.typecheckFile gs currentPath sorting (visit,order)).state ∧
    (worker.typecheckFile gs currentPath sorting (visit,order)).documents =
      worker.documents ++ [FileIndex.document gs gemMap currentPath sorting visit] := by
  obtain ⟨steady',views'⟩ := run_views one visit.relationships visit.steps steady views visit.own
    (fun s result found => found) asked
  have index : visit.steps.foldl (FileIndex.step gs gemMap) {} = FileIndex.ofSteps gs gemMap visit.steps := rfl
  rw [index] at views'
  have locals : (FileIndex.ofSteps gs gemMap visit.steps).locals = fun _ => [] :=
    run_locals visit.steps {} visit.cleared (.inl rfl)
  have related : (FileIndex.ofSteps gs gemMap visit.steps).related = visit.relationships := by
    funext s
    exact run_related visit.steps {} s
  have waits : ∀ s ∈ order.visit ((run gs worker.state visit.steps).potentialRefOnlySymbols visit.file),
      Waits asks gs gemMap (FileIndex.ofSteps gs gemMap visit.steps)
        (run gs worker.state visit.steps).symbolStringCache s := by
    intro s member
    have inside := (order.complete _).mem_iff.mp member
    have waiting := inside
    rw [views'.waiting] at waiting
    rcases run_waiting visit.steps {} waiting with none | ⟨r,reference,visible,rfl⟩
    · cases none
    · exact ⟨steady'.tracked.pending _ _ inside,asked _ reference _ _ (.referenced visible),
        fun t parent => asked _ reference _ _ (.parent visible (by rwa [← related]))⟩
  obtain ⟨steady'',views''⟩ := finalizeSymbols_views one _ (run gs worker.state visit.steps,[]) steady' views' waits
  have apart := (Apart.run visit.steps visit.own steady.tracked).trans
    (Apart.finalizeSymbols _ (run gs worker.state visit.steps,[]) steady'.tracked (fun s member => (waits s member).cached))
  refine ⟨⟨⟨?_,steady''.gems,steady''.consistent⟩,views''.locals.trans locals,?_⟩,?_⟩
  · exact ⟨steady''.tracked.described,steady''.tracked.nothingEmitted,steady''.tracked.pending⟩
  · refine apart.trans ⟨fun _ other => ?_,fun _ other => ?_,fun _ _ => rfl,fun _ _ => rfl,fun _ _ => Iff.rfl⟩
    · exact Function.update_of_ne other _ _
    · exact Function.update_of_ne other _ _
  · have shuffled : ((FileIndex.ofSteps gs gemMap visit.steps).symbols ++ (order.visit ((run gs worker.state
        visit.steps).potentialRefOnlySymbols visit.file)).filterMap
          ((FileIndex.ofSteps gs gemMap visit.steps).refOnlyInfo gs gemMap)).Perm
        ((FileIndex.ofSteps gs gemMap visit.steps).allSymbols gs gemMap) := by
      rw [FileIndex.allSymbols,← views'.waiting]
      exact ((order.complete _).filterMap _).append_left _
    have symbols := sorting.sort_perm compareSymbolInformation shuffled (fun _ _ _ _ => compareSymbolInformation_eq)
    simp only [Worker.typecheckFile,SCIPState.finishTypecheckFile,SCIPState.saveDocument,FileIndex.document,
      SCIPState.finalizeRefOnlySymbolInfos]
    rw [views''.occurrences,views''.symbols,symbols]

-- A worker writes for each of its files the document that the file has alone.
theorem runFrom_documents (one : OneAnswer asks) (jobs : List (FileVisit × HashOrder)) (worker : Worker)
    (distinct : (jobs.map (fun job => job.1.file)).Nodup) (steady : Steady gs gemMap asks worker.state)
    (views : ∀ job ∈ jobs, Views job.1.file worker.state {})
    (asked : ∀ job ∈ jobs, ∀ step ∈ job.1.steps, ∀ s answer,
      step.Asks gs gemMap job.1.relationships s answer → asks s answer) :
    (worker.runFrom gs currentPath sorting jobs).documents =
      worker.documents ++ jobs.map (fun job => FileIndex.document gs gemMap currentPath sorting job.1) := by
  induction jobs generalizing worker with
  | nil => simp [Worker.runFrom]
  | cons job jobs ih =>
    obtain ⟨visit,order⟩ := job
    rw [List.map_cons,List.nodup_cons] at distinct
    obtain ⟨indexed,written⟩ := typecheckFile_document currentPath sorting one worker visit order
      steady (views _ List.mem_cons_self) (asked _ List.mem_cons_self)
    have later := ih (worker.typecheckFile gs currentPath sorting (visit,order)) distinct.2 indexed.steady (by
      intro job member
      have other : job.1.file ≠ visit.file := by
        intro same
        exact distinct.1 (List.mem_map.mpr ⟨job,member,same⟩)
      exact indexed.apart.views other (views job (List.mem_cons_of_mem _ member)) indexed.locals)
      (fun job member => asked job (List.mem_cons_of_mem _ member))
    rw [written] at later
    simpa [Worker.runFrom] using later

theorem ofJobs_documents (one : OneAnswer asks) (jobs : List (FileVisit × HashOrder))
    (distinct : (jobs.map (fun job => job.1.file)).Nodup)
    (asked : ∀ job ∈ jobs, ∀ step ∈ job.1.steps, ∀ s answer,
      step.Asks gs gemMap job.1.relationships s answer → asks s answer) :
    (Worker.ofJobs gs currentPath sorting gemMap jobs).documents =
      jobs.map (fun job => FileIndex.document gs gemMap currentPath sorting job.1) := by
  have all := runFrom_documents currentPath sorting one jobs ⟨.initial gemMap,[]⟩ distinct
    (initial_steady gs gemMap asks) (fun job _ => initial_views gemMap job.1.file) asked
  simpa [Worker.ofJobs] using all

end Documents

section Independence
variable {gs : GlobalState} {currentPath : Str} {sorting : FastSort} {gemMap : GemMapping} {files : List FileVisit}

theorem writtenIndex_documents (strings : OneAnswer (Asked gs gemMap files))
    (distinct : (files.map FileVisit.file).Nodup) {schedule : Schedule} (distributes : schedule.Distributes files) :
    writtenIndex gs currentPath sorting gemMap schedule = sorting.sort compareDocument
      (schedule.flatten.map (fun job => FileIndex.document gs gemMap currentPath sorting job.1)) := by
  have inside (jobs : List (FileVisit × HashOrder)) (member : jobs ∈ schedule) (job : FileVisit × HashOrder)
      (here : job ∈ jobs) : job.1 ∈ files :=
    distributes.subset (List.mem_map.mpr ⟨job,List.mem_flatten.mpr ⟨jobs,member,here⟩,rfl⟩)
  have apart : (schedule.flatten.map (fun job => job.1.file)).Nodup := by
    have files' := distributes.map FileVisit.file
    rw [List.map_map] at files'
    exact files'.nodup_iff.mpr distinct
  have each (jobs : List (FileVisit × HashOrder)) (member : jobs ∈ schedule) :
      (Worker.ofJobs gs currentPath sorting gemMap jobs).documents =
        jobs.map (fun job => FileIndex.document gs gemMap currentPath sorting job.1) := by
    apply ofJobs_documents currentPath sorting strings jobs
    · exact apart.sublist ((List.sublist_flatten_of_mem member).map _)
    · intro job here step member' s answer asks
      exact ⟨job.1,inside jobs member job here,step,member',asks⟩
  unfold writtenIndex finishTypecheck
  congr 1
  rw [List.map_flatten,List.flatMap_map,← List.flatMap_def]
  exact List.flatMap_congr each

-- What the lookups of a file are does not depend on the order of its saves.
theorem saves_mem (steps : List Step) (body : Nat) (step : Step) :
    (∃ number, (number,step) ∈ saves body steps) ↔ step ∈ steps ∧ step.isSave = true := by
  induction steps generalizing body with
  | nil => simp [saves]
  | cons first steps ih =>
    have skipped (other : first.isSave = false) : (step ∈ steps ∧ step.isSave = true) ↔
        step ∈ first :: steps ∧ step.isSave = true := by
      constructor
      · rintro ⟨member,save⟩
        exact ⟨List.mem_cons_of_mem _ member,save⟩
      · rintro ⟨member,save⟩
        refine ⟨(List.mem_cons.mp member).resolve_left ?_,save⟩
        rintro rfl
        rw [other] at save
        cases save
    unfold saves
    split
    · rename_i clears
      rw [ih]
      exact skipped (by cases first <;> first | rfl | cases clears)
    · split
      · rename_i save
        constructor
        · rintro ⟨number,member⟩
          rcases List.mem_cons.mp member with here | later
          · cases here
            exact ⟨List.mem_cons_self,save⟩
          · obtain ⟨member',save'⟩ := (ih body).mp ⟨number,later⟩
            exact ⟨List.mem_cons_of_mem _ member',save'⟩
        · rintro ⟨member,save'⟩
          rcases List.mem_cons.mp member with rfl | later
          · exact ⟨_,List.mem_cons_self⟩
          · obtain ⟨number,found⟩ := (ih body).mpr ⟨later,save'⟩
            exact ⟨number,List.mem_cons_of_mem _ found⟩
      · rename_i other
        rw [ih]
        exact skipped (by simpa using other)

theorem Rearranged.asks {visit visit' : FileVisit} (moved : Rearranged visit visit') (member : step ∈ visit'.steps)
    (asked : step.Asks gs gemMap visit'.relationships s answer) :
    step ∈ visit.steps ∧ step.Asks gs gemMap visit.relationships s answer := by
  have related : visit'.relationships = visit.relationships := by
    funext s
    rw [FileVisit.relationships,FileVisit.relationships,moved.entered]
  rw [related] at asked
  have save : step.isSave = true := by cases asked <;> rfl
  obtain ⟨number,inside⟩ := (saves_mem visit'.steps 0 step).mpr ⟨member,save⟩
  exact ⟨((saves_mem visit.steps 0 step).mp ⟨number,moved.saves.symm.subset inside⟩).1,asked⟩

theorem Rearranged.occurrences (unambiguous : Unambiguous gs currentPath gemMap files) {visit visit' : FileVisit}
    (inside : visit ∈ files) (moved : Rearranged visit visit') :
    sorting.sort compareOccurrence (FileIndex.ofSteps gs gemMap visit.steps).occurrences =
      sorting.sort compareOccurrence (FileIndex.ofSteps gs gemMap visit'.steps).occurrences := by
  have agree : Dedup.Agreeing ((Scip.saves 0 visit.steps).map (request gs gemMap)) := by
    intro a here b there key keyA keyB
    obtain ⟨a,memberA,rfl⟩ := List.mem_map.mp here
    obtain ⟨b,memberB,rfl⟩ := List.mem_map.mp there
    exact unambiguous.repeated visit inside a memberA b memberB key keyA keyB
  have source (o : Occurrence) (member : o ∈ (FileIndex.ofSteps gs gemMap visit.steps).occurrences) :
      ∃ save ∈ Scip.saves 0 visit.steps, save.2.occurrence gs gemMap = some o := by
    rw [ofSteps_occurrences] at member
    obtain ⟨made,requested,makes⟩ := Dedup.admitted_source _ _ member
    obtain ⟨save,here,rfl⟩ := List.mem_map.mp requested
    exact ⟨save,here,makes⟩
  apply sorting.sort_perm compareOccurrence
  · rw [ofSteps_occurrences,ofSteps_occurrences]
    exact Dedup.admitted_perm (moved.saves.map _) agree ∅
  · intro o here o' there same
    obtain ⟨a,memberA,makesA⟩ := source o here
    obtain ⟨b,memberB,makesB⟩ := source o' there
    rw [compareOccurrence_eq same,unambiguous.enclosed visit inside a memberA b memberB o o' makesA makesB same]

theorem occurrencesAfter_eq (strings : OneAnswer (Asked gs gemMap files)) (before : List (FileVisit × HashOrder))
    (visit : FileVisit) (order : HashOrder)
    (distinct : ((before ++ [(visit,order)]).map (fun job => job.1.file)).Nodup)
    (inside : ∀ job ∈ before, job.1 ∈ files)
    (asked : ∀ step ∈ visit.steps, ∀ s answer, step.Asks gs gemMap visit.relationships s answer →
      Asked gs gemMap files s answer) :
    occurrencesAfter gs currentPath sorting gemMap before (visit,order) =
      some (sorting.sort compareOccurrence (FileIndex.ofSteps gs gemMap visit.steps).occurrences) := by
  have documents := ofJobs_documents currentPath sorting strings (before ++ [(visit,order)]) distinct (by
    intro job member step here s answer asks
    rcases List.mem_append.mp member with early | last
    · exact ⟨job.1,inside job early,step,here,asks⟩
    · rw [List.mem_singleton] at last
      subst last
      exact asked step here s answer asks)
  simp [occurrencesAfter,documents,FileIndex.document]

end Independence

theorem schedulingIndependent (gs : GlobalState) (currentPath : Str) (sorting : FastSort) (gemMap : GemMapping)
    (files : List FileVisit) (distinct : (files.map FileVisit.file).Nodup)
    (unambiguous : Unambiguous gs currentPath gemMap files) :
    SchedulingIndependent gs currentPath sorting gemMap files := by
  have whole : ∀ visit ∈ files, ∀ step ∈ visit.steps, ∀ s answer, step.Asks gs gemMap visit.relationships s answer →
      Asked gs gemMap files s answer :=
    fun visit inside step member s answer asks => ⟨visit,inside,step,member,asks⟩
  constructor
  · intro schedule schedule' distributes distributes'
    rw [writtenIndex_documents unambiguous.strings distinct distributes,
      writtenIndex_documents unambiguous.strings distinct distributes']
    apply sorting.sort_perm compareDocument
    · have both := (distributes.trans distributes'.symm).map (FileIndex.document gs gemMap currentPath sorting)
      rwa [List.map_map,List.map_map] at both
    · intro document here document' there same
      obtain ⟨job,member,rfl⟩ := List.mem_map.mp here
      obtain ⟨job',member',rfl⟩ := List.mem_map.mp there
      have inside : job.1 ∈ files := distributes.subset (List.mem_map.mpr ⟨job,member,rfl⟩)
      have inside' : job'.1 ∈ files := distributes.subset (List.mem_map.mpr ⟨job',member',rfl⟩)
      have path : compareText (documentPath currentPath (gs.files job.1.file).path)
        (documentPath currentPath (gs.files job'.1.file).path) = .eq := same
      have file := unambiguous.paths _ inside _ inside' (Std.LawfulEqCmp.eq_of_compare path)
      rw [List.inj_on_of_nodup_map distinct inside inside' file]
  · intro visit visit' moved before order order' part
    have nodup : ((before.map Prod.fst ++ [visit]).map FileVisit.file).Nodup := by
      obtain ⟨jobs,perm,sub⟩ := part
      exact (perm.map FileVisit.file).nodup_iff.mp (distinct.sublist (sub.map FileVisit.file))
    have inside : visit ∈ files := part.subset (by simp)
    have others : ∀ job ∈ before, job.1 ∈ files := fun job member =>
      part.subset (List.mem_append_left _ (List.mem_map.mpr ⟨job,member,rfl⟩))
    rw [occurrencesAfter_eq unambiguous.strings before visit order (by simpa [Function.comp_def] using nodup) others (whole visit inside),
      occurrencesAfter_eq unambiguous.strings before visit' order' (by simpa [Function.comp_def,moved.file] using nodup) others (by
        intro step member s answer asks
        obtain ⟨member',asks'⟩ := moved.asks member asks
        exact whole visit inside step member' s answer asks'),
      moved.occurrences unambiguous inside]

-- Files of two gems; the class B belongs to the gem of the first.
def definingVisit (file : FileRef) : FileVisit where
  file := file
  steps := [.definition (sampleDefinition file)]
  own := by simp [Step.VisitsFile,sampleDefinition]
  cleared := rfl

theorem sampleOffsets_ordered : 3 ≤ 4 := by decide

def referringVisit (file : FileRef) : FileVisit where
  file := file
  steps := [.reference ⟨Symbols.root,file,sampleClass,none,⟨3,4,sampleOffsets_ordered⟩,0⟩]
  own := by simp [Step.VisitsFile]
  cleared := rfl

def inOrder : HashOrder := ⟨id,fun _ => List.Perm.refl _⟩

theorem schedulingIndependent_sample :
    SchedulingIndependent sampleTable [] insertionSorting sampleGems [definingVisit 1,referringVisit 2] := by
  have spelled : (sampleDefinition 1).spelled sampleTable sampleGems = some "scip-ruby gem x 1 B#".toList := by decide
  have tabled : sampleClass.withoutType.tabled sampleTable sampleGems = some "scip-ruby gem x 1 B#".toList := by decide
  apply schedulingIndependent
  · decide
  · refine ⟨?_,?_,?_,?_⟩
    · have value (s answer) (asked : Asked sampleTable sampleGems [definingVisit 1,referringVisit 2] s answer) :
          answer = some "scip-ruby gem x 1 B#".toList := by
        obtain ⟨visit,inside,step,member,asks⟩ := asked
        simp only [List.mem_cons,List.not_mem_nil,or_false] at inside
        rcases inside with rfl | rfl
        · cases List.mem_singleton.mp member
          cases asks with
          | own found => exact found.symm.trans spelled
          | named _ _ member => cases member
        · cases List.mem_singleton.mp member
          cases asks with
          | referenced _ => exact tabled
          | parent _ member => cases member
      intro s answer answer' asked asked'
      rw [value s answer asked,value s answer' asked']
    · decide
    · intro visit inside a here b there key _ _
      simp only [List.mem_cons,List.not_mem_nil,or_false] at inside
      rcases inside with rfl | rfl
      · cases List.mem_singleton.mp here
        cases List.mem_singleton.mp there
        rfl
      · cases List.mem_singleton.mp here
        cases List.mem_singleton.mp there
        rfl
    · intro visit inside a here b there o o' makes makes' _
      simp only [List.mem_cons,List.not_mem_nil,or_false] at inside
      rcases inside with rfl | rfl
      · cases List.mem_singleton.mp here
        cases List.mem_singleton.mp there
        rw [Option.some.inj (makes.symm.trans makes')]
      · cases List.mem_singleton.mp here
        cases List.mem_singleton.mp there
        rw [Option.some.inj (makes.symm.trans makes')]

def enclosedVisit (first second : Option Loc) : FileVisit where
  file := 1
  steps := [.definition { sampleDefinition 1 with enclosingLoc := first },
    .definition { sampleDefinition 1 with enclosingLoc := second }]
  own := by simp [Step.VisitsFile,sampleDefinition]
  cleared := rfl

-- A class reopened by a file of another gem is filed there under its first gem
-- if one worker has both files; and two definitions that differ in nothing but
-- the enclosing range keep the order in which they were saved.
theorem schedulingIndependent_fails :
    ¬ SchedulingIndependent sampleTable [] insertionSorting sampleGems [definingVisit 1,definingVisit 2] ∧
    ¬ SchedulingIndependent sampleTable [] insertionSorting sampleGems
      [enclosedVisit (some ⟨1,⟨0,4,by decide⟩⟩) none] := by
  constructor
  · intro independent
    have equal := independent.schedules
      [[(definingVisit 1,inOrder),(definingVisit 2,inOrder)]] [[(definingVisit 1,inOrder)],[(definingVisit 2,inOrder)]]
      (List.Perm.refl _) (List.Perm.refl _)
    revert equal
    decide
  · intro independent
    have equal := independent.rearranged (enclosedVisit (some ⟨1,⟨0,4,by decide⟩⟩) none)
      (enclosedVisit none (some ⟨1,⟨0,4,by decide⟩⟩)) ⟨rfl,List.Perm.swap ..,rfl⟩ [] inOrder inOrder
      (List.Subperm.refl _)
    revert equal
    decide

end Scip
