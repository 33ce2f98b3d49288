import ScipRuby.Scip.FileRefinement

namespace Scip

def Step.entered : Step → Option (UntypedGenericSymbolRef × FieldQueryResult)
  | .enterRelationships _ s result => some (s,result)
  | _ => none

-- The relationships that a file has at its end. The first entry of a symbol stays.
def FileVisit.relationships (visit : FileVisit) : RelationshipsMap :=
  fun s => (visit.steps.filterMap Step.entered).lookup s

section Runs
variable {gs : GlobalState} {gemMap : GemMapping} {asks : UntypedGenericSymbolRef → Option Str → Prop}
variable {file : FileRef} {state : SCIPState} {index : FileIndex}

@[simp] theorem define_related (text : Str) (occLoc : Loc) (docs : List Str) (rels : List Relationship)
    (enclosingLoc : Option Loc) : (index.define gs text occLoc docs rels enclosingLoc).related = index.related := by
  unfold FileIndex.define
  split <;> rfl

@[simp] theorem define_locals (text : Str) (occLoc : Loc) (docs : List Str) (rels : List Relationship)
    (enclosingLoc : Option Loc) : (index.define gs text occLoc docs rels enclosingLoc).locals = index.locals := by
  unfold FileIndex.define
  split <;> rfl

@[simp] theorem define_waiting (text : Str) (occLoc : Loc) (docs : List Str) (rels : List Relationship)
    (enclosingLoc : Option Loc) : (index.define gs text occLoc docs rels enclosingLoc).waiting = index.waiting := by
  unfold FileIndex.define
  split <;> rfl

@[simp] theorem await_related (s : UntypedGenericSymbolRef) : (index.await s).related = index.related := by
  unfold FileIndex.await
  split <;> rfl

@[simp] theorem await_locals (s : UntypedGenericSymbolRef) : (index.await s).locals = index.locals := by
  unfold FileIndex.await
  split <;> rfl

@[simp] theorem refer_related (occurrence : Option Occurrence) : (index.refer occurrence).related = index.related := rfl
@[simp] theorem refer_locals (occurrence : Option Occurrence) : (index.refer occurrence).locals = index.locals := rfl
@[simp] theorem refer_waiting (occurrence : Option Occurrence) : (index.refer occurrence).waiting = index.waiting := rfl

theorem await_waiting (waits : t ∈ (index.await s).waiting) : t ∈ index.waiting ∨ t = s := by
  unfold FileIndex.await at waits
  split at waits
  · simpa using waits
  · exact .inl waits

theorem step_related (index : FileIndex) (step : Step) (s : UntypedGenericSymbolRef) :
    (index.step gs gemMap step).related s = (index.related s).or (step.entered.toList.lookup s) := by
  have plain (same : (index.step gs gemMap step).related = index.related) (none : step.entered = Option.none) :
      (index.step gs gemMap step).related s = (index.related s).or (step.entered.toList.lookup s) := by
    rw [same,none]
    simp
  cases step with
  | enterRelationships file t result =>
    simp only [FileIndex.step,FileIndex.enter,Step.entered,Option.toList_some]
    by_cases same : s = t
    · subst same
      cases old : index.related s <;> simp [old]
    · have other : (s == t) = false := by simpa using same
      split
      · simp [List.lookup_cons,other]
      · simp [List.lookup_cons,other,Function.update_of_ne same]
  | localDefinition d =>
    apply plain ?_ rfl
    simp only [FileIndex.step]
    split <;> simp
  | localReference r =>
    apply plain ?_ rfl
    simp only [FileIndex.step]
    split <;> simp
  | definition d =>
    apply plain ?_ rfl
    simp only [FileIndex.step]
    split <;> simp
  | reference r =>
    apply plain ?_ rfl
    simp only [FileIndex.step]
    split
    · rfl
    · split <;> simp [FileIndex.remember]
  | clearFunctionLocalCaches => exact plain rfl rfl
  | finalizeRefOnlySymbolInfos file order => exact plain rfl rfl

theorem step_waiting (waits : t ∈ (index.step gs gemMap step).waiting) :
    t ∈ index.waiting ∨ ∃ r, step = .reference r ∧ r.hidden gs = false ∧ r.symRef.withoutType = t := by
  cases step with
  | reference r =>
    simp only [FileIndex.step] at waits
    split at waits
    · exact .inl waits
    · rename_i fresh
      have visible : r.hidden gs = false := by simp_all
      split at waits
      · exact .inl waits
      · rw [refer_waiting] at waits
        exact (await_waiting waits).imp id (fun same => ⟨r,rfl,visible,same.symm⟩)
  | localDefinition d =>
    simp only [FileIndex.step] at waits
    split at waits
    · exact .inl waits
    · exact .inl (by simpa using waits)
  | localReference r =>
    simp only [FileIndex.step] at waits
    split at waits
    · exact .inl waits
    · exact .inl (by simpa using waits)
  | definition d =>
    simp only [FileIndex.step] at waits
    split at waits
    · exact .inl waits
    · exact .inl (by simpa using waits)
  | enterRelationships file s result =>
    simp only [FileIndex.step,FileIndex.enter] at waits
    split at waits <;> exact .inl waits
  | clearFunctionLocalCaches => exact .inl waits
  | finalizeRefOnlySymbolInfos file order => exact .inl waits

-- Relationships are only ever added.
def Within (related total : RelationshipsMap) : Prop := ∀ s result, related s = some result → total s = some result

theorem parentsOf_within (within : Within related total) (member : t ∈ parentsOf related s) : t ∈ parentsOf total s := by
  unfold parentsOf at member ⊢
  cases found : related s with
  | none => simp [found] at member
  | some result =>
    rw [within s result found]
    simpa [found] using member

theorem asks_within (within : Within related total) (asked : Step.Asks gs gemMap related step s answer) :
    step.Asks gs gemMap total s answer := by
  cases asked with
  | own spelled => exact .own spelled
  | named spelled other member =>
    refine .named spelled other ?_
    rcases List.mem_append.mp member with parent | aliased
    · exact List.mem_append_left _ (parentsOf_within within parent)
    · exact List.mem_append_right _ aliased
  | referenced visible => exact .referenced visible
  | parent visible member => exact .parent visible (parentsOf_within within member)

theorem run_related (steps : List Step) (index : FileIndex) (s : UntypedGenericSymbolRef) :
    (steps.foldl (FileIndex.step gs gemMap) index).related s =
      (index.related s).or ((steps.filterMap Step.entered).lookup s) := by
  induction steps generalizing index with
  | nil => simp
  | cons step steps ih =>
    rw [List.foldl_cons,ih,step_related,Option.or_assoc,← List.lookup_append]
    cases entry : step.entered <;> simp [entry]

-- The worker's state after a whole file, seen from that file.
theorem run_views (one : OneAnswer asks) (total : RelationshipsMap) (steps : List Step) (steady : Steady gs gemMap asks state)
    (views : Views file state index) (own : ∀ step ∈ steps, step.VisitsFile file)
    (within : ∀ s result, (index.related s).or ((steps.filterMap Step.entered).lookup s) = some result →
      total s = some result)
    (asked : ∀ step ∈ steps, ∀ s answer, step.Asks gs gemMap total s answer → asks s answer) :
    Steady gs gemMap asks (run gs state steps) ∧
      Views file (run gs state steps) (steps.foldl (FileIndex.step gs gemMap) index) := by
  induction steps generalizing state index with
  | nil => exact ⟨steady,views⟩
  | cons step steps ih =>
    have now : Within index.related total := by
      intro s result found
      exact within s result (by rw [found,Option.some_or])
    have first := step_views steady one views step (own step List.mem_cons_self)
      (fun s answer asks => asked step List.mem_cons_self s answer (asks_within now asks))
    refine ih first.1 first.2 (fun later member => own later (List.mem_cons_of_mem _ member)) ?_
      (fun later member => asked later (List.mem_cons_of_mem _ member))
    intro s result found
    apply within s result
    rw [step_related,Option.or_assoc,← List.lookup_append] at found
    rw [← found]
    cases entry : step.entered <;> simp [entry]

theorem run_waiting (steps : List Step) (index : FileIndex)
    (waits : t ∈ (steps.foldl (FileIndex.step gs gemMap) index).waiting) :
    t ∈ index.waiting ∨ ∃ r, .reference r ∈ steps ∧ r.hidden gs = false ∧ r.symRef.withoutType = t := by
  induction steps generalizing index with
  | nil => exact .inl waits
  | cons step steps ih =>
    rcases ih _ waits with before | ⟨r,member,facts⟩
    · rcases step_waiting before with older | ⟨r,rfl,facts⟩
      · exact .inl older
      · exact .inr ⟨r,List.mem_cons_self,facts⟩
    · exact .inr ⟨r,List.mem_cons_of_mem _ member,facts⟩

-- Every traversal is followed by a clearing of the caches of locals.
theorem run_locals (steps : List Step) (index : FileIndex) (cleared : bodiesCleared steps = true)
    (start : index.locals = (fun _ => []) ∨ steps.any Step.isClear = true) :
    (steps.foldl (FileIndex.step gs gemMap) index).locals = fun _ => [] := by
  induction steps generalizing index with
  | nil => exact start.resolve_right (by simp)
  | cons step steps ih =>
    simp only [bodiesCleared,Bool.and_eq_true,Bool.or_eq_true,Bool.not_eq_true'] at cleared
    obtain ⟨here,later⟩ := cleared
    apply ih _ later
    have untouched (same : (index.step gs gemMap step).locals = index.locals) (other : step.isClear = false) :
        (index.step gs gemMap step).locals = (fun _ => []) ∨ steps.any Step.isClear = true := by
      rw [same]
      simpa [other] using start
    cases step with
    | localDefinition d => exact .inr (by simpa [Step.isLocal] using here)
    | localReference r => exact .inr (by simpa [Step.isLocal] using here)
    | clearFunctionLocalCaches => exact .inl rfl
    | definition d =>
      apply untouched ?_ rfl
      simp only [FileIndex.step]
      split <;> simp
    | reference r =>
      apply untouched ?_ rfl
      simp only [FileIndex.step]
      split
      · rfl
      · split <;> simp [FileIndex.remember]
    | enterRelationships file s result =>
      apply untouched ?_ rfl
      simp only [FileIndex.step,FileIndex.enter]
      split <;> rfl
    | finalizeRefOnlySymbolInfos file order => exact untouched rfl rfl

theorem finalizeSymbol_eq (gs : GlobalState) (file : FileRef) (acc : SCIPState × Str)
    (nothingEmitted : acc.1.emittedSymbols = []) (cached : acc.1.symbolStringCache s = some text) :
    (SCIPState.finalizeSymbol gs file acc s).1 =
      ((acc.1.withCache (fillAll gs acc.1.gemMap acc.1.symbolStringCache
        (parentsOf (acc.1.relationshipsMap file) s))).saveSymbolInfo gs file text []
          (parentRelationships (looked gs acc.1.gemMap acc.1.symbolStringCache) (acc.1.relationshipsMap file) s)).1 := by
  have parents := SCIPState.saveParentRelationships_state gs acc.1 file s
  have rels := SCIPState.saveParentRelationships_rels gs acc.1 file s
  unfold SCIPState.finalizeSymbol
  rw [SCIPState.saveSymbolString_cached gs acc.1 none acc.2 cached]
  have unemitted : acc.1.alreadyEmittedSymbolInfo file text = false := by
    simp [SCIPState.alreadyEmittedSymbolInfo,nothingEmitted]
  simp only [unemitted,Bool.false_eq_true,if_false]
  rw [parents,rels]

-- What finalisation needs of a waiting symbol: it has been looked up, and its
-- parents are among the symbols that lookups agree about.
structure Waits (asks : UntypedGenericSymbolRef → Option Str → Prop) (gs : GlobalState) (gemMap : GemMapping)
    (index : FileIndex) (cache : Cache) (s : UntypedGenericSymbolRef) : Prop where
  cached : (cache s).isSome
  asked : asks s (s.tabled gs gemMap)
  parents : ∀ t ∈ parentsOf index.related s, asks t (t.tabled gs gemMap)

theorem finalizeSymbols_views (one : OneAnswer asks) (symRefs : List UntypedGenericSymbolRef) (acc : SCIPState × Str)
    (steady : Steady gs gemMap asks acc.1) (views : Views file acc.1 index)
    (waits : ∀ s ∈ symRefs, Waits asks gs gemMap index acc.1.symbolStringCache s) :
    let final := (symRefs.foldl (SCIPState.finalizeSymbol gs file) acc).1
    Steady gs gemMap asks final ∧
      Views file final { index with symbols := index.symbols ++ symRefs.filterMap (index.refOnlyInfo gs gemMap) } := by
  induction symRefs generalizing acc index with
  | nil => simpa using ⟨steady,views⟩
  | cons s symRefs ih =>
    obtain ⟨hit,asked,parents⟩ := waits s List.mem_cons_self
    obtain ⟨text,hit⟩ := Option.isSome_iff_exists.mp hit
    have saved := finalizeSymbol_eq gs file acc steady.tracked.nothingEmitted hit
    have gems := steady.gems
    have tabled : s.tabled gs gemMap = some text := steady.consistent s text hit _ asked
    have rels : parentRelationships (looked gs acc.1.gemMap acc.1.symbolStringCache) (acc.1.relationshipsMap file) s =
        parentRelationships (UntypedGenericSymbolRef.tabled gs gemMap) index.related s := by
      rw [views.related,gems]
      apply parentRelationships_congr
      intro t member
      exact steady.consistent.looked_eq (parents t member)
    rw [rels] at saved
    have kept := SCIPState.saveSymbolInfo_keeps gs (acc.1.withCache (fillAll gs acc.1.gemMap acc.1.symbolStringCache
      (parentsOf (acc.1.relationshipsMap file) s))) file text []
      (parentRelationships (UntypedGenericSymbolRef.tabled gs gemMap) index.related s)
    have tracked := (steady.tracked.fillAll (parentsOf (acc.1.relationshipsMap file) s)).keeps kept
    have steady' : Steady gs gemMap asks (SCIPState.finalizeSymbol gs file acc s).1 := by
      rw [saved]
      refine ⟨tracked,kept.gemMap.trans gems,?_⟩
      rw [kept.symbolStringCache,SCIPState.withCache_cache,gems]
      apply steady.consistent.fillAll one
      intro t member
      rw [views.related] at member
      exact .inl (parents t member)
    have views' : Views file (SCIPState.finalizeSymbol gs file acc s).1
        { index with symbols := index.symbols ++ (index.refOnlyInfo gs gemMap s).toList } := by
      rw [saved]
      have info : index.refOnlyInfo gs gemMap s =
          some ⟨text,[],parentRelationships (UntypedGenericSymbolRef.tabled gs gemMap) index.related s⟩ := by
        rw [FileIndex.refOnlyInfo,tabled]
        rfl
      simp only [info,SCIPState.saveSymbolInfo,SCIPState.alreadyEmittedSymbolInfo,SCIPState.withCache_emittedSymbols,
        steady.tracked.nothingEmitted,List.not_mem_nil,decide_false,Bool.false_eq_true,if_false,List.map_nil,
        Option.toList_some]
      refine ⟨views.occurrences,?_,views.waiting,views.related,views.locals,views.seen⟩
      simp only [append_self,SCIPState.withCache_symbolMap,views.symbols]
    have later := ih (SCIPState.finalizeSymbol gs file acc s) steady' views' (by
      intro t member
      obtain ⟨hit',asked',parents'⟩ := waits t (List.mem_cons_of_mem _ member)
      refine ⟨?_,asked',parents'⟩
      obtain ⟨text',hit'⟩ := Option.isSome_iff_exists.mp hit'
      rw [saved,kept.symbolStringCache,SCIPState.withCache_cache,fillAll_cached gs _ _ _ hit']
      rfl)
    have symbols : index.symbols ++ (s :: symRefs).filterMap (index.refOnlyInfo gs gemMap) =
        index.symbols ++ (index.refOnlyInfo gs gemMap s).toList ++ symRefs.filterMap (index.refOnlyInfo gs gemMap) := by
      cases info : index.refOnlyInfo gs gemMap s <;> simp [info]
    rw [symbols,List.foldl_cons]
    exact later

end Runs

-- What work on one file leaves as it was: everything of the other files.
structure Apart (file : FileRef) (state state' : SCIPState) : Prop where
  occurrences : ∀ other, other ≠ file → state'.occurrenceMap other = state.occurrenceMap other
  symbols : ∀ other, other ≠ file → state'.symbolMap other = state.symbolMap other
  waiting : ∀ other, other ≠ file → state'.potentialRefOnlySymbols other = state.potentialRefOnlySymbols other
  related : ∀ other, other ≠ file → state'.relationshipsMap other = state.relationshipsMap other
  seen : ∀ key, key.2.1.file ≠ file → (key ∈ state'.symbolOccurrenceCache ↔ key ∈ state.symbolOccurrenceCache)

namespace Apart

theorem refl (file : FileRef) (state : SCIPState) : Apart file state state :=
  ⟨fun _ _ => rfl,fun _ _ => rfl,fun _ _ => rfl,fun _ _ => rfl,fun _ _ => Iff.rfl⟩

theorem trans (first : Apart file state state') (second : Apart file state' state'') : Apart file state state'' :=
  ⟨fun other apart => (second.occurrences other apart).trans (first.occurrences other apart),
    fun other apart => (second.symbols other apart).trans (first.symbols other apart),
    fun other apart => (second.waiting other apart).trans (first.waiting other apart),
    fun other apart => (second.related other apart).trans (first.related other apart),
    fun key apart => (second.seen key apart).trans (first.seen key apart)⟩

theorem withCache (file : FileRef) (state : SCIPState) (cache : Cache) : Apart file state (state.withCache cache) :=
  ⟨fun _ _ => rfl,fun _ _ => rfl,fun _ _ => rfl,fun _ _ => rfl,fun _ _ => Iff.rfl⟩

theorem saveSymbolInfo (gs : GlobalState) (state : SCIPState) (file : FileRef) (text : Str) (docs : List Str)
    (rels : List Relationship) : Apart file state (state.saveSymbolInfo gs file text docs rels).1 := by
  unfold SCIPState.saveSymbolInfo
  split
  · exact refl file state
  · exact ⟨fun _ _ => rfl,fun _ apart => append_other _ _ apart,fun _ _ => rfl,fun _ _ => rfl,fun _ _ => Iff.rfl⟩

theorem saveDefinitionImpl (gs : GlobalState) (state : SCIPState) (file : FileRef) (text : Str) (occLoc : Loc)
    (docs : List Str) (rels : List Relationship) (enclosingLoc : Option Loc) :
    Apart file state (state.saveDefinitionImpl gs file text occLoc docs rels enclosingLoc).1 := by
  have info := saveSymbolInfo gs state file text docs rels
  have unshown := SCIPState.saveSymbolInfo_occurrenceMap gs state file text docs rels
  unfold SCIPState.saveDefinitionImpl
  split
  · exact refl file state
  · split
    · exact refl file state
    · refine ⟨fun other apart => ?_,info.symbols,info.waiting,info.related,info.seen⟩
      simp only [append_other _ _ apart,unshown]

theorem saveReferenceImpl (gs : GlobalState) (state : SCIPState) (file : FileRef) (text : Str) (docs : List Str)
    (offsets : LocOffsets) (roles : Nat) : Apart file state (state.saveReferenceImpl gs file text docs offsets roles) := by
  unfold SCIPState.saveReferenceImpl
  split
  · exact refl file state
  · exact ⟨fun _ apart => append_other _ _ apart,fun _ _ => rfl,fun _ _ => rfl,fun _ _ => rfl,fun _ _ => Iff.rfl⟩

theorem cacheLocalOccurrence (file : FileRef) (state : SCIPState) (occ : OwnedLocal) (roles : Nat) :
    Apart file state (state.cacheLocalOccurrence occ roles).1 := by
  unfold SCIPState.cacheLocalOccurrence
  split
  · exact refl file state
  · exact ⟨fun _ _ => rfl,fun _ _ => rfl,fun _ _ => rfl,fun _ _ => rfl,fun _ _ => Iff.rfl⟩

theorem saveLocalDefinition (gs : GlobalState) (state : SCIPState) (d : LocalDefinition) :
    Apart d.file state (state.saveLocalDefinition gs d).1 := by
  have cached := cacheLocalOccurrence d.file state d.occ definitionRole
  unfold SCIPState.saveLocalDefinition
  split <;> rename_i looked <;> rw [looked] at cached
  · exact cached
  · exact cached.trans (saveDefinitionImpl ..)

theorem saveLocalReference (gs : GlobalState) (state : SCIPState) (r : LocalReference) :
    Apart r.file state (state.saveLocalReference gs r).1 := by
  have cached := cacheLocalOccurrence r.file state r.occ r.symbolRoles
  unfold SCIPState.saveLocalReference
  split <;> rename_i looked <;> rw [looked] at cached
  · exact cached
  · exact cached.trans (saveReferenceImpl ..)

theorem saveDefinition (d : Definition) (tracked : Tracked gs state) :
    Apart d.file state (state.saveDefinition gs d).1 := by
  cases spelled : d.spelled gs state.gemMap with
  | none =>
    rw [SCIPState.saveDefinition_skips gs state d tracked.described spelled]
    exact refl d.file state
  | some text =>
    have saved := SCIPState.saveDefinition_eq gs state d spelled
    simp only at saved
    rw [saved]
    exact (withCache d.file state _).trans (saveDefinitionImpl ..)

theorem recordReference (gs : GlobalState) (state : SCIPState) (r : Reference) (text : Str) :
    Apart r.file state (state.recordReference gs r text) := by
  unfold SCIPState.recordReference
  refine trans ?_ (saveReferenceImpl ..)
  split
  · exact ⟨fun _ _ => rfl,fun _ _ => rfl,fun _ apart => append_other _ _ apart,fun _ _ => rfl,fun _ _ => Iff.rfl⟩
  · exact refl r.file state

theorem saveReference (gs : GlobalState) (state : SCIPState) (r : Reference) :
    Apart r.file state (state.saveReference gs r).1 := by
  by_cases hidden : r.hidden gs
  · rw [SCIPState.saveReference_hidden gs state r hidden]
    exact refl r.file state
  · by_cases seen : r.key ∈ state.symbolOccurrenceCache
    · rw [SCIPState.saveReference_repeated gs state r seen]
      exact refl r.file state
    · rw [SCIPState.saveReference_new gs state r (by simpa using hidden) seen]
      have keyed : Apart r.file state (state.withKey r.key) := by
        refine ⟨fun _ _ => rfl,fun _ _ => rfl,fun _ _ => rfl,fun _ _ => rfl,fun key apart => ?_⟩
        have other : key ≠ r.key := fun same => apart (by rw [same]; rfl)
        simp [SCIPState.withKey,other]
      split
      · exact keyed
      · exact (keyed.trans (withCache r.file _ _)).trans (recordReference ..)

theorem step (step : Step) (own : step.VisitsFile file) (tracked : Tracked gs state) :
    Apart file state (step.apply gs state) := by
  cases step with
  | localDefinition d =>
    subst own
    exact saveLocalDefinition gs state d
  | localReference r =>
    subst own
    exact saveLocalReference gs state r
  | definition d =>
    subst own
    exact saveDefinition d tracked
  | reference r =>
    subst own
    exact saveReference gs state r
  | enterRelationships file' s result =>
    subst own
    simp only [Step.apply,SCIPState.enterRelationships]
    split
    · exact refl file' state
    · exact ⟨fun _ _ => rfl,fun _ _ => rfl,fun _ _ => rfl,fun _ apart => Function.update_of_ne apart _ _,
        fun _ _ => Iff.rfl⟩
  | clearFunctionLocalCaches =>
    exact ⟨fun _ _ => rfl,fun _ _ => rfl,fun _ _ => rfl,fun _ _ => rfl,fun _ _ => Iff.rfl⟩
  | finalizeRefOnlySymbolInfos file' order => cases own

theorem run (steps : List Step) (own : ∀ step ∈ steps, step.VisitsFile file) (tracked : Tracked gs state) :
    Apart file state (Scip.run gs state steps) := by
  induction steps generalizing state with
  | nil => exact refl file state
  | cons step steps ih =>
    exact (Apart.step step (own step List.mem_cons_self) tracked).trans
      (ih (fun later member => own later (List.mem_cons_of_mem _ member)) (step_tracked step tracked))

theorem finalizeSymbols (symRefs : List UntypedGenericSymbolRef) (acc : SCIPState × Str) (tracked : Tracked gs acc.1)
    (cached : ∀ s ∈ symRefs, (acc.1.symbolStringCache s).isSome) :
    Apart file acc.1 (symRefs.foldl (SCIPState.finalizeSymbol gs file) acc).1 := by
  induction symRefs generalizing acc with
  | nil => exact refl file acc.1
  | cons s symRefs ih =>
    obtain ⟨text,hit⟩ := Option.isSome_iff_exists.mp (cached s List.mem_cons_self)
    have saved := finalizeSymbol_eq gs file acc tracked.nothingEmitted hit
    have kept := SCIPState.saveSymbolInfo_keeps gs (acc.1.withCache (fillAll gs acc.1.gemMap acc.1.symbolStringCache
      (parentsOf (acc.1.relationshipsMap file) s))) file text []
      (parentRelationships (looked gs acc.1.gemMap acc.1.symbolStringCache) (acc.1.relationshipsMap file) s)
    rw [← saved] at kept
    have first : Apart file acc.1 (SCIPState.finalizeSymbol gs file acc s).1 := by
      rw [saved]
      exact (withCache file acc.1 _).trans (saveSymbolInfo ..)
    refine first.trans (ih _ ((tracked.fillAll _).keeps kept) ?_)
    intro t member
    obtain ⟨old,hit'⟩ := Option.isSome_iff_exists.mp (cached t (List.mem_cons_of_mem _ member))
    rw [kept.symbolStringCache,SCIPState.withCache_cache,fillAll_cached gs _ _ _ hit']
    rfl

end Apart

end Scip
