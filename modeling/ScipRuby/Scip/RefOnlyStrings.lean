import ScipRuby.Scip.SymbolInfos

namespace Scip
variable {gs : GlobalState} {state state' state'' : SCIPState}

-- Whatever a step does to the cache of strings, it does by filling it.
structure Refills (gs : GlobalState) (state state' : SCIPState) : Prop where
  gemMap : state'.gemMap = state.gemMap
  filled : ∃ asked : List (Option Loc × UntypedGenericSymbolRef), state'.symbolStringCache =
    asked.foldl (fun cache ask => fill gs state.gemMap ask.1 cache ask.2) state.symbolStringCache

namespace Refills

theorem keeps (kept : SCIPState.Keeps state state') : Refills gs state state' := ⟨kept.gemMap,[],kept.symbolStringCache⟩

theorem refl (state : SCIPState) : Refills gs state state := ⟨rfl,[],rfl⟩

theorem trans (first : Refills gs state state') (second : Refills gs state' state'') : Refills gs state state'' := by
  obtain ⟨asked,filled⟩ := first.filled
  obtain ⟨asked',filled'⟩ := second.filled
  refine ⟨second.gemMap.trans first.gemMap,asked ++ asked',?_⟩
  rw [filled',filled,first.gemMap,List.foldl_append]

theorem fill (loc : Option Loc) (s : UntypedGenericSymbolRef) :
    Refills gs state (state.withCache (Scip.fill gs state.gemMap loc state.symbolStringCache s)) := ⟨rfl,[(loc,s)],rfl⟩

theorem fillAll (symRefs : List UntypedGenericSymbolRef) :
    Refills gs state (state.withCache (Scip.fillAll gs state.gemMap state.symbolStringCache symRefs)) := by
  refine ⟨rfl,symRefs.map (none,·),?_⟩
  rw [List.foldl_map]
  rfl

-- A cached string stays as it is.
theorem cached {s : UntypedGenericSymbolRef} {text : Str} (refills : Refills gs state state')
    (hit : state.symbolStringCache s = some text) : state'.symbolStringCache s = some text := by
  obtain ⟨asked,filled⟩ := refills.filled
  rw [filled]
  clear filled
  generalize state.symbolStringCache = cache at hit
  induction asked generalizing cache with
  | nil => exact hit
  | cons ask asked ih => exact ih _ (fill_cached gs state.gemMap ask.1 cache hit ask.2)

end Refills

theorem saveLocalDefinition_refills (d : LocalDefinition) : Refills gs state (state.saveLocalDefinition gs d).1 := by
  have cached := (cacheLocalOccurrence_keeps state d.occ definitionRole).1
  unfold SCIPState.saveLocalDefinition
  split
  · rename_i looked
    rw [looked] at cached
    exact .keeps cached
  · rename_i looked
    rw [looked] at cached
    exact .keeps (cached.trans (SCIPState.saveDefinitionImpl_keeps ..))

theorem saveLocalReference_refills (r : LocalReference) : Refills gs state (state.saveLocalReference gs r).1 := by
  have cached := (cacheLocalOccurrence_keeps state r.occ r.symbolRoles).1
  unfold SCIPState.saveLocalReference
  split
  · rename_i looked
    rw [looked] at cached
    exact .keeps cached
  · rename_i looked
    rw [looked] at cached
    exact .keeps (cached.trans (SCIPState.saveReferenceImpl_keeps ..))

theorem saveDefinition_refills (d : Definition) (described : Described gs state.symbolStringCache) :
    Refills gs state (state.saveDefinition gs d).1 := by
  cases spelled : d.spelled gs state.gemMap with
  | none =>
    rw [SCIPState.saveDefinition_skips gs state d described spelled]
    exact .refl state
  | some text =>
    obtain ⟨docs,rels,saved⟩ := SCIPState.saveDefinition_works gs state d spelled
    rw [saved]
    exact ((Refills.fill _ d.symRef.withoutType).trans (.fillAll _)).trans (.keeps (SCIPState.saveDefinitionImpl_keeps ..))

theorem saveReference_refills (r : Reference) : Refills gs state (state.saveReference gs r).1 := by
  by_cases hidden : r.hidden gs
  · rw [SCIPState.saveReference_hidden gs state r hidden]
    exact .refl state
  by_cases seen : r.key ∈ state.symbolOccurrenceCache
  · rw [SCIPState.saveReference_repeated gs state r seen]
    exact .refl state
  rw [SCIPState.saveReference_new gs state r (by simpa using hidden) seen]
  split
  · exact ⟨rfl,[],rfl⟩
  · rename_i text found
    obtain ⟨potential,docs,recorded,_⟩ := SCIPState.recordReference_state gs ((state.withKey r.key).withCache
      (fill gs state.gemMap none state.symbolStringCache r.symRef.withoutType)) r text
    rw [recorded]
    have filled : Refills gs state {(state.withKey r.key).withCache
        (fill gs state.gemMap none state.symbolStringCache r.symRef.withoutType) with
        potentialRefOnlySymbols := potential} := ⟨rfl,[(none,r.symRef.withoutType)],rfl⟩
    exact filled.trans (.keeps (SCIPState.saveReferenceImpl_keeps ..))

theorem finalizeSymbol_refills {file : FileRef} {acc : SCIPState × Str} {s : UntypedGenericSymbolRef} {text : Str}
    (tracked : Tracked gs acc.1) (hit : acc.1.symbolStringCache s = some text) :
    Refills gs acc.1 (SCIPState.finalizeSymbol gs file acc s).1 := by
  obtain ⟨rels,saved⟩ := finalizeSymbol_state gs file acc tracked hit
  rw [saved]
  exact (Refills.fillAll _).trans (.keeps (SCIPState.saveSymbolInfo_keeps ..))

-- The loop over symbols that are all in the cache.
theorem finalizeSymbols_refills {file : FileRef} (symRefs : List UntypedGenericSymbolRef) (acc : SCIPState × Str)
    (tracked : Tracked gs acc.1) (cached : ∀ s ∈ symRefs, (acc.1.symbolStringCache s).isSome) :
    Refills gs acc.1 (symRefs.foldl (SCIPState.finalizeSymbol gs file) acc).1 := by
  induction symRefs generalizing acc with
  | nil => exact .refl _
  | cons s symRefs ih =>
    obtain ⟨text,hit⟩ := Option.isSome_iff_exists.mp (cached s List.mem_cons_self)
    have first := @finalizeSymbol_refills gs file acc s text tracked hit
    have tracked' := (finalizeSymbols_tracked gs file [s] acc tracked
      (fun t member => cached t (by rw [List.mem_singleton.mp member]; exact List.mem_cons_self))).1
    refine first.trans (ih _ tracked' fun t member => ?_)
    obtain ⟨old,hit'⟩ := Option.isSome_iff_exists.mp (cached t (List.mem_cons_of_mem _ member))
    exact Option.isSome_iff_exists.mpr ⟨old,first.cached hit'⟩

theorem step_refills (step : Step) (tracked : Tracked gs state) : Refills gs state (step.apply gs state) := by
  cases step with
  | localDefinition d => exact saveLocalDefinition_refills d
  | definition d => exact saveDefinition_refills d tracked.described
  | localReference r => exact saveLocalReference_refills r
  | reference r => exact saveReference_refills r
  | finalizeRefOnlySymbolInfos file order =>
    refine finalizeSymbols_refills _ (state,[]) tracked fun s member => ?_
    exact tracked.pending file s ((order.complete _).mem_iff.mp member)
  | enterRelationships file symRef result =>
    simp only [Step.apply,SCIPState.enterRelationships]
    split
    · exact .refl state
    · exact ⟨rfl,[],rfl⟩
  | clearFunctionLocalCaches => exact ⟨rfl,[],rfl⟩

theorem run_refills (gemMap : GemMapping) (steps : List Step) :
    Refills gs (SCIPState.initial gemMap) (run gs (SCIPState.initial gemMap) steps) := by
  induction steps using List.reverseRecOn with
  | nil => exact .refl _
  | append_singleton steps step ih =>
    rw [run_snoc]
    exact ih.trans (step_refills step (run_tracked gs gemMap steps))

-- Every cached string is the symbol's own: what the emitter writes for it into an empty buffer.
theorem run_cached {gemMap : GemMapping} {steps : List Step} {s : UntypedGenericSymbolRef} {text : Str}
    (hit : (run gs (SCIPState.initial gemMap) steps).symbolStringCache s = some text) :
    ∃ loc, s.freshString gs gemMap loc = some text := by
  obtain ⟨asked,filled⟩ := (@run_refills gs gemMap steps).filled
  rw [filled] at hit
  have own : ∀ (asked : List (Option Loc × UntypedGenericSymbolRef)) (cache : Cache),
      (∀ s text, cache s = some text → ∃ loc, s.freshString gs gemMap loc = some text) →
      ∀ s text, asked.foldl (fun cache ask => fill gs gemMap ask.1 cache ask.2) cache s = some text →
        ∃ loc, s.freshString gs gemMap loc = some text := by
    intro asked
    induction asked with
    | nil => exact fun _ held => held
    | cons ask asked ih =>
      intro cache held
      refine ih _ fun s text hit => ?_
      change fill gs gemMap ask.1 cache ask.2 s = some text at hit
      by_cases same : s = ask.2
      · rw [same,fill_self] at hit
        rw [same]
        cases old : cache ask.2 with
        | some cached =>
          rw [old,Option.some_or] at hit
          exact held _ _ (old.trans hit)
        | none =>
          rw [old,Option.none_or] at hit
          exact ⟨ask.1,hit⟩
      · rw [fill_other gs gemMap ask.1 cache same] at hit
        exact held s text hit
  exact own asked _ (fun s text hit => by cases hit) s text hit

-- The buffer is handed on from symbol to symbol, and each call overwrites it with the cached string.
theorem refOnlySymbols_own_string (gs : GlobalState) (gemMap : GemMapping) (steps : List Step) (file : FileRef) :
    (∀ s ∈ (run gs (SCIPState.initial gemMap) steps).potentialRefOnlySymbols file,
      ((run gs (SCIPState.initial gemMap) steps).symbolStringCache s).isSome) ∧
    ∀ (order : HashOrder) before s after,
      order.visit ((run gs (SCIPState.initial gemMap) steps).potentialRefOnlySymbols file) = before ++ s :: after →
      ∃ text loc, s.freshString gs gemMap loc = some text ∧
        (before.foldl (SCIPState.finalizeSymbol gs file) (run gs (SCIPState.initial gemMap) steps,[])).1.saveSymbolString gs s
          none (before.foldl (SCIPState.finalizeSymbol gs file) (run gs (SCIPState.initial gemMap) steps,[])).2 =
        ((before.foldl (SCIPState.finalizeSymbol gs file) (run gs (SCIPState.initial gemMap) steps,[])).1,.ok (),text) := by
  have tracked := run_tracked gs gemMap steps
  refine ⟨tracked.pending file,?_⟩
  intro order before s after split
  have cached : ∀ t ∈ before ++ s :: after, ((run gs (SCIPState.initial gemMap) steps).symbolStringCache t).isSome := by
    intro t member
    rw [← split] at member
    exact tracked.pending file t ((order.complete _).mem_iff.mp member)
  obtain ⟨text,hit⟩ := Option.isSome_iff_exists.mp (cached s (by simp))
  obtain ⟨loc,fresh⟩ := run_cached hit
  have refills := @finalizeSymbols_refills gs file before (run gs (SCIPState.initial gemMap) steps,[]) tracked
    fun t member => cached t (List.mem_append_left _ member)
  exact ⟨text,loc,fresh,SCIPState.saveSymbolString_cached gs _ none _ (refills.cached hit)⟩

end Scip
