import Mathlib.Data.List.Induction
import ScipRuby.Scip.Saves

namespace Scip

-- Everything a worker does to its state while it visits the bodies of files.
inductive Step where
  | localDefinition (d : LocalDefinition)
  | definition (d : Definition)
  | localReference (r : LocalReference)
  | reference (r : Reference)
  | finalizeRefOnlySymbolInfos (file : FileRef) (order : HashOrder)
  | enterRelationships (file : FileRef) (symRef : UntypedGenericSymbolRef) (result : FieldQueryResult)
  | clearFunctionLocalCaches

def Step.apply (gs : GlobalState) (state : SCIPState) : Step → SCIPState
  | .localDefinition d => (state.saveLocalDefinition gs d).1
  | .definition d => (state.saveDefinition gs d).1
  | .localReference r => (state.saveLocalReference gs r).1
  | .reference r => (state.saveReference gs r).1
  | .finalizeRefOnlySymbolInfos file order => state.finalizeRefOnlySymbolInfos gs file order
  | .enterRelationships file symRef result => state.enterRelationships file symRef result
  | .clearFunctionLocalCaches => state.clearFunctionLocalCaches

def run (gs : GlobalState) (state : SCIPState) (steps : List Step) : SCIPState := steps.foldl (Step.apply gs) state

theorem run_snoc (gs : GlobalState) (state : SCIPState) (steps : List Step) (step : Step) :
    run gs state (steps ++ [step]) = step.apply gs (run gs state steps) := by
  simp [run,List.foldl_append]

-- The comment on emittedSymbols: for every (f,s) in it, symbolMap[f] has an
-- entry for s and vice versa; and symbolMap[f] has no second one.
def SymbolInfosInStep (state : SCIPState) : Prop :=
  ∀ file, ((state.symbolMap file).map SymbolInformation.symbol).Nodup ∧
    ∀ text, (file,text) ∈ state.emittedSymbols ↔ text ∈ (state.symbolMap file).map SymbolInformation.symbol

-- The steps that reach the end of saveSymbolInfo, told from the state before.
def Step.Records (gs : GlobalState) (state : SCIPState) : Step → Prop
  | .localDefinition d => d.occ.counter ∉ state.localOccurrenceCache (d.occ.offsets,definitionRole) ∧
      (Loc.mk d.file d.occ.offsets).usable = true ∧ (occurrenceRange gs.files ⟨d.file,d.occ.offsets⟩).isSome
  | .definition d => (d.spelled gs state.gemMap).isSome ∧ (occurrenceRange gs.files (d.occLoc gs)).isSome
  | .finalizeRefOnlySymbolInfos file _ => state.potentialRefOnlySymbols file ≠ []
  | _ => False

-- What every reachable state keeps. Nothing inserts into emittedSymbols, and a
-- symbol waits for finalisation only after its string went into the cache.
structure Tracked (gs : GlobalState) (state : SCIPState) : Prop where
  described : Described gs state.symbolStringCache
  nothingEmitted : state.emittedSymbols = []
  pending : ∀ file s, s ∈ state.potentialRefOnlySymbols file → (state.symbolStringCache s).isSome

theorem initial_tracked (gs : GlobalState) (gemMap : GemMapping) : Tracked gs (SCIPState.initial gemMap) := by
  refine ⟨?_,rfl,?_⟩
  · intro s text hit
    cases hit
  · intro file s member
    cases member

theorem Tracked.keeps (tracked : Tracked gs state) (kept : SCIPState.Keeps state state') : Tracked gs state' := by
  refine ⟨?_,?_,?_⟩
  · rw [kept.symbolStringCache]
    exact tracked.described
  · rw [kept.emittedSymbols]
    exact tracked.nothingEmitted
  · rw [kept.symbolStringCache,kept.potentialRefOnlySymbols]
    exact tracked.pending

theorem Tracked.fill (tracked : Tracked gs state) (loc : Option Loc) (s : UntypedGenericSymbolRef) :
    Tracked gs (state.withCache (Scip.fill gs state.gemMap loc state.symbolStringCache s)) := by
  refine ⟨fill_described gs _ loc _ s tracked.described,tracked.nothingEmitted,?_⟩
  intro file t member
  obtain ⟨text,hit⟩ := Option.isSome_iff_exists.mp (tracked.pending file t member)
  simp [fill_cached gs state.gemMap loc _ hit s]

theorem Tracked.fillAll (tracked : Tracked gs state) (symRefs : List UntypedGenericSymbolRef) :
    Tracked gs (state.withCache (Scip.fillAll gs state.gemMap state.symbolStringCache symRefs)) := by
  refine ⟨fillAll_described gs _ symRefs _ tracked.described,tracked.nothingEmitted,?_⟩
  intro file t member
  obtain ⟨text,hit⟩ := Option.isSome_iff_exists.mp (tracked.pending file t member)
  simp [fillAll_cached gs state.gemMap symRefs _ hit]

theorem cacheLocalOccurrence_keeps (state : SCIPState) (occ : OwnedLocal) (roles : Nat) :
    SCIPState.Keeps state (state.cacheLocalOccurrence occ roles).1 ∧
      (state.cacheLocalOccurrence occ roles).1.symbolMap = state.symbolMap := by
  unfold SCIPState.cacheLocalOccurrence
  split <;> exact ⟨⟨rfl,rfl,rfl,rfl,rfl,rfl⟩,rfl⟩

theorem saveLocalDefinition_tracked (d : LocalDefinition) (tracked : Tracked gs state) :
    Tracked gs (state.saveLocalDefinition gs d).1 := by
  have cached := tracked.keeps (cacheLocalOccurrence_keeps state d.occ definitionRole).1
  unfold SCIPState.saveLocalDefinition
  split <;> rename_i looked <;> rw [looked] at cached
  · exact cached
  · exact cached.keeps (SCIPState.saveDefinitionImpl_keeps ..)

theorem saveLocalReference_tracked (r : LocalReference) (tracked : Tracked gs state) :
    Tracked gs (state.saveLocalReference gs r).1 := by
  have cached := tracked.keeps (cacheLocalOccurrence_keeps state r.occ r.symbolRoles).1
  unfold SCIPState.saveLocalReference
  split <;> rename_i looked <;> rw [looked] at cached
  · exact cached
  · exact cached.keeps (SCIPState.saveReferenceImpl_keeps ..)

theorem saveDefinition_tracked (d : Definition) (tracked : Tracked gs state) :
    Tracked gs (state.saveDefinition gs d).1 := by
  cases spelled : d.spelled gs state.gemMap with
  | none => rwa [SCIPState.saveDefinition_skips gs state d tracked.described spelled]
  | some text =>
    obtain ⟨docs,rels,saved⟩ := SCIPState.saveDefinition_works gs state d spelled
    rw [saved]
    exact ((tracked.fill _ d.symRef.withoutType).fillAll _).keeps (SCIPState.saveDefinitionImpl_keeps ..)

theorem withKey_tracked (tracked : Tracked gs state) (key : UntypedGenericSymbolRef × Loc × Nat) :
    Tracked gs (state.withKey key) := ⟨tracked.described,tracked.nothingEmitted,tracked.pending⟩

theorem recordReference_tracked (r : Reference) (text : Str) (tracked : Tracked gs state)
    (cached : (state.symbolStringCache r.symRef.withoutType).isSome) :
    Tracked gs (state.recordReference gs r text) := by
  obtain ⟨potential,docs,recorded,waiting⟩ := SCIPState.recordReference_state gs state r text
  have pending : Tracked gs { state with potentialRefOnlySymbols := potential } := by
    refine ⟨tracked.described,tracked.nothingEmitted,fun file s member => ?_⟩
    rcases waiting file s member with old | rfl
    · exact tracked.pending file s old
    · exact cached
  rw [recorded]
  exact pending.keeps (SCIPState.saveReferenceImpl_keeps ..)

theorem saveReference_tracked (r : Reference) (tracked : Tracked gs state) :
    Tracked gs (state.saveReference gs r).1 := by
  by_cases hidden : r.hidden gs
  · rwa [SCIPState.saveReference_hidden gs state r hidden]
  · by_cases seen : r.key ∈ state.symbolOccurrenceCache
    · rwa [SCIPState.saveReference_repeated gs state r seen]
    · rw [SCIPState.saveReference_new gs state r (by simpa using hidden) seen]
      have keyed := withKey_tracked tracked r.key
      split
      · exact keyed
      · rename_i text found
        exact recordReference_tracked r text (keyed.fill none r.symRef.withoutType) (by simp [found])

-- With its string cached, a waiting symbol always gets an information of its own.
theorem finalizeSymbol_state (gs : GlobalState) (file : FileRef) (acc : SCIPState × Str)
    (tracked : Tracked gs acc.1) (cached : acc.1.symbolStringCache symRef = some text) :
    ∃ rels,(SCIPState.finalizeSymbol gs file acc symRef).1 =
      ((acc.1.withCache (fillAll gs acc.1.gemMap acc.1.symbolStringCache
        (parentsOf (acc.1.relationshipsMap file) symRef))).saveSymbolInfo gs file text [] rels).1 := by
  have parents := SCIPState.saveParentRelationships_state gs acc.1 file symRef
  unfold SCIPState.finalizeSymbol
  rw [SCIPState.saveSymbolString_cached gs acc.1 none acc.2 cached]
  have unemitted : acc.1.alreadyEmittedSymbolInfo file text = false := by
    simp [SCIPState.alreadyEmittedSymbolInfo,tracked.nothingEmitted]
  simp only [unemitted,Bool.false_eq_true,if_false]
  rw [parents]
  exact ⟨_,rfl⟩

theorem saveSymbolInfo_records (gs : GlobalState) (state : SCIPState) (file : FileRef) (text : Str) (docs : List Str)
    (rels : List Relationship) (nothingEmitted : state.emittedSymbols = []) :
    (state.saveSymbolInfo gs file text docs rels).1.symbolMap =
      append state.symbolMap file ⟨text,docs.map gs.escapeInvalidUtf8,rels⟩ := by
  simp [SCIPState.saveSymbolInfo,SCIPState.alreadyEmittedSymbolInfo,nothingEmitted]

theorem append_grows (map : FileRef → List SymbolInformation) (file file' : FileRef) (info : SymbolInformation)
    (filled : map file' ≠ [] ∨ file' = file) : append map file info file' ≠ [] := by
  by_cases same : file' = file
  · subst file'
    simp [append]
  · simpa [append,Function.update_of_ne same,same] using filled

theorem finalizeSymbols_tracked (gs : GlobalState) (file : FileRef) (symRefs : List UntypedGenericSymbolRef)
    (acc : SCIPState × Str) (tracked : Tracked gs acc.1)
    (cached : ∀ s ∈ symRefs, (acc.1.symbolStringCache s).isSome) :
    Tracked gs (symRefs.foldl (SCIPState.finalizeSymbol gs file) acc).1 ∧
      ((acc.1.symbolMap file ≠ [] ∨ symRefs ≠ []) →
        (symRefs.foldl (SCIPState.finalizeSymbol gs file) acc).1.symbolMap file ≠ []) := by
  induction symRefs generalizing acc with
  | nil => exact ⟨tracked,fun filled => filled.resolve_right (by simp)⟩
  | cons s symRefs ih =>
    obtain ⟨text,hit⟩ := Option.isSome_iff_exists.mp (cached s (by simp))
    obtain ⟨rels,saved⟩ := finalizeSymbol_state gs file acc tracked hit
    have filled := tracked.fillAll (parentsOf (acc.1.relationshipsMap file) s)
    have kept := SCIPState.saveSymbolInfo_keeps gs (acc.1.withCache (fillAll gs acc.1.gemMap acc.1.symbolStringCache
      (parentsOf (acc.1.relationshipsMap file) s))) file text [] rels
    rw [← saved] at kept
    obtain ⟨tracked',grown⟩ := ih _ (filled.keeps kept) (by
      intro t member
      obtain ⟨old,hit'⟩ := Option.isSome_iff_exists.mp (cached t (List.mem_cons_of_mem _ member))
      simp [kept.symbolStringCache,fillAll_cached gs acc.1.gemMap _ _ hit'])
    refine ⟨tracked',fun _ => grown (.inl ?_)⟩
    rw [saved,saveSymbolInfo_records _ _ _ _ _ _ filled.nothingEmitted]
    exact append_grows _ _ _ _ (.inr rfl)

theorem step_tracked (step : Step) (tracked : Tracked gs state) : Tracked gs (step.apply gs state) := by
  cases step with
  | localDefinition d => exact saveLocalDefinition_tracked d tracked
  | definition d => exact saveDefinition_tracked d tracked
  | localReference r => exact saveLocalReference_tracked r tracked
  | reference r => exact saveReference_tracked r tracked
  | finalizeRefOnlySymbolInfos file order =>
    refine (finalizeSymbols_tracked gs file _ (state,[]) tracked ?_).1
    intro s member
    exact tracked.pending file s ((order.complete _).mem_iff.mp member)
  | enterRelationships file symRef result =>
    simp only [Step.apply,SCIPState.enterRelationships]
    split
    · exact tracked
    · exact ⟨tracked.described,tracked.nothingEmitted,tracked.pending⟩
  | clearFunctionLocalCaches => exact ⟨tracked.described,tracked.nothingEmitted,tracked.pending⟩

theorem run_tracked (gs : GlobalState) (gemMap : GemMapping) (steps : List Step) :
    Tracked gs (run gs (SCIPState.initial gemMap) steps) := by
  induction steps using List.reverseRecOn with
  | nil => exact initial_tracked gs gemMap
  | append_singleton steps step ih =>
    rw [run_snoc]
    exact step_tracked step ih

theorem saveReference_symbolMap (gs : GlobalState) (state : SCIPState) (r : Reference) :
    (state.saveReference gs r).1.symbolMap = state.symbolMap := by
  by_cases hidden : r.hidden gs
  · rw [SCIPState.saveReference_hidden gs state r hidden]
  · by_cases seen : r.key ∈ state.symbolOccurrenceCache
    · rw [SCIPState.saveReference_repeated gs state r seen]
    · rw [SCIPState.saveReference_new gs state r (by simpa using hidden) seen]
      split
      · rfl
      · rename_i text _
        obtain ⟨_,_,recorded,_⟩ := SCIPState.recordReference_state gs ((state.withKey r.key).withCache
          (fill gs state.gemMap none state.symbolStringCache r.symRef.withoutType)) r text
        rw [recorded,SCIPState.saveReferenceImpl_symbolMap]
        rfl

theorem saveLocalReference_symbolMap (gs : GlobalState) (state : SCIPState) (r : LocalReference) :
    (state.saveLocalReference gs r).1.symbolMap = state.symbolMap := by
  have cached := (cacheLocalOccurrence_keeps state r.occ r.symbolRoles).2
  unfold SCIPState.saveLocalReference
  split <;> rename_i looked <;> rw [looked] at cached
  · exact cached
  · rw [SCIPState.saveReferenceImpl_symbolMap]
    exact cached

theorem saveLocalDefinition_symbolMap (d : LocalDefinition) (tracked : Tracked gs state) :
    (state.saveLocalDefinition gs d).1.symbolMap = state.symbolMap ∧ ¬ (Step.localDefinition d).Records gs state ∨
    (state.saveLocalDefinition gs d).1.symbolMap d.file ≠ [] ∧ (Step.localDefinition d).Records gs state := by
  obtain ⟨kept,cached⟩ := cacheLocalOccurrence_keeps state d.occ definitionRole
  unfold SCIPState.saveLocalDefinition
  by_cases seen : d.occ.counter ∈ state.localOccurrenceCache (d.occ.offsets,definitionRole)
  · left
    simp [SCIPState.cacheLocalOccurrence,seen,Step.Records]
  · have looked : (state.cacheLocalOccurrence d.occ definitionRole).2 = false := by
      simp [SCIPState.cacheLocalOccurrence,seen]
    generalize state.cacheLocalOccurrence d.occ definitionRole = outcome at kept cached looked
    obtain ⟨next,hit⟩ := outcome
    simp only at kept cached looked
    subst hit
    simp only [SCIPState.saveDefinitionImpl_symbolMap,Step.Records,cached]
    have nothingEmitted : next.emittedSymbols = [] := kept.emittedSymbols.trans tracked.nothingEmitted
    rw [saveSymbolInfo_records _ _ _ _ _ _ nothingEmitted]
    split
    · rename_i reached
      exact .inr ⟨append_grows _ _ _ _ (.inr rfl),seen,reached⟩
    · rename_i unreached
      exact .inl ⟨rfl,fun records => unreached records.2⟩

theorem saveDefinition_symbolMap (d : Definition) (tracked : Tracked gs state) :
    (state.saveDefinition gs d).1.symbolMap = state.symbolMap ∧ ¬ (Step.definition d).Records gs state ∨
    (state.saveDefinition gs d).1.symbolMap d.file ≠ [] ∧ (Step.definition d).Records gs state := by
  cases spelled : d.spelled gs state.gemMap with
  | none =>
    rw [SCIPState.saveDefinition_skips gs state d tracked.described spelled]
    simp [Step.Records,spelled]
  | some text =>
    obtain ⟨docs,rels,saved⟩ := SCIPState.saveDefinition_works gs state d spelled
    have usable : (d.occLoc gs).usable = true := by
      unfold Definition.spelled at spelled
      split at spelled
      · assumption
      · cases spelled
    rw [saved,SCIPState.saveDefinitionImpl_symbolMap]
    rw [saveSymbolInfo_records _ _ _ _ _ _ (by exact tracked.nothingEmitted)]
    simp only [Step.Records,spelled,usable,Option.isSome_some,true_and,SCIPState.withCache_symbolMap]
    split
    · rename_i reached
      exact .inr ⟨append_grows _ _ _ _ (.inr rfl),reached⟩
    · rename_i unreached
      exact .inl ⟨rfl,unreached⟩

theorem finalizeRefOnlySymbolInfos_symbolMap (file : FileRef) (order : HashOrder) (tracked : Tracked gs state) :
    (state.finalizeRefOnlySymbolInfos gs file order).symbolMap = state.symbolMap ∧
      state.potentialRefOnlySymbols file = [] ∨
    (state.finalizeRefOnlySymbolInfos gs file order).symbolMap file ≠ [] ∧
      state.potentialRefOnlySymbols file ≠ [] := by
  have complete := order.complete (state.potentialRefOnlySymbols file)
  by_cases idle : state.potentialRefOnlySymbols file = []
  · left
    rw [idle] at complete
    simp [SCIPState.finalizeRefOnlySymbolInfos,idle,complete.eq_nil]
  · refine .inr ⟨(finalizeSymbols_tracked gs file _ (state,[]) tracked ?_).2 (.inr ?_),idle⟩
    · intro s member
      exact tracked.pending file s (complete.mem_iff.mp member)
    · intro none
      rw [none] at complete
      exact idle complete.symm.eq_nil

-- One step either leaves symbolMap as it was or makes an entry in it.
theorem step_symbolMap (step : Step) (tracked : Tracked gs state) :
    (step.apply gs state).symbolMap = state.symbolMap ∧ ¬ step.Records gs state ∨
    (∃ file, (step.apply gs state).symbolMap file ≠ []) ∧ step.Records gs state := by
  cases step with
  | localDefinition d =>
    exact (saveLocalDefinition_symbolMap d tracked).imp id (fun ⟨filled,records⟩ => ⟨⟨_,filled⟩,records⟩)
  | definition d => exact (saveDefinition_symbolMap d tracked).imp id (fun ⟨filled,records⟩ => ⟨⟨_,filled⟩,records⟩)
  | localReference r => exact .inl ⟨saveLocalReference_symbolMap gs state r,id⟩
  | reference r => exact .inl ⟨saveReference_symbolMap gs state r,id⟩
  | finalizeRefOnlySymbolInfos file order =>
    exact (finalizeRefOnlySymbolInfos_symbolMap file order tracked).imp
      (fun ⟨same,idle⟩ => ⟨same,fun records => records idle⟩) (fun ⟨filled,records⟩ => ⟨⟨_,filled⟩,records⟩)
  | enterRelationships file symRef result =>
    left
    refine ⟨?_,id⟩
    simp only [Step.apply,SCIPState.enterRelationships]
    split <;> rfl
  | clearFunctionLocalCaches => exact .inl ⟨rfl,id⟩

-- With emittedSymbols empty for good, the two are in step only while both are empty.
theorem inStep_iff (tracked : Tracked gs state) : SymbolInfosInStep state ↔ ∀ file, state.symbolMap file = [] := by
  constructor
  · intro inStep file
    have none := (inStep file).2
    rw [tracked.nothingEmitted] at none
    cases infos : state.symbolMap file with
    | nil => rfl
    | cons info infos' =>
      have present := (none info.symbol).mpr (by simp [infos])
      cases present
  · intro empty file
    simp [empty file,tracked.nothingEmitted]

theorem symbolInfos_in_step_iff (gs : GlobalState) (gemMap : GemMapping) (steps : List Step) :
    (∀ front, front <+: steps → SymbolInfosInStep (run gs (SCIPState.initial gemMap) front)) ↔
    ∀ front step, front ++ [step] <+: steps → ¬ step.Records gs (run gs (SCIPState.initial gemMap) front) := by
  constructor
  · intro inStep front step reached records
    have after := inStep _ reached
    rw [inStep_iff (run_tracked gs gemMap _),run_snoc] at after
    rcases step_symbolMap step (run_tracked gs gemMap front) with ⟨_,none⟩ | ⟨⟨file,filled⟩,_⟩
    · exact none records
    · exact filled (after file)
  · intro quiet front
    rw [inStep_iff (run_tracked gs gemMap front)]
    induction front using List.reverseRecOn with
    | nil => exact fun _ _ => rfl
    | append_singleton front step ih =>
      intro reached
      rw [run_snoc]
      rcases step_symbolMap step (run_tracked gs gemMap front) with ⟨same,_⟩ | ⟨_,records⟩
      · rw [same]
        exact ih ((List.prefix_append front [step]).trans reached)
      · exact absurd records (quiet front step reached)

-- A class that a file opens twice: its information comes twice, and not even
-- the first one is noted in emittedSymbols.
theorem symbolInfos_out_of_step :
    ¬ SymbolInfosInStep (run sampleTable (SCIPState.initial sampleGems) [.definition (sampleDefinition 1)]) ∧
    ¬ (((run sampleTable (SCIPState.initial sampleGems)
      [.definition (sampleDefinition 1),.definition (sampleDefinition 1)]).symbolMap 1).map
        SymbolInformation.symbol).Nodup := by
  refine ⟨fun inStep => ?_,by decide⟩
  have noted := ((inStep 1).2 "scip-ruby gem x 1 B#".toList).mpr (by decide)
  exact absurd noted (by decide)

end Scip
