import ScipRuby.Scip.FileIndex

namespace Scip

-- What a lookup through the symbol table answers.
def looked (gs : GlobalState) (gemMap : GemMapping) (cache : Cache) (s : UntypedGenericSymbolRef) : Option Str :=
  (cache s).or (s.tabled gs gemMap)

theorem looked_fill (gs : GlobalState) (gemMap : GemMapping) (cache : Cache) (t : UntypedGenericSymbolRef) :
    looked gs gemMap (fill gs gemMap none cache t) = looked gs gemMap cache := by
  funext s
  unfold looked
  by_cases same : s = t
  · subst same
    rw [fill_self,UntypedGenericSymbolRef.tabled,Option.or_assoc,Option.or_self]
  · rw [fill_other gs gemMap none cache same]

theorem looked_fillAll (gs : GlobalState) (gemMap : GemMapping) (cache : Cache)
    (symRefs : List UntypedGenericSymbolRef) :
    looked gs gemMap (fillAll gs gemMap cache symRefs) = looked gs gemMap cache := by
  induction symRefs generalizing cache with
  | nil => rfl
  | cons t symRefs ih =>
    have step : fillAll gs gemMap cache (t :: symRefs) = fillAll gs gemMap (fill gs gemMap none cache t) symRefs := rfl
    rw [step,ih,looked_fill]

namespace SCIPState

theorem saveSymbolString_looked (gs : GlobalState) (state : SCIPState) (s : UntypedGenericSymbolRef) :
    match looked gs state.gemMap state.symbolStringCache s with
    | some text => (state.saveSymbolString gs s none []).2 = (.ok (),text)
    | none => ∀ done, (state.saveSymbolString gs s none []).2.1 ≠ .ok done := by
  have value := fill_self gs state.gemMap none state.symbolStringCache s
  have asked := asked_table gs state s
  cases found : looked gs state.gemMap state.symbolStringCache s with
  | some text =>
    have filled : fill gs state.gemMap none state.symbolStringCache s s = some text := value.trans found
    simp only [saveSymbolString_ok gs state asked filled]
  | none => exact (saveSymbolString_fails gs state asked (value.trans found)).2

theorem saveRelationship_rels (gs : GlobalState) (name : NameRef) (acc : SCIPState × List Relationship)
    (target : SymbolRef × Relationship) (blank : target.2.symbol = []) :
    (saveRelationship gs name acc target).2 =
      acc.2 ++ (relate (looked gs acc.1.gemMap acc.1.symbolStringCache) name target).toList := by
  have answer := saveSymbolString_looked gs acc.1 ⟨target.1,name⟩
  unfold saveRelationship relate
  rw [blank]
  cases found : looked gs acc.1.gemMap acc.1.symbolStringCache ⟨target.1,name⟩ with
  | some text =>
    rw [found] at answer
    split <;> simp_all
  | none =>
    rw [found] at answer
    split <;> simp_all

theorem saveRelationships_rels (gs : GlobalState) (name : NameRef) (targets : List (SymbolRef × Relationship))
    (blank : ∀ target ∈ targets, target.2.symbol = []) (acc : SCIPState × List Relationship) :
    (targets.foldl (saveRelationship gs name) acc).2 =
      acc.2 ++ targets.filterMap (relate (looked gs acc.1.gemMap acc.1.symbolStringCache) name) := by
  induction targets generalizing acc with
  | nil => simp
  | cons target targets ih =>
    have state := saveRelationship_state gs name acc target (blank target (by simp))
    have rels := saveRelationship_rels gs name acc target (blank target (by simp))
    rw [List.foldl_cons,ih (fun t member => blank t (List.mem_cons_of_mem _ member)),rels,state]
    rw [withCache_cache,withCache_gemMap,looked_fill,List.append_assoc]
    congr 1
    cases related : relate (looked gs acc.1.gemMap acc.1.symbolStringCache) name target <;>
      simp [related]

theorem saveParentRelationships_rels (gs : GlobalState) (state : SCIPState) (file : FileRef)
    (s : UntypedGenericSymbolRef) : (state.saveParentRelationships gs file s).2 =
      parentRelationships (looked gs state.gemMap state.symbolStringCache) (state.relationshipsMap file) s := by
  unfold saveParentRelationships parentRelationships
  cases state.relationshipsMap file s with
  | none => rfl
  | some result =>
    have rels := saveRelationships_rels gs s.name _ (parentTargets_blank s result) (state,[])
    simp only [List.nil_append] at rels
    simp only [rels]

theorem saveAliasRelationship_rels (gs : GlobalState) (state : SCIPState) (aliased : UntypedGenericSymbolRef)
    (rels : List Relationship) : (state.saveAliasRelationship gs aliased rels).2 =
      rels ++ aliasRelationships (looked gs state.gemMap state.symbolStringCache) (some aliased) := by
  have answer := saveSymbolString_looked gs state aliased
  unfold saveAliasRelationship aliasRelationships
  cases found : looked gs state.gemMap state.symbolStringCache aliased with
  | some text =>
    rw [found] at answer
    split <;> simp_all
  | none =>
    rw [found] at answer
    split <;> simp_all

-- The relationships a definition gets from a given cache.
def definedRelationships (gs : GlobalState) (state : SCIPState) (d : Definition) : List Relationship :=
  let strings := looked gs state.gemMap state.symbolStringCache
  parentRelationships strings (state.relationshipsMap d.file) d.symRef.withoutType ++
    aliasRelationships strings d.aliasedSymbol

theorem recordDefinition_eq (gs : GlobalState) (state : SCIPState) (d : Definition) (text : Str) :
    (state.recordDefinition gs d text).1 =
      ((state.withCache (fillAll gs state.gemMap state.symbolStringCache (d.names state.relationshipsMap))).saveDefinitionImpl
        gs d.file text (d.occLoc gs) (d.symRef.saveDocStrings gs d.symRef.definitionType (d.occLoc gs))
        (definedRelationships gs state d) d.enclosingLoc).1 := by
  have parents := saveParentRelationships_state gs state d.file d.symRef.withoutType
  have rels := saveParentRelationships_rels gs state d.file d.symRef.withoutType
  unfold recordDefinition Definition.names definedRelationships
  generalize state.saveParentRelationships gs d.file d.symRef.withoutType = named at parents rels
  obtain ⟨named,found⟩ := named
  simp only at parents rels
  subst named found
  cases d.aliasedSymbol with
  | none => simp [aliasRelationships]
  | some aliased =>
    simp only
    have aliasing := saveAliasRelationship_state gs (state.withCache (fillAll gs state.gemMap state.symbolStringCache
      (parentsOf (state.relationshipsMap d.file) d.symRef.withoutType))) aliased
      (parentRelationships (looked gs state.gemMap state.symbolStringCache) (state.relationshipsMap d.file)
        d.symRef.withoutType)
    have added := saveAliasRelationship_rels gs (state.withCache (fillAll gs state.gemMap state.symbolStringCache
      (parentsOf (state.relationshipsMap d.file) d.symRef.withoutType))) aliased
      (parentRelationships (looked gs state.gemMap state.symbolStringCache) (state.relationshipsMap d.file)
        d.symRef.withoutType)
    rw [withCache_cache,withCache_gemMap,looked_fillAll] at added
    generalize saveAliasRelationship gs _ aliased _ = both at aliasing added
    obtain ⟨both,rels'⟩ := both
    simp only at aliasing added
    subst both rels'
    simp [fillAll,List.foldl_append]

theorem saveDefinition_eq (gs : GlobalState) (state : SCIPState) (d : Definition)
    (spelled : d.spelled gs state.gemMap = some text) :
    let filled := state.withCache (fill gs state.gemMap (some (d.occLoc gs)) state.symbolStringCache d.symRef.withoutType)
    (state.saveDefinition gs d).1 =
      ((state.withCache (definedCache gs state d)).saveDefinitionImpl gs d.file
        ((state.symbolStringCache d.symRef.withoutType).getD text) (d.occLoc gs)
        (d.symRef.saveDocStrings gs d.symRef.definitionType (d.occLoc gs)) (definedRelationships gs filled d)
        d.enclosingLoc).1 := by
  unfold Definition.spelled at spelled
  split at spelled
  case isFalse => cases spelled
  rename_i usable
  obtain ⟨gem,tail,filed,_,_⟩ := freshString_some spelled
  have known : d.symRef.withoutType.symbolForExpr gs state.gemMap (some (d.occLoc gs)) =
      .ok ⟨some ⟨gem.name,gem.version⟩,d.symRef.withoutType.descriptors gs⟩ := by
    simp [UntypedGenericSymbolRef.symbolForExpr,filed]
  have found : fill gs state.gemMap (some (d.occLoc gs)) state.symbolStringCache d.symRef.withoutType
      d.symRef.withoutType = some ((state.symbolStringCache d.symRef.withoutType).getD text) := by
    rw [fill_self,spelled]
    cases state.symbolStringCache d.symRef.withoutType <;> rfl
  have saved := saveSymbolString_ok gs state (asked_own gs state d.symRef.withoutType known) found
  unfold saveDefinition
  rw [known]
  simp only [usable,Bool.not_true,Bool.false_eq_true,if_false,saved]
  exact recordDefinition_eq gs _ d _

end SCIPState

-- The lookups of a step: the symbol and the string it would get from an empty
-- cache. A symbol that a reference leaves waiting has its parents looked up at
-- the end of the file.
inductive Step.Asks (gs : GlobalState) (gemMap : GemMapping) (related : RelationshipsMap) :
    Step → UntypedGenericSymbolRef → Option Str → Prop where
  | own (spelled : Definition.spelled gs gemMap d = some text) :
      Asks gs gemMap related (.definition d) d.symRef.withoutType (some text)
  | named (spelled : (Definition.spelled gs gemMap d).isSome) (other : s ≠ d.symRef.withoutType)
      (member : s ∈ parentsOf related d.symRef.withoutType ++ d.aliasedSymbol.toList) :
      Asks gs gemMap related (.definition d) s (s.tabled gs gemMap)
  | referenced (visible : Reference.hidden gs r = false) :
      Asks gs gemMap related (.reference r) r.symRef.withoutType (r.symRef.withoutType.tabled gs gemMap)
  | parent (visible : Reference.hidden gs r = false) (member : s ∈ parentsOf related r.symRef.withoutType) :
      Asks gs gemMap related (.reference r) s (s.tabled gs gemMap)

-- One answer for each symbol that is asked for.
def OneAnswer (asks : UntypedGenericSymbolRef → Option Str → Prop) : Prop :=
  ∀ s answer answer', asks s answer → asks s answer' → answer = answer'

-- The cache holds nothing but what a lookup would find anyway.
def Consistent (asks : UntypedGenericSymbolRef → Option Str → Prop) (cache : Cache) : Prop :=
  ∀ s text, cache s = some text → ∀ answer, asks s answer → answer = some text

section Caches
variable {gs : GlobalState} {gemMap : GemMapping} {asks : UntypedGenericSymbolRef → Option Str → Prop} {cache : Cache}

theorem Consistent.or_eq (consistent : Consistent asks cache) (asked : asks s answer) :
    (cache s).or answer = answer := by
  cases hit : cache s with
  | none => rfl
  | some text =>
    rw [consistent s text hit answer asked]
    rfl

theorem Consistent.fill (consistent : Consistent asks cache) (one : OneAnswer asks)
    (asked : asks s (s.freshString gs gemMap loc)) : Consistent asks (Scip.fill gs gemMap loc cache s) := by
  intro t text hit answer asked'
  by_cases same : t = s
  · subst same
    rw [fill_self,consistent.or_eq asked] at hit
    exact (one t _ _ asked' asked).trans hit
  · rw [fill_other gs gemMap loc cache same] at hit
    exact consistent t text hit answer asked'

theorem fill_hit (hit : (cache s).isSome) : Scip.fill gs gemMap loc cache s = cache := by
  obtain ⟨text,hit⟩ := Option.isSome_iff_exists.mp hit
  unfold Scip.fill
  rw [hit,Option.some_or,← hit,Function.update_eq_self]

theorem Consistent.fillAll (consistent : Consistent asks cache) (one : OneAnswer asks)
    (symRefs : List UntypedGenericSymbolRef)
    (asked : ∀ s ∈ symRefs, asks s (s.tabled gs gemMap) ∨ (cache s).isSome) :
    Consistent asks (Scip.fillAll gs gemMap cache symRefs) := by
  induction symRefs generalizing cache with
  | nil => exact consistent
  | cons t symRefs ih =>
    have first : Consistent asks (Scip.fill gs gemMap none cache t) := by
      rcases asked t List.mem_cons_self with asked | hit
      · exact consistent.fill one asked
      · rwa [fill_hit hit]
    apply ih first
    intro s member
    rcases asked s (List.mem_cons_of_mem _ member) with asked | hit
    · exact .inl asked
    · obtain ⟨text,hit⟩ := Option.isSome_iff_exists.mp hit
      exact .inr (by rw [fill_cached gs gemMap none cache hit t]; rfl)

theorem Consistent.looked_eq (consistent : Consistent asks cache) (asked : asks s (s.tabled gs gemMap)) :
    looked gs gemMap cache s = s.tabled gs gemMap := consistent.or_eq asked

end Caches

-- What a worker's state has of one file.
structure Views (file : FileRef) (state : SCIPState) (index : FileIndex) : Prop where
  occurrences : state.occurrenceMap file = index.occurrences
  symbols : state.symbolMap file = index.symbols
  waiting : state.potentialRefOnlySymbols file = index.waiting
  related : state.relationshipsMap file = index.related
  locals : state.localOccurrenceCache = index.locals
  seen : ∀ key, key.2.1.file = file → (key ∈ state.symbolOccurrenceCache ↔ key ∈ index.seen)

structure Steady (gs : GlobalState) (gemMap : GemMapping) (asks : UntypedGenericSymbolRef → Option Str → Prop)
    (state : SCIPState) : Prop where
  tracked : Tracked gs state
  gems : state.gemMap = gemMap
  consistent : Consistent asks state.symbolStringCache

section Refinement
variable {gs : GlobalState} {gemMap : GemMapping} {file : FileRef} {state : SCIPState} {index : FileIndex}

theorem append_self {α β : Type} [DecidableEq α] (map : α → List β) (key : α) (value : β) :
    append map key value key = map key ++ [value] := by
  simp [append]

theorem append_other {α β : Type} [DecidableEq α] (map : α → List β) {key key' : α} (value : β) (apart : key' ≠ key) :
    append map key value key' = map key' := by
  simp [append,Function.update_of_ne apart]

theorem Views.withCache (views : Views file state index) (cache : Cache) : Views file (state.withCache cache) index :=
  ⟨views.occurrences,views.symbols,views.waiting,views.related,views.locals,views.seen⟩

theorem saveDefinitionImpl_views (views : Views file state index) (nothingEmitted : state.emittedSymbols = [])
    (text : Str) (occLoc : Loc) (docs : List Str) (rels : List Relationship) (enclosingLoc : Option Loc) :
    Views file (state.saveDefinitionImpl gs file text occLoc docs rels enclosingLoc).1
      (index.define gs text occLoc docs rels enclosingLoc) := by
  unfold SCIPState.saveDefinitionImpl FileIndex.define definitionOccurrence
  cases usable : occLoc.usable with
  | false => simpa using views
  | true =>
    cases ranged : occurrenceRange gs.files occLoc with
    | none => simpa using views
    | some range =>
      simp only [SCIPState.saveSymbolInfo,SCIPState.alreadyEmittedSymbolInfo,nothingEmitted,Bool.not_true,
        Bool.false_eq_true,if_false,List.not_mem_nil,decide_false,if_true,Option.map_some]
      refine ⟨?_,?_,views.waiting,views.related,views.locals,views.seen⟩
      · exact (append_self _ _ _).trans (congrArg (· ++ _) views.occurrences)
      · exact (append_self _ _ _).trans (congrArg (· ++ _) views.symbols)

theorem saveReferenceImpl_views (views : Views file state index) (text : Str) (docs : List Str)
    (offsets : LocOffsets) (roles : Nat) :
    Views file (state.saveReferenceImpl gs file text docs offsets roles)
      (index.refer (referenceOccurrence gs text docs ⟨file,offsets⟩ roles)) := by
  unfold SCIPState.saveReferenceImpl FileIndex.refer referenceOccurrence
  cases ranged : occurrenceRange gs.files ⟨file,offsets⟩ with
  | none =>
    refine ⟨?_,views.symbols,views.waiting,views.related,views.locals,views.seen⟩
    simp [views.occurrences]
  | some range =>
    refine ⟨?_,views.symbols,views.waiting,views.related,views.locals,views.seen⟩
    simp [append_self,views.occurrences]

theorem localDefinition_views (views : Views file state index) (nothingEmitted : state.emittedSymbols = [])
    (d : LocalDefinition) (own : d.file = file) :
    Views file (state.saveLocalDefinition gs d).1 (index.step gs gemMap (.localDefinition d)) := by
  subst own
  unfold SCIPState.saveLocalDefinition SCIPState.cacheLocalOccurrence FileIndex.step
  by_cases hit : d.occ.counter ∈ state.localOccurrenceCache (d.occ.offsets,definitionRole)
  · simpa only [← views.locals,hit,if_true] using views
  · simp only [← views.locals,hit,if_false]
    apply saveDefinitionImpl_views
    · exact ⟨views.occurrences,views.symbols,views.waiting,views.related,rfl,views.seen⟩
    · exact nothingEmitted

theorem localReference_views (views : Views file state index) (r : LocalReference) (own : r.file = file) :
    Views file (state.saveLocalReference gs r).1 (index.step gs gemMap (.localReference r)) := by
  subst own
  unfold SCIPState.saveLocalReference SCIPState.cacheLocalOccurrence FileIndex.step
  by_cases hit : r.occ.counter ∈ state.localOccurrenceCache (r.occ.offsets,r.symbolRoles)
  · simpa only [← views.locals,hit,if_true] using views
  · simp only [← views.locals,hit,if_false]
    apply saveReferenceImpl_views
    exact ⟨views.occurrences,views.symbols,views.waiting,views.related,rfl,views.seen⟩

-- While a definition is recorded, each lookup is answered as if the file were alone.
theorem spelling_looked (steady : Steady gs gemMap asks state) (d : Definition) (own : asks d.symRef.withoutType (some text))
    (spelled : d.symRef.withoutType.freshString gs gemMap (some (d.occLoc gs)) = some text)
    (asked : s ≠ d.symRef.withoutType → asks s (s.tabled gs gemMap)) :
    looked gs gemMap (fill gs gemMap (some (d.occLoc gs)) state.symbolStringCache d.symRef.withoutType) s =
      spelling gs gemMap d.symRef.withoutType text s := by
  unfold spelling
  split
  · rename_i same
    subst same
    rw [looked,fill_self,spelled,steady.consistent.or_eq own]
    rfl
  · rename_i other
    rw [looked,fill_other gs gemMap _ _ other]
    exact steady.consistent.looked_eq (asked other)

theorem parentRelationships_congr (strings strings' : UntypedGenericSymbolRef → Option Str) (related : RelationshipsMap)
    (s : UntypedGenericSymbolRef) (same : ∀ t ∈ parentsOf related s, strings t = strings' t) :
    parentRelationships strings related s = parentRelationships strings' related s := by
  unfold parentRelationships
  unfold parentsOf at same
  cases found : related s with
  | none => rfl
  | some result =>
    rw [found] at same
    have each (target : SymbolRef × Relationship) (member : target ∈ SCIPState.parentTargets s result) :
        relate strings s.name target = relate strings' s.name target := by
      rw [relate,relate,same _ (List.mem_map.mpr ⟨target,member,rfl⟩)]
    simp only [List.filterMap_congr each]

theorem definition_step (steady : Steady gs gemMap asks state) (one : OneAnswer asks) (views : Views file state index)
    (d : Definition) (own : d.file = file)
    (asked : ∀ s answer, (Step.definition d).Asks gs gemMap index.related s answer → asks s answer) :
    Steady gs gemMap asks (state.saveDefinition gs d).1 ∧
      Views file (state.saveDefinition gs d).1 (index.step gs gemMap (.definition d)) := by
  subst own
  have tracked := saveDefinition_tracked d steady.tracked
  have consistent := steady.consistent
  obtain rfl := steady.gems
  cases spelled : d.spelled gs state.gemMap with
  | none =>
    rw [SCIPState.saveDefinition_skips gs state d steady.tracked.described spelled]
    simp only [FileIndex.step,spelled]
    exact ⟨steady,views⟩
  | some text =>
    have fresh : d.symRef.withoutType.freshString gs state.gemMap (some (d.occLoc gs)) = some text := by
      unfold Definition.spelled at spelled
      split at spelled
      · exact spelled
      · cases spelled
    have ownAsked : asks d.symRef.withoutType (some text) := asked _ _ (.own spelled)
    have others (s : UntypedGenericSymbolRef) (member : s ∈ d.names state.relationshipsMap)
        (other : s ≠ d.symRef.withoutType) : asks s (s.tabled gs state.gemMap) := by
      rw [Definition.names,views.related] at member
      exact asked _ _ (.named (by rw [spelled]; rfl) other member)
    have filled : Consistent asks (fill gs state.gemMap (some (d.occLoc gs)) state.symbolStringCache d.symRef.withoutType) :=
      consistent.fill one (by rwa [fresh])
    have saved := SCIPState.saveDefinition_eq gs state d spelled
    simp only at saved
    constructor
    · refine ⟨tracked,?_,?_⟩
      · rw [saved,(SCIPState.saveDefinitionImpl_keeps ..).gemMap]
        rfl
      · rw [saved,(SCIPState.saveDefinitionImpl_keeps ..).symbolStringCache]
        apply filled.fillAll one
        intro s member
        by_cases same : s = d.symRef.withoutType
        · subst same
          rw [fill_self,fresh]
          exact .inr (by simp)
        · exact .inl (others s member same)
    · have name : (state.symbolStringCache d.symRef.withoutType).getD text = text := by
        have value := consistent.or_eq ownAsked
        cases hit : state.symbolStringCache d.symRef.withoutType with
        | none => rfl
        | some old =>
          rw [hit,Option.some_or] at value
          exact Option.some.inj value
      have strings (s : UntypedGenericSymbolRef) (member : s ∈ d.names state.relationshipsMap) :=
        spelling_looked steady d ownAsked fresh (others s member)
      have rels : SCIPState.definedRelationships gs (state.withCache
          (fill gs state.gemMap (some (d.occLoc gs)) state.symbolStringCache d.symRef.withoutType)) d =
            d.relationships gs state.gemMap index.related text := by
        unfold SCIPState.definedRelationships Definition.relationships
        simp only [SCIPState.withCache_gemMap,SCIPState.withCache_cache,SCIPState.withCache_relationshipsMap]
        rw [views.related] at *
        congr 1
        · apply parentRelationships_congr
          intro t member
          exact strings t (List.mem_append_left _ (by rwa [views.related]))
        · unfold aliasRelationships
          cases aliased : d.aliasedSymbol with
          | none => rfl
          | some s =>
            simp only [Option.bind_some]
            rw [strings s (List.mem_append_right _ (by simp [aliased]))]
      rw [saved,name,rels]
      simp only [FileIndex.step,spelled]
      have unemitted : (state.withCache (SCIPState.definedCache gs state d)).emittedSymbols = [] :=
        steady.tracked.nothingEmitted
      exact saveDefinitionImpl_views (views.withCache _) unemitted text _ _ _ _

theorem recordReference_views (r : Reference) (text : Str) (views : Views r.file state index)
    (nothingEmitted : state.emittedSymbols = []) :
    Views r.file (state.recordReference gs r text) ((index.await r.symRef.withoutType).refer
      (referenceOccurrence gs text (r.overrideDocs gs) r.loc r.symbolRoles)) := by
  unfold SCIPState.recordReference
  apply saveReferenceImpl_views
  simp only [SCIPState.alreadyEmittedSymbolInfo,nothingEmitted,List.not_mem_nil,decide_false,Bool.not_false,
    Bool.true_and,views.related,views.waiting]
  unfold FileIndex.await
  by_cases waits : (index.related r.symRef.withoutType).isSome ∧ r.symRef.withoutType ∉ index.waiting
  · simp only [waits,and_self,if_true,not_false_eq_true,decide_true,Bool.and_self]
    refine ⟨views.occurrences,views.symbols,?_,views.related,views.locals,views.seen⟩
    simp only [append_self,views.waiting]
  · have idle : ((index.related r.symRef.withoutType).isSome && decide (r.symRef.withoutType ∉ index.waiting)) = false := by
      simpa using waits
    simp only [idle,waits,if_false,Bool.false_eq_true]
    exact views

theorem reference_step (steady : Steady gs gemMap asks state) (one : OneAnswer asks) (views : Views file state index)
    (r : Reference) (own : r.file = file)
    (asked : ∀ s answer, (Step.reference r).Asks gs gemMap index.related s answer → asks s answer) :
    Steady gs gemMap asks (state.saveReference gs r).1 ∧
      Views file (state.saveReference gs r).1 (index.step gs gemMap (.reference r)) := by
  subst own
  have tracked := saveReference_tracked r steady.tracked
  have consistent := steady.consistent
  obtain rfl := steady.gems
  by_cases hidden : r.hidden gs
  · rw [SCIPState.saveReference_hidden gs state r hidden]
    rw [FileIndex.step_passed gs _ index r (.inl hidden)]
    exact ⟨steady,views⟩
  · by_cases seen : r.key ∈ state.symbolOccurrenceCache
    · have seen' := (views.seen r.key rfl).mp seen
      rw [SCIPState.saveReference_repeated gs state r seen]
      rw [FileIndex.step_passed gs _ index r (.inr seen')]
      exact ⟨steady,views⟩
    · have seen' : r.key ∉ index.seen := fun member => seen ((views.seen r.key rfl).mpr member)
      have visible : r.hidden gs = false := by simpa using hidden
      have ownAsked := asked _ _ (.referenced visible)
      have keyed : Views r.file (state.withKey r.key) (index.remember r.key) := by
        refine ⟨views.occurrences,views.symbols,views.waiting,views.related,views.locals,fun key inside => ?_⟩
        simp only [SCIPState.withKey,FileIndex.remember,List.mem_cons,views.seen key inside]
      have saved := SCIPState.saveReference_new gs state r visible seen
      have value : fill gs state.gemMap none state.symbolStringCache r.symRef.withoutType r.symRef.withoutType =
          r.symRef.withoutType.tabled gs state.gemMap := by
        rw [fill_self]
        exact consistent.or_eq ownAsked
      rw [value] at saved
      rw [FileIndex.step_referred gs _ index r visible seen']
      cases found : r.symRef.withoutType.tabled gs state.gemMap with
      | none =>
        rw [found] at saved
        simp only at saved
        rw [saved] at tracked ⊢
        exact ⟨⟨tracked,rfl,consistent⟩,keyed⟩
      | some text =>
        rw [found] at saved
        simp only at saved
        obtain ⟨potential,docs,recorded,_⟩ := SCIPState.recordReference_state gs ((state.withKey r.key).withCache
          (fill gs state.gemMap none state.symbolStringCache r.symRef.withoutType)) r text
        have kept := SCIPState.saveReferenceImpl_keeps gs { (state.withKey r.key).withCache
          (fill gs state.gemMap none state.symbolStringCache r.symRef.withoutType) with
            potentialRefOnlySymbols := potential } r.file text docs r.occLoc r.symbolRoles
        rw [← recorded,← saved] at kept
        constructor
        · refine ⟨tracked,kept.gemMap,?_⟩
          rw [kept.symbolStringCache]
          exact consistent.fill one ownAsked
        · rw [saved]
          have unemitted : ((state.withKey r.key).withCache (fill gs state.gemMap none state.symbolStringCache
            r.symRef.withoutType)).emittedSymbols = [] := steady.tracked.nothingEmitted
          exact recordReference_views r text (keyed.withCache _) unemitted

theorem enter_views (views : Views file state index) (s : UntypedGenericSymbolRef) (result : FieldQueryResult) :
    Views file (state.enterRelationships file s result) (index.enter s result) := by
  unfold SCIPState.enterRelationships FileIndex.enter
  simp only [views.related]
  split
  · exact views
  · refine ⟨views.occurrences,views.symbols,views.waiting,?_,views.locals,views.seen⟩
    simp

theorem saveLocalDefinition_keeps (state : SCIPState) (d : LocalDefinition) :
    SCIPState.Keeps state (state.saveLocalDefinition gs d).1 := by
  have cached := (cacheLocalOccurrence_keeps state d.occ definitionRole).1
  unfold SCIPState.saveLocalDefinition
  split <;> rename_i looked <;> rw [looked] at cached
  · exact cached
  · exact cached.trans (SCIPState.saveDefinitionImpl_keeps ..)

theorem saveLocalReference_keeps (state : SCIPState) (r : LocalReference) :
    SCIPState.Keeps state (state.saveLocalReference gs r).1 := by
  have cached := (cacheLocalOccurrence_keeps state r.occ r.symbolRoles).1
  unfold SCIPState.saveLocalReference
  split <;> rename_i looked <;> rw [looked] at cached
  · exact cached
  · exact cached.trans (SCIPState.saveReferenceImpl_keeps ..)

theorem Steady.keeps (steady : Steady gs gemMap asks state) (tracked : Tracked gs state')
    (kept : SCIPState.Keeps state state') : Steady gs gemMap asks state' := by
  refine ⟨tracked,kept.gemMap.trans steady.gems,?_⟩
  rw [kept.symbolStringCache]
  exact steady.consistent

-- One step of a worker on a file is one step of the file's own index.
theorem step_views (steady : Steady gs gemMap asks state) (one : OneAnswer asks) (views : Views file state index)
    (step : Step) (own : step.VisitsFile file)
    (asked : ∀ s answer, step.Asks gs gemMap index.related s answer → asks s answer) :
    Steady gs gemMap asks (step.apply gs state) ∧ Views file (step.apply gs state) (index.step gs gemMap step) := by
  have tracked := step_tracked step steady.tracked
  cases step with
  | definition d => exact definition_step steady one views d own asked
  | reference r => exact reference_step steady one views r own asked
  | localDefinition d =>
    exact ⟨steady.keeps tracked (saveLocalDefinition_keeps state d),
      localDefinition_views views steady.tracked.nothingEmitted d own⟩
  | localReference r =>
    exact ⟨steady.keeps tracked (saveLocalReference_keeps state r),localReference_views views r own⟩
  | enterRelationships file' s result =>
    subst own
    refine ⟨⟨tracked,?_,?_⟩,enter_views views s result⟩
    · simp only [Step.apply,SCIPState.enterRelationships]
      split <;> exact steady.gems
    · simp only [Step.apply,SCIPState.enterRelationships]
      split <;> exact steady.consistent
  | clearFunctionLocalCaches =>
    exact ⟨⟨tracked,steady.gems,steady.consistent⟩,
      ⟨views.occurrences,views.symbols,views.waiting,views.related,rfl,views.seen⟩⟩
  | finalizeRefOnlySymbolInfos file' order => cases own

end Refinement

end Scip
