import ScipRuby.Scip.State

namespace Scip

-- The part of a symbol string after the package. Only the root has none.
def UntypedGenericSymbolRef.descriptorText (gs : GlobalState) (symRef : UntypedGenericSymbolRef) : Option Str :=
  if (symRef.descriptors gs).length = 0 then none
  else ((symRef.descriptors gs).foldlM (fun out d => emitDescriptorString d out) []).toOption

def GemMetadata.toPackage (gem : GemMetadata) : Option Package := some ⟨gem.name,gem.version⟩

-- The part before it.
def GemMetadata.heading (gem : GemMetadata) : Str := emitPackageString gem.toPackage "scip-ruby gem ".toList

-- Gems that no symbol string tells apart.
def Alike (gem gem' : GemMetadata) : Prop := emitPackageString gem.toPackage [] = emitPackageString gem'.toPackage []

instance (gem gem' : GemMetadata) : Decidable (Alike gem gem') := inferInstanceAs (Decidable (_ = _))

theorem heading_alike (gem gem' : GemMetadata) : gem.heading = gem'.heading ↔ Alike gem gem' := by
  unfold GemMetadata.heading Alike
  rw [emitPackageString_append,emitPackageString_append gem'.toPackage]
  exact ⟨List.append_cancel_left,fun same => by rw [same]⟩

-- What a symbol is spelled as when no cache is consulted.
def UntypedGenericSymbolRef.freshString (gs : GlobalState) (gemMap : GemMapping) (loc : Option Loc)
    (symRef : UntypedGenericSymbolRef) : Option Str :=
  match symRef.symbolForExpr gs gemMap loc with
  | .ok symbol => (emitSymbolString symbol []).toOption
  | _ => none

-- The lookup of the gem ends in an exception.
def UntypedGenericSymbolRef.Raises (gs : GlobalState) (gemMap : GemMapping) (loc : Option Loc)
    (symRef : UntypedGenericSymbolRef) : Prop := ∃ what, symRef.owningGem gs gemMap loc = .thrown what

theorem raises_unspelled (raises : UntypedGenericSymbolRef.Raises gs gemMap loc symRef) :
    symRef.freshString gs gemMap loc = none := by
  obtain ⟨what,raised⟩ := raises
  simp [UntypedGenericSymbolRef.freshString,UntypedGenericSymbolRef.symbolForExpr,raised]

theorem emitSymbolString_split (gs : GlobalState) (gem : GemMetadata) (symRef : UntypedGenericSymbolRef) :
    (emitSymbolString ⟨gem.toPackage,symRef.descriptors gs⟩ []).toOption =
      (symRef.descriptorText gs).map (gem.heading ++ ·) := by
  unfold emitSymbolString UntypedGenericSymbolRef.descriptorText GemMetadata.heading
  generalize "scip-ruby gem ".toList = scheme
  dsimp only
  split
  · rfl
  · rw [List.nil_append,emitDescriptors_append]
    cases (symRef.descriptors gs).foldlM (fun out d => emitDescriptorString d out) [] <;> rfl

theorem freshString_split (gs : GlobalState) (gemMap : GemMapping) (loc : Option Loc)
    (symRef : UntypedGenericSymbolRef) (filed : symRef.owningGem gs gemMap loc = .ok gem) :
    symRef.freshString gs gemMap loc = (symRef.descriptorText gs).map (gem.heading ++ ·) := by
  rw [← emitSymbolString_split]
  simp [UntypedGenericSymbolRef.freshString,UntypedGenericSymbolRef.symbolForExpr,filed,GemMetadata.toPackage]

theorem freshString_some (written : UntypedGenericSymbolRef.freshString gs gemMap loc symRef = some text) :
    ∃ gem tail, symRef.owningGem gs gemMap loc = .ok gem ∧ symRef.descriptorText gs = some tail ∧
      text = gem.heading ++ tail := by
  cases filed : symRef.owningGem gs gemMap loc with
  | ok gem =>
    rw [freshString_split gs gemMap loc symRef filed] at written
    cases described : symRef.descriptorText gs with
    | none => simp [described] at written
    | some tail => exact ⟨gem,tail,rfl,rfl,by simpa [described] using written.symm⟩
  | skip => simp [UntypedGenericSymbolRef.freshString,UntypedGenericSymbolRef.symbolForExpr,filed] at written
  | status => simp [UntypedGenericSymbolRef.freshString,UntypedGenericSymbolRef.symbolForExpr,filed] at written
  | thrown => simp [UntypedGenericSymbolRef.freshString,UntypedGenericSymbolRef.symbolForExpr,filed] at written

abbrev Cache := UntypedGenericSymbolRef → Option Str

-- All that a successful or failed lookup does to the cache.
def fill (gs : GlobalState) (gemMap : GemMapping) (loc : Option Loc) (cache : Cache)
    (symRef : UntypedGenericSymbolRef) : Cache :=
  Function.update cache symRef ((cache symRef).or (symRef.freshString gs gemMap loc))

def fillAll (gs : GlobalState) (gemMap : GemMapping) (cache : Cache) (symRefs : List UntypedGenericSymbolRef) : Cache :=
  symRefs.foldl (fill gs gemMap none) cache

theorem fill_self (gs : GlobalState) (gemMap : GemMapping) (loc : Option Loc) (cache : Cache)
    (symRef : UntypedGenericSymbolRef) :
    fill gs gemMap loc cache symRef symRef = (cache symRef).or (symRef.freshString gs gemMap loc) := by
  simp [fill]

theorem fill_other (gs : GlobalState) (gemMap : GemMapping) (loc : Option Loc) (cache : Cache)
    (apart : s ≠ t) : fill gs gemMap loc cache t s = cache s := by
  simp [fill,apart]

theorem fill_cached (gs : GlobalState) (gemMap : GemMapping) (loc : Option Loc) (cache : Cache)
    (hit : cache s = some text) (t : UntypedGenericSymbolRef) : fill gs gemMap loc cache t s = some text := by
  by_cases same : s = t
  · subst t
    simp [fill_self,hit]
  · rw [fill_other gs gemMap loc cache same,hit]

theorem fillAll_cached (gs : GlobalState) (gemMap : GemMapping) (symRefs : List UntypedGenericSymbolRef)
    (cache : Cache) (hit : cache s = some text) : fillAll gs gemMap cache symRefs s = some text := by
  induction symRefs generalizing cache with
  | nil => exact hit
  | cons t symRefs ih => exact ih _ (fill_cached gs gemMap none cache hit t)

-- After a walk over some symbols, an entry is the old one or, where the walk
-- met the symbol, the spelling of the symbol table.
theorem fillAll_eq (gs : GlobalState) (gemMap : GemMapping) (symRefs : List UntypedGenericSymbolRef) (cache : Cache)
    (s : UntypedGenericSymbolRef) : fillAll gs gemMap cache symRefs s =
      if s ∈ symRefs then (cache s).or (s.freshString gs gemMap none) else cache s := by
  induction symRefs generalizing cache with
  | nil => rfl
  | cons t symRefs ih =>
    have step : fillAll gs gemMap cache (t :: symRefs) = fillAll gs gemMap (fill gs gemMap none cache t) symRefs := rfl
    rw [step,ih]
    by_cases same : s = t
    · subst t
      simp [fill_self,Option.or_assoc]
    · simp [fill_other gs gemMap none cache same,same]

-- A cached symbol has descriptors: the emitter rejects one that has none.
def Described (gs : GlobalState) (cache : Cache) : Prop :=
  ∀ s text, cache s = some text → (s.descriptorText gs).isSome

theorem fill_described (gs : GlobalState) (gemMap : GemMapping) (loc : Option Loc) (cache : Cache)
    (t : UntypedGenericSymbolRef) (described : Described gs cache) : Described gs (fill gs gemMap loc cache t) := by
  intro s text hit
  by_cases same : s = t
  · subst t
    rw [fill_self] at hit
    cases cached : cache s with
    | some text => exact described s text cached
    | none =>
      rw [cached,Option.none_or] at hit
      obtain ⟨_,tail,_,described,_⟩ := freshString_some hit
      simp [described]
  · rw [fill_other gs gemMap loc cache same] at hit
    exact described s text hit

theorem fillAll_described (gs : GlobalState) (gemMap : GemMapping) (symRefs : List UntypedGenericSymbolRef)
    (cache : Cache) (described : Described gs cache) : Described gs (fillAll gs gemMap cache symRefs) := by
  induction symRefs generalizing cache with
  | nil => exact described
  | cons t symRefs ih => exact ih _ (fill_described gs gemMap none cache t described)

namespace SCIPState

def withCache (state : SCIPState) (cache : Cache) : SCIPState := { state with symbolStringCache := cache }

@[simp] theorem withCache_cache (state : SCIPState) (cache : Cache) :
    (state.withCache cache).symbolStringCache = cache := rfl
@[simp] theorem withCache_gemMap (state : SCIPState) (cache : Cache) :
    (state.withCache cache).gemMap = state.gemMap := rfl
@[simp] theorem withCache_relationshipsMap (state : SCIPState) (cache : Cache) :
    (state.withCache cache).relationshipsMap = state.relationshipsMap := rfl
@[simp] theorem withCache_emittedSymbols (state : SCIPState) (cache : Cache) :
    (state.withCache cache).emittedSymbols = state.emittedSymbols := rfl
@[simp] theorem withCache_symbolMap (state : SCIPState) (cache : Cache) :
    (state.withCache cache).symbolMap = state.symbolMap := rfl
@[simp] theorem withCache_occurrenceMap (state : SCIPState) (cache : Cache) :
    (state.withCache cache).occurrenceMap = state.occurrenceMap := rfl
@[simp] theorem withCache_symbolOccurrenceCache (state : SCIPState) (cache : Cache) :
    (state.withCache cache).symbolOccurrenceCache = state.symbolOccurrenceCache := rfl
@[simp] theorem withCache_potentialRefOnlySymbols (state : SCIPState) (cache : Cache) :
    (state.withCache cache).potentialRefOnlySymbols = state.potentialRefOnlySymbols := rfl
@[simp] theorem withCache_withCache (state : SCIPState) (cache cache' : Cache) :
    (state.withCache cache).withCache cache' = state.withCache cache' := rfl
@[simp] theorem withCache_same (state : SCIPState) : state.withCache state.symbolStringCache = state := rfl

theorem saveSymbolString_cached (gs : GlobalState) (state : SCIPState) (symbol : Option Symbol) (output : Str)
    (hit : state.symbolStringCache s = some text) :
    state.saveSymbolString gs s symbol output = (state,.ok (),text) := by
  simp [saveSymbolString,hit]

-- The two ways a caller asks: with a symbol of its own, or for the symbol table's.
structure Asked (gs : GlobalState) (state : SCIPState) (s : UntypedGenericSymbolRef) (symbol : Option Symbol)
    (loc : Option Loc) : Prop where
  own : ∀ given, symbol = some given → s.symbolForExpr gs state.gemMap loc = .ok given
  table : symbol = none → loc = none

theorem asked_table (gs : GlobalState) (state : SCIPState) (s : UntypedGenericSymbolRef) :
    Asked gs state s none none := ⟨by simp,by simp⟩

theorem asked_own (gs : GlobalState) (state : SCIPState) (s : UntypedGenericSymbolRef)
    (known : s.symbolForExpr gs state.gemMap loc = .ok symbol) : Asked gs state s (some symbol) loc :=
  ⟨by intro given same; rw [known,Option.some.inj same],by simp⟩

theorem saveSymbolString_ok (gs : GlobalState) (state : SCIPState) (asked : Asked gs state s symbol loc)
    (found : fill gs state.gemMap loc state.symbolStringCache s s = some text) :
    state.saveSymbolString gs s symbol [] =
      (state.withCache (fill gs state.gemMap loc state.symbolStringCache s),.ok (),text) := by
  rw [fill_self] at found
  cases cached : state.symbolStringCache s with
  | some old =>
    rw [cached,Option.some_or] at found
    have kept : fill gs state.gemMap loc state.symbolStringCache s = state.symbolStringCache := by
      simp only [fill,cached,Option.some_or]
      rw [← cached,Function.update_eq_self]
    rw [saveSymbolString_cached gs state symbol [] cached,kept,withCache_same,Option.some.inj found]
  | none =>
    rw [cached,Option.none_or] at found
    have entered : fill gs state.gemMap loc state.symbolStringCache s =
        Function.update state.symbolStringCache s (some text) := by simp [fill,cached,found]
    rw [entered]
    unfold UntypedGenericSymbolRef.freshString at found
    cases computed : s.symbolForExpr gs state.gemMap loc with
    | skip => simp [computed] at found
    | status => simp [computed] at found
    | thrown => simp [computed] at found
    | ok own =>
      simp only [computed] at found
      have emitted : emitSymbolString own [] = .ok text := by
        cases emitted : emitSymbolString own [] <;> simp_all [Except.toOption]
      cases symbol with
      | none =>
        have := asked.table rfl
        subst loc
        simp [saveSymbolString,cached,computed,emitted,withCache]
      | some given =>
        have := asked.own given rfl
        rw [computed] at this
        cases this
        simp [saveSymbolString,cached,emitted,withCache]

theorem saveSymbolString_fails (gs : GlobalState) (state : SCIPState) (asked : Asked gs state s symbol loc)
    (missing : fill gs state.gemMap loc state.symbolStringCache s s = none) :
    (state.saveSymbolString gs s symbol []).1 = state ∧
      ∀ done, (state.saveSymbolString gs s symbol []).2.1 ≠ .ok done := by
  rw [fill_self,Option.or_eq_none_iff] at missing
  obtain ⟨cached,fresh⟩ := missing
  unfold UntypedGenericSymbolRef.freshString at fresh
  have given (own : Symbol) (computed : s.symbolForExpr gs state.gemMap loc = .ok own) :
      ∃ message, emitSymbolString own [] = .error message := by
    simp only [computed] at fresh
    cases emitted : emitSymbolString own [] with
    | ok text => simp [emitted,Except.toOption] at fresh
    | error message => exact ⟨message,rfl⟩
  cases symbol with
  | some own =>
    obtain ⟨message,failed⟩ := given own (asked.own own rfl)
    simp [saveSymbolString,cached,failed]
  | none =>
    have := asked.table rfl
    subst loc
    cases computed : s.symbolForExpr gs state.gemMap none with
    | skip => simp [saveSymbolString,cached,computed]
    | status => simp [saveSymbolString,cached,computed]
    | thrown => simp [saveSymbolString,cached,computed]
    | ok own =>
      obtain ⟨message,failed⟩ := given own computed
      simp [saveSymbolString,cached,computed,failed]

-- Whatever the outcome, the state changes by filling the cache.
theorem saveSymbolString_state (gs : GlobalState) (state : SCIPState) (asked : Asked gs state s symbol loc) :
    (state.saveSymbolString gs s symbol []).1 =
      state.withCache (fill gs state.gemMap loc state.symbolStringCache s) := by
  cases found : fill gs state.gemMap loc state.symbolStringCache s s with
  | some text => rw [saveSymbolString_ok gs state asked found]
  | none =>
    have kept : fill gs state.gemMap loc state.symbolStringCache s = state.symbolStringCache := by
      have missing := found
      rw [fill_self] at missing
      have cached := (Option.or_eq_none_iff.mp missing).1
      simp only [fill,missing]
      rw [← cached,Function.update_eq_self]
    rw [(saveSymbolString_fails gs state asked found).1,kept,withCache_same]

-- With the symbol at hand no gem is looked up.
theorem saveSymbolString_given (gs : GlobalState) (state : SCIPState) (s : UntypedGenericSymbolRef)
    (symbol : Symbol) (output : Str) :
    (state.saveSymbolString gs s (some symbol) output).2.1.toStatus.isThrown = false := by
  unfold saveSymbolString
  cases state.symbolStringCache s with
  | some text => rfl
  | none => cases emitted : emitSymbolString symbol output <;> simp [emitted,Result.toStatus,Status.isThrown]

theorem lookupThrown_isSome (gs : GlobalState) (state : SCIPState) (s : UntypedGenericSymbolRef) :
    (state.lookupThrown gs s).isSome ↔ state.symbolStringCache s = none ∧ s.Raises gs state.gemMap none := by
  unfold lookupThrown saveSymbolString UntypedGenericSymbolRef.Raises
  cases cached : state.symbolStringCache s with
  | some text => simp
  | none =>
    simp only [UntypedGenericSymbolRef.symbolForExpr]
    cases filed : s.owningGem gs state.gemMap none with
    | skip => simp
    | status => simp
    | thrown => simp
    | ok gem => cases emitted : emitSymbolString ⟨some ⟨gem.name,gem.version⟩,s.descriptors gs⟩ [] <;> simp [emitted]

-- A lookup fills the cache, but never for a symbol whose own lookup raises.
theorem relationshipsThrown_isSome (gs : GlobalState) (symRefs : List UntypedGenericSymbolRef) (state : SCIPState) :
    (relationshipsThrown gs state symRefs).isSome ↔
      ∃ s ∈ symRefs, state.symbolStringCache s = none ∧ s.Raises gs state.gemMap none := by
  induction symRefs generalizing state with
  | nil => simp [relationshipsThrown]
  | cons t symRefs ih =>
    have kept (s : UntypedGenericSymbolRef) (raises : s.Raises gs state.gemMap none) :
        fill gs state.gemMap none state.symbolStringCache t s = state.symbolStringCache s := by
      by_cases same : s = t
      · subst t
        rw [fill_self,raises_unspelled raises,Option.or_none]
      · exact fill_other gs state.gemMap none _ same
    rw [relationshipsThrown,Option.isSome_or,Bool.or_eq_true,lookupThrown_isSome,ih,
      saveSymbolString_state gs state (asked_table gs state t),withCache_cache,withCache_gemMap]
    constructor
    · rintro (first | ⟨s,member,missing,raises⟩)
      · exact ⟨t,List.mem_cons_self,first⟩
      · exact ⟨s,List.mem_cons_of_mem _ member,by rwa [kept s raises] at missing,raises⟩
    · rintro ⟨s,member,missing,raises⟩
      rcases List.mem_cons.mp member with rfl | later
      · exact .inl ⟨missing,raises⟩
      · exact .inr ⟨s,later,by rwa [kept s raises],raises⟩

theorem saveRelationship_state (gs : GlobalState) (name : NameRef) (acc : SCIPState × List Relationship)
    (target : SymbolRef × Relationship) (blank : target.2.symbol = []) :
    (saveRelationship gs name acc target).1 =
      acc.1.withCache (fill gs acc.1.gemMap none acc.1.symbolStringCache ⟨target.1,name⟩) := by
  rw [← saveSymbolString_state gs acc.1 (asked_table gs acc.1 ⟨target.1,name⟩)]
  unfold saveRelationship
  rw [blank]
  split <;> simp_all

theorem saveRelationships_state (gs : GlobalState) (name : NameRef) (targets : List (SymbolRef × Relationship))
    (blank : ∀ target ∈ targets, target.2.symbol = []) (acc : SCIPState × List Relationship) :
    (targets.foldl (saveRelationship gs name) acc).1 =
      acc.1.withCache (fillAll gs acc.1.gemMap acc.1.symbolStringCache (targets.map (fun target => ⟨target.1,name⟩))) := by
  induction targets generalizing acc with
  | nil => rfl
  | cons target targets ih =>
    have first := saveRelationship_state gs name acc target (blank target (by simp))
    rw [List.foldl_cons,ih (fun t member => blank t (List.mem_cons_of_mem _ member)),first]
    simp [fillAll]

theorem parentTargets_blank (symRef : UntypedGenericSymbolRef) (result : FieldQueryResult) :
    ∀ target ∈ parentTargets symRef result, target.2.symbol = [] := by
  intro target member
  unfold parentTargets at member
  rcases List.mem_append.mp member with inherited | mixed
  · split at inherited
    · rw [List.mem_singleton.mp inherited]
    · cases inherited
  · obtain ⟨mixin,_,rfl⟩ := List.mem_map.mp mixed
    rfl

theorem saveParentRelationships_state (gs : GlobalState) (state : SCIPState) (file : FileRef)
    (symRef : UntypedGenericSymbolRef) : (state.saveParentRelationships gs file symRef).1 =
      state.withCache (fillAll gs state.gemMap state.symbolStringCache (parentsOf (state.relationshipsMap file) symRef)) := by
  unfold saveParentRelationships parentsOf
  cases state.relationshipsMap file symRef with
  | none => rfl
  | some result => exact saveRelationships_state gs symRef.name _ (parentTargets_blank symRef result) (state,[])

theorem saveAliasRelationship_state (gs : GlobalState) (state : SCIPState) (aliased : UntypedGenericSymbolRef)
    (rels : List Relationship) : (state.saveAliasRelationship gs aliased rels).1 =
      state.withCache (fillAll gs state.gemMap state.symbolStringCache [aliased]) := by
  have filled := saveSymbolString_state gs state (asked_table gs state aliased)
  unfold saveAliasRelationship
  split <;> simp_all [fillAll]

end SCIPState

end Scip
