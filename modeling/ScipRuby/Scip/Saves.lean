import ScipRuby.Scip.SymbolCache

namespace Scip

-- The string a definition is filed under when its symbol is not cached yet.
def Definition.spelled (gs : GlobalState) (gemMap : GemMapping) (d : Definition) : Option Str :=
  if (d.occLoc gs).usable then d.symRef.withoutType.freshString gs gemMap (some (d.occLoc gs)) else none

def Reference.key (r : Reference) : UntypedGenericSymbolRef × Loc × Nat := (r.symRef.withoutType,r.loc,r.symbolRoles)

namespace SCIPState

-- What the two Impl functions leave alone: everything but the output maps.
structure Keeps (state state' : SCIPState) : Prop where
  symbolStringCache : state'.symbolStringCache = state.symbolStringCache
  symbolOccurrenceCache : state'.symbolOccurrenceCache = state.symbolOccurrenceCache
  potentialRefOnlySymbols : state'.potentialRefOnlySymbols = state.potentialRefOnlySymbols
  gemMap : state'.gemMap = state.gemMap
  emittedSymbols : state'.emittedSymbols = state.emittedSymbols
  relationshipsMap : state'.relationshipsMap = state.relationshipsMap

theorem Keeps.refl (state : SCIPState) : Keeps state state := ⟨rfl,rfl,rfl,rfl,rfl,rfl⟩

theorem Keeps.trans (first : Keeps state state') (second : Keeps state' state'') : Keeps state state'' :=
  ⟨second.symbolStringCache.trans first.symbolStringCache,
    second.symbolOccurrenceCache.trans first.symbolOccurrenceCache,
    second.potentialRefOnlySymbols.trans first.potentialRefOnlySymbols,second.gemMap.trans first.gemMap,
    second.emittedSymbols.trans first.emittedSymbols,second.relationshipsMap.trans first.relationshipsMap⟩

theorem saveSymbolInfo_keeps (gs : GlobalState) (state : SCIPState) (file : FileRef) (text : Str) (docs : List Str)
    (rels : List Relationship) : Keeps state (state.saveSymbolInfo gs file text docs rels).1 := by
  unfold saveSymbolInfo
  split <;> exact ⟨rfl,rfl,rfl,rfl,rfl,rfl⟩

theorem saveSymbolInfo_occurrenceMap (gs : GlobalState) (state : SCIPState) (file : FileRef) (text : Str)
    (docs : List Str) (rels : List Relationship) :
    (state.saveSymbolInfo gs file text docs rels).1.occurrenceMap = state.occurrenceMap := by
  unfold saveSymbolInfo
  split <;> rfl

theorem saveDefinitionImpl_keeps (gs : GlobalState) (state : SCIPState) (file : FileRef) (text : Str) (occLoc : Loc)
    (docs : List Str) (rels : List Relationship) (enclosingLoc : Option Loc) :
    Keeps state (state.saveDefinitionImpl gs file text occLoc docs rels enclosingLoc).1 := by
  obtain ⟨a,b,c,d,e,f⟩ := saveSymbolInfo_keeps gs state file text docs rels
  unfold saveDefinitionImpl
  split
  · exact Keeps.refl state
  · split
    · exact Keeps.refl state
    · exact ⟨a,b,c,d,e,f⟩

theorem saveDefinitionImpl_symbolMap (gs : GlobalState) (state : SCIPState) (file : FileRef) (text : Str) (occLoc : Loc)
    (docs : List Str) (rels : List Relationship) (enclosingLoc : Option Loc) :
    (state.saveDefinitionImpl gs file text occLoc docs rels enclosingLoc).1.symbolMap =
      if occLoc.usable ∧ (occurrenceRange gs.files occLoc).isSome
      then (state.saveSymbolInfo gs file text docs rels).1.symbolMap else state.symbolMap := by
  unfold saveDefinitionImpl
  cases occLoc.usable <;> cases occurrenceRange gs.files occLoc <;> simp

theorem saveDefinitionImpl_occurrenceMap (gs : GlobalState) (state : SCIPState) (file : FileRef) (text : Str)
    (occLoc : Loc) (docs : List Str) (rels : List Relationship) (enclosingLoc : Option Loc)
    (usable : occLoc.usable = true) (ranged : occurrenceRange gs.files occLoc = some range) :
    ∃ enclosing override,(state.saveDefinitionImpl gs file text occLoc docs rels enclosingLoc).1.occurrenceMap =
      append state.occurrenceMap file ⟨text,definitionRole,range,enclosing,override⟩ := by
  unfold saveDefinitionImpl
  simp only [usable,ranged,Bool.not_true,Bool.false_eq_true,if_false,saveSymbolInfo_occurrenceMap]
  exact ⟨_,_,rfl⟩

theorem saveDefinitionImpl_unranged (gs : GlobalState) (state : SCIPState) (file : FileRef) (text : Str)
    (occLoc : Loc) (docs : List Str) (rels : List Relationship) (enclosingLoc : Option Loc)
    (unranged : occurrenceRange gs.files occLoc = none) :
    (state.saveDefinitionImpl gs file text occLoc docs rels enclosingLoc).1 = state := by
  unfold saveDefinitionImpl
  rw [unranged]
  split <;> rfl

theorem saveReferenceImpl_keeps (gs : GlobalState) (state : SCIPState) (file : FileRef) (text : Str)
    (docs : List Str) (offsets : LocOffsets) (roles : Nat) :
    Keeps state (state.saveReferenceImpl gs file text docs offsets roles) := by
  unfold saveReferenceImpl
  split <;> exact ⟨rfl,rfl,rfl,rfl,rfl,rfl⟩

theorem saveReferenceImpl_symbolMap (gs : GlobalState) (state : SCIPState) (file : FileRef) (text : Str)
    (docs : List Str) (offsets : LocOffsets) (roles : Nat) :
    (state.saveReferenceImpl gs file text docs offsets roles).symbolMap = state.symbolMap := by
  unfold saveReferenceImpl
  split <;> rfl

-- A cached symbol has descriptors, so with its gem known it can be spelled.
theorem unspelled_missing (gs : GlobalState) (state : SCIPState) (d : Definition)
    (described : Described gs state.symbolStringCache) (usable : (d.occLoc gs).usable = true)
    (unspelled : d.spelled gs state.gemMap = none)
    (known : d.symRef.withoutType.symbolForExpr gs state.gemMap (some (d.occLoc gs)) = .ok symbol) :
    fill gs state.gemMap (some (d.occLoc gs)) state.symbolStringCache d.symRef.withoutType
      d.symRef.withoutType = none := by
  rw [Definition.spelled,if_pos usable] at unspelled
  rw [fill_self,unspelled,Option.or_none]
  cases cached : state.symbolStringCache d.symRef.withoutType with
  | none => rfl
  | some text =>
    exfalso
    obtain ⟨tail,tailed⟩ := Option.isSome_iff_exists.mp (described _ _ cached)
    cases filed : d.symRef.withoutType.owningGem gs state.gemMap (some (d.occLoc gs)) with
    | ok gem =>
      rw [freshString_split gs state.gemMap _ _ filed,tailed] at unspelled
      cases unspelled
    | skip => simp [UntypedGenericSymbolRef.symbolForExpr,filed] at known
    | status => simp [UntypedGenericSymbolRef.symbolForExpr,filed] at known
    | thrown => simp [UntypedGenericSymbolRef.symbolForExpr,filed] at known

-- saveDefinition, read off as one of two outcomes.
theorem saveDefinition_skips (gs : GlobalState) (state : SCIPState) (d : Definition)
    (described : Described gs state.symbolStringCache) (unspelled : d.spelled gs state.gemMap = none) :
    (state.saveDefinition gs d).1 = state := by
  unfold saveDefinition
  split
  · rfl
  · rename_i usable
    split
    · rfl
    · rfl
    · rfl
    · rename_i symbol known
      obtain ⟨same,failed⟩ := saveSymbolString_fails gs state (asked_own gs state d.symRef.withoutType known)
        (unspelled_missing gs state d described (by simpa using usable) unspelled known)
      split
      · rename_i saved
        rw [saved] at failed
        exact absurd rfl (failed _)
      · rename_i saved
        rw [saved] at same
        exact same

-- The cache that a definition leaves behind.
def definedCache (gs : GlobalState) (state : SCIPState) (d : Definition) : Cache :=
  fillAll gs state.gemMap
    (fill gs state.gemMap (some (d.occLoc gs)) state.symbolStringCache d.symRef.withoutType)
    (d.names state.relationshipsMap)

theorem recordDefinition_state (gs : GlobalState) (state : SCIPState) (d : Definition) (text : Str) :
    ∃ docs rels,(state.recordDefinition gs d text).1 =
      ((state.withCache (fillAll gs state.gemMap state.symbolStringCache (d.names state.relationshipsMap))).saveDefinitionImpl
        gs d.file text (d.occLoc gs) docs rels d.enclosingLoc).1 := by
  have parents := saveParentRelationships_state gs state d.file d.symRef.withoutType
  unfold recordDefinition Definition.names
  generalize state.saveParentRelationships gs d.file d.symRef.withoutType = named at parents
  obtain ⟨named,rels⟩ := named
  simp only at parents
  subst named
  cases d.aliasedSymbol with
  | none =>
    refine ⟨d.symRef.saveDocStrings gs d.symRef.definitionType (d.occLoc gs),rels,?_⟩
    simp
  | some aliased =>
    have aliasing := saveAliasRelationship_state gs (state.withCache (fillAll gs state.gemMap state.symbolStringCache
      (parentsOf (state.relationshipsMap d.file) d.symRef.withoutType))) aliased rels
    simp only
    generalize saveAliasRelationship gs _ aliased rels = both at aliasing
    obtain ⟨both,rels'⟩ := both
    simp only at aliasing
    subst both
    refine ⟨d.symRef.saveDocStrings gs d.symRef.definitionType (d.occLoc gs),rels',?_⟩
    simp [fillAll,List.foldl_append]

theorem saveDefinition_works (gs : GlobalState) (state : SCIPState) (d : Definition)
    (spelled : d.spelled gs state.gemMap = some text) :
    ∃ docs rels,(state.saveDefinition gs d).1 =
      ((state.withCache (definedCache gs state d)).saveDefinitionImpl gs d.file
        ((state.symbolStringCache d.symRef.withoutType).getD text) (d.occLoc gs) docs rels d.enclosingLoc).1 := by
  unfold Definition.spelled at spelled
  split at spelled
  case isFalse => cases spelled
  rename_i usable
  obtain ⟨gem,tail,filed,_,_⟩ := freshString_some spelled
  have known : d.symRef.withoutType.symbolForExpr gs state.gemMap (some (d.occLoc gs)) =
      .ok ⟨some ⟨gem.name,gem.version⟩,d.symRef.withoutType.descriptors gs⟩ := by
    simp [UntypedGenericSymbolRef.symbolForExpr,filed]
  have found : fill gs state.gemMap (some (d.occLoc gs)) state.symbolStringCache d.symRef.withoutType
      d.symRef.withoutType = some ((state.symbolStringCache d.symRef.withoutType).getD text) := by
    rw [fill_self,spelled]
    cases state.symbolStringCache d.symRef.withoutType <;> rfl
  have saved := saveSymbolString_ok gs state (asked_own gs state d.symRef.withoutType known) found
  unfold saveDefinition
  rw [known]
  simp only [usable,Bool.not_true,Bool.false_eq_true,if_false,saved]
  exact recordDefinition_state gs _ d _

theorem recordDefinition_thrown (gs : GlobalState) (state : SCIPState) (d : Definition) (text : Str) :
    (state.recordDefinition gs d text).2.isThrown = true ↔
      ∃ s ∈ d.names state.relationshipsMap, state.symbolStringCache s = none ∧ s.Raises gs state.gemMap none := by
  rw [← relationshipsThrown_isSome]
  have quiet (state : SCIPState) (rels : List Relationship) (docs : List Str) :
      (state.saveDefinitionImpl gs d.file text (d.occLoc gs) docs rels d.enclosingLoc).2.isThrown = false := by
    unfold saveDefinitionImpl
    split
    · rfl
    · split <;> rfl
  unfold recordDefinition
  cases relationshipsThrown gs state (d.names state.relationshipsMap) with
  | none => simp [quiet]
  | some what => simp [Status.isThrown]

-- A definition raises at its own place, cached or not, or at a symbol it is related to.
theorem saveDefinition_thrown (gs : GlobalState) (state : SCIPState) (d : Definition)
    (described : Described gs state.symbolStringCache) : (state.saveDefinition gs d).2.isThrown = true ↔
      ((d.occLoc gs).usable = true ∧ d.symRef.withoutType.Raises gs state.gemMap (some (d.occLoc gs))) ∨
      ((d.spelled gs state.gemMap).isSome ∧ ∃ s ∈ d.names state.relationshipsMap, d.symRef.withoutType ≠ s ∧
        state.symbolStringCache s = none ∧ s.Raises gs state.gemMap none) := by
  by_cases usable : (d.occLoc gs).usable = true
  case neg => simp [saveDefinition,Definition.spelled,usable,Status.isThrown]
  cases filed : d.symRef.withoutType.owningGem gs state.gemMap (some (d.occLoc gs)) with
  | skip =>
    simp [saveDefinition,Definition.spelled,UntypedGenericSymbolRef.symbolForExpr,
      UntypedGenericSymbolRef.freshString,UntypedGenericSymbolRef.Raises,usable,filed,Status.isThrown]
  | status message =>
    simp [saveDefinition,Definition.spelled,UntypedGenericSymbolRef.symbolForExpr,
      UntypedGenericSymbolRef.freshString,UntypedGenericSymbolRef.Raises,usable,filed,Status.isThrown]
  | thrown what =>
    simp [saveDefinition,UntypedGenericSymbolRef.symbolForExpr,UntypedGenericSymbolRef.Raises,usable,filed,
      Status.isThrown]
  | ok gem =>
    have quiet : ¬ d.symRef.withoutType.Raises gs state.gemMap (some (d.occLoc gs)) := by
      simp [UntypedGenericSymbolRef.Raises,filed]
    have known : d.symRef.withoutType.symbolForExpr gs state.gemMap (some (d.occLoc gs)) =
        .ok ⟨some ⟨gem.name,gem.version⟩,d.symRef.withoutType.descriptors gs⟩ := by
      simp [UntypedGenericSymbolRef.symbolForExpr,filed]
    have asked := asked_own gs state d.symRef.withoutType known
    unfold saveDefinition
    simp only [usable,Bool.not_true,Bool.false_eq_true,if_false,known]
    cases spelled : d.spelled gs state.gemMap with
    | none =>
      have failed := (saveSymbolString_fails gs state asked
        (unspelled_missing gs state d described usable spelled known)).2
      have given := saveSymbolString_given gs state d.symRef.withoutType
        ⟨some ⟨gem.name,gem.version⟩,d.symRef.withoutType.descriptors gs⟩ []
      split
      · rename_i saved
        rw [saved] at failed
        exact absurd rfl (failed _)
      · rename_i saved
        rw [saved] at given
        simp [given,quiet]
    | some text =>
      have own : d.symRef.withoutType.freshString gs state.gemMap (some (d.occLoc gs)) = some text := by
        rw [← spelled,Definition.spelled,if_pos usable]
      obtain ⟨text',found⟩ : ∃ text', fill gs state.gemMap (some (d.occLoc gs)) state.symbolStringCache
          d.symRef.withoutType d.symRef.withoutType = some text' := by
        rw [fill_self,own]
        cases state.symbolStringCache d.symRef.withoutType with
        | none => exact ⟨text,rfl⟩
        | some old => exact ⟨old,rfl⟩
      simp only [saveSymbolString_ok gs state asked found,recordDefinition_thrown,withCache_cache,withCache_gemMap,
        withCache_relationshipsMap]
      simp only [quiet,and_false,false_or,Option.isSome_some,true_and]
      refine exists_congr (fun s => and_congr_right (fun _ => ?_))
      by_cases same : d.symRef.withoutType = s
      · subst same
        simp [found]
      · rw [fill_other gs state.gemMap _ _ (fun equal => same equal.symm)]
        simp [same]

theorem saveReference_hidden (gs : GlobalState) (state : SCIPState) (r : Reference) (hidden : r.hidden gs = true) :
    (state.saveReference gs r).1 = state := by
  simp [saveReference,hidden]

theorem saveReference_repeated (gs : GlobalState) (state : SCIPState) (r : Reference)
    (seen : r.key ∈ state.symbolOccurrenceCache) : (state.saveReference gs r).1 = state := by
  rw [Reference.key,GenericSymbolRef.withoutType_eq] at seen
  unfold saveReference cacheSymbolOccurrence
  simp [seen]

def withKey (state : SCIPState) (key : UntypedGenericSymbolRef × Loc × Nat) : SCIPState :=
  { state with symbolOccurrenceCache := key :: state.symbolOccurrenceCache }

theorem cacheSymbolOccurrence_new (state : SCIPState) (r : Reference)
    (unseen : r.key ∉ state.symbolOccurrenceCache) :
    state.cacheSymbolOccurrence r.loc r.symRef r.symbolRoles = (state.withKey r.key,false) := by
  rw [Reference.key,GenericSymbolRef.withoutType_eq] at unseen
  simp [cacheSymbolOccurrence,withKey,Reference.key,GenericSymbolRef.withoutType_eq,unseen]

theorem saveReference_new (gs : GlobalState) (state : SCIPState) (r : Reference) (visible : r.hidden gs = false)
    (unseen : r.key ∉ state.symbolOccurrenceCache) : (state.saveReference gs r).1 =
      match fill gs state.gemMap none state.symbolStringCache r.symRef.withoutType r.symRef.withoutType with
      | none => state.withKey r.key
      | some text => ((state.withKey r.key).withCache
          (fill gs state.gemMap none state.symbolStringCache r.symRef.withoutType)).recordReference gs r text := by
  have cached := cacheSymbolOccurrence_new state r unseen
  have asked := asked_table gs (state.withKey r.key) r.symRef.withoutType
  unfold saveReference
  simp only [visible,Bool.false_eq_true,if_false,cached]
  cases found : fill gs state.gemMap none state.symbolStringCache r.symRef.withoutType r.symRef.withoutType with
  | some text =>
    have saved := saveSymbolString_ok gs (state.withKey r.key) asked found
    simp only [saved]
    rfl
  | none =>
    obtain ⟨same,failed⟩ := saveSymbolString_fails gs (state.withKey r.key) asked found
    split
    · rename_i saved
      rw [saved] at failed
      exact absurd rfl (failed _)
    · rename_i saved
      rw [saved] at same
      exact same

-- A reference raises at its symbol, unless it repeats one that has been met.
theorem saveReference_thrown (gs : GlobalState) (state : SCIPState) (r : Reference) :
    (state.saveReference gs r).2.isThrown = true ↔ r.hidden gs = false ∧ r.key ∉ state.symbolOccurrenceCache ∧
      state.symbolStringCache r.symRef.withoutType = none ∧ r.symRef.withoutType.Raises gs state.gemMap none := by
  cases hidden : r.hidden gs with
  | true => simp [saveReference,hidden,Status.isThrown]
  | false =>
    by_cases met : r.key ∈ state.symbolOccurrenceCache
    · have repeated := met
      rw [Reference.key,GenericSymbolRef.withoutType_eq] at repeated
      simp [saveReference,cacheSymbolOccurrence,hidden,repeated,met,Status.isThrown]
    · have cached := cacheSymbolOccurrence_new state r met
      have looked := lookupThrown_isSome gs (state.withKey r.key) r.symRef.withoutType
      unfold saveReference
      simp only [hidden,Bool.false_eq_true,if_false,cached,met,not_false_eq_true,true_and]
      refine Iff.trans ?_ looked
      unfold lookupThrown
      cases (state.withKey r.key).saveSymbolString gs r.symRef.withoutType none [] with
      | mk state' rest => cases rest with
        | mk result text => cases result <;> simp [Result.toStatus,Status.isThrown]

-- A recorded reference may join the symbols that wait for a definition; apart
-- from that it only appends an occurrence.
theorem recordReference_state (gs : GlobalState) (state : SCIPState) (r : Reference) (text : Str) :
    ∃ potential docs,(state.recordReference gs r text) =
      { state with potentialRefOnlySymbols := potential }.saveReferenceImpl gs r.file text docs r.occLoc r.symbolRoles ∧
      ∀ file s, s ∈ potential file → s ∈ state.potentialRefOnlySymbols file ∨ s = r.symRef.withoutType := by
  unfold recordReference
  simp only
  split
  · refine ⟨_,_,rfl,fun file s member => ?_⟩
    by_cases same : file = r.file
    · subst file
      simpa [append] using member
    · left
      simpa [append,Function.update_of_ne same] using member
  · exact ⟨state.potentialRefOnlySymbols,_,rfl,fun _ _ member => .inl member⟩

end SCIPState

-- Two files that mention a class B, which the symbol table has in the first.
def sampleTable : GlobalState where
  files := fun file => if file = 1 then ⟨"a.rb".toList,"A::B".toList⟩ else ⟨"b.rb".toList,"A::B".toList⟩
  shortName := fun _ => ['B']
  showName := fun _ => ['B']
  showAsSymbolLiteral := fun _ => [':','B']
  staticInit := 7
  name := fun sym => sym.id
  owner := fun _ => Symbols.root
  loc := fun _ => ⟨1,⟨3,4,by decide⟩⟩
  nameLoc := fun _ => Loc.none
  parameters := fun _ => []
  superClass := fun _ => Symbols.Object
  isClass := fun _ => true
  isSingletonClass := fun _ => false
  isTypeAlias := fun _ => false
  resultType := fun _ => ⟨[]⟩
  singletonOfT := ⟨.classOrModule,18⟩
  show' := fun _ => ['B']
  showFullName := fun _ => ['B']
  prettyTypeForMethod := fun _ => []
  findDocumentation := fun _ _ => none
  escapeInvalidUtf8 := id
  depth := fun sym => if sym = Symbols.root then 0 else 1
  owned := fun sym below => by simp [below]

def sampleGems : GemMapping :=
  ⟨none,fun file => some (if file = 1 then ⟨['x'],['1']⟩ else ⟨['y'],['2']⟩)⟩

def sampleClass : GenericSymbolRef := ⟨⟨.classOrModule,100⟩,NameRef.noName,none⟩

def sampleDefinition (file : FileRef) : Definition := ⟨file,sampleClass,none,some ⟨3,4,by decide⟩,none⟩

end Scip
