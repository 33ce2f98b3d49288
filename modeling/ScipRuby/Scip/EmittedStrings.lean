import Mathlib.Data.List.Induction
import ScipRuby.Scip.Saves

namespace Scip

-- The saves of symbols that are not local.
inductive Save where
  | definition (d : Definition)
  | reference (r : Reference)
  deriving DecidableEq

namespace Save

def apply (gs : GlobalState) (state : SCIPState) : Save → SCIPState
  | .definition d => (state.saveDefinition gs d).1
  | .reference r => (state.saveReference gs r).1

def status (gs : GlobalState) (state : SCIPState) : Save → Status
  | .definition d => (state.saveDefinition gs d).2
  | .reference r => (state.saveReference gs r).2

def symRef : Save → UntypedGenericSymbolRef
  | .definition d => d.symRef.withoutType
  | .reference r => r.symRef.withoutType

def file : Save → FileRef
  | .definition d => d.file
  | .reference r => r.file

def loc (gs : GlobalState) : Save → Loc
  | .definition d => d.occLoc gs
  | .reference r => r.loc

-- The deduplication takes references with one key for one save.
def key : Save → Definition ⊕ (UntypedGenericSymbolRef × Loc × Nat)
  | .definition d => .inl d
  | .reference r => .inr r.key

-- The symbol of the occurrence that a save adds to its file.
def emitted (gs : GlobalState) (state : SCIPState) (save : Save) : Option Str :=
  (((save.apply gs state).occurrenceMap save.file).drop (state.occurrenceMap save.file).length).head?.map
    Occurrence.symbol

end Save

-- The symbol string that a run in this order emits for a save.
def emittedFor (gs : GlobalState) (save : Save) : SCIPState → List Save → Option Str
  | _,[] => none
  | state,next :: rest =>
    if next.key = save.key then (next.emitted gs state).or (emittedFor gs save (next.apply gs state) rest)
    else emittedFor gs save (next.apply gs state) rest

-- The saves that get done in this order. An exception ends the process, so the
-- save that raises it and those after it are not among them.
def made (gs : GlobalState) : SCIPState → List Save → List Save
  | _,[] => []
  | state,next :: rest => if (next.status gs state).isThrown then [] else next :: made gs (next.apply gs state) rest

section Filing
variable (gs : GlobalState) (gemMap : GemMapping) (relationships : FileRef → RelationshipsMap)

-- A save that defines the symbol at a place whose gem is known.
def Save.Defines (s : UntypedGenericSymbolRef) (gem : GemMetadata) : Save → Prop
  | .definition d => d.symRef.withoutType = s ∧ (d.occLoc gs).usable = true ∧
      s.owningGem gs gemMap (some (d.occLoc gs)) = .ok gem
  | .reference _ => False

-- A save that looks the symbol up without a place: a reference to it, or a
-- definition of another symbol that has it as a parent or an alias.
def Save.Names (s : UntypedGenericSymbolRef) : Save → Prop
  | .definition d => d.symRef.withoutType ≠ s ∧ (d.spelled gs gemMap).isSome ∧ s ∈ d.names relationships
  | .reference r => r.hidden gs = false ∧ r.symRef.withoutType = s

-- A save of the symbol that is to appear in the index.
def Save.Shows (s : UntypedGenericSymbolRef) (save : Save) : Prop :=
  (occurrenceRange gs.files (save.loc gs)).isSome ∧ match save with
    | .definition _ => ∃ gem, save.Defines gs gemMap s gem
    | .reference r => r.hidden gs = false ∧ r.symRef.withoutType = s

-- The string that a save would put into an empty cache for a symbol.
def Save.offer (s : UntypedGenericSymbolRef) : Save → Option Str
  | .definition d =>
    if (d.spelled gs gemMap).isNone then none
    else if d.symRef.withoutType = s then d.spelled gs gemMap
    else if s ∈ d.names relationships then s.freshString gs gemMap none
    else none
  | .reference r => if r.hidden gs = false ∧ r.symRef.withoutType = s then s.freshString gs gemMap none else none

-- A save that gets as far as asking for its symbol string.
def Save.Live : Save → Prop
  | .definition d => (d.spelled gs gemMap).isSome
  | .reference r => r.hidden gs = false

theorem offer_described (offered : Save.offer gs gemMap relationships s save = some text) :
    (s.descriptorText gs).isSome := by
  have fresh (loc : Option Loc) (written : s.freshString gs gemMap loc = some text) : (s.descriptorText gs).isSome := by
    obtain ⟨_,_,_,described,_⟩ := freshString_some written
    simp [described]
  cases save with
  | reference r =>
    simp only [Save.offer] at offered
    split at offered
    · exact fresh none offered
    · cases offered
  | definition d =>
    simp only [Save.offer] at offered
    split at offered
    · cases offered
    · split at offered
      · rename_i same
        subst same
        unfold Definition.spelled at offered
        split at offered
        · exact fresh _ offered
        · cases offered
      · split at offered
        · exact fresh none offered
        · cases offered

-- After a run the cache holds, for every symbol, the first string offered.
structure Filled (front : List Save) (state : SCIPState) : Prop where
  gems : state.gemMap = gemMap
  related : state.relationshipsMap = relationships
  cached : ∀ s, state.symbolStringCache s = front.findSome? (Save.offer gs gemMap relationships s)
  seen : ∀ key, key ∈ state.symbolOccurrenceCache ↔ ∃ r, .reference r ∈ front ∧ r.hidden gs = false ∧ r.key = key

end Filing

theorem related_filled (gs : GlobalState) (gemMap : GemMapping) (relationships : FileRef → RelationshipsMap) :
    Filled gs gemMap relationships [] (SCIPState.related gemMap relationships) :=
  ⟨rfl,rfl,fun _ => rfl,fun key => by simp [SCIPState.related,SCIPState.initial]⟩

section Run
variable {gs : GlobalState} {gemMap : GemMapping} {relationships : FileRef → RelationshipsMap}
variable {front : List Save} {state : SCIPState}

theorem Filled.described (filled : Filled gs gemMap relationships front state) :
    Described gs state.symbolStringCache := by
  intro s text hit
  rw [filled.cached] at hit
  obtain ⟨save,_,offered⟩ := List.exists_of_findSome?_eq_some hit
  exact offer_described gs gemMap relationships offered

theorem reference_offer_key (same : r.key = r'.key) (visible : r.hidden gs = false) (visible' : r'.hidden gs = false)
    (s : UntypedGenericSymbolRef) :
    Save.offer gs gemMap relationships s (.reference r) = Save.offer gs gemMap relationships s (.reference r') := by
  have symRefs : r.symRef.withoutType = r'.symRef.withoutType := congrArg Prod.fst same
  simp [Save.offer,visible,visible',symRefs]

theorem findSome?_snoc {α β : Type} (f : α → Option β) (front : List α) (last : α) :
    (front ++ [last]).findSome? f = (front.findSome? f).or (f last) := by
  rw [List.findSome?_append,List.findSome?_singleton]

theorem Filled.skip (filled : Filled gs gemMap relationships front state) (save : Save)
    (silent : ∀ s, (front.findSome? (Save.offer gs gemMap relationships s)).isSome ∨
      save.offer gs gemMap relationships s = none)
    (old : ∀ r, save = .reference r → r.hidden gs = false → r.key ∈ state.symbolOccurrenceCache) :
    Filled gs gemMap relationships (front ++ [save]) state := by
  refine ⟨filled.gems,filled.related,fun s => ?_,fun key => ?_⟩
  · rw [findSome?_snoc,filled.cached]
    rcases silent s with some | none
    · obtain ⟨text,found⟩ := Option.isSome_iff_exists.mp some
      simp [found]
    · simp [none]
  · rw [filled.seen]
    constructor
    · rintro ⟨r,member,facts⟩
      exact ⟨r,by simp [member],facts⟩
    · rintro ⟨r,member,visible,same⟩
      rcases List.mem_append.mp member with before | last
      · exact ⟨r,before,visible,same⟩
      · rw [← same,← filled.seen]
        exact old r (List.mem_singleton.mp last).symm visible

theorem definition_filled (filled : Filled gs gemMap relationships front state) (d : Definition) :
    Filled gs gemMap relationships (front ++ [Save.definition d]) ((Save.definition d).apply gs state) := by
  have seen (key) : (∃ r, .reference r ∈ front ++ [Save.definition d] ∧ r.hidden gs = false ∧ r.key = key) ↔
      ∃ r, .reference r ∈ front ∧ r.hidden gs = false ∧ r.key = key := by simp
  simp only [Save.apply]
  cases spelled : d.spelled gs gemMap with
  | none =>
    rw [SCIPState.saveDefinition_skips gs state d filled.described (by rw [filled.gems,spelled])]
    exact filled.skip _ (fun s => .inr (by simp [Save.offer,spelled])) (by simp)
  | some text =>
    obtain ⟨docs,rels,saved⟩ := SCIPState.saveDefinition_works gs state d (by rw [filled.gems,spelled])
    have kept := SCIPState.saveDefinitionImpl_keeps gs (state.withCache (SCIPState.definedCache gs state d)) d.file
      ((state.symbolStringCache d.symRef.withoutType).getD text) (d.occLoc gs) docs rels d.enclosingLoc
    rw [← saved] at kept
    have own : d.symRef.withoutType.freshString gs gemMap (some (d.occLoc gs)) = some text := by
      unfold Definition.spelled at spelled
      split at spelled
      · exact spelled
      · cases spelled
    refine ⟨kept.gemMap.trans filled.gems,kept.relationshipsMap.trans filled.related,fun s => ?_,fun key => ?_⟩
    · rw [kept.symbolStringCache,SCIPState.withCache_cache,SCIPState.definedCache,fillAll_eq,filled.gems,filled.related,
        findSome?_snoc,← filled.cached]
      by_cases same : d.symRef.withoutType = s
      · subst same
        rw [fill_self,own]
        cases state.symbolStringCache d.symRef.withoutType <;> simp [Save.offer,spelled]
      · rw [fill_other gs gemMap _ _ (fun equal => same equal.symm)]
        by_cases named : s ∈ d.names relationships <;> simp [Save.offer,spelled,same,named]
    · rw [seen,kept.symbolOccurrenceCache]
      exact filled.seen key

theorem Filled.reference_seen (filled : Filled gs gemMap relationships front state) (visible : r.hidden gs = false)
    (key : UntypedGenericSymbolRef × Loc × Nat) :
    (∃ r', .reference r' ∈ front ++ [Save.reference r] ∧ r'.hidden gs = false ∧ r'.key = key) ↔
      key = r.key ∨ key ∈ state.symbolOccurrenceCache := by
  rw [filled.seen]
  constructor
  · rintro ⟨r',member,facts⟩
    rcases List.mem_append.mp member with before | last
    · exact .inr ⟨r',before,facts⟩
    · cases List.mem_singleton.mp last
      exact .inl facts.2.symm
  · rintro (rfl | ⟨r',member,facts⟩)
    · exact ⟨r,by simp,visible,rfl⟩
    · exact ⟨r',by simp [member],facts⟩

theorem Filled.reference_cached (filled : Filled gs gemMap relationships front state) (visible : r.hidden gs = false)
    (s : UntypedGenericSymbolRef) :
    (front ++ [Save.reference r]).findSome? (Save.offer gs gemMap relationships s) =
      fill gs gemMap none state.symbolStringCache r.symRef.withoutType s := by
  rw [findSome?_snoc,← filled.cached]
  by_cases same : r.symRef.withoutType = s
  · subst same
    simp [fill_self,Save.offer,visible]
  · rw [fill_other gs gemMap none _ (fun equal => same equal.symm)]
    simp [Save.offer,same]

theorem reference_filled (filled : Filled gs gemMap relationships front state) (r : Reference) :
    Filled gs gemMap relationships (front ++ [Save.reference r]) ((Save.reference r).apply gs state) := by
  simp only [Save.apply]
  cases hidden : r.hidden gs with
  | true =>
    rw [SCIPState.saveReference_hidden gs state r hidden]
    refine filled.skip _ (fun s => .inr (by simp [Save.offer,hidden])) ?_
    rintro r' same visible
    cases same
    rw [hidden] at visible
    cases visible
  | false =>
    by_cases met : r.key ∈ state.symbolOccurrenceCache
    · rw [SCIPState.saveReference_repeated gs state r met]
      refine filled.skip _ (fun s => ?_) (by rintro r' same _; cases same; exact met)
      obtain ⟨r',member,visible,same⟩ := (filled.seen r.key).mp met
      -- The earlier reference with this key has offered the same string.
      rw [← reference_offer_key same visible hidden s]
      cases offered : Save.offer gs gemMap relationships s (.reference r') with
      | none => exact .inr rfl
      | some text => exact .inl (List.findSome?_isSome_iff.mpr ⟨_,member,by simp [offered]⟩)
    · have cached := filled.reference_cached hidden
      have seen := filled.reference_seen hidden
      rw [SCIPState.saveReference_new gs state r hidden met,filled.gems]
      split
      · rename_i missing
        refine ⟨filled.gems,filled.related,fun s => ?_,fun key => ?_⟩
        · rw [cached]
          have unfilled := missing
          rw [fill_self] at unfilled
          by_cases same : s = r.symRef.withoutType
          · subst same
            rw [missing]
            exact (Option.or_eq_none_iff.mp unfilled).1
          · rw [fill_other gs gemMap none _ same]
            rfl
        · rw [seen]
          exact List.mem_cons
      · rename_i text found
        obtain ⟨potential,docs,recorded,_⟩ := SCIPState.recordReference_state gs ((state.withKey r.key).withCache
          (fill gs gemMap none state.symbolStringCache r.symRef.withoutType)) r text
        have kept := SCIPState.saveReferenceImpl_keeps gs { (state.withKey r.key).withCache
          (fill gs gemMap none state.symbolStringCache r.symRef.withoutType) with
            potentialRefOnlySymbols := potential } r.file text docs r.occLoc r.symbolRoles
        rw [recorded]
        refine ⟨kept.gemMap.trans filled.gems,kept.relationshipsMap.trans filled.related,fun s => ?_,fun key => ?_⟩
        · rw [cached,kept.symbolStringCache]
          rfl
        · rw [seen,kept.symbolOccurrenceCache]
          exact List.mem_cons

theorem apply_filled (filled : Filled gs gemMap relationships front state) (save : Save) :
    Filled gs gemMap relationships (front ++ [save]) (save.apply gs state) := by
  cases save with
  | definition d => exact definition_filled filled d
  | reference r => exact reference_filled filled r

theorem emitted_silent (save : Save) (same : (save.apply gs state).occurrenceMap = state.occurrenceMap) :
    save.emitted gs state = none := by
  simp [Save.emitted,same]

theorem emitted_appended (save : Save)
    (added : (save.apply gs state).occurrenceMap = append state.occurrenceMap save.file occurrence) :
    save.emitted gs state = some occurrence.symbol := by
  simp [Save.emitted,added,append]

-- A save that asks for its string and whose place is within a line emits the
-- first string offered for its symbol, unless it repeats a reference.
theorem definition_emitted (filled : Filled gs gemMap relationships front state) (d : Definition) :
    (Save.definition d).emitted gs state =
      if (d.spelled gs gemMap).isSome ∧ (occurrenceRange gs.files (d.occLoc gs)).isSome then
        (front ++ [Save.definition d]).findSome? (Save.offer gs gemMap relationships d.symRef.withoutType)
      else none := by
  cases spelled : d.spelled gs gemMap with
  | none =>
    refine (emitted_silent _ ?_).trans (by simp)
    rw [Save.apply,SCIPState.saveDefinition_skips gs state d filled.described (by rw [filled.gems,spelled])]
  | some text =>
    obtain ⟨docs,rels,saved⟩ := SCIPState.saveDefinition_works gs state d (by rw [filled.gems,spelled])
    have usable : (d.occLoc gs).usable = true := by
      unfold Definition.spelled at spelled
      split at spelled
      · assumption
      · cases spelled
    cases ranged : occurrenceRange gs.files (d.occLoc gs) with
    | none =>
      refine (emitted_silent _ ?_).trans (by simp)
      rw [Save.apply,saved,SCIPState.saveDefinitionImpl_unranged _ _ _ _ _ _ _ _ ranged]
      rfl
    | some range =>
      obtain ⟨enclosing,docs',added⟩ := SCIPState.saveDefinitionImpl_occurrenceMap gs
        (state.withCache (SCIPState.definedCache gs state d)) d.file
        ((state.symbolStringCache d.symRef.withoutType).getD text) (d.occLoc gs) docs rels d.enclosingLoc usable ranged
      rw [← saved] at added
      rw [emitted_appended (Save.definition d) added,findSome?_snoc,← filled.cached]
      cases state.symbolStringCache d.symRef.withoutType <;> simp [Save.offer,spelled]

theorem reference_emitted (filled : Filled gs gemMap relationships front state) (r : Reference) :
    (Save.reference r).emitted gs state =
      if r.hidden gs = false ∧ (occurrenceRange gs.files r.loc).isSome ∧ r.key ∉ state.symbolOccurrenceCache then
        (front ++ [Save.reference r]).findSome? (Save.offer gs gemMap relationships r.symRef.withoutType)
      else none := by
  cases hidden : r.hidden gs with
  | true =>
    refine (emitted_silent _ ?_).trans (by simp)
    rw [Save.apply,SCIPState.saveReference_hidden gs state r hidden]
  | false =>
    by_cases met : r.key ∈ state.symbolOccurrenceCache
    · refine (emitted_silent _ ?_).trans (by simp [met])
      rw [Save.apply,SCIPState.saveReference_repeated gs state r met]
    · have value : (front ++ [Save.reference r]).findSome? (Save.offer gs gemMap relationships r.symRef.withoutType) =
          fill gs gemMap none state.symbolStringCache r.symRef.withoutType r.symRef.withoutType := by
        rw [findSome?_snoc,← filled.cached,fill_self]
        simp [Save.offer,hidden]
      have saved := SCIPState.saveReference_new gs state r hidden met
      rw [filled.gems] at saved
      rw [value]
      cases found : fill gs gemMap none state.symbolStringCache r.symRef.withoutType r.symRef.withoutType with
      | none =>
        rw [found] at saved
        refine (emitted_silent _ ?_).trans (by simp)
        rw [Save.apply,saved]
        rfl
      | some text =>
        rw [found] at saved
        obtain ⟨potential,docs,recorded,_⟩ := SCIPState.recordReference_state gs ((state.withKey r.key).withCache
          (fill gs gemMap none state.symbolStringCache r.symRef.withoutType)) r text
        simp only [recorded,SCIPState.saveReferenceImpl] at saved
        cases ranged : occurrenceRange gs.files r.loc with
        | none =>
          have place : occurrenceRange gs.files ⟨r.file,r.occLoc⟩ = none := ranged
          refine (emitted_silent _ ?_).trans (by simp)
          rw [Save.apply,saved,place]
          rfl
        | some range =>
          have place : occurrenceRange gs.files ⟨r.file,r.occLoc⟩ = some range := ranged
          have added : ((Save.reference r).apply gs state).occurrenceMap =
              append state.occurrenceMap (Save.reference r).file
                { symbol := text,symbolRoles := r.symbolRoles,range := range
                  overrideDocumentation := docs.map gs.escapeInvalidUtf8 } := by
            rw [Save.apply,saved,place]
            rfl
          rw [emitted_appended (Save.reference r) added]
          simp [met]

theorem key_symRef {save save' : Save} (same : save.key = save'.key) : save.symRef = save'.symRef := by
  cases save <;> cases save' <;> simp only [Save.key,reduceCtorEq,Sum.inl.injEq,Sum.inr.injEq] at same
  · rw [same]
  · exact congrArg Prod.fst same

theorem key_loc {save save' : Save} (same : save.key = save'.key) : save.loc gs = save'.loc gs := by
  cases save <;> cases save' <;> simp only [Save.key,reduceCtorEq,Sum.inl.injEq,Sum.inr.injEq] at same
  · rw [same]
  · exact congrArg (fun key => key.2.1) same

theorem emitted_unranged (filled : Filled gs gemMap relationships front state) (save : Save)
    (unranged : occurrenceRange gs.files (save.loc gs) = none) : save.emitted gs state = none := by
  cases save with
  | definition d =>
    rw [definition_emitted filled]
    simp only [Save.loc] at unranged
    simp [unranged]
  | reference r =>
    rw [reference_emitted filled]
    simp only [Save.loc] at unranged
    simp [unranged]

theorem emittedFor_unranged (filled : Filled gs gemMap relationships front state) (save : Save)
    (unranged : occurrenceRange gs.files (save.loc gs) = none) (order : List Save) :
    emittedFor gs save state order = none := by
  induction order generalizing front state with
  | nil => rfl
  | cons next rest ih =>
    have later := ih (apply_filled filled next)
    unfold emittedFor
    split
    · rename_i same
      rw [emitted_unranged filled next (by rw [key_loc same,unranged]),later]
      rfl
    · exact later

-- Once a reference has been met, its repetitions emit nothing.
theorem emittedFor_met (filled : Filled gs gemMap relationships front state) (r : Reference)
    (met : r.key ∈ state.symbolOccurrenceCache) (order : List Save) :
    emittedFor gs (.reference r) state order = none := by
  induction order generalizing front state with
  | nil => rfl
  | cons next rest ih =>
    have filled' := apply_filled filled next
    have later := ih filled' (by
      obtain ⟨r',member,facts⟩ := (filled.seen r.key).mp met
      exact (filled'.seen r.key).mpr ⟨r',by simp [member],facts⟩)
    unfold emittedFor
    split
    · rename_i same
      cases next with
      | definition d => cases same
      | reference r' =>
        have keys : r'.key = r.key := Sum.inr.inj same
        rw [reference_emitted filled,keys]
        simp [met,later]
    · exact later

theorem live_emitted (filled : Filled gs gemMap relationships front state) (save : Save)
    (dead : ¬ save.Live gs gemMap) : save.emitted gs state = none := by
  cases save with
  | definition d =>
    rw [definition_emitted filled]
    simp only [Save.Live] at dead
    simp [dead]
  | reference r =>
    rw [reference_emitted filled]
    simp only [Save.Live] at dead
    simp [dead]

-- A run emits for a save what its first live representative emits.
theorem emittedFor_first (filled : Filled gs gemMap relationships front state) (save first : Save)
    (same : first.key = save.key) (live : first.Live gs gemMap)
    (ranged : (occurrenceRange gs.files (save.loc gs)).isSome) (after : List Save) :
    ∀ before, (∀ s ∈ front ++ before, s.key = save.key → ¬ s.Live gs gemMap) →
    emittedFor gs save state (before ++ first :: after) =
      (front ++ before ++ [first]).findSome? (Save.offer gs gemMap relationships save.symRef) := by
  intro before
  induction before generalizing front state with
  | nil =>
    intro unmet
    rw [List.append_nil] at unmet
    have place : (occurrenceRange gs.files (first.loc gs)).isSome := by rwa [key_loc same]
    rw [List.nil_append,List.append_nil,emittedFor,if_pos same,← key_symRef same]
    cases first with
    | definition d =>
      have value := definition_emitted filled d
      rw [if_pos ⟨live,place⟩] at value
      obtain ⟨text,spelled⟩ := Option.isSome_iff_exists.mp live
      have found : ((front ++ [Save.definition d]).findSome?
          (Save.offer gs gemMap relationships d.symRef.withoutType)).isSome := by
        rw [findSome?_snoc]
        simp [Save.offer,spelled]
      obtain ⟨text',found⟩ := Option.isSome_iff_exists.mp found
      rw [value]
      simp only [Save.symRef]
      rw [found,Option.some_or]
    | reference r =>
      have fresh : r.key ∉ state.symbolOccurrenceCache := by
        rw [filled.seen]
        rintro ⟨r',member,visible,keys⟩
        exact unmet _ member (by rw [← same]; exact congrArg Sum.inr keys) visible
      have value := reference_emitted filled r
      rw [if_pos ⟨live,place,fresh⟩] at value
      rw [value]
      cases save with
      | definition d => cases same
      | reference r' =>
        have keys : r.key = r'.key := Sum.inr.inj same
        have filled' := apply_filled filled (.reference r)
        rw [emittedFor_met filled' r' ((filled'.seen _).mpr ⟨r,by simp,live,keys⟩),Option.or_none]
        rfl
  | cons next before ih =>
    intro unmet
    have later := ih (apply_filled filled next) (by simpa [List.append_assoc] using unmet)
    rw [List.cons_append,emittedFor]
    split
    · rename_i keys
      rw [live_emitted filled next (unmet next (by simp) keys),Option.none_or,later]
      simp
    · rw [later]
      simp

theorem emittedFor_dead (filled : Filled gs gemMap relationships front state) (save : Save) (order : List Save)
    (dead : ∀ s ∈ order, s.key = save.key → ¬ s.Live gs gemMap) : emittedFor gs save state order = none := by
  induction order generalizing front state with
  | nil => rfl
  | cons next rest ih =>
    have later := ih (apply_filled filled next) (fun s member => dead s (List.mem_cons_of_mem _ member))
    unfold emittedFor
    split
    · rename_i keys
      rw [live_emitted filled next (dead next (by simp) keys),later]
      rfl
    · exact later

theorem split_first {α : Type} (p : α → Prop) (l : List α) (found : ∃ a ∈ l, p a) :
    ∃ before first after, l = before ++ first :: after ∧ p first ∧ ∀ b ∈ before, ¬ p b := by
  induction l with
  | nil => simp at found
  | cons a l ih =>
    by_cases here : p a
    · exact ⟨[],a,l,rfl,here,by simp⟩
    · obtain ⟨b,member,later⟩ := found
      have inside : b ∈ l := (List.mem_cons.mp member).resolve_left (fun same => here (same ▸ later))
      obtain ⟨before,first,after,rfl,reached,none⟩ := ih ⟨b,inside,later⟩
      exact ⟨a :: before,first,after,rfl,reached,by simpa [here] using none⟩

-- The saves that decide about a string are a prefix of the order that ends in
-- a live representative.
theorem emittedFor_prefix (filled : Filled gs gemMap relationships [] state) (save : Save) (order : List Save)
    (live : ∃ s ∈ order, s.key = save.key ∧ s.Live gs gemMap)
    (ranged : (occurrenceRange gs.files (save.loc gs)).isSome) :
    ∃ before first, before ++ [first] <+: order ∧ first.key = save.key ∧ first.Live gs gemMap ∧
      emittedFor gs save state order =
        (before ++ [first]).findSome? (Save.offer gs gemMap relationships save.symRef) := by
  obtain ⟨before,first,after,rfl,⟨same,alive⟩,dead⟩ := split_first _ order live
  have value := emittedFor_first filled save first same alive ranged after before
    (fun s member keys alive => dead s (by simpa using member) ⟨keys,alive⟩)
  exact ⟨before,first,⟨after,by simp⟩,same,alive,by simpa using value⟩

-- Nothing is emitted but by a live save with a place inside a line.
theorem emittedFor_some (filled : Filled gs gemMap relationships [] state) (save : Save) (order : List Save)
    (emits : emittedFor gs save state order = some text) :
    (∃ s ∈ order, s.key = save.key ∧ s.Live gs gemMap) ∧ (occurrenceRange gs.files (save.loc gs)).isSome := by
  constructor
  · by_contra dead
    rw [emittedFor_dead filled save order (fun s member keys alive => dead ⟨s,member,keys,alive⟩)] at emits
    cases emits
  · cases ranged : occurrenceRange gs.files (save.loc gs) with
    | some range => rfl
    | none =>
      rw [emittedFor_unranged filled save ranged] at emits
      cases emits

theorem defines_offer (described : s.descriptorText gs = some tail) (defines : Save.Defines gs gemMap s gem save) :
    save.offer gs gemMap relationships s = some (gem.heading ++ tail) := by
  cases save with
  | reference r => exact defines.elim
  | definition d =>
    obtain ⟨rfl,usable,filed⟩ := defines
    have spelled : d.spelled gs gemMap = some (gem.heading ++ tail) := by
      rw [Definition.spelled,if_pos usable,freshString_split gs gemMap _ _ filed,described]
      rfl
    simp [Save.offer,spelled]

theorem names_offer (described : s.descriptorText gs = some tail) (names : Save.Names gs gemMap relationships s save)
    (filed : s.owningGem gs gemMap none = .ok gem) :
    save.offer gs gemMap relationships s = some (gem.heading ++ tail) := by
  have fresh : s.freshString gs gemMap none = some (gem.heading ++ tail) := by
    rw [freshString_split gs gemMap _ _ filed,described]
    rfl
  cases save with
  | reference r => simp [Save.offer,names.1,names.2,fresh]
  | definition d =>
    obtain ⟨other,spelled,named⟩ := names
    obtain ⟨text,spelled⟩ := Option.isSome_iff_exists.mp spelled
    simp [Save.offer,spelled,other,named,fresh]

theorem offer_cases (described : s.descriptorText gs = some tail)
    (offered : Save.offer gs gemMap relationships s save = some text) :
    (∃ gem, save.Defines gs gemMap s gem ∧ text = gem.heading ++ tail) ∨
    (save.Names gs gemMap relationships s ∧ ∃ gem, s.owningGem gs gemMap none = .ok gem ∧ text = gem.heading ++ tail) := by
  have table (fresh : s.freshString gs gemMap none = some text) :
      ∃ gem, s.owningGem gs gemMap none = .ok gem ∧ text = gem.heading ++ tail := by
    obtain ⟨gem,tail',filed,described',written⟩ := freshString_some fresh
    rw [described] at described'
    cases described'
    exact ⟨gem,filed,written⟩
  cases save with
  | reference r =>
    simp only [Save.offer] at offered
    split at offered
    · rename_i names
      exact .inr ⟨names,table offered⟩
    · cases offered
  | definition d =>
    simp only [Save.offer] at offered
    split at offered
    · cases offered
    · rename_i spelled
      split at offered
      · rename_i same
        subst same
        unfold Definition.spelled at offered
        split at offered
        · rename_i usable
          obtain ⟨gem,tail',filed,described',written⟩ := freshString_some offered
          rw [described] at described'
          cases described'
          exact .inl ⟨gem,⟨rfl,usable,filed⟩,written⟩
        · cases offered
      · rename_i other
        split at offered
        · rename_i named
          exact .inr ⟨⟨other,by simpa [Option.isSome_iff_ne_none] using spelled,named⟩,table offered⟩
        · cases offered

theorem live_shows (live : Save.Live gs gemMap save) (ranged : (occurrenceRange gs.files (save.loc gs)).isSome) :
    save.Shows gs gemMap save.symRef := by
  refine ⟨ranged,?_⟩
  cases save with
  | reference r => exact ⟨live,rfl⟩
  | definition d =>
    obtain ⟨text,spelled⟩ := Option.isSome_iff_exists.mp live
    unfold Definition.spelled at spelled
    split at spelled
    · rename_i usable
      obtain ⟨gem,_,filed,_,_⟩ := freshString_some spelled
      exact ⟨gem,rfl,usable,filed⟩
    · cases spelled

theorem shows_live (described : (s.descriptorText gs).isSome) (shows : Save.Shows gs gemMap s save) :
    save.symRef = s ∧ save.Live gs gemMap ∧ (occurrenceRange gs.files (save.loc gs)).isSome := by
  obtain ⟨ranged,reason⟩ := shows
  cases save with
  | reference r => exact ⟨reason.2,reason.1,ranged⟩
  | definition d =>
    obtain ⟨gem,rfl,usable,filed⟩ := reason
    obtain ⟨tail,described⟩ := Option.isSome_iff_exists.mp described
    refine ⟨rfl,?_,ranged⟩
    rw [Save.Live,Definition.spelled,if_pos usable,freshString_split gs gemMap _ _ filed,described]
    rfl

end Run

end Scip
