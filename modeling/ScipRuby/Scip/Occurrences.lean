import Mathlib.Data.List.Induction
import Mathlib.Data.List.Nodup
import ScipRuby.Scip.Saves

namespace Scip

-- A worker that only meets references to symbols.
def runReferences (gs : GlobalState) (state : SCIPState) (refs : List Reference) : SCIPState :=
  refs.foldl (fun state r => (state.saveReference gs r).1) state

theorem runReferences_snoc (gs : GlobalState) (state : SCIPState) (refs : List Reference) (r : Reference) :
    runReferences gs state (refs ++ [r]) = ((runReferences gs state refs).saveReference gs r).1 := by
  simp [runReferences,List.foldl_append]

-- The parts of an occurrence that make it a duplicate of another one.
def Occurrence.face (occurrence : Occurrence) : Str × List Nat × Nat :=
  (occurrence.symbol,occurrence.range,occurrence.symbolRoles)

def NoDuplicateOccurrences (state : SCIPState) : Prop :=
  ∀ file, ((state.occurrenceMap file).map Occurrence.face).Nodup

abbrev OccurrenceKey := UntypedGenericSymbolRef × Loc × Nat

-- The occurrence a key of the deduplication cache stands for, in a given file.
def face (gs : GlobalState) (gemMap : GemMapping) (file : FileRef) (key : OccurrenceKey) : Option (Str × List Nat × Nat) :=
  if key.2.1.file = file then
    match key.1.freshString gs gemMap none,occurrenceRange gs.files key.2.1 with
    | some text,some range => some (text,range,key.2.2)
    | _,_ => none
  else none

-- The trimmed ranges and the spellings tell apart all that the untrimmed keys
-- do: no two references that both show agree in file, roles, spelling and
-- emitted range unless they are one reference to the cache.
def TrimmedApart (gs : GlobalState) (gemMap : GemMapping) (refs : List Reference) : Prop :=
  ∀ r ∈ refs, ∀ r' ∈ refs, r.hidden gs = false → r'.hidden gs = false →
    r.file = r'.file → r.symbolRoles = r'.symbolRoles →
    ∀ text, r.symRef.withoutType.freshString gs gemMap none = some text →
      r'.symRef.withoutType.freshString gs gemMap none = some text →
    ∀ range, occurrenceRange gs.files r.loc = some range → occurrenceRange gs.files r'.loc = some range →
      r.key = r'.key

-- With references only, every cached string is the symbol table's, so that
-- occurrences are a function of the keys met so far.
structure Deduplicated (gs : GlobalState) (gemMap : GemMapping) (refs : List Reference) (state : SCIPState) : Prop where
  gems : state.gemMap = gemMap
  tabled : ∀ s text, state.symbolStringCache s = some text → s.freshString gs gemMap none = some text
  distinct : state.symbolOccurrenceCache.Nodup
  met : ∀ key, key ∈ state.symbolOccurrenceCache ↔ ∃ r ∈ refs, r.hidden gs = false ∧ r.key = key
  shown : ∀ file, (state.occurrenceMap file).map Occurrence.face =
    state.symbolOccurrenceCache.reverse.filterMap (face gs gemMap file)

theorem related_deduplicated (gs : GlobalState) (gemMap : GemMapping) (relationships : FileRef → RelationshipsMap) :
    Deduplicated gs gemMap [] (SCIPState.related gemMap relationships) := by
  refine ⟨rfl,?_,List.nodup_nil,?_,fun file => rfl⟩
  · intro s text hit
    cases hit
  · intro key
    simp [SCIPState.related,SCIPState.initial]

theorem Deduplicated.fill_eq (dedup : Deduplicated gs gemMap refs state) (s : UntypedGenericSymbolRef) :
    fill gs state.gemMap none state.symbolStringCache s s = s.freshString gs gemMap none := by
  rw [fill_self,dedup.gems]
  cases cached : state.symbolStringCache s with
  | none => rfl
  | some text => rw [Option.some_or,dedup.tabled s text cached]

theorem Deduplicated.fill_tabled (dedup : Deduplicated gs gemMap refs state) (s : UntypedGenericSymbolRef) :
    ∀ t text, fill gs state.gemMap none state.symbolStringCache s t = some text →
      t.freshString gs gemMap none = some text := by
  intro t text hit
  by_cases same : t = s
  · subst t
    rwa [dedup.fill_eq] at hit
  · rw [fill_other gs state.gemMap none _ same] at hit
    exact dedup.tabled t text hit

theorem Deduplicated.skip (dedup : Deduplicated gs gemMap refs state)
    (old : r.hidden gs = true ∨ r.key ∈ state.symbolOccurrenceCache) : Deduplicated gs gemMap (refs ++ [r]) state := by
  refine ⟨dedup.gems,dedup.tabled,dedup.distinct,fun key => ?_,dedup.shown⟩
  rw [dedup.met key]
  constructor
  · rintro ⟨r',member,visible,same⟩
    exact ⟨r',by simp [member],visible,same⟩
  · rintro ⟨r',member,visible,same⟩
    rcases List.mem_append.mp member with before | last
    · exact ⟨r',before,visible,same⟩
    · rw [List.mem_singleton.mp last] at visible same
      rcases old with hidden | seen
      · rw [hidden] at visible
        cases visible
      · rw [← same]
        exact (dedup.met r.key).mp seen

theorem face_none (gs : GlobalState) (gemMap : GemMapping) (file : FileRef) (r : Reference)
    (silent : r.symRef.withoutType.freshString gs gemMap none = none ∨ occurrenceRange gs.files r.loc = none) :
    face gs gemMap file r.key = none := by
  unfold face
  split
  · rcases silent with unspelled | unranged
    · simp [Reference.key,unspelled]
    · cases spelled : r.symRef.withoutType.freshString gs gemMap none <;> simp [Reference.key,unranged,spelled]
  · rfl

-- What the first visit of a key appends to the occurrences of a file.
theorem record_shown (gs : GlobalState) (gemMap : GemMapping) (state : SCIPState) (r : Reference) (text : Str)
    (spelled : r.symRef.withoutType.freshString gs gemMap none = some text) (file : FileRef) :
    ((state.recordReference gs r text).occurrenceMap file).map Occurrence.face =
      (state.occurrenceMap file).map Occurrence.face ++ (face gs gemMap file r.key).toList := by
  obtain ⟨potential,docs,recorded,_⟩ := SCIPState.recordReference_state gs state r text
  rw [recorded]
  unfold SCIPState.saveReferenceImpl
  cases ranged : occurrenceRange gs.files r.loc with
  | none =>
    rw [face_none gs gemMap file r (.inr ranged)]
    simp only [Reference.loc] at ranged
    simp [ranged]
  | some range =>
    have place : occurrenceRange gs.files ⟨r.file,r.occLoc⟩ = some range := ranged
    simp only [place]
    by_cases same : file = r.file
    · subst file
      simp [face,append,Reference.key,Reference.loc,spelled,place,Occurrence.face]
    · have other : ¬ r.file = file := fun equal => same equal.symm
      simp [face,append,Reference.key,Reference.loc,Function.update_of_ne same,other]

theorem Deduplicated.visit (dedup : Deduplicated gs gemMap refs state) (visible : r.hidden gs = false)
    (unseen : r.key ∉ state.symbolOccurrenceCache) (state' : SCIPState) (gems : state'.gemMap = gemMap)
    (tabled : ∀ s text, state'.symbolStringCache s = some text → s.freshString gs gemMap none = some text)
    (keyed : state'.symbolOccurrenceCache = r.key :: state.symbolOccurrenceCache)
    (shown : ∀ file, (state'.occurrenceMap file).map Occurrence.face =
      (state.occurrenceMap file).map Occurrence.face ++ (face gs gemMap file r.key).toList) :
    Deduplicated gs gemMap (refs ++ [r]) state' := by
  refine ⟨gems,tabled,?_,fun key => ?_,fun file => ?_⟩
  · rw [keyed]
    exact List.nodup_cons.mpr ⟨unseen,dedup.distinct⟩
  · rw [keyed,List.mem_cons,dedup.met key]
    constructor
    · rintro (rfl | ⟨r',member,facts⟩)
      · exact ⟨r,by simp,visible,rfl⟩
      · exact ⟨r',by simp [member],facts⟩
    · rintro ⟨r',member,visible',same⟩
      rcases List.mem_append.mp member with before | last
      · exact .inr ⟨r',before,visible',same⟩
      · rw [List.mem_singleton.mp last] at same
        exact .inl same.symm
  · rw [shown,keyed,dedup.shown,List.reverse_cons,List.filterMap_append]
    cases met : face gs gemMap file r.key <;> simp [met]

theorem saveReference_deduplicated (r : Reference) (dedup : Deduplicated gs gemMap refs state) :
    Deduplicated gs gemMap (refs ++ [r]) (state.saveReference gs r).1 := by
  by_cases hidden : r.hidden gs
  · rw [SCIPState.saveReference_hidden gs state r hidden]
    exact dedup.skip (.inl hidden)
  · by_cases seen : r.key ∈ state.symbolOccurrenceCache
    · rw [SCIPState.saveReference_repeated gs state r seen]
      exact dedup.skip (.inr seen)
    · have visible : r.hidden gs = false := by simpa using hidden
      rw [SCIPState.saveReference_new gs state r visible seen,dedup.fill_eq]
      cases spelled : r.symRef.withoutType.freshString gs gemMap none with
      | none =>
        refine dedup.visit visible seen _ dedup.gems dedup.tabled rfl fun file => ?_
        rw [face_none gs gemMap file r (.inl spelled)]
        simp [SCIPState.withKey]
      | some text =>
        simp only
        have appended := record_shown gs gemMap ((state.withKey r.key).withCache
          (fill gs state.gemMap none state.symbolStringCache r.symRef.withoutType)) r text spelled
        obtain ⟨potential,docs,recorded,_⟩ := SCIPState.recordReference_state gs ((state.withKey r.key).withCache
          (fill gs state.gemMap none state.symbolStringCache r.symRef.withoutType)) r text
        rw [recorded] at appended ⊢
        have kept := SCIPState.saveReferenceImpl_keeps gs { (state.withKey r.key).withCache
          (fill gs state.gemMap none state.symbolStringCache r.symRef.withoutType) with
            potentialRefOnlySymbols := potential } r.file text docs r.occLoc r.symbolRoles
        refine dedup.visit visible seen _ (kept.gemMap.trans dedup.gems) ?_ kept.symbolOccurrenceCache appended
        rw [kept.symbolStringCache]
        exact dedup.fill_tabled _

theorem runReferences_deduplicated (gs : GlobalState) (gemMap : GemMapping)
    (relationships : FileRef → RelationshipsMap) (refs : List Reference) :
    Deduplicated gs gemMap refs (runReferences gs (SCIPState.related gemMap relationships) refs) := by
  induction refs using List.reverseRecOn with
  | nil => exact related_deduplicated gs gemMap relationships
  | append_singleton refs r ih =>
    rw [runReferences_snoc]
    exact saveReference_deduplicated r ih

theorem face_some (gs : GlobalState) (gemMap : GemMapping) (file : FileRef) (key : OccurrenceKey) :
    face gs gemMap file key = some shape ↔ key.2.1.file = file ∧ key.2.2 = shape.2.2 ∧
      key.1.freshString gs gemMap none = some shape.1 ∧ occurrenceRange gs.files key.2.1 = some shape.2.1 := by
  obtain ⟨text,range,roles⟩ := shape
  unfold face
  by_cases here : key.2.1.file = file
  · simp only [here,if_true]
    cases key.1.freshString gs gemMap none <;> cases occurrenceRange gs.files key.2.1 <;> simp
    tauto
  · simp [here]

-- On a list without repetitions, a filterMap repeats itself exactly when it
-- sends two members to one value.
theorem nodup_filterMap_iff {α β : Type} (f : α → Option β) (keys : List α) (distinct : keys.Nodup) :
    (keys.filterMap f).Nodup ↔ ∀ a ∈ keys, ∀ b ∈ keys, ∀ c, f a = some c → f b = some c → a = b := by
  constructor
  · intro nodup a inA b inB c left right
    by_contra apart
    obtain ⟨front,back,split⟩ := List.append_of_mem inA
    have other : b ∈ front ++ back := by
      rw [split] at inB
      rcases List.mem_append.mp inB with before | after
      · exact List.mem_append_left _ before
      · exact List.mem_append_right _ ((List.mem_cons.mp after).resolve_left (fun same => apart same.symm))
    rw [split,List.filterMap_append,List.filterMap_cons_some left] at nodup
    have gone := (List.nodup_middle.mp nodup).notMem
    rw [← List.filterMap_append] at gone
    exact gone (List.mem_filterMap.mpr ⟨b,other,right⟩)
  · intro injective
    rw [List.Nodup,List.pairwise_filterMap]
    refine distinct.imp_of_mem ?_
    intro a b inA inB apart c left c' right same
    subst c'
    exact apart (injective a inA b inB c left right)

theorem noDuplicateOccurrences_iff (gs : GlobalState) (gemMap : GemMapping)
    (relationships : FileRef → RelationshipsMap) (refs : List Reference) :
    NoDuplicateOccurrences (runReferences gs (SCIPState.related gemMap relationships) refs) ↔
      TrimmedApart gs gemMap refs := by
  have dedup := runReferences_deduplicated gs gemMap relationships refs
  have listed (file : FileRef) := nodup_filterMap_iff (face gs gemMap file) _ (List.nodup_reverse.mpr dedup.distinct)
  unfold NoDuplicateOccurrences
  simp only [dedup.shown,listed,List.mem_reverse,dedup.met,face_some]
  constructor
  · intro apart r member r' member' visible visible' files roles text spelled spelled' range ranged ranged'
    exact apart r.file r.key ⟨r,member,visible,rfl⟩ r'.key ⟨r',member',visible',rfl⟩ (text,range,r.symbolRoles)
      ⟨rfl,rfl,spelled,ranged⟩ ⟨files.symm,roles.symm,spelled',ranged'⟩
  · rintro apart file _ ⟨r,member,visible,rfl⟩ _ ⟨r',member',visible',rfl⟩ ⟨text,range,roles⟩
      ⟨here,role,spelled,ranged⟩ ⟨here',role',spelled',ranged'⟩
    exact apart r member r' member' visible visible' (Eq.trans here here'.symm) (Eq.trans role role'.symm)
      text spelled spelled' range ranged ranged'

-- The class B, once read as A::B and once as B: two keys, one trimmed range.
theorem duplicateOccurrences_trimmed : ¬ NoDuplicateOccurrences
    (runReferences sampleTable (SCIPState.initial sampleGems)
      [⟨Symbols.root,1,sampleClass,none,⟨0,4,by decide⟩,0⟩,⟨Symbols.root,1,sampleClass,none,⟨3,4,by decide⟩,0⟩]) := by
  intro distinct
  exact absurd (distinct 1) (by decide)

end Scip
