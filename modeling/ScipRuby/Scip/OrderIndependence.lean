import ScipRuby.Scip.EmittedStrings

namespace Scip

-- Each save gets the same string in every order, and in each order all saves
-- of one symbol get the same string.
structure OrderIndependent (gs : GlobalState) (state : SCIPState) (saves : List Save) : Prop where
  perSave : ∀ order order', order.Perm saves → order'.Perm saves → ∀ save ∈ saves,
    emittedFor gs save state (made gs state order) = emittedFor gs save state (made gs state order')
  perSymbol : ∀ order, order.Perm saves → ∀ save ∈ saves, ∀ save' ∈ saves, save.symRef = save'.symRef →
    ∀ text text', emittedFor gs save state (made gs state order) = some text →
      emittedFor gs save' state (made gs state order) = some text' → text = text'

section Filing
variable (gs : GlobalState) (gemMap : GemMapping) (relationships : FileRef → RelationshipsMap)

-- The files that decide about the package of a symbol belong to gems that are
-- spelled alike: those of its definitions among themselves, and the file the
-- symbol table gives if a save looks there.
structure FiledAlike (saves : List Save) : Prop where
  defined : ∀ s, (s.descriptorText gs).isSome → ∀ shown ∈ saves, shown.Shows gs gemMap s →
    ∀ save ∈ saves, ∀ save' ∈ saves, ∀ gem gem', save.Defines gs gemMap s gem → save'.Defines gs gemMap s gem' →
      Alike gem gem'
  named : ∀ s, (s.descriptorText gs).isSome → ∀ shown ∈ saves, shown.Shows gs gemMap s →
    ∀ save ∈ saves, ∀ save' ∈ saves, ∀ gem gem', save.Names gs gemMap relationships s →
      s.owningGem gs gemMap none = .ok gem → save'.Defines gs gemMap s gem' → Alike gem gem'
  referenced : ∀ s, (s.descriptorText gs).isSome → ∀ r, .reference r ∈ saves → (Save.reference r).Shows gs gemMap s →
    ∀ save ∈ saves, ∀ gem, save.Defines gs gemMap s gem → ∃ gem', s.owningGem gs gemMap none = .ok gem'

-- A save that raises whatever has been saved before.
def Save.Raises : Save → Prop
  | .definition d => (d.occLoc gs).usable = true ∧ d.symRef.withoutType.Raises gs gemMap (some (d.occLoc gs))
  | .reference _ => False

-- A save that raises when it comes first.
def Save.Ends (save : Save) : Prop :=
  save.Raises gs gemMap ∨ ∃ s, save.Names gs gemMap relationships s ∧ s.Raises gs gemMap none

-- A save that some order gets past: where the symbol table's lookup would raise,
-- a save that can go before it has the string.
inductive Save.Passes (saves : List Save) : Save → Prop
  | after (earlier : UntypedGenericSymbolRef → Save) (member : save ∈ saves) (quiet : ¬ save.Raises gs gemMap)
      (passes : ∀ s, save.Names gs gemMap relationships s → s.Raises gs gemMap none → Passes saves (earlier s))
      (offered : ∀ s, save.Names gs gemMap relationships s → s.Raises gs gemMap none →
        ((earlier s).offer gs gemMap relationships s).isSome) : Passes saves save

-- Of the saves that get done, none has the string of a symbol that one of them shows.
def Mute (saves : List Save) : Prop :=
  ∀ s leader shown, Save.Passes gs gemMap relationships saves leader → Save.Passes gs gemMap relationships saves shown →
    shown.Shows gs gemMap s → leader.offer gs gemMap relationships s = none

end Filing

section Run
variable {gs : GlobalState} {gemMap : GemMapping} {relationships : FileRef → RelationshipsMap}
variable {front : List Save} {state : SCIPState}

section Alike
variable {saves : List Save} (alike : FiledAlike gs gemMap relationships saves)
variable (described : (UntypedGenericSymbolRef.descriptorText gs s).isSome)
include alike described

-- Where gems are spelled alike, all offers for a symbol that shows agree.
theorem FiledAlike.offers_agree {shown save save' : Save} (inside : shown ∈ saves) (shows : shown.Shows gs gemMap s)
    (member : save ∈ saves) (member' : save' ∈ saves)
    (offered : save.offer gs gemMap relationships s = some text)
    (offered' : save'.offer gs gemMap relationships s = some text') : text = text' := by
  obtain ⟨tail,tailed⟩ := Option.isSome_iff_exists.mp described
  rcases offer_cases tailed offered with ⟨gem,defines,rfl⟩ | ⟨names,gem,filed,rfl⟩ <;>
    rcases offer_cases tailed offered' with ⟨gem',defines',rfl⟩ | ⟨names',gem',filed',rfl⟩
  · have spelt := alike.defined s described shown inside shows save member save' member' gem gem' defines defines'
    rw [(heading_alike gem gem').mpr spelt]
  · have spelt := alike.named s described shown inside shows save' member' save member gem' gem names' filed' defines
    rw [(heading_alike gem' gem).mpr spelt]
  · have spelt := alike.named s described shown inside shows save member save' member' gem gem' names filed defines'
    rw [(heading_alike gem gem').mpr spelt]
  · rw [filed] at filed'
    cases filed'
    rfl

-- And a live save that shows offers its string itself, if any save does.
theorem FiledAlike.live_offers {save first : Save} (member : save ∈ saves) (inside : first ∈ saves)
    (offered : save.offer gs gemMap relationships s = some text) (own : first.symRef = s)
    (live : first.Live gs gemMap) (ranged : (occurrenceRange gs.files (first.loc gs)).isSome) :
    (first.offer gs gemMap relationships s).isSome := by
  obtain ⟨tail,tailed⟩ := Option.isSome_iff_exists.mp described
  have shows := live_shows live ranged
  rw [own] at shows
  cases first with
  | definition d =>
    obtain ⟨gem,defines⟩ := shows.2
    rw [defines_offer tailed defines]
    rfl
  | reference r =>
    have filed : ∃ gem, s.owningGem gs gemMap none = .ok gem := by
      rcases offer_cases tailed offered with ⟨gem,defines,_⟩ | ⟨_,gem,filed,_⟩
      · exact alike.referenced s described r inside shows save member gem defines
      · exact ⟨gem,filed⟩
    obtain ⟨gem,filed⟩ := filed
    have names : (Save.reference r).Names gs gemMap relationships s := ⟨live,own⟩
    rw [names_offer tailed names filed]
    rfl

end Alike

theorem FiledAlike.perSave {saves : List Save} (alike : FiledAlike gs gemMap relationships saves)
    (filled : Filled gs gemMap relationships [] state) {order order' : List Save} (perm : order.Perm saves)
    (perm' : order'.Perm saves) (save : Save) (emits : emittedFor gs save state order = some text) :
    emittedFor gs save state order' = some text := by
  obtain ⟨⟨rep,member,keys,live⟩,ranged⟩ := emittedFor_some filled save order emits
  obtain ⟨before,first,inOrder,_,_,value⟩ := emittedFor_prefix filled save order ⟨rep,member,keys,live⟩ ranged
  obtain ⟨before',first',inOrder',keys',live',value'⟩ := emittedFor_prefix filled save order'
    ⟨rep,perm'.symm.subset (perm.subset member),keys,live⟩ ranged
  rw [emits] at value
  obtain ⟨offerer,early,offered⟩ := List.exists_of_findSome?_eq_some value.symm
  have offererIn : offerer ∈ saves := perm.subset (inOrder.subset early)
  have firstIn : first' ∈ saves := perm'.subset (inOrder'.subset (by simp))
  have described := offer_described gs gemMap relationships offered
  have own : first'.symRef = save.symRef := key_symRef keys'
  have place : (occurrenceRange gs.files (first'.loc gs)).isSome := by rwa [key_loc keys']
  have some := alike.live_offers described offererIn firstIn offered own live' place
  obtain ⟨text',found⟩ := Option.isSome_iff_exists.mp
    (List.findSome?_isSome_iff.mpr ⟨first',List.mem_append_right before' List.mem_cons_self,some⟩)
  obtain ⟨offerer',early',offered'⟩ := List.exists_of_findSome?_eq_some found
  have shows := live_shows live' place
  rw [own] at shows
  rw [value',found,alike.offers_agree described firstIn shows offererIn (perm'.subset (inOrder'.subset early'))
    offered offered']

-- Within one run the cache makes all saves of a symbol agree.
theorem emittedFor_perSymbol (filled : Filled gs gemMap relationships [] state) (order : List Save)
    (save save' : Save) (same : save.symRef = save'.symRef) (emits : emittedFor gs save state order = some text)
    (emits' : emittedFor gs save' state order = some text') : text = text' := by
  obtain ⟨live,ranged⟩ := emittedFor_some filled save order emits
  obtain ⟨live',ranged'⟩ := emittedFor_some filled save' order emits'
  obtain ⟨before,first,inOrder,_,_,value⟩ := emittedFor_prefix filled save order live ranged
  obtain ⟨before',first',inOrder',_,_,value'⟩ := emittedFor_prefix filled save' order live' ranged'
  rw [emits] at value
  rw [emits',← same] at value'
  have longer (short long : List Save) (ahead : short <+: long) {found : Str}
      (early : short.findSome? (Save.offer gs gemMap relationships save.symRef) = some found) :
      long.findSome? (Save.offer gs gemMap relationships save.symRef) = some found := by
    obtain ⟨rest,rfl⟩ := ahead
    rw [List.findSome?_append,early,Option.some_or]
  rcases List.prefix_or_prefix_of_prefix inOrder inOrder' with ahead | ahead
  · have := longer _ _ ahead value.symm
    rw [this] at value'
    exact (Option.some.inj value').symm
  · have := longer _ _ ahead value'.symm
    rw [this] at value
    exact Option.some.inj value

-- The order that starts with a given save.
theorem emittedFor_led (filled : Filled gs gemMap relationships [] state) {saves : List Save} {shown leader : Save}
    (inside : shown ∈ saves) (described : (s.descriptorText gs).isSome) (shows : shown.Shows gs gemMap s)
    (member : leader ∈ saves) (offered : leader.offer gs gemMap relationships s = some text) :
    emittedFor gs shown state (leader :: saves.erase leader) = some text := by
  obtain ⟨own,live,ranged⟩ := shows_live described shows
  have present : shown ∈ leader :: saves.erase leader := (List.perm_cons_erase member).subset inside
  obtain ⟨before,first,⟨rest,ahead⟩,_,_,value⟩ := emittedFor_prefix filled shown _ ⟨shown,present,rfl,live⟩ ranged
  rw [value,own]
  cases before with
  | nil =>
    obtain ⟨rfl,_⟩ := List.cons.inj ahead
    simp [offered]
  | cons next before =>
    obtain ⟨rfl,_⟩ := List.cons.inj ahead
    simp [offered]

-- When a save raises, in terms of the saves before it.
theorem Filled.raises (filled : Filled gs gemMap relationships front state) (save : Save) :
    (save.status gs state).isThrown = true ↔ save.Raises gs gemMap ∨
      ∃ s, save.Names gs gemMap relationships s ∧ s.Raises gs gemMap none ∧ state.symbolStringCache s = none ∧
        ∀ r, save = .reference r → r.key ∉ state.symbolOccurrenceCache := by
  cases save with
  | definition d =>
    simp only [Save.status,SCIPState.saveDefinition_thrown gs state d filled.described,filled.gems,filled.related]
    refine or_congr Iff.rfl ?_
    constructor
    · rintro ⟨spelled,s,named,apart,missing,raises⟩
      exact ⟨s,⟨apart,spelled,named⟩,raises,missing,by simp⟩
    · rintro ⟨s,⟨apart,spelled,named⟩,raises,missing,_⟩
      exact ⟨spelled,s,named,apart,missing,raises⟩
  | reference r =>
    simp only [Save.status,SCIPState.saveReference_thrown,filled.gems]
    constructor
    · rintro ⟨visible,unmet,missing,raises⟩
      exact .inr ⟨_,⟨visible,rfl⟩,raises,missing,by rintro _ ⟨⟩; exact unmet⟩
    · rintro (own | ⟨s,⟨visible,rfl⟩,raises,missing,unmet⟩)
      · exact own.elim
      · exact ⟨visible,unmet r rfl,missing,raises⟩

theorem made_all (filled : Filled gs gemMap relationships front state) (order : List Save)
    (quiet : ∀ save ∈ order, ¬ save.Ends gs gemMap relationships) : made gs state order = order := by
  induction order generalizing front state with
  | nil => rfl
  | cons next rest ih =>
    have calm : (next.status gs state).isThrown = false := by
      rw [← Bool.not_eq_true,filled.raises]
      rintro (own | ⟨s,names,raises,_⟩)
      · exact quiet next List.mem_cons_self (.inl own)
      · exact quiet next List.mem_cons_self (.inr ⟨s,names,raises⟩)
    rw [made,calm,ih (apply_filled filled next) (fun save member => quiet save (List.mem_cons_of_mem _ member))]
    rfl

theorem made_ends (filled : Filled gs gemMap relationships [] state) (save : Save) (rest : List Save)
    (ends : save.Ends gs gemMap relationships) : made gs state (save :: rest) = [] := by
  have raised : (save.status gs state).isThrown = true := by
    rw [filled.raises]
    rcases ends with own | ⟨s,names,raises⟩
    · exact .inl own
    · refine .inr ⟨s,names,raises,by simp [filled.cached],fun r _ => ?_⟩
      rw [filled.seen]
      simp
  rw [made,if_pos raised]

theorem made_append (state : SCIPState) (before rest : List Save) (done : made gs state before = before) :
    made gs state (before ++ rest) =
      before ++ made gs (before.foldl (fun state save => save.apply gs state) state) rest := by
  induction before generalizing state with
  | nil => rfl
  | cons next before ih =>
    rw [made] at done
    split at done
    · cases done
    · rename_i calm
      rw [List.cons_append,made,if_neg calm,ih _ (List.cons.inj done).2]
      rfl

theorem run_filled (filled : Filled gs gemMap relationships front state) (order : List Save) :
    Filled gs gemMap relationships (front ++ order) (order.foldl (fun state save => save.apply gs state) state) := by
  induction order generalizing front state with
  | nil => simpa using filled
  | cons next rest ih => simpa using ih (apply_filled filled next)

section Passing
variable {saves : List Save}

theorem Save.Passes.of (member : save ∈ saves) (quiet : ¬ save.Raises gs gemMap)
    (helped : ∀ s, save.Names gs gemMap relationships s → s.Raises gs gemMap none →
      ∃ earlier, Save.Passes gs gemMap relationships saves earlier ∧
        (earlier.offer gs gemMap relationships s).isSome) : save.Passes gs gemMap relationships saves := by
  have total (s : UntypedGenericSymbolRef) : ∃ earlier, save.Names gs gemMap relationships s →
      s.Raises gs gemMap none → Save.Passes gs gemMap relationships saves earlier ∧
        (earlier.offer gs gemMap relationships s).isSome := by
    by_cases needed : save.Names gs gemMap relationships s ∧ s.Raises gs gemMap none
    · obtain ⟨earlier,facts⟩ := helped s needed.1 needed.2
      exact ⟨earlier,fun _ _ => facts⟩
    · exact ⟨save,fun names raises => absurd ⟨names,raises⟩ needed⟩
  choose earlier facts using total
  exact .after earlier member quiet (fun s names raises => (facts s names raises).1)
    (fun s names raises => (facts s names raises).2)

theorem Save.Passes.helped (passes : Save.Passes gs gemMap relationships saves save) (s : UntypedGenericSymbolRef)
    (names : save.Names gs gemMap relationships s) (raises : s.Raises gs gemMap none) :
    ∃ earlier, Save.Passes gs gemMap relationships saves earlier ∧
      (earlier.offer gs gemMap relationships s).isSome := by
  obtain ⟨earlier,_,_,passes,offered⟩ := passes
  exact ⟨earlier s,passes s names raises,offered s names raises⟩

theorem Save.Passes.inside (passes : save.Passes gs gemMap relationships saves) :
    save ∈ saves ∧ ¬ save.Raises gs gemMap := by
  obtain ⟨_,member,quiet,_,_⟩ := passes
  exact ⟨member,quiet⟩

-- What a run gets done can pass.
theorem made_passes (filled : Filled gs gemMap relationships front state)
    (before : ∀ save ∈ front, save.Passes gs gemMap relationships saves) (order : List Save) (inside : order ⊆ saves) :
    ∀ save ∈ made gs state order, save.Passes gs gemMap relationships saves := by
  induction order generalizing front state with
  | nil => simp [made]
  | cons next rest ih =>
    rw [made]
    split
    · simp
    · rename_i calm
      rw [filled.raises] at calm
      have passes : next.Passes gs gemMap relationships saves := by
        refine .of (inside List.mem_cons_self) (fun own => calm (.inl own)) (fun s names raises => ?_)
        cases cached : state.symbolStringCache s with
        | some text =>
          rw [filled.cached] at cached
          obtain ⟨earlier,member,offered⟩ := List.exists_of_findSome?_eq_some cached
          exact ⟨earlier,before earlier member,by simp [offered]⟩
        | none =>
          -- Only a reference that repeats an earlier one gets past here.
          obtain ⟨r,rfl,met⟩ : ∃ r, next = .reference r ∧ r.key ∈ state.symbolOccurrenceCache := by
            by_contra unmet
            exact calm (.inr ⟨s,names,raises,cached,fun r same met => unmet ⟨r,same,met⟩⟩)
          obtain ⟨r',member,visible,same⟩ := (filled.seen r.key).mp met
          have symRefs : r'.symRef.withoutType = r.symRef.withoutType := congrArg Prod.fst same
          exact Save.Passes.helped (before _ member) s ⟨visible,symRefs.trans names.2⟩ raises
      rintro save member
      rcases List.mem_cons.mp member with rfl | later
      · exact passes
      · refine ih (apply_filled filled next) ?_ (fun e found => inside (List.mem_cons_of_mem _ found)) save later
        intro e found
        rcases List.mem_append.mp found with old | last
        · exact before e old
        · rwa [List.mem_singleton.mp last]

-- Definitions of the set that can be made one after the other.
structure Opening (gs : GlobalState) (gemMap : GemMapping) (relationships : FileRef → RelationshipsMap)
    (saves front : List Save) : Prop where
  distinct : front.Nodup
  inside : front ⊆ saves
  definitions : ∀ save ∈ front, ∃ d, save = .definition d
  done : made gs (SCIPState.related gemMap relationships) front = front

-- Saves among which are all that a save waits for.
def Save.Awaits (gs : GlobalState) (gemMap : GemMapping) (relationships : FileRef → RelationshipsMap)
    (front : List Save) (save : Save) : Prop :=
  ∀ s, save.Names gs gemMap relationships s → s.Raises gs gemMap none →
    ∃ earlier ∈ front, (earlier.offer gs gemMap relationships s).isSome

-- A save that passes is made where what it waits for has gone before.
theorem Opening.then (opening : Opening gs gemMap relationships saves front)
    (passes : save.Passes gs gemMap relationships saves) (awaits : save.Awaits gs gemMap relationships front)
    (rest : List Save) : ∃ state', made gs (SCIPState.related gemMap relationships) (front ++ save :: rest) =
      front ++ save :: made gs state' rest := by
  have filled := run_filled (related_filled gs gemMap relationships) front
  have calm : (save.status gs (front.foldl (fun state save => save.apply gs state)
      (SCIPState.related gemMap relationships))).isThrown = false := by
    rw [← Bool.not_eq_true,filled.raises]
    rintro (own | ⟨s,names,raises,missing,_⟩)
    · exact passes.inside.2 own
    · obtain ⟨earlier,member,offered⟩ := awaits s names raises
      rw [filled.cached] at missing
      have := List.findSome?_eq_none_iff.mp missing earlier (by simpa using member)
      rw [this] at offered
      cases offered
  rw [made_append _ front _ opening.done,made,calm]
  exact ⟨_,rfl⟩

theorem nodup_snoc {front : List Save} (distinct : front.Nodup) (absent : save ∉ front) : (front ++ [save]).Nodup := by
  rw [← List.concat_eq_append]
  exact distinct.concat absent

theorem Opening.add (opening : Opening gs gemMap relationships saves front)
    (passes : (Save.definition d).Passes gs gemMap relationships saves)
    (awaits : (Save.definition d).Awaits gs gemMap relationships front) :
    ∃ front', Opening gs gemMap relationships saves front' ∧ front ⊆ front' ∧ Save.definition d ∈ front' := by
  by_cases present : Save.definition d ∈ front
  · exact ⟨front,opening,List.Subset.refl _,present⟩
  · refine ⟨front ++ [Save.definition d],⟨?_,?_,?_,?_⟩,List.subset_append_left _ _,by simp⟩
    · exact nodup_snoc opening.distinct present
    · exact List.append_subset.mpr ⟨opening.inside,by simpa using passes.inside.1⟩
    · intro save member
      rcases List.mem_append.mp member with old | last
      · exact opening.definitions save old
      · exact ⟨d,List.mem_singleton.mp last⟩
    · obtain ⟨_,done⟩ := opening.then passes awaits []
      exact done

-- For each of some symbols, a definition that it waits for can be made first.
theorem Opening.addAll (symRefs : List UntypedGenericSymbolRef) (save : Save)
    (each : ∀ s, save.Names gs gemMap relationships s → s.Raises gs gemMap none →
      ∀ front, Opening gs gemMap relationships saves front → ∃ front', Opening gs gemMap relationships saves front' ∧
        front ⊆ front' ∧ ∃ earlier ∈ front', (earlier.offer gs gemMap relationships s).isSome)
    (opening : Opening gs gemMap relationships saves front) :
    ∃ front', Opening gs gemMap relationships saves front' ∧ front ⊆ front' ∧
      ∀ s ∈ symRefs, save.Names gs gemMap relationships s → s.Raises gs gemMap none →
        ∃ earlier ∈ front', (earlier.offer gs gemMap relationships s).isSome := by
  induction symRefs generalizing front with
  | nil => exact ⟨front,opening,List.Subset.refl _,by simp⟩
  | cons t symRefs ih =>
    obtain ⟨first,opened,ahead,served⟩ : ∃ first, Opening gs gemMap relationships saves first ∧ front ⊆ first ∧
        (save.Names gs gemMap relationships t → t.Raises gs gemMap none →
          ∃ earlier ∈ first, (earlier.offer gs gemMap relationships t).isSome) := by
      by_cases needed : save.Names gs gemMap relationships t ∧ t.Raises gs gemMap none
      · obtain ⟨first,opened,ahead,served⟩ := each t needed.1 needed.2 front opening
        exact ⟨first,opened,ahead,fun _ _ => served⟩
      · exact ⟨front,opening,List.Subset.refl _,fun names raises => absurd ⟨names,raises⟩ needed⟩
    obtain ⟨front',opened',ahead',rest⟩ := ih opened
    refine ⟨front',opened',List.Subset.trans ahead ahead',fun s member names raises => ?_⟩
    rcases List.mem_cons.mp member with rfl | later
    · obtain ⟨earlier,found,offered⟩ := served names raises
      exact ⟨earlier,ahead' found,offered⟩
    · exact rest s later names raises

-- The symbols a save names are finitely many.
theorem Save.names_listed (gs : GlobalState) (gemMap : GemMapping) (relationships : FileRef → RelationshipsMap)
    (save : Save) : ∃ symRefs : List UntypedGenericSymbolRef,
    ∀ s, save.Names gs gemMap relationships s → s ∈ symRefs := by
  cases save with
  | definition d => exact ⟨d.names relationships,fun s names => names.2.2⟩
  | reference r => exact ⟨[r.symRef.withoutType],fun s names => by simp [← names.2]⟩

-- Where the symbol table's lookup raises, only a definition has a string to offer.
theorem raises_offer (raises : UntypedGenericSymbolRef.Raises gs gemMap none s)
    (offered : (Save.offer gs gemMap relationships s save).isSome) : ∃ d, save = .definition d := by
  cases save with
  | definition d => exact ⟨d,rfl⟩
  | reference r => simp [Save.offer,raises_unspelled raises] at offered

theorem Save.Passes.opening (passes : Save.Passes gs gemMap relationships saves save) :
    ∀ front, Opening gs gemMap relationships saves front → ∃ front', Opening gs gemMap relationships saves front' ∧
      front ⊆ front' ∧ save.Awaits gs gemMap relationships front' := by
  induction passes with
  | @after save earlier member quiet passes offered ih =>
    intro front opening
    obtain ⟨symRefs,listed⟩ := save.names_listed gs gemMap relationships
    obtain ⟨front',opened,ahead,served⟩ := Opening.addAll symRefs save (fun s names raises front opening => by
      obtain ⟨first,opened,ahead,awaits⟩ := ih s names raises front opening
      obtain ⟨d,definition⟩ := raises_offer raises (offered s names raises)
      have going := passes s names raises
      have served := offered s names raises
      rw [definition] at awaits going served
      obtain ⟨front',opened',ahead',present⟩ := opened.add going awaits
      exact ⟨front',opened',List.Subset.trans ahead ahead',_,present,served⟩) opening
    exact ⟨front',opened,ahead,fun s names raises => served s (listed s names) names raises⟩

theorem opening_nil (gs : GlobalState) (gemMap : GemMapping) (relationships : FileRef → RelationshipsMap)
    (saves : List Save) : Opening gs gemMap relationships saves [] :=
  ⟨List.nodup_nil,List.nil_subset _,by simp,rfl⟩

-- Distinct saves of the set can be put first.
theorem front_order {front : List Save} (distinct : front.Nodup) (inside : front ⊆ saves) :
    ∃ rest, (front ++ rest).Perm saves := by
  obtain ⟨part,same,sub⟩ := List.subperm_of_subset distinct inside
  obtain ⟨rest,perm⟩ := sub.exists_perm_append
  exact ⟨rest,(perm.trans (same.append_right rest)).symm⟩

-- An opening goes on to an order of all the saves that gets a given save done.
theorem Opening.complete (opening : Opening gs gemMap relationships saves front)
    (passes : Save.Passes gs gemMap relationships saves shown)
    (awaits : shown.Awaits gs gemMap relationships front) :
    ∃ order rest, order.Perm saves ∧ made gs (SCIPState.related gemMap relationships) order = front ++ rest ∧
      shown ∈ front ++ rest := by
  by_cases present : shown ∈ front
  · obtain ⟨rest,perm⟩ := front_order opening.distinct opening.inside
    exact ⟨_,_,perm,made_append _ _ _ opening.done,List.mem_append_left _ present⟩
  · have distinct := nodup_snoc opening.distinct present
    have inside : front ++ [shown] ⊆ saves :=
      List.append_subset.mpr ⟨opening.inside,by simpa using passes.inside.1⟩
    obtain ⟨rest,perm⟩ := front_order distinct inside
    rw [List.append_assoc] at perm
    obtain ⟨_,done⟩ := opening.then passes awaits rest
    exact ⟨_,_,perm,done,by simp⟩

-- A save that has a string to offer emits one once it is made.
theorem emittedFor_offered (filled : Filled gs gemMap relationships [] state) {order : List Save} (member : shown ∈ order)
    (live : Save.Live gs gemMap shown) (ranged : (occurrenceRange gs.files (shown.loc gs)).isSome)
    (offered : (shown.offer gs gemMap relationships shown.symRef).isSome) :
    (emittedFor gs shown state order).isSome := by
  obtain ⟨before,first,_,keys,alive,value⟩ := emittedFor_prefix filled shown order ⟨shown,member,rfl,live⟩ ranged
  rw [value,List.findSome?_isSome_iff]
  refine ⟨first,by simp,?_⟩
  cases first with
  | definition d =>
    cases shown with
    | definition d' => rwa [show d = d' from Sum.inl.inj keys]
    | reference r => cases keys
  | reference r =>
    cases shown with
    | definition d => cases keys
    | reference r' => rwa [reference_offer_key (Sum.inr.inj keys) alive live]

-- If a save shows a symbol for which another offers a string, some order emits one.
theorem shows_emitted (leads : Save.Passes gs gemMap relationships saves leader)
    (passes : Save.Passes gs gemMap relationships saves shown) (shows : shown.Shows gs gemMap s)
    (offered : leader.offer gs gemMap relationships s = some text) : ∃ order, order.Perm saves ∧
      (emittedFor gs shown (SCIPState.related gemMap relationships)
        (made gs (SCIPState.related gemMap relationships) order)).isSome := by
  have filled := related_filled gs gemMap relationships
  have described := offer_described gs gemMap relationships offered
  obtain ⟨rfl,live,ranged⟩ := shows_live described shows
  by_cases own : (shown.offer gs gemMap relationships shown.symRef).isSome
  · obtain ⟨front,opening,_,awaits⟩ := passes.opening [] (opening_nil gs gemMap relationships saves)
    obtain ⟨order,rest,perm,done,member⟩ := opening.complete passes awaits
    exact ⟨order,perm,by rw [done]; exact emittedFor_offered filled member live ranged own⟩
  · -- A definition that shows its symbol has its string, so this is a reference;
    -- and where the symbol table has none, the other save is a definition.
    obtain ⟨r,rfl⟩ : ∃ r, shown = .reference r := by
      cases shown with
      | reference r => exact ⟨r,rfl⟩
      | definition d =>
        obtain ⟨text',spelled⟩ := Option.isSome_iff_exists.mp live
        simp [Save.offer,Save.symRef,spelled] at own
    obtain ⟨d,rfl⟩ : ∃ d, leader = .definition d := by
      cases leader with
      | definition d => exact ⟨d,rfl⟩
      | reference r' =>
        simp only [Save.Live] at live
        obtain ⟨_,fresh⟩ := Option.ite_none_right_eq_some.mp offered
        simp only [Save.offer,Save.symRef] at own fresh
        simp [live,fresh] at own
    obtain ⟨front,opening,_,awaits⟩ := leads.opening [] (opening_nil gs gemMap relationships saves)
    obtain ⟨front,opening,_,led⟩ := opening.add leads awaits
    obtain ⟨front',opening,ahead,awaits⟩ := passes.opening front opening
    obtain ⟨order,rest,perm,done,member⟩ := opening.complete passes awaits
    refine ⟨order,perm,?_⟩
    obtain ⟨before,first,initial,keys,_,value⟩ := emittedFor_prefix filled (.reference r) (front' ++ rest)
      ⟨_,member,rfl,live⟩ ranged
    rw [done,value,List.findSome?_isSome_iff]
    refine ⟨Save.definition d,?_,by rw [offered]; rfl⟩
    rcases List.prefix_or_prefix_of_prefix initial (List.prefix_append front' rest) with short | long
    · obtain ⟨d',rfl⟩ := opening.definitions first (short.subset (by simp))
      cases keys
    · exact long.subset (ahead led)

theorem mute_silent (filled : Filled gs gemMap relationships [] state) (mute : Mute gs gemMap relationships saves)
    (perm : order.Perm saves) (save : Save) : emittedFor gs save state (made gs state order) = none := by
  cases emits : emittedFor gs save state (made gs state order) with
  | none => rfl
  | some text =>
    obtain ⟨live,ranged⟩ := emittedFor_some filled save _ emits
    obtain ⟨before,first,initial,keys,live,value⟩ := emittedFor_prefix filled save _ live ranged
    rw [emits] at value
    obtain ⟨leader,member,offered⟩ := List.exists_of_findSome?_eq_some value.symm
    have passes := made_passes filled (by simp) order perm.subset
    have shows := live_shows live (by rwa [key_loc keys])
    rw [key_symRef keys] at shows
    rw [mute _ leader first (passes leader (initial.subset member)) (passes first (initial.subset (by simp))) shows]
      at offered
    cases offered

end Passing

end Run

-- Where no save can raise, every order gets done.
section Quiet
variable {gs : GlobalState} {gemMap : GemMapping} {relationships : FileRef → RelationshipsMap} {saves : List Save}

theorem made_quiet (quiet : ∀ save ∈ saves, ¬ save.Ends gs gemMap relationships) {order : List Save}
    (perm : order.Perm saves) : made gs (SCIPState.related gemMap relationships) order = order :=
  made_all (related_filled gs gemMap relationships) order fun save member => quiet save (perm.subset member)

theorem OrderIndependent.filedAlike (quiet : ∀ save ∈ saves, ¬ save.Ends gs gemMap relationships)
    (independent : OrderIndependent gs (SCIPState.related gemMap relationships) saves) :
    FiledAlike gs gemMap relationships saves := by
  have filled := related_filled gs gemMap relationships
  have done (order : List Save) (perm : order.Perm saves) := made_quiet quiet perm
  -- Two saves that offer different strings are both put first in turn.
  have agree {s shown save save' text text'} (described : (UntypedGenericSymbolRef.descriptorText gs s).isSome)
      (inside : shown ∈ saves) (shows : Save.Shows gs gemMap s shown) (member : save ∈ saves) (member' : save' ∈ saves)
      (offered : Save.offer gs gemMap relationships s save = some text)
      (offered' : Save.offer gs gemMap relationships s save' = some text') : text = text' := by
    have equal := independent.perSave _ _ (List.perm_cons_erase member).symm (List.perm_cons_erase member').symm
      shown inside
    rw [done _ (List.perm_cons_erase member).symm,done _ (List.perm_cons_erase member').symm] at equal
    rw [emittedFor_led filled inside described shows member offered,
      emittedFor_led filled inside described shows member' offered'] at equal
    exact Option.some.inj equal
  refine ⟨?_,?_,?_⟩
  · intro s described shown inside shows save member save' member' gem gem' defines defines'
    obtain ⟨tail,tailed⟩ := Option.isSome_iff_exists.mp described
    have equal := agree described inside shows member member' (defines_offer tailed defines)
      (defines_offer tailed defines')
    exact (heading_alike gem gem').mp (List.append_cancel_right equal)
  · intro s described shown inside shows save member save' member' gem gem' names table defines'
    obtain ⟨tail,tailed⟩ := Option.isSome_iff_exists.mp described
    have equal := agree described inside shows member member' (names_offer tailed names table)
      (defines_offer tailed defines')
    exact (heading_alike gem gem').mp (List.append_cancel_right equal)
  · intro s described r inside shows save member gem defines
    obtain ⟨tail,tailed⟩ := Option.isSome_iff_exists.mp described
    obtain ⟨own,live,ranged⟩ := shows_live described shows
    have first := emittedFor_first filled (.reference r) (.reference r) rfl live ranged (saves.erase (.reference r)) []
      (fun _ member => nomatch member)
    have equal := independent.perSave _ _ (List.perm_cons_erase inside).symm (List.perm_cons_erase member).symm
      _ inside
    rw [done _ (List.perm_cons_erase inside).symm,done _ (List.perm_cons_erase member).symm] at equal
    rw [emittedFor_led filled inside described shows member (defines_offer tailed defines)] at equal
    simp only [List.nil_append] at first
    rw [first] at equal
    obtain ⟨_,reference,offered⟩ := List.exists_of_findSome?_eq_some equal
    rw [List.mem_singleton.mp reference,own] at offered
    rcases offer_cases tailed offered with ⟨_,defines,_⟩ | ⟨_,gem,table,_⟩
    · exact defines.elim
    · exact ⟨gem,table⟩

theorem FiledAlike.orderIndependent (quiet : ∀ save ∈ saves, ¬ save.Ends gs gemMap relationships)
    (alike : FiledAlike gs gemMap relationships saves) :
    OrderIndependent gs (SCIPState.related gemMap relationships) saves := by
  have filled := related_filled gs gemMap relationships
  have done (order : List Save) (perm : order.Perm saves) := made_quiet quiet perm
  refine ⟨?_,?_⟩
  · intro order order' perm perm' save _
    rw [done order perm,done order' perm']
    cases emits : emittedFor gs save (SCIPState.related gemMap relationships) order with
    | some text => exact (alike.perSave filled perm perm' save emits).symm
    | none =>
      cases emits' : emittedFor gs save (SCIPState.related gemMap relationships) order' with
      | none => rfl
      | some text =>
        rw [alike.perSave filled perm' perm save emits'] at emits
        cases emits
  · intro order perm save _ save' _ same text text' emits emits'
    rw [done order perm] at emits emits'
    exact emittedFor_perSymbol filled order save save' same emits emits'

end Quiet

-- And if one of the saves raises when it comes first, nothing may be emitted at all.
theorem orderIndependent_iff (gs : GlobalState) (gemMap : GemMapping) (relationships : FileRef → RelationshipsMap)
    (saves : List Save) :
    OrderIndependent gs (SCIPState.related gemMap relationships) saves ↔
      ((∀ save ∈ saves, ¬ save.Ends gs gemMap relationships) ∧ FiledAlike gs gemMap relationships saves) ∨
        Mute gs gemMap relationships saves := by
  have filled := related_filled gs gemMap relationships
  constructor
  · intro independent
    by_cases quiet : ∀ save ∈ saves, ¬ save.Ends gs gemMap relationships
    · exact .inl ⟨quiet,independent.filedAlike quiet⟩
    · right
      push Not at quiet
      obtain ⟨ending,member,ends⟩ := quiet
      intro s leader shown leads passes shows
      cases offered : leader.offer gs gemMap relationships s with
      | none => rfl
      | some text =>
        obtain ⟨order,perm,emits⟩ := shows_emitted leads passes shows offered
        have equal := independent.perSave order _ perm (List.perm_cons_erase member).symm shown passes.inside.1
        rw [made_ends filled ending _ ends] at equal
        rw [equal] at emits
        cases emits
  · rintro (⟨quiet,alike⟩ | mute)
    · exact alike.orderIndependent quiet
    · have silent (order : List Save) (perm : order.Perm saves) (save : Save) :
          emittedFor gs save (SCIPState.related gemMap relationships)
            (made gs (SCIPState.related gemMap relationships) order) = none :=
        mute_silent filled mute perm save
      refine ⟨fun order order' perm perm' save _ => ?_,fun order perm save _ _ _ _ text _ emits _ => ?_⟩
      · rw [silent order perm,silent order' perm']
      · rw [silent order perm] at emits
        cases emits

-- A class reopened by a file of another gem: a reference that comes first
-- files it under the gem of the symbol table, the definition under its own.
theorem orderIndependent_fails : ¬ OrderIndependent sampleTable (SCIPState.related sampleGems fun _ _ => none)
    [.definition (sampleDefinition 2),.reference ⟨Symbols.root,2,sampleClass,none,⟨3,4,by decide⟩,0⟩] := by
  intro independent
  have equal := independent.perSave
    [.definition (sampleDefinition 2),.reference ⟨Symbols.root,2,sampleClass,none,⟨3,4,by decide⟩,0⟩]
    [.reference ⟨Symbols.root,2,sampleClass,none,⟨3,4,by decide⟩,0⟩,.definition (sampleDefinition 2)]
    (List.Perm.refl _) (List.Perm.swap ..) (.definition (sampleDefinition 2)) List.mem_cons_self
  revert equal
  decide

end Scip
