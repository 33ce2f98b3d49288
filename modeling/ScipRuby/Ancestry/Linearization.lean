import ScipRuby.Ancestry.Hierarchy

namespace Ancestry
open Relation
variable {gs gs' : GlobalState} {E : ClassOrModuleRef → ClassOrModuleRef → Prop} {rank : ClassOrModuleRef → Nat}
variable {a c d m s root : ClassOrModuleRef} {fuel : Nat}

section Loops
variable {α σ : Type}

-- A loop that can fail runs to its end if every round keeps the invariant.
theorem foldlM_invariant {f : σ → α → Option σ} {all : List α} (Inv : List α → σ → Prop)
    (step : ∀ done a rest s, all = done ++ a :: rest → Inv done s → ∃ s', f s a = some s' ∧ Inv (done ++ [a]) s')
    {s : σ} (start : Inv [] s) : ∃ s', all.foldlM f s = some s' ∧ Inv all s' := by
  have run : ∀ rest done s, all = done ++ rest → Inv done s → ∃ s', rest.foldlM f s = some s' ∧ Inv all s' := by
    intro rest
    induction rest with
    | nil =>
      intro done s split inv
      rw [List.append_nil] at split
      exact ⟨s,rfl,split ▸ inv⟩
    | cons a rest ih =>
      intro done s split inv
      obtain ⟨middle,moved,inv'⟩ := step done a rest s split inv
      obtain ⟨last,run,inv''⟩ := ih (done ++ [a]) middle (by simp [split]) inv'
      refine ⟨last,?_,inv''⟩
      rw [List.foldlM_cons,moved]
      exact run
  exact run all [] s rfl start

theorem anyM_some {f : α → Option Bool} {P : α → Prop} {list : List α}
    (each : ∀ a ∈ list, ∃ found, f a = some found ∧ (found = true ↔ P a)) :
    ∃ found, list.anyM f = some found ∧ (found = true ↔ ∃ a ∈ list, P a) := by
  induction list with
  | nil => exact ⟨false,rfl,by simp⟩
  | cons a list ih =>
    obtain ⟨here,first,holds⟩ := each a List.mem_cons_self
    obtain ⟨later,others,holds'⟩ := ih fun b member => each b (List.mem_cons_of_mem _ member)
    cases here with
    | true =>
      refine ⟨true,?_,?_⟩
      · simp [List.anyM,first]
      · simpa using .inl (holds.mp rfl)
    | false =>
      refine ⟨later,?_,?_⟩
      · simpa [List.anyM,first] using others
      · have absent : ¬ P a := fun there => by simpa using holds.mpr there
        simp [holds',absent]

end Loops

-- What a symbol is above by its superclass.
def Above (E : ClassOrModuleRef → ClassOrModuleRef → Prop) (gs : GlobalState) (c d : ClassOrModuleRef) : Prop :=
  ∃ superClass, gs.superClass c = some superClass ∧ (d = superClass ∨ TransGen E superClass d)

-- The lists agree with the ancestors along E: each symbol has its own edges, and one that has been linearized has
-- all of its ancestors, in its list or above its superclass.
structure Sound (E : ClassOrModuleRef → ClassOrModuleRef → Prop) (gs : GlobalState) : Prop where
  superClass : ∀ c s, gs.superClass c = some s → E c s
  listed : ∀ c, ∀ d ∈ gs.mixins c, TransGen E c d
  direct : ∀ c d, E c d → d ∈ gs.mixins c ∨ Above E gs c d
  closed : ∀ c, gs.isLinearizationComputed c = true → ∀ d, TransGen E c d → d ∈ gs.mixins c ∨ Above E gs c d

theorem Above.trans (above : Above E gs c d) (further : TransGen E d a) : Above E gs c a := by
  obtain ⟨superClass,same,rfl | path⟩ := above
  · exact ⟨d,same,.inr further⟩
  · exact ⟨superClass,same,.inr (path.trans further)⟩

theorem Sound.above (sound : Sound E gs) (above : Above E gs c d) : TransGen E c d := by
  obtain ⟨superClass,same,rfl | path⟩ := above
  · exact .single (sound.superClass c d same)
  · exact .head (sound.superClass c superClass same) path

theorem Sound.ancestor_iff (sound : Sound E gs) :
    TransGen E c d ↔ (∃ a ∈ gs.mixins c, a = d ∨ TransGen E a d) ∨ Above E gs c d := by
  constructor
  · intro path
    obtain ⟨a,edge,rest⟩ := TransGen.head'_iff.mp path
    obtain rfl | path' := reflTransGen_iff_eq_or_transGen.mp rest
    · obtain member | above := sound.direct c d edge
      · exact .inl ⟨d,member,.inl rfl⟩
      · exact .inr above
    · obtain member | above := sound.direct c a edge
      · exact .inl ⟨a,member,.inr path'⟩
      · exact .inr (above.trans path')
  · rintro (⟨a,member,rfl | path⟩ | above)
    · exact sound.listed c a member
    · exact (sound.listed c a member).trans path
    · exact sound.above above

theorem ancestor_rank (descends : ∀ c d, E c d → rank d < rank c) (path : TransGen E c d) : rank d < rank c := by
  induction path with
  | single edge => exact descends _ _ edge
  | tail _ edge ih => exact (descends _ _ edge).trans ih

-- In any mixture of symbols that have been linearized and symbols that have not.
theorem derivesFrom_iff (sound : Sound E gs) (descends : ∀ c d, E c d → rank d < rank c) (enough : rank c < fuel) :
    ∃ derived, gs.derivesFrom fuel c d = some derived ∧ (derived = true ↔ TransGen E c d) := by
  induction fuel generalizing c with
  | zero => cases enough
  | succ fuel ih =>
    have lower : ∀ a, TransGen E c a → rank a < fuel := by
      intro a path
      have := ancestor_rank descends path
      omega
    have mixedIn : ∃ found,
        (if gs.isLinearizationComputed c then some (decide (d ∈ gs.mixins c))
          else (gs.mixins c).anyM fun a => if a = d then some true else gs.derivesFrom fuel a d) = some found ∧
        ((found = true ∨ Above E gs c d) ↔ TransGen E c d) := by
      cases computed : gs.isLinearizationComputed c with
      | true =>
        refine ⟨decide (d ∈ gs.mixins c),rfl,?_⟩
        rw [decide_eq_true_iff]
        constructor
        · rintro (member | above)
          · exact sound.listed c d member
          · exact sound.above above
        · exact sound.closed c computed d
      | false =>
        have each : ∀ a ∈ gs.mixins c, ∃ found, (if a = d then some true else gs.derivesFrom fuel a d) = some found ∧
            (found = true ↔ a = d ∨ TransGen E a d) := by
          intro a member
          by_cases same : a = d
          · exact ⟨true,if_pos same,by simp [same]⟩
          · obtain ⟨derived,result,holds⟩ := ih (lower a (sound.listed c a member))
            exact ⟨derived,by rw [if_neg same,result],by simp [holds,same]⟩
        obtain ⟨found,result,holds⟩ := anyM_some each
        exact ⟨found,result,by rw [sound.ancestor_iff,holds]⟩
    obtain ⟨found,result,holds⟩ := mixedIn
    rw [GlobalState.derivesFrom,result,Option.bind_some]
    cases found with
    | true => exact ⟨true,rfl,by simpa using holds⟩
    | false =>
      have above : Above E gs c d ↔ TransGen E c d := by simpa using holds
      rw [← above]
      cases superClass : gs.superClass c with
      | none => exact ⟨false,by simp,by simp [Above,superClass]⟩
      | some parent =>
        by_cases same : d = parent
        · exact ⟨true,by simp [same],by simp [Above,superClass,same]⟩
        · obtain ⟨derived,result',holds'⟩ := ih (lower parent (.single (sound.superClass c parent superClass)))
          exact ⟨derived,by simp [same,result'],by simp [Above,superClass,same,holds']⟩

-- What a superclass derives from; the superclass itself is not asked for.
def Inherited (E : ClassOrModuleRef → ClassOrModuleRef → Prop) (parent : Option ClassOrModuleRef) (d : ClassOrModuleRef) :
    Prop :=
  ∃ superClass, parent = some superClass ∧ TransGen E superClass d

-- Inserting the components of a mixin: what is new is among them and not inherited, and what is missing is inherited.
structure Inserts (E : ClassOrModuleRef → ClassOrModuleRef → Prop) (parent : Option ClassOrModuleRef)
    (components before after : List ClassOrModuleRef) : Prop where
  kept : ∀ d ∈ before, d ∈ after
  added : ∀ d ∈ after, d ∈ before ∨ (d ∈ components ∧ ¬ Inherited E parent d)
  all : ∀ d ∈ components, d ∈ after ∨ Inherited E parent d
  once : before.Nodup → after.Nodup

theorem Inserts.refl (before : List ClassOrModuleRef) {parent : Option ClassOrModuleRef} :
    Inserts E parent [] before before :=
  ⟨fun _ member => member,fun _ member => .inl member,by simp,fun once => once⟩

theorem Inserts.trans {parent : Option ClassOrModuleRef} {first second before middle after : List ClassOrModuleRef}
    (one : Inserts E parent first before middle) (two : Inserts E parent second middle after) :
    Inserts E parent (first ++ second) before after where
  kept := fun d member => two.kept d (one.kept d member)
  added := by
    intro d member
    obtain old | ⟨new,free⟩ := two.added d member
    · obtain old' | ⟨new',free⟩ := one.added d old
      · exact .inl old'
      · exact .inr ⟨List.mem_append_left _ new',free⟩
    · exact .inr ⟨List.mem_append_right _ new,free⟩
  all := by
    intro d member
    obtain member' | member' := List.mem_append.mp member
    · exact (one.all d member').imp_left (two.kept d)
    · exact two.all d member'
  once := fun once => two.once (one.once once)

theorem maybeAddMixin_inserts {parent : Option ClassOrModuleRef} {mixinList : List ClassOrModuleRef} {pos : Nat}
    (sound : Sound E gs) (descends : ∀ c d, E c d → rank d < rank c)
    (enough : ∀ superClass, parent = some superClass → rank superClass < fuel) (apart : c ≠ m)
    (inside : pos ≤ mixinList.length) :
    ∃ after pos', gs.maybeAddMixin fuel c parent (mixinList,pos) m = some (after,pos') ∧ pos' ≤ after.length ∧
      Inserts E parent [m] mixinList after := by
  have asked : ∃ derived, parent.elim (some false) (fun parent => gs.derivesFrom fuel parent m) = some derived ∧
      (derived = true ↔ Inherited E parent m) := by
    cases parent with
    | none => exact ⟨false,rfl,by simp [Inherited]⟩
    | some superClass =>
      obtain ⟨derived,result,holds⟩ := derivesFrom_iff sound descends (enough superClass rfl)
      exact ⟨derived,result,by simp [Inherited,holds]⟩
  obtain ⟨derived,result,holds⟩ := asked
  rw [GlobalState.maybeAddMixin,if_neg apart,result,Option.map_some]
  cases derived with
  | true =>
    refine ⟨mixinList,pos,rfl,inside,fun _ member => member,fun _ member => .inl member,?_,fun once => once⟩
    simpa using .inr (holds.mp rfl)
  | false =>
    have free : ¬ Inherited E parent m := fun inherited => by simpa using holds.mpr inherited
    by_cases member : m ∈ mixinList
    · have position := List.idxOf_lt_length_of_mem member
      refine ⟨mixinList,_,by rw [if_neg Bool.false_ne_true,if_pos member],?_,fun _ member => member,fun _ member => .inl member,?_,fun once => once⟩
      · split
        · exact position
        · exact inside
      · simpa using .inl member
    · refine ⟨mixinList.insertIdx pos m,pos + 1,by simp [member],?_,?_,?_,?_,?_⟩
      · rw [List.length_insertIdx,if_pos inside]
        omega
      · intro d old
        exact (List.mem_insertIdx inside).mpr (.inr old)
      · intro d new
        obtain rfl | old := (List.mem_insertIdx inside).mp new
        · exact .inr ⟨List.mem_cons_self,free⟩
        · exact .inl old
      · simpa using .inl ((List.mem_insertIdx inside).mpr (.inl rfl))
      · intro once
        rw [(List.perm_insertIdx m mixinList inside).nodup_iff]
        exact List.nodup_cons.mpr ⟨member,once⟩

theorem maybeAddMixins_inserts {parent : Option ClassOrModuleRef} {mixinList components : List ClassOrModuleRef}
    (sound : Sound E gs) (descends : ∀ c d, E c d → rank d < rank c)
    (enough : ∀ superClass, parent = some superClass → rank superClass < fuel) (apart : c ∉ components) :
    ∃ after pos, components.foldlM (gs.maybeAddMixin fuel c parent) (mixinList,0) = some (after,pos) ∧
      Inserts E parent components mixinList after := by
  have loop := @foldlM_invariant _ _ (gs.maybeAddMixin fuel c parent) components
    (fun done state => state.2 ≤ state.1.length ∧ Inserts E parent done mixinList state.1) ?_ (mixinList,0)
    ⟨Nat.zero_le _,.refl _⟩
  · obtain ⟨⟨after,pos⟩,run,_,inserts⟩ := loop
    exact ⟨after,pos,run,inserts⟩
  · rintro done a rest ⟨list,pos⟩ split ⟨inside,inserts⟩
    have other : c ≠ a := by
      rintro rfl
      exact apart (split ▸ List.mem_append_right _ List.mem_cons_self)
    obtain ⟨after,pos',moved,inside',inserts'⟩ := maybeAddMixin_inserts sound descends enough other inside
    exact ⟨(after,pos'),moved,inside',inserts.trans inserts'⟩

-- Mixins are modules, modules have no superclass but the root, and everything else that has an edge is below the
-- root by its superclass.
structure Rooted (E : ClassOrModuleRef → ClassOrModuleRef → Prop) (root : ClassOrModuleRef) (gs : GlobalState) : Prop where
  modules : ∀ c, ∀ d ∈ gs.mixins c, gs.isModule d = true
  moduleSupers : ∀ m, gs.isModule m = true → ∀ s, gs.superClass m = some s → s = root
  stubless : ∀ c, gs.superClass c ≠ some StubSuperClass ∧ gs.superClass c ≠ some StubModule
  below : ∀ c d, TransGen E c d → c ≠ root → Above E gs c root

def Tidy (E : ClassOrModuleRef → ClassOrModuleRef → Prop) (gs : GlobalState) (c : ClassOrModuleRef) : Prop :=
  (gs.mixins c).Nodup ∧ ∀ d ∈ gs.mixins c, ¬ Inherited E (gs.superClass c) d

-- A linearization changes lists only, each of them once.
structure Linearizes (E : ClassOrModuleRef → ClassOrModuleRef → Prop) (gs gs' : GlobalState) : Prop where
  superClass : ∀ c, gs'.superClass c = gs.superClass c
  isModule : ∀ c, gs'.isModule c = gs.isModule c
  members : ∀ c name, gs'.findMember c name = gs.findMember c name
  used : gs'.classAndModulesUsed = gs.classAndModulesUsed
  computed : ∀ c, gs.isLinearizationComputed c = true → gs'.classAndModules c = gs.classAndModules c
  waiting : ∀ c, gs'.isLinearizationComputed c = false → gs'.classAndModules c = gs.classAndModules c
  tidy : ∀ c, gs'.isLinearizationComputed c = true → gs.isLinearizationComputed c = true ∨ Tidy E gs' c

theorem Linearizes.refl (gs : GlobalState) : Linearizes E gs gs :=
  ⟨fun _ => rfl,fun _ => rfl,fun _ _ => rfl,rfl,fun _ _ => rfl,fun _ _ => rfl,fun _ computed => .inl computed⟩

theorem Linearizes.still (linearizes : Linearizes E gs gs') (computed : gs.isLinearizationComputed c = true) :
    gs'.isLinearizationComputed c = true := by
  rw [GlobalState.isLinearizationComputed,linearizes.computed c computed]
  exact computed

theorem Linearizes.trans {gs'' : GlobalState} (first : Linearizes E gs gs') (second : Linearizes E gs' gs'') :
    Linearizes E gs gs'' where
  superClass := fun c => (second.superClass c).trans (first.superClass c)
  isModule := fun c => (second.isModule c).trans (first.isModule c)
  members := fun c name => (second.members c name).trans (first.members c name)
  used := second.used.trans first.used
  computed := fun c computed => (second.computed c (first.still computed)).trans (first.computed c computed)
  waiting := by
    intro c waiting
    have same := second.waiting c waiting
    refine same.trans (first.waiting c ?_)
    rw [GlobalState.isLinearizationComputed,← same]
    exact waiting
  tidy := by
    intro c computed
    obtain before | tidy := second.tidy c computed
    · refine (first.tidy c before).imp_right fun tidy => ?_
      have same := second.computed c before
      unfold Tidy GlobalState.mixins GlobalState.superClass
      rw [same]
      exact tidy
    · exact .inr tidy

theorem Linearizes.above_iff (linearizes : Linearizes E gs gs') : Above E gs' c d ↔ Above E gs c d := by
  unfold Above
  rw [linearizes.superClass c]

structure Computes (E : ClassOrModuleRef → ClassOrModuleRef → Prop) (root : ClassOrModuleRef) (gs : GlobalState)
    (c : ClassOrModuleRef) (gs' : GlobalState) : Prop where
  sound : Sound E gs'
  rooted : Rooted E root gs'
  linearizes : Linearizes E gs gs'
  computed : gs'.isLinearizationComputed c = true
  frame : ∀ d, d ≠ c → ¬ TransGen E c d → gs'.classAndModules d = gs.classAndModules d

-- What computeClassLinearization does for a symbol, as far as its callers are concerned.
def ComputesBelow (E : ClassOrModuleRef → ClassOrModuleRef → Prop) (rank : ClassOrModuleRef → Nat) (root : ClassOrModuleRef)
    (fuel : Nat) : Prop :=
  ∀ gs c, rank c < fuel → Sound E gs → Rooted E root gs →
    ∃ gs', computeClassLinearization fuel gs c = some gs' ∧ Computes E root gs c gs'

-- The loop over the mixins of a symbol c that starts in gs: the new list covers the mixins that it has seen.
structure Looping (E : ClassOrModuleRef → ClassOrModuleRef → Prop) (root : ClassOrModuleRef) (gs : GlobalState)
    (c : ClassOrModuleRef) (done : List ClassOrModuleRef) (state : GlobalState × List ClassOrModuleRef) : Prop where
  sound : Sound E state.1
  rooted : Rooted E root state.1
  linearizes : Linearizes E gs state.1
  frame : ∀ d, ¬ TransGen E c d → state.1.classAndModules d = gs.classAndModules d
  once : state.2.Nodup
  listed : ∀ d ∈ state.2, TransGen E c d ∧ gs.isModule d = true ∧ ¬ Inherited E (gs.superClass c) d
  covered : ∀ m ∈ done, ∀ d, d = m ∨ TransGen E m d → d ∈ state.2 ∨ Above E gs c d

theorem linearizeMixin_looping {done : List ClassOrModuleRef} {state : GlobalState × List ClassOrModuleRef}
    (descends : ∀ c d, E c d → rank d < rank c) (below : ComputesBelow E rank root fuel) (enough : rank c < fuel + 1)
    (sound : Sound E gs) (rooted : Rooted E root gs) (member : m ∈ gs.mixins c)
    (looping : Looping E root gs c done state) :
    ∃ state', linearizeMixin (computeClassLinearization fuel) (fullLinearizationSlowImpl fuel) fuel c (gs.superClass c)
      state m = some state' ∧ Looping E root gs c (done ++ [m]) state' := by
  obtain ⟨g,newMixins⟩ := state
  have path := sound.listed c m member
  have lower := ancestor_rank descends path
  have irreflexive : ∀ a, ¬ TransGen E a a := fun a loop => Nat.lt_irrefl _ (ancestor_rank descends loop)
  unfold linearizeMixin
  dsimp only
  by_cases same : gs.superClass c = some m
  · refine ⟨(g,newMixins),if_pos same,{looping with covered := ?_}⟩
    intro m' member' d reached
    obtain old | new := List.mem_append.mp member'
    · exact looping.covered m' old d reached
    · obtain rfl := List.mem_singleton.mp new
      exact .inr ⟨m',same,reached⟩
  · have stubless : g.superClass m ≠ some StubSuperClass ∧ g.superClass m ≠ some StubModule :=
      looping.rooted.stubless m
    obtain ⟨g',computed,computes⟩ := below g m (by omega) looping.sound looping.rooted
    have linearizes : Linearizes E gs g' := looping.linearizes.trans computes.linearizes
    have isModule : g'.isModule m = true := (linearizes.isModule m).trans (rooted.modules c m member)
    have further : ∀ d ∈ m :: g'.mixins m, TransGen E c d ∧ gs.isModule d = true := by
      intro d member'
      obtain rfl | listed := List.mem_cons.mp member'
      · exact ⟨path,rooted.modules c d member⟩
      · refine ⟨path.trans (computes.sound.listed m d listed),?_⟩
        rw [← linearizes.isModule]
        exact computes.rooted.modules m d listed
    have apart : c ∉ m :: g'.mixins m := fun inside => irreflexive c (further c inside).1
    have parentLower : ∀ superClass, gs.superClass c = some superClass → rank superClass < fuel := by
      intro superClass found
      have := descends c superClass (sound.superClass c superClass found)
      omega
    obtain ⟨after,pos,inserted,inserts⟩ := @maybeAddMixins_inserts g' E rank c fuel (gs.superClass c) newMixins
      (m :: g'.mixins m) computes.sound descends parentLower apart
    have inherited : ∀ d, Inherited E (gs.superClass c) d → Above E gs c d :=
      fun d ⟨superClass,found,path'⟩ => ⟨superClass,found,.inr path'⟩
    refine ⟨(g',after),?_,?_⟩
    · rw [if_neg same,if_neg (by simp [stubless.1,stubless.2]),computed,Option.bind_some,if_pos isModule,inserted]
      rfl
    · refine ⟨computes.sound,computes.rooted,linearizes,?_,inserts.once looping.once,?_,?_⟩
      · intro d outside
        have apart' : d ≠ m := by
          rintro rfl
          exact outside path
        exact (computes.frame d apart' fun path' => outside (path.trans path')).trans (looping.frame d outside)
      · intro d new
        obtain old | ⟨component,free⟩ := inserts.added d new
        · exact looping.listed d old
        · exact ⟨(further d component).1,(further d component).2,free⟩
      · intro m' member' d reached
        obtain old | new := List.mem_append.mp member'
        · exact (looping.covered m' old d reached).imp_left (inserts.kept d)
        · obtain rfl := List.mem_singleton.mp new
          obtain rfl | path' := reached
          · exact (inserts.all d List.mem_cons_self).imp_right (inherited d)
          · obtain listed | ⟨superClass,found,reached⟩ := computes.sound.closed m' computes.computed d path'
            · exact (inserts.all d (List.mem_cons_of_mem _ listed)).imp_right (inherited d)
            · -- What is above a module is above the root, and so above c by its superclass.
              obtain rfl := computes.rooted.moduleSupers m' isModule superClass found
              have notRoot : c ≠ superClass := by
                rintro rfl
                exact irreflexive c (path.tail (computes.sound.superClass m' c found))
              have top := rooted.below c m' path notRoot
              obtain rfl | path'' := reached
              · exact .inr top
              · exact .inr (top.trans path'')

theorem setMixins_superClass {list : List ClassOrModuleRef} {computed : Bool} :
    (gs.setMixins c list computed).superClass d = gs.superClass d := by
  unfold GlobalState.setMixins GlobalState.superClass
  by_cases same : d = c
  · simp [same]
  · simp [same]

theorem setMixins_isModule {list : List ClassOrModuleRef} {computed : Bool} :
    (gs.setMixins c list computed).isModule d = gs.isModule d := by
  unfold GlobalState.setMixins GlobalState.isModule
  by_cases same : d = c
  · simp [same]
  · simp [same]

theorem setMixins_findMember {list : List ClassOrModuleRef} {computed : Bool} {name : NameRef} :
    (gs.setMixins c list computed).findMember d name = gs.findMember d name := by
  unfold GlobalState.setMixins GlobalState.findMember
  by_cases same : d = c
  · simp [same]
  · simp [same]

theorem setMixins_other {list : List ClassOrModuleRef} {computed : Bool} (other : d ≠ c) :
    (gs.setMixins c list computed).classAndModules d = gs.classAndModules d := Function.update_of_ne other ..

theorem setMixins_mixins {list : List ClassOrModuleRef} {computed : Bool} :
    (gs.setMixins c list computed).mixins c = list := by
  simp [GlobalState.setMixins,GlobalState.mixins]

theorem setMixins_computed {list : List ClassOrModuleRef} {computed : Bool} :
    (gs.setMixins c list computed).isLinearizationComputed c = computed := by
  simp [GlobalState.setMixins,GlobalState.isLinearizationComputed]

theorem setMixins_mixins_of_ne {list : List ClassOrModuleRef} {computed : Bool} (other : d ≠ c) :
    (gs.setMixins c list computed).mixins d = gs.mixins d := by
  rw [GlobalState.mixins,setMixins_other other,GlobalState.mixins]

theorem setMixins_computed_of_ne {list : List ClassOrModuleRef} {computed : Bool} (other : d ≠ c) :
    (gs.setMixins c list computed).isLinearizationComputed d = gs.isLinearizationComputed d := by
  rw [GlobalState.isLinearizationComputed,setMixins_other other,GlobalState.isLinearizationComputed]

theorem setMixins_above {list : List ClassOrModuleRef} {computed : Bool} :
    Above E (gs.setMixins c list computed) a d ↔ Above E gs a d := by
  unfold Above
  rw [setMixins_superClass]

-- A new list for c that covers the old one.
theorem Sound.setMixins {list : List ClassOrModuleRef} {computed : Bool} (sound : Sound E gs)
    (listed : ∀ d ∈ list, TransGen E c d) (direct : ∀ d, E c d → d ∈ list ∨ Above E gs c d)
    (closed : computed = true → ∀ d, TransGen E c d → d ∈ list ∨ Above E gs c d) :
    Sound E (gs.setMixins c list computed) where
  superClass := by
    intro a s found
    rw [setMixins_superClass] at found
    exact sound.superClass a s found
  listed := by
    intro a d member
    by_cases same : a = c
    · rw [same] at member ⊢
      rw [setMixins_mixins] at member
      exact listed d member
    · rw [setMixins_mixins_of_ne same] at member
      exact sound.listed a d member
  direct := by
    intro a d edge
    rw [setMixins_above]
    by_cases same : a = c
    · rw [same] at edge ⊢
      rw [setMixins_mixins]
      exact direct d edge
    · rw [setMixins_mixins_of_ne same]
      exact sound.direct a d edge
  closed := by
    intro a computed' d path
    rw [setMixins_above]
    by_cases same : a = c
    · rw [same] at path computed' ⊢
      rw [setMixins_computed] at computed'
      rw [setMixins_mixins]
      exact closed computed' d path
    · rw [setMixins_computed_of_ne same] at computed'
      rw [setMixins_mixins_of_ne same]
      exact sound.closed a computed' d path

theorem Rooted.setMixins {list : List ClassOrModuleRef} {computed : Bool} (rooted : Rooted E root gs)
    (modules : ∀ d ∈ list, gs.isModule d = true) : Rooted E root (gs.setMixins c list computed) where
  modules := by
    intro a d member
    rw [setMixins_isModule]
    by_cases same : a = c
    · rw [same,setMixins_mixins] at member
      exact modules d member
    · rw [setMixins_mixins_of_ne same] at member
      exact rooted.modules a d member
  moduleSupers := by
    intro m isModule s found
    rw [setMixins_isModule] at isModule
    rw [setMixins_superClass] at found
    exact rooted.moduleSupers m isModule s found
  stubless := by
    intro a
    rw [setMixins_superClass]
    exact rooted.stubless a
  below := by
    intro a d path other
    rw [setMixins_above]
    exact rooted.below a d path other

theorem setMixins_linearizes {list : List ClassOrModuleRef} (waiting : gs.isLinearizationComputed c = false)
    (tidy : list.Nodup ∧ ∀ d ∈ list, ¬ Inherited E (gs.superClass c) d) :
    Linearizes E gs (gs.setMixins c list true) where
  superClass := fun _ => setMixins_superClass
  isModule := fun _ => setMixins_isModule
  members := fun _ _ => setMixins_findMember
  used := rfl
  computed := by
    intro a computed
    have other : a ≠ c := by
      rintro rfl
      simp [waiting] at computed
    exact setMixins_other other
  waiting := by
    intro a waiting'
    have other : a ≠ c := by
      rintro rfl
      simp [setMixins_computed] at waiting'
    exact setMixins_other other
  tidy := by
    intro a computed
    by_cases same : a = c
    · right
      rw [same,Tidy,setMixins_mixins,setMixins_superClass]
      exact tidy
    · rw [setMixins_computed_of_ne same] at computed
      exact .inl computed

theorem computesBelow (descends : ∀ c d, E c d → rank d < rank c) (fuel : Nat) : ComputesBelow E rank root fuel := by
  induction fuel with
  | zero =>
    intro gs c enough
    cases enough
  | succ fuel ih =>
    intro gs c enough sound rooted
    have irreflexive : ∀ a, ¬ TransGen E a a := fun a loop => Nat.lt_irrefl _ (ancestor_rank descends loop)
    cases computed : gs.isLinearizationComputed c with
    | true =>
      refine ⟨gs,?_,sound,rooted,.refl gs,computed,fun _ _ _ => rfl⟩
      rw [computeClassLinearization,if_pos computed]
    | false =>
      -- First the superclass.
      have parent : ∃ g, (gs.superClass c).elim (some gs) (computeClassLinearization fuel gs) = some g ∧ Sound E g ∧
          Rooted E root g ∧ Linearizes E gs g ∧ ∀ d, ¬ TransGen E c d → g.classAndModules d = gs.classAndModules d := by
        cases found : gs.superClass c with
        | none => exact ⟨gs,rfl,sound,rooted,.refl gs,fun _ _ => rfl⟩
        | some superClass =>
          have edge := sound.superClass c superClass found
          have lower := descends c superClass edge
          obtain ⟨g,result,computes⟩ := ih gs superClass (by omega) sound rooted
          refine ⟨g,result,computes.sound,computes.rooted,computes.linearizes,fun d outside => ?_⟩
          refine computes.frame d ?_ fun path => outside (.head edge path)
          rintro rfl
          exact outside (.single edge)
      obtain ⟨g,result,sound',rooted',linearizes,frame⟩ := parent
      have superClass := linearizes.superClass c
      have here := frame c (irreflexive c)
      -- Then the mixins, one after the other.
      have loop := @foldlM_invariant _ _
        (linearizeMixin (computeClassLinearization fuel) (fullLinearizationSlowImpl fuel) fuel c (gs.superClass c))
        (g.mixins c) (Looping E root g c) ?_ (g,[])
        ⟨sound',rooted',.refl g,fun _ _ => rfl,List.nodup_nil,by simp,by simp⟩
      · obtain ⟨⟨last,newMixins⟩,run,looping⟩ := loop
        have same : last.classAndModules c = g.classAndModules c := looping.frame c (irreflexive c)
        have waiting : last.isLinearizationComputed c = false := by
          rw [GlobalState.isLinearizationComputed,same,here]
          exact computed
        have mixins : last.mixins c = g.mixins c := by rw [GlobalState.mixins,same,GlobalState.mixins]
        have above : ∀ d, Above E g c d → Above E last c d := fun d => looping.linearizes.above_iff.mpr
        have direct : ∀ d, E c d → d ∈ newMixins ∨ Above E last c d := by
          intro d edge
          obtain member | above' := looping.sound.direct c d edge
          · exact (looping.covered d (mixins ▸ member) d (.inl rfl)).imp_right (above d)
          · exact .inr above'
        have closed : ∀ d, TransGen E c d → d ∈ newMixins ∨ Above E last c d := by
          intro d path
          obtain ⟨a,member,reached⟩ | above' := looping.sound.ancestor_iff.mp path
          · exact (looping.covered a (mixins ▸ member) d (reached.imp_left Eq.symm)).imp_right (above d)
          · exact .inr above'
        have tidy : newMixins.Nodup ∧ ∀ d ∈ newMixins, ¬ Inherited E (last.superClass c) d := by
          refine ⟨looping.once,fun d member => ?_⟩
          rw [looping.linearizes.superClass]
          exact (looping.listed d member).2.2
        refine ⟨last.setMixins c newMixins true,?_,?_,?_,?_,setMixins_computed,?_⟩
        · rw [computeClassLinearization,if_neg (by simp [computed])]
          dsimp only
          rw [result,Option.bind_some,run]
          rfl
        · exact looping.sound.setMixins (fun d member => (looping.listed d member).1) direct fun _ => closed
        · refine looping.rooted.setMixins fun d member => ?_
          rw [looping.linearizes.isModule]
          exact (looping.listed d member).2.1
        · exact (linearizes.trans looping.linearizes).trans (setMixins_linearizes waiting tidy)
        · intro d other outside
          exact ((setMixins_other other).trans (looping.frame d outside)).trans (frame d outside)
      · intro done m rest state split looping
        rw [← superClass]
        refine linearizeMixin_looping descends ih enough sound' rooted' ?_ looping
        rw [split]
        exact List.mem_append_right _ List.mem_cons_self

theorem computeLinearization_run (descends : ∀ c d, E c d → rank d < rank c) (enough : ∀ c, rank c < fuel)
    (sound : Sound E gs) (rooted : Rooted E root gs) (order : List ClassOrModuleRef) :
    ∃ gs', computeLinearization fuel order gs = some gs' ∧ Sound E gs' ∧ Rooted E root gs' ∧ Linearizes E gs gs' ∧
      ∀ c ∈ order, gs'.isLinearizationComputed c = true := by
  have loop := @foldlM_invariant _ _ (computeClassLinearization fuel) order
    (fun done g => Sound E g ∧ Rooted E root g ∧ Linearizes E gs g ∧ ∀ c ∈ done, g.isLinearizationComputed c = true)
    ?_ gs ⟨sound,rooted,.refl gs,by simp⟩
  · exact loop
  · rintro done c rest g - ⟨sound,rooted,linearizes,computed⟩
    obtain ⟨g',result,computes⟩ := computesBelow descends fuel g c (enough c) sound rooted
    refine ⟨g',result,computes.sound,computes.rooted,linearizes.trans computes.linearizes,?_⟩
    intro d member
    obtain old | new := List.mem_append.mp member
    · exact computes.linearizes.still (computed d old)
    · obtain rfl := List.mem_singleton.mp new
      exact computes.computed

section Heights
open Classical

-- How many symbols are above one.
noncomputable def height (E : ClassOrModuleRef → ClassOrModuleRef → Prop) (used : Nat) (c : ClassOrModuleRef) : Nat :=
  ((Finset.range used).filter (TransGen E c)).card

theorem height_le (used : Nat) : height E used c ≤ used :=
  (Finset.card_filter_le _ _).trans (Finset.card_range used).le

theorem height_lt {used : Nat} (inside : ∀ c d, E c d → d < used) (acyclic : ∀ c, ¬ TransGen E c c) (edge : E c d) :
    height E used d < height E used c := by
  refine Finset.card_lt_card (Finset.ssubset_iff_of_subset ?_ |>.mpr ⟨d,?_,?_⟩)
  · intro a member
    obtain ⟨small,path⟩ := Finset.mem_filter.mp member
    exact Finset.mem_filter.mpr ⟨small,.head edge path⟩
  · exact Finset.mem_filter.mpr ⟨Finset.mem_range.mpr (inside c d edge),.single edge⟩
  · exact fun member => acyclic d (Finset.mem_filter.mp member).2

end Heights

section Members

-- The number of superclasses that a symbol has.
inductive SuperDepth (gs : GlobalState) : ClassOrModuleRef → Nat → Prop where
  | root {c : ClassOrModuleRef} : gs.superClass c = none → SuperDepth gs c 0
  | step {c s : ClassOrModuleRef} {depth : Nat} : gs.superClass c = some s → SuperDepth gs s depth → SuperDepth gs c (depth + 1)

def Declares (gs : GlobalState) (c : ClassOrModuleRef) (name : NameRef) : Prop := (gs.findMember c name).isSome = true

theorem findMemberTransitiveInternal_own {name : NameRef} {maxDepth : Nat} (computed : gs.isLinearizationComputed c = true)
    (declared : ∃ d, (d = c ∨ d ∈ gs.mixins c) ∧ Declares gs d name) :
    ∃ symbol, gs.findMemberTransitiveInternal name (maxDepth + 1) c = .found symbol := by
  rw [GlobalState.findMemberTransitiveInternal]
  cases own : gs.findMember c name with
  | some symbol => exact ⟨symbol,rfl⟩
  | none =>
    obtain ⟨d,rfl | member,declares⟩ := declared
    · simp [Declares,own] at declares
    · have some_ : ((gs.mixins c).findSome? (gs.findMember · name)).isSome = true :=
        List.findSome?_isSome_iff.mpr ⟨d,member,declares⟩
      obtain ⟨symbol,found⟩ := Option.isSome_iff_exists.mp some_
      exact ⟨symbol,by simp [computed,found]⟩

theorem findMemberTransitiveInternal_above {name : NameRef} {maxDepth : Nat} (computed : gs.isLinearizationComputed c = true)
    (undeclared : ¬ ∃ d, (d = c ∨ d ∈ gs.mixins c) ∧ Declares gs d name) :
    gs.findMemberTransitiveInternal name (maxDepth + 1) c =
      (gs.superClass c).elim .missing (gs.findMemberTransitiveInternal name maxDepth) := by
  have own : gs.findMember c name = none := by
    by_contra declares
    exact undeclared ⟨c,.inl rfl,Option.isSome_iff_ne_none.mpr declares⟩
  have mixedIn : (gs.mixins c).findSome? (gs.findMember · name) = none := by
    refine List.findSome?_eq_none_iff.mpr fun d member => ?_
    by_contra declares
    exact undeclared ⟨d,.inr member,Option.isSome_iff_ne_none.mpr declares⟩
  rw [GlobalState.findMemberTransitiveInternal]
  simp only [own,computed,if_true,mixedIn]
  cases gs.superClass c <;> rfl

theorem findMemberTransitiveInternal_iff {name : NameRef} {depth maxDepth : Nat} (sound : Sound E gs)
    (computed : ∀ d, d = c ∨ TransGen E c d → gs.isLinearizationComputed d = true) (short : SuperDepth gs c depth)
    (enough : depth < maxDepth) :
    gs.findMemberTransitiveInternal name maxDepth c ≠ .loop ∧
    ((∃ symbol, gs.findMemberTransitiveInternal name maxDepth c = .found symbol) ↔
      ∃ d, (d = c ∨ TransGen E c d) ∧ Declares gs d name) := by
  induction short generalizing maxDepth with
  | @root c top =>
    obtain ⟨maxDepth,rfl⟩ : ∃ rest, maxDepth = rest + 1 := ⟨maxDepth - 1,by omega⟩
    have here := computed c (.inl rfl)
    by_cases declared : ∃ d, (d = c ∨ d ∈ gs.mixins c) ∧ Declares gs d name
    · obtain ⟨symbol,found⟩ := @findMemberTransitiveInternal_own _ _ _ maxDepth here declared
      obtain ⟨d,place,declares⟩ := declared
      refine ⟨by simp [found],fun _ => ⟨d,place.imp_right (sound.listed c d),declares⟩,fun _ => ⟨symbol,found⟩⟩
    · have result := @findMemberTransitiveInternal_above _ _ _ maxDepth here declared
      rw [top,Option.elim_none] at result
      refine ⟨by simp [result],by simp [result],?_⟩
      rintro ⟨d,rfl | path,declares⟩
      · exact absurd ⟨d,.inl rfl,declares⟩ declared
      · obtain member | ⟨superClass,found,_⟩ := sound.closed c here d path
        · exact absurd ⟨d,.inr member,declares⟩ declared
        · simp [top] at found
  | @step c s depth found _ ih =>
    obtain ⟨maxDepth,rfl⟩ : ∃ rest, maxDepth = rest + 1 := ⟨maxDepth - 1,by omega⟩
    have here := computed c (.inl rfl)
    have edge := sound.superClass c s found
    by_cases declared : ∃ d, (d = c ∨ d ∈ gs.mixins c) ∧ Declares gs d name
    · obtain ⟨symbol,result⟩ := @findMemberTransitiveInternal_own _ _ _ maxDepth here declared
      obtain ⟨d,place,declares⟩ := declared
      refine ⟨by simp [result],fun _ => ⟨d,place.imp_right (sound.listed c d),declares⟩,fun _ => ⟨symbol,result⟩⟩
    · have result := @findMemberTransitiveInternal_above _ _ _ maxDepth here declared
      rw [found,Option.elim_some] at result
      have later : ∀ d, d = s ∨ TransGen E s d → gs.isLinearizationComputed d = true := by
        rintro d (rfl | path)
        · exact computed d (.inr (.single edge))
        · exact computed d (.inr (.head edge path))
      rw [result]
      refine (ih later (by omega)).imp_right fun holds => holds.trans ?_
      constructor
      · rintro ⟨d,rfl | path,declares⟩
        · exact ⟨d,.inr (.single edge),declares⟩
        · exact ⟨d,.inr (.head edge path),declares⟩
      · rintro ⟨d,rfl | path,declares⟩
        · exact absurd ⟨d,.inl rfl,declares⟩ declared
        · obtain member | ⟨superClass,found',reached⟩ := sound.closed c here d path
          · exact absurd ⟨d,.inr member,declares⟩ declared
          · cases Option.some.inj (found.symm.trans found')
            exact ⟨d,reached,declares⟩

end Members

end Ancestry
