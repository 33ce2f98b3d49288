import ScipRuby.Lsp.Subclasses

namespace Lsp
open Ancestry Relation
variable {gs : GlobalState} {roots : List ClassOrModuleRef} {skip : ClassOrModuleRef → Bool}
variable {π : Equiv.Perm ClassOrModuleRef} {c d m root : ClassOrModuleRef}

-- The same hierarchy with other ids.
def renumber (π : Equiv.Perm ClassOrModuleRef) (gs : GlobalState) : GlobalState :=
  {gs with classAndModules := fun c =>
    let data := gs.classAndModules (π.symm c)
    {data with superClass := data.superClass.map π,mixins := data.mixins.map π}}

def Renumbers (π : Equiv.Perm ClassOrModuleRef) (gs : GlobalState) : Prop := ∀ c, gs.Exists (π c) ↔ gs.Exists c

def BelowRoot (gs : GlobalState) (roots : List ClassOrModuleRef) (c : ClassOrModuleRef) : Prop :=
  c ∈ roots ∨ ∃ r ∈ roots, gs.derivesFrom (gs.classAndModulesUsed + 1) c r = some true

-- Who mixes in a class below a root is below a root too.
def FlattenedBelow (gs : GlobalState) (roots : List ClassOrModuleRef) : Prop :=
  ∀ c, ∀ m ∈ gs.mixins c, BelowRoot gs roots m → BelowRoot gs roots c

-- Under every numbering of the classes, in the order of the ids and without duplicates.
def SlowExact (gs : GlobalState) (root : ClassOrModuleRef) (includeRoot : Bool) : Prop :=
  ∀ π, Renumbers π gs → ∃ subclasses, getSubclassesSlow (renumber π gs) (π root) includeRoot = some subclasses ∧
    subclasses.Pairwise (· < ·) ∧ ∀ c, π c ∈ subclasses ↔ gs.Exists c ∧
      (includeRoot = true ∧ c = root ∨ gs.derivesFrom (gs.classAndModulesUsed + 1) c root = some true)

def MultiExact (gs : GlobalState) (roots : List ClassOrModuleRef) : Prop :=
  ∀ π, Renumbers π gs → ∃ subclasses, getSubclassesSlowMulti (renumber π gs) (roots.map π) = some subclasses ∧
    subclasses.Pairwise (· < ·) ∧ ∀ c, π c ∈ subclasses ↔ gs.Exists c ∧
      (c ∈ roots ∨ ∃ r ∈ roots, gs.derivesFrom (gs.classAndModulesUsed + 1) c r = some true)

section Numbering

theorem belowRoot_iff (linearized : Linearized gs) : BelowRoot gs roots c ↔ Under gs roots c := by
  simp only [BelowRoot,Under,derivesFrom_true linearized]

theorem flattenedBelow_iff (linearized : Linearized gs) : FlattenedBelow gs roots ↔ Flattened gs roots := by
  simp only [FlattenedBelow,Flattened,belowRoot_iff linearized]

theorem exists_iff : c ∈ List.range' 1 (gs.classAndModulesUsed - 1) ↔ gs.Exists c := by
  rw [List.mem_range'_1,GlobalState.Exists]
  constructor
  · rintro ⟨low,high⟩
    exact ⟨low,Nat.lt_of_lt_of_le high (by omega)⟩
  · rintro ⟨low,high⟩
    exact ⟨low,Nat.lt_of_lt_of_le high (by omega)⟩

theorem renumber_superClass (π : Equiv.Perm ClassOrModuleRef) (c : ClassOrModuleRef) :
    (renumber π gs).superClass (π c) = (gs.superClass c).map π := by
  simp [renumber,GlobalState.superClass]

theorem renumber_mixins (π : Equiv.Perm ClassOrModuleRef) (c : ClassOrModuleRef) :
    (renumber π gs).mixins (π c) = (gs.mixins c).map π := by
  simp [renumber,GlobalState.mixins]

theorem renumber_mem : π m ∈ (renumber π gs).mixins (π c) ↔ m ∈ gs.mixins c := by
  rw [renumber_mixins]
  exact List.mem_map_of_injective π.injective

theorem renumber_superEdge : SuperEdge (renumber π gs) (π c) (π d) ↔ SuperEdge gs c d := by
  rw [SuperEdge,renumber_superClass,SuperEdge,Option.map_eq_some_iff]
  constructor
  · rintro ⟨s,found,same⟩
    rwa [← π.injective same]
  · exact fun found => ⟨d,found,rfl⟩

theorem renumber_edge : Edge (renumber π gs) (π c) (π d) ↔ Edge gs c d :=
  or_congr renumber_superEdge renumber_mem

theorem renumber_derives : Derives (renumber π gs) (π c) (π d) ↔ Derives gs c d := by
  constructor
  · intro derives
    generalize start : π c = c' at derives
    generalize stop : π d = d' at derives
    induction derives generalizing c with
    | mixin member =>
      subst start stop
      exact .mixin (renumber_mem.mp member)
    | superClass found =>
      subst start stop
      exact .superClass (renumber_superEdge.mp found)
    | @above _ s _ found _ ih =>
      subst start
      obtain ⟨s,rfl⟩ := π.surjective s
      exact .above (renumber_superEdge.mp found) (ih rfl stop)
  · intro derives
    induction derives with
    | mixin member => exact .mixin (renumber_mem.mpr member)
    | superClass found => exact .superClass (renumber_superEdge.mpr found)
    | above found _ ih => exact .above (renumber_superEdge.mpr found) ih

theorem renumber_under : Under (renumber π gs) (roots.map π) (π c) ↔ Under gs roots c := by
  simp [Under,renumber_derives]

theorem renumber_flattened (flattened : Flattened gs roots) : Flattened (renumber π gs) (roots.map π) := by
  intro c m member under
  obtain ⟨c,rfl⟩ := π.surjective c
  obtain ⟨m,rfl⟩ := π.surjective m
  exact renumber_under.mpr (flattened c m (renumber_mem.mp member) (renumber_under.mp under))

theorem renumber_linearized (linearized : Linearized gs) (renumbers : Renumbers π gs) : Linearized (renumber π gs) := by
  refine ⟨fun c there => ?_,fun c d edge => ?_,fun c loop => ?_⟩
  · obtain ⟨c,rfl⟩ := π.surjective c
    have computed := linearized.computed c ((renumbers c).mp there)
    simpa [renumber,GlobalState.isLinearizationComputed] using computed
  · obtain ⟨c,rfl⟩ := π.surjective c
    obtain ⟨d,rfl⟩ := π.surjective d
    obtain ⟨left,right⟩ := linearized.inside c d (renumber_edge.mp edge)
    exact ⟨(renumbers c).mpr left,(renumbers d).mpr right⟩
  · have back : ∀ a b, SuperEdge (renumber π gs) a b → SuperEdge gs (π.symm a) (π.symm b) := by
      intro a b edge
      apply (renumber_superEdge (π := π)).mp
      simpa using edge
    exact linearized.acyclic (π.symm c) (TransGen.lift π.symm back c c loop)

end Numbering

section Lists

-- Completeness needs no more than the linearized lists, soundness that they are flat.
theorem getSubclasses_exact (linearized : Linearized gs) (skips : ∀ s, skip s = true → s ∈ roots) (flattened : Flattened gs roots) :
    ∃ subclasses, getSubclasses gs roots skip = some subclasses ∧ subclasses.Pairwise (· < ·) ∧
      ∀ c, c ∈ subclasses ↔ gs.Exists c ∧ skip c = false ∧ Under gs roots c := by
  obtain ⟨subclasses,memo,run,listed⟩ := getSubclasses_run linearized skips
  refine ⟨subclasses,run,?_,fun c => ?_⟩
  · have list := listed.list
    dsimp only at list
    rw [list]
    exact List.Pairwise.filter _ List.pairwise_lt_range'
  · have list := listed.list
    dsimp only at list
    rw [list,List.mem_filter,exists_iff,Bool.and_eq_true,Bool.not_eq_true']
    constructor
    · rintro ⟨there,kept,found⟩
      exact ⟨there,kept,listed.sound flattened c found⟩
    · rintro ⟨there,kept,under⟩
      have seen := listed.visited c (exists_iff.mpr there) kept
      exact ⟨there,kept,(listed.kept.complete c seen under).resolve_right id⟩

-- The first class of the table is found before anyone that mixes it in is visited.
theorem getSubclasses_overfull (linearized : Linearized gs) (skips : ∀ s, skip s = true → s ∈ roots)
    (member : 1 ∈ gs.mixins c) (under : Under gs roots 1) (outside : ¬ Under gs roots c) :
    ∃ subclasses, getSubclasses gs roots skip = some subclasses ∧ c ∈ subclasses := by
  obtain ⟨subclasses,memo,run,listed⟩ := getSubclasses_run linearized skips
  obtain ⟨there,first_⟩ := linearized.inside c 1 (.inr member)
  have kept : skip c = false := by
    cases passed : skip c with
    | false => rfl
    | true => exact absurd (.inl (skips c passed)) outside
  have first : (List.range' 1 (gs.classAndModulesUsed - 1)).head? = some 1 := by
    have used : 1 < gs.classAndModulesUsed := first_.2
    obtain ⟨n,size⟩ : ∃ n, gs.classAndModulesUsed - 1 = n + 1 := ⟨gs.classAndModulesUsed - 2,by omega⟩
    rw [size]
    rfl
  obtain ⟨_,_,caught⟩ := listed.caught c 1 member under outside first
  have found := caught (listed.visited c (exists_iff.mpr there) kept)
  have list := listed.list
  dsimp only at list found
  refine ⟨subclasses,run,?_⟩
  rw [list,List.mem_filter,exists_iff,kept,found]
  exact ⟨there,rfl⟩

theorem getSubclasses_skips (linearized : Linearized gs) (skips : ∀ s, skip s = true → s ∈ roots) (passed : skip c = true) :
    ∃ subclasses, getSubclasses gs roots skip = some subclasses ∧ c ∉ subclasses := by
  obtain ⟨subclasses,memo,run,listed⟩ := getSubclasses_run linearized skips
  have list := listed.list
  dsimp only at list
  refine ⟨subclasses,run,?_⟩
  rw [list]
  simp [passed]

-- A mixin that comes first.
theorem swap_renumbers (there : gs.Exists m) : Renumbers (Equiv.swap m 1) gs := by
  have first : gs.Exists 1 := ⟨Nat.one_pos,Nat.lt_of_le_of_lt there.1 there.2⟩
  intro c
  by_cases left : c = m
  · rw [left,Equiv.swap_apply_left]
    exact iff_of_true first there
  · by_cases right : c = 1
    · rw [right,Equiv.swap_apply_right]
      exact iff_of_true there first
    · rw [Equiv.swap_apply_of_ne_of_ne left right]

end Lists

section Exactness

-- What the table of any numbering lists when mixing in never loses a root.
theorem getSubclasses_numbered (linearized : Linearized gs) (renumbers : Renumbers π gs)
    (skips : ∀ s, skip s = true → s ∈ roots.map π) (flattened : Flattened gs roots) :
    ∃ subclasses, getSubclasses (renumber π gs) (roots.map π) skip = some subclasses ∧ subclasses.Pairwise (· < ·) ∧
      ∀ c, π c ∈ subclasses ↔ gs.Exists c ∧ skip (π c) = false ∧ Under gs roots c := by
  obtain ⟨subclasses,run,sorted,members⟩ :=
    getSubclasses_exact (renumber_linearized linearized renumbers) skips (renumber_flattened flattened)
  refine ⟨subclasses,run,sorted,fun c => ?_⟩
  have there : (renumber π gs).Exists (π c) ↔ gs.Exists c := renumbers c
  rw [members,there,renumber_under]

-- Where mixing in loses a root, the numbering that puts the mixin first lists the class.
theorem flattened_of_exact (linearized : Linearized gs)
    (skips : ∀ π : Equiv.Perm ClassOrModuleRef, ∀ s, skip (π.symm s) = true → s ∈ roots.map π)
    (exact_ : ∀ π, Renumbers π gs → ∀ subclasses,
      getSubclasses (renumber π gs) (roots.map π) (fun s => skip (π.symm s)) = some subclasses →
        ∀ c, π c ∈ subclasses → Under gs roots c) : Flattened gs roots := by
  intro c m member under
  by_contra outside
  have there := (linearized.inside c m (.inr member)).2
  have renumbers := swap_renumbers there
  have first : Equiv.swap m 1 m = 1 := Equiv.swap_apply_left m 1
  generalize Equiv.swap m 1 = π at renumbers first
  have member' : 1 ∈ (renumber π gs).mixins (π c) := first ▸ renumber_mem.mpr member
  have under' : Under (renumber π gs) (roots.map π) 1 := first ▸ renumber_under.mpr under
  have outside' : ¬ Under (renumber π gs) (roots.map π) (π c) := fun inside => outside (renumber_under.mp inside)
  obtain ⟨subclasses,run,listed⟩ :=
    getSubclasses_overfull (renumber_linearized linearized renumbers) (skips π) member' under' outside'
  exact outside (exact_ π renumbers subclasses run c listed)

theorem getSubclassesSlow_numbered (π : Equiv.Perm ClassOrModuleRef) (root : ClassOrModuleRef) (includeRoot : Bool) :
    getSubclassesSlow (renumber π gs) (π root) includeRoot =
      getSubclasses (renumber π gs) ([root].map π) fun s => !includeRoot && π.symm s == root := by
  have same : (fun s => !includeRoot && s == π root) = fun s => !includeRoot && π.symm s == root := by
    funext s
    have apart : (s == π root) = (π.symm s == root) := by
      rw [Bool.eq_iff_iff,beq_iff_eq,beq_iff_eq,Equiv.symm_apply_eq]
    rw [apart]
  rw [getSubclassesSlow,same]
  rfl

theorem under_singleton : Under gs [root] c ↔ c = root ∨ Derives gs c root := by simp [Under]

theorem slowExact_iff (linearized : Linearized gs) (there : gs.Exists root) (includeRoot : Bool) :
    SlowExact gs root includeRoot ↔ FlattenedBelow gs [root] ∧
      (includeRoot = true ∨ gs.derivesFrom (gs.classAndModulesUsed + 1) root root ≠ some true) := by
  have skips : ∀ π : Equiv.Perm ClassOrModuleRef, ∀ s,
      (!includeRoot && π.symm s == root) = true → s ∈ [root].map π := by
    intro π s passed
    have same := (Bool.and_eq_true_iff.mp passed).2
    rw [beq_iff_eq,Equiv.symm_apply_eq] at same
    simp [same]
  simp only [SlowExact,derivesFrom_true linearized,ne_eq,flattenedBelow_iff linearized,getSubclassesSlow_numbered]
  constructor
  · intro exact_
    constructor
    · apply @flattened_of_exact _ _ (fun s => !includeRoot && s == root) linearized skips
      intro π renumbers subclasses run c member
      obtain ⟨subclasses',run',_,members⟩ := exact_ π renumbers
      obtain rfl := Option.some.inj (run.symm.trans run')
      obtain ⟨_,included | derives⟩ := (members c).mp member
      · exact under_singleton.mpr (.inl included.2)
      · exact under_singleton.mpr (.inr derives)
    · rw [or_iff_not_imp_left]
      intro left derives
      -- The root is skipped, although it derives from itself.
      have passed : (!includeRoot && (Equiv.refl ClassOrModuleRef).symm root == root) = true := by simpa using left
      have renumbers : Renumbers (Equiv.refl ClassOrModuleRef) gs := fun _ => Iff.rfl
      obtain ⟨subclasses,run,missed⟩ :=
        getSubclasses_skips (renumber_linearized linearized renumbers) (skips (Equiv.refl _)) passed
      obtain ⟨subclasses',run',_,members⟩ := exact_ (Equiv.refl _) renumbers
      obtain rfl := Option.some.inj (run.symm.trans run')
      exact missed ((members root).mpr ⟨there,.inr derives⟩)
  · rintro ⟨flattened,alone⟩ π renumbers
    obtain ⟨subclasses,run,sorted,members⟩ := getSubclasses_numbered linearized renumbers (skips π) flattened
    refine ⟨subclasses,run,sorted,fun c => ?_⟩
    rw [members,under_singleton,π.symm_apply_apply]
    apply and_congr_right
    intro _
    cases includeRoot with
    | true => simp
    | false =>
      have proper : Derives gs c root → c ≠ root := by
        rintro derives rfl
        exact (alone.resolve_left Bool.false_ne_true) derives
      simp only [Bool.not_false,Bool.true_and,beq_eq_false_iff_ne,Bool.false_eq_true,false_and,false_or]
      constructor
      · rintro ⟨other,under⟩
        exact under.resolve_left other
      · exact fun derives => ⟨proper derives,.inr derives⟩

theorem multiExact_iff (linearized : Linearized gs) : MultiExact gs roots ↔ FlattenedBelow gs roots := by
  simp only [MultiExact,derivesFrom_true linearized,flattenedBelow_iff linearized,getSubclassesSlowMulti]
  constructor
  · intro exact_
    apply @flattened_of_exact _ _ (fun _ => false) linearized (fun _ _ passed => nomatch passed)
    intro π renumbers subclasses run c member
    obtain ⟨subclasses',run',_,members⟩ := exact_ π renumbers
    obtain rfl := Option.some.inj (run.symm.trans run')
    exact ((members c).mp member).2
  · intro flattened π renumbers
    obtain ⟨subclasses,run,sorted,members⟩ :=
      @getSubclasses_numbered _ _ (fun _ => false) _ linearized renumbers (fun _ passed => nomatch passed) flattened
    refine ⟨subclasses,run,sorted,fun c => ?_⟩
    rw [members]
    simp [Under]

-- The lists that the linearization of a whole hierarchy leaves are flat below any roots.
theorem linearization_flattened {gs' : GlobalState} {fuel : Nat} {order : List ClassOrModuleRef} (hierarchy : Hierarchy gs root)
    (chained : ∀ c, gs.Exists c → c ≠ root → TransGen (SuperEdge gs) c root) (all : ∀ c, gs.Exists c → c ∈ order)
    (enough : gs.classAndModulesUsed < fuel) (run : computeLinearization fuel order gs = some gs') :
    Linearized gs' ∧ ∀ roots, FlattenedBelow gs' roots := by
  have descends := hierarchy.descends
  have fueled : ∀ c, height (Edge gs) gs.classAndModulesUsed c < fuel := fun c => (height_le _).trans_lt enough
  obtain ⟨gs'',run',sound,_,linearizes,computed⟩ :=
    computeLinearization_run descends fueled hierarchy.sound (hierarchy.rooted chained) order
  obtain rfl := Option.some.inj (run.symm.trans run')
  have there : ∀ c, gs'.Exists c ↔ gs.Exists c := fun c => by rw [GlobalState.Exists,GlobalState.Exists,linearizes.used]
  have path : ∀ c d, Edge gs' c d → TransGen (Edge gs) c d := by
    rintro c d (found | member)
    · exact .single (sound.superClass c d found)
    · exact sound.listed c d member
  have linearized : Linearized gs' := by
    refine ⟨fun c inside => computed c (all c ((there c).mp inside)),fun c d edge => ?_,fun c loop => ?_⟩
    · obtain ⟨a,first,_⟩ := TransGen.head'_iff.mp (path c d edge)
      obtain ⟨b,_,last⟩ := TransGen.tail'_iff.mp (path c d edge)
      exact ⟨(there c).mpr (hierarchy.inside c a first).1,(there d).mpr (hierarchy.inside b d last).2⟩
    · have included : SuperEdge gs' ≤ Edge gs := fun a b found => sound.superClass a b found
      exact hierarchy.acyclic c (TransGen.mono included c c loop)
  refine ⟨linearized,fun roots => (flattenedBelow_iff linearized).mpr ?_⟩
  have ancestors : ∀ c d, Derives gs' c d ↔ TransGen (Edge gs) c d := by
    intro c d
    have rank : height (Edge gs) gs.classAndModulesUsed c < gs'.classAndModulesUsed + 1 := by
      rw [linearizes.used]
      exact Nat.lt_succ_of_le (height_le _)
    obtain ⟨derived,result,holds⟩ := @derivesFrom_iff _ _ _ c d _ sound descends rank
    rw [← derivesFrom_true linearized,result,Option.some_inj,holds]
  intro c m member under
  have above := sound.listed c m member
  obtain root | ⟨r,root,derives⟩ := under
  · exact .inr ⟨m,root,(ancestors c m).mpr above⟩
  · exact .inr ⟨r,root,(ancestors c r).mpr (above.trans ((ancestors m r).mp derives))⟩

-- The searches are exact under every numbering just where mixing in never loses a root.
theorem getSubclasses_exact_iff (linearized : Linearized gs) :
    (∀ root, gs.Exists root → ∀ includeRoot, SlowExact gs root includeRoot ↔ FlattenedBelow gs [root] ∧
      (includeRoot = true ∨ gs.derivesFrom (gs.classAndModulesUsed + 1) root root ≠ some true)) ∧
    ∀ roots, (∀ r ∈ roots, gs.Exists r) → (MultiExact gs roots ↔ FlattenedBelow gs roots) :=
  ⟨fun _ there includeRoot => slowExact_iff linearized there includeRoot,fun _ _ => multiExact_iff linearized⟩

end Exactness

section Samples

-- Class 48 has a superclass that could not be resolved and mixes in module 47; class 49
-- mixes in class 48, whose list linearization does not take over.
def unresolvedClasses (computed : Bool) : GlobalState where
  classAndModules
    | 46 => ⟨some 1,[],false,computed,fun _ => none⟩
    | 47 => ⟨some 1,[],true,computed,fun _ => none⟩
    | 48 => ⟨some StubSuperClass,[47],false,computed,fun _ => none⟩
    | 49 => ⟨some 1,[48],false,computed,fun _ => none⟩
    | _ => ⟨none,[],false,computed,fun _ => none⟩
  classAndModulesUsed := 50
  dealias := id

theorem unresolvedClasses_edges (edge : Edge (unresolvedClasses true) c d) :
    (c,d) ∈ [(46,1),(47,1),(48,46),(48,47),(49,1),(49,48)] := by
  simp only [Edge,GlobalState.superClass,GlobalState.mixins,unresolvedClasses] at edge
  split at edge <;> simp_all [StubSuperClass,eq_comm]

theorem unresolvedClasses_linearized : Linearized (unresolvedClasses true) := by
  refine ⟨fun c _ => ?_,fun c d edge => ?_,fun c loop => ?_⟩
  · unfold GlobalState.isLinearizationComputed unresolvedClasses
    dsimp only
    split <;> rfl
  · have known := unresolvedClasses_edges edge
    have small : ∀ pair ∈ [(46,1),(47,1),(48,46),(48,47),(49,1),(49,48)],
        (unresolvedClasses true).Exists pair.1 ∧ (unresolvedClasses true).Exists pair.2 := by decide
    exact small (c,d) known
  · have falls : ∀ c d, SuperEdge (unresolvedClasses true) c d → d < c := by
      intro c d found
      have known := unresolvedClasses_edges (.inl found)
      have small : ∀ pair ∈ [(46,1),(47,1),(48,46),(48,47),(49,1),(49,48)], pair.2 < pair.1 := by decide
      exact small (c,d) known
    exact Nat.lt_irrefl _ (@ancestor_rank _ id c c falls loop)

theorem getSubclasses_exact_iff_unresolved :
    MultiExact (unresolvedClasses true) [48] ↔ FlattenedBelow (unresolvedClasses true) [48] :=
  (getSubclasses_exact_iff unresolvedClasses_linearized).2 [48] (by decide)

def listsOf (gs : GlobalState) : List (Option ClassOrModuleRef × List ClassOrModuleRef × Bool) :=
  (List.range' 1 (gs.classAndModulesUsed - 1)).map fun c => (gs.superClass c,gs.mixins c,gs.isLinearizationComputed c)

-- Linearization leaves these lists. Class 49 does not derive from module 47; it is a
-- subclass of it all the same, unless its id is the smaller one.
theorem getSubclassesSlow_unresolved : Linearized (unresolvedClasses true) ∧
    (computeLinearization 51 (List.range' 1 49) (unresolvedClasses false)).map listsOf = some (listsOf (unresolvedClasses true)) ∧
    (unresolvedClasses true).derivesFrom 51 49 47 = some false ∧
    getSubclassesSlow (unresolvedClasses true) 47 true = some [47,48,49] ∧
    getSubclassesSlow (renumber (Equiv.swap 48 49) (unresolvedClasses true)) 47 true = some [47,49] ∧
    ¬ SlowExact (unresolvedClasses true) 47 true ∧ ¬ MultiExact (unresolvedClasses true) [47] := by
  have apart : (unresolvedClasses true).derivesFrom 51 49 47 = some false := by decide
  have lost : ¬ FlattenedBelow (unresolvedClasses true) [47] := by
    intro flattened
    have mixin : (unresolvedClasses true).derivesFrom 51 48 47 = some true := by decide
    obtain root | ⟨r,root,derives⟩ := flattened 49 48 (by decide) (.inr ⟨47,List.mem_cons_self,mixin⟩)
    · exact absurd root (by decide)
    · rw [List.mem_singleton.mp root] at derives
      cases apart.symm.trans derives
  refine ⟨unresolvedClasses_linearized,by decide +kernel,apart,by decide +kernel,by decide +kernel,?_,?_⟩
  · exact fun exact_ => lost ((slowExact_iff unresolvedClasses_linearized (by decide) true).mp exact_).1
  · exact fun exact_ => lost ((multiExact_iff unresolvedClasses_linearized).mp exact_)

end Samples

end Lsp
