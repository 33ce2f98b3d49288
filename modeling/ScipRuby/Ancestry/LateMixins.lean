import ScipRuby.Ancestry.Preservation

namespace Ancestry
open Relation
variable {gs gs' : GlobalState} {E : ClassOrModuleRef → ClassOrModuleRef → Prop} {rank : ClassOrModuleRef → Nat}
variable {c d m s root : ClassOrModuleRef} {fuel : Nat} {order order' : List ClassOrModuleRef}
variable {added : List (ClassOrModuleRef × ClassOrModuleRef)}

-- Calls of addMixin one after the other, each for a symbol and its new mixin.
def addMixins (fuel : Nat) (added : List (ClassOrModuleRef × ClassOrModuleRef)) (gs : GlobalState) : Option GlobalState :=
  added.foldlM (fun gs (s,m) => gs.addMixin fuel s m none) gs

-- The edges of a hierarchy with the new mixins.
def Extended (E : ClassOrModuleRef → ClassOrModuleRef → Prop) (added : List (ClassOrModuleRef × ClassOrModuleRef))
    (c d : ClassOrModuleRef) : Prop :=
  E c d ∨ (c,d) ∈ added

-- Every other linearized symbol that lists s has the new ancestors already: its list will not be made again.
def Unaffected (fuel : Nat) (gs : GlobalState) (s m : ClassOrModuleRef) : Prop :=
  ∀ c, c ≠ s → gs.isLinearizationComputed c = true → s ∈ gs.mixins c →
    gs.derivesFrom fuel c m = some true ∧
    ∀ d, gs.derivesFrom fuel m d = some true → gs.derivesFrom fuel c d = some true

def UnaffectedRun (fuel : Nat) : GlobalState → List (ClassOrModuleRef × ClassOrModuleRef) → Prop
  | _,[] => True
  | gs,(s,m) :: rest =>
    Unaffected fuel gs s m ∧ ∀ gs', gs.addMixin fuel s m none = some gs' → UnaffectedRun fuel gs' rest

theorem extended_nil : Extended E [] = E := by
  funext c d
  simp [Extended]

theorem extended_cons {edge : ClassOrModuleRef × ClassOrModuleRef} :
    Extended (Extended E [edge]) added = Extended E (edge :: added) := by
  funext c d
  simp [Extended,or_assoc]

theorem extended_le : E ≤ Extended E added := fun _ _ => Or.inl

theorem path_extended (path : TransGen E c d) : TransGen (Extended E added) c d := TransGen.mono extended_le c d path

-- A path with a new edge goes through the edge once.
theorem extended_path_iff : TransGen (Extended E [(s,m)]) c d ↔
    TransGen E c d ∨ ((c = s ∨ TransGen E c s) ∧ (d = m ∨ TransGen E m d)) := by
  have new : TransGen (Extended E [(s,m)]) s m := .single (.inr List.mem_cons_self)
  constructor
  · intro path
    induction path with
    | single edge =>
      obtain old | member := edge
      · exact .inl (.single old)
      · cases List.mem_singleton.mp member
        exact .inr ⟨.inl rfl,.inl rfl⟩
    | tail _ edge ih =>
      obtain old | member := edge
      · obtain path | ⟨start,rfl | path⟩ := ih
        · exact .inl (path.tail old)
        · exact .inr ⟨start,.inr (.single old)⟩
        · exact .inr ⟨start,.inr (path.tail old)⟩
      · cases List.mem_singleton.mp member
        obtain path | ⟨start,_⟩ := ih
        · exact .inr ⟨.inr path,.inl rfl⟩
        · exact .inr ⟨start,.inl rfl⟩
  · rintro (path | ⟨rfl | first,rfl | last⟩)
    · exact path_extended path
    · exact new
    · exact new.trans (path_extended last)
    · exact (path_extended first).trans new
    · exact ((path_extended first).trans new).trans (path_extended last)

theorem Above.extended (above : Above E gs c d) : Above (Extended E added) gs c d := by
  obtain ⟨superClass,found,reached⟩ := above
  exact ⟨superClass,found,reached.imp_right path_extended⟩

-- A mixin that the symbol has already.
theorem Sound.known (sound : Sound E gs) (known : m ∈ gs.mixins s ∨ Above E gs s m) :
    Sound (Extended E [(s,m)]) gs := by
  have path : TransGen E s m := by
    obtain member | above := known
    · exact sound.listed s m member
    · exact sound.above above
  have same : ∀ c d, TransGen (Extended E [(s,m)]) c d → TransGen E c d := by
    intro c d extended
    obtain old | ⟨rfl | first,rfl | last⟩ := extended_path_iff.mp extended
    · exact old
    · exact path
    · exact path.trans last
    · exact first.trans path
    · exact (first.trans path).trans last
  refine ⟨?_,?_,?_,?_⟩
  · exact fun c superClass found => .inl (sound.superClass c superClass found)
  · exact fun c d member => path_extended (sound.listed c d member)
  · rintro c d (old | new)
    · exact (sound.direct c d old).imp_right Above.extended
    · cases List.mem_singleton.mp new
      exact known.imp_right Above.extended
  · exact fun c computed d extended => (sound.closed c computed d (same c d extended)).imp_right Above.extended

-- A mixin at the end of the list.
theorem Sound.append (sound : Sound E gs)
    (unaffected : ∀ c, c ≠ s → gs.isLinearizationComputed c = true → s ∈ gs.mixins c →
      ∀ d, d = m ∨ TransGen E m d → TransGen E c d) :
    Sound (Extended E [(s,m)]) (gs.setMixins s (gs.mixins s ++ [m]) false) := by
  have above : ∀ c d, Above E gs c d → Above (Extended E [(s,m)]) (gs.setMixins s (gs.mixins s ++ [m]) false) c d :=
    fun c d found => setMixins_above.mpr found.extended
  refine ⟨?_,?_,?_,?_⟩
  · intro c superClass found
    rw [setMixins_superClass] at found
    exact .inl (sound.superClass c superClass found)
  · intro c d member
    by_cases same : c = s
    · rw [same,setMixins_mixins] at member
      rw [same]
      obtain old | new := List.mem_append.mp member
      · exact path_extended (sound.listed s d old)
      · obtain rfl := List.mem_singleton.mp new
        exact .single (.inr List.mem_cons_self)
    · rw [setMixins_mixins_of_ne same] at member
      exact path_extended (sound.listed c d member)
  · rintro c d (old | new)
    · refine (sound.direct c d old).imp (fun member => ?_) (above c d)
      by_cases same : c = s
      · rw [same,setMixins_mixins]
        exact List.mem_append_left _ (same ▸ member)
      · rw [setMixins_mixins_of_ne same]
        exact member
    · cases List.mem_singleton.mp new
      rw [setMixins_mixins]
      exact .inl (by simp)
  · intro c computed d extended
    have same : c ≠ s := by
      rintro rfl
      simp [setMixins_computed] at computed
    rw [setMixins_computed_of_ne same] at computed
    rw [setMixins_mixins_of_ne same]
    obtain old | ⟨rfl | first,last⟩ := extended_path_iff.mp extended
    · exact (sound.closed c computed d old).imp_right (above c d)
    · exact absurd rfl same
    · obtain member | ⟨superClass,found,reached⟩ := sound.closed c computed s first
      · exact (sound.closed c computed d (unaffected c same computed member d last)).imp_right (above c d)
      · refine .inr (setMixins_above.mpr ⟨superClass,found,.inr ?_⟩)
        exact extended_path_iff.mpr (.inr ⟨reached.imp_left Eq.symm,last⟩)

-- What every state of the run keeps of the hierarchy.
structure Kept (gs gs' : GlobalState) : Prop where
  superClass : ∀ c, gs'.superClass c = gs.superClass c
  isModule : ∀ c, gs'.isModule c = gs.isModule c
  modules : ∀ c, ∀ d ∈ gs'.mixins c, gs.isModule d = true

theorem addMixin_sound (sound : Sound E gs') (descends : ∀ c d, E c d → rank d < rank c) (enough : ∀ c, rank c < fuel)
    (kept : Kept gs gs') (isModule : gs.isModule m = true) (unaffected : Unaffected fuel gs' s m) :
    ∃ gs'', gs'.addMixin fuel s m none = some gs'' ∧ Sound (Extended E [(s,m)]) gs'' ∧ Kept gs gs'' := by
  have derives : ∀ c d, gs'.derivesFrom fuel c d = some true ↔ TransGen E c d := by
    intro c d
    obtain ⟨derived,result,holds⟩ := @derivesFrom_iff _ _ _ c d _ sound descends (enough c)
    rw [result,Option.some_inj,holds]
  have appended : Sound (Extended E [(s,m)]) (gs'.setMixins s (gs'.mixins s ++ [m]) false) := by
    refine sound.append fun c other computed member d reached => ?_
    obtain ⟨first,others⟩ := unaffected c other computed member
    obtain rfl | path := reached
    · exact (derives c d).mp first
    · exact (derives c d).mp (others d ((derives m d).mpr path))
  have kept' : Kept gs (gs'.setMixins s (gs'.mixins s ++ [m]) false) := by
    refine ⟨fun c => setMixins_superClass.trans (kept.superClass c),fun c => setMixins_isModule.trans (kept.isModule c),?_⟩
    intro c d member
    by_cases same : c = s
    · rw [same,setMixins_mixins] at member
      obtain old | new := List.mem_append.mp member
      · exact kept.modules s d old
      · obtain rfl := List.mem_singleton.mp new
        exact isModule
    · rw [setMixins_mixins_of_ne same] at member
      exact kept.modules c d member
  unfold GlobalState.addMixin
  cases computed : gs'.isLinearizationComputed s with
  | false => exact ⟨_,rfl,appended,kept'⟩
  | true =>
    rw [Bool.not_true,if_neg Bool.false_ne_true]
    by_cases listed : gs'.superClass s = some m ∨ m ∈ gs'.mixins s
    · refine ⟨gs',if_pos listed,sound.known ?_,kept⟩
      obtain found | member := listed
      · exact .inr ⟨m,found,.inl rfl⟩
      · exact .inl member
    · rw [if_neg listed]
      cases found : gs'.superClass s with
      | none => exact ⟨_,rfl,appended,kept'⟩
      | some parent =>
        obtain ⟨derived,result,holds⟩ := @derivesFrom_iff _ _ _ parent m _ sound descends (enough parent)
        rw [Option.elim_some,result]
        cases derived with
        | true => exact ⟨gs',rfl,sound.known (.inr ⟨parent,found,.inr (holds.mp rfl)⟩),kept⟩
        | false => exact ⟨_,rfl,appended,kept'⟩

theorem addMixins_sound (sound : Sound E gs') (descends : ∀ c d, Extended E added c d → rank d < rank c)
    (enough : ∀ c, rank c < fuel) (kept : Kept gs gs') (modules : ∀ edge ∈ added, gs.isModule edge.2 = true)
    (unaffected : UnaffectedRun fuel gs' added) :
    ∃ gs'', addMixins fuel added gs' = some gs'' ∧ Sound (Extended E added) gs'' ∧ Kept gs gs'' := by
  induction added generalizing E gs' with
  | nil =>
    rw [extended_nil]
    exact ⟨gs',rfl,sound,kept⟩
  | cons edge rest ih =>
    obtain ⟨s,m⟩ := edge
    have here : ∀ c d, E c d → rank d < rank c := fun c d old => descends c d (.inl old)
    obtain ⟨middle,result,sound',kept'⟩ :=
      addMixin_sound sound here enough kept (modules (s,m) List.mem_cons_self) unaffected.1
    have descends' : ∀ c d, Extended (Extended E [(s,m)]) rest c d → rank d < rank c := by
      rw [extended_cons]
      exact descends
    obtain ⟨last,run,sound'',kept''⟩ := ih sound' descends' kept'
      (fun edge member => modules edge (List.mem_cons_of_mem _ member)) (unaffected.2 middle result)
    rw [extended_cons] at sound''
    refine ⟨last,?_,sound'',kept''⟩
    simp only [addMixins,List.foldlM_cons,result]
    exact run

-- The hierarchy is linearized, given new mixins, and linearized again.
theorem lateMixins_ancestry (hierarchy : Hierarchy gs root)
    (chained : ∀ c, gs.Exists c → c ≠ root → TransGen (SuperEdge gs) c root)
    (enough : gs.classAndModulesUsed < fuel) (linearized : computeLinearization fuel order gs = some gs')
    (exist : ∀ edge ∈ added, gs.Exists edge.1 ∧ gs.Exists edge.2)
    (modules : ∀ edge ∈ added, gs.isModule edge.2 = true)
    (acyclic : ∀ c, ¬ TransGen (Extended (Edge gs) added) c c) (unaffected : UnaffectedRun fuel gs' added) :
    ∃ extended last, addMixins fuel added gs' = some extended ∧
      computeLinearization fuel order' extended = some last ∧
      ∀ c d, ∃ derived, last.derivesFrom fuel c d = some derived ∧
        (derived = true ↔ TransGen (Extended (Edge gs) added) c d) := by
  have inside : ∀ c d, Extended (Edge gs) added c d → gs.Exists c ∧ gs.Exists d := by
    rintro c d (old | new)
    · exact hierarchy.inside c d old
    · exact exist (c,d) new
  have descends : ∀ c d, Extended (Edge gs) added c d → height (Extended (Edge gs) added) gs.classAndModulesUsed d <
      height (Extended (Edge gs) added) gs.classAndModulesUsed c :=
    fun c d => height_lt (fun c d edge => (inside c d edge).2.2) acyclic
  have fueled : ∀ c, height (Extended (Edge gs) added) gs.classAndModulesUsed c < fuel :=
    fun c => (height_le _).trans_lt enough
  obtain ⟨first,run,sound,rooted,linearizes,_⟩ := computeLinearization_run
    (fun c d edge => descends c d (.inl edge)) fueled hierarchy.sound (hierarchy.rooted chained) order
  cases Option.some.inj (linearized.symm.trans run)
  have kept : Kept gs gs' := by
    refine ⟨linearizes.superClass,linearizes.isModule,fun c d member => ?_⟩
    rw [← linearizes.isModule]
    exact rooted.modules c d member
  obtain ⟨extended,result,sound',kept'⟩ := addMixins_sound sound descends fueled kept modules unaffected
  have rooted' : Rooted (Extended (Edge gs) added) root extended := by
    refine ⟨?_,?_,?_,?_⟩
    · intro c d member
      rw [kept'.isModule]
      exact kept'.modules c d member
    · intro m isModule s found
      rw [kept'.isModule] at isModule
      rw [kept'.superClass] at found
      exact hierarchy.moduleSupers m isModule s found
    · intro c
      rw [kept'.superClass]
      exact hierarchy.stubless c
    · intro c d path other
      obtain ⟨a,edge,_⟩ := TransGen.head'_iff.mp path
      obtain ⟨superClass,found,reached⟩ := superEdges_above (chained c (inside c a edge).1 other)
      exact ⟨superClass,(kept'.superClass c).trans found,reached.imp_right path_extended⟩
  obtain ⟨last,run',sound'',_⟩ := computeLinearization_run descends fueled sound' rooted' order'
  exact ⟨extended,last,result,run',fun c d => derivesFrom_iff sound'' descends (fueled c)⟩

section Samples

-- A class with the module 3, and another module.
def mixedClass : GlobalState where
  classAndModules := fun
    | 2 => sampleClass (some 1) [3] false
    | 3 => sampleClass (some 1) [] true
    | 4 => sampleClass (some 1) [] true
    | _ => sampleClass none [] false
  classAndModulesUsed := 5
  dealias := id

theorem mixedClass_hierarchy : Hierarchy mixedClass 1 := by
  refine @hierarchy_of_table _ _ [1,2,3,4] (fun c => [0,0,2,1,1].getD c 0) ?_ ?_ ?_ ?_ ?_ ?_ ?_
  · intro c absent
    simp only [List.mem_cons,List.not_mem_nil,or_false,not_or] at absent
    unfold mixedClass
    dsimp only
    split
    all_goals tauto
  all_goals decide

theorem mixedClass_chained : ∀ c, mixedClass.Exists c → c ≠ 1 → TransGen (SuperEdge mixedClass) c 1 := by
  rintro c ⟨low,high⟩ other
  have bound : c < 5 := high
  interval_cases c
  · exact absurd rfl other
  all_goals exact .single rfl

-- The module 4 is mixed into the module 3, and the class keeps its old list.
theorem lateMixin_missed : Hierarchy mixedClass 1 ∧
    (∀ c, mixedClass.Exists c → c ≠ 1 → TransGen (SuperEdge mixedClass) c 1) ∧
    TransGen (Extended (Edge mixedClass) [(3,4)]) 2 4 ∧
    (((computeLinearization 6 [1,2,3,4] mixedClass).bind (addMixins 6 [(3,4)])).bind
      (computeLinearization 6 [1,2,3,4])).map (·.derivesFrom 6 2 4) = some (some false) := by
  refine ⟨mixedClass_hierarchy,mixedClass_chained,?_,by decide⟩
  exact .head (.inl (.inr List.mem_cons_self)) (.single (.inr List.mem_cons_self))

-- Nothing lists the class, so that it can have another mixin.
theorem lateMixins_ancestry_class : ∃ linearized extended last,
    computeLinearization 6 [1,2,3,4] mixedClass = some linearized ∧ UnaffectedRun 6 linearized [(2,4)] ∧
    addMixins 6 [(2,4)] linearized = some extended ∧ computeLinearization 6 [4,3,2,1] extended = some last ∧
    ∀ c d, ∃ derived, last.derivesFrom 6 c d = some derived ∧
      (derived = true ↔ TransGen (Extended (Edge mixedClass) [(2,4)]) c d) := by
  have hierarchy := mixedClass_hierarchy
  obtain ⟨linearized,run,_,rooted,linearizes,_⟩ := computeLinearization_run hierarchy.descends
    (fun c => (height_le _).trans_lt (show 5 < 6 by decide)) hierarchy.sound (hierarchy.rooted mixedClass_chained) [1,2,3,4]
  have unlisted : ∀ c, 2 ∉ linearized.mixins c := by
    intro c member
    have isModule := rooted.modules c 2 member
    rw [linearizes.isModule] at isModule
    exact absurd isModule (by decide)
  have unaffected : UnaffectedRun 6 linearized [(2,4)] :=
    ⟨fun c _ _ member => absurd member (unlisted c),fun _ _ => trivial⟩
  have ranked : ∀ c d, Extended (Edge mixedClass) [(2,4)] c d → [0,0,2,1,1].getD d 0 < [0,0,2,1,1].getD c 0 := by
    rintro c d (old | new)
    · obtain ⟨low,high⟩ := (hierarchy.inside c d old).1
      have bound : c < 5 := high
      interval_cases c
      all_goals simp [Edge,GlobalState.superClass,GlobalState.mixins,mixedClass,sampleClass] at old
      · obtain rfl | rfl := old <;> decide
      · subst old
        decide
      · subst old
        decide
    · cases List.mem_singleton.mp new
      decide
  have acyclic : ∀ c, ¬ TransGen (Extended (Edge mixedClass) [(2,4)]) c c :=
    fun c loop => Nat.lt_irrefl _ (ancestor_rank ranked loop)
  obtain ⟨extended,last,added,again,derives⟩ := lateMixins_ancestry hierarchy mixedClass_chained (show 5 < 6 by decide) run
    (by decide) (by decide) acyclic unaffected
  exact ⟨linearized,extended,last,run,unaffected,added,again,derives⟩

end Samples

end Ancestry
