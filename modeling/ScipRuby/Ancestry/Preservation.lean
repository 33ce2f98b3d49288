import Mathlib.Tactic.IntervalCases
import ScipRuby.Ancestry.Linearization

namespace Ancestry
open Relation
variable {gs gs' : GlobalState} {c d root : ClassOrModuleRef} {fuel : Nat} {order : List ClassOrModuleRef}

-- The first entry of the table is the symbol that does not exist.
def GlobalState.Exists (gs : GlobalState) (c : ClassOrModuleRef) : Prop := 0 < c ∧ c < gs.classAndModulesUsed

instance decidableExists : Decidable (gs.Exists c) := inferInstanceAs (Decidable (_ ∧ _))

def SuperEdge (gs : GlobalState) (c d : ClassOrModuleRef) : Prop := gs.superClass c = some d

def Edge (gs : GlobalState) (c d : ClassOrModuleRef) : Prop := gs.superClass c = some d ∨ d ∈ gs.mixins c

-- A class hierarchy that has not been linearized yet.
structure Hierarchy (gs : GlobalState) (root : ClassOrModuleRef) : Prop where
  inside : ∀ c d, Edge gs c d → gs.Exists c ∧ gs.Exists d
  acyclic : ∀ c, ¬ TransGen (Edge gs) c c
  modules : ∀ c, ∀ d ∈ gs.mixins c, gs.isModule d = true
  moduleSupers : ∀ m, gs.isModule m = true → ∀ s, gs.superClass m = some s → s = root
  stubless : ∀ c, gs.superClass c ≠ some StubSuperClass ∧ gs.superClass c ≠ some StubModule
  fresh : ∀ c, gs.isLinearizationComputed c = false

theorem Hierarchy.descends (hierarchy : Hierarchy gs root) (c d : ClassOrModuleRef) (edge : Edge gs c d) :
    height (Edge gs) gs.classAndModulesUsed d < height (Edge gs) gs.classAndModulesUsed c :=
  height_lt (fun c d edge => (hierarchy.inside c d edge).2.2) hierarchy.acyclic edge

theorem Hierarchy.sound (hierarchy : Hierarchy gs root) : Sound (Edge gs) gs where
  superClass := fun _ _ => .inl
  listed := fun _ _ member => .single (.inr member)
  direct := by
    rintro c d (found | member)
    · exact .inr ⟨d,found,.inl rfl⟩
    · exact .inl member
  closed := by
    intro c computed
    simp [hierarchy.fresh c] at computed

theorem superEdges_above (path : TransGen (SuperEdge gs) c d) : Above (Edge gs) gs c d := by
  obtain ⟨s,found,rest⟩ := TransGen.head'_iff.mp path
  obtain rfl | path' := reflTransGen_iff_eq_or_transGen.mp rest
  · exact ⟨d,found,.inl rfl⟩
  · have included : SuperEdge gs ≤ Edge gs := fun _ _ => Or.inl
    exact ⟨s,found,.inr (TransGen.mono included s d path')⟩

theorem Hierarchy.rooted (hierarchy : Hierarchy gs root)
    (chained : ∀ c, gs.Exists c → c ≠ root → TransGen (SuperEdge gs) c root) : Rooted (Edge gs) root gs where
  modules := hierarchy.modules
  moduleSupers := hierarchy.moduleSupers
  stubless := hierarchy.stubless
  below := by
    intro c d path other
    obtain ⟨a,edge,_⟩ := TransGen.head'_iff.mp path
    exact superEdges_above (chained c (hierarchy.inside c a edge).1 other)

theorem computeLinearization_preserves (hierarchy : Hierarchy gs root)
    (chained : ∀ c, gs.Exists c → c ≠ root → TransGen (SuperEdge gs) c root) (all : ∀ c, gs.Exists c → c ∈ order)
    (enough : gs.classAndModulesUsed < fuel) :
    ∃ gs', computeLinearization fuel order gs = some gs' ∧
      (∀ c d, ∃ derived, gs.derivesFrom fuel c d = some derived ∧ gs'.derivesFrom fuel c d = some derived) ∧
      (∀ c, gs.Exists c → (gs'.mixins c).Nodup ∧
        ∀ s, gs'.superClass c = some s → ∀ m ∈ gs'.mixins c, gs'.derivesFrom fuel s m = some false) ∧
      ∀ c, gs.Exists c → ∀ depth < 100, SuperDepth gs c depth → ∀ name,
        gs'.findMemberTransitive c name ≠ .loop ∧
        ((∃ symbol, gs'.findMemberTransitive c name = .found symbol) ↔
          ∃ d, (d = c ∨ gs.derivesFrom fuel c d = some true) ∧ Declares gs d name) := by
  have descends := hierarchy.descends
  have fueled : ∀ c, height (Edge gs) gs.classAndModulesUsed c < fuel := fun c => (height_le _).trans_lt enough
  obtain ⟨gs',run,sound,_,linearizes,computed⟩ :=
    computeLinearization_run descends fueled hierarchy.sound (hierarchy.rooted chained) order
  have before : ∀ c d, ∃ derived, gs.derivesFrom fuel c d = some derived ∧ (derived = true ↔ TransGen (Edge gs) c d) :=
    fun c d => derivesFrom_iff hierarchy.sound descends (fueled c)
  have after : ∀ c d, ∃ derived, gs'.derivesFrom fuel c d = some derived ∧ (derived = true ↔ TransGen (Edge gs) c d) :=
    fun c d => derivesFrom_iff sound descends (fueled c)
  refine ⟨gs',run,?_,?_,?_⟩
  · intro c d
    obtain ⟨derived,result,holds⟩ := before c d
    obtain ⟨derived',result',holds'⟩ := after c d
    have same : derived' = derived := Bool.eq_iff_iff.mpr (holds'.trans holds.symm)
    exact ⟨derived,result,same ▸ result'⟩
  · intro c there
    obtain old | tidy := linearizes.tidy c (computed c (all c there))
    · simp [hierarchy.fresh c] at old
    · refine ⟨tidy.1,fun s found m member => ?_⟩
      obtain ⟨derived,result,holds⟩ := after s m
      rw [result,Option.some_inj,← Bool.not_eq_true,holds]
      exact fun path => tidy.2 m member ⟨s,found,path⟩
  · intro c there depth bound short name
    have supers : SuperDepth gs' c depth := by
      clear bound there
      induction short with
      | root top => exact .root ((linearizes.superClass _).trans top)
      | step found _ ih => exact .step ((linearizes.superClass _).trans found) ih
    have visited : ∀ d, d = c ∨ TransGen (Edge gs) c d → gs'.isLinearizationComputed d = true := by
      rintro d (rfl | path)
      · exact computed d (all d there)
      · obtain ⟨a,_,edge⟩ := TransGen.tail'_iff.mp path
        exact computed d (all d (hierarchy.inside a d edge).2)
    have lookup := @findMemberTransitiveInternal_iff _ _ _ name _ 100 sound visited supers bound
    refine ⟨lookup.1,lookup.2.trans ?_⟩
    have derives : ∀ d, gs.derivesFrom fuel c d = some true ↔ TransGen (Edge gs) c d := by
      intro d
      obtain ⟨derived,result,holds⟩ := before c d
      rw [result,Option.some_inj,holds]
    simp only [derives,Declares,linearizes.members]

section Samples

def sampleClass (superClass : Option ClassOrModuleRef) (mixins : List ClassOrModuleRef) (isModule : Bool) : ClassOrModule :=
  ⟨superClass,mixins,isModule,false,fun _ => none⟩

-- A class and its superclass, both with the module 3, which mixes in the module 4.
def mixedClasses : GlobalState where
  classAndModules := fun
    | 2 => sampleClass (some 1) [3] false
    | 3 => sampleClass (some 1) [4] true
    | 4 => sampleClass (some 1) [] true
    | 5 => sampleClass (some 2) [3,4] false
    | _ => sampleClass none [] false
  classAndModulesUsed := 6
  dealias := id

-- The module 3 is below the class 1 by its mixin alone.
def looseModule : GlobalState where
  classAndModules := fun
    | 2 => sampleClass (some 1) [] true
    | 3 => sampleClass none [2] true
    | _ => sampleClass none [] false
  classAndModulesUsed := 4
  dealias := id

-- A chain of classes from 100 to 200, each the superclass of the next; the first has the member 0.
def longChain : GlobalState where
  classAndModules := fun c =>
    if c = 0 ∨ 200 < c then sampleClass none [] false
    else if c = 100 then ⟨none,[],false,false,fun _ => some 0⟩
    else if c < 100 then sampleClass (some 100) [] false
    else sampleClass (some (c - 1)) [] false
  classAndModulesUsed := 201
  dealias := id

-- A sample is a hierarchy if its symbols pass the tests, and a numbering shows that there are no loops.
theorem hierarchy_of_table {symbols : List ClassOrModuleRef} (rank : ClassOrModuleRef → Nat)
    (default : ∀ c, c ∉ symbols → gs.classAndModules c = sampleClass none [] false)
    (range : ∀ c ∈ symbols, 0 < c ∧ c < gs.classAndModulesUsed)
    (edges : ∀ c ∈ symbols, ∀ d ∈ (gs.superClass c).toList ++ gs.mixins c, d ∈ symbols ∧ rank d < rank c)
    (modules : ∀ c ∈ symbols, ∀ d ∈ gs.mixins c, gs.isModule d = true)
    (moduleSupers : ∀ m ∈ symbols, gs.isModule m = true → ∀ s ∈ (gs.superClass m).toList, s = root)
    (stubless : ∀ c ∈ symbols, gs.superClass c ≠ some StubSuperClass ∧ gs.superClass c ≠ some StubModule)
    (fresh : ∀ c ∈ symbols, gs.isLinearizationComputed c = false) : Hierarchy gs root := by
  have cases_ : ∀ c, c ∈ symbols ∨ gs.classAndModules c = sampleClass none [] false :=
    fun c => or_iff_not_imp_left.mpr (default c)
  have listed : ∀ c d, Edge gs c d → c ∈ symbols ∧ d ∈ symbols ∧ rank d < rank c := by
    intro c d edge
    obtain member | same := cases_ c
    · refine ⟨member,edges c member d ?_⟩
      simpa [Edge] using edge
    · simp [Edge,GlobalState.superClass,GlobalState.mixins,same,sampleClass] at edge
  refine ⟨?_,?_,?_,?_,?_,?_⟩
  · intro c d edge
    obtain ⟨left,right,_⟩ := listed c d edge
    exact ⟨range c left,range d right⟩
  · exact fun c loop => Nat.lt_irrefl _ (ancestor_rank (fun c d edge => (listed c d edge).2.2) loop)
  · intro c d member
    exact modules c (listed c d (.inr member)).1 d member
  · intro m isModule s found
    exact moduleSupers m (listed m s (.inl found)).1 isModule s (Option.mem_toList.mpr found)
  · intro c
    obtain member | same := cases_ c
    · exact stubless c member
    · simp [GlobalState.superClass,same,sampleClass]
  · intro c
    obtain member | same := cases_ c
    · exact fresh c member
    · simp [GlobalState.isLinearizationComputed,same,sampleClass]

theorem mixedClasses_hierarchy : Hierarchy mixedClasses 1 := by
  refine @hierarchy_of_table _ _ [1,2,3,4,5] (fun c => [0,0,3,2,1,4].getD c 0) ?_ ?_ ?_ ?_ ?_ ?_ ?_
  · intro c absent
    simp only [List.mem_cons,List.not_mem_nil,or_false,not_or] at absent
    unfold mixedClasses
    dsimp only
    split
    all_goals tauto
  all_goals decide

theorem mixedClasses_chained : ∀ c, mixedClasses.Exists c → c ≠ 1 → TransGen (SuperEdge mixedClasses) c 1 := by
  have second : TransGen (SuperEdge mixedClasses) 2 1 := .single rfl
  rintro c ⟨low,high⟩ other
  have bound : c < 6 := high
  interval_cases c
  · exact absurd rfl other
  · exact second
  · exact .single rfl
  · exact .single rfl
  · exact .head rfl second

theorem computeLinearization_preserves_mixed : Hierarchy mixedClasses 1 ∧ ∃ gs',
    computeLinearization 7 [5,4,3,2,1] mixedClasses = some gs' ∧
    ∀ c d, ∃ derived, mixedClasses.derivesFrom 7 c d = some derived ∧ gs'.derivesFrom 7 c d = some derived := by
  have all : ∀ c, mixedClasses.Exists c → c ∈ [5,4,3,2,1] := by
    rintro c ⟨low,high⟩
    have bound : c < 6 := high
    interval_cases c <;> decide
  obtain ⟨gs',run,same,_,_⟩ :=
    computeLinearization_preserves mixedClasses_hierarchy mixedClasses_chained all (show 6 < 7 by decide)
  exact ⟨mixedClasses_hierarchy,gs',run,same⟩

theorem looseModule_hierarchy : Hierarchy looseModule 1 := by
  refine @hierarchy_of_table _ _ [1,2,3] id ?_ ?_ ?_ ?_ ?_ ?_ ?_
  · intro c absent
    simp only [List.mem_cons,List.not_mem_nil,or_false,not_or] at absent
    unfold looseModule
    dsimp only
    split
    all_goals tauto
  all_goals decide

theorem longChain_hierarchy : Hierarchy longChain 100 := by
  refine @hierarchy_of_table _ _ (List.range' 1 200) (fun c => if c < 100 then 1 else c - 100) ?_ ?_ ?_ ?_ ?_ ?_ ?_
  · intro (c : Nat) absent
    have outside : c = 0 ∨ 200 < c := by
      by_contra inside
      refine absurd (List.mem_range'_1.mpr ?_) absent
      omega
    exact if_pos outside
  all_goals decide +kernel

theorem longChain_edge {c : Nat} (low : 100 < c) (high : c ≤ 200) : Edge longChain c (c - 1) := by
  left
  have outside : ¬ (c = 0 ∨ 200 < c) := by omega
  have other : c ≠ 100 := by omega
  have large : ¬ c < 100 := by omega
  simp only [longChain,GlobalState.superClass,if_neg outside,if_neg other,if_neg large]
  rfl

theorem longChain_derives : ∀ c, longChain.Exists c → c ≠ 100 → TransGen (Edge longChain) c 100 := by
  have up : ∀ n : Nat, n < 100 → TransGen (Edge longChain) (n + 101) 100 := by
    intro n
    induction n with
    | zero => exact fun _ => .single (longChain_edge (by decide) (by decide))
    | succ n ih =>
      intro small
      exact .head (longChain_edge (by omega) (by omega)) (ih (by omega))
  rintro (c : Nat) ⟨low,high⟩ other
  have bound : c < 201 := high
  have low' : 0 < c := low
  have other' : c ≠ 100 := other
  obtain below | above := Nat.lt_or_ge c 100
  · have outside : ¬ (c = 0 ∨ 200 < c) := by omega
    refine .single (.inl ?_)
    simp only [longChain,GlobalState.superClass,if_neg outside,if_neg other',if_pos below]
    rfl
  · have shifted := up (c - 101) (by omega)
    rwa [Nat.sub_add_cancel (by omega)] at shifted

-- Two hierarchies whose symbols all derive from one class. The module of the first no longer does after the
-- linearization, and in the second the member of the class is taken to be in a loop.
theorem linearization_loses :
    (Hierarchy looseModule 1 ∧ (∀ c, looseModule.Exists c → c ≠ 1 → TransGen (Edge looseModule) c 1) ∧
      looseModule.derivesFrom 5 3 1 = some true ∧
      (computeLinearization 5 [1,2,3] looseModule).map (·.derivesFrom 5 3 1) = some (some false)) ∧
    Hierarchy longChain 100 ∧ (∀ c, longChain.Exists c → c ≠ 100 → TransGen (Edge longChain) c 100) ∧
      TransGen (Edge longChain) 200 100 ∧ Declares longChain 100 0 ∧
      (computeLinearization 202 (List.range' 1 200) longChain).map (·.findMemberTransitive 200 0) = some .loop := by
  refine ⟨⟨looseModule_hierarchy,?_,by decide,by decide⟩,longChain_hierarchy,longChain_derives,?_,rfl,by decide +kernel⟩
  · have second : TransGen (Edge looseModule) 2 1 := .single (.inl rfl)
    rintro c ⟨low,high⟩ other
    have bound : c < 4 := high
    interval_cases c
    · exact absurd rfl other
    · exact second
    · exact .head (.inr List.mem_cons_self) second
  · exact longChain_derives 200 (by decide) (by decide)

end Samples

end Ancestry
