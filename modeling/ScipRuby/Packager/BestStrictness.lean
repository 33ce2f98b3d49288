import Mathlib.Logic.Relation
import ScipRuby.Packager.PackageDB

namespace Packager
open Packages Relation
variable {Name : Type}

-- The vectors that computeBestStrictness fills, and whether one of its checks of an import
-- has failed, which only debug builds look at.
structure Strictnesses where
  bestStrictness : Nat → StrictDependenciesLevel
  layerMap : Nat → Option NameRef
  failed : Bool

namespace Strictnesses

def initial : Strictnesses := ⟨fun _ => .None,fun _ => none,false⟩

def setLevel (best : Strictnesses) (id : Nat) (level : StrictDependenciesLevel) : Strictnesses :=
  {best with bestStrictness := Function.update best.bestStrictness id level}

def setLayer (best : Strictnesses) (id : Nat) (layer : NameRef) : Strictnesses :=
  {best with layerMap := Function.update best.layerMap id (some layer)}

end Strictnesses

section Computation
variable (db : PackageDB Name)

-- The layer of a package. One that does not exist has none.
def layerOf (name : Name) : Option NameRef := (db.getPackageInfo name).bind PackageInfo.layer

-- A layer that is not set has the index past the end.
def layerPosition (layer : Option NameRef) : Nat := layer.elim db.layers.length db.layerIndex

def checkImports (id : Nat) : List Nat → Strictnesses → Strictnesses
  | [],best => best
  | impSccId :: imports,best =>
    let best : Strictnesses := {best with failed := best.failed || decide (best.bestStrictness impSccId = .None)}
    if best.bestStrictness impSccId = .False then best.setLevel id .False
    else
      let best : Strictnesses := {best with failed := best.failed || decide (best.layerMap impSccId = none)}
      if layerPosition db (best.layerMap id) < layerPosition db (best.layerMap impSccId) then best.setLevel id .False
      else
        -- A later import could still bring down the level.
        let best := if best.bestStrictness impSccId ≠ .Dag then best.setLevel id .LayeredDag else best
        checkImports id imports best

def computeScc (best : Strictnesses) (scc : Node Name) : Strictnesses :=
  match scc.members.head?.bind (layerOf db) with
  | none => best.setLevel scc.id .False
  | some sccLayer =>
    if scc.members.any fun member => layerOf db member ≠ some sccLayer then best.setLevel scc.id .False
    else
      let best := checkImports db scc.id scc.imports (best.setLayer scc.id sccLayer)
      if best.bestStrictness scc.id = .False then best
      else if 1 < scc.members.length then best.setLevel scc.id .Layered
      else if best.bestStrictness scc.id = .None then best.setLevel scc.id .Dag
      else best

def computeBestStrictness (nodes : Condensation Name) : Strictnesses := nodes.foldl (computeScc db) .initial

end Computation

section Meaning
variable (db : PackageDB Name) (nodes : Condensation Name)

-- The nodes stand in the order of their ids, after the nodes they import. A node has
-- members, and layers are configured.
structure Ordered : Prop where
  ids : ∀ (i : Nat) (node : Node Name), nodes[i]? = some node → node.id = i
  earlier : ∀ (i : Nat) (node : Node Name), nodes[i]? = some node → ∀ imp ∈ node.imports, imp < i
  inhabited : ∀ node ∈ nodes, node.members ≠ []
  configured : ∀ node ∈ nodes, ∀ member ∈ node.members, ∀ layer, layerOf db member = some layer → layer ∈ db.layers

def Imports (i j : Nat) : Prop := j ∈ nodes.imports i

-- A member without a layer, or two members with different layers.
def Unlayered (i : Nat) : Prop :=
  (∃ member ∈ nodes.members i, layerOf db member = none) ∨
    ∃ member ∈ nodes.members i, ∃ other ∈ nodes.members i, layerOf db member ≠ layerOf db other

-- An import from a lower to a higher layer.
def Climbs (i j : Nat) : Prop :=
  ∃ member ∈ nodes.members i, ∃ other ∈ nodes.members j, ∃ low high,
    layerOf db member = some low ∧ layerOf db other = some high ∧ db.layerIndex low < db.layerIndex high

def Violating (i : Nat) : Prop :=
  ∃ j, ReflTransGen (Imports nodes) i j ∧ (Unlayered db nodes j ∨ ∃ k, Imports nodes j k ∧ Climbs db nodes j k)

def Acyclic (i : Nat) : Prop := ∀ j, ReflTransGen (Imports nodes) i j → (nodes.members j).length = 1

-- The level that a node should get.
structure Best (i : Nat) (level : StrictDependenciesLevel) : Prop where
  violating : level = .False ↔ Violating db nodes i
  cyclic : level = .Layered ↔ ¬Violating db nodes i ∧ 1 < (nodes.members i).length
  acyclic : level = .Dag ↔ ¬Violating db nodes i ∧ (nodes.members i).length = 1 ∧ Acyclic nodes i
  otherwise : level = .LayeredDag ↔ ¬Violating db nodes i ∧ (nodes.members i).length = 1 ∧ ¬Acyclic nodes i
  given : level ≠ .None

theorem violating_iff (i : Nat) : Violating db nodes i ↔ Unlayered db nodes i ∨
    ∃ j, Imports nodes i j ∧ (Climbs db nodes i j ∨ Violating db nodes j) := by
  constructor
  · rintro ⟨j,path,reason⟩
    rcases ReflTransGen.cases_head path with rfl | ⟨k,edge,rest⟩
    · rcases reason with bare | ⟨k,edge,climbs⟩
      · exact .inl bare
      · exact .inr ⟨k,edge,.inl climbs⟩
    · exact .inr ⟨k,edge,.inr ⟨j,rest,reason⟩⟩
  · rintro (bare | ⟨j,edge,climbs | ⟨k,path,reason⟩⟩)
    · exact ⟨i,.refl,.inl bare⟩
    · exact ⟨i,.refl,.inr ⟨j,edge,climbs⟩⟩
    · exact ⟨k,.head edge path,reason⟩

theorem acyclic_iff (i : Nat) : Acyclic nodes i ↔ (nodes.members i).length = 1 ∧ ∀ j, Imports nodes i j → Acyclic nodes j := by
  constructor
  · intro acyclic
    exact ⟨acyclic i .refl,fun j edge k path => acyclic k (.head edge path)⟩
  · rintro ⟨single,below⟩ j path
    rcases ReflTransGen.cases_head path with rfl | ⟨k,edge,rest⟩
    · exact single
    · exact below k edge j rest

end Meaning

section Loop
variable {db : PackageDB Name}

-- An import ends the loop, or it lowers the level.
def stops (db : PackageDB Name) (best : Strictnesses) (id imp : Nat) : Bool :=
  best.bestStrictness imp = .False ∨ layerPosition db (best.layerMap id) < layerPosition db (best.layerMap imp)

def lowers (best : Strictnesses) (imp : Nat) : Bool := best.bestStrictness imp ≠ .Dag

structure Checked (db : PackageDB Name) (id : Nat) (imports : List Nat) (best after : Strictnesses) : Prop where
  others : ∀ j, j ≠ id → after.bestStrictness j = best.bestStrictness j
  layers : after.layerMap = best.layerMap
  failed : after.failed = best.failed
  level : after.bestStrictness id =
    if imports.any (stops db best id) then .False
    else if imports.any (lowers best) then .LayeredDag
    else best.bestStrictness id

-- An import that was computed, with a layer unless its level is false.
def Computed (best : Strictnesses) (imp : Nat) : Prop :=
  best.bestStrictness imp ≠ .None ∧ (best.bestStrictness imp ≠ .False → best.layerMap imp ≠ none)

theorem setLevel_self (best : Strictnesses) (id : Nat) (level : StrictDependenciesLevel) :
    (best.setLevel id level).bestStrictness id = level := by
  unfold Strictnesses.setLevel
  apply Function.update_self

theorem setLevel_other (best : Strictnesses) {id j : Nat} (level : StrictDependenciesLevel) (other : j ≠ id) :
    (best.setLevel id level).bestStrictness j = best.bestStrictness j := by
  unfold Strictnesses.setLevel
  exact Function.update_of_ne other _ _

theorem setLayer_self (best : Strictnesses) (id : Nat) (layer : NameRef) : (best.setLayer id layer).layerMap id = some layer := by
  unfold Strictnesses.setLayer
  apply Function.update_self

theorem setLayer_other (best : Strictnesses) {id j : Nat} (layer : NameRef) (other : j ≠ id) :
    (best.setLayer id layer).layerMap j = best.layerMap j := by
  unfold Strictnesses.setLayer
  exact Function.update_of_ne other _ _

theorem any_congr_mem {α : Type} {p q : α → Bool} {l : List α} (same : ∀ x ∈ l, p x = q x) : l.any p = l.any q := by
  rw [Bool.eq_iff_iff,List.any_eq_true,List.any_eq_true]
  exact exists_congr fun x => and_congr_right fun member => by rw [same x member]

theorem checkImports_checked (id : Nat) (imports : List Nat) (best : Strictnesses) (others : ∀ imp ∈ imports, imp ≠ id)
    (computed : ∀ imp ∈ imports, Computed best imp) : Checked db id imports best (checkImports db id imports best) := by
  induction imports generalizing best with
  | nil => exact ⟨fun _ _ => rfl,rfl,rfl,rfl⟩
  | cons imp imports ih =>
    obtain ⟨given,layered⟩ := computed imp List.mem_cons_self
    rw [checkImports]
    simp only [given,decide_false,Bool.or_false]
    by_cases bad : best.bestStrictness imp = .False
    · rw [if_pos bad]
      refine ⟨fun j other => setLevel_other best _ other,rfl,rfl,?_⟩
      rw [setLevel_self,if_pos (List.any_eq_true.mpr ⟨imp,List.mem_cons_self,by simp [stops,bad]⟩)]
    rw [if_neg bad]
    simp only [layered bad,decide_false,Bool.or_false]
    by_cases climbs : layerPosition db (best.layerMap id) < layerPosition db (best.layerMap imp)
    · rw [if_pos climbs]
      refine ⟨fun j other => setLevel_other best _ other,rfl,rfl,?_⟩
      rw [setLevel_self,if_pos (List.any_eq_true.mpr ⟨imp,List.mem_cons_self,by simp [stops,climbs]⟩)]
    rw [if_neg climbs]
    have passes : stops db best id imp = false := decide_eq_false (not_or.mpr ⟨bad,climbs⟩)
    by_cases dag : best.bestStrictness imp = .Dag
    · rw [if_neg (not_not.mpr dag)]
      have rest := ih best (fun j member => others j (List.mem_cons_of_mem imp member))
        fun j member => computed j (List.mem_cons_of_mem imp member)
      refine ⟨rest.others,rest.layers,rest.failed,rest.level.trans ?_⟩
      simp [passes,lowers,dag]
    · rw [if_pos dag]
      have same : ∀ j ∈ imports, (best.setLevel id .LayeredDag).bestStrictness j = best.bestStrictness j := fun j member =>
        setLevel_other best _ (others j (List.mem_cons_of_mem imp member))
      have rest := ih (best.setLevel id .LayeredDag) (fun j member => others j (List.mem_cons_of_mem imp member)) fun j member => by
        unfold Computed
        rw [same j member]
        exact computed j (List.mem_cons_of_mem imp member)
      refine ⟨fun j other => (rest.others j other).trans (setLevel_other best _ other),rest.layers,rest.failed,rest.level.trans ?_⟩
      have stopping : imports.any (stops db (best.setLevel id .LayeredDag) id) = imports.any (stops db best id) :=
        any_congr_mem fun j member => by
          unfold stops
          rw [same j member]
          rfl
      have lowering : imports.any (lowers (best.setLevel id .LayeredDag)) = imports.any (lowers best) :=
        any_congr_mem fun j member => by
          unfold lowers
          rw [same j member]
      rw [stopping,lowering,setLevel_self]
      simp [passes,lowers,dag]

end Loop

section Levels
variable {db : PackageDB Name} {nodes : Condensation Name} {i : Nat}

theorem best_false (violating : Violating db nodes i) : Best db nodes i .False := by
  constructor <;> simp [violating]

theorem best_layered (right : ¬Violating db nodes i) (several : 1 < (nodes.members i).length) : Best db nodes i .Layered := by
  have many : (nodes.members i).length ≠ 1 := Nat.ne_of_gt several
  constructor <;> simp [right,several,many]

theorem best_dag (right : ¬Violating db nodes i) (acyclic : Acyclic nodes i) : Best db nodes i .Dag := by
  constructor <;> simp [right,acyclic i .refl,acyclic]

theorem best_layeredDag (right : ¬Violating db nodes i) (single : (nodes.members i).length = 1) (cyclic : ¬Acyclic nodes i) :
    Best db nodes i .LayeredDag := by
  constructor <;> simp [right,single,cyclic]

end Levels

section Pass
variable {db : PackageDB Name} {nodes : Condensation Name} {best : Strictnesses} {node : Node Name} {m : Nat}

-- The nodes before m have their levels, and a layer unless the level is false.
structure Settled (db : PackageDB Name) (nodes : Condensation Name) (m : Nat) (best : Strictnesses) : Prop where
  done : ∀ i < m, Best db nodes i (best.bestStrictness i)
  layer : ∀ i < m, best.bestStrictness i ≠ .False →
    ∃ layer, best.layerMap i = some layer ∧ ∀ member ∈ nodes.members i, layerOf db member = some layer
  rest : ∀ i, m ≤ i → best.bestStrictness i = .None
  failed : best.failed = false

theorem members_at (at_ : nodes[m]? = some node) : nodes.members m = node.members := by
  rw [Packages.Condensation.members,at_]
  rfl

theorem imports_at (at_ : nodes[m]? = some node) : nodes.imports m = node.imports := by
  rw [Packages.Condensation.imports,at_]
  rfl

theorem Settled.extend {after : Strictnesses} (settled : Settled db nodes m best)
    (others : ∀ j, j ≠ m → after.bestStrictness j = best.bestStrictness j)
    (layers : ∀ j, j ≠ m → after.layerMap j = best.layerMap j) (failed : after.failed = best.failed)
    (level : Best db nodes m (after.bestStrictness m))
    (layered : after.bestStrictness m ≠ .False →
      ∃ layer, after.layerMap m = some layer ∧ ∀ member ∈ nodes.members m, layerOf db member = some layer) :
    Settled db nodes (m + 1) after := by
  refine ⟨fun i less => ?_,fun i less => ?_,fun i le => ?_,failed.trans settled.failed⟩
  · rcases Nat.lt_succ_iff_lt_or_eq.mp less with earlier | rfl
    · rw [others i (Nat.ne_of_lt earlier)]
      exact settled.done i earlier
    · exact level
  · rcases Nat.lt_succ_iff_lt_or_eq.mp less with earlier | rfl
    · rw [others i (Nat.ne_of_lt earlier),layers i (Nat.ne_of_lt earlier)]
      exact settled.layer i earlier
    · exact layered
  · rw [others i (Nat.ne_of_gt le)]
    exact settled.rest i (Nat.le_of_succ_le le)

theorem Settled.give_false (settled : Settled db nodes m best) (bare : Unlayered db nodes m) :
    Settled db nodes (m + 1) (best.setLevel m .False) := by
  apply settled.extend
  · exact fun j other => setLevel_other best _ other
  · exact fun _ _ => rfl
  · rfl
  · rw [setLevel_self]
    exact best_false ((violating_iff db nodes m).mpr (.inl bare))
  · exact fun right => absurd (setLevel_self best m _) right

-- What the check of an import means.
theorem Settled.stops_iff {layer : NameRef} (settled : Settled db nodes m best) (inhabited : ∀ i < m, nodes.members i ≠ [])
    (nonempty : nodes.members m ≠ []) (same : ∀ member ∈ nodes.members m, layerOf db member = some layer) {imp : Nat}
    (earlier : imp < m) : stops db (best.setLayer m layer) m imp = true ↔ Climbs db nodes m imp ∨ Violating db nodes imp := by
  have level := (settled.done imp earlier).violating
  unfold stops
  rw [decide_eq_true_eq,setLayer_self,setLayer_other best layer (Nat.ne_of_lt earlier)]
  by_cases violating : Violating db nodes imp
  · exact iff_of_true (.inl (level.mpr violating)) (.inr violating)
  have right : best.bestStrictness imp ≠ .False := fun false => violating (level.mp false)
  obtain ⟨layer',found,same'⟩ := settled.layer imp earlier right
  have right' : (best.setLayer m layer).bestStrictness imp ≠ .False := right
  rw [found,or_iff_right right',or_iff_left violating]
  constructor
  · intro less
    obtain ⟨member,inside⟩ := List.exists_mem_of_ne_nil _ nonempty
    obtain ⟨other,inside'⟩ := List.exists_mem_of_ne_nil _ (inhabited imp earlier)
    exact ⟨member,inside,other,inside',layer,layer',same member inside,same' other inside',less⟩
  · rintro ⟨member,inside,other,inside',low,high,lowest,highest,less⟩
    cases (same member inside).symm.trans lowest
    cases (same' other inside').symm.trans highest
    exact less

theorem Settled.computed {layer : NameRef} (settled : Settled db nodes m best) {imp : Nat} (earlier : imp < m) :
    Computed (best.setLayer m layer) imp := by
  refine ⟨(settled.done imp earlier).given,fun right none => ?_⟩
  obtain ⟨layer',found,_⟩ := settled.layer imp earlier right
  have imported := setLayer_other best layer (Nat.ne_of_lt earlier)
  cases found.symm.trans (imported.symm.trans none)

theorem Ordered.earlier_imports (ordered : Ordered db nodes) (at_ : nodes[m]? = some node) : ∀ imp ∈ nodes.imports m, imp < m := by
  rw [imports_at at_]
  exact ordered.earlier m node at_

theorem Ordered.filled (ordered : Ordered db nodes) (at_ : nodes[m]? = some node) : ∀ i ≤ m, nodes.members i ≠ [] := by
  intro i le
  have inside : i < nodes.length := Nat.lt_of_le_of_lt le (List.getElem?_eq_some_iff.mp at_).1
  rw [members_at (List.getElem?_eq_getElem inside)]
  exact ordered.inhabited _ (List.getElem_mem inside)

theorem not_unlayered {layer : NameRef} (same : ∀ member ∈ nodes.members m, layerOf db member = some layer) :
    ¬Unlayered db nodes m := by
  rintro (⟨member,inside,none⟩ | ⟨member,inside,other,inside',differ⟩)
  · cases (same member inside).symm.trans none
  · exact differ ((same member inside).trans (same other inside').symm)

-- The imports end the loop exactly where the node violates the layers.
theorem Settled.stopping {layer : NameRef} (settled : Settled db nodes m best) (ordered : Ordered db nodes)
    (at_ : nodes[m]? = some node) (same : ∀ member ∈ nodes.members m, layerOf db member = some layer) :
    node.imports.any (stops db (best.setLayer m layer) m) = true ↔ Violating db nodes m := by
  have earlier := ordered.earlier_imports at_
  have filled := ordered.filled at_
  rw [List.any_eq_true,violating_iff,or_iff_right (not_unlayered same),← imports_at at_]
  apply exists_congr
  intro imp
  apply and_congr_right
  intro member
  exact settled.stops_iff (fun i less => filled i (Nat.le_of_lt less)) (filled m (Nat.le_refl m)) same (earlier imp member)

-- Where nothing ends it they lower the level exactly where a cycle can be reached.
theorem Settled.lowering {layer : NameRef} (settled : Settled db nodes m best) (ordered : Ordered db nodes)
    (at_ : nodes[m]? = some node) (right : ¬Violating db nodes m) (single : (nodes.members m).length = 1) :
    node.imports.any (lowers (best.setLayer m layer)) = true ↔ ¬Acyclic nodes m := by
  rw [List.any_eq_true,acyclic_iff,and_iff_right single,← imports_at at_,not_forall]
  apply exists_congr
  intro imp
  rw [Classical.not_imp]
  apply and_congr_right
  intro member
  have clear : ¬Violating db nodes imp := fun reason =>
    right ((violating_iff db nodes m).mpr (.inr ⟨imp,member,.inr reason⟩))
  have dag := (settled.done imp (ordered.earlier_imports at_ imp member)).acyclic
  unfold lowers
  rw [decide_eq_true_eq]
  apply not_congr
  exact dag.trans ⟨fun parts => parts.2.2,fun acyclic => ⟨clear,acyclic imp .refl,acyclic⟩⟩

-- A node whose members share a layer.
theorem Settled.visit_layered {layer : NameRef} (settled : Settled db nodes m best) (ordered : Ordered db nodes)
    (at_ : nodes[m]? = some node) (first : node.members.head?.bind (layerOf db) = some layer)
    (same : ∀ member ∈ nodes.members m, layerOf db member = some layer) : Settled db nodes (m + 1) (computeScc db best node) := by
  have earlier := ordered.earlier_imports at_
  have checked := @checkImports_checked _ db m node.imports (best.setLayer m layer)
    (fun imp member => Nat.ne_of_lt (earlier imp (imports_at at_ ▸ member)))
    (fun imp member => settled.computed (earlier imp (imports_at at_ ▸ member)))
  have uniform : (node.members.any fun member => layerOf db member ≠ some layer) = false := by
    rw [List.any_eq_false]
    intro member inside
    simpa using same member (members_at at_ ▸ inside)
  unfold computeScc
  rw [first]
  dsimp only
  rw [uniform,if_neg Bool.false_ne_true,ordered.ids m node at_]
  generalize checkImports db m node.imports (best.setLayer m layer) = after at checked
  have others : ∀ j, j ≠ m → after.bestStrictness j = best.bestStrictness j := checked.others
  have others' : ∀ level j, j ≠ m → (after.setLevel m level).bestStrictness j = best.bestStrictness j :=
    fun level j other => (setLevel_other after level other).trans (others j other)
  have layers : ∀ j, j ≠ m → after.layerMap j = best.layerMap j := fun j other =>
    (congrFun checked.layers j).trans (setLayer_other best layer other)
  have own : ∃ layer', after.layerMap m = some layer' ∧ ∀ member ∈ nodes.members m, layerOf db member = some layer' :=
    ⟨layer,(congrFun checked.layers m).trans (setLayer_self best m layer),same⟩
  have level : after.bestStrictness m = if node.imports.any (stops db (best.setLayer m layer) m) then .False
      else if node.imports.any (lowers (best.setLayer m layer)) then .LayeredDag else .None :=
    settled.rest m (Nat.le_refl m) ▸ checked.level
  have stopping := settled.stopping ordered at_ same
  by_cases violating : Violating db nodes m
  · rw [if_pos (stopping.mpr violating)] at level
    rw [if_pos level]
    apply settled.extend others layers checked.failed
    · exact level ▸ best_false violating
    · exact fun _ => own
  rw [if_neg (mt stopping.mp violating)] at level
  have right : after.bestStrictness m ≠ .False := by
    rw [level]
    split <;> decide
  rw [if_neg right,← members_at at_]
  by_cases several : 1 < (nodes.members m).length
  · rw [if_pos several]
    apply settled.extend (others' _) layers checked.failed
    · exact setLevel_self after m _ ▸ best_layered violating several
    · exact fun _ => own
  rw [if_neg several]
  have single : (nodes.members m).length = 1 := by
    have pos := List.length_pos_of_ne_nil (ordered.filled at_ m (Nat.le_refl m))
    omega
  have lowering := @Settled.lowering _ _ _ _ _ _ layer settled ordered at_ violating single
  by_cases acyclic : Acyclic nodes m
  · rw [if_neg (mt lowering.mp (not_not.mpr acyclic))] at level
    rw [if_pos level]
    apply settled.extend (others' _) layers checked.failed
    · exact setLevel_self after m _ ▸ best_dag violating acyclic
    · exact fun _ => own
  · rw [if_pos (lowering.mpr acyclic)] at level
    have given : after.bestStrictness m ≠ .None := by
      rw [level]
      decide
    rw [if_neg given]
    apply settled.extend others layers checked.failed
    · exact level ▸ best_layeredDag violating single acyclic
    · exact fun _ => own

theorem Settled.visit (settled : Settled db nodes m best) (ordered : Ordered db nodes) (at_ : nodes[m]? = some node) :
    Settled db nodes (m + 1) (computeScc db best node) := by
  have id := ordered.ids m node at_
  have nonempty := ordered.inhabited node (List.mem_of_getElem? at_)
  obtain ⟨head,others,members⟩ := List.exists_cons_of_ne_nil nonempty
  have inside : head ∈ nodes.members m := by
    rw [members_at at_,members]
    exact List.mem_cons_self
  have headLayer : node.members.head?.bind (layerOf db) = layerOf db head := by
    rw [members]
    rfl
  cases first : layerOf db head with
  | none =>
    unfold computeScc
    rw [headLayer,first,id]
    exact settled.give_false (.inl ⟨head,inside,first⟩)
  | some layer =>
    by_cases same : ∀ member ∈ nodes.members m, layerOf db member = some layer
    · exact settled.visit_layered ordered at_ (headLayer.trans first) same
    · simp only [not_forall] at same
      obtain ⟨member,inside',differ⟩ := same
      have mixed : (node.members.any fun member => layerOf db member ≠ some layer) = true :=
        List.any_eq_true.mpr ⟨member,members_at at_ ▸ inside',decide_eq_true differ⟩
      unfold computeScc
      rw [headLayer,first,id]
      dsimp only
      rw [mixed,if_pos rfl]
      exact settled.give_false (.inr ⟨head,inside,member,inside',fun equal => differ (equal ▸ first)⟩)

theorem settled_take (ordered : Ordered db nodes) (le : m ≤ nodes.length) :
    Settled db nodes m ((nodes.take m).foldl (computeScc db) .initial) := by
  induction m with
  | zero => exact ⟨fun _ less => absurd less (Nat.not_lt_zero _),fun _ less => absurd less (Nat.not_lt_zero _),fun _ _ => rfl,rfl⟩
  | succ m ih =>
    have at_ : nodes[m]? = some nodes[m] := List.getElem?_eq_getElem le
    rw [List.take_add_one,at_,List.foldl_append]
    exact (ih (Nat.le_of_succ_le le)).visit ordered at_

end Pass

theorem computeBestStrictness_best (db : PackageDB Name) (nodes : Condensation Name) (ordered : Ordered db nodes) :
    (computeBestStrictness db nodes).failed = false ∧
    ∀ i < nodes.length, Best db nodes i ((computeBestStrictness db nodes).bestStrictness i) := by
  have settled := settled_take ordered (Nat.le_refl nodes.length)
  rw [List.take_length] at settled
  exact ⟨settled.failed,settled.done⟩

-- The package 2 imports the package 1 of a lower layer.
def layeredInfo (name layer : Nat) : PackageInfo Nat := ⟨name,[],[],false,some layer,none,.None⟩

def layeredDB : PackageDB Nat :=
  ((PackageDB.initial.setPackagerOptions {PackagerOptions.initial with layers := [5,6]}).enterPackage (layeredInfo 1 5)).enterPackage
    (layeredInfo 2 6)

def layeredNodes : Condensation Nat := [⟨[1],[],[1],0,false,false⟩,⟨[2],[0],[],1,false,false⟩]

theorem layeredNodes_ordered : Ordered layeredDB layeredNodes where
  ids i node at_ := by
    match i with
    | 0 => cases at_; rfl
    | 1 => cases at_; rfl
    | _ + 2 => cases at_
  earlier i node at_ := by
    match i with
    | 0 => cases at_; decide
    | 1 => cases at_; decide
    | _ + 2 => cases at_
  inhabited := by decide
  configured := by
    intro node member name listed layer found
    obtain ⟨low,high⟩ : (layerOf layeredDB 1 = some 5) ∧ layerOf layeredDB 2 = some 6 := ⟨rfl,rfl⟩
    simp only [layeredNodes,List.mem_cons,List.not_mem_nil,or_false] at member
    rcases member with rfl | rfl
    · cases List.mem_singleton.mp listed
      cases low.symm.trans found
      decide
    · cases List.mem_singleton.mp listed
      cases high.symm.trans found
      decide

theorem computeBestStrictness_sample : ¬Violating layeredDB layeredNodes 1 ∧ Acyclic layeredNodes 1 := by
  have best := (computeBestStrictness_best layeredDB layeredNodes layeredNodes_ordered).2 1 (by decide)
  have dag : (computeBestStrictness layeredDB layeredNodes).bestStrictness 1 = .Dag := by decide
  obtain ⟨right,_,acyclic⟩ := best.acyclic.mp dag
  exact ⟨right,acyclic⟩

end Packager
