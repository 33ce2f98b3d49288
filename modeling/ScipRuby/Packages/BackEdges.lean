import Mathlib.Data.List.Nodup
import Mathlib.Data.List.Range
import Mathlib.Logic.Relation
import ScipRuby.Packages.Condensation

namespace Packages
open Relation CondensationBuilder
variable {Name : Type} {nodes : Condensation Name} {i n m : Nat}

-- The finished nodes, before they know who depends on them.
structure Dag (nodes : Condensation Name) : Prop where
  ids : ∀ (i : Nat) (node : Node Name), nodes[i]? = some node → node.id = i
  fresh : ∀ node ∈ nodes, node.backEdges = []
  distinct : ∀ node ∈ nodes, node.imports.Nodup
  inside : ∀ node ∈ nodes, ∀ imp ∈ node.imports, imp < nodes.length
  acyclic : ∀ i, ¬ TransGen (fun i j => j ∈ nodes.imports i) i i
  -- Ids are of type int.
  small : nodes.length ≤ 2 ^ 31

-- The finished nodes with back edges.
structure Linked (nodes : Condensation Name) : Prop where
  ids : ∀ (i : Nat) (node : Node Name), nodes[i]? = some node → node.id = i
  distinct : ∀ i, (nodes.imports i).Nodup
  inside : ∀ i, ∀ imp ∈ nodes.imports i, imp < nodes.length
  acyclic : ∀ i, ¬ TransGen (fun i j => j ∈ nodes.imports i) i i
  small : nodes.length ≤ 2 ^ 31
  backDistinct : ∀ i, (nodes.backEdges i).Nodup
  back : ∀ n m, m < nodes.length → (n ∈ nodes.backEdges m ↔ m ∈ nodes.imports n)

section Build

-- The back edges that the imports of the given nodes leave at i.
def importers (l : Condensation Name) (i : Nat) : List Nat := l.flatMap fun node => List.replicate (node.imports.count i) node.id

theorem pushBackEdge_getElem? (nodes : Condensation Name) (id imp : Nat) : (pushBackEdge nodes id imp)[i]? =
    nodes[i]?.map fun node => {node with backEdges := node.backEdges ++ if imp = i then [id] else []} := by
  rw [pushBackEdge,List.getElem?_modify]
  by_cases same : imp = i
  · simp only [same,if_true]
    rfl
  · cases nodes[i]? with
    | none => simp [same]
    | some node => simp [same]

theorem pushImports_getElem? (id : Nat) (imports : List Nat) (nodes : Condensation Name) :
    (imports.foldl (fun nodes' imp => pushBackEdge nodes' id imp) nodes)[i]? =
    nodes[i]?.map fun node => {node with backEdges := node.backEdges ++ List.replicate (imports.count i) id} := by
  induction imports generalizing nodes with
  | nil => simp
  | cons imp imports ih =>
    rw [List.foldl_cons,ih,pushBackEdge_getElem?,Option.map_map]
    congr 1
    funext node
    by_cases same : imp = i
    · simp [same,List.replicate_succ]
    · simp [same]

theorem pushAll_getElem? (l nodes : Condensation Name) :
    (l.foldl (fun nodes' node => node.imports.foldl (fun nodes' imp => pushBackEdge nodes' node.id imp) nodes') nodes)[i]? =
    nodes[i]?.map fun node => {node with backEdges := node.backEdges ++ importers l i} := by
  induction l generalizing nodes with
  | nil => simp [importers]
  | cons first l ih =>
    rw [List.foldl_cons,ih,pushImports_getElem?,Option.map_map]
    congr 1
    funext node
    simp [importers]

theorem build_getElem? : (build nodes)[i]? =
    nodes[i]?.map fun node => {node with backEdges := node.backEdges ++ importers nodes i} := pushAll_getElem? nodes nodes

theorem build_length : (build nodes).length = nodes.length := by
  have ends : ∀ i, (build nodes).length ≤ i ↔ nodes.length ≤ i := by
    intro i
    rw [← List.getElem?_eq_none_iff,← List.getElem?_eq_none_iff,build_getElem?,Option.map_eq_none_iff]
  exact Nat.le_antisymm ((ends _).mpr le_rfl) ((ends _).mp le_rfl)

theorem build_imports : (build nodes).imports i = nodes.imports i := by
  rw [Condensation.imports,Condensation.imports,build_getElem?]
  cases nodes[i]? <;> rfl

theorem build_members : (build nodes).members i = nodes.members i := by
  rw [Condensation.members,Condensation.members,build_getElem?]
  cases nodes[i]? <;> rfl

theorem build_isPrelude : (build nodes).isPrelude i = nodes.isPrelude i := by
  rw [Condensation.isPrelude,Condensation.isPrelude,build_getElem?]
  cases nodes[i]? <;> rfl

theorem mem_imports_iff : m ∈ nodes.imports n ↔ ∃ node, nodes[n]? = some node ∧ m ∈ node.imports := by
  rw [Condensation.imports]
  cases nodes[n]? with
  | none => simp
  | some node => simp

-- A set holds each import once.
theorem importers_eq {l : Condensation Name} (distinct : ∀ node ∈ l, node.imports.Nodup) :
    importers l i = (l.filter fun node => i ∈ node.imports).map Node.id := by
  induction l with
  | nil => rfl
  | cons first l ih =>
    have rest := ih fun node member => distinct node (List.mem_cons_of_mem _ member)
    have once := distinct first List.mem_cons_self
    simp only [importers] at rest
    simp only [importers,List.flatMap_cons,rest]
    by_cases member : i ∈ first.imports
    · simp [member,List.count_eq_one_of_mem once member]
    · simp [member,List.count_eq_zero_of_not_mem member]

-- The ids count up from zero.
theorem ids_eq_range (ids : ∀ (i : Nat) (node : Node Name), nodes[i]? = some node → node.id = i) :
    nodes.map Node.id = List.range nodes.length := by
  apply List.ext_getElem?
  intro i
  rw [List.getElem?_map]
  by_cases inside : i < nodes.length
  · rw [List.getElem?_eq_getElem inside,Option.map_some,ids i _ (List.getElem?_eq_getElem inside)]
    simp [inside]
  · rw [List.getElem?_eq_none (Nat.le_of_not_lt inside)]
    simp [inside]

theorem filter_ids_nodup (ids : ∀ (i : Nat) (node : Node Name), nodes[i]? = some node → node.id = i)
    (p : Node Name → Bool) : ((nodes.filter p).map Node.id).Nodup := by
  refine List.Nodup.sublist (List.Sublist.map _ List.filter_sublist) ?_
  rw [ids_eq_range ids]
  exact List.nodup_range

theorem mem_filter_ids (ids : ∀ (i : Nat) (node : Node Name), nodes[i]? = some node → node.id = i) {p : Node Name → Bool} :
    n ∈ (nodes.filter p).map Node.id ↔ ∃ node, nodes[n]? = some node ∧ p node = true := by
  simp only [List.mem_map,List.mem_filter]
  constructor
  · rintro ⟨node,⟨member,holds⟩,rfl⟩
    obtain ⟨i,at_⟩ := List.mem_iff_getElem?.mp member
    exact ⟨node,by rwa [ids i node at_],holds⟩
  · rintro ⟨node,at_,holds⟩
    exact ⟨node,⟨List.mem_of_getElem? at_,holds⟩,ids n node at_⟩

variable (dag : Dag nodes)
include dag

theorem Dag.backEdges_build (m : Nat) (inside : m < nodes.length) :
    (build nodes).backEdges m = (nodes.filter fun node => m ∈ node.imports).map Node.id := by
  have at_ := List.getElem?_eq_getElem inside
  rw [Condensation.backEdges,build_getElem?,at_,Option.map_some,Option.elim_some,
    dag.fresh _ (List.mem_of_getElem? at_),List.nil_append,importers_eq dag.distinct]

theorem Dag.linked : Linked (build nodes) where
  ids := by
    intro i node at_
    rw [build_getElem?,Option.map_eq_some_iff] at at_
    obtain ⟨before,at_,rfl⟩ := at_
    exact dag.ids i before at_
  distinct := by
    intro i
    rw [build_imports,Condensation.imports]
    cases at_ : nodes[i]? with
    | none => exact .nil
    | some node => exact dag.distinct node (List.mem_of_getElem? at_)
  inside := by
    intro i imp member
    rw [build_imports,mem_imports_iff] at member
    obtain ⟨node,at_,member⟩ := member
    rw [build_length]
    exact dag.inside node (List.mem_of_getElem? at_) imp member
  acyclic := by
    simp only [build_imports]
    exact dag.acyclic
  small := by
    rw [build_length]
    exact dag.small
  backDistinct := by
    intro i
    by_cases inside : i < nodes.length
    · rw [dag.backEdges_build i inside]
      exact filter_ids_nodup dag.ids _
    · rw [Condensation.backEdges,List.getElem?_eq_none]
      · exact .nil
      · rw [build_length]
        exact Nat.le_of_not_lt inside
  back := by
    intro n m inside
    rw [build_length] at inside
    rw [dag.backEdges_build m inside,build_imports,mem_imports_iff,mem_filter_ids dag.ids]
    simp only [decide_eq_true_eq]

end Build
end Packages
