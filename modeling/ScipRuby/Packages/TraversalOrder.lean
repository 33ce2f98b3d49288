import ScipRuby.Packages.Traversal

namespace Packages
open TraversalBuilder CondensationBuilder Stratify Relation
variable {Name : Type} {nodes : Condensation Name} {b : TraversalBuilder Name} {roots : List Nat} {n m : Nat}
variable {order : List (List Nat)} {floor : Nat}

def Condensation.info (nodes : Condensation Name) (i : Nat) : SCCInfo Name := ⟨nodes.isTest i,nodes.members i⟩

section Build

theorem spans_flatten {α : Type} (before : List α) (parts : List (List α)) :
    spans (before ++ parts.flatten) before.length (parts.map List.length) = parts := by
  induction parts generalizing before with
  | nil => rfl
  | cons part parts ih =>
    have longer := ih (before ++ part)
    rw [List.length_append,List.append_assoc] at longer
    rw [List.map_cons,spans,List.flatten_cons,longer,List.drop_left,List.take_left]

theorem spans_flatten_zero {α : Type} (parts : List (List α)) : spans parts.flatten 0 (parts.map List.length) = parts :=
  spans_flatten [] parts

theorem Recorded.build_strata (recorded : Recorded nodes floor b order roots) :
    b.build.strata = order.map fun stratum => stratum.map nodes.info := by
  have lengths : b.sccLengths = (order.flatten.map nodes.members).map List.length := by
    rw [recorded.emits.sccLengths,List.map_map]
    rfl
  have sccs : List.zipWith SCCInfo.mk b.isTest (spans b.packages 0 b.sccLengths) =
      (order.map fun stratum => stratum.map nodes.info).flatten := by
    rw [recorded.emits.packages,lengths,spans_flatten_zero,recorded.emits.isTest,List.zipWith_map_left,List.zipWith_map_right,
      List.zipWith_self,← List.map_flatten]
    rfl
  have strata : b.stratumLengths = (order.map fun stratum => stratum.map nodes.info).map List.length := by
    rw [recorded.lengths,List.map_map]
    simp only [Function.comp_def,List.length_map]
  rw [TraversalBuilder.build,sccs,strata,spans_flatten_zero]

end Build

-- The strata of a traversal, by the ids of their members: each SCC once, the prelude first, and every other SCC as
-- early as its imports and the prelude allow.
structure Traverses (nodes : Condensation Name) (traversal : Traversal Name) (order : List (List Nat)) : Prop where
  strata : traversal.strata = order.map fun stratum => stratum.map nodes.info
  once : order.flatten.Perm (List.range nodes.length)
  prelude : ∀ n < nodes.length, nodes.isPrelude n = true → stratumOf order n = 0
  rest : ∀ n < nodes.length, nodes.isPrelude n = false →
    IsLeast {k | preludeStrata nodes ≤ k ∧ ∀ m ∈ nodes.imports n, stratumOf order m < k} (stratumOf order n)

section Order
variable (linked : Linked nodes)
include linked

theorem Linked.founded : WellFounded fun m n => n < nodes.length ∧ m ∈ nodes.imports n := by
  apply wellFounded_of_acyclic (L := List.range nodes.length)
  · rintro m n ⟨inside,import_⟩
    exact ⟨List.mem_range.mpr (linked.inside n m import_),List.mem_range.mpr inside⟩
  · intro n cycle
    have reversed : TransGen (Function.swap fun i j => j ∈ nodes.imports i) n n :=
      TransGen.mono (fun _ _ step => step.2) _ _ cycle
    exact linked.acyclic n (transGen_swap.mp reversed)

theorem Recorded.all (recorded : Recorded nodes floor b order []) : ∀ n < nodes.length, n ∈ order.flatten := by
  refine recorded.strata.complete linked.founded (fun n _ m import_ => linked.inside n m import_) ?_
  intro n frontier
  cases (recorded.frontier n).mpr frontier

theorem Recorded.traverses (recorded : Recorded nodes (preludeStrata nodes) b order []) : Traverses nodes b.build order where
  strata := recorded.build_strata
  once := by
    refine (List.perm_ext_iff_of_nodup recorded.strata.once List.nodup_range).mpr ?_
    intro n
    rw [List.mem_range]
    exact ⟨recorded.strata.listed,recorded.all linked n⟩
  prelude := by
    intro n inside prelude
    have first := (recorded.strata.seeds n).mpr ⟨inside,prelude⟩
    have one : preludeStrata nodes = 1 := if_pos (any_isPrelude_iff.mpr ⟨n,inside,prelude⟩)
    rw [one] at first
    exact Nat.lt_one_iff.mp ((stratumOf_lt_iff (recorded.all linked n inside)).mpr first)
  rest := by
    intro n inside other
    exact recorded.strata.isLeast_stratumOf (fun n _ m import_ => linked.inside n m import_) (recorded.all linked) inside
      (Bool.eq_false_iff.mp other)

-- Some counter is taken below zero exactly if the prelude imports something else.
theorem Recorded.underflow_iff (recorded : Recorded nodes floor b order []) :
    b.underflow = false ↔ ∀ n < nodes.length, nodes.isPrelude n = true → ∀ m ∈ nodes.imports n, nodes.isPrelude m = true := by
  rw [← Bool.not_eq_true,recorded.tracks.underflow]
  constructor
  · intro fine n inside prelude m import_
    by_contra other
    refine fine ⟨n,inside,prelude,List.countP_pos_iff.mpr ⟨m,?_,?_⟩⟩
    · exact recorded.all linked m (linked.inside n m import_)
    · exact counts_iff.mpr ⟨import_,fun both => other both.2⟩
  · rintro closed ⟨n,inside,prelude,positive⟩
    obtain ⟨m,_,counts⟩ := List.countP_pos_iff.mp positive
    obtain ⟨import_,apart⟩ := counts_iff.mp counts
    exact apart ⟨prelude,closed n inside prelude m import_⟩

theorem Recorded.ends {fuel : Nat} {b' : TraversalBuilder Name} (recorded : Recorded nodes floor b order roots)
    (run : recordRest nodes fuel b roots = some b') : ∃ order', Recorded nodes floor b' order' [] := by
  induction fuel generalizing b order roots with
  | zero => cases run
  | succ fuel ih =>
    cases roots with
    | nil =>
      obtain rfl := Option.some.inj run
      exact ⟨order,recorded⟩
    | cons n rest => exact ih (recorded.recordStratum linked) run

theorem Linked.recordAll_ends {fuel : Nat} (run : recordAll fuel nodes = some b) :
    ∃ order, Recorded nodes (preludeStrata nodes) b order [] := by
  obtain ⟨_,_,_,recorded,same⟩ := linked.begins
  exact recorded.ends linked ((same fuel).symm.trans run)

end Order

-- computeTraversal returns a traversal in this order, and took no counter below zero on the way.
def Computes (nodes : Condensation Name) : Prop :=
  ∃ fuel b, recordAll fuel nodes = some b ∧ b.underflow = false ∧
    ∃ traversal order, nodes.computeTraversal fuel = some traversal ∧ Traverses nodes traversal order

theorem computeTraversal_ordered_iff (dag : Dag nodes) : Computes (build nodes) ↔
    ∀ n < nodes.length, nodes.isPrelude n = true → ∀ m ∈ nodes.imports n, nodes.isPrelude m = true := by
  have linked := dag.linked
  have same : (∀ n < nodes.length, nodes.isPrelude n = true → ∀ m ∈ nodes.imports n, nodes.isPrelude m = true) ↔
      ∀ n < (build nodes).length, (build nodes).isPrelude n = true →
        ∀ m ∈ (build nodes).imports n, (build nodes).isPrelude m = true := by
    simp only [build_length,build_isPrelude,build_imports]
  rw [same]
  constructor
  · rintro ⟨fuel,b,run,fine,_⟩
    obtain ⟨order,recorded⟩ := linked.recordAll_ends run
    exact (recorded.underflow_iff linked).mp fine
  · intro closed
    obtain ⟨fuel,b,order,run,recorded⟩ := linked.recordAll_terminates
    refine ⟨fuel,b,run,(recorded.underflow_iff linked).mpr closed,b.build,order,?_,recorded.traverses linked⟩
    rw [Condensation.computeTraversal,run,Option.map_some]

-- Imports of smaller ids make a dag.
theorem acyclic_of_lt (smaller : ∀ i, ∀ j ∈ nodes.imports i, j < i) (i : Nat) :
    ¬ TransGen (fun i j => j ∈ nodes.imports i) i i := by
  have down : ∀ j, TransGen (fun i j => j ∈ nodes.imports i) i j → j < i := by
    intro j path
    induction path with
    | single import_ => exact smaller _ _ import_
    | tail _ import_ ih => exact (smaller _ _ import_).trans ih
  intro cycle
  exact Nat.lt_irrefl i (down i cycle)

-- A package that imports a package of the prelude.
def preludeSample : Condensation Nat := [⟨[7],[],[],0,false,true⟩,⟨[8],[0],[],1,false,false⟩]

theorem preludeSample_imports (i : Nat) : ∀ j ∈ preludeSample.imports i, i = 1 ∧ j = 0 := by
  intro j member
  match i with
  | 0 => cases member
  | 1 => exact ⟨rfl,List.mem_singleton.mp member⟩
  | i + 2 => cases member

theorem preludeSample_dag : Dag preludeSample where
  ids := by
    intro i node at_
    match i with
    | 0 => cases at_; rfl
    | 1 => cases at_; rfl
    | i + 2 => cases at_
  fresh := by decide
  distinct := by decide
  inside := by decide
  acyclic := acyclic_of_lt fun i j member => by
    obtain ⟨rfl,rfl⟩ := preludeSample_imports i j member
    exact Nat.zero_lt_one
  small := by decide

theorem computeTraversal_ordered_iff_sample : Dag preludeSample ∧ Computes (build preludeSample) := by
  refine ⟨preludeSample_dag,(computeTraversal_ordered_iff preludeSample_dag).mpr ?_⟩
  intro n _ prelude m member
  obtain ⟨rfl,rfl⟩ := preludeSample_imports n m member
  cases prelude

-- A package of the prelude that imports another package.
def importingPrelude : Condensation Nat := [⟨[7],[],[],0,false,false⟩,⟨[8],[0],[],1,false,true⟩]

theorem importingPrelude_dag : Dag importingPrelude where
  ids := by
    intro i node at_
    match i with
    | 0 => cases at_; rfl
    | 1 => cases at_; rfl
    | i + 2 => cases at_
  fresh := by decide
  distinct := by decide
  inside := by decide
  acyclic := acyclic_of_lt fun i j member => by
    match i with
    | 0 => cases member
    | 1 => exact List.mem_singleton.mp member ▸ Nat.zero_lt_one
    | i + 2 => cases member
  small := by decide

theorem computeTraversal_underflows : Dag importingPrelude ∧ ¬ Computes (build importingPrelude) := by
  refine ⟨importingPrelude_dag,?_⟩
  rintro ⟨fuel,b,run,fine,_⟩
  have linked := importingPrelude_dag.linked
  obtain ⟨order,recorded⟩ := linked.recordAll_ends run
  have closed := (recorded.underflow_iff linked).mp fine 1 (by decide) (by decide) 0 (by decide)
  revert closed
  decide

end Packages
