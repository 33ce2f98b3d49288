import Mathlib.Data.List.Perm.Subperm
import ScipRuby.Lib.Stratify
import ScipRuby.Packages.BackEdges

namespace Packages
open TraversalBuilder Stratify
variable {Name : Type} {nodes : Condensation Name} {b : TraversalBuilder Name} {next done deps stratum : List Nat} {n m : Nat}

-- Whether recording m takes one off the counter of n: not within the prelude.
def counts (nodes : Condensation Name) (n m : Nat) : Bool := m ∈ nodes.imports n ∧ ¬ (nodes.isPrelude n ∧ nodes.isPrelude m)

def counted (nodes : Condensation Name) (done : List Nat) (n : Nat) : Nat := done.countP (counts nodes n)

def initial (nodes : Condensation Name) (n : Nat) : Nat := if nodes.isPrelude n then 0 else (nodes.imports n).length

-- What the counters say when the nodes in done have been recorded.
structure Tracks (nodes : Condensation Name) (b : TraversalBuilder Name) (done : List Nat) : Prop where
  remaining : ∀ n < nodes.length, b.remainingImports n = (initial nodes n + 2 ^ 32 - counted nodes done n) % 2 ^ 32
  underflow : b.underflow = true ↔ ∃ n < nodes.length, nodes.isPrelude n ∧ 0 < counted nodes done n

section Counts

theorem counted_append : counted nodes (done ++ stratum) n = counted nodes done n + counted nodes stratum n :=
  List.countP_append

theorem counted_singleton : counted nodes [m] n = if counts nodes n m then 1 else 0 := by
  rw [counted,List.countP_singleton]

theorem counts_iff : counts nodes n m = true ↔ m ∈ nodes.imports n ∧ ¬ (nodes.isPrelude n = true ∧ nodes.isPrelude m = true) := by
  simp only [counts,decide_eq_true_eq]

-- The counted nodes are imports.
theorem filter_subperm (distinct : done.Nodup) : (done.filter (counts nodes n)).Subperm (nodes.imports n) := by
  refine List.Nodup.subperm (distinct.filter _) ?_
  intro m member
  exact (counts_iff.mp (List.mem_filter.mp member).2).1

theorem counted_le (distinct : done.Nodup) : counted nodes done n ≤ (nodes.imports n).length := by
  rw [counted,List.countP_eq_length_filter]
  exact (filter_subperm distinct).length_le

variable (linked : Linked nodes)
include linked

theorem Linked.imports_le : (nodes.imports n).length ≤ 2 ^ 31 := by
  have within : (nodes.imports n).Subperm (List.range nodes.length) := by
    refine List.Nodup.subperm (linked.distinct n) ?_
    intro m member
    exact List.mem_range.mpr (linked.inside n m member)
  have := within.length_le
  have := linked.small
  rw [List.length_range] at *
  omega

theorem Linked.counted_all_iff (distinct : done.Nodup) (other : nodes.isPrelude n = false) :
    counted nodes done n = (nodes.imports n).length ↔ ∀ m ∈ nodes.imports n, m ∈ done := by
  have within := @filter_subperm _ nodes done n distinct
  have unfiltered : ∀ m, m ∈ done.filter (counts nodes n) ↔ m ∈ done ∧ m ∈ nodes.imports n := by
    intro m
    simp [List.mem_filter,counts_iff,other]
  rw [counted,List.countP_eq_length_filter]
  constructor
  · intro full m import_
    have same := within.perm_of_length_le (Nat.le_of_eq full.symm)
    exact ((unfiltered m).mp (same.mem_iff.mpr import_)).1
  · intro all
    refine Nat.le_antisymm within.length_le (List.Nodup.subperm (linked.distinct n) ?_).length_le
    intro m import_
    exact (unfiltered m).mpr ⟨all m import_,import_⟩

omit linked in
-- An import that is still to be recorded has not been counted.
theorem counted_lt (distinct : done.Nodup) (new : m ∉ done) (counts : counts nodes n m = true) :
    counted nodes done n < (nodes.imports n).length := by
  have longer : (done ++ [m]).Nodup := List.nodup_append.mpr ⟨distinct,List.nodup_singleton m,by
    rintro x here y last rfl
    exact new (List.mem_singleton.mp last ▸ here)⟩
  have more := @counted_le _ nodes (done ++ [m]) n longer
  rw [counted_append,counted_singleton,if_pos counts] at more
  exact more

end Counts

section Satisfy

-- Deps that are not passed over.
def affects (nodes : Condensation Name) (preludeStratum : Bool) (dep : Nat) : Bool := !(preludeStratum && nodes.isPrelude dep)

theorem satisfyAll_eq {preludeStratum : Bool} (distinct : deps.Nodup) :
    deps.foldl (satisfy nodes preludeStratum) (b,next) =
    ({b with
        remainingImports := fun n =>
          if n ∈ deps ∧ affects nodes preludeStratum n then decrement (b.remainingImports n) else b.remainingImports n,
        underflow := b.underflow || deps.any fun n => affects nodes preludeStratum n && b.remainingImports n == 0},
      next ++ deps.filter fun n => affects nodes preludeStratum n && decrement (b.remainingImports n) == 0) := by
  induction deps generalizing b next with
  | nil => simp
  | cons dep deps ih =>
    obtain ⟨apart,distinct⟩ := List.nodup_cons.mp distinct
    rw [List.foldl_cons]
    by_cases passed : (preludeStratum && nodes.isPrelude dep) = true
    · have unaffected : affects nodes preludeStratum dep = false := by rw [affects,passed,Bool.not_true]
      have same : satisfy nodes preludeStratum (b,next) dep = (b,next) := if_pos passed
      rw [same,ih distinct]
      have still : ∀ n, (n ∈ dep :: deps ∧ affects nodes preludeStratum n = true) ↔ n ∈ deps ∧ affects nodes preludeStratum n = true := by
        intro n
        constructor
        · rintro ⟨member,affected⟩
          rcases List.mem_cons.mp member with rfl | member
          · rw [unaffected] at affected
            cases affected
          · exact ⟨member,affected⟩
        · rintro ⟨member,affected⟩
          exact ⟨List.mem_cons_of_mem _ member,affected⟩
      simp only [still,List.any_cons,unaffected,Bool.false_and,Bool.false_or,List.filter_cons,Bool.false_eq_true,if_false]
    · have affected : affects nodes preludeStratum dep = true := by
        rw [affects,Bool.eq_false_iff.mpr passed,Bool.not_false]
      have taken : satisfy nodes preludeStratum (b,next) dep =
          ({b with remainingImports := Function.update b.remainingImports dep (decrement (b.remainingImports dep)),
                   underflow := b.underflow || b.remainingImports dep == 0},
            if decrement (b.remainingImports dep) ≤ 0 then next ++ [dep] else next) := if_neg passed
      have elsewhere : ∀ n ∈ deps, Function.update b.remainingImports dep (decrement (b.remainingImports dep)) n =
          b.remainingImports n := by
        intro n member
        have other : n ≠ dep := fun same => apart (same ▸ member)
        exact Function.update_of_ne other ..
      rw [taken,ih distinct]
      simp only [Prod.mk.injEq,TraversalBuilder.mk.injEq,true_and]
      refine ⟨⟨?_,?_⟩,?_⟩
      · funext n
        by_cases here : n = dep
        · subst here
          simp [apart,affected]
        · simp [here]
      · have rest : (deps.any fun n => affects nodes preludeStratum n &&
            Function.update b.remainingImports dep (decrement (b.remainingImports dep)) n == 0) =
            deps.any fun n => affects nodes preludeStratum n && b.remainingImports n == 0 := by
          rw [Bool.eq_iff_iff,List.any_eq_true,List.any_eq_true]
          constructor
          · rintro ⟨n,member,zero⟩
            exact ⟨n,member,by rwa [elsewhere n member] at zero⟩
          · rintro ⟨n,member,zero⟩
            exact ⟨n,member,by rwa [elsewhere n member]⟩
        rw [rest,List.any_cons,affected,Bool.true_and,Bool.or_assoc]
      · rw [List.filter_cons,affected,Bool.true_and]
        have rest : deps.filter (fun n => affects nodes preludeStratum n &&
            decrement (Function.update b.remainingImports dep (decrement (b.remainingImports dep)) n) == 0) =
            deps.filter fun n => affects nodes preludeStratum n && decrement (b.remainingImports n) == 0 := by
          refine List.filter_congr ?_
          intro n member
          rw [elsewhere n member]
        rw [rest]
        by_cases zero : decrement (b.remainingImports dep) = 0
        · simp [zero]
        · simp [zero]

end Satisfy

section Record

theorem affects_isPrelude (linked : Linked nodes) (inside : m < nodes.length) :
    n ∈ nodes.backEdges m ∧ affects nodes (nodes.isPrelude m) n = true ↔ counts nodes n m = true := by
  rw [linked.back n m inside,counts_iff,affects]
  cases nodes.isPrelude m <;> cases nodes.isPrelude n <;> simp

theorem decrement_counted {c start : Nat} (few : c < 2 ^ 31) (small : start ≤ 2 ^ 31) :
    decrement ((start + 2 ^ 32 - c) % 2 ^ 32) = (start + 2 ^ 32 - (c + 1)) % 2 ^ 32 := by
  unfold decrement
  omega

theorem importer_inside (counts : counts nodes n m = true) : n < nodes.length := by
  have import_ := (counts_iff.mp counts).1
  rw [mem_imports_iff] at import_
  obtain ⟨node,at_,_⟩ := import_
  exact (List.getElem?_eq_some_iff.mp at_).1

variable (linked : Linked nodes) (tracks : Tracks nodes b done) (distinct : done.Nodup) (new : m ∉ done)
include linked tracks distinct new

-- A counter that is taken down: at zero before only in the prelude, at zero afterwards only for a ready node.
theorem Tracks.counter (counts : counts nodes n m = true) :
    decrement (b.remainingImports n) = (initial nodes n + 2 ^ 32 - (counted nodes done n + 1)) % 2 ^ 32 ∧
    (b.remainingImports n = 0 ↔ nodes.isPrelude n = true ∧ counted nodes done n = 0) ∧
    (decrement (b.remainingImports n) = 0 ↔ nodes.isPrelude n = false ∧ counted nodes done n + 1 = (nodes.imports n).length) := by
  have present := importer_inside counts
  have below := counted_lt distinct new counts
  have few := @Linked.imports_le _ _ n linked
  have start : initial nodes n ≤ 2 ^ 31 := by
    unfold initial
    split <;> omega
  have taken := @decrement_counted (counted nodes done n) (initial nodes n) (by omega) start
  rw [tracks.remaining n present,taken]
  refine ⟨rfl,?_,?_⟩
  · cases prelude : nodes.isPrelude n with
    | true =>
      simp only [initial,prelude,if_true,true_and]
      omega
    | false =>
      simp only [initial,prelude,Bool.false_eq_true,if_false,false_and,iff_false]
      omega
  · cases prelude : nodes.isPrelude n with
    | true =>
      simp only [initial,prelude,if_true,Bool.true_eq_false,false_and,iff_false]
      omega
    | false =>
      simp only [initial,prelude,Bool.false_eq_true,if_false,true_and]
      omega

-- The members of the next stratum that m is the last import of.
theorem Tracks.becomes_ready (inside : m < nodes.length) :
    n ∈ (nodes.backEdges m).filter (fun n => affects nodes (nodes.isPrelude m) n && decrement (b.remainingImports n) == 0) ↔
    n < nodes.length ∧ Ready nodes.imports (nodes.isPrelude ·) (done ++ [m]) n ∧ ¬ Ready nodes.imports (nodes.isPrelude ·) done n := by
  simp only [List.mem_filter,Bool.and_eq_true,beq_iff_eq,← and_assoc,affects_isPrelude linked inside]
  have longer : (done ++ [m]).Nodup := by
    rw [List.nodup_append]
    refine ⟨distinct,List.nodup_singleton m,?_⟩
    rintro x here y last rfl
    exact new (List.mem_singleton.mp last ▸ here)
  have full : ∀ n, counts nodes n m = true → nodes.isPrelude n = false →
      (counted nodes done n + 1 = (nodes.imports n).length ↔ ∀ x ∈ nodes.imports n, x ∈ done ++ [m]) := by
    intro n counts other
    rw [← linked.counted_all_iff longer other,counted_append,counted_singleton,if_pos counts]
  constructor
  · rintro ⟨counts,zero⟩
    obtain ⟨other,last⟩ := (tracks.counter linked distinct new counts).2.2.mp zero
    refine ⟨⟨importer_inside counts,Bool.eq_false_iff.mp other,(full n counts other).mp last⟩,?_⟩
    rintro ⟨_,all⟩
    exact new (all m (counts_iff.mp counts).1)
  · rintro ⟨⟨present,other,all⟩,early⟩
    have import_ : m ∈ nodes.imports n := by
      by_contra absent
      refine early ⟨other,fun x import_ => ?_⟩
      rcases List.mem_append.mp (all x import_) with before | last
      · exact before
      · exact absurd (List.mem_singleton.mp last ▸ import_) absent
    have counts : counts nodes n m = true := counts_iff.mpr ⟨import_,fun both => other both.1⟩
    have other' := Bool.eq_false_iff.mpr other
    exact ⟨counts,(tracks.counter linked distinct new counts).2.2.mpr ⟨other',(full n counts other').mpr all⟩⟩

theorem Tracks.recordScc (inside : m < nodes.length) :
    Tracks nodes (recordScc nodes (nodes.isPrelude m) (b,next) m).1 (done ++ [m]) := by
  simp only [TraversalBuilder.recordScc]
  rw [satisfyAll_eq (linked.backDistinct m)]
  constructor
  · intro n present
    simp only [affects_isPrelude linked inside,counted_append,counted_singleton]
    by_cases counts : counts nodes n m = true
    · rw [if_pos counts,if_pos counts,(tracks.counter linked distinct new counts).1]
    · rw [if_neg counts,if_neg counts,Nat.add_zero,tracks.remaining n present]
  · simp only [Bool.or_eq_true,List.any_eq_true,Bool.and_eq_true,beq_iff_eq,tracks.underflow,counted_append,
      counted_singleton]
    constructor
    · rintro (⟨n,present,prelude,positive⟩ | ⟨n,member,affected,zero⟩)
      · exact ⟨n,present,prelude,by omega⟩
      · have counts := (affects_isPrelude linked inside).mp ⟨member,affected⟩
        obtain ⟨prelude,_⟩ := (tracks.counter linked distinct new counts).2.1.mp zero
        exact ⟨n,importer_inside counts,prelude,by rw [if_pos counts]; omega⟩
    · rintro ⟨n,present,prelude,positive⟩
      by_cases before : counted nodes done n = 0
      · by_cases counts : counts nodes n m = true
        · obtain ⟨member,affected⟩ := (affects_isPrelude linked inside).mpr counts
          exact .inr ⟨n,member,affected,(tracks.counter linked distinct new counts).2.1.mpr ⟨prelude,before⟩⟩
        · rw [if_neg counts] at positive
          omega
      · exact .inl ⟨n,present,prelude,Nat.pos_of_ne_zero before⟩

end Record
end Packages
