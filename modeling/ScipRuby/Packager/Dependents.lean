import ScipRuby.Lib.Worklist
import ScipRuby.Packager.PackageDB
import ScipRuby.Packages.TraversalOrder

namespace Packager
open Packages Relation Worklist
variable {Name : Type}

namespace Condensation
variable (nodes : Condensation Name)

-- One entry of the frontier. The edges of a node not visited so far go to the next one.
def visitScc (acc : (Nat → Bool) × List Nat) (scc : Nat) : (Nat → Bool) × List Nat :=
  let (visited,next) := acc
  if visited scc then (visited,next)
  else (Function.update visited scc true,next ++ nodes.backEdges scc)

def visitFrontier : Nat → (Nat → Bool) → List Nat → Option (Nat → Bool)
  | 0,_,_ => none
  | fuel + 1,visited,frontier =>
    if frontier.isEmpty then some visited
    else
      let (visited,next) := frontier.foldl (visitScc nodes) (visited,[])
      visitFrontier fuel visited next

-- Nothing where an ENFORCE fails. The set of names is here in the order of the insertions.
def transitiveDependentsOf (db : PackageDB Name) (fuel : Nat) (packages : List Name) : Option (List Name) :=
  (packages.mapM fun pkg => (db.getPackageInfo pkg).bind PackageInfo.sccID).bind fun frontier =>
    (visitFrontier nodes fuel (fun _ => false) frontier).map fun visited =>
      (nodes.filter fun node => visited node.id).flatMap Node.members

end Condensation

open Condensation

section Search
variable {nodes : Condensation Name} {starts frontier next : List Nat} {visited : Nat → Bool}

theorem setOf_update (scc : Nat) : {i | Function.update visited scc true i = true} = insert scc {i | visited i = true} := by
  ext i
  by_cases same : i = scc
  · subst same
    simp
  · simp [same]

theorem visitScc_seen {scc : Nat} (seen : visited scc = true) : visitScc nodes (visited,next) scc = (visited,next) := if_pos seen

theorem visitScc_fresh {scc : Nat} (fresh : visited scc = false) :
    visitScc nodes (visited,next) scc = (Function.update visited scc true,next ++ nodes.backEdges scc) :=
  if_neg (Bool.not_eq_true _ ▸ fresh)

theorem frontier_searching (search : Searching nodes.backEdges starts {i | visited i = true} (frontier ++ next)) :
    Searching nodes.backEdges starts {i | (frontier.foldl (visitScc nodes) (visited,next)).1 i = true}
      (frontier.foldl (visitScc nodes) (visited,next)).2 := by
  induction frontier generalizing visited next with
  | nil => exact search
  | cons scc frontier ih =>
    rw [List.foldl_cons]
    cases seen : visited scc with
    | true =>
      rw [visitScc_seen seen]
      exact ih (search.skip seen)
    | false =>
      rw [visitScc_fresh seen]
      apply ih
      rw [setOf_update,← List.append_assoc]
      exact search.visit (fun _ edge => edge) fun _ edge => .inr edge

def unvisited (n : Nat) (visited : Nat → Bool) : List Nat := (List.range n).filter fun i => !visited i

theorem unvisited_update {n scc : Nat} (inside : scc < n) (fresh : visited scc = false) :
    (unvisited n (Function.update visited scc true)).length < (unvisited n visited).length := by
  have fewer : unvisited n (Function.update visited scc true) = (unvisited n visited).filter fun i => i ≠ scc := by
    unfold unvisited
    rw [List.filter_filter]
    apply List.filter_congr
    intro i _
    by_cases same : i = scc
    · simp [same]
    · simp [same]
  rw [fewer]
  apply List.length_filter_lt_length_iff_exists.mpr
  exact ⟨scc,List.mem_filter.mpr ⟨List.mem_range.mpr inside,by simp [fresh]⟩,by simp⟩

-- A frontier that visits no new node leaves nothing for the next round.
theorem frontier_progress {n : Nat} (inside : ∀ scc ∈ frontier, scc < n) :
    let after := frontier.foldl (visitScc nodes) (visited,next)
    after = (visited,next) ∨ (unvisited n after.1).length < (unvisited n visited).length := by
  induction frontier generalizing visited next with
  | nil => exact .inl rfl
  | cons scc frontier ih =>
    have rest := fun other member => inside other (List.mem_cons_of_mem scc member)
    dsimp only
    rw [List.foldl_cons]
    cases seen : visited scc with
    | true =>
      rw [visitScc_seen seen]
      exact ih rest
    | false =>
      rw [visitScc_fresh seen]
      have fewer := unvisited_update (inside scc List.mem_cons_self) seen
      rcases @ih (next ++ nodes.backEdges scc) (Function.update visited scc true) rest with same | less
      · rw [same]
        exact .inr fewer
      · exact .inr (less.trans fewer)

theorem visitFrontier_spec {n fuel : Nat} (inside : ∀ scc, Reaches nodes.backEdges starts scc → scc < n)
    (search : Searching nodes.backEdges starts {i | visited i = true} frontier)
    (enough : (unvisited n visited).length + 2 ≤ fuel) :
    ∃ visited', visitFrontier nodes fuel visited frontier = some visited' ∧
      ∀ scc, visited' scc = true ↔ Reaches nodes.backEdges starts scc := by
  induction fuel generalizing visited frontier with
  | zero => exact absurd enough (Nat.not_succ_le_zero _)
  | succ fuel ih =>
    rw [visitFrontier]
    cases frontier with
    | nil => exact ⟨visited,rfl,search.finished⟩
    | cons first rest =>
      have after := frontier_searching (search.congr fun x => by rw [List.append_nil])
      rcases @frontier_progress _ nodes (first :: rest) [] visited n fun scc member => inside scc (search.sound scc (.inr member))
        with same | less
      · -- Nothing is visited, and the next round is the last one.
        obtain ⟨fuel,rfl⟩ := Nat.exists_eq_succ_of_ne_zero (show fuel ≠ 0 by omega)
        rw [same] at after
        refine ⟨visited,?_,after.finished⟩
        simp only [List.isEmpty_cons,Bool.false_eq_true,if_false,same]
        rfl
      · exact ih after (Nat.le_of_lt_succ ((Nat.add_lt_add_right less 2).trans_le enough))

end Search

section Exactness
variable {nodes : Condensation Name} (dag : Dag nodes)
include dag

theorem build_backEdge_iff (n m : Nat) : n ∈ (CondensationBuilder.build nodes).backEdges m ↔ m ∈ nodes.imports n := by
  have linked := dag.linked
  by_cases inside : m < (CondensationBuilder.build nodes).length
  · rw [linked.back n m inside,build_imports]
  · apply iff_of_false
    · rw [Packages.Condensation.backEdges,List.getElem?_eq_none (Nat.le_of_not_lt inside)]
      exact List.not_mem_nil
    · intro member
      rw [← build_imports] at member
      exact inside (linked.inside n m member)

theorem reaches_iff (starts : List Nat) (i : Nat) : Reaches (CondensationBuilder.build nodes).backEdges starts i ↔
    ∃ start ∈ starts, ReflTransGen (fun i j => j ∈ nodes.imports i) i start := by
  unfold Reaches Edge
  simp only [build_backEdge_iff dag]
  simp only [← reflTransGen_swap (r := fun i j => j ∈ nodes.imports i)]

theorem mem_downstream (visited : Nat → Bool) (name : Name) :
    name ∈ ((CondensationBuilder.build nodes).filter fun node => visited node.id).flatMap Node.members ↔
      ∃ i, visited i = true ∧ name ∈ nodes.members i := by
  simp only [List.mem_flatMap,List.mem_filter,← @build_members _ nodes]
  constructor
  · rintro ⟨node,⟨member,seen⟩,listed⟩
    obtain ⟨i,at_⟩ := List.mem_iff_getElem?.mp member
    rw [dag.linked.ids i node at_] at seen
    exact ⟨i,seen,by rw [Packages.Condensation.members,at_]; exact listed⟩
  · rintro ⟨i,seen,listed⟩
    rw [Packages.Condensation.members] at listed
    cases at_ : (CondensationBuilder.build nodes)[i]? with
    | none =>
      rw [at_] at listed
      cases listed
    | some node =>
      rw [at_] at listed
      exact ⟨node,⟨List.mem_of_getElem? at_,by rw [dag.linked.ids i node at_]; exact seen⟩,listed⟩

end Exactness

-- The node of a package's application code.
def StartsAt (db : PackageDB Name) (nodes : Condensation Name) (pkg : Name) (i : Nat) : Prop :=
  i < nodes.length ∧ ∃ info, db.getPackageInfo pkg = some info ∧ info.sccID = some i

theorem mapM_starts {db : PackageDB Name} {nodes : Condensation Name} {packages : List Name}
    (ids : ∀ pkg ∈ packages, ∃ i, StartsAt db nodes pkg i) :
    ∃ frontier, packages.mapM (fun pkg => (db.getPackageInfo pkg).bind PackageInfo.sccID) = some frontier ∧
      ∀ i, i ∈ frontier ↔ ∃ pkg ∈ packages, StartsAt db nodes pkg i := by
  induction packages with
  | nil => exact ⟨[],rfl,by simp⟩
  | cons pkg packages ih =>
    obtain ⟨frontier,collected,exact_⟩ := ih fun other member => ids other (List.mem_cons_of_mem pkg member)
    obtain ⟨i,inside,info,found,id⟩ := ids pkg List.mem_cons_self
    have first : (db.getPackageInfo pkg).bind PackageInfo.sccID = some i := by
      rw [found]
      exact id
    refine ⟨i :: frontier,by rw [List.mapM_cons,first,collected]; rfl,fun j => ?_⟩
    rw [List.mem_cons,exact_]
    constructor
    · rintro (rfl | ⟨other,member,start⟩)
      · exact ⟨pkg,List.mem_cons_self,inside,info,found,id⟩
      · exact ⟨other,List.mem_cons_of_mem pkg member,start⟩
    · rintro ⟨other,member,start⟩
      rcases List.mem_cons.mp member with rfl | later
      · obtain ⟨_,info',found',id'⟩ := start
        cases found.symm.trans found'
        exact .inl (Option.some.inj (id'.symm.trans id))
      · exact .inr ⟨other,later,start⟩

-- The search from some nodes finds the members of those that reach one of them.
theorem transitiveDependentsOf_members {db : PackageDB Name} {nodes : Condensation Name} (dag : Dag nodes)
    {packages : List Name} {frontier : List Nat}
    (collected : packages.mapM (fun pkg => (db.getPackageInfo pkg).bind PackageInfo.sccID) = some frontier)
    (started : ∀ i ∈ frontier, ∃ pkg ∈ packages, StartsAt db nodes pkg i) {fuel : Nat} (enough : nodes.length + 2 ≤ fuel) :
    ∃ downstream, transitiveDependentsOf (CondensationBuilder.build nodes) db fuel packages = some downstream ∧
      ∀ name, name ∈ downstream ↔ ∃ start ∈ frontier, ∃ i, name ∈ nodes.members i ∧
        ReflTransGen (fun i j => j ∈ nodes.imports i) i start := by
  have inside : ∀ i, Reaches (CondensationBuilder.build nodes).backEdges frontier i → i < nodes.length := by
    intro i reaches
    obtain ⟨start,member,path⟩ := (reaches_iff dag frontier i).mp reaches
    rcases ReflTransGen.cases_head path with rfl | ⟨j,edge,_⟩
    · obtain ⟨_,_,inside,_⟩ := started i member
      exact inside
    · obtain ⟨node,at_,_⟩ := mem_imports_iff.mp edge
      exact (List.getElem?_eq_some_iff.mp at_).1
  have fresh : {i | (fun _ => false : Nat → Bool) i = true} = (∅ : Set Nat) := by
    ext i
    simp
  have small : (unvisited nodes.length fun _ => false).length + 2 ≤ fuel := by
    refine (Nat.add_le_add_right (List.length_filter_le _ _) 2).trans ?_
    rw [List.length_range]
    exact enough
  obtain ⟨visited,done,exact_⟩ := visitFrontier_spec inside (fresh ▸ searching_start _ frontier) small
  refine ⟨_,by unfold transitiveDependentsOf; rw [collected,Option.bind_some,done]; rfl,fun name => ?_⟩
  rw [mem_downstream dag]
  constructor
  · rintro ⟨i,seen,listed⟩
    obtain ⟨start,member,path⟩ := (reaches_iff dag frontier i).mp ((exact_ i).mp seen)
    exact ⟨start,member,i,listed,path⟩
  · rintro ⟨start,member,i,listed,path⟩
    exact ⟨i,(exact_ i).mpr ((reaches_iff dag frontier i).mpr ⟨start,member,path⟩),listed⟩

theorem transitiveDependentsOf_closure (db : PackageDB Name) (nodes : Condensation Name) (dag : Dag nodes)
    (packages : List Name) (ids : ∀ pkg ∈ packages, ∃ i, StartsAt db nodes pkg i) (fuel : Nat)
    (enough : nodes.length + 2 ≤ fuel) :
    ∃ downstream, transitiveDependentsOf (CondensationBuilder.build nodes) db fuel packages = some downstream ∧
      ∀ name, name ∈ downstream ↔ ∃ i, name ∈ nodes.members i ∧
        ∃ pkg ∈ packages, ∃ start, StartsAt db nodes pkg start ∧ ReflTransGen (fun i j => j ∈ nodes.imports i) i start := by
  obtain ⟨frontier,collected,started⟩ := mapM_starts ids
  obtain ⟨downstream,done,members⟩ := transitiveDependentsOf_members dag collected (fun i => (started i).mp) enough
  refine ⟨downstream,done,fun name => (members name).trans ⟨?_,?_⟩⟩
  · rintro ⟨start,member,i,listed,path⟩
    obtain ⟨pkg,present,starts⟩ := (started start).mp member
    exact ⟨i,listed,pkg,present,start,starts,path⟩
  · rintro ⟨i,listed,pkg,present,start,starts,path⟩
    exact ⟨start,(started start).mpr ⟨pkg,present,starts⟩,i,listed,path⟩

def upstreamDB : PackageDB Nat :=
  {PackageDB.initial with packages_ := fun name => if name = 7 then some ⟨7,[],[],false,none,some 0,.None⟩ else none}

theorem transitiveDependentsOf_sample : ∃ downstream,
    transitiveDependentsOf (CondensationBuilder.build preludeSample) upstreamDB 4 [7] = some downstream ∧ 8 ∈ downstream := by
  have upstream : StartsAt upstreamDB preludeSample 7 0 := ⟨by decide,_,rfl,rfl⟩
  have starts : ∀ pkg ∈ [7], ∃ i, StartsAt upstreamDB preludeSample pkg i := fun pkg member =>
    ⟨0,List.mem_singleton.mp member ▸ upstream⟩
  obtain ⟨downstream,computed,exact_⟩ :=
    transitiveDependentsOf_closure upstreamDB preludeSample preludeSample_dag [7] starts 4 (by decide)
  refine ⟨downstream,computed,(exact_ 8).mpr ⟨1,List.mem_singleton_self 8,7,List.mem_singleton_self 7,0,upstream,?_⟩⟩
  exact .single (List.mem_singleton_self 0)

end Packager
