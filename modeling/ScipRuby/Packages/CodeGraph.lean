import Mathlib.Data.List.Perm.Subperm
import ScipRuby.Lib.Condensations
import ScipRuby.Packages.SccCorrectness

namespace Packages
namespace ComputePackageSCCs
open Relation Condensations
variable {Name : Type} [DecidableEq Name] {db : PackageDB Name} {graph : PackageGraph Name db}
variable {app clean last : ComputePackageSCCs Name} {ids ids' : SccIds Name} {p q : Name} {fuel i j : Nat} {node : Node Name}

-- A package has application code and test code, which comes with true.
inductive CodeEdge (graph : PackageGraph Name db) : Name × Bool → Name × Bool → Prop
  | normal {p q : Name} (imports : NormalImport graph p q) : CodeEdge graph (p,false) (q,false)
  | any {p q : Name} (imports : AnyImport graph p q) : CodeEdge graph (p,true) (q,true)
  | own (p : Name) : CodeEdge graph (p,true) (p,false)

section Paths

omit [DecidableEq Name] in
theorem application_path {c : Name × Bool} : ReflTransGen (CodeEdge graph) (p,false) c ↔
    c.2 = false ∧ ReflTransGen (NormalImport graph) p c.1 := by
  constructor
  · intro path
    induction path with
    | refl => exact ⟨rfl,.refl⟩
    | tail _ edge ih =>
      cases edge with
      | normal imports => exact ⟨rfl,ih.2.tail imports⟩
      | any _ => cases ih.1
      | own _ => cases ih.1
  · rintro ⟨kind,path⟩
    obtain ⟨q,b⟩ := c
    dsimp only at kind path
    subst kind
    induction path with
    | refl => exact .refl
    | tail _ imports ih => exact ih.tail (.normal imports)

omit [DecidableEq Name] in
theorem test_path : ReflTransGen (CodeEdge graph) (p,true) (q,true) ↔ ReflTransGen (AnyImport graph) p q := by
  constructor
  · intro path
    have staying {c : Name × Bool} (path : ReflTransGen (CodeEdge graph) (p,true) c) :
        c.2 = true → ReflTransGen (AnyImport graph) p c.1 := by
      induction path with
      | refl => exact fun _ => .refl
      | tail _ edge ih =>
        cases edge with
        | normal _ => intro impossible; cases impossible
        | any imports => exact fun _ => (ih rfl).tail imports
        | own _ => intro impossible; cases impossible
    exact staying path rfl
  · intro path
    induction path with
    | refl => exact .refl
    | tail _ imports ih => exact ih.tail (.any imports)

omit [DecidableEq Name] in
-- A package's tests lead to the application code of everything it imports.
theorem test_application_path : ReflTransGen (CodeEdge graph) (p,true) (q,false) ↔ ReflTransGen (AnyImport graph) p q := by
  constructor
  · intro path
    have forgetting {c : Name × Bool} (path : ReflTransGen (CodeEdge graph) (p,true) c) :
        ReflTransGen (AnyImport graph) p c.1 := by
      induction path with
      | refl => exact .refl
      | tail _ edge ih =>
        cases edge with
        | normal imports =>
          obtain ⟨present,i,listed,_,same⟩ := imports
          exact ih.tail ⟨present,i,listed,same⟩
        | any imports => exact ih.tail imports
        | own _ => exact ih
    exact forgetting path
  · exact fun path => (test_path.mpr path).tail (.own q)

end Paths

section Nodes
variable (phases : Phases graph ids app clean last ids') (plain : ∀ p ∈ db.packages, db.usesTestPackages p = false)
  (named : ∀ p ∈ db.packages, graph.nameExists p = true)
include phases

theorem Phases.members_comp (at_ : last.condensation[i]? = some node) :
    node.members ∈ comps (start ids) app ∨ node.members ∈ comps clean last := by
  cases kind : node.isTest with
  | false => exact .inl (List.mem_map_of_mem (List.mem_of_getElem? (phases.application_at at_ kind)))
  | true =>
    obtain ⟨k,rfl⟩ := Nat.exists_eq_add_of_le (phases.test_at at_ kind)
    exact .inr (List.mem_map_of_mem (List.mem_of_getElem? (List.getElem?_drop.trans at_)))

theorem Phases.member_present (at_ : last.condensation[i]? = some node) (here : p ∈ node.members) : p ∈ db.packages := by
  rcases phases.members_comp at_ with first | second
  · exact (phases.first.passing.live p (.inr (List.mem_flatten.mpr ⟨_,first,here⟩))).1
  · exact (phases.second.passing.live p (.inr (List.mem_flatten.mpr ⟨_,second,here⟩))).1

include plain

theorem Phases.application_member (present : p ∈ db.packages) :
    ∃ i, graph.kind.getSCCId ids' p = some i ∧ MemberOfKind last.condensation false p i := by
  obtain ⟨i,_,_,_,found,member⟩ := phases.first.member (start_live present)
    (phases.first.covered p present (plain_isTestPackage plain present))
  exact ⟨_,(phases.getSCCId_eq plain present).trans found,phases.memberOfKind_false.mpr member⟩

theorem Phases.test_member (present : p ∈ db.packages) :
    ∃ i, graph.kind.getTestSCCId ids' p = some i ∧ MemberOfKind last.condensation true p i := by
  have covered : skips db .TestHelper p = false := by simp [skips,plain p present]
  obtain ⟨i,_,_,_,found,member⟩ := phases.second.member (phases.clean_live plain present) (phases.second.covered p present covered)
  refine ⟨_,(phases.getTestSCCId_eq p).trans found,phases.memberOfKind_true.mpr ⟨Nat.le_add_right _ _,member⟩⟩

include named

theorem Phases.application_imports (at_ : last.condensation[i]? = some node) (kind : node.isTest = false) :
    j ∈ node.imports ↔ ∃ p ∈ node.members, ∃ q, NormalImport graph p q ∧ graph.kind.getSCCId ids' q = some j ∧ j ≠ i := by
  rw [phases.first.passing.linked i node (Nat.zero_le i) (phases.application_at at_ kind)]
  constructor
  · rintro (⟨_,_,own⟩ | ⟨p,here,imp,listed,links⟩)
    · exact absurd rfl own.second
    · have present := graph.resolved p (phases.member_present at_ here) imp listed links.named
      exact ⟨p,here,_,⟨present,imp,listed,considers_Normal.mp links.considered,rfl⟩,
        (phases.getSCCId_eq plain present).trans links.found,links.other⟩
  · rintro ⟨p,here,_,⟨present,imp,listed,type,rfl⟩,found,other⟩
    exact .inr ⟨p,here,imp,listed,named _ present,considers_Normal.mpr type,
      (phases.getSCCId_eq plain present).symm.trans found,other⟩

theorem Phases.test_imports (at_ : last.condensation[i]? = some node) (kind : node.isTest = true) :
    j ∈ node.imports ↔ (∃ p ∈ node.members, graph.kind.getSCCId ids' p = some j) ∨
      ∃ p ∈ node.members, ∃ q, AnyImport graph p q ∧ graph.kind.getTestSCCId ids' q = some j ∧ j ≠ i := by
  rw [phases.second.passing.linked i node (phases.test_at at_ kind) at_]
  have apps {p : Name} (present : p ∈ db.packages) : graph.kind.getSCCId ids' p = graph.kind.getSCCId last.ids p := by
    rw [phases.apps,if_neg]
    intro all
    rw [plain p present] at all
    cases all.2.1
  refine or_congr ⟨?_,?_⟩ ⟨?_,?_⟩
  · rintro ⟨p,here,own⟩
    exact ⟨p,here,(apps (phases.member_present at_ here)).trans own.found⟩
  · rintro ⟨p,here,found⟩
    have present := phases.member_present at_ here
    exact ⟨p,here,by decide,plain_isTestPackage plain present,(apps present).symm.trans found⟩
  · rintro ⟨p,here,imp,listed,links⟩
    have present := graph.resolved p (phases.member_present at_ here) imp listed links.named
    exact ⟨p,here,_,⟨present,imp,listed,rfl⟩,(phases.getTestSCCId_eq _).trans links.found,links.other⟩
  · rintro ⟨p,here,_,⟨present,imp,listed,rfl⟩,found,other⟩
    exact ⟨p,here,imp,listed,named _ present,considers_TestHelper,(phases.getTestSCCId_eq _).symm.trans found,other⟩

end Nodes

-- The number of the node that holds a package's code of one kind.
def nodeOf (graph : PackageGraph Name db) (ids : SccIds Name) (c : Name × Bool) : Nat :=
  (if c.2 then graph.kind.getTestSCCId ids c.1 else graph.kind.getSCCId ids c.1).getD 0

-- The nodes gather the code of the existing packages, and import each other as it does.
structure Gathered (graph : PackageGraph Name db) (nodes : Condensation Name) (ids : SccIds Name) : Prop where
  condenses : Condenses (fun c : Name × Bool => c.1 ∈ db.packages) (CodeEdge graph) (nodeOf graph ids) fun i j => j ∈ nodes.imports i
  members : ∀ c : Name × Bool, c.1 ∈ db.packages → ∀ p, p ∈ nodes.members (nodeOf graph ids c) ↔
    p ∈ db.packages ∧ nodeOf graph ids (p,c.2) = nodeOf graph ids c
  distinct : ∀ i, (nodes.members i).Nodup
  covered : ∀ i < nodes.length, ∃ c : Name × Bool, c.1 ∈ db.packages ∧ nodeOf graph ids c = i
  inside : ∀ c : Name × Bool, c.1 ∈ db.packages → nodeOf graph ids c < nodes.length
  assigned : ∀ p ∈ db.packages, graph.kind.getSCCId ids p = some (nodeOf graph ids (p,false))

section Gathering
variable (phases : Phases graph ids app clean last ids') (plain : ∀ p ∈ db.packages, db.usesTestPackages p = false)
  (named : ∀ p ∈ db.packages, graph.nameExists p = true)
include phases plain

theorem Phases.found_at {c : Name × Bool} (present : c.1 ∈ db.packages) :
    (if c.2 then graph.kind.getTestSCCId ids' c.1 else graph.kind.getSCCId ids' c.1) = some (nodeOf graph ids' c) ∧
      MemberOfKind last.condensation c.2 c.1 (nodeOf graph ids' c) := by
  obtain ⟨p,kind⟩ := c
  cases kind with
  | false =>
    obtain ⟨i,found,member⟩ := phases.application_member plain present
    have same : nodeOf graph ids' (p,false) = i := by simp [nodeOf,found]
    exact ⟨same.symm ▸ found,same.symm ▸ member⟩
  | true =>
    obtain ⟨i,found,member⟩ := phases.test_member plain present
    have same : nodeOf graph ids' (p,true) = i := by simp [nodeOf,found]
    exact ⟨same.symm ▸ found,same.symm ▸ member⟩

theorem Phases.nodeOf_unique {kind : Bool} (member : MemberOfKind last.condensation kind p i) :
    p ∈ db.packages ∧ nodeOf graph ids' (p,kind) = i := by
  have whole := member
  obtain ⟨node,at_,_,here⟩ := whole
  have present := phases.member_present at_ here
  have found := (phases.found_at plain (c := (p,kind)) present).2
  have condensed := phases.condensed plain
  refine ⟨present,?_⟩
  cases kind with
  | false => exact (condensed.oneApplication p present).unique (memberOfKind_build.mpr found) (memberOfKind_build.mpr member)
  | true => exact (condensed.oneTest p present).unique (memberOfKind_build.mpr found) (memberOfKind_build.mpr member)

theorem Phases.nodeOf_kind {c d : Name × Bool} (here : c.1 ∈ db.packages) (there : d.1 ∈ db.packages)
    (same : nodeOf graph ids' c = nodeOf graph ids' d) : c.2 = d.2 := by
  obtain ⟨node,at_,kind,_⟩ := (phases.found_at plain here).2
  obtain ⟨node',at',kind',_⟩ := (phases.found_at plain there).2
  rw [same] at at_
  cases at_.symm.trans at'
  exact kind.symm.trans kind'

-- Code is in one node with the code it reaches and is reached from.
theorem Phases.nodeOf_strong (c d : Name × Bool) (here : c.1 ∈ db.packages) (there : d.1 ∈ db.packages) :
    nodeOf graph ids' c = nodeOf graph ids' d ↔ ReflTransGen (CodeEdge graph) c d ∧ ReflTransGen (CodeEdge graph) d c := by
  have condensed := phases.condensed plain
  have found := (phases.found_at plain here).1
  have found' := (phases.found_at plain there).1
  have kinds := phases.nodeOf_kind plain here there
  obtain ⟨p,kind⟩ := c
  obtain ⟨q,kind'⟩ := d
  cases kind <;> cases kind'
  · rw [application_path,application_path,← Option.some_inj,← found,← found']
    exact (condensed.application p here q there).trans (and_congr (and_iff_right rfl).symm (and_iff_right rfl).symm)
  · refine iff_of_false (fun same => by cases kinds same) fun both => ?_
    cases (application_path.mp both.1).1
  · refine iff_of_false (fun same => by cases kinds same) fun both => ?_
    cases (application_path.mp both.2).1
  · rw [test_path,test_path,← Option.some_inj,← found,← found']
    exact condensed.test p here q there

include named in
theorem Phases.nodeOf_edges (c : Name × Bool) (j : Nat) (here : c.1 ∈ db.packages) :
    j ∈ last.condensation.imports (nodeOf graph ids' c) ↔ ∃ d e, d.1 ∈ db.packages ∧ nodeOf graph ids' d = nodeOf graph ids' c ∧
      CodeEdge graph d e ∧ nodeOf graph ids' e = j ∧ j ≠ nodeOf graph ids' c := by
  obtain ⟨node,at_,kind,_⟩ := (phases.found_at plain here).2
  have imports : last.condensation.imports (nodeOf graph ids' c) = node.imports := by
    rw [Condensation.imports,at_]
    rfl
  have inNode {p : Name} (member : p ∈ node.members) : p ∈ db.packages ∧ nodeOf graph ids' (p,c.2) = nodeOf graph ids' c :=
    phases.nodeOf_unique plain ⟨node,at_,kind,member⟩
  have member {d : Name × Bool} (present : d.1 ∈ db.packages) (same : nodeOf graph ids' d = nodeOf graph ids' c) : d.1 ∈ node.members := by
    obtain ⟨node',at',_,here'⟩ := (phases.found_at plain present).2
    rw [same] at at'
    cases at_.symm.trans at'
    exact here'
  rw [imports]
  obtain ⟨p,side⟩ := c
  cases side with
  | false =>
    rw [phases.application_imports plain named at_ kind]
    constructor
    · rintro ⟨p',inside,q,edge,found,other⟩
      obtain ⟨present,same⟩ := inNode inside
      exact ⟨(p',false),(q,false),present,same,.normal edge,by simp [nodeOf,found],other⟩
    · rintro ⟨d,e,present,same,edge,rfl,other⟩
      have inside := member present same
      have side := phases.nodeOf_kind plain present here same
      cases edge with
      | normal edge => exact ⟨_,inside,_,edge,(phases.found_at plain (c := (_,false)) edge.1).1,other⟩
      | any _ => cases side
      | own _ => cases side
  | true =>
    rw [phases.test_imports plain named at_ kind]
    constructor
    · rintro (⟨p',inside,found⟩ | ⟨p',inside,q,edge,found,other⟩)
      · obtain ⟨present,same⟩ := inNode inside
        have there : nodeOf graph ids' (p',false) = j := by simp [nodeOf,found]
        refine ⟨(p',true),(p',false),present,same,.own p',there,fun meet => ?_⟩
        cases phases.nodeOf_kind plain (c := (p',false)) present here (there.trans meet)
      · obtain ⟨present,same⟩ := inNode inside
        exact ⟨(p',true),(q,true),present,same,.any edge,by simp [nodeOf,found],other⟩
    · rintro ⟨d,e,present,same,edge,rfl,other⟩
      have inside := member present same
      have side := phases.nodeOf_kind plain present here same
      cases edge with
      | normal _ => cases side
      | any edge => exact .inr ⟨_,inside,_,edge,(phases.found_at plain (c := (_,true)) edge.1).1,other⟩
      | own q => exact .inl ⟨q,inside,(phases.found_at plain (c := (q,false)) present).1⟩

omit plain in
theorem Phases.members_distinct (i : Nat) : (last.condensation.members i).Nodup := by
  rw [Condensation.members]
  cases at_ : last.condensation[i]? with
  | none => exact List.nodup_nil
  | some node =>
    rcases phases.members_comp at_ with first | second
    · exact (List.nodup_flatten.mp phases.first.passing.forest.distinct).1 _ first
    · exact (List.nodup_flatten.mp phases.second.passing.forest.distinct).1 _ second

omit plain in
theorem Phases.members_inhabited (at_ : last.condensation[i]? = some node) : ∃ p, p ∈ node.members := by
  refine List.exists_mem_of_ne_nil _ ?_
  rcases phases.members_comp at_ with first | second
  · exact phases.first.passing.inhabited _ first
  · exact phases.second.passing.inhabited _ second

include named in
theorem Phases.gathered : Gathered graph last.condensation ids' where
  condenses := {
    closed := by
      intro c d here edge
      cases edge with
      | normal imports => exact imports.1
      | any imports => exact imports.1
      | own _ => exact here
    strong := phases.nodeOf_strong plain
    edges := phases.nodeOf_edges plain named }
  members := by
    intro c here p
    obtain ⟨node,at_,kind,_⟩ := (phases.found_at plain here).2
    rw [Condensation.members,at_,Option.elim_some]
    constructor
    · exact fun inside => phases.nodeOf_unique plain ⟨node,at_,kind,inside⟩
    · rintro ⟨present,same⟩
      obtain ⟨node',at',_,inside⟩ := (phases.found_at plain (c := (p,c.2)) present).2
      rw [same] at at'
      cases at_.symm.trans at'
      exact inside
  distinct := phases.members_distinct
  covered := by
    intro i inside
    have at_ := List.getElem?_eq_getElem inside
    obtain ⟨p,here⟩ := phases.members_inhabited at_
    obtain ⟨present,same⟩ := phases.nodeOf_unique plain ⟨_,at_,rfl,here⟩
    exact ⟨_,present,same⟩
  inside := by
    intro c here
    obtain ⟨node,at_,_⟩ := (phases.found_at plain here).2
    exact (List.getElem?_eq_some_iff.mp at_).1
  assigned := fun p present => (phases.found_at plain (c := (p,false)) present).1

end Gathering

section Facts
variable {nodes : Condensation Name}

omit [DecidableEq Name] in
theorem Gathered.build (gathered : Gathered graph nodes ids) : Gathered graph (CondensationBuilder.build nodes) ids where
  condenses := by
    simp only [build_imports]
    exact gathered.condenses
  members := by
    simp only [build_members]
    exact gathered.members
  distinct := by
    simp only [build_members]
    exact gathered.distinct
  covered := by
    rw [build_length]
    exact gathered.covered
  inside := by
    rw [build_length]
    exact gathered.inside
  assigned := gathered.assigned

omit [DecidableEq Name] in
-- There are at most two nodes for each package.
theorem Gathered.length_le (gathered : Gathered graph nodes ids) : nodes.length ≤ 2 * db.packages.length := by
  have numbers : List.range nodes.length ⊆
      db.packages.map (fun p => nodeOf graph ids (p,false)) ++ db.packages.map fun p => nodeOf graph ids (p,true) := by
    intro i inside
    obtain ⟨⟨p,kind⟩,here,rfl⟩ := gathered.covered i (List.mem_range.mp inside)
    cases kind with
    | false => exact List.mem_append_left _ (List.mem_map_of_mem here)
    | true => exact List.mem_append_right _ (List.mem_map_of_mem here)
  have few := (List.nodup_range.subperm numbers).length_le
  rw [List.length_range,List.length_append,List.length_map,List.length_map] at few
  omega

theorem Phases.dag (phases : Phases graph ids app clean last ids') (small : last.condensation.length ≤ 2 ^ 31) : Dag last.condensation := by
  have sound := phases.second.passing.sound
  have below {i j : Nat} (edge : j ∈ last.condensation.imports i) : j < i := by
    obtain ⟨node,at_,inside⟩ := mem_imports_iff.mp edge
    exact (sound i node at_).imports.less j inside
  refine ⟨fun i node at_ => (sound i node at_).id,?_,?_,?_,?_,small⟩
  · intro node listed
    obtain ⟨i,at_⟩ := List.mem_iff_getElem?.mp listed
    exact (sound i node at_).fresh
  · intro node listed
    obtain ⟨i,at_⟩ := List.mem_iff_getElem?.mp listed
    exact (sound i node at_).imports.once
  · intro node listed j inside
    obtain ⟨i,at_⟩ := List.mem_iff_getElem?.mp listed
    exact ((sound i node at_).imports.less j inside).trans (List.getElem?_eq_some_iff.mp at_).1
  · intro i cycle
    have less : ∀ {j : Nat}, TransGen (fun i j => j ∈ last.condensation.imports i) i j → j < i := by
      intro j path
      induction path with
      | single edge => exact below edge
      | tail _ edge ih => exact (below edge).trans ih
    exact Nat.lt_irrefl i (less cycle)

omit [DecidableEq Name] in
theorem Gathered.code_of_member (gathered : Gathered graph nodes ids) (inside : p ∈ nodes.members i) :
    ∃ kind, p ∈ db.packages ∧ nodeOf graph ids (p,kind) = i := by
  have short : i < nodes.length := by
    by_contra beyond
    rw [Condensation.members,List.getElem?_eq_none (Nat.le_of_not_lt beyond)] at inside
    cases inside
  obtain ⟨⟨q,kind⟩,here,rfl⟩ := gathered.covered i short
  exact ⟨kind,(gathered.members (q,kind) here p).mp inside⟩

end Facts
end ComputePackageSCCs
end Packages
