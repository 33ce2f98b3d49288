import ScipRuby.Packages.Passes

namespace Packages
namespace ComputePackageSCCs
open Relation LowLink
variable {Name : Type} [DecidableEq Name] {db : PackageDB Name} {graph : PackageGraph Name db}
variable {base s s' app clean last : ComputePackageSCCs Name} {ids ids' : SccIds Name} {p q : Name} {fuel : Nat}

section Phases

omit [DecidableEq Name] in
theorem start_begins (ids : SccIds Name) : Begins graph .Normal (start ids) where
  stack := rfl
  off := fun _ => rfl
  bounded := fun _ => Nat.zero_lt_one
  sound := by
    intro i node impossible
    cases impossible
  kept := by
    intro x _ visited
    exact absurd rfl visited
  apps := by
    intro impossible
    exact absurd rfl impossible

omit [DecidableEq Name] in
theorem start_live (present : p ∈ db.packages) : Live db (start ids) p := ⟨present,rfl⟩

-- What the clean-up keeps of the first pass.
structure Cleaned (graph : PackageGraph Name db) (app clean : ComputePackageSCCs Name) : Prop where
  condensation : clean.condensation = app.condensation
  stack : clean.stack = app.stack
  nextIndex : clean.nextIndex = app.nextIndex
  nodeMap : ∀ q, clean.nodeMap q = if q ∈ db.packages ∧ db.usesTestPackages q = true then app.nodeMap q else unvisited
  info : clean.ids.sccID = app.ids.sccID
  apps : ∀ q, graph.kind.getSCCId clean.ids q = graph.kind.getSCCId app.ids q
  tests : ∀ q ∈ db.packages, db.usesTestPackages q = true → app.index q ≠ 0 →
    graph.kind.getTestSCCId clean.ids q = graph.kind.getSCCId app.ids q

omit [DecidableEq Name] in
theorem Passed.app_member (passed : Passed graph .Normal (start ids) app) (present : p ∈ db.packages) (visited : app.index p ≠ 0) :
    ∃ id < app.condensation.length, graph.kind.getSCCId app.ids p = some id ∧ MemberOf app.condensation id p := by
  obtain ⟨i,c,_,_,found,member⟩ := passed.member (start_live present) visited
  have whole : (start ids).condensation.length + i = i := Nat.zero_add i
  rw [whole] at found member
  obtain ⟨node,at_,here⟩ := member
  exact ⟨i,(List.getElem?_eq_some_iff.mp at_).1,found,node,at_,here⟩

theorem Passed.cleanOut (passed : Passed graph .Normal (start ids) app) :
    ∃ clean, cleanOut graph app = some clean ∧ Cleaned graph app clean := by
  obtain ⟨ids',run,info,apps,tests⟩ := @reuseAll _ _ _ graph app.ids
    (db.packages.filter fun p => db.usesTestPackages p && app.index p != 0) (by
      intro p member
      obtain ⟨present,both⟩ := List.mem_filter.mp member
      rw [Bool.and_eq_true,bne_iff_ne] at both
      obtain ⟨id,_,found,_⟩ := passed.app_member present both.2
      exact ⟨id,found⟩)
  let clean : ComputePackageSCCs Name :=
    {app with nodeMap := fun p => if p ∈ db.packages ∧ db.usesTestPackages p then app.nodeMap p else unvisited,ids := ids'}
  refine ⟨clean,by rw [ComputePackageSCCs.cleanOut,run]; rfl,rfl,rfl,rfl,fun q => rfl,info,apps,?_⟩
  intro q present uses visited
  have member : q ∈ db.packages.filter fun p => db.usesTestPackages p && app.index p != 0 := by
    rw [List.mem_filter,Bool.and_eq_true,bne_iff_ne]
    exact ⟨present,uses,visited⟩
  exact (tests q).trans (if_pos member)

-- The packages that keep their entry.
theorem Cleaned.index_ne_zero (cleaned : Cleaned graph app clean) :
    clean.index p ≠ 0 ↔ p ∈ db.packages ∧ db.usesTestPackages p = true ∧ app.index p ≠ 0 := by
  rw [index,cleaned.nodeMap]
  split
  · rename_i kept
    exact ⟨fun visited => ⟨kept.1,kept.2,visited⟩,fun all => all.2.2⟩
  · rename_i erased
    exact ⟨fun impossible => absurd rfl impossible,fun all => absurd ⟨all.1,all.2.1⟩ erased⟩

theorem Cleaned.begins (cleaned : Cleaned graph app clean) (passed : Passed graph .Normal (start ids) app) :
    Begins graph .TestHelper clean where
  stack := cleaned.stack.trans passed.stack
  off := by
    intro p
    rw [cleaned.nodeMap]
    split
    · refine Bool.eq_false_iff.mpr fun waiting => ?_
      have here := (passed.passing.onStack p).mp waiting
      rw [passed.stack] at here
      cases here
    · rfl
  bounded := by
    intro p
    rw [index,cleaned.nodeMap,cleaned.nextIndex]
    have := passed.passing.bounded p
    split
    · exact this
    · exact Nat.lt_of_le_of_lt (Nat.zero_le _) this
  sound := by
    rw [cleaned.condensation]
    exact passed.passing.sound
  kept := by
    intro p present visited
    obtain ⟨_,uses,visited⟩ := cleaned.index_ne_zero.mp visited
    obtain ⟨id,small,found,_⟩ := passed.app_member present visited
    exact ⟨id,cleaned.condensation ▸ small,(cleaned.tests p present uses visited).trans found⟩
  apps := by
    intro _ p present _ ordinary
    have visited := passed.covered p present ordinary
    obtain ⟨id,small,found,_⟩ := passed.app_member present visited
    exact ⟨id,cleaned.condensation ▸ small,(cleaned.apps p).trans found⟩

omit [DecidableEq Name] in
theorem MemberOf.mono {nodes nodes' : Condensation Name} {id : Nat} (member : MemberOf nodes id p) (longer : nodes <+: nodes') :
    MemberOf nodes' id p := by
  obtain ⟨node,at_,here⟩ := member
  obtain ⟨more,rfl⟩ := longer
  exact ⟨node,by rw [List.getElem?_append_left (List.getElem?_eq_some_iff.mp at_).1]; exact at_,here⟩

-- Every package has a test id after the second pass: from that pass, or from the first one by way of the clean-up.
theorem Passed.test_member (second : Passed graph .TestHelper clean last) (cleaned : Cleaned graph app clean)
    (first : Passed graph .Normal (start ids) app) (present : p ∈ db.packages) :
    ∃ id, graph.kind.getTestSCCId last.ids p = some id ∧ MemberOf last.condensation id p := by
  by_cases kept : clean.index p = 0
  · have visited : last.index p ≠ 0 := by
      refine second.covered p present ?_
      -- A package that has been split was visited in the first pass, and would be kept.
      by_contra skipped
      have both : db.usesTestPackages p = true ∧ db.isTestPackage p = false := by
        simpa [skips] using skipped
      exact absurd kept (cleaned.index_ne_zero.mpr ⟨present,both.1,first.covered p present both.2⟩)
    obtain ⟨i,c,_,_,found,member⟩ := second.member ⟨present,kept⟩ visited
    exact ⟨_,found,member⟩
  · obtain ⟨_,uses,visited⟩ := cleaned.index_ne_zero.mp kept
    obtain ⟨id,_,found,member⟩ := first.app_member present visited
    have outside : p ∉ (comps clean last).flatten := fun finished => kept (second.passing.live p (.inr finished)).2
    refine ⟨id,?_,member.mono (cleaned.condensation ▸ second.passing.begun)⟩
    exact (second.passing.kept.outside p outside).trans ((cleaned.tests p present uses visited).trans found)

-- The phases of a run.
structure Phases (graph : PackageGraph Name db) (ids : SccIds Name) (app clean last : ComputePackageSCCs Name)
    (ids' : SccIds Name) : Prop where
  first : Passed graph .Normal (start ids) app
  cleaned : Cleaned graph app clean
  second : Passed graph .TestHelper clean last
  tests : ∀ q, graph.kind.getTestSCCId ids' q = graph.kind.getTestSCCId last.ids q
  apps : ∀ q, graph.kind.getSCCId ids' q = if q ∈ db.packages ∧ db.usesTestPackages q = true ∧ last.ids.sccID q = none
    then graph.kind.getTestSCCId last.ids q else graph.kind.getSCCId last.ids q

theorem run_phases (graph : PackageGraph Name db) (ids : SccIds Name) (enough : db.packages.length < fuel) :
    ∃ app clean last ids', run graph fuel ids = some (CondensationBuilder.build last.condensation,ids') ∧
      Phases graph ids app clean last ids' := by
  obtain ⟨app,run,first⟩ := tarjan_passes (start_begins ids) enough
  obtain ⟨clean,run',cleaned⟩ := first.cleanOut
  obtain ⟨last,run'',second⟩ := tarjan_passes (cleaned.begins first) enough
  obtain ⟨ids',matching,tests,apps⟩ := @matchAll _ _ _ graph last.ids db.packages (by
    intro p present _
    obtain ⟨id,found,_⟩ := second.test_member cleaned first present
    exact ⟨id,found⟩)
  refine ⟨app,clean,last,ids',?_,first,cleaned,second,tests,apps⟩
  simp only [ComputePackageSCCs.run,run,run',run'',matching,Option.bind_eq_bind,Option.bind_some]

end Phases
end ComputePackageSCCs
end Packages

namespace Packages
namespace ComputePackageSCCs
open Relation LowLink CondensationBuilder
variable {Name : Type} [DecidableEq Name] {db : PackageDB Name} {graph : PackageGraph Name db}
variable {app clean last base s : ComputePackageSCCs Name} {ids ids' : SccIds Name} {p q : Name} {fuel : Nat}

-- An import of an existing package, of type Normal or of any type.
def NormalImport (graph : PackageGraph Name db) (p q : Name) : Prop :=
  q ∈ db.packages ∧ ∃ i ∈ graph.getImports p, i.type = .Normal ∧ i.mangledName = q

def AnyImport (graph : PackageGraph Name db) (p q : Name) : Prop :=
  q ∈ db.packages ∧ ∃ i ∈ graph.getImports p, i.mangledName = q

-- Each reaches the other.
def Mutual (E : Name → Name → Prop) (p q : Name) : Prop := ReflTransGen E p q ∧ ReflTransGen E q p

-- p is a member of the node numbered i, which is a node of application or test code.
def MemberOfKind (nodes : Condensation Name) (isTest : Bool) (p : Name) (i : Nat) : Prop :=
  ∃ node, nodes[i]? = some node ∧ node.isTest = isTest ∧ p ∈ node.members

structure Condensed (graph : PackageGraph Name db) (nodes : Condensation Name) (ids : SccIds Name) : Prop where
  assigned : ∀ p ∈ db.packages, (∃ i, graph.kind.getSCCId ids p = some i) ∧ ∃ i, graph.kind.getTestSCCId ids p = some i
  application : ∀ p ∈ db.packages, ∀ q ∈ db.packages,
    graph.kind.getSCCId ids p = graph.kind.getSCCId ids q ↔ Mutual (NormalImport graph) p q
  test : ∀ p ∈ db.packages, ∀ q ∈ db.packages,
    graph.kind.getTestSCCId ids p = graph.kind.getTestSCCId ids q ↔ Mutual (AnyImport graph) p q
  oneApplication : ∀ p ∈ db.packages, ∃! i, MemberOfKind nodes false p i
  oneTest : ∀ p ∈ db.packages, ∃! i, MemberOfKind nodes true p i
  smaller : ∀ (i : Nat) (node : Node Name), nodes[i]? = some node → node.id = i ∧ ∀ imp ∈ node.imports, imp < i

section Build

omit [DecidableEq Name] in
-- The back edges are all that is new.
theorem build_getElem?_iff {P : Node Name → Prop} {nodes : Condensation Name} {i : Nat}
    (frame : ∀ (node : Node Name) (edges : List Nat), P {node with backEdges := edges} ↔ P node) :
    (∃ node, (build nodes)[i]? = some node ∧ P node) ↔ ∃ node, nodes[i]? = some node ∧ P node := by
  rw [build_getElem?]
  constructor
  · rintro ⟨node,at_,holds⟩
    obtain ⟨before,found,rfl⟩ := Option.map_eq_some_iff.mp at_
    exact ⟨before,found,(frame before _).mp holds⟩
  · rintro ⟨node,at_,holds⟩
    exact ⟨_,by rw [at_]; rfl,(frame node _).mpr holds⟩

omit [DecidableEq Name] in
theorem memberOfKind_build {nodes : Condensation Name} {isTest : Bool} {i : Nat} :
    MemberOfKind (build nodes) isTest p i ↔ MemberOfKind nodes isTest p i :=
  build_getElem?_iff fun _ _ => Iff.rfl

omit [DecidableEq Name] in
theorem memberOf_build {nodes : Condensation Name} {i : Nat} : MemberOf (build nodes) i p ↔ MemberOf nodes i p :=
  build_getElem?_iff fun _ _ => Iff.rfl

end Build

section Pass
variable {edge : ImportType} {E : Name → Name → Prop}

omit [DecidableEq Name] in
theorem memberOf_comps {i : Nat} : MemberOf s.condensation (base.condensation.length + i) p ↔
    ∃ c, (comps base s)[i]? = some c ∧ p ∈ c := by
  rw [comps,List.getElem?_map,List.getElem?_drop]
  constructor
  · rintro ⟨node,at_,here⟩
    exact ⟨_,by rw [at_]; rfl,here⟩
  · rintro ⟨c,at_,here⟩
    obtain ⟨node,found,rfl⟩ := Option.map_eq_some_iff.mp at_
    exact ⟨node,found,here⟩

variable (passed : Passed graph edge base s) (follows : ∀ p q, Follows graph edge base p q ↔ E p q)
  (live : ∀ p ∈ db.packages, Live db base p) (covered : ∀ p ∈ db.packages, skips db edge p = false)
include passed live covered

omit [DecidableEq Name] in
include follows in
-- In a pass over all packages, the ids tell the components apart.
theorem Passed.getId_eq_iff (present : p ∈ db.packages) (present' : q ∈ db.packages) :
    getId graph edge s.ids p = getId graph edge s.ids q ↔ Mutual E p q := by
  obtain ⟨i,c,at_,here,found,_⟩ := passed.member (live p present) (passed.covered p present (covered p present))
  obtain ⟨j,d,at',there,found',_⟩ := passed.member (live q present') (passed.covered q present' (covered q present'))
  have same : Follows graph edge base = E := by
    funext p q
    exact propext (follows p q)
  have components := passed.passing.forest.same_component_iff at_ here at' there
  rw [same] at components
  rw [found,found',Option.some.injEq,Nat.add_left_cancel_iff]
  exact components

omit [DecidableEq Name] in
-- And every package is in one of the nodes it makes.
theorem Passed.existsUnique_member (present : p ∈ db.packages) :
    ∃! i, base.condensation.length ≤ i ∧ MemberOf s.condensation i p := by
  obtain ⟨i,c,at_,here,_,member⟩ := passed.member (live p present) (passed.covered p present (covered p present))
  refine ⟨base.condensation.length + i,⟨Nat.le_add_right _ _,member⟩,?_⟩
  rintro k ⟨late,member'⟩
  obtain ⟨j,rfl⟩ := Nat.exists_eq_add_of_le late
  obtain ⟨d,at',there⟩ := memberOf_comps.mp member'
  rw [passed.passing.forest.position_unique at_ here at' there]

end Pass

section Plain
variable (phases : Phases graph ids app clean last ids') (plain : ∀ p ∈ db.packages, db.usesTestPackages p = false)

omit [DecidableEq Name] in
theorem considers_Normal {i : Import Name} : considers .Normal i = true ↔ i.type = .Normal := by simp [considers]

omit [DecidableEq Name] in
theorem considers_TestHelper {i : Import Name} : considers .TestHelper i = true := by simp [considers]

omit [DecidableEq Name] in
theorem follows_Normal : Follows graph .Normal (start ids) p q ↔ NormalImport graph p q := by
  simp only [Follows,Live,NormalImport,considers_Normal]
  exact ⟨fun both => ⟨both.2.1,both.1⟩,fun both => ⟨both.2,both.1,rfl⟩⟩

include plain in
omit [DecidableEq Name] in
theorem plain_isTestPackage (present : p ∈ db.packages) : db.isTestPackage p = false := by
  refine Bool.eq_false_iff.mpr fun test => ?_
  have uses := db.uses p test
  rw [plain p present] at uses
  cases uses

include phases plain

-- Nothing is kept from the first pass.
theorem Phases.clean_live (present : p ∈ db.packages) : Live db clean p := by
  refine ⟨present,?_⟩
  by_contra kept
  have uses := (phases.cleaned.index_ne_zero.mp kept).2.1
  rw [plain p present] at uses
  cases uses

theorem Phases.follows_TestHelper : Follows graph .TestHelper clean p q ↔ AnyImport graph p q := by
  simp only [Follows,AnyImport,considers_TestHelper,true_and]
  exact ⟨fun both => ⟨both.2.1,both.1⟩,fun both => ⟨both.2,phases.clean_live plain both.1⟩⟩

theorem Phases.getSCCId_eq (present : p ∈ db.packages) : graph.kind.getSCCId ids' p = getId graph .Normal app.ids p := by
  have unmatched : ¬ (p ∈ db.packages ∧ db.usesTestPackages p = true ∧ last.ids.sccID p = none) := by
    intro all
    rw [plain p present] at all
    cases all.2.1
  rw [phases.apps,if_neg unmatched,phases.second.passing.kept.application (by decide),phases.cleaned.apps]
  rfl

omit plain in
theorem Phases.getTestSCCId_eq (p : Name) : graph.kind.getTestSCCId ids' p = getId graph .TestHelper last.ids p :=
  phases.tests p

omit plain in
theorem Phases.application_at {i : Nat} {node : Node Name} (at_ : last.condensation[i]? = some node) (kind : node.isTest = false) :
    app.condensation[i]? = some node := by
  have begun : app.condensation <+: last.condensation := phases.cleaned.condensation ▸ phases.second.passing.begun
  rcases Nat.lt_or_ge i app.condensation.length with early | late
  · obtain ⟨more,equal⟩ := begun
    rwa [← equal,List.getElem?_append_left early] at at_
  · rw [phases.second.passing.kind i node (by rw [phases.cleaned.condensation]; exact late) at_] at kind
    cases kind

omit plain in
theorem Phases.test_at {i : Nat} {node : Node Name} (at_ : last.condensation[i]? = some node) (kind : node.isTest = true) :
    clean.condensation.length ≤ i := by
  have begun : app.condensation <+: last.condensation := phases.cleaned.condensation ▸ phases.second.passing.begun
  rw [phases.cleaned.condensation]
  by_contra early
  obtain ⟨more,equal⟩ := begun
  rw [← equal,List.getElem?_append_left (Nat.lt_of_not_le early)] at at_
  rw [phases.first.passing.kind i node (Nat.zero_le i) at_] at kind
  cases kind

omit plain in
-- The nodes of application code are those of the first pass.
theorem Phases.memberOfKind_false {i : Nat} : MemberOfKind last.condensation false p i ↔ MemberOf app.condensation i p := by
  have begun : app.condensation <+: last.condensation := phases.cleaned.condensation ▸ phases.second.passing.begun
  constructor
  · rintro ⟨node,at_,kind,here⟩
    exact ⟨node,phases.application_at at_ kind,here⟩
  · rintro ⟨node,at_,here⟩
    have kind := phases.first.passing.kind i node (Nat.zero_le i) at_
    obtain ⟨node',at',here'⟩ := (show MemberOf app.condensation i p from ⟨node,at_,here⟩).mono begun
    obtain ⟨more,equal⟩ := begun
    rw [← equal,List.getElem?_append_left (List.getElem?_eq_some_iff.mp at_).1,at_,Option.some.injEq] at at'
    subst at'
    refine ⟨node,?_,kind,here⟩
    rw [← equal,List.getElem?_append_left (List.getElem?_eq_some_iff.mp at_).1]
    exact at_

omit plain in
theorem Phases.memberOfKind_true {i : Nat} : MemberOfKind last.condensation true p i ↔
    clean.condensation.length ≤ i ∧ MemberOf last.condensation i p := by
  constructor
  · rintro ⟨node,at_,kind,here⟩
    exact ⟨phases.test_at at_ kind,node,at_,here⟩
  · rintro ⟨late,node,at_,here⟩
    exact ⟨node,at_,phases.second.passing.kind i node late at_,here⟩

-- The ids tell the components of both graphs apart.
theorem Phases.condensed : Condensed graph (build last.condensation) ids' := by
  have live : ∀ p ∈ db.packages, Live db (start ids) p := fun p present => start_live present
  have live' : ∀ p ∈ db.packages, Live db clean p := fun p present => phases.clean_live plain present
  have covered : ∀ p ∈ db.packages, skips db .Normal p = false := fun p present => plain_isTestPackage plain present
  have covered' : ∀ p ∈ db.packages, skips db .TestHelper p = false := by
    intro p present
    simp [skips,plain p present]
  constructor
  · intro p present
    rw [phases.getSCCId_eq plain present,phases.getTestSCCId_eq]
    obtain ⟨i,_,_,_,found,_⟩ := phases.first.member (live p present) (phases.first.covered p present (covered p present))
    obtain ⟨j,_,_,_,found',_⟩ := phases.second.member (live' p present) (phases.second.covered p present (covered' p present))
    exact ⟨⟨_,found⟩,_,found'⟩
  · intro p present q present'
    rw [phases.getSCCId_eq plain present,phases.getSCCId_eq plain present']
    exact phases.first.getId_eq_iff (fun _ _ => follows_Normal) live covered present present'
  · intro p present q present'
    rw [phases.getTestSCCId_eq,phases.getTestSCCId_eq]
    exact phases.second.getId_eq_iff (fun _ _ => phases.follows_TestHelper plain) live' covered' present present'
  · intro p present
    simp only [memberOfKind_build,phases.memberOfKind_false]
    have one := phases.first.existsUnique_member live covered present
    simpa only [start,List.length_nil,Nat.zero_le,true_and] using one
  · intro p present
    simp only [memberOfKind_build,phases.memberOfKind_true]
    exact phases.second.existsUnique_member live' covered' present
  · intro i node at_
    obtain ⟨before,found,rfl⟩ := Option.map_eq_some_iff.mp (build_getElem?.symm.trans at_)
    have sound := phases.second.passing.sound i before found
    exact ⟨sound.id,sound.imports.less⟩

end Plain

theorem run_condensed (graph : PackageGraph Name db) (ids : SccIds Name)
    (plain : ∀ p ∈ db.packages, db.usesTestPackages p = false) (enough : db.packages.length < fuel) :
    ∃ nodes ids', run graph fuel ids = some (nodes,ids') ∧ Condensed graph nodes ids' := by
  obtain ⟨app,clean,last,ids',run,phases⟩ := run_phases graph ids enough
  exact ⟨_,ids',run,phases.condensed plain⟩

-- Package 1 imports 2 and something that does not exist, package 2 imports 3 and, in its tests, 1.
def plainDB : PackageDB Nat where
  packages := [1,2,3]
  usesTestPackages := fun _ => false
  isTestPackage := fun _ => false
  isPreludePackage := fun _ => false
  uses := fun _ impossible => impossible

def plainGraph : PackageGraph Nat plainDB where
  kind := .PackageDBPackageGraph
  getImports := fun p =>
    match p with
    | 1 => [⟨2,.Normal⟩,⟨9,.Normal⟩]
    | 2 => [⟨3,.Normal⟩,⟨1,.TestUnit⟩]
    | _ => []
  nameExists := fun p => p ≠ 9
  resolved := by decide

theorem run_condensed_sample : (∀ p ∈ plainDB.packages, plainDB.usesTestPackages p = false) ∧ plainDB.packages.length < 4 ∧
    ∃ nodes ids', run plainGraph 4 ⟨fun _ => none,fun _ => none,fun _ => 0,fun _ => 0⟩ = some (nodes,ids') ∧
      Condensed plainGraph nodes ids' :=
  ⟨fun _ _ => rfl,by decide,run_condensed plainGraph _ (fun _ _ => rfl) (by decide)⟩

end ComputePackageSCCs
end Packages
