import Mathlib.Data.List.Perm.Subperm
import ScipRuby.Packages.SccCorrectness

namespace Packages
namespace ComputePackageSCCs
open Relation LowLink CondensationBuilder
variable {Name : Type} [DecidableEq Name] {db : PackageDB Name} {graph : PackageGraph Name db} {edge : ImportType}
variable {app clean last base s : ComputePackageSCCs Name} {ids ids' : SccIds Name} {p q : Name} {fuel : Nat}

-- The ids that a graph gives for a package are numbers of nodes that it is a member of.
def Belongs (graph : PackageGraph Name db) (nodes : Condensation Name) (ids : SccIds Name) (p : Name) : Prop :=
  (∃ i, graph.kind.getSCCId ids p = some i ∧ MemberOf nodes i p) ∧
  ∃ i, graph.kind.getTestSCCId ids p = some i ∧ MemberOf nodes i p

-- Whatever ids the PackageInfos hold, the ids of the graph are right after a run. A ReferencesPackageGraph is new.
def IdsBelong (graph : PackageGraph Name db) : Prop :=
  ∀ sccID testSccID fuel, db.packages.length < fuel → ∃ nodes ids',
    run graph fuel ⟨sccID,testSccID,fun _ => 0,fun _ => 0⟩ = some (nodes,ids') ∧ ∀ p ∈ db.packages, Belongs graph nodes ids' p

-- Application code leads to p.
def Reached (graph : PackageGraph Name db) (p : Name) : Prop :=
  ∃ root ∈ db.packages, db.isTestPackage root = false ∧ ReflTransGen (NormalImport graph) root p

omit [DecidableEq Name] in
theorem follows_Normal_eq : Follows graph .Normal (start ids) = NormalImport graph := by
  funext p q
  exact propext follows_Normal

section Phases
variable (phases : Phases graph ids app clean last ids')
include phases

-- The first pass visits what application code leads to.
theorem Phases.visited_iff : app.index p ≠ 0 ↔ Reached graph p := by
  constructor
  · intro visited
    obtain ⟨root,listed,skipped,path⟩ := phases.first.rooted p visited rfl
    rw [follows_Normal_eq] at path
    exact ⟨root,listed,skipped,path⟩
  · rintro ⟨root,listed,ordinary,path⟩
    rw [← @follows_Normal_eq _ _ graph ids] at path
    exact phases.first.reached (start_live listed) (phases.first.covered root listed ordinary) path

theorem Phases.belongs_test (present : p ∈ db.packages) :
    ∃ i, graph.kind.getTestSCCId ids' p = some i ∧ MemberOf last.condensation i p := by
  rw [phases.tests]
  exact phases.second.test_member phases.cleaned phases.first present

theorem Phases.begun : app.condensation <+: last.condensation := phases.cleaned.condensation ▸ phases.second.passing.begun

-- Only the first pass and the last loop write an application id.
theorem Phases.application_eq (p : Name) : graph.kind.getSCCId last.ids p = graph.kind.getSCCId app.ids p :=
  (phases.second.passing.kept.application (by decide) p).trans (phases.cleaned.apps p)

theorem Phases.info_eq (unvisited : app.index p = 0) : last.ids.sccID p = ids.sccID p := by
  have outside : p ∉ (comps (start ids) app).flatten := fun finished => phases.first.passing.visited p (.inr finished) unvisited
  rw [phases.second.passing.kept.info p (.inr (.inl (by decide))),phases.cleaned.info]
  exact phases.first.passing.kept.info p (.inl outside)

-- The application id of a package that the first pass has visited, or whose PackageInfo has no id.
theorem Phases.belongs_application (present : p ∈ db.packages)
    (known : app.index p ≠ 0 ∨ db.usesTestPackages p = true ∧ last.ids.sccID p = none) :
    ∃ i, graph.kind.getSCCId ids' p = some i ∧ MemberOf last.condensation i p := by
  rw [phases.apps]
  split
  · obtain ⟨i,found,member⟩ := phases.belongs_test present
    rw [phases.tests] at found
    exact ⟨i,found,member⟩
  · rename_i unmatched
    rcases known with visited | open_
    · obtain ⟨i,_,found,member⟩ := phases.first.app_member present visited
      rw [phases.application_eq]
      exact ⟨i,found,member.mono phases.begun⟩
    · exact absurd ⟨present,open_⟩ unmatched

-- A stale id stays if neither the first pass nor the last loop writes another.
theorem Phases.stale (unvisited : app.index p = 0) (stale : ids.sccID p ≠ none) :
    graph.kind.getSCCId ids' p = graph.kind.getSCCId ids p := by
  have unmatched : ¬ (p ∈ db.packages ∧ db.usesTestPackages p = true ∧ last.ids.sccID p = none) := by
    rintro ⟨_,_,none⟩
    rw [phases.info_eq unvisited] at none
    exact stale none
  have outside : p ∉ (comps (start ids) app).flatten := fun finished => phases.first.passing.visited p (.inr finished) unvisited
  rw [phases.apps,if_neg unmatched,phases.application_eq]
  exact phases.first.passing.kept.outside p outside

end Phases

-- Enough for one state of the PackageInfos: a package of a test directory is led to, or its PackageInfo has no id.
theorem run_belongs (graph : PackageGraph Name db) (ids : SccIds Name)
    (known : ∀ p ∈ db.packages, db.isTestPackage p = true → Reached graph p ∨ ids.sccID p = none)
    (enough : db.packages.length < fuel) :
    ∃ nodes ids', run graph fuel ids = some (nodes,ids') ∧ ∀ p ∈ db.packages, Belongs graph nodes ids' p := by
  obtain ⟨app,clean,last,ids',run,phases⟩ := run_phases graph ids enough
  refine ⟨_,ids',run,fun p present => ?_⟩
  simp only [Belongs,memberOf_build]
  refine ⟨phases.belongs_application present ?_,phases.belongs_test present⟩
  by_cases visited : app.index p = 0
  · have test : db.isTestPackage p = true := by
      by_contra ordinary
      exact phases.first.covered p present (Bool.eq_false_iff.mpr ordinary) visited
    rcases known p present test with reached | none
    · exact absurd visited (phases.visited_iff.mpr reached)
    · exact .inr ⟨db.uses p test,(phases.info_eq visited).trans none⟩
  · exact .inl visited

section Nodes

omit [DecidableEq Name] in
-- A pass makes no more nodes than there are packages.
theorem Passed.comps_le (passed : Passed graph edge base s) : (comps base s).length ≤ db.packages.length := by
  have flat : (comps base s).length ≤ (comps base s).flatten.length := by
    have nonempty := passed.passing.inhabited
    generalize comps base s = l at nonempty
    induction l with
    | nil => exact Nat.le_refl 0
    | cons c l ih =>
      have positive := List.length_pos_of_ne_nil (nonempty c List.mem_cons_self)
      have rest := ih fun d member => nonempty d (List.mem_cons_of_mem _ member)
      rw [List.length_cons,List.flatten_cons,List.length_append]
      omega
  have within := List.Nodup.subperm passed.passing.forest.distinct (fun p finished => (passed.passing.live p (.inr finished)).1)
  exact Nat.le_trans flat within.length_le

theorem Phases.nodes_le (phases : Phases graph ids app clean last ids') :
    last.condensation.length ≤ db.packages.length + db.packages.length := by
  have first := comps_length phases.first.passing.begun
  have second := comps_length phases.second.passing.begun
  have few := phases.first.comps_le
  have few' := phases.second.comps_le
  have start : (start ids).condensation.length = 0 := rfl
  rw [phases.cleaned.condensation] at second
  omega

end Nodes

section TestOnly
variable (phases : Phases graph ids app clean last ids') (tests : ∀ p ∈ db.packages, db.isTestPackage p = true)
include phases tests

-- Without application code the first pass does nothing.
theorem Phases.test_only_unvisited (p : Name) : app.index p = 0 := by
  by_contra visited
  obtain ⟨root,listed,ordinary,_⟩ := phases.visited_iff.mp visited
  rw [tests root listed] at ordinary
  cases ordinary

theorem Phases.test_only_empty : clean.condensation.length = 0 := by
  have whole := comps_length phases.first.passing.begun
  have none : comps (start ids) app = [] := by
    refine List.eq_nil_iff_forall_not_mem.mpr fun c listed => ?_
    obtain ⟨p,here⟩ := List.exists_mem_of_ne_nil c (phases.first.passing.inhabited c listed)
    exact phases.first.passing.visited p (.inr (List.mem_flatten.mpr ⟨c,listed,here⟩)) (phases.test_only_unvisited tests p)
  rw [none,List.length_nil,Nat.add_zero] at whole
  rw [phases.cleaned.condensation,← whole]
  rfl

theorem Phases.test_only_live (present : p ∈ db.packages) : Live db clean p := by
  refine ⟨present,?_⟩
  by_contra kept
  exact (phases.cleaned.index_ne_zero.mp kept).2.2 (phases.test_only_unvisited tests p)

theorem Phases.test_only_follows : Follows graph .TestHelper clean = AnyImport graph := by
  funext p q
  refine propext ?_
  simp only [Follows,AnyImport,considers_TestHelper,true_and]
  exact ⟨fun both => ⟨both.2.1,both.1⟩,fun both => ⟨both.2,phases.test_only_live tests both.1⟩⟩

-- If all packages lead to each other, they are in the first node.
theorem Phases.test_only_first (connected : ∀ p ∈ db.packages, ∀ q ∈ db.packages, ReflTransGen (AnyImport graph) p q)
    (present : p ∈ db.packages) : graph.kind.getTestSCCId last.ids p = some 0 ∧ MemberOf last.condensation 0 p := by
  have visited : last.index p ≠ 0 := by
    refine phases.second.covered p present ?_
    simp [skips,tests p present]
  obtain ⟨i,c,at_,here,found,member⟩ := phases.second.member (phases.test_only_live tests present) visited
  have short := (List.getElem?_eq_some_iff.mp at_).1
  have first := List.getElem?_eq_getElem (Nat.zero_lt_of_lt short)
  obtain ⟨q,there⟩ := List.exists_mem_of_ne_nil _ (phases.second.passing.inhabited _ (List.mem_of_getElem? first))
  have listed := (phases.second.passing.live q (.inr (mem_comps_of_getElem? first there))).1
  have components := phases.second.passing.forest.same_component_iff at_ here first there
  rw [phases.test_only_follows tests] at components
  have zero : i = 0 := components.mpr ⟨connected p present q listed,connected q listed p present⟩
  rw [zero,phases.test_only_empty tests] at found member
  exact ⟨found,member⟩

end TestOnly

theorem run_ids_belong_iff (graph : PackageGraph Name db) : IdsBelong graph ↔
    (∀ p ∈ db.packages, db.isTestPackage p = true → Reached graph p) ∨
    graph.kind = .ReferencesPackageGraph ∧
      ∀ p ∈ db.packages, db.isTestPackage p = true ∧ ∀ q ∈ db.packages, ReflTransGen (AnyImport graph) p q := by
  constructor
  · intro belong
    by_contra! failing
    obtain ⟨⟨p,present,test,unreached⟩,apart⟩ := failing
    cases kind : graph.kind with
    | PackageDBPackageGraph =>
      -- A stale id beyond the last node.
      let stale := db.packages.length + db.packages.length
      obtain ⟨app,clean,last,ids',run,phases⟩ := run_phases graph ⟨fun _ => some stale,fun _ => none,fun _ => 0,fun _ => 0⟩
        (Nat.lt_succ_self db.packages.length)
      obtain ⟨_,_,run',all⟩ := belong (fun _ => some stale) (fun _ => none) _ (Nat.lt_succ_self db.packages.length)
      cases Option.some.inj (run.symm.trans run')
      obtain ⟨⟨i,found,member⟩,_⟩ := all p present
      have unvisited : app.index p = 0 := by
        by_contra visited
        exact unreached (phases.visited_iff.mp visited)
      rw [phases.stale unvisited (Option.some_ne_none _),kind] at found
      cases Option.some.inj found
      obtain ⟨node,at_,_⟩ := memberOf_build.mp member
      have inside := (List.getElem?_eq_some_iff.mp at_).1
      have few := phases.nodes_le
      omega
    | ReferencesPackageGraph =>
      obtain ⟨app,clean,last,ids',run,phases⟩ := run_phases graph ⟨fun _ => some 0,fun _ => none,fun _ => 0,fun _ => 0⟩
        (Nat.lt_succ_self db.packages.length)
      obtain ⟨_,_,run',all⟩ := belong (fun _ => some 0) (fun _ => none) _ (Nat.lt_succ_self db.packages.length)
      cases Option.some.inj (run.symm.trans run')
      -- What the first pass leaves out is taken to be in the first node.
      have first : ∀ q ∈ db.packages, app.index q = 0 → MemberOf last.condensation 0 q := by
        intro q listed unvisited
        obtain ⟨⟨i,found,member⟩,_⟩ := all q listed
        rw [phases.stale unvisited (Option.some_ne_none _),kind] at found
        cases Option.some.inj found
        exact memberOf_build.mp member
      have unvisited : app.index p = 0 := by
        by_contra visited
        exact unreached (phases.visited_iff.mp visited)
      have tests : ∀ q ∈ db.packages, db.isTestPackage q = true := by
        intro q listed
        by_contra ordinary
        have visited := phases.first.covered q listed (Bool.eq_false_iff.mpr ordinary)
        obtain ⟨i,inside,_,_⟩ := phases.first.app_member listed visited
        obtain ⟨node,at_,here⟩ := first p present unvisited
        obtain ⟨more,equal⟩ := phases.begun
        rw [← equal,List.getElem?_append_left (Nat.zero_lt_of_lt inside)] at at_
        obtain ⟨c,at',there⟩ := (@memberOf_comps _ (start _) app p 0).mp ⟨node,at_,here⟩
        exact phases.first.passing.visited p (.inr (mem_comps_of_getElem? at' there)) unvisited
      obtain ⟨q,listed,lonely⟩ := apart kind
      obtain ⟨r,listed',unconnected⟩ := lonely (tests q listed)
      -- But one node has only packages that lead to each other.
      have empty := phases.test_only_empty tests
      have member : ∀ x ∈ db.packages, ∃ c, (comps clean last)[0]? = some c ∧ x ∈ c := by
        intro x here
        refine memberOf_comps.mp ?_
        rw [empty]
        exact first x here (phases.test_only_unvisited tests x)
      obtain ⟨c,at_,here⟩ := member q listed
      obtain ⟨d,at',there⟩ := member r listed'
      cases Option.some.inj (at_.symm.trans at')
      have path := phases.second.passing.forest.strong c (List.mem_of_getElem? at_) q here r there
      rw [phases.test_only_follows tests] at path
      exact unconnected path
  · rintro (reached | ⟨kind,connected⟩) sccID testSccID fuel enough
    · exact run_belongs graph _ (fun p present test => .inl (reached p present test)) enough
    · have tests := fun p present => (connected p present).1
      obtain ⟨app,clean,last,ids',run,phases⟩ := run_phases graph ⟨sccID,testSccID,fun _ => 0,fun _ => 0⟩ enough
      refine ⟨_,ids',run,fun p present => ?_⟩
      simp only [Belongs,memberOf_build]
      refine ⟨?_,phases.belongs_test present⟩
      obtain ⟨zero,member⟩ := phases.test_only_first tests (fun q listed => (connected q listed).2) present
      refine ⟨0,?_,member⟩
      rw [phases.apps]
      split
      · exact zero
      · have outside : p ∉ (comps (start ⟨sccID,testSccID,fun _ => 0,fun _ => 0⟩) app).flatten :=
          fun finished => phases.first.passing.visited p (.inr finished) (phases.test_only_unvisited tests p)
        rw [phases.application_eq]
        refine (phases.first.passing.kept.outside p outside).trans ?_
        rw [getId,if_pos rfl,kind]
        rfl

-- An application package and a package in a test directory that does not import it.
def splitDB : PackageDB Nat where
  packages := [1,2]
  usesTestPackages := fun p => p == 2
  isTestPackage := fun p => p == 2
  isPreludePackage := fun _ => false
  uses := fun _ test => test

def splitGraph : PackageGraph Nat splitDB where
  kind := .ReferencesPackageGraph
  getImports := fun _ => []
  nameExists := fun _ => true
  resolved := by decide

-- The members of the node that the graph gives for package 2.
def foundMembers (result : Option (Condensation Nat × SccIds Nat)) : Option (List Nat) := do
  let (nodes,ids) ← result
  let i ← GraphKind.getSCCId ids 2 .ReferencesPackageGraph
  let node ← nodes[i]?
  some node.members

theorem run_ids_misplaced : ¬ IdsBelong splitGraph := by
  intro belong
  obtain ⟨nodes,ids',run,all⟩ := belong (fun _ => some 0) (fun _ => none) 3 (by decide)
  obtain ⟨⟨i,found,node,at_,here⟩,_⟩ := all 2 (by decide)
  have computed : foundMembers (some (nodes,ids')) = some [1] := by
    rw [← run]
    decide
  have claimed : foundMembers (some (nodes,ids')) = some node.members := by
    have found' : GraphKind.getSCCId ids' 2 .ReferencesPackageGraph = some i := found
    simp only [foundMembers,Option.bind_eq_bind,Option.bind_some,found',at_]
  rw [claimed,Option.some.injEq] at computed
  rw [computed] at here
  revert here
  decide

end ComputePackageSCCs
end Packages
