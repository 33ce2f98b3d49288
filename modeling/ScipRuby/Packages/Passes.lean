import ScipRuby.Packages.BackEdges
import ScipRuby.Packages.StrongConnect

namespace Packages
namespace ComputePackageSCCs
open Relation LowLink
variable {Name : Type} [DecidableEq Name] {db : PackageDB Name} {graph : PackageGraph Name db} {edge : ImportType}
variable {base s s' : ComputePackageSCCs Name} {ids ids' : SccIds Name} {p q : Name} {fuel : Nat}

section Tarjan

-- A pass that has come to its end.
structure Passed (graph : PackageGraph Name db) (edge : ImportType) (base s : ComputePackageSCCs Name) : Prop where
  passing : Passing graph edge base s []
  covered : ∀ p ∈ db.packages, skips db edge p = false → s.index p ≠ 0
  rooted : ∀ p, s.index p ≠ 0 → base.index p = 0 →
    ∃ root ∈ db.packages, skips db edge root = false ∧ ReflTransGen (Follows graph edge base) root p

omit [DecidableEq Name] in
theorem Passing.left_le (passing : Passing graph edge base s []) : left db s ≤ left db base := by
  refine ComputePackageSCCs.left_le fun p known => ?_
  rw [index,passing.old p fun live => known live.2]
  exact known

omit [DecidableEq Name] in
theorem Passing.live_of_unvisited {gray : List Name} (passing : Passing graph edge base s gray) (present : p ∈ db.packages)
    (unseen : s.index p = 0) : Live db base p := by
  refine ⟨present,?_⟩
  by_contra other
  rw [index,passing.old p fun live => other live.2] at unseen
  exact other unseen

theorem tarjan_passes (begins : Begins graph edge base) (enough : db.packages.length < fuel) :
    ∃ s, tarjan graph edge fuel base = some s ∧ Passed graph edge base s := by
  have all : ∀ l : List Name, (∀ p ∈ l, p ∈ db.packages) → ∀ s, Passing graph edge base s [] → ∃ s',
      l.foldlM (fun s package => if skips db edge package then some s
        else if s.index package = 0 then strongConnect graph edge fuel package s else some s) s = some s' ∧
      Passing graph edge base s' [] ∧ (∀ p, s.index p ≠ 0 → s'.index p ≠ 0) ∧
      (∀ p ∈ l, skips db edge p = false → s'.index p ≠ 0) ∧
      ∀ p, s'.index p ≠ 0 → s.index p = 0 →
        ∃ root ∈ db.packages, skips db edge root = false ∧ ReflTransGen (Follows graph edge base) root p := by
    intro l
    induction l with
    | nil =>
      intro _ s passing
      exact ⟨s,rfl,passing,fun _ known => known,fun _ impossible => (by cases impossible),
        fun _ visited unseen => absurd unseen visited⟩
    | cons p l ih =>
      intro listed s passing
      -- One package of the list.
      have one : ∃ s', (if skips db edge p then some s
          else if s.index p = 0 then strongConnect graph edge fuel p s else some s) = some s' ∧
          Passing graph edge base s' [] ∧ (∀ q, s.index q ≠ 0 → s'.index q ≠ 0) ∧ (skips db edge p = false → s'.index p ≠ 0) ∧
          ∀ q, s'.index q ≠ 0 → s.index q = 0 → skips db edge p = false ∧ ReflTransGen (Follows graph edge base) p q := by
        cases skipped : skips db edge p with
        | true =>
          exact ⟨s,rfl,passing,fun _ known => known,fun other => (by cases other),
            fun _ visited unseen => absurd unseen visited⟩
        | false =>
          rw [if_neg Bool.false_ne_true]
          by_cases unseen : s.index p = 0
          · rw [if_pos unseen]
            have live := passing.live_of_unvisited (listed p List.mem_cons_self) unseen
            have few : left db s < fuel := by
              have first := passing.left_le
              have second : left db base ≤ db.packages.length := List.countP_le_length
              omega
            obtain ⟨s',run,visit⟩ := strongConnect_visits begins fuel p s [] few live unseen passing
              fun _ impossible => (by cases impossible)
            refine ⟨s',run,visit.passing,fun q known => ?_,fun _ => visit.visited,
              fun q visited unseen => ⟨rfl,visit.reached q visited unseen⟩⟩
            rw [index,visit.frame q known]
            exact known
          · rw [if_neg unseen]
            exact ⟨s,rfl,passing,fun _ known => known,fun _ => unseen,fun _ visited fresh => absurd fresh visited⟩
      obtain ⟨first,run,passing',kept,done,rooted⟩ := one
      obtain ⟨s',runs,passing'',kept',done',rooted'⟩ := ih (fun q member => listed q (List.mem_cons_of_mem _ member)) first passing'
      refine ⟨s',?_,passing'',fun q known => kept' q (kept q known),?_,?_⟩
      · rw [List.foldlM_cons,run]
        exact runs
      · intro q member skipped
        rcases List.mem_cons.mp member with rfl | later
        · exact kept' q (done skipped)
        · exact done' q later skipped
      · intro q visited unseen
        by_cases early : first.index q = 0
        · exact rooted' q visited early
        · exact ⟨p,listed p List.mem_cons_self,rooted q early unseen⟩
  obtain ⟨s,run,passing,_,done,rooted⟩ := all db.packages (fun _ member => member) base begins.passing
  exact ⟨s,run,passing,done,rooted⟩

-- Which node a package is a member of.
def MemberOf (nodes : Condensation Name) (id : Nat) (p : Name) : Prop := ∃ node, nodes[id]? = some node ∧ p ∈ node.members

omit [DecidableEq Name] in
theorem Passed.stack (passed : Passed graph edge base s) : s.stack = [] := by
  refine List.eq_nil_iff_forall_not_mem.mpr fun p here => ?_
  obtain ⟨_,impossible,_⟩ := passed.passing.forest.up p here
  cases impossible

omit [DecidableEq Name] in
theorem Passed.finished (passed : Passed graph edge base s) (seen : Seen s.stack (comps base s) p) :
    p ∈ (comps base s).flatten := by
  rw [passed.stack] at seen
  rcases seen with impossible | finished
  · cases impossible
  · exact finished

omit [DecidableEq Name] in
theorem comps_getElem? {i : Nat} {c : List Name} (at_ : (comps base s)[i]? = some c) :
    ∃ node, s.condensation[base.condensation.length + i]? = some node ∧ node.members = c := by
  rw [comps,List.getElem?_map,List.getElem?_drop,Option.map_eq_some_iff] at at_
  exact at_

omit [DecidableEq Name] in
-- A visited package is a member of the node it has the id of.
theorem Passed.member (passed : Passed graph edge base s) (live : Live db base p) (visited : s.index p ≠ 0) :
    ∃ i c, (comps base s)[i]? = some c ∧ p ∈ c ∧ getId graph edge s.ids p = some (base.condensation.length + i) ∧
      MemberOf s.condensation (base.condensation.length + i) p := by
  obtain ⟨i,c,at_,here⟩ := exists_getElem?_of_mem (passed.finished (passed.passing.seen p live visited))
  obtain ⟨node,at',rfl⟩ := comps_getElem? at_
  exact ⟨i,_,at_,here,passed.passing.assigned i _ at_ p here,node,at',here⟩

omit [DecidableEq Name] in
-- What a visited package leads to is visited.
theorem Passed.reached (passed : Passed graph edge base s) (live : Live db base p) (visited : s.index p ≠ 0)
    (path : ReflTransGen (Follows graph edge base) p q) : s.index q ≠ 0 := by
  obtain ⟨i,c,at_,here,_⟩ := passed.member live visited
  obtain ⟨j,d,_,at',there⟩ := passed.passing.forest.reaches_finished at_ here path
  exact passed.passing.visited q (.inr (mem_comps_of_getElem? at' there))

end Tarjan

section Ids

theorem getSCCId_setTestSCCId {id : Nat} : graph.kind.getSCCId (graph.kind.setTestSCCId ids p id) q = graph.kind.getSCCId ids q := by
  cases graph.kind <;> rfl

theorem sccID_setTestSCCId {id : Nat} : (graph.kind.setTestSCCId ids p id).sccID = ids.sccID := by
  cases graph.kind <;> rfl

theorem getTestSCCId_setTestSCCId {id : Nat} : graph.kind.getTestSCCId (graph.kind.setTestSCCId ids p id) q =
    if q = p then some id else graph.kind.getTestSCCId ids q := by
  cases graph.kind <;> by_cases same : q = p <;> simp [GraphKind.getTestSCCId,GraphKind.setTestSCCId,same]

theorem getTestSCCId_setSCCId {id : Nat} : graph.kind.getTestSCCId (graph.kind.setSCCId ids p id) q =
    graph.kind.getTestSCCId ids q := by
  cases graph.kind <;> rfl

theorem getSCCId_setSCCId {id : Nat} : graph.kind.getSCCId (graph.kind.setSCCId ids p id) q =
    if q = p then some id else graph.kind.getSCCId ids q := by
  cases graph.kind <;> by_cases same : q = p <;> simp [GraphKind.getSCCId,GraphKind.setSCCId,same]

theorem sccID_setSCCId {id : Nat} (other : q ≠ p) : (graph.kind.setSCCId ids p id).sccID q = ids.sccID q := by
  cases graph.kind
  · exact Function.update_of_ne other ..
  · rfl

-- Each package in the list gets its application id as its test id.
theorem reuseAll {l : List Name} (known : ∀ p ∈ l, ∃ id, graph.kind.getSCCId ids p = some id) :
    ∃ ids', l.foldlM (reuse graph) ids = some ids' ∧ ids'.sccID = ids.sccID ∧
    (∀ q, graph.kind.getSCCId ids' q = graph.kind.getSCCId ids q) ∧
    ∀ q, graph.kind.getTestSCCId ids' q = if q ∈ l then graph.kind.getSCCId ids q else graph.kind.getTestSCCId ids q := by
  induction l generalizing ids with
  | nil => exact ⟨ids,rfl,rfl,fun _ => rfl,fun q => by simp⟩
  | cons p l ih =>
    obtain ⟨id,found⟩ := known p List.mem_cons_self
    have first : reuse graph ids p = some (graph.kind.setTestSCCId ids p id) := by
      rw [reuse,found]
      rfl
    obtain ⟨ids',run,info,apps,tests⟩ := @ih (graph.kind.setTestSCCId ids p id) (by
      intro q member
      rw [getSCCId_setTestSCCId]
      exact known q (List.mem_cons_of_mem _ member))
    refine ⟨ids',?_,info.trans sccID_setTestSCCId,fun q => (apps q).trans getSCCId_setTestSCCId,?_⟩
    · rw [List.foldlM_cons,first]
      exact run
    · intro q
      rw [tests,getSCCId_setTestSCCId,getTestSCCId_setTestSCCId]
      by_cases same : q = p
      · subst same
        simp [found]
      · simp [same]

-- The last loop takes the test id of a package for its application id if its PackageInfo has none.
theorem matchAll {l : List Name}
    (known : ∀ p ∈ l, db.usesTestPackages p = true → ∃ id, graph.kind.getTestSCCId ids p = some id) :
    ∃ ids', l.foldlM (matchIds graph) ids = some ids' ∧
    (∀ q, graph.kind.getTestSCCId ids' q = graph.kind.getTestSCCId ids q) ∧
    ∀ q, graph.kind.getSCCId ids' q = if q ∈ l ∧ db.usesTestPackages q = true ∧ ids.sccID q = none
      then graph.kind.getTestSCCId ids q else graph.kind.getSCCId ids q := by
  induction l generalizing ids with
  | nil => exact ⟨ids,rfl,fun _ => rfl,fun q => by simp⟩
  | cons p l ih =>
    by_cases open_ : db.usesTestPackages p = true ∧ ids.sccID p = none
    · obtain ⟨id,found⟩ := known p List.mem_cons_self open_.1
      have first : matchIds graph ids p = some (graph.kind.setSCCId ids p id) := by
        rw [matchIds,if_pos open_,found]
        rfl
      obtain ⟨ids',run,tests,apps⟩ := @ih (graph.kind.setSCCId ids p id) (by
        intro q member uses
        rw [getTestSCCId_setSCCId]
        exact known q (List.mem_cons_of_mem _ member) uses)
      refine ⟨ids',?_,fun q => (tests q).trans getTestSCCId_setSCCId,?_⟩
      · rw [List.foldlM_cons,first]
        exact run
      · intro q
        rw [apps,getTestSCCId_setSCCId,getSCCId_setSCCId]
        by_cases same : q = p
        · subst same
          simp [open_,found]
        · rw [sccID_setSCCId same]
          simp [same]
    · have first : matchIds graph ids p = some ids := if_neg open_
      obtain ⟨ids',run,tests,apps⟩ := ih fun q member uses => known q (List.mem_cons_of_mem _ member) uses
      refine ⟨ids',?_,tests,?_⟩
      · rw [List.foldlM_cons,first]
        exact run
      · intro q
        rw [apps]
        by_cases same : q = p
        · subst same
          simp [open_]
        · simp [same]

end Ids
end ComputePackageSCCs
end Packages
