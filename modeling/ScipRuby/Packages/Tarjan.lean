import ScipRuby.Lib.LowLink
import ScipRuby.Packages.CloseScc

namespace Packages
namespace ComputePackageSCCs
open Relation LowLink
variable {Name : Type} [DecidableEq Name] {db : PackageDB Name} {graph : PackageGraph Name db} {edge : ImportType}
variable {base s s' : ComputePackageSCCs Name} {gray : List Name} {x y : Name}

-- The packages that a pass that begins in base has to visit.
def Live (db : PackageDB Name) (base : ComputePackageSCCs Name) (x : Name) : Prop := x ∈ db.packages ∧ base.index x = 0

-- The imports it follows between them.
def Follows (graph : PackageGraph Name db) (edge : ImportType) (base : ComputePackageSCCs Name) (x y : Name) : Prop :=
  (∃ i ∈ graph.getImports x, considers edge i = true ∧ i.mangledName = y) ∧ Live db base y

-- The members of the nodes it has made.
def comps (base s : ComputePackageSCCs Name) : List (List Name) :=
  (s.condensation.drop base.condensation.length).map Node.members

-- A node of the condensation, apart from its members.
structure NodeSound (i : Nat) (node : Node Name) : Prop where
  id : node.id = i
  fresh : node.backEdges = []
  imports : Below i node.imports

-- What a pass can rely on when it begins.
structure Begins (graph : PackageGraph Name db) (edge : ImportType) (base : ComputePackageSCCs Name) : Prop where
  stack : base.stack = []
  off : ∀ x, (base.nodeMap x).onStack = false
  bounded : ∀ x, base.index x < base.nextIndex
  sound : ∀ i node, base.condensation[i]? = some node → NodeSound i node
  kept : ∀ x ∈ db.packages, base.index x ≠ 0 → ∃ id < base.condensation.length, getId graph edge base.ids x = some id
  apps : edge ≠ .Normal → ∀ x ∈ db.packages, base.index x = 0 → db.isTestPackage x = false →
    ∃ id < base.condensation.length, graph.kind.getSCCId base.ids x = some id

-- What the node numbered sccId, with these members, has to import.
def Depends (graph : PackageGraph Name db) (edge : ImportType) (ids : SccIds Name) (sccId : Nat) (members : List Name) (j : Nat) :
    Prop :=
  (∃ p ∈ members, OwnCode graph edge ids p j) ∨ ∃ p ∈ members, ∃ i ∈ graph.getImports p, Links graph edge ids sccId i j

-- What holds between two steps of a pass, while the packages in gray are being visited.
structure Passing (graph : PackageGraph Name db) (edge : ImportType) (base s : ComputePackageSCCs Name) (gray : List Name) :
    Prop where
  begun : base.condensation <+: s.condensation
  forest : Forest (Follows graph edge base) s.index s.stack gray (comps base s)
  live : ∀ x, Seen s.stack (comps base s) x → Live db base x
  seen : ∀ x, Live db base x → s.index x ≠ 0 → Seen s.stack (comps base s) x
  visited : ∀ x, Seen s.stack (comps base s) x → s.index x ≠ 0
  old : ∀ x, ¬ Live db base x → s.nodeMap x = base.nodeMap x
  onStack : ∀ x, (s.nodeMap x).onStack = true ↔ x ∈ s.stack
  bounded : ∀ x, s.index x < s.nextIndex
  sound : ∀ i node, s.condensation[i]? = some node → NodeSound i node
  kind : ∀ i node, base.condensation.length ≤ i → s.condensation[i]? = some node → node.isTest = decide (edge ≠ .Normal)
  inhabited : ∀ c ∈ comps base s, c ≠ []
  assigned : ∀ i c, (comps base s)[i]? = some c → ∀ x ∈ c, getId graph edge s.ids x = some (base.condensation.length + i)
  kept : IdsKept graph edge (· ∈ (comps base s).flatten) base.ids s.ids
  linked : ∀ i node, base.condensation.length ≤ i → s.condensation[i]? = some node →
    ∀ j, j ∈ node.imports ↔ Depends graph edge s.ids i node.members j

section Steps

omit [DecidableEq Name] in
theorem comps_self : comps base base = [] := by
  rw [comps,List.drop_length,List.map_nil]

omit [DecidableEq Name] in
theorem Begins.passing (begins : Begins graph edge base) : Passing graph edge base base [] where
  begun := List.prefix_rfl
  forest := by
    rw [begins.stack,comps_self]
    exact .empty
  live := by
    intro x seen
    rw [begins.stack,comps_self] at seen
    rcases seen with impossible | impossible <;> cases impossible
  seen := by
    intro x live visited
    exact absurd live.2 visited
  visited := by
    intro x seen
    rw [begins.stack,comps_self] at seen
    rcases seen with impossible | impossible <;> cases impossible
  old := fun _ _ => rfl
  onStack := by
    intro x
    rw [begins.stack,begins.off]
    exact ⟨fun impossible => (by cases impossible),fun impossible => (by cases impossible)⟩
  bounded := begins.bounded
  sound := begins.sound
  kind := by
    intro i node beyond at_
    rw [List.getElem?_eq_none beyond] at at_
    cases at_
  inhabited := by
    rw [comps_self]
    intro c impossible
    cases impossible
  assigned := by
    intro i c at_
    rw [comps_self] at at_
    cases at_
  kept := .refl
  linked := by
    intro i node beyond at_
    rw [List.getElem?_eq_none beyond] at at_
    cases at_

theorem enter_index (x y : Name) : (s.enter x).index y = if y = x then s.nextIndex else s.index y := by
  unfold index enter
  by_cases same : y = x <;> simp [same]

theorem Passing.enter (passing : Passing graph edge base s gray) (live : Live db base x) (fresh : s.index x = 0)
    (leads : ∀ g ∈ gray, ReflTransGen (Follows graph edge base) g x) :
    Passing graph edge base (s.enter x) (x :: gray) := by
  have new : ¬ Seen s.stack (comps base s) x := fun seen => passing.visited x seen fresh
  have same : ∀ y ∈ s.stack, (s.enter x).index y = s.index y := by
    intro y here
    rw [enter_index,if_neg]
    rintro rfl
    exact new (.inl here)
  constructor
  · exact passing.begun
  · refine passing.forest.push new same ?_ leads
    intro y here
    rw [same y here,enter_index,if_pos rfl]
    exact passing.bounded y
  · intro y seen
    rcases seen with here | finished
    · rcases List.mem_cons.mp here with rfl | here
      · exact live
      · exact passing.live y (.inl here)
    · exact passing.live y (.inr finished)
  · intro y live' visited
    by_cases here : y = x
    · exact .inl (here ▸ List.mem_cons_self)
    · rw [enter_index,if_neg here] at visited
      exact (passing.seen y live' visited).imp_left fun before => List.mem_cons_of_mem _ before
  · intro y seen
    rw [enter_index]
    split
    · have := passing.bounded x
      omega
    · rename_i other
      refine passing.visited y (seen.imp_left fun here => ?_)
      exact (List.mem_cons.mp here).resolve_left other
  · intro y other
    have apart : y ≠ x := fun same => other (same ▸ live)
    exact (Function.update_of_ne apart ..).trans (passing.old y other)
  · intro y
    unfold ComputePackageSCCs.enter
    by_cases here : y = x
    · simp [here]
    · simp [here,passing.onStack]
  · intro y
    rw [enter_index]
    have := passing.bounded y
    unfold ComputePackageSCCs.enter
    split <;> dsimp only <;> omega
  · exact passing.sound
  · exact passing.kind
  · exact passing.inhabited
  · exact passing.assigned
  · exact passing.kept
  · exact passing.linked

theorem lower_index (link : Nat) : (s.lower x link).index = s.index := by
  funext y
  unfold index lower
  by_cases same : y = x <;> simp [same]

theorem lower_onStack (link : Nat) : ((s.lower x link).nodeMap y).onStack = (s.nodeMap y).onStack := by
  unfold lower
  by_cases same : y = x <;> simp [same]

-- A low link is not part of what a pass keeps.
theorem Passing.lower {link : Nat} (passing : Passing graph edge base s gray) (live : Live db base x) :
    Passing graph edge base (s.lower x link) gray where
  begun := passing.begun
  forest := by
    rw [lower_index]
    exact passing.forest
  live := passing.live
  seen := by
    rw [lower_index]
    exact passing.seen
  visited := by
    rw [lower_index]
    exact passing.visited
  old := by
    intro y other
    have apart : y ≠ x := fun same => other (same ▸ live)
    exact (Function.update_of_ne apart ..).trans (passing.old y other)
  onStack := by
    intro y
    rw [lower_onStack]
    exact passing.onStack y
  bounded := by
    rw [lower_index]
    exact passing.bounded
  sound := passing.sound
  kind := passing.kind
  inhabited := passing.inhabited
  assigned := passing.assigned
  kept := passing.kept
  linked := passing.linked

end Steps

section Close

omit [DecidableEq Name] in
theorem comps_push {node : Node Name} (begun : base.condensation <+: s.condensation)
    (pushed : s'.condensation = s.condensation ++ [node]) : comps base s' = comps base s ++ [node.members] := by
  rw [comps,comps,pushed,List.drop_append_of_le_length begun.length_le,List.map_append,List.map_singleton]

omit [DecidableEq Name] in
theorem comps_length (begun : base.condensation <+: s.condensation) :
    base.condensation.length + (comps base s).length = s.condensation.length := by
  have := begun.length_le
  rw [comps,List.length_map,List.length_drop]
  omega

variable {segment stack : List Name}

-- The last element, or one from before.
theorem getElem?_concat_cases {α : Type} {xs : List α} {last found : α} {i : Nat} (at_ : (xs ++ [last])[i]? = some found) :
    xs[i]? = some found ∨ i = xs.length ∧ found = last := by
  rcases Nat.lt_or_ge i xs.length with before | after
  · rw [List.getElem?_append_left before] at at_
    exact .inl at_
  · rw [List.getElem?_append_right after] at at_
    obtain ⟨short,rfl⟩ := List.getElem?_eq_some_iff.mp at_
    rw [List.length_singleton] at short
    exact .inr ⟨by omega,List.getElem_singleton short⟩

-- What closing a component does to the rest of the search.
structure Closed (graph : PackageGraph Name db) (edge : ImportType) (base s : ComputePackageSCCs Name) (gray : List Name)
    (members stack : List Name) (s' : ComputePackageSCCs Name) : Prop where
  passing : Passing graph edge base s' gray
  stack : s'.stack = stack
  nextIndex : s'.nextIndex = s.nextIndex
  nodeMap : ∀ q, s'.nodeMap q = if q ∈ members then {s.nodeMap q with onStack := false} else s.nodeMap q

variable (begins : Begins graph edge base) (passing : Passing graph edge base s (x :: gray))
  (shape : s.stack = segment ++ x :: stack) (outer : ∀ g ∈ gray, g ∈ stack)
  (explored : ∀ y, Follows graph edge base x y → Seen s.stack (comps base s) y)
  (inside : ∀ y ∈ segment ++ [x], ∀ z ∈ stack, ¬ Follows graph edge base y z)
include begins passing shape outer explored inside

theorem Passing.member_imports {ids : SccIds Name} (kept : IdsKept graph edge (· ∈ segment ++ [x]) s.ids ids)
    (assigned : ∀ q ∈ segment ++ [x], getId graph edge ids q = some s.condensation.length) :
    ∀ p ∈ segment ++ [x], ∀ i ∈ graph.getImports p, graph.nameExists i.mangledName = true → considers edge i = true →
    ∃ impId, getId graph edge ids i.mangledName = some impId ∧
      (impId ≠ s.condensation.length → impId < s.condensation.length) := by
  intro p member i listed named considered
  have forest := passing.forest
  rw [shape] at forest explored
  have whole := comps_length passing.begun
  have onStack : p ∈ s.stack := shape ▸ Forest.mem_split.mpr (.inl member)
  have present := graph.resolved p (passing.live p (.inl onStack)).1 i listed named
  by_cases mine : i.mangledName ∈ segment ++ [x]
  · exact ⟨_,assigned _ mine,fun other => absurd rfl other⟩
  rw [kept.outside _ mine]
  by_cases live : base.index i.mangledName = 0
  · have follows : Follows graph edge base p i.mangledName := ⟨⟨i,listed,considered,rfl⟩,present,live⟩
    rcases forest.edge_from_segment outer explored inside member follows with again | finished
    · exact absurd again mine
    · obtain ⟨j,c,at_,here⟩ := exists_getElem?_of_mem finished
      have short := (List.getElem?_eq_some_iff.mp at_).1
      exact ⟨_,passing.assigned j c at_ _ here,fun _ => by omega⟩
  · obtain ⟨id,small,found⟩ := begins.kept _ present live
    have outside : i.mangledName ∉ (comps base s).flatten := fun finished => live (passing.live _ (.inr finished)).2
    exact ⟨id,(passing.kept.outside _ outside).trans found,fun _ => by omega⟩

omit [DecidableEq Name] begins explored inside outer in
-- An import of a finished node is not one of a member that is about to be popped.
theorem Passing.finished_imports {i : Nat} {node : Node Name} (beyond : base.condensation.length ≤ i)
    (at_ : s.condensation[i]? = some node) {p : Name} (here : p ∈ node.members) {imp : Import Name}
    (listed : imp ∈ graph.getImports p) (considered : considers edge imp = true) : imp.mangledName ∉ segment ++ [x] := by
  intro member
  have onStack : imp.mangledName ∈ s.stack := shape ▸ Forest.mem_split.mpr (.inl member)
  have comp : (comps base s)[i - base.condensation.length]? = some node.members := by
    rw [comps,List.getElem?_map,List.getElem?_drop,Nat.add_sub_cancel' beyond,at_]
    rfl
  have follows : Follows graph edge base p imp.mangledName := ⟨⟨imp,listed,considered,rfl⟩,passing.live _ (.inl onStack)⟩
  obtain ⟨_,_,_,at',there⟩ := passing.forest.reaches_finished comp here (.single follows)
  exact passing.forest.apart _ onStack (mem_comps_of_getElem? at' there)

omit begins in
-- The settled members become the last node.
theorem Passing.closed {node : Node Name}
    (settled : Settled graph edge s.condensation.length (segment ++ [x]) {s with stack := stack} s')
    (members : node.members = segment ++ [x]) (sound : NodeSound s.condensation.length node)
    (kind : node.isTest = decide (edge ≠ .Normal))
    (linked : ∀ j, j ∈ node.imports ↔ Depends graph edge s'.ids s.condensation.length (segment ++ [x]) j) :
    Closed graph edge base s gray (segment ++ [x]) stack {s' with condensation := s'.condensation ++ [node]} := by
  have forest := passing.forest
  rw [shape] at forest explored
  have whole := comps_length passing.begun
  have apart := forest.segment_apart
  have index : ∀ q, s'.index q = s.index q := by
    intro q
    rw [ComputePackageSCCs.index,settled.nodeMap]
    split <;> rfl
  have condensation : s'.condensation = s.condensation := settled.condensation
  have pushed : comps base {s' with condensation := s'.condensation ++ [node]} = comps base s ++ [segment ++ [x]] := by
    rw [← members]
    exact comps_push passing.begun (by rw [condensation])
  -- What has been seen is the same as before.
  have seen : ∀ y, Seen stack (comps base s ++ [segment ++ [x]]) y ↔ Seen s.stack (comps base s) y := by
    intro y
    rw [shape,Seen,Seen,Forest.mem_split,List.flatten_append,List.flatten_singleton,List.mem_append]
    tauto
  have lastOr : ∀ (i : Nat) (n : Node Name), (s'.condensation ++ [node])[i]? = some n →
      s.condensation[i]? = some n ∨ i = s.condensation.length ∧ n = node := by
    intro i n at_
    rw [condensation] at at_
    exact getElem?_concat_cases at_
  have popped := forest.pop outer explored inside
  refine ⟨?_,settled.stack,settled.nextIndex,settled.nodeMap⟩
  constructor
  · exact (condensation ▸ passing.begun).trans (List.prefix_append ..)
  · rw [pushed]
    change Forest _ _ s'.stack _ _
    rw [settled.stack]
    exact popped.congr fun q _ => index q
  · intro y
    rw [pushed]
    change Seen s'.stack _ y → _
    rw [settled.stack,seen]
    exact passing.live y
  · intro y live visited
    rw [pushed]
    change Seen s'.stack _ y
    rw [settled.stack,seen]
    exact passing.seen y live ((index y) ▸ visited)
  · intro y
    rw [pushed]
    change Seen s'.stack _ y → s'.index y ≠ 0
    rw [settled.stack,seen,index]
    exact passing.visited y
  · intro y other
    have outside : y ∉ segment ++ [x] := by
      intro member
      exact other (passing.live y (.inl (shape ▸ Forest.mem_split.mpr (.inl member))))
    change s'.nodeMap y = _
    rw [settled.nodeMap,if_neg outside]
    exact passing.old y other
  · intro y
    change (s'.nodeMap y).onStack = true ↔ y ∈ s'.stack
    rw [settled.nodeMap,settled.stack]
    split
    · rename_i member
      exact ⟨fun impossible => (by cases impossible),fun below => absurd below (apart y member)⟩
    · rename_i outside
      change (s.nodeMap y).onStack = true ↔ y ∈ stack
      rw [passing.onStack,shape,Forest.mem_split]
      exact ⟨fun on => on.resolve_left outside,.inr⟩
  · intro y
    change s'.index y < s'.nextIndex
    rw [index,settled.nextIndex]
    exact passing.bounded y
  · intro i n at_
    rcases lastOr i n at_ with before | ⟨rfl,rfl⟩
    · exact passing.sound i n before
    · exact sound
  · intro i n beyond at_
    rcases lastOr i n at_ with before | ⟨rfl,rfl⟩
    · exact passing.kind i n beyond before
    · exact kind
  · rw [pushed]
    intro c listed
    rcases List.mem_append.mp listed with old | new
    · exact passing.inhabited c old
    · rw [List.mem_singleton.mp new]
      exact List.append_ne_nil_of_right_ne_nil _ (List.cons_ne_nil x [])
  · intro i c at_ q here
    rw [pushed] at at_
    change getId graph edge s'.ids q = _
    rcases getElem?_concat_cases at_ with before | ⟨rfl,rfl⟩
    · have outside : q ∉ segment ++ [x] := by
        intro member
        exact forest.apart q (Forest.mem_split.mpr (.inl member)) (mem_comps_of_getElem? before here)
      rw [settled.kept.outside q outside]
      exact passing.assigned i c before q here
    · rw [whole]
      exact settled.assigned q here
  · rw [pushed]
    refine IdsKept.trans (passing.kept.mono ?_) (settled.kept.mono ?_)
    · intro q finished
      rw [List.flatten_append]
      exact List.mem_append_left _ finished
    · intro q member
      rw [List.flatten_append,List.flatten_singleton]
      exact List.mem_append_right _ member
  · intro i n beyond at_ j
    rcases lastOr i n at_ with before | ⟨rfl,rfl⟩
    · rw [passing.linked i n beyond before]
      have apps (test : edge ≠ .Normal) (p : Name) := settled.kept.application test p
      have same {p : Name} (here : p ∈ n.members) {imp : Import Name} (listed : imp ∈ graph.getImports p)
          (considered : considers edge imp = true) :=
        settled.kept.outside _ (passing.finished_imports shape beyond before here listed considered)
      constructor
      · rintro (⟨p,here,own⟩ | ⟨p,here,imp,listed,links⟩)
        · exact .inl ⟨p,here,own.second,own.code,(apps own.second p).trans own.found⟩
        · exact .inr ⟨p,here,imp,listed,links.named,links.considered,(same here listed links.considered).trans links.found,links.other⟩
      · rintro (⟨p,here,own⟩ | ⟨p,here,imp,listed,links⟩)
        · exact .inl ⟨p,here,own.second,own.code,(apps own.second p).symm.trans own.found⟩
        · exact .inr ⟨p,here,imp,listed,links.named,links.considered,
            (same here listed links.considered).symm.trans links.found,links.other⟩
    · rw [linked,members]

theorem Passing.closeScc : ∃ s', closeScc graph edge s x = some s' ∧
    Closed graph edge base s gray (segment ++ [x]) stack s' := by
  have forest := passing.forest
  rw [shape] at forest
  have whole := comps_length passing.begun
  have absent : x ∉ segment := by
    intro here
    have sorted := (List.pairwise_append.mp forest.sorted).2.2 x here x List.mem_cons_self
    exact Nat.lt_irrefl _ sorted
  have liveMember : ∀ p ∈ segment ++ [x], Live db base p := by
    intro p member
    exact passing.live p (.inl (shape ▸ Forest.mem_split.mpr (.inl member)))
  have below : Below s.condensation.length [] := ⟨.nil,fun _ impossible => (by cases impossible)⟩
  obtain ⟨s',imports,settles,settled,below',owned⟩ := @settleAll _ _ _ graph edge {s with stack := stack} s.condensation.length
    s.condensation.length [] (segment ++ [x]) below (by
      intro test p member app
      obtain ⟨id,small,found⟩ := begins.apps test p (liveMember p member).1 (liveMember p member).2 app
      exact ⟨id,by omega,(passing.kept.application test p).trans found⟩)
  obtain ⟨imports',links,below'',linked⟩ := linkMembers below'
    (passing.member_imports begins shape outer explored inside settled.kept settled.assigned)
  let node : Node Name := {CondensationBuilder.pushNode s.condensation edge (db.isPreludePackage x) with
    members := segment ++ [x],imports := imports'}
  refine ⟨{s' with condensation := s'.condensation ++ [node]},?_,?_⟩
  · unfold ComputePackageSCCs.closeScc
    simp only [shape,popUntil_eq absent,CondensationBuilder.pushNode,settles,links,Option.bind_eq_bind,Option.bind_some]
    rfl
  · refine passing.closed shape outer explored inside settled rfl ⟨rfl,rfl,below''⟩ rfl fun j => ?_
    change j ∈ imports' ↔ _
    rw [linked,owned,or_iff_right List.not_mem_nil]
    rfl

end Close
end ComputePackageSCCs
end Packages
