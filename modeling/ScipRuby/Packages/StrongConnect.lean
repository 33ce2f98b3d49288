import ScipRuby.Packages.Tarjan

namespace Packages
namespace ComputePackageSCCs
open Relation LowLink
variable {Name : Type} [DecidableEq Name] {db : PackageDB Name} {graph : PackageGraph Name db} {edge : ImportType}
variable {base before s s' : ComputePackageSCCs Name} {gray : List Name} {x y : Name}

def lowLink (s : ComputePackageSCCs Name) (x : Name) : Nat := (s.nodeMap x).lowLink

-- What a visit to x does to a search: everything visited before stays as it was. The low link of x leads to the stack
-- as it was before, and bounds every edge to it, or it leads nowhere.
structure Visit (graph : PackageGraph Name db) (edge : ImportType) (base before : ComputePackageSCCs Name) (gray : List Name)
    (x : Name) (s : ComputePackageSCCs Name) : Prop where
  passing : Passing graph edge base s gray
  visited : s.index x ≠ 0
  frame : ∀ y, before.index y ≠ 0 → s.nodeMap y = before.nodeMap y
  later : before.nextIndex ≤ s.nextIndex
  segment : ∃ new, s.stack = new ++ before.stack ∧
    ∀ u ∈ new, ∀ v ∈ before.stack, Follows graph edge base u v → s.lowLink x ≤ before.index v
  low : (∃ y ∈ before.stack, before.index y = s.lowLink x ∧ ReflTransGen (Follows graph edge base) x y) ∨
    before.nextIndex ≤ s.lowLink x
  reached : ∀ y, s.index y ≠ 0 → before.index y = 0 → ReflTransGen (Follows graph edge base) x y

-- The same while the imports of x are scanned, after the ones in done.
structure Scan (graph : PackageGraph Name db) (edge : ImportType) (base before : ComputePackageSCCs Name) (gray : List Name)
    (x : Name) (done : List (Import Name)) (s : ComputePackageSCCs Name) : Prop where
  passing : Passing graph edge base s (x :: gray)
  index : s.index x = before.nextIndex
  frame : ∀ y, before.index y ≠ 0 → s.nodeMap y = before.nodeMap y
  later : before.nextIndex < s.nextIndex
  segment : ∃ new, s.stack = new ++ x :: before.stack ∧
    ∀ u ∈ new, ∀ v ∈ before.stack, Follows graph edge base u v → s.lowLink x ≤ before.index v
  low : (∃ y ∈ before.stack, before.index y = s.lowLink x ∧ ReflTransGen (Follows graph edge base) x y) ∨
    s.lowLink x = before.nextIndex
  scanned : ∀ i ∈ done, considers edge i = true → Live db base i.mangledName →
    Seen s.stack (comps base s) i.mangledName ∧ (i.mangledName ∈ before.stack → s.lowLink x ≤ before.index i.mangledName)
  reached : ∀ y, s.index y ≠ 0 → before.index y = 0 → ReflTransGen (Follows graph edge base) x y

section Lower
variable {link : Nat}

theorem lower_lowLink : (s.lower x link).lowLink x = min (s.lowLink x) link := by
  unfold lowLink lower
  simp

theorem lower_nodeMap_of_ne (apart : y ≠ x) : (s.lower x link).nodeMap y = s.nodeMap y := Function.update_of_ne apart ..

end Lower

section Bounds
variable {done : List (Import Name)} {new : List Name} (scan : Scan graph edge base before gray x done s)
include scan

omit [DecidableEq Name] in
theorem Scan.index_known (known : before.index y ≠ 0) : s.index y = before.index y := congrArg NodeInfo.index (scan.frame y known)

omit [DecidableEq Name] in
-- What was pushed since has a later index.
theorem Scan.above (shape : s.stack = new ++ x :: before.stack) (member : y ∈ new) : before.nextIndex < s.index y := by
  have sorted := scan.passing.forest.sorted
  rw [shape] at sorted
  have after := (List.pairwise_append.mp sorted).2.2 y member x List.mem_cons_self
  rwa [scan.index] at after

omit [DecidableEq Name] in
theorem Scan.low_le (start : Passing graph edge base before gray) : s.lowLink x ≤ before.nextIndex := by
  rcases scan.low with ⟨w,_,equal,_⟩ | equal
  · have := start.bounded w
    omega
  · exact Nat.le_of_eq equal

end Bounds

section Scanning
variable {done : List (Import Name)} (start : Passing graph edge base before gray) (live : Live db base x)
  (fresh : before.index x = 0)
include start live fresh

-- A new link leads to the stack as it was before, or changes nothing.
theorem Scan.lower {link : Nat} (scan : Scan graph edge base before gray x done s)
    (leads : (∃ y ∈ before.stack, before.index y = link ∧ ReflTransGen (Follows graph edge base) x y) ∨ before.nextIndex ≤ link) :
    Scan graph edge base before gray x done (s.lower x link) := by
  have less := @lower_lowLink _ _ s x link
  constructor
  · exact scan.passing.lower live
  · rw [lower_index]
    exact scan.index
  · intro y known
    have apart : y ≠ x := by
      rintro rfl
      exact known fresh
    rw [lower_nodeMap_of_ne apart]
    exact scan.frame y known
  · exact scan.later
  · obtain ⟨new,shape,bounds⟩ := scan.segment
    refine ⟨new,shape,fun u member v below follows => ?_⟩
    have := bounds u member v below follows
    omega
  · rcases Nat.le_total (s.lowLink x) link with smaller | smaller
    · rw [less,Nat.min_eq_left smaller]
      exact scan.low
    · rw [less,Nat.min_eq_right smaller]
      rcases leads with found | beyond
      · exact .inl found
      · rcases scan.low with ⟨y,below,equal,path⟩ | same
        · have := start.bounded y
          omega
        · exact .inr (by omega)
  · intro i member considered liveImport
    obtain ⟨seen,bound⟩ := scan.scanned i member considered liveImport
    refine ⟨seen,fun below => ?_⟩
    have := bound below
    omega
  · rw [lower_index]
    exact scan.reached

theorem Passing.scan (leads : ∀ g ∈ gray, ReflTransGen (Follows graph edge base) g x) :
    Scan graph edge base before gray x [] (before.enter x) := by
  have index : (before.enter x).index x = before.nextIndex := by rw [enter_index,if_pos rfl]
  have low : (before.enter x).lowLink x = before.nextIndex := by simp [lowLink,ComputePackageSCCs.enter]
  constructor
  · exact start.enter live fresh leads
  · exact index
  · intro y known
    have apart : y ≠ x := by
      rintro rfl
      exact known fresh
    exact Function.update_of_ne apart ..
  · exact Nat.lt_succ_self _
  · exact ⟨[],rfl,fun _ impossible => (by cases impossible)⟩
  · exact .inr low
  · intro i impossible
    cases impossible
  · intro y visited unseen
    rw [enter_index] at visited
    split at visited
    · rename_i same
      exact same ▸ .refl
    · exact absurd unseen visited

omit [DecidableEq Name] start live fresh in
-- An import that needs no visit.
theorem Scan.skip {i : Import Name} (scan : Scan graph edge base before gray x done s)
    (fine : considers edge i = true → Live db base i.mangledName → Seen s.stack (comps base s) i.mangledName ∧
      (i.mangledName ∈ before.stack → s.lowLink x ≤ before.index i.mangledName)) :
    Scan graph edge base before gray x (done ++ [i]) s where
  passing := scan.passing
  index := scan.index
  frame := scan.frame
  later := scan.later
  segment := scan.segment
  low := scan.low
  scanned := by
    intro j member
    rcases List.mem_append.mp member with earlier | last
    · exact scan.scanned j earlier
    · rw [List.mem_singleton.mp last]
      exact fine
  reached := scan.reached

-- A visit to an import.
theorem Scan.visit {i : Import Name} (scan : Scan graph edge base before gray x done s) (listed : i ∈ graph.getImports x)
    (considered : considers edge i = true) (liveImport : Live db base i.mangledName) (unseen : s.index i.mangledName = 0)
    (visit : Visit graph edge base s (x :: gray) i.mangledName s') :
    Scan graph edge base before gray x (done ++ [i]) (s'.lower x (s'.lowLink i.mangledName)) := by
  have mine : s.index x ≠ 0 := by
    rw [scan.index]
    have := start.bounded x
    omega
  have same : s'.nodeMap x = s.nodeMap x := visit.frame x mine
  have still : ∀ y, before.index y ≠ 0 → s'.nodeMap y = before.nodeMap y := by
    intro y known
    have first := scan.frame y known
    refine (visit.frame y ?_).trans first
    rw [ComputePackageSCCs.index,first]
    exact known
  have low : s'.lowLink x = s.lowLink x := congrArg NodeInfo.lowLink same
  have follows : Follows graph edge base x i.mangledName := ⟨⟨i,listed,considered,rfl⟩,liveImport⟩
  obtain ⟨new,shape,bounds⟩ := scan.segment
  obtain ⟨more,shape',bounds'⟩ := visit.segment
  have indexBefore : ∀ v ∈ before.stack, s.index v = before.index v := fun v below =>
    scan.index_known (start.visited v (.inl below))
  have low_le := scan.low_le start
  have below : ∀ v ∈ before.stack, v ∈ s.stack := by
    intro v here
    rw [shape]
    exact List.mem_append_right _ (List.mem_cons_of_mem _ here)
  -- First without the link of the import, of which only the bounds are new.
  have bounded : ∀ u ∈ more ++ new, ∀ v ∈ before.stack, Follows graph edge base u v →
      min (s'.lowLink x) (s'.lowLink i.mangledName) ≤ before.index v := by
    intro u member v here edge'
    rcases List.mem_append.mp member with late | early
    · have := bounds' u late v (below v here) edge'
      rw [indexBefore v here] at this
      omega
    · have := bounds u early v here edge'
      omega
  have lowered := @lower_lowLink _ _ s' x (s'.lowLink i.mangledName)
  constructor
  · exact visit.passing.lower live
  · rw [lower_index,ComputePackageSCCs.index,same]
    exact scan.index
  · intro y known
    have apart : y ≠ x := by
      rintro rfl
      exact known fresh
    rw [lower_nodeMap_of_ne apart]
    exact still y known
  · exact Nat.lt_of_lt_of_le scan.later visit.later
  · refine ⟨more ++ new,?_,?_⟩
    · rw [List.append_assoc,← shape]
      exact shape'
    · rw [lowered]
      exact bounded
  · rw [lowered]
    rcases Nat.le_total (s'.lowLink x) (s'.lowLink i.mangledName) with smaller | smaller
    · rw [Nat.min_eq_left smaller,low]
      exact scan.low
    · rw [Nat.min_eq_right smaller]
      rcases visit.low with ⟨z,onStack,equal,path⟩ | beyond
      · rw [shape] at onStack
        -- The link of the import leads below x, as its index says.
        have onward := (ReflTransGen.single follows).trans path
        rcases List.mem_append.mp onStack with above | rest
        · have := scan.above shape above
          omega
        · rcases List.mem_cons.mp rest with self | here
          · rw [self,scan.index] at equal
            exact .inr equal.symm
          · exact .inl ⟨z,here,by rw [← indexBefore z here]; exact equal,onward⟩
      · have := scan.later
        omega
  · intro j member considered' liveImport'
    rw [lowered]
    have kept : ∀ z, Seen s.stack (comps base s) z → Seen s'.stack (comps base s') z := by
      intro z seen
      refine visit.passing.seen z (scan.passing.live z seen) ?_
      rw [ComputePackageSCCs.index,visit.frame z (scan.passing.visited z seen)]
      exact scan.passing.visited z seen
    rcases List.mem_append.mp member with earlier | last
    · obtain ⟨seen,bound⟩ := scan.scanned j earlier considered' liveImport'
      refine ⟨kept _ seen,fun here => ?_⟩
      have := bound here
      omega
    · rw [List.mem_singleton.mp last]
      refine ⟨visit.passing.seen _ liveImport visit.visited,fun here => ?_⟩
      exact absurd unseen (scan.passing.visited _ (.inl (below _ here)))
  · intro y visited unseen'
    rw [lower_index] at visited
    by_cases early : s.index y = 0
    · exact .head follows (visit.reached y visited early)
    · exact scan.reached y early unseen'

-- What the recursive calls are relied on to do.
def Connects (graph : PackageGraph Name db) (edge : ImportType) (base : ComputePackageSCCs Name) (gray : List Name)
    (connect : Name → ComputePackageSCCs Name → Option (ComputePackageSCCs Name)) (s : ComputePackageSCCs Name) : Prop :=
  (∀ y, y ∉ db.packages → connect y s = some s) ∧
  ∀ y, Live db base y → s.index y = 0 → Passing graph edge base s gray →
    (∀ g ∈ gray, ReflTransGen (Follows graph edge base) g y) → ∃ s', connect y s = some s' ∧ Visit graph edge base s gray y s'

theorem Scan.visitImport {i : Import Name} {connect : Name → ComputePackageSCCs Name → Option (ComputePackageSCCs Name)}
    (scan : Scan graph edge base before gray x done s) (listed : i ∈ graph.getImports x)
    (connects : Connects graph edge base (x :: gray) connect s) :
    ∃ s', visitImport connect edge x s i = some s' ∧ Scan graph edge base before gray x (done ++ [i]) s' := by
  obtain ⟨new,shape,bounds⟩ := scan.segment
  have onStack : x ∈ s.stack := by
    rw [shape]
    exact List.mem_append_right _ List.mem_cons_self
  unfold ComputePackageSCCs.visitImport
  by_cases considered : considers edge i = true
  swap
  · refine ⟨s,?_,scan.skip fun considered' => absurd considered' considered⟩
    rw [Bool.not_eq_true] at considered
    rw [considered,Bool.not_false,if_pos rfl]
  rw [considered,Bool.not_true,if_neg Bool.false_ne_true]
  by_cases unseen : s.index i.mangledName = 0
  · rw [if_pos unseen]
    by_cases present : i.mangledName ∈ db.packages
    · -- Packages that the pass does not visit have an index.
      have liveImport : Live db base i.mangledName := by
        refine ⟨present,?_⟩
        by_contra other
        have old := scan.passing.old i.mangledName fun live' => other live'.2
        rw [ComputePackageSCCs.index,old] at unseen
        exact other unseen
      have follows : Follows graph edge base x i.mangledName := ⟨⟨i,listed,considered,rfl⟩,liveImport⟩
      obtain ⟨s',run,visit⟩ := connects.2 _ liveImport unseen scan.passing (by
        intro g grey
        refine ReflTransGen.tail ?_ follows
        refine scan.passing.forest.down g grey x onStack ?_
        rcases List.mem_cons.mp grey with same | grey
        · exact Nat.le_of_eq (congrArg s.index same)
        · have known := start.forest.within g grey
          rw [scan.index,scan.index_known (start.visited g (.inl known))]
          exact Nat.le_of_lt (start.bounded g))
      refine ⟨_,?_,scan.visit start live fresh listed considered liveImport unseen visit⟩
      rw [run,Option.bind_eq_bind,Option.bind_some,if_neg visit.visited]
      rfl
    · refine ⟨s,?_,scan.skip fun _ live' => absurd live'.1 present⟩
      rw [connects.1 _ present,Option.bind_eq_bind,Option.bind_some,if_pos unseen]
  · rw [if_neg unseen]
    by_cases waiting : (s.nodeMap i.mangledName).onStack = true
    · rw [if_pos waiting]
      have here := (scan.passing.onStack _).mp waiting
      have follows : Follows graph edge base x i.mangledName :=
        ⟨⟨i,listed,considered,rfl⟩,scan.passing.live _ (.inl here)⟩
      have known : i.mangledName ∈ before.stack → s.index i.mangledName = before.index i.mangledName := fun below =>
        scan.index_known (start.visited _ (.inl below))
      have lowered : Scan graph edge base before gray x done (s.lower x (s.index i.mangledName)) :=
        scan.lower start live fresh (by
          rw [shape] at here
          rcases List.mem_append.mp here with above | rest
          · exact .inr (Nat.le_of_lt (scan.above shape above))
          · rcases List.mem_cons.mp rest with self | below
            · rw [self,scan.index]
              exact .inr (Nat.le_refl _)
            · exact .inl ⟨_,below,(known below).symm,.single follows⟩)
      refine ⟨_,rfl,lowered.skip fun _ _ => ⟨.inl here,fun below => ?_⟩⟩
      rw [lower_lowLink,known below]
      exact Nat.min_le_right _ _
    · rw [if_neg waiting]
      refine ⟨s,rfl,scan.skip fun _ live' => ⟨scan.passing.seen _ live' unseen,fun below => ?_⟩⟩
      refine absurd ((scan.passing.onStack _).mpr ?_) waiting
      rw [shape]
      exact List.mem_append_right _ (List.mem_cons_of_mem _ below)

theorem Scan.visitImports {rest : List (Import Name)}
    {connect : Name → ComputePackageSCCs Name → Option (ComputePackageSCCs Name)}
    (scan : Scan graph edge base before gray x done s) (listed : ∀ i ∈ rest, i ∈ graph.getImports x)
    (connects : ∀ done s, Scan graph edge base before gray x done s → Connects graph edge base (x :: gray) connect s) :
    ∃ s', rest.foldlM (ComputePackageSCCs.visitImport connect edge x) s = some s' ∧
      Scan graph edge base before gray x (done ++ rest) s' := by
  induction rest generalizing done s with
  | nil => exact ⟨s,rfl,by rwa [List.append_nil]⟩
  | cons i rest ih =>
    obtain ⟨next,run,scan'⟩ := scan.visitImport start live fresh (listed i List.mem_cons_self) (connects done s scan)
    obtain ⟨s',runs,scan''⟩ := ih scan' fun j member => listed j (List.mem_cons_of_mem _ member)
    refine ⟨s',?_,?_⟩
    · rw [List.foldlM_cons,run]
      exact runs
    · rwa [List.append_assoc,List.singleton_append] at scan''

end Scanning

section Finish
variable (begins : Begins graph edge base) (start : Passing graph edge base before gray)

omit [DecidableEq Name] in
theorem Passing.leave (passing : Passing graph edge base s (x :: gray))
    (explored : ∀ y, Follows graph edge base x y → Seen s.stack (comps base s) y)
    (lower : ∃ y ∈ s.stack, s.index y < s.index x ∧ ReflTransGen (Follows graph edge base) x y) :
    Passing graph edge base s gray :=
  {passing with forest := passing.forest.leave explored lower}

include begins start in
theorem Scan.finish (scan : Scan graph edge base before gray x (graph.getImports x) s) (fresh : before.index x = 0) :
    ∃ s', (if s.index x = (s.nodeMap x).lowLink then closeScc graph edge s x else some s) = some s' ∧
      Visit graph edge base before gray x s' := by
  obtain ⟨new,shape,bounds⟩ := scan.segment
  have explored : ∀ y, Follows graph edge base x y → Seen s.stack (comps base s) y ∧
      (y ∈ before.stack → s.lowLink x ≤ before.index y) := by
    rintro y ⟨⟨i,listed,considered,rfl⟩,liveImport⟩
    exact scan.scanned i listed considered liveImport
  have positive : before.nextIndex ≠ 0 := by
    have := start.bounded x
    omega
  have bounded : ∀ u ∈ new ++ [x], ∀ v ∈ before.stack, Follows graph edge base u v → s.lowLink x ≤ before.index v := by
    intro u member v below follows
    rcases List.mem_append.mp member with above | last
    · exact bounds u above v below follows
    · rw [List.mem_singleton.mp last] at follows
      exact (explored v follows).2 below
  by_cases root : s.index x = (s.nodeMap x).lowLink
  · rw [if_pos root]
    have inside : ∀ u ∈ new ++ [x], ∀ v ∈ before.stack, ¬ Follows graph edge base u v := by
      intro u member v below follows
      have := bounded u member v below follows
      have := start.bounded v
      rw [lowLink,← root,scan.index] at *
      omega
    obtain ⟨s',run,closed⟩ := scan.passing.closeScc begins shape start.forest.within (fun y follows => (explored y follows).1)
      inside
    have mine : s'.nodeMap x = {s.nodeMap x with onStack := false} := by
      rw [closed.nodeMap,if_pos (List.mem_append_right _ (List.mem_singleton_self x))]
    have index : ∀ q, s'.index q = s.index q := by
      intro q
      rw [ComputePackageSCCs.index,closed.nodeMap]
      split <;> rfl
    refine ⟨s',run,closed.passing,?_,?_,?_,?_,?_,fun y visited => scan.reached y (index y ▸ visited)⟩
    · rw [index,scan.index]
      exact positive
    · intro y known
      have same := scan.frame y known
      rw [closed.nodeMap,if_neg,same]
      -- What was visited before is not above x on the stack.
      intro member
      have forest := scan.passing.forest
      rw [shape] at forest
      have onStack : y ∈ s.stack := shape ▸ Forest.mem_split.mpr (.inl member)
      have waiting := (scan.passing.onStack y).mpr onStack
      rw [same] at waiting
      exact forest.segment_apart y member ((start.onStack y).mp waiting)
    · rw [closed.nextIndex]
      exact Nat.le_of_lt scan.later
    · exact ⟨[],closed.stack,fun _ impossible => (by cases impossible)⟩
    · refine .inr (Nat.le_of_eq ?_)
      rw [lowLink,mine]
      exact scan.index.symm.trans root
  · rw [if_neg root]
    have low : ∃ y ∈ before.stack, before.index y = s.lowLink x ∧ ReflTransGen (Follows graph edge base) x y := by
      rcases scan.low with found | same
      · exact found
      · exact absurd (scan.index.trans same.symm) root
    have passing : Passing graph edge base s gray := by
      refine scan.passing.leave (fun y follows => (explored y follows).1) ?_
      obtain ⟨y,below,_,path⟩ := low
      refine ⟨y,?_,?_,path⟩
      · rw [shape]
        exact List.mem_append_right _ (List.mem_cons_of_mem _ below)
      · rw [scan.index,scan.index_known (start.visited y (.inl below))]
        exact start.bounded y
    refine ⟨s,rfl,passing,?_,scan.frame,Nat.le_of_lt scan.later,⟨new ++ [x],?_,bounded⟩,.inl low,scan.reached⟩
    · rw [scan.index]
      exact positive
    · rw [List.append_assoc,List.singleton_append]
      exact shape

end Finish

section Fuel

-- The packages that are still to be visited.
def left (db : PackageDB Name) (s : ComputePackageSCCs Name) : Nat := db.packages.countP fun p => s.index p = 0

omit [DecidableEq Name] in
theorem left_le (kept : ∀ p, before.index p ≠ 0 → s.index p ≠ 0) : left db s ≤ left db before := by
  refine List.countP_mono_left ?_
  intro p _ zero
  by_contra visited
  exact kept p (by simpa using visited) (by simpa using zero)

theorem left_enter_lt (present : x ∈ db.packages) (fresh : before.index x = 0) (positive : before.nextIndex ≠ 0) :
    left db (before.enter x) < left db before := by
  have strict : ∀ l : List Name, x ∈ l → (l.countP fun p => (before.enter x).index p = 0) < l.countP fun p => before.index p = 0 := by
    intro l
    induction l with
    | nil => intro impossible; cases impossible
    | cons p l ih =>
      intro member
      have weak : (l.countP fun p => (before.enter x).index p = 0) ≤ l.countP fun p => before.index p = 0 := by
        refine List.countP_mono_left ?_
        intro q _ zero
        rw [decide_eq_true_eq,enter_index] at zero
        split at zero
        · exact absurd zero positive
        · exact decide_eq_true zero
      by_cases same : p = x
      · subst same
        rw [List.countP_cons,List.countP_cons]
        simp only [enter_index,if_true,positive,decide_false,fresh,decide_true,Bool.false_eq_true,if_false]
        simp only [enter_index] at weak
        omega
      · have rest := ih ((List.mem_cons.mp member).resolve_left (Ne.symm same))
        rw [List.countP_cons,List.countP_cons]
        simp only [enter_index,if_neg same] at rest ⊢
        omega
  exact strict db.packages present

theorem strongConnect_visits (begins : Begins graph edge base) (fuel : Nat) : ∀ x s gray, left db s < fuel → Live db base x →
    s.index x = 0 → Passing graph edge base s gray → (∀ g ∈ gray, ReflTransGen (Follows graph edge base) g x) →
    ∃ s', strongConnect graph edge fuel x s = some s' ∧ Visit graph edge base s gray x s' := by
  induction fuel with
  | zero => intro x s gray few; omega
  | succ fuel ih =>
    intro x before gray few live fresh start leads
    have positive : before.nextIndex ≠ 0 := by
      have := start.bounded x
      omega
    have fewer := left_enter_lt live.1 fresh positive
    have connects : ∀ done s, Scan graph edge base before gray x done s →
        Connects graph edge base (x :: gray) (strongConnect graph edge fuel) s := by
      intro done s scan
      have fewer' : left db s ≤ left db (before.enter x) := by
        refine left_le fun p known => ?_
        rw [enter_index] at known
        split at known
        · rename_i same
          rw [same,scan.index]
          exact positive
        · rw [ComputePackageSCCs.index,scan.frame p known]
          exact known
      constructor
      · intro y absent
        cases fuel with
        | zero => omega
        | succ fuel => exact if_pos absent
      · intro y live' fresh' passing leads'
        exact ih y s (x :: gray) (by omega) live' fresh' passing leads'
    obtain ⟨s,run,scan⟩ := (start.scan live fresh leads).visitImports start live fresh (fun i listed => listed) connects
    rw [List.nil_append] at scan
    obtain ⟨s',finished,visit⟩ := scan.finish begins start fresh
    refine ⟨s',?_,visit⟩
    rw [strongConnect,if_neg (not_not.mpr live.1),run,Option.bind_eq_bind,Option.bind_some]
    exact finished

end Fuel
end ComputePackageSCCs
end Packages
