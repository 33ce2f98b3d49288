import Mathlib.Data.List.Nodup
import Mathlib.Logic.Relation

-- A recursive walk over a graph, which visits a node before its children and turns back at
-- the nodes that it does not keep.
namespace Preorder
open Relation
variable {α σ : Type}

def visitAll (visit : α → Option (List α)) : List α → Option (List α)
  | [] => some []
  | a :: rest => (visit a).bind fun visited => (visitAll visit rest).map (visited ++ ·)

-- The nodes in the order of the visits. The fuel bounds the depth.
def visits (keep : α → Bool) (children : α → List α) : Nat → α → Option (List α)
  | 0,_ => none
  | fuel + 1,a => if keep a then (visitAll (visits keep children fuel) (children a)).map (a :: ·) else some []

def Child (keep : α → Bool) (children : α → List α) (a b : α) : Prop := keep a = true ∧ keep b = true ∧ b ∈ children a

instance [DecidableEq α] (keep : α → Bool) (children : α → List α) (a b : α) : Decidable (Child keep children a b) :=
  inferInstanceAs (Decidable (_ ∧ _ ∧ _))

def Reach (keep : α → Bool) (children : α → List α) (a b : α) : Prop :=
  keep a = true ∧ ReflTransGen (Child keep children) a b

section Several
variable {visit : α → Option (List α)} {as l before after : List α} {a b c : α}

theorem foldlM_visitAll (step : σ → α → σ) (as : List α) (st : σ) :
    as.foldlM (fun st a => (visit a).map fun visited => visited.foldl step st) st =
      (visitAll visit as).map fun visited => visited.foldl step st := by
  induction as generalizing st with
  | nil => rfl
  | cons a as ih =>
    rw [List.foldlM_cons,visitAll]
    cases visit a with
    | none => rfl
    | some visited =>
      rw [Option.map_some,Option.bind_eq_bind,Option.bind_some,ih,Option.bind_some]
      cases visitAll visit as with
      | none => rfl
      | some others => simp

theorem visitAll_isSome (each : ∀ a ∈ as, (visit a).isSome) : (visitAll visit as).isSome := by
  induction as with
  | nil => rfl
  | cons a as ih =>
    obtain ⟨visited,run⟩ := Option.isSome_iff_exists.mp (each a List.mem_cons_self)
    obtain ⟨others,runs⟩ := Option.isSome_iff_exists.mp (ih fun b member => each b (List.mem_cons_of_mem a member))
    simp [visitAll,run,runs]

theorem visitAll_cons (runs : visitAll visit (a :: as) = some l) :
    ∃ visited others, visit a = some visited ∧ visitAll visit as = some others ∧ l = visited ++ others := by
  obtain ⟨visited,run,more⟩ := Option.bind_eq_some_iff.mp runs
  obtain ⟨others,rest,rfl⟩ := Option.map_eq_some_iff.mp more
  exact ⟨visited,others,run,rest,rfl⟩

theorem visitAll_each (runs : visitAll visit as = some l) (member : a ∈ as) : ∃ visited, visit a = some visited := by
  induction as generalizing l with
  | nil => cases member
  | cons b as ih =>
    obtain ⟨visited,others,run,rest,_⟩ := visitAll_cons runs
    rcases List.mem_cons.mp member with rfl | later
    · exact ⟨visited,run⟩
    · exact ih rest later

theorem mem_visitAll (runs : visitAll visit as = some l) :
    b ∈ l ↔ ∃ a ∈ as, ∃ visited, visit a = some visited ∧ b ∈ visited := by
  induction as generalizing l with
  | nil =>
    cases runs
    simp
  | cons a as ih =>
    obtain ⟨visited,others,run,rest,rfl⟩ := visitAll_cons runs
    simp [ih rest,run]

-- A visit inside one of several walks, with what this walk has visited before.
theorem visitAll_split (runs : visitAll visit as = some (before ++ b :: after)) :
    ∃ a ∈ as, ∃ earlier near later, before = earlier ++ near ∧ visit a = some (near ++ b :: later) := by
  induction as generalizing before with
  | nil => simp [visitAll] at runs
  | cons a as ih =>
    obtain ⟨visited,others,run,rest,split⟩ := visitAll_cons runs
    rcases List.append_eq_append_iff.mp split with ⟨more,rfl,tail⟩ | ⟨more,front,tail⟩
    · cases more with
      | nil =>
        obtain ⟨c,member,earlier,near,later,apart,at_⟩ := ih (rest.trans (congrArg some tail.symm) : _ = some ([] ++ b :: after))
        obtain ⟨rfl,rfl⟩ := List.append_eq_nil_iff.mp apart.symm
        exact ⟨c,List.mem_cons_of_mem a member,before,[],later,(List.append_nil _).symm,at_⟩
      | cons c more =>
        obtain ⟨rfl,_⟩ := List.cons_eq_cons.mp tail
        exact ⟨a,List.mem_cons_self,[],before,more,rfl,run⟩
    · obtain ⟨c,member,earlier,near,later,rfl,at_⟩ := ih (rest.trans (congrArg some tail))
      exact ⟨c,List.mem_cons_of_mem a member,visited ++ earlier,near,later,by rw [front,List.append_assoc],at_⟩

-- A node that several walks visit twice is visited twice by one of them, or by two.
theorem visitAll_twice (apart : as.Pairwise fun a c => (∃ visited, visit a = some visited ∧ b ∈ visited) → a ≠ c)
    (runs : visitAll visit as = some (before ++ b :: after)) (again : b ∈ before) :
    (∃ a ∈ as, ∃ near later, visit a = some (near ++ b :: later) ∧ b ∈ near) ∨
      ∃ a ∈ as, ∃ c ∈ as, a ≠ c ∧ (∃ visited, visit a = some visited ∧ b ∈ visited) ∧
        ∃ visited, visit c = some visited ∧ b ∈ visited := by
  induction as generalizing before with
  | nil => simp [visitAll] at runs
  | cons a as ih =>
    obtain ⟨visited,others,run,rest,split⟩ := visitAll_cons runs
    obtain ⟨ahead,apart⟩ := List.pairwise_cons.mp apart
    have across : b ∈ visited → b ∈ others → ∃ a' ∈ a :: as, ∃ c ∈ a :: as, a' ≠ c ∧
        (∃ visited, visit a' = some visited ∧ b ∈ visited) ∧ ∃ visited, visit c = some visited ∧ b ∈ visited := by
      intro first second
      obtain ⟨c,member,inner,run',second⟩ := (mem_visitAll rest).mp second
      exact ⟨a,List.mem_cons_self,c,List.mem_cons_of_mem a member,ahead c member ⟨visited,run,first⟩,⟨visited,run,first⟩,
        inner,run',second⟩
    rcases List.append_eq_append_iff.mp split with ⟨more,front,tail⟩ | ⟨more,front,tail⟩
    · cases more with
      | nil =>
        rw [List.append_nil] at front
        rw [List.nil_append] at tail
        exact .inr (across (front ▸ again) (tail ▸ List.mem_cons_self))
      | cons c more =>
        obtain ⟨rfl,_⟩ := List.cons_eq_cons.mp tail
        exact .inl ⟨a,List.mem_cons_self,before,more,front ▸ run,again⟩
    · rw [front] at again
      rcases List.mem_append.mp again with first | later
      · exact .inr (across first (tail ▸ List.mem_append_right more List.mem_cons_self))
      · rcases ih apart (rest.trans (congrArg some tail)) later with ⟨c,member,twice⟩ | ⟨c,member,d,member',two⟩
        · exact .inl ⟨c,List.mem_cons_of_mem a member,twice⟩
        · exact .inr ⟨c,List.mem_cons_of_mem a member,d,List.mem_cons_of_mem a member',two⟩

theorem visitAll_sublist {visited : List α} (runs : visitAll visit as = some l) (member : a ∈ as) (run : visit a = some visited) :
    visited.Sublist l := by
  induction as generalizing l with
  | nil => cases member
  | cons c as ih =>
    obtain ⟨visited',others,run',rest,rfl⟩ := visitAll_cons runs
    rcases List.mem_cons.mp member with rfl | later
    · cases run.symm.trans run'
      exact List.sublist_append_left visited others
    · exact (ih rest later).trans (List.sublist_append_right visited' others)

theorem visitAll_both {first second : List α} (runs : visitAll visit as = some l) (inA : a ∈ as) (inC : c ∈ as) (other : a ≠ c)
    (runA : visit a = some first) (runC : visit c = some second) (one : b ∈ first) (two : b ∈ second) : [b,b].Sublist l := by
  induction as generalizing l with
  | nil => cases inA
  | cons d as ih =>
    obtain ⟨visited,others,run,rest,rfl⟩ := visitAll_cons runs
    have across : b ∈ visited → b ∈ others → [b,b].Sublist (visited ++ others) := fun here there =>
      (List.singleton_sublist.mpr here).append (List.singleton_sublist.mpr there)
    rcases List.mem_cons.mp inA with rfl | laterA
    · cases runA.symm.trans run
      have laterC := (List.mem_cons.mp inC).resolve_left (Ne.symm other)
      exact across one ((visitAll_sublist rest laterC runC).mem two)
    · rcases List.mem_cons.mp inC with rfl | laterC
      · cases runC.symm.trans run
        exact across two ((visitAll_sublist rest laterA runA).mem one)
      · exact (ih rest laterA laterC).trans (List.sublist_append_right visited others)

end Several

section Walk
variable {keep : α → Bool} {children : α → List α} {fuel : Nat} {a b c : α} {l before after : List α}

theorem Child.reach (child : Child keep children a b) : Reach keep children a b := ⟨child.1,.single child⟩

theorem Reach.self (kept : keep a = true) : Reach keep children a a := ⟨kept,.refl⟩

theorem Reach.trans (first : Reach keep children a b) (second : Reach keep children b c) : Reach keep children a c :=
  ⟨first.1,first.2.trans second.2⟩

theorem Reach.step (reach : Reach keep children a b) (child : Child keep children b c) : Reach keep children a c :=
  ⟨reach.1,reach.2.tail child⟩

theorem Reach.kept (reach : Reach keep children a b) : keep b = true := by
  rcases reach.2.cases_tail with rfl | ⟨p,_,child⟩
  · exact reach.1
  · exact child.2.1

-- The last step of a walk that goes anywhere.
theorem Reach.parent (reach : Reach keep children a b) (other : b ≠ a) :
    ∃ p, Reach keep children a p ∧ Child keep children p b := by
  rcases reach.2.cases_tail with same | ⟨p,above,child⟩
  · exact absurd same other
  · exact ⟨p,⟨reach.1,above⟩,child⟩

theorem visits_kept (kept : keep a = true) :
    visits keep children (fuel + 1) a = (visitAll (visits keep children fuel) (children a)).map (a :: ·) := if_pos kept

theorem visits_skipped (skipped : keep a = false) : visits keep children (fuel + 1) a = some [] :=
  if_neg (by simp [skipped])

theorem kept_of_visits (run : visits keep children fuel a = some l) (member : b ∈ l) : keep a = true := by
  by_contra skipped
  cases fuel with
  | zero => cases run
  | succ fuel =>
    rw [visits_skipped (Bool.eq_false_iff.mpr skipped)] at run
    cases run
    cases member

theorem visits_cases (run : visits keep children (fuel + 1) a = some l) (kept : keep a = true) :
    ∃ visited, visitAll (visits keep children fuel) (children a) = some visited ∧ l = a :: visited := by
  rw [visits_kept kept] at run
  obtain ⟨visited,runs,rfl⟩ := Option.map_eq_some_iff.mp run
  exact ⟨visited,runs,rfl⟩

theorem mem_visits (run : visits keep children fuel a = some l) : b ∈ l ↔ Reach keep children a b := by
  induction fuel generalizing a l with
  | zero => cases run
  | succ fuel ih =>
    by_cases kept : keep a = true
    · obtain ⟨visited,runs,rfl⟩ := visits_cases run kept
      rw [List.mem_cons,mem_visitAll runs]
      constructor
      · rintro (rfl | ⟨c,member,inner,run,visited⟩)
        · exact .self kept
        · have below := (ih run).mp visited
          exact Reach.trans (Child.reach ⟨kept,below.1,member⟩) below
      · intro reach
        rcases reach.2.cases_head with same | ⟨c,child,below⟩
        · exact .inl same.symm
        · -- Each child was walked, as the walk over all of them ended.
          obtain ⟨inner,run⟩ := visitAll_each runs child.2.2
          exact .inr ⟨c,child.2.2,inner,run,(ih run).mpr ⟨child.2.1,below⟩⟩
    · rw [visits_skipped (Bool.eq_false_iff.mpr kept)] at run
      cases run
      exact iff_of_false List.not_mem_nil fun reach => kept reach.1

-- A node other than the first is visited after one of its parents.
theorem visits_parent (run : visits keep children fuel a = some (before ++ b :: after)) :
    before = [] ∧ b = a ∨ ∃ p ∈ before, Child keep children p b := by
  induction fuel generalizing a before after with
  | zero => cases run
  | succ fuel ih =>
    have kept := kept_of_visits run (List.mem_append_right before List.mem_cons_self)
    obtain ⟨visited,runs,split⟩ := visits_cases run kept
    cases before with
    | nil => exact .inl ⟨rfl,(List.cons_eq_cons.mp split).1⟩
    | cons first before =>
      obtain ⟨rfl,rfl⟩ := List.cons_eq_cons.mp split
      obtain ⟨c,member,earlier,near,later,rfl,inner⟩ := visitAll_split runs
      apply Or.inr
      rcases ih inner with ⟨_,same⟩ | ⟨p,inside,child⟩
      · subst same
        have keptChild := kept_of_visits inner (List.mem_append_right near List.mem_cons_self)
        exact ⟨_,List.mem_cons_self,kept,keptChild,member⟩
      · exact ⟨p,List.mem_cons_of_mem _ (List.mem_append_right earlier inside),child⟩

end Walk

section Ranked
variable {keep : α → Bool} {children : α → List α} {rank : α → Nat} {fuel top : Nat} {a b c : α} {l : List α}

theorem rank_le (deeper : ∀ a b, Child keep children a b → rank a < rank b) (reach : Reach keep children a b) :
    rank a ≤ rank b := by
  obtain ⟨_,path⟩ := reach
  induction path with
  | refl => exact Nat.le_refl _
  | tail _ child ih => exact Nat.le_trans ih (Nat.le_of_lt (deeper _ _ child))

theorem visits_isSome (deeper : ∀ a b, Child keep children a b → rank a < rank b) (bounded : ∀ a, keep a = true → rank a < top)
    (some_ : 0 < fuel) (enough : keep a = true → top < rank a + fuel) : (visits keep children fuel a).isSome := by
  induction fuel generalizing a with
  | zero => exact absurd some_ (Nat.lt_irrefl 0)
  | succ fuel ih =>
    by_cases kept : keep a = true
    · rw [visits_kept kept,Option.isSome_map]
      apply visitAll_isSome
      intro b member
      have inside := bounded a kept
      have enough := enough kept
      apply ih
      · omega
      · intro keptChild
        have below := deeper a b ⟨kept,keptChild,member⟩
        omega
    · rw [visits_skipped (Bool.eq_false_iff.mpr kept)]
      rfl

-- What lies below two parents of one node is visited twice.
theorem visits_twice (deeper : ∀ a b, Child keep children a b → rank a < rank b) {p q : α} (other : p ≠ q)
    (toP : Reach keep children a p) (toQ : Reach keep children a q) (fromP : Child keep children p b)
    (fromQ : Child keep children q b) (below : Reach keep children b c) (run : visits keep children fuel a = some l) :
    [c,c].Sublist l := by
  induction fuel generalizing a l with
  | zero => cases run
  | succ fuel ih =>
    obtain ⟨visited,runs,rfl⟩ := visits_cases run toP.1
    apply List.Sublist.cons
    -- The node itself is one child, and it does not lead to its other parent.
    have direct : ∀ q t, Child keep children a b → Child keep children q b → Child keep children a t →
        Reach keep children t q → [c,c].Sublist visited := by
      intro q t fromA fromQ child reach
      have apart : t ≠ b := by
        rintro rfl
        exact absurd (rank_le deeper reach) (Nat.not_le.mpr (deeper q t fromQ))
      obtain ⟨first,run⟩ := visitAll_each runs child.2.2
      obtain ⟨second,run'⟩ := visitAll_each runs fromA.2.2
      exact visitAll_both runs child.2.2 fromA.2.2 apart run run' ((mem_visits run).mpr ((reach.step fromQ).trans below))
        ((mem_visits run').mpr below)
    rcases toP.2.cases_head with rfl | ⟨d,childD,downD⟩
    · rcases toQ.2.cases_head with same | ⟨e,childE,downE⟩
      · exact absurd same other
      · exact direct q e fromP fromQ childE ⟨childE.2.1,downE⟩
    · rcases toQ.2.cases_head with rfl | ⟨e,childE,downE⟩
      · exact direct p d fromQ fromP childD ⟨childD.2.1,downD⟩
      · obtain ⟨first,run⟩ := visitAll_each runs childD.2.2
        by_cases same : d = e
        · subst same
          exact (ih ⟨childD.2.1,downD⟩ ⟨childE.2.1,downE⟩ run).trans (visitAll_sublist runs childD.2.2 run)
        · obtain ⟨second,run'⟩ := visitAll_each runs childE.2.2
          have reachD : Reach keep children d c := (Reach.step ⟨childD.2.1,downD⟩ fromP).trans below
          have reachE : Reach keep children e c := (Reach.step ⟨childE.2.1,downE⟩ fromQ).trans below
          exact visitAll_both runs childD.2.2 childE.2.2 same run run' ((mem_visits run).mpr reachD) ((mem_visits run').mpr reachE)

end Ranked

-- A part of the graph in which a node has one parent at most.
structure Forest (keep : α → Bool) (children : α → List α) (tree : α → Prop) : Prop where
  between : ∀ a b c, tree a → Reach keep children a b → Reach keep children b c → tree c → tree b
  unique : ∀ p q b, tree p → tree q → tree b → Child keep children p b → Child keep children q b → p = q

section Trees
variable {keep : α → Bool} {children : α → List α} {tree : α → Prop} {rank : α → Nat} {fuel : Nat} {a b c t : α}
  {before after : List α}

theorem Forest.comparable (forest : Forest keep children tree) (inA : tree a) (inB : tree b) (inC : tree c)
    (first : Reach keep children a c) (second : Reach keep children b c) :
    Reach keep children a b ∨ Reach keep children b a := by
  obtain ⟨kept,path⟩ := first
  induction path with
  | refl => exact .inr second
  | @tail p c path child ih =>
    by_cases same : c = b
    · exact .inl ⟨kept,same ▸ path.tail child⟩
    · obtain ⟨q,above,child'⟩ := second.parent same
      have inP := forest.between a p c inA ⟨kept,path⟩ child.reach inC
      have inQ := forest.between b q c inB above child'.reach inC
      exact ih inP (forest.unique p q c inP inQ inC child child' ▸ above)

theorem visits_fresh (forest : Forest keep children tree) (deeper : ∀ a b, Child keep children a b → rank a < rank b)
    (apart : ∀ a, keep a = true → (children a).Pairwise fun b c => keep b = true → b ≠ c) (inA : tree a) (inB : tree b)
    (run : visits keep children fuel a = some (before ++ b :: after)) : b ∉ before := by
  induction fuel generalizing a before after with
  | zero => cases run
  | succ fuel ih =>
    have kept := kept_of_visits run (List.mem_append_right before List.mem_cons_self)
    obtain ⟨visited,runs,split⟩ := visits_cases run kept
    cases before with
    | nil => exact List.not_mem_nil
    | cons first before =>
      obtain ⟨rfl,rfl⟩ := List.cons_eq_cons.mp split
      have inside : ∀ c ∈ children first, Reach keep children c b → Child keep children first c ∧ tree c := by
        intro c member below
        have child : Child keep children first c := ⟨kept,below.1,member⟩
        exact ⟨child,forest.between first c b inA child.reach below inB⟩
      intro again
      rcases List.mem_cons.mp again with rfl | again
      · obtain ⟨c,member,inner,run,visited⟩ := (mem_visitAll runs).mp (List.mem_append_right before List.mem_cons_self)
        have below := (mem_visits run).mp visited
        have step := deeper b c (inside c member below).1
        have back := rank_le deeper below
        omega
      · have distinct : (children first).Pairwise fun c d =>
            (∃ visited, visits keep children fuel c = some visited ∧ b ∈ visited) → c ≠ d := by
          apply (apart first kept).imp
          intro c d other ⟨_,run,visited⟩
          exact other (kept_of_visits run visited)
        rcases visitAll_twice distinct runs again with ⟨c,member,near,later,run,twice⟩ |
          ⟨c,member,d,member',other,⟨inner,run,visited⟩,inner',run',visited'⟩
        · have below := (mem_visits run).mp (List.mem_append_right near List.mem_cons_self)
          exact ih (inside c member below).2 run twice
        · -- One of the two children would be below the other, and so below its own parent.
          have below := (mem_visits run).mp visited
          have below' := (mem_visits run').mp visited'
          obtain ⟨child,inC⟩ := inside c member below
          obtain ⟨child',inD⟩ := inside d member' below'
          have above : ∀ c d, Child keep children first c → Child keep children first d → tree c → tree d → c ≠ d →
              ¬Reach keep children c d := by
            intro c d child child' inC inD other reach
            obtain ⟨p,down,last⟩ := reach.parent (Ne.symm other)
            have inP := forest.between c p d inC down last.reach inD
            have same := forest.unique p first d inP inA inD last child'
            have step := deeper first c child
            have back := rank_le deeper down
            rw [same] at back
            omega
          rcases forest.comparable inC inD inB below below' with reach | reach
          · exact above c d child child' inC inD other reach
          · exact above d c child' child inD inC (Ne.symm other) reach

-- A node of the tree comes before those below it.
theorem visits_before (forest : Forest keep children tree) (deeper : ∀ a b, Child keep children a b → rank a < rank b)
    (inA : tree a) (inC : tree c) (run : visits keep children fuel a = some (before ++ c :: after))
    (above : Reach keep children a t) (reach : Reach keep children t c) (other : t ≠ c) : t ∈ before := by
  have inT := forest.between a t c inA above reach inC
  obtain ⟨kept,path⟩ := reach
  induction path generalizing before after with
  | refl => exact absurd rfl other
  | @tail p c path child ih =>
    have inP := forest.between t p c inT ⟨kept,path⟩ child.reach inC
    rcases visits_parent run with ⟨_,rfl⟩ | ⟨q,earlier,child'⟩
    · -- The first node is above all others.
      have step := deeper p c child
      have back := rank_le deeper above
      have down := rank_le deeper ⟨kept,path⟩
      omega
    · have found := (mem_visits run).mp (List.mem_append_left _ earlier)
      have inQ := forest.between a q c inA found child'.reach inC
      have same := forest.unique p q c inP inQ inC child child'
      subst same
      by_cases here : t = p
      · exact here ▸ earlier
      · obtain ⟨front,back,rfl⟩ := List.append_of_mem earlier
        rw [List.append_assoc,List.cons_append] at run
        exact List.mem_append_left _ (ih inP run here)

end Trees

end Preorder
