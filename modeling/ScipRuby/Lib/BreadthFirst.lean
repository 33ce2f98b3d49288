import Mathlib.Data.List.Chain
import Mathlib.Data.List.Nodup
import ScipRuby.Lib.Worklist

-- A breadth-first search whose queue may hold an item many times, and which notes on the
-- first discovery of an item from where it was discovered.
namespace BreadthFirst
open Relation Worklist
variable {α : Type} [DecidableEq α]

-- The items of a queue that will be visited, in this order.
def upcoming : List α → List α → List α
  | _,[] => []
  | visited,x :: queue => if x ∈ visited then upcoming visited queue else x :: upcoming (x :: visited) queue

section Upcoming
variable {visited queue : List α} {x y : α}

theorem upcoming_seen (seen : x ∈ visited) : upcoming visited (x :: queue) = upcoming visited queue := if_pos seen

theorem upcoming_fresh (fresh : x ∉ visited) :
    upcoming visited (x :: queue) = x :: upcoming (x :: visited) queue := if_neg fresh

theorem mem_upcoming : x ∈ upcoming visited queue ↔ x ∈ queue ∧ x ∉ visited := by
  induction queue generalizing visited with
  | nil => simp [upcoming]
  | cons y queue ih =>
    by_cases seen : y ∈ visited
    · rw [upcoming_seen seen,ih,List.mem_cons]
      constructor
      · rintro ⟨later,fresh⟩
        exact ⟨.inr later,fresh⟩
      · rintro ⟨rfl | later,fresh⟩
        · exact absurd seen fresh
        · exact ⟨later,fresh⟩
    · rw [upcoming_fresh seen,List.mem_cons,ih,List.mem_cons,List.mem_cons]
      by_cases same : x = y
      · subst same
        simp [seen]
      · simp [same]

theorem upcoming_push_known (known : y ∈ visited ∨ y ∈ queue) :
    upcoming visited (queue ++ [y]) = upcoming visited queue := by
  induction queue generalizing visited with
  | nil => exact upcoming_seen (known.resolve_right List.not_mem_nil)
  | cons x queue ih =>
    rw [List.cons_append]
    by_cases seen : x ∈ visited
    · rw [upcoming_seen seen,upcoming_seen seen]
      apply ih
      rcases known with old | member
      · exact .inl old
      · rcases List.mem_cons.mp member with rfl | later
        · exact .inl seen
        · exact .inr later
    · rw [upcoming_fresh seen,upcoming_fresh seen,ih]
      rcases known with old | member
      · exact .inl (List.mem_cons_of_mem x old)
      · rcases List.mem_cons.mp member with rfl | later
        · exact .inl List.mem_cons_self
        · exact .inr later

theorem upcoming_push_new (fresh : y ∉ visited) (absent : y ∉ queue) :
    upcoming visited (queue ++ [y]) = upcoming visited queue ++ [y] := by
  induction queue generalizing visited with
  | nil => exact upcoming_fresh fresh
  | cons x queue ih =>
    rw [List.mem_cons,not_or] at absent
    rw [List.cons_append]
    by_cases seen : x ∈ visited
    · rw [upcoming_seen seen,upcoming_seen seen,ih fresh absent.2]
    · rw [upcoming_fresh seen,upcoming_fresh seen,ih _ absent.2,List.cons_append]
      rw [List.mem_cons,not_or]
      exact ⟨absent.1,fresh⟩

end Upcoming

-- The state of the search while the successors of the current item, which is at the given
-- depth, are discovered. Those in todo are still to come.
structure Layered (next : α → List α) (src : α) (visited queue : List α) (prev : α → Option α) (level : α → Nat)
    (depth : Nat) (current : α) (todo : List α) : Prop where
  source : level src = 0 ∧ prev src = none ∧ (src ∈ visited ∨ visited = [] ∧ queue = [src])
  known : ∀ x, x ∈ visited ∨ x ∈ queue → x = src ∨ ∃ y, prev x = some y
  back : ∀ x y, prev x = some y → (x ∈ visited ∨ x ∈ queue) ∧ Edge next y x ∧ level x = level y + 1
  tail : ∀ x y, prev x = some y → y ∈ visited
  closed : ∀ x ∈ visited, ∀ y, Edge next x y →
    (x = current ∧ y ∈ todo) ∨ ((y ∈ visited ∨ y ∈ queue) ∧ level y ≤ level x + 1)
  low : ∀ x ∈ visited, level x ≤ depth
  near : ∀ x ∈ upcoming visited queue, depth ≤ level x ∧ level x ≤ depth + 1
  sorted : (upcoming visited queue).Pairwise fun x y => level x ≤ level y
  here : todo ≠ [] → current ∈ visited ∧ level current = depth

section Rules
variable {next : α → List α} {src x y current : α} {visited queue todo : List α} {prev : α → Option α} {level : α → Nat}
  {depth : Nat}

theorem layered_start (next : α → List α) (src : α) : Layered next src [] [src] (fun _ => none) (fun _ => 0) 0 src [] where
  source := ⟨rfl,rfl,.inr ⟨rfl,rfl⟩⟩
  known x either := .inl (List.mem_singleton.mp (either.resolve_left List.not_mem_nil))
  back _ _ found := by cases found
  tail _ _ found := by cases found
  closed _ member := by cases member
  low _ member := by cases member
  near _ _ := ⟨Nat.le_refl _,Nat.zero_le _⟩
  sorted := List.pairwise_singleton _ _
  here some := absurd rfl some

omit [DecidableEq α] in
theorem mem_skip (seen : x ∈ visited) : (y ∈ visited ∨ y ∈ x :: queue) ↔ (y ∈ visited ∨ y ∈ queue) := by
  constructor
  · rintro (old | member)
    · exact .inl old
    · rcases List.mem_cons.mp member with rfl | later
      · exact .inl seen
      · exact .inr later
  · exact Or.imp_right (List.mem_cons_of_mem x)

theorem Layered.skip (layered : Layered next src visited (x :: queue) prev level depth current []) (seen : x ∈ visited) :
    Layered next src visited queue prev level depth current [] := by
  obtain ⟨⟨zero,none,begun⟩,known,back,tail,closed,low,near,sorted,here⟩ := layered
  simp only [mem_skip seen] at known back closed
  rw [upcoming_seen seen] at near sorted
  have begun' : src ∈ visited := begun.resolve_right fun empty => List.not_mem_nil (empty.1 ▸ seen)
  exact ⟨⟨zero,none,.inl begun'⟩,known,back,tail,closed,low,near,sorted,here⟩

omit [DecidableEq α] in
theorem mem_visit : (y ∈ x :: visited ∨ y ∈ queue) ↔ (y ∈ visited ∨ y ∈ x :: queue) := by
  rw [List.mem_cons,List.mem_cons,or_assoc,or_left_comm]

-- The first item that is visited opens its layer.
theorem Layered.visit (layered : Layered next src visited (x :: queue) prev level depth current []) (fresh : x ∉ visited) :
    Layered next src (x :: visited) queue prev level (level x) x (next x) := by
  obtain ⟨⟨zero,none,begun⟩,known,back,tail,closed,low,near,sorted,here⟩ := layered
  rw [upcoming_fresh fresh] at near sorted
  obtain ⟨least,sorted⟩ := List.pairwise_cons.mp sorted
  obtain ⟨above,_⟩ := near x List.mem_cons_self
  refine ⟨⟨zero,none,.inl ?_⟩,?_,?_,?_,?_,?_,?_,sorted,fun _ => ⟨List.mem_cons_self,rfl⟩⟩
  · rcases begun with old | ⟨_,only⟩
    · exact List.mem_cons_of_mem x old
    · rw [(List.cons.inj only).1]
      exact List.mem_cons_self
  · intro y either
    exact known y (mem_visit.mp either)
  · intro y z found
    obtain ⟨either,rest⟩ := back y z found
    exact ⟨mem_visit.mpr either,rest⟩
  · intro y z found
    exact List.mem_cons_of_mem x (tail y z found)
  · intro y member z edge
    rcases List.mem_cons.mp member with rfl | old
    · exact .inl ⟨rfl,edge⟩
    · rcases closed y old z edge with ⟨_,none⟩ | ⟨either,bound⟩
      · cases none
      · exact .inr ⟨mem_visit.mpr either,bound⟩
  · intro y member
    rcases List.mem_cons.mp member with rfl | old
    · exact Nat.le_refl _
    · exact (low y old).trans above
  · intro y member
    exact ⟨least y member,(near y (List.mem_cons_of_mem x member)).2.trans (Nat.succ_le_succ above)⟩

-- A successor that is visited is passed over.
theorem Layered.pass (layered : Layered next src visited queue prev level depth current (y :: todo)) (seen : y ∈ visited) :
    Layered next src visited queue prev level depth current todo := by
  obtain ⟨member,atDepth⟩ := layered.here (List.cons_ne_nil y todo)
  refine {layered with closed := fun x inside z edge => ?_,here := fun _ => ⟨member,atDepth⟩}
  rcases layered.closed x inside z edge with ⟨rfl,waiting⟩ | done
  · rcases List.mem_cons.mp waiting with rfl | later
    · rw [atDepth]
      exact .inr ⟨.inl seen,(layered.low z seen).trans (Nat.le_succ _)⟩
    · exact .inl ⟨rfl,later⟩
  · exact .inr done

omit [DecidableEq α] in
theorem mem_push : (x ∈ visited ∨ x ∈ queue) → (x ∈ visited ∨ x ∈ queue ++ [y]) := Or.imp_right (List.mem_append_left [y])

-- One that waits in the queue waits there once more.
theorem Layered.again (layered : Layered next src visited queue prev level depth current (y :: todo)) (fresh : y ∉ visited)
    (waits : y ∈ queue) : Layered next src visited (queue ++ [y]) prev level depth current todo := by
  obtain ⟨member,atDepth⟩ := layered.here (List.cons_ne_nil y todo)
  have same : ∀ x, x ∈ visited ∨ x ∈ queue ++ [y] → x ∈ visited ∨ x ∈ queue := by
    rintro x (old | pushed)
    · exact .inl old
    · rcases List.mem_append.mp pushed with later | new
      · exact .inr later
      · exact .inr (List.mem_singleton.mp new ▸ waits)
  refine ⟨⟨layered.source.1,layered.source.2.1,.inl ?_⟩,?_,?_,layered.tail,?_,layered.low,?_,?_,fun _ => ⟨member,atDepth⟩⟩
  · exact layered.source.2.2.resolve_right fun empty => List.not_mem_nil (empty.1 ▸ member)
  · intro x either
    exact layered.known x (same x either)
  · intro x z found
    exact (layered.back x z found).imp_left mem_push
  · intro x inside z edge
    rcases layered.closed x inside z edge with ⟨rfl,waiting⟩ | ⟨either,bound⟩
    · rcases List.mem_cons.mp waiting with rfl | later
      · rw [atDepth]
        exact .inr ⟨mem_push (.inr waits),(layered.near z (mem_upcoming.mpr ⟨waits,fresh⟩)).2⟩
      · exact .inl ⟨rfl,later⟩
    · exact .inr ⟨mem_push either,bound⟩
  · rw [upcoming_push_known (.inr waits)]
    exact layered.near
  · rw [upcoming_push_known (.inr waits)]
    exact layered.sorted

-- One that is new joins the next layer.
theorem Layered.discover (layered : Layered next src visited queue prev level depth current (y :: todo)) (fresh : y ∉ visited)
    (new : prev y = none) (edge : Edge next current y) : Layered next src visited (queue ++ [y])
      (Function.update prev y (some current)) (Function.update level y (depth + 1)) depth current todo := by
  obtain ⟨member,atDepth⟩ := layered.here (List.cons_ne_nil y todo)
  have begun : src ∈ visited := layered.source.2.2.resolve_right fun empty => List.not_mem_nil (empty.1 ▸ member)
  have notSource : src ≠ y := fun same => fresh (same ▸ begun)
  have absent : y ∉ queue := by
    intro waits
    rcases layered.known y (.inr waits) with same | ⟨z,found⟩
    · exact notSource same.symm
    · cases new.symm.trans found
  have visitedNe : ∀ x ∈ visited, x ≠ y := fun x inside same => fresh (same ▸ inside)
  have knownNe : ∀ x, x ∈ visited ∨ x ∈ queue → x ≠ y := by
    rintro x (inside | waits) rfl
    · exact fresh inside
    · exact absent waits
  refine ⟨⟨?_,?_,.inl begun⟩,?_,?_,?_,?_,?_,?_,?_,fun _ => ⟨member,?_⟩⟩
  · rw [Function.update_of_ne notSource]
    exact layered.source.1
  · rw [Function.update_of_ne notSource]
    exact layered.source.2.1
  · intro x either
    by_cases same : x = y
    · subst same
      exact .inr ⟨current,Function.update_self x (some current) prev⟩
    · rw [Function.update_of_ne same]
      apply layered.known
      rcases either with old | pushed
      · exact .inl old
      · exact .inr ((List.mem_append.mp pushed).resolve_right fun last => same (List.mem_singleton.mp last))
  · intro x z found
    by_cases same : x = y
    · subst same
      rw [Function.update_self] at found
      cases found
      refine ⟨.inr (List.mem_append_right _ List.mem_cons_self),edge,?_⟩
      rw [Function.update_self,Function.update_of_ne (visitedNe _ member),atDepth]
    · rw [Function.update_of_ne same] at found
      obtain ⟨either,step,up⟩ := layered.back x z found
      refine ⟨mem_push either,step,?_⟩
      rw [Function.update_of_ne same,Function.update_of_ne (visitedNe _ (layered.tail x z found))]
      exact up
  · intro x z found
    by_cases same : x = y
    · subst same
      rw [Function.update_self] at found
      cases found
      exact member
    · rw [Function.update_of_ne same] at found
      exact layered.tail x z found
  · intro x inside z step
    rw [Function.update_of_ne (visitedNe x inside)]
    rcases layered.closed x inside z step with ⟨rfl,waiting⟩ | ⟨either,bound⟩
    · rcases List.mem_cons.mp waiting with rfl | later
      · rw [Function.update_self,atDepth]
        exact .inr ⟨.inr (List.mem_append_right _ List.mem_cons_self),Nat.le_refl _⟩
      · exact .inl ⟨rfl,later⟩
    · rw [Function.update_of_ne (knownNe z either)]
      exact .inr ⟨mem_push either,bound⟩
  · intro x inside
    rw [Function.update_of_ne (visitedNe x inside)]
    exact layered.low x inside
  · intro x coming
    rw [upcoming_push_new fresh absent] at coming
    rcases List.mem_append.mp coming with old | last
    · rw [Function.update_of_ne (knownNe x (.inr (mem_upcoming.mp old).1))]
      exact layered.near x old
    · rw [List.mem_singleton.mp last,Function.update_self]
      exact ⟨Nat.le_succ depth,Nat.le_refl _⟩
  · rw [upcoming_push_new fresh absent,List.pairwise_append]
    refine ⟨?_,List.pairwise_singleton _ _,?_⟩
    · apply layered.sorted.imp_of_mem
      intro x z hx hz le
      rw [Function.update_of_ne (knownNe x (.inr (mem_upcoming.mp hx).1)),
        Function.update_of_ne (knownNe z (.inr (mem_upcoming.mp hz).1))]
      exact le
    · intro x old z last
      rw [List.mem_singleton.mp last,Function.update_self,Function.update_of_ne (knownNe x (.inr (mem_upcoming.mp old).1))]
      exact (layered.near x old).2
  · rw [Function.update_of_ne (visitedNe _ member)]
    exact atDepth

end Rules

structure Path (next : α → List α) (src dest : α) (path : List α) : Prop where
  first : path.head? = some src
  last : path.getLast? = some dest
  chain : path.IsChain (Edge next)

-- The way back that prev records.
inductive Back (prev : α → Option α) (src : α) : α → List α → Prop where
  | source : Back prev src src [src]
  | step {x y : α} {path : List α} : x ≠ src → prev x = some y → Back prev src y path → Back prev src x (x :: path)

section Routes
variable {next : α → List α} {src dest x : α} {path : List α}

omit [DecidableEq α] in
theorem Path.reaches (route : Path next src dest path) : ReflTransGen (Edge next) src dest := by
  obtain ⟨first,last,chain⟩ := route
  cases path with
  | nil => cases first
  | cons start path =>
    cases first
    exact List.relationReflTransGen_of_exists_isChain_cons path chain
      (Option.some.inj ((List.getLast?_eq_getLast_of_ne_nil (List.cons_ne_nil _ _)).symm.trans last))

omit [DecidableEq α] in
theorem Path.entered (route : Path next src dest path) (member : x ∈ path) : x = src ∨ ∃ y, Edge next y x := by
  obtain ⟨first,last,chain⟩ := route
  induction path generalizing src with
  | nil => cases member
  | cons start path ih =>
    cases first
    rcases List.mem_cons.mp member with same | later
    · exact .inl same
    · cases path with
      | nil => cases later
      | cons second path =>
        obtain ⟨edge,rest⟩ := List.isChain_cons_cons.mp chain
        rcases ih later rfl last rest with same | entered
        · exact .inr ⟨start,same ▸ edge⟩
        · exact .inr entered

end Routes

section Paths
variable {next : α → List α} {src x y z current : α} {visited queue : List α} {prev : α → Option α} {level : α → Nat}
  {depth : Nat} {path : List α}

-- A path from a visited item stays among the visited ones, or leaves them no sooner than
-- at the level of the next item.
theorem Layered.leaves (layered : Layered next src visited (x :: queue) prev level depth current []) (fresh : x ∉ visited)
    (member : y ∈ visited) (route : Path next y z path) : z ∈ visited ∨ level x < level y + path.length := by
  obtain ⟨first,last,chain⟩ := route
  induction path generalizing y with
  | nil => cases first
  | cons start path ih =>
    cases first
    cases path with
    | nil =>
      cases last
      exact .inl member
    | cons second path =>
      obtain ⟨edge,rest⟩ := List.isChain_cons_cons.mp chain
      obtain ⟨_,none⟩ | ⟨either,bound⟩ := layered.closed start member second edge
      · cases none
      by_cases inside : second ∈ visited
      · refine (ih inside rfl last rest).imp_right fun less => less.trans_le ?_
        simp only [List.length_cons]
        omega
      · have coming := mem_upcoming.mpr ⟨either.resolve_left inside,inside⟩
        have least : level x ≤ level second := by
          have sorted := layered.sorted
          rw [upcoming_fresh fresh] at coming sorted
          rcases List.mem_cons.mp coming with rfl | later
          · exact Nat.le_refl _
          · exact (List.pairwise_cons.mp sorted).1 second later
        right
        simp only [List.length_cons]
        omega

theorem Layered.exhausted (layered : Layered next src visited [] prev level depth current [])
    (reached : ReflTransGen (Edge next) src z) : z ∈ visited := by
  induction reached with
  | refl => exact layered.source.2.2.resolve_right fun empty => List.cons_ne_nil src [] empty.2.symm
  | tail _ edge ih =>
    obtain ⟨_,none⟩ | ⟨either,_⟩ := layered.closed _ ih _ edge
    · cases none
    · exact either.resolve_right List.not_mem_nil

theorem Layered.minimal (layered : Layered next src visited (x :: queue) prev level depth current []) (fresh : x ∉ visited)
    (route : Path next src x path) : level x + 1 ≤ path.length := by
  rcases layered.source.2.2 with begun | ⟨empty,only⟩
  · have leaves := (layered.leaves fresh begun route).resolve_left fresh
    rw [layered.source.1] at leaves
    omega
  · cases only
    rw [layered.source.1]
    apply List.length_pos_of_ne_nil
    rintro rfl
    cases route.first

theorem Layered.back_exists (layered : Layered next src visited queue prev level depth current [])
    (known : x ∈ visited ∨ x ∈ queue) : ∃ path, Back prev src x path := by
  generalize bound : level x = n
  induction n generalizing x with
  | zero =>
    rcases layered.known x known with rfl | ⟨y,found⟩
    · exact ⟨_,.source⟩
    · have up := (layered.back x y found).2.2
      rw [bound] at up
      cases up
  | succ n ih =>
    rcases layered.known x known with rfl | ⟨y,found⟩
    · exact ⟨_,.source⟩
    · obtain ⟨path,rest⟩ := ih (.inl (layered.tail x y found)) (Nat.succ.inj ((layered.back x y found).2.2.symm.trans bound))
      refine ⟨x :: path,.step ?_ found rest⟩
      rintro rfl
      cases layered.source.2.1.symm.trans found

theorem Layered.back_path (layered : Layered next src visited queue prev level depth current []) (back : Back prev src x path) :
    Path next src x path.reverse ∧ path.length = level x + 1 ∧ (∀ y ∈ path, level y ≤ level x) ∧ path.Nodup := by
  induction back with
  | source =>
    refine ⟨⟨rfl,rfl,List.isChain_singleton _⟩,by rw [layered.source.1]; rfl,?_,List.nodup_singleton _⟩
    intro y member
    rw [List.mem_singleton.mp member]
  | @step x y path _ found rest ih =>
    obtain ⟨_,edge,up⟩ := layered.back x y found
    obtain ⟨⟨first,last,chain⟩,length,below,nodup⟩ := ih
    refine ⟨⟨?_,?_,?_⟩,?_,?_,?_⟩
    · rw [List.reverse_cons,List.head?_append,first]
      rfl
    · rw [List.reverse_cons,List.getLast?_concat]
    · rw [List.reverse_cons]
      refine List.IsChain.append chain (List.isChain_singleton _) ?_
      intro a atLast b atFirst
      cases last.symm.trans atLast
      cases atFirst
      exact edge
    · rw [List.length_cons,length,up]
    · intro z member
      rcases List.mem_cons.mp member with rfl | later
      · exact Nat.le_refl _
      · have le := below z later
        omega
    · refine List.nodup_cons.mpr ⟨fun member => ?_,nodup⟩
      have le := below x member
      omega

end Paths

end BreadthFirst
