import Mathlib.Data.List.Nodup
import Mathlib.Logic.Relation

namespace LowLink
open Relation
variable {α : Type*} {E : α → α → Prop} {index : α → ℕ} {stack gray segment : List α} {comps : List (List α)} {x y z : α}

def Seen (stack : List α) (comps : List (List α)) (x : α) : Prop := x ∈ stack ∨ x ∈ comps.flatten

-- A depth-first search, seen from outside: gray nodes are being visited, the other nodes on the stack (latest first)
-- have been visited but wait for their component, and comps holds the finished components.
structure Forest (E : α → α → Prop) (index : α → ℕ) (stack gray : List α) (comps : List (List α)) : Prop where
  sorted : stack.Pairwise fun x y => index y < index x
  distinct : comps.flatten.Nodup
  apart : ∀ x ∈ stack, x ∉ comps.flatten
  within : ∀ x ∈ gray, x ∈ stack
  closed : ∀ x, Seen stack comps x → x ∉ gray → ∀ y, E x y → Seen stack comps y
  finished : ∀ (i : ℕ) c, comps[i]? = some c → ∀ x ∈ c, ∀ y, E x y → ∃ (j : ℕ) (d : List α), j ≤ i ∧ comps[j]? = some d ∧ y ∈ d
  strong : ∀ c ∈ comps, ∀ x ∈ c, ∀ y ∈ c, ReflTransGen E x y
  down : ∀ x ∈ gray, ∀ y ∈ stack, index x ≤ index y → ReflTransGen E x y
  up : ∀ y ∈ stack, ∃ x ∈ gray, index x ≤ index y ∧ ReflTransGen E y x

theorem mem_comps_of_getElem? {i : ℕ} {c : List α} (at_ : comps[i]? = some c) (here : x ∈ c) : x ∈ comps.flatten :=
  List.mem_flatten.mpr ⟨c,List.mem_of_getElem? at_,here⟩

theorem exists_getElem?_of_mem (here : x ∈ comps.flatten) : ∃ (i : ℕ) (c : List α), comps[i]? = some c ∧ x ∈ c := by
  obtain ⟨c,listed,here⟩ := List.mem_flatten.mp here
  obtain ⟨i,at_⟩ := List.mem_iff_getElem?.mp listed
  exact ⟨i,c,at_,here⟩

namespace Forest

theorem empty : Forest E index [] [] [] where
  sorted := .nil
  distinct := .nil
  apart := by
    intro x impossible
    cases impossible
  within := by
    intro x impossible
    cases impossible
  closed := by
    intro x seen
    rcases seen with impossible | impossible <;> cases impossible
  finished := by
    intro i c impossible
    cases impossible
  strong := by
    intro c impossible
    cases impossible
  down := by
    intro x impossible
    cases impossible
  up := by
    intro y impossible
    cases impossible

-- Only the indices of the nodes on the stack matter.
theorem congr {index' : α → ℕ} (forest : Forest E index stack gray comps) (same : ∀ x ∈ stack, index' x = index x) :
    Forest E index' stack gray comps where
  sorted := by
    refine forest.sorted.imp_of_mem ?_
    intro x y first second less
    rwa [same x first,same y second]
  distinct := forest.distinct
  apart := forest.apart
  within := forest.within
  closed := forest.closed
  finished := forest.finished
  strong := forest.strong
  down := by
    intro x grey y here le
    rw [same x (forest.within x grey),same y here] at le
    exact forest.down x grey y here le
  up := by
    intro y here
    obtain ⟨x,grey,le,path⟩ := forest.up y here
    exact ⟨x,grey,by rwa [same x (forest.within x grey),same y here],path⟩

-- A component can only reach components that were finished before it.
theorem reaches_finished (forest : Forest E index stack gray comps) {i : ℕ} {c : List α} (at_ : comps[i]? = some c) (here : x ∈ c)
    (path : ReflTransGen E x y) : ∃ (j : ℕ) (d : List α), j ≤ i ∧ comps[j]? = some d ∧ y ∈ d := by
  induction path with
  | refl => exact ⟨i,c,Nat.le_refl i,at_,here⟩
  | tail _ edge ih =>
    obtain ⟨j,d,before,at',there⟩ := ih
    obtain ⟨k,e,earlier,at'',found⟩ := forest.finished j d at' _ there _ edge
    exact ⟨k,e,Nat.le_trans earlier before,at'',found⟩

theorem position_unique (forest : Forest E index stack gray comps) {i j : ℕ} {c d : List α} (at_ : comps[i]? = some c) (here : x ∈ c)
    (at' : comps[j]? = some d) (there : x ∈ d) : i = j := by
  obtain ⟨inside,rfl⟩ := List.getElem?_eq_some_iff.mp at_
  obtain ⟨inside',rfl⟩ := List.getElem?_eq_some_iff.mp at'
  by_contra other
  have disjoint := (List.nodup_flatten.mp forest.distinct).2
  rw [List.pairwise_iff_getElem] at disjoint
  rcases Nat.lt_or_gt_of_ne other with less | less
  · exact disjoint i j inside inside' less here there
  · exact disjoint j i inside' inside less there here

-- The components are the strongly connected ones.
theorem same_component_iff (forest : Forest E index stack gray comps) {i j : ℕ} {c d : List α} (at_ : comps[i]? = some c)
    (here : x ∈ c) (at' : comps[j]? = some d) (there : y ∈ d) : i = j ↔ ReflTransGen E x y ∧ ReflTransGen E y x := by
  constructor
  · rintro rfl
    obtain rfl : c = d := Option.some.inj (at_.symm.trans at')
    have listed := List.mem_of_getElem? at_
    exact ⟨forest.strong c listed x here y there,forest.strong c listed y there x here⟩
  · rintro ⟨forth,back⟩
    obtain ⟨k,e,before,at'',found⟩ := forest.reaches_finished at_ here forth
    obtain rfl := forest.position_unique at' there at'' found
    obtain ⟨k,e,before',place,found'⟩ := forest.reaches_finished at' there back
    obtain rfl := forest.position_unique at_ here place found'
    exact Nat.le_antisymm before' before

-- The search enters x.
theorem push {index' : α → ℕ} (forest : Forest E index stack gray comps) (new : ¬ Seen stack comps x)
    (same : ∀ y ∈ stack, index' y = index y) (last : ∀ y ∈ stack, index' y < index' x)
    (leads : ∀ g ∈ gray, ReflTransGen E g x) : Forest E index' (x :: stack) (x :: gray) comps where
  sorted := List.pairwise_cons.mpr ⟨last,(forest.congr same).sorted⟩
  distinct := forest.distinct
  apart := by
    intro y here
    rcases List.mem_cons.mp here with rfl | here
    · exact fun finished => new (.inr finished)
    · exact forest.apart y here
  within := by
    intro y grey
    rcases List.mem_cons.mp grey with rfl | grey
    · exact List.mem_cons_self
    · exact List.mem_cons_of_mem _ (forest.within y grey)
  closed := by
    intro y seen inner z edge
    rw [List.mem_cons,not_or] at inner
    have before : Seen stack comps y := by
      rcases seen with here | finished
      · exact .inl ((List.mem_cons.mp here).resolve_left inner.1)
      · exact .inr finished
    rcases forest.closed y before inner.2 z edge with here | finished
    · exact .inl (List.mem_cons_of_mem _ here)
    · exact .inr finished
  finished := forest.finished
  strong := forest.strong
  down := by
    intro g grey y here le
    rcases List.mem_cons.mp grey with rfl | grey
    · rcases List.mem_cons.mp here with rfl | here
      · exact .refl
      · exact absurd (last y here) (Nat.not_lt.mpr le)
    · rcases List.mem_cons.mp here with new | here
      · rw [new]
        exact leads g grey
      · exact (forest.congr same).down g grey y here le
  up := by
    intro y here
    rcases List.mem_cons.mp here with rfl | here
    · exact ⟨y,List.mem_cons_self,Nat.le_refl _,.refl⟩
    · obtain ⟨g,grey,le,path⟩ := (forest.congr same).up y here
      exact ⟨g,List.mem_cons_of_mem _ grey,le,path⟩

-- The search leaves x, which reaches a node below it.
theorem leave (forest : Forest E index stack (x :: gray) comps) (explored : ∀ y, E x y → Seen stack comps y)
    (lower : ∃ y ∈ stack, index y < index x ∧ ReflTransGen E x y) : Forest E index stack gray comps where
  sorted := forest.sorted
  distinct := forest.distinct
  apart := forest.apart
  within := fun y grey => forest.within y (List.mem_cons_of_mem _ grey)
  closed := by
    intro y seen inner z edge
    by_cases same : y = x
    · exact explored z (same ▸ edge)
    · exact forest.closed y seen (fun member => (List.mem_cons.mp member).elim same inner) z edge
  finished := forest.finished
  strong := forest.strong
  down := fun g grey => forest.down g (List.mem_cons_of_mem _ grey)
  up := by
    intro y here
    obtain ⟨g,grey,le,path⟩ := forest.up y here
    rcases List.mem_cons.mp grey with rfl | grey
    · obtain ⟨z,below,less,onward⟩ := lower
      obtain ⟨g',grey',le',path'⟩ := forest.up z below
      rcases List.mem_cons.mp grey' with rfl | grey'
      · omega
      · exact ⟨g',grey',by omega,(path.trans onward).trans path'⟩
    · exact ⟨g,grey,le,path⟩

section Pop
variable (forest : Forest E index (segment ++ x :: stack) (x :: gray) comps) (outer : ∀ g ∈ gray, g ∈ stack)
  (explored : ∀ y, E x y → Seen (segment ++ x :: stack) comps y) (inside : ∀ y ∈ segment ++ [x], ∀ z ∈ stack, ¬ E y z)
include forest outer explored inside

omit forest outer explored inside in
theorem mem_split : y ∈ segment ++ x :: stack ↔ y ∈ segment ++ [x] ∨ y ∈ stack := by
  simp only [List.mem_append,List.mem_cons,List.not_mem_nil,or_false,or_assoc]

omit outer explored inside in
theorem segment_apart : ∀ y ∈ segment ++ [x], y ∉ stack := by
  intro y here there
  have sorted := forest.sorted
  have split : segment ++ x :: stack = (segment ++ [x]) ++ stack := by rw [List.append_assoc,List.singleton_append]
  rw [split,List.pairwise_append] at sorted
  exact Nat.lt_irrefl _ (sorted.2.2 y here y there)

theorem edge_from_segment (here : y ∈ segment ++ [x]) (edge : E y z) : z ∈ segment ++ [x] ∨ z ∈ comps.flatten := by
  have seen : Seen (segment ++ x :: stack) comps z := by
    by_cases same : y = x
    · exact explored z (same ▸ edge)
    · refine forest.closed y (.inl (mem_split.mpr (.inl here))) ?_ z edge
      rw [List.mem_cons,not_or]
      exact ⟨same,fun grey => forest.segment_apart y here (outer y grey)⟩
  rcases seen with on | finished
  · rcases mem_split.mp on with on | below
    · exact .inl on
    · exact absurd edge (inside y here z below)
  · exact .inr finished

theorem path_from_segment (here : y ∈ segment ++ [x]) (path : ReflTransGen E y z) : z ∈ segment ++ [x] ∨ z ∈ comps.flatten := by
  induction path with
  | refl => exact .inl here
  | tail _ edge ih =>
    rcases ih with here | finished
    · exact forest.edge_from_segment outer explored inside here edge
    · obtain ⟨i,c,at_,there⟩ := exists_getElem?_of_mem finished
      obtain ⟨j,d,_,at',found⟩ := forest.finished i c at_ _ there _ edge
      exact .inr (mem_comps_of_getElem? at' found)

theorem segment_to_root (here : y ∈ segment ++ [x]) : ReflTransGen E y x := by
  obtain ⟨g,grey,_,path⟩ := forest.up y (mem_split.mpr (.inl here))
  rcases List.mem_cons.mp grey with rfl | grey
  · exact path
  · rcases forest.path_from_segment outer explored inside here path with found | finished
    · exact absurd (outer g grey) (forest.segment_apart g found)
    · exact absurd finished (forest.apart g (mem_split.mpr (.inr (outer g grey))))

omit outer explored inside in
theorem root_to_segment (here : y ∈ segment ++ [x]) : ReflTransGen E x y := by
  refine forest.down x List.mem_cons_self y (mem_split.mpr (.inl here)) ?_
  rcases List.mem_append.mp here with before | last
  · have sorted := (List.pairwise_append.mp forest.sorted).2.2 y before x List.mem_cons_self
    exact Nat.le_of_lt sorted
  · exact Nat.le_of_eq (congrArg index (List.mem_singleton.mp last).symm)

-- The search leaves x, and nothing above x on the stack has an edge below it.
theorem pop : Forest E index stack gray (comps ++ [segment ++ [x]]) where
  sorted := by
    have sorted := (List.pairwise_append.mp forest.sorted).2.1
    exact (List.pairwise_cons.mp sorted).2
  distinct := by
    rw [List.flatten_append,List.flatten_singleton,List.nodup_append]
    refine ⟨forest.distinct,?_,?_⟩
    · have nodup : (segment ++ x :: stack).Nodup := forest.sorted.imp fun less same => by
        subst same
        exact Nat.lt_irrefl _ less
      have split : segment ++ x :: stack = (segment ++ [x]) ++ stack := by rw [List.append_assoc,List.singleton_append]
      rw [split] at nodup
      exact (List.nodup_append.mp nodup).1
    · rintro y finished z here rfl
      exact forest.apart y (mem_split.mpr (.inl here)) finished
  apart := by
    intro y below
    rw [List.flatten_append,List.flatten_singleton,List.mem_append,not_or]
    exact ⟨forest.apart y (mem_split.mpr (.inr below)),fun here => forest.segment_apart y here below⟩
  within := outer
  closed := by
    intro y seen inner z edge
    rw [Seen,List.flatten_append,List.flatten_singleton,List.mem_append] at seen ⊢
    rcases seen with below | finished | here
    · have other : y ≠ x := by
        rintro rfl
        exact forest.segment_apart y (List.mem_append_right _ (List.mem_singleton_self y)) below
      rcases forest.closed y (.inl (mem_split.mpr (.inr below)))
        (fun member => (List.mem_cons.mp member).elim other inner) z edge with on | finished
      · rcases mem_split.mp on with on | below
        · exact .inr (.inr on)
        · exact .inl below
      · exact .inr (.inl finished)
    · obtain ⟨i,c,at_,there⟩ := exists_getElem?_of_mem finished
      obtain ⟨j,d,_,at',found⟩ := forest.finished i c at_ _ there _ edge
      exact .inr (.inl (mem_comps_of_getElem? at' found))
    · rcases forest.edge_from_segment outer explored inside here edge with on | finished
      · exact .inr (.inr on)
      · exact .inr (.inl finished)
  finished := by
    intro i c at_ y here z edge
    rcases Nat.lt_or_ge i comps.length with old | new
    · rw [List.getElem?_append_left old] at at_
      obtain ⟨j,d,before,at',found⟩ := forest.finished i c at_ y here z edge
      exact ⟨j,d,before,by rw [List.getElem?_append_left (by omega)]; exact at',found⟩
    · rw [List.getElem?_append_right new] at at_
      obtain ⟨short,same⟩ := List.getElem?_eq_some_iff.mp at_
      have last : i = comps.length := by
        rw [List.length_singleton] at short
        omega
      subst last
      simp only [Nat.sub_self,List.getElem_cons_zero] at same
      subst same
      rcases forest.edge_from_segment outer explored inside here edge with on | finished
      · exact ⟨comps.length,segment ++ [x],Nat.le_refl _,by simp,on⟩
      · obtain ⟨j,d,at',found⟩ := exists_getElem?_of_mem finished
        have inside' := (List.getElem?_eq_some_iff.mp at').1
        exact ⟨j,d,Nat.le_of_lt inside',by rw [List.getElem?_append_left inside']; exact at',found⟩
  strong := by
    intro c listed y here z there
    rcases List.mem_append.mp listed with old | new
    · exact forest.strong c old y here z there
    · obtain rfl := List.mem_singleton.mp new
      exact (forest.segment_to_root outer explored inside here).trans (forest.root_to_segment there)
  down := by
    intro g grey y below le
    exact forest.down g (List.mem_cons_of_mem _ grey) y (mem_split.mpr (.inr below)) le
  up := by
    intro y below
    obtain ⟨g,grey,le,path⟩ := forest.up y (mem_split.mpr (.inr below))
    rcases List.mem_cons.mp grey with rfl | grey
    · have sorted := (List.pairwise_append.mp forest.sorted).2.1
      have less := (List.pairwise_cons.mp sorted).1 y below
      omega
    · exact ⟨g,grey,le,path⟩

end Pop
end Forest
end LowLink
