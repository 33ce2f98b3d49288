import Mathlib.Logic.Basic
import Mathlib.Tactic.Common

namespace UnionIntersection
variable {α : Type*}

inductive Compound (α : Type*) where
  | leaf (a : α)
  | union (left right : Compound α)
  | inter (left right : Compound α)

namespace Compound

def leaves : Compound α → List α
  | leaf a => [a]
  | union left right => left.leaves ++ right.leaves
  | inter left right => left.leaves ++ right.leaves

def IsUnion : Compound α → Prop
  | union _ _ => True
  | _ => False

def IsInter : Compound α → Prop
  | inter _ _ => True
  | _ => False

-- No intersection on the left, and no union on the right, that distribution could still take apart.
def Settled : Compound α → Prop
  | inter left right => ¬ left.IsUnion ∧ ¬ right.IsUnion
  | _ => True

def NoInter : Compound α → Prop
  | leaf _ => True
  | union left right => left.NoInter ∧ right.NoInter
  | inter _ _ => False

-- What a tree says of a valuation of its leaves.
def Holds (v : α → Prop) : Compound α → Prop
  | leaf a => v a
  | union left right => left.Holds v ∨ right.Holds v
  | inter left right => left.Holds v ∧ right.Holds v

end Compound
open Compound

-- Derivations between trees over an order of the leaves: no cut, and distribution at the root only.
inductive Derives (R : α → α → Prop) : Compound α → Compound α → Prop where
  | leaf : R a b → Derives R (leaf a) (leaf b)
  | unionLeft : Derives R l t → Derives R r t → Derives R (union l r) t
  | interRight : Derives R s l → Derives R s r → Derives R s (inter l r)
  | intoLeft : Derives R s l → Derives R s (union l r)
  | intoRight : Derives R s r → Derives R s (union l r)
  | fromLeft : Derives R l t → Derives R (inter l r) t
  | fromRight : Derives R r t → Derives R (inter l r) t
  | spreadLeft : Derives R (inter a c) t → Derives R (inter b c) t → Derives R (inter (union a b) c) t
  | spreadLeftSwapped : Derives R (inter a c) t → Derives R (inter b c) t → Derives R (inter c (union a b)) t
  | spreadRight : Derives R s (union a c) → Derives R s (union b c) → Derives R s (union (inter a b) c)
  | spreadRightSwapped : Derives R s (union a c) → Derives R s (union b c) → Derives R s (union c (inter a b))

variable {R : α → α → Prop} {s t l r a b c : Compound α}

theorem Derives.sound {v : α → Prop} (respects : ∀ a b, R a b → v a → v b) (derives : Derives R s t) :
    s.Holds v → t.Holds v := by
  induction derives with
  | leaf related => exact respects _ _ related
  | unionLeft _ _ left right => exact fun holds => holds.elim left right
  | interRight _ _ left right => exact fun holds => ⟨left holds,right holds⟩
  | intoLeft _ ih => exact fun holds => .inl (ih holds)
  | intoRight _ ih => exact fun holds => .inr (ih holds)
  | fromLeft _ ih => exact fun holds => ih holds.1
  | fromRight _ ih => exact fun holds => ih holds.2
  | spreadLeft _ _ left right =>
    rintro ⟨holds | holds,common⟩
    · exact left ⟨holds,common⟩
    · exact right ⟨holds,common⟩
  | spreadLeftSwapped _ _ left right =>
    rintro ⟨common,holds | holds⟩
    · exact left ⟨holds,common⟩
    · exact right ⟨holds,common⟩
  | spreadRight _ _ left right =>
    intro holds
    rcases left holds with one | common
    · rcases right holds with other | common
      · exact .inl ⟨one,other⟩
      · exact .inr common
    · exact .inr common
  | spreadRightSwapped _ _ left right =>
    intro holds
    rcases left holds with one | common
    · rcases right holds with other | common
      · exact .inr ⟨one,other⟩
      · exact .inl common
    · exact .inl common

theorem Derives.refl (s : Compound α) (reflexive : ∀ a ∈ s.leaves, R a a) : Derives R s s := by
  induction s with
  | leaf a => exact .leaf (reflexive a (List.mem_singleton_self a))
  | union l r left right =>
    refine .unionLeft (.intoLeft (left fun a present => ?_)) (.intoRight (right fun a present => ?_))
    · exact reflexive a (List.mem_append_left _ present)
    · exact reflexive a (List.mem_append_right _ present)
  | inter l r left right =>
    refine .interRight (.fromLeft (left fun a present => ?_)) (.fromRight (right fun a present => ?_))
    · exact reflexive a (List.mem_append_left _ present)
    · exact reflexive a (List.mem_append_right _ present)

section Inversion

theorem Derives.union_left (derives : Derives R (union l r) t) : Derives R l t ∧ Derives R r t := by
  generalize whole : union l r = s at derives
  induction derives with
  | unionLeft left right => cases whole; exact ⟨left,right⟩
  | interRight _ _ left right => exact ⟨.interRight (left whole).1 (right whole).1,.interRight (left whole).2 (right whole).2⟩
  | intoLeft _ ih => exact ⟨.intoLeft (ih whole).1,.intoLeft (ih whole).2⟩
  | intoRight _ ih => exact ⟨.intoRight (ih whole).1,.intoRight (ih whole).2⟩
  | spreadRight _ _ left right =>
    exact ⟨.spreadRight (left whole).1 (right whole).1,.spreadRight (left whole).2 (right whole).2⟩
  | spreadRightSwapped _ _ left right =>
    exact ⟨.spreadRightSwapped (left whole).1 (right whole).1,.spreadRightSwapped (left whole).2 (right whole).2⟩
  | leaf | fromLeft | fromRight | spreadLeft | spreadLeftSwapped => cases whole

theorem Derives.inter_right (derives : Derives R s (inter l r)) : Derives R s l ∧ Derives R s r := by
  generalize whole : inter l r = t at derives
  induction derives with
  | interRight left right => cases whole; exact ⟨left,right⟩
  | unionLeft _ _ left right => exact ⟨.unionLeft (left whole).1 (right whole).1,.unionLeft (left whole).2 (right whole).2⟩
  | fromLeft _ ih => exact ⟨.fromLeft (ih whole).1,.fromLeft (ih whole).2⟩
  | fromRight _ ih => exact ⟨.fromRight (ih whole).1,.fromRight (ih whole).2⟩
  | spreadLeft _ _ left right =>
    exact ⟨.spreadLeft (left whole).1 (right whole).1,.spreadLeft (left whole).2 (right whole).2⟩
  | spreadLeftSwapped _ _ left right =>
    exact ⟨.spreadLeftSwapped (left whole).1 (right whole).1,.spreadLeftSwapped (left whole).2 (right whole).2⟩
  | leaf | intoLeft | intoRight | spreadRight | spreadRightSwapped => cases whole

theorem Derives.inter_comm (derives : Derives R (inter l r) t) : Derives R (inter r l) t := by
  generalize whole : inter l r = s at derives
  induction derives generalizing l r with
  | interRight _ _ left right => exact .interRight (left whole) (right whole)
  | intoLeft _ ih => exact .intoLeft (ih whole)
  | intoRight _ ih => exact .intoRight (ih whole)
  | fromLeft left => cases whole; exact .fromRight left
  | fromRight right => cases whole; exact .fromLeft right
  | spreadLeft left right => cases whole; exact .spreadLeftSwapped left right
  | spreadLeftSwapped left right => cases whole; exact .spreadLeft left right
  | spreadRight _ _ left right => exact .spreadRight (left whole) (right whole)
  | spreadRightSwapped _ _ left right => exact .spreadRightSwapped (left whole) (right whole)
  | leaf | unionLeft => cases whole

theorem Derives.union_comm (derives : Derives R s (union l r)) : Derives R s (union r l) := by
  generalize whole : union l r = t at derives
  induction derives generalizing l r with
  | unionLeft _ _ left right => exact .unionLeft (left whole) (right whole)
  | fromLeft _ ih => exact .fromLeft (ih whole)
  | fromRight _ ih => exact .fromRight (ih whole)
  | intoLeft left => cases whole; exact .intoRight left
  | intoRight right => cases whole; exact .intoLeft right
  | spreadRight left right => cases whole; exact .spreadRightSwapped left right
  | spreadRightSwapped left right => cases whole; exact .spreadRight left right
  | spreadLeft _ _ left right => exact .spreadLeft (left whole) (right whole)
  | spreadLeftSwapped _ _ left right => exact .spreadLeftSwapped (left whole) (right whole)
  | leaf | interRight => cases whole

-- Both sides of an intersection can be unions, so that the two orders are inverted together.
theorem Derives.spread_left (derives : Derives R s t) (whole : s = inter (union a b) c ∨ s = inter c (union a b)) :
    Derives R (inter a c) t ∧ Derives R (inter b c) t := by
  induction derives generalizing a b c with
  | interRight _ _ left right =>
    exact ⟨.interRight (left whole).1 (right whole).1,.interRight (left whole).2 (right whole).2⟩
  | intoLeft _ ih => exact ⟨.intoLeft (ih whole).1,.intoLeft (ih whole).2⟩
  | intoRight _ ih => exact ⟨.intoRight (ih whole).1,.intoRight (ih whole).2⟩
  | fromLeft left =>
    rcases whole with whole | whole <;> cases whole
    · exact ⟨.fromLeft left.union_left.1,.fromLeft left.union_left.2⟩
    · exact ⟨.fromRight left,.fromRight left⟩
  | fromRight right =>
    rcases whole with whole | whole <;> cases whole
    · exact ⟨.fromRight right,.fromRight right⟩
    · exact ⟨.fromLeft right.union_left.1,.fromLeft right.union_left.2⟩
  | spreadLeft one other left right =>
    rcases whole with whole | whole <;> cases whole
    · exact ⟨one,other⟩
    · have first := left (.inr rfl)
      have second := right (.inr rfl)
      exact ⟨.spreadLeftSwapped first.1.inter_comm second.1.inter_comm,
        .spreadLeftSwapped first.2.inter_comm second.2.inter_comm⟩
  | spreadLeftSwapped one other left right =>
    rcases whole with whole | whole <;> cases whole
    · have first := left (.inr rfl)
      have second := right (.inr rfl)
      exact ⟨.spreadLeftSwapped first.1.inter_comm second.1.inter_comm,
        .spreadLeftSwapped first.2.inter_comm second.2.inter_comm⟩
    · exact ⟨one,other⟩
  | spreadRight _ _ left right =>
    exact ⟨.spreadRight (left whole).1 (right whole).1,.spreadRight (left whole).2 (right whole).2⟩
  | spreadRightSwapped _ _ left right =>
    exact ⟨.spreadRightSwapped (left whole).1 (right whole).1,.spreadRightSwapped (left whole).2 (right whole).2⟩
  | leaf | unionLeft => rcases whole with whole | whole <;> cases whole

theorem Derives.spread_right (derives : Derives R s t) (whole : t = union (inter a b) c ∨ t = union c (inter a b)) :
    Derives R s (union a c) ∧ Derives R s (union b c) := by
  induction derives generalizing a b c with
  | unionLeft _ _ left right =>
    exact ⟨.unionLeft (left whole).1 (right whole).1,.unionLeft (left whole).2 (right whole).2⟩
  | fromLeft _ ih => exact ⟨.fromLeft (ih whole).1,.fromLeft (ih whole).2⟩
  | fromRight _ ih => exact ⟨.fromRight (ih whole).1,.fromRight (ih whole).2⟩
  | intoLeft left =>
    rcases whole with whole | whole <;> cases whole
    · exact ⟨.intoLeft left.inter_right.1,.intoLeft left.inter_right.2⟩
    · exact ⟨.intoRight left,.intoRight left⟩
  | intoRight right =>
    rcases whole with whole | whole <;> cases whole
    · exact ⟨.intoRight right,.intoRight right⟩
    · exact ⟨.intoLeft right.inter_right.1,.intoLeft right.inter_right.2⟩
  | spreadRight one other left right =>
    rcases whole with whole | whole <;> cases whole
    · exact ⟨one,other⟩
    · have first := left (.inr rfl)
      have second := right (.inr rfl)
      exact ⟨.spreadRightSwapped first.1.union_comm second.1.union_comm,
        .spreadRightSwapped first.2.union_comm second.2.union_comm⟩
  | spreadRightSwapped one other left right =>
    rcases whole with whole | whole <;> cases whole
    · have first := left (.inr rfl)
      have second := right (.inr rfl)
      exact ⟨.spreadRightSwapped first.1.union_comm second.1.union_comm,
        .spreadRightSwapped first.2.union_comm second.2.union_comm⟩
    · exact ⟨one,other⟩
  | spreadLeft _ _ left right =>
    exact ⟨.spreadLeft (left whole).1 (right whole).1,.spreadLeft (left whole).2 (right whole).2⟩
  | spreadLeftSwapped _ _ left right =>
    exact ⟨.spreadLeftSwapped (left whole).1 (right whole).1,.spreadLeftSwapped (left whole).2 (right whole).2⟩
  | leaf | interRight => rcases whole with whole | whole <;> cases whole

theorem Derives.union_right (derives : Derives R s (union l r)) (notUnion : ¬ s.IsUnion) (settled : s.Settled)
    (left : ¬ l.IsInter) (right : ¬ r.IsInter) :
    Derives R s l ∨ Derives R s r ∨ ∃ a b, s = inter a b ∧ (Derives R a (union l r) ∨ Derives R b (union l r)) := by
  cases derives with
  | unionLeft => exact absurd trivial notUnion
  | intoLeft into => exact .inl into
  | intoRight into => exact .inr (.inl into)
  | fromLeft from_ => exact .inr (.inr ⟨_,_,rfl,.inl from_⟩)
  | fromRight from_ => exact .inr (.inr ⟨_,_,rfl,.inr from_⟩)
  | spreadLeft => exact absurd trivial settled.1
  | spreadLeftSwapped => exact absurd trivial settled.2
  | spreadRight => exact absurd trivial left
  | spreadRightSwapped => exact absurd trivial right

theorem Derives.leaf_right {y : α} (derives : Derives R s (Compound.leaf y)) (notUnion : ¬ s.IsUnion) (settled : s.Settled) :
    (∃ x, s = Compound.leaf x ∧ R x y) ∨
      ∃ a b, s = inter a b ∧ (Derives R a (Compound.leaf y) ∨ Derives R b (Compound.leaf y)) := by
  cases derives with
  | leaf related => exact .inl ⟨_,rfl,related⟩
  | unionLeft => exact absurd trivial notUnion
  | fromLeft from_ => exact .inr ⟨_,_,rfl,.inl from_⟩
  | fromRight from_ => exact .inr ⟨_,_,rfl,.inr from_⟩
  | spreadLeft => exact absurd trivial settled.1
  | spreadLeftSwapped => exact absurd trivial settled.2

end Inversion

section Cut

-- The leaf in the middle meets every leaf that the right side offers.
theorem Derives.cut_leaf_right {x y : α} (transitive : ∀ z ∈ t.leaves, R y z → R x z)
    (derives : Derives R (Compound.leaf y) t) : Derives R (Compound.leaf x) t := by
  generalize whole : Compound.leaf y = s at derives
  induction derives with
  | leaf related => cases whole; exact .leaf (transitive _ (List.mem_singleton_self _) related)
  | interRight _ _ left right =>
    refine .interRight (left (fun z present => ?_) whole) (right (fun z present => ?_) whole)
    · exact transitive z (List.mem_append_left _ present)
    · exact transitive z (List.mem_append_right _ present)
  | intoLeft _ ih => exact .intoLeft (ih (fun z present => transitive z (List.mem_append_left _ present)) whole)
  | intoRight _ ih => exact .intoRight (ih (fun z present => transitive z (List.mem_append_right _ present)) whole)
  | spreadRight _ _ left right =>
    refine .spreadRight (left (fun z present => transitive z ?_) whole) (right (fun z present => transitive z ?_) whole)
    all_goals
      simp only [leaves,List.mem_append] at present ⊢
      rcases present with present | present <;> simp only [present,true_or,or_true]
  | spreadRightSwapped _ _ left right =>
    refine .spreadRightSwapped (left (fun z present => transitive z ?_) whole)
      (right (fun z present => transitive z ?_) whole)
    all_goals
      simp only [leaves,List.mem_append] at present ⊢
      rcases present with present | present <;> simp only [present,true_or,or_true]
  | unionLeft | fromLeft | fromRight | spreadLeft | spreadLeftSwapped => cases whole

-- Cut for a middle tree that has no intersection.
theorem Derives.cut {m : Compound α} (free : m.NoInter)
    (transitive : ∀ y ∈ m.leaves, ∀ x, ∀ z ∈ t.leaves, R x y → R y z → R x z)
    (first : Derives R s m) (second : Derives R m t) : Derives R s t := by
  induction first with
  | leaf related =>
    exact cut_leaf_right (fun z present => transitive _ (List.mem_singleton_self _) _ z present related) second
  | unionLeft _ _ left right => exact .unionLeft (left free transitive second) (right free transitive second)
  | interRight => cases free
  | intoLeft _ ih =>
    exact ih free.1 (fun y present => transitive y (List.mem_append_left _ present)) second.union_left.1
  | intoRight _ ih =>
    exact ih free.2 (fun y present => transitive y (List.mem_append_right _ present)) second.union_left.2
  | fromLeft _ ih => exact .fromLeft (ih free transitive second)
  | fromRight _ ih => exact .fromRight (ih free transitive second)
  | spreadLeft _ _ left right => exact .spreadLeft (left free transitive second) (right free transitive second)
  | spreadLeftSwapped _ _ left right =>
    exact .spreadLeftSwapped (left free transitive second) (right free transitive second)
  | spreadRight => cases free.1
  | spreadRightSwapped => cases free.2

end Cut
end UnionIntersection
