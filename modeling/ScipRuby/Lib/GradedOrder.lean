import Mathlib.Order.Lattice
import Mathlib.Data.Set.CoeSort

-- Items are ordered by a stage, then by a grade that an item may lack, then by
-- name. An item without a grade is compared by name with all others of its stage.
namespace GradedOrder

variable {α P G N : Type} [LinearOrder P] [LinearOrder G] [LinearOrder N]
variable (stage : α → P) (grade : α → Option G) (name : α → N)

def Ahead (x y : α) : Prop := ∃ g h, grade x = some g ∧ grade y = some h ∧ g < h

def Level (x y : α) : Prop := Ahead grade x y ∨ (¬Ahead grade y x ∧ name x < name y)

def Before (x y : α) : Prop := stage x < stage y ∨ (stage x = stage y ∧ Level grade name x y)

-- One item lies by name between two that their grades put the other way round.
def Knot (S : Set α) : Prop :=
  ∃ u ∈ S, ∃ x ∈ S, ∃ y ∈ S, stage u = stage x ∧ stage x = stage y ∧ grade u = none ∧ Ahead grade x y ∧
    name y ≤ name u ∧ name u ≤ name x

section Pairs
variable {stage grade name} {x y z : α}

theorem Ahead.asymm (ahead : Ahead grade x y) : ¬Ahead grade y x := by
  obtain ⟨g,h,gx,hy,lt⟩ := ahead
  rintro ⟨h',g',hy',gx',lt'⟩
  cases hy.symm.trans hy'
  cases gx.symm.trans gx'
  exact lt_asymm lt lt'

theorem Ahead.graded (ahead : Ahead grade x y) : grade x ≠ none ∧ grade y ≠ none := by
  obtain ⟨g,h,gx,hy,_⟩ := ahead
  rw [gx,hy]
  exact ⟨Option.some_ne_none g,Option.some_ne_none h⟩

-- With a graded item between, one of the two steps is ahead.
theorem Ahead.split (ahead : Ahead grade x z) (graded : grade y ≠ none) : Ahead grade x y ∨ Ahead grade y z := by
  obtain ⟨g,h,gx,hz,lt⟩ := ahead
  obtain ⟨k,ky⟩ := Option.ne_none_iff_exists'.mp graded
  rcases lt_or_ge g k with less | more
  · exact .inl ⟨g,k,gx,ky,less⟩
  · exact .inr ⟨k,h,ky,hz,lt_of_le_of_lt more lt⟩

theorem level_of_ungraded (ungraded : grade x = none ∨ grade y = none) (lt : name x < name y) : Level grade name x y := by
  refine .inr ⟨fun ahead => ?_,lt⟩
  rcases ungraded with none | none
  · exact ahead.graded.2 none
  · exact ahead.graded.1 none

theorem Level.asymm (level : Level grade name x y) : ¬Level grade name y x := by
  rintro (ahead | ⟨apart,lt⟩)
  · rcases level with other | ⟨apart,_⟩
    · exact ahead.asymm other
    · exact apart ahead
  · rcases level with other | ⟨_,lt'⟩
    · exact apart other
    · exact lt_asymm lt lt'

theorem Before.asymm (before : Before stage grade name x y) : ¬Before stage grade name y x := by
  rintro (lt | ⟨same,level⟩)
  · rcases before with lt' | ⟨same',_⟩
    · exact lt_asymm lt lt'
    · exact absurd same' (ne_of_gt lt)
  · rcases before with lt' | ⟨_,level'⟩
    · exact absurd same (ne_of_gt lt')
    · exact level.asymm level'

-- Graded items of one stage that are not the other way round.
theorem not_before_iff {g h : G} (same : stage x = stage y) (gx : grade x = some g) (hy : grade y = some h) :
    ¬Before stage grade name y x ↔ g < h ∨ (g = h ∧ ¬name y < name x) := by
  have ahead {u v : α} {m n : G} (mu : grade u = some m) (nv : grade v = some n) : Ahead grade u v ↔ m < n := by
    simp [Ahead,mu,nv]
  have before : Before stage grade name y x ↔ h < g ∨ (¬g < h ∧ name y < name x) := by
    rw [Before,Level,ahead hy gx,ahead gx hy,same]
    simp
  rw [before]
  rcases lt_trichotomy g h with less | equal | more
  · simp [less,lt_asymm less]
  · simp [equal]
  · simp [more,lt_asymm more,ne_of_gt more]

end Pairs

section Connected
variable {stage grade name} {S : Set α} {a b c : α}

-- An item z between x and y by name only, where y is ahead of x, is ungraded in no knot.
omit [LinearOrder P] in
theorem level_of_ahead (free : ¬Knot stage grade name S) (x : a ∈ S) (y : b ∈ S) (z : c ∈ S) (first : stage c = stage a)
    (second : stage a = stage b) (ahead : Ahead grade a b) (le : name b ≤ name c) (ungraded : grade c = none) :
    Level grade name a c := by
  rcases lt_or_ge (name a) (name c) with lt | ge
  · exact level_of_ungraded (.inr ungraded) lt
  · exact absurd ⟨c,z,a,x,b,y,first,second,ungraded,ahead,le,ge⟩ free

omit [LinearOrder P] in
theorem level_connected (free : ¬Knot stage grade name S) (x : a ∈ S) (y : b ∈ S) (z : c ∈ S) (first : stage a = stage b)
    (second : stage b = stage c) (level : Level grade name a c) : Level grade name a b ∨ Level grade name b c := by
  rcases level with ahead | ⟨apart,lt⟩
  · by_cases ungraded : grade b = none
    · rcases lt_or_ge (name b) (name c) with less | more
      · exact .inr (level_of_ungraded (.inl ungraded) less)
      · exact .inl (level_of_ahead free x z y first.symm (first.trans second) ahead more ungraded)
    · exact (ahead.split ungraded).imp .inl .inl
  rcases lt_or_ge (name a) (name b) with less | more
  · by_cases back : Ahead grade b a
    · right
      by_cases ungraded : grade c = none
      · exact level_of_ahead free y x z (second.symm) first.symm back (le_of_lt lt) ungraded
      · exact .inl ((back.split ungraded).resolve_right apart)
    · exact .inl (.inr ⟨back,less⟩)
  · have less : name b < name c := lt_of_le_of_lt more lt
    by_cases back : Ahead grade c b
    · left
      by_cases ungraded : grade a = none
      · rcases lt_or_ge (name a) (name b) with below | above
        · exact level_of_ungraded (.inl ungraded) below
        · exact absurd ⟨a,x,c,z,b,y,first.trans second,second.symm,ungraded,back,above,le_of_lt lt⟩ free
      · exact .inl ((back.split ungraded).resolve_left apart)
    · exact .inr (.inr ⟨back,less⟩)

theorem before_connected (free : ¬Knot stage grade name S) (x : a ∈ S) (y : b ∈ S) (z : c ∈ S)
    (before : Before stage grade name a c) : Before stage grade name a b ∨ Before stage grade name b c := by
  rcases before with lt | ⟨same,level⟩
  · rcases lt_or_ge (stage a) (stage b) with less | more
    · exact .inl (.inl less)
    · exact .inr (.inl (lt_of_le_of_lt more lt))
  · rcases lt_trichotomy (stage a) (stage b) with less | equal | more
    · exact .inl (.inl less)
    · have onward := equal.symm.trans same
      exact (level_connected free x y z equal onward level).imp (fun level => .inr ⟨equal,level⟩) fun level => .inr ⟨onward,level⟩
    · exact .inr (.inl (same ▸ more))

theorem strictWeakOrder_iff : IsStrictWeakOrder S (fun x y => Before stage grade name x.1 y.1) ↔ ¬Knot stage grade name S := by
  constructor
  · rintro weak ⟨u,hu,x,hx,y,hy,first,second,ungraded,ahead,low,high⟩
    have step : Before stage grade name x y := .inr ⟨second,.inl ahead⟩
    have apart : ¬Before stage grade name x u := by
      rintro (lt | ⟨_,ahead' | ⟨_,lt⟩⟩)
      · exact absurd first.symm (ne_of_lt lt)
      · exact ahead'.graded.2 ungraded
      · exact not_lt_of_ge high lt
    have apart' : ¬Before stage grade name u y := by
      rintro (lt | ⟨_,ahead' | ⟨_,lt⟩⟩)
      · exact absurd (first.trans second) (ne_of_lt lt)
      · exact ahead'.graded.1 ungraded
      · exact not_lt_of_ge low lt
    have back : ¬Before stage grade name u x := fun before => apart' (weak.trans ⟨u,hu⟩ ⟨x,hx⟩ ⟨y,hy⟩ before step)
    have back' : ¬Before stage grade name y u := fun before => apart (weak.trans ⟨x,hx⟩ ⟨y,hy⟩ ⟨u,hu⟩ step before)
    exact (weak.incomp_trans ⟨x,hx⟩ ⟨u,hu⟩ ⟨y,hy⟩ ⟨apart,back⟩ ⟨apart',back'⟩).1 step
  · intro free
    have : Std.Asymm (fun x y : S => Before stage grade name x.1 y.1) := ⟨fun x y before => before.asymm⟩
    have : IsOrderConnected S (fun x y => Before stage grade name x.1 y.1) :=
      ⟨fun a b c before => before_connected free a.2 b.2 c.2 before⟩
    exact isStrictWeakOrder_of_isOrderConnected

end Connected

end GradedOrder
