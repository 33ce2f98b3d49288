import Mathlib.Logic.Relation
import Mathlib.Order.WellFounded
import Mathlib.Data.Fintype.Order

namespace Bypass
open Relation
variable {α : Type*} {E E' : α → α → Prop} {a b c d e t : α}

-- The edge from a to t gives way to the edges that leave t.
structure Bypasses (E E' : α → α → Prop) (a t : α) : Prop where
  distinct : a ≠ t
  edge : E a t
  elsewhere : ∀ b, b ≠ a → ∀ c, E' b c ↔ E b c
  there : ∀ c, E' a c ↔ (E a c ∧ c ≠ t) ∨ E t c

-- Edges into nodes that a path is allowed to enter.
def Into (P : α → Prop) (E : α → α → Prop) (b c : α) : Prop := E b c ∧ P c

theorem into_all (E : α → α → Prop) : Into (fun _ => True) E = E := by
  funext b c
  simp only [Into,and_true]

theorem Bypasses.other (bypasses : Bypasses E E' a t) (edge : E b c) (apart : b ≠ a ∨ c ≠ t) : E' b c := by
  by_cases source : b = a
  · subst source
    rcases apart with apart | apart
    · exact absurd rfl apart
    · exact (bypasses.there c).mpr (.inl ⟨edge,apart⟩)
  · exact (bypasses.elsewhere b source c).mpr edge

-- A path to a node other than t needs no node that it did not need before.
theorem Bypasses.reaches {P : α → Prop} (bypasses : Bypasses E E' a t) (apart : d ≠ t)
    (path : ReflTransGen (Into P E) b d) : ReflTransGen (Into P E') b d := by
  induction path using ReflTransGen.head_induction_on with
  | refl => exact .refl
  | head step further ih =>
    rename_i x y
    by_cases skipped : x = a ∧ y = t
    · obtain ⟨rfl,rfl⟩ := skipped
      rcases ReflTransGen.cases_head ih with same | ⟨z,next,rest⟩
      · exact absurd same.symm apart
      · have onward := (bypasses.elsewhere y bypasses.distinct.symm z).mp next.1
        exact .head ⟨(bypasses.there z).mpr (.inr onward),next.2⟩ rest
    · refine .head ⟨bypasses.other step.1 ?_,step.2⟩ ih
      by_cases source : x = a
      · exact .inr fun target => skipped ⟨source,target⟩
      · exact .inl source

theorem Bypasses.back (bypasses : Bypasses E E' a t) (edge : E' b c) : TransGen E b c := by
  by_cases source : b = a
  · subst source
    rcases (bypasses.there c).mp edge with ⟨same,_⟩ | onward
    · exact .single same
    · exact .tail (.single bypasses.edge) onward
  · exact .single ((bypasses.elsewhere b source c).mp edge)

-- Only t can become unreachable, and only if it does not jump to itself.
theorem Bypasses.stays_reachable (bypasses : Bypasses E E' a t) (path : ReflTransGen E e b) (apart : e ≠ t) :
    ReflTransGen E' e b ∨ b = t ∧ ¬ E t t ∧ ReflTransGen E' e a := by
  induction path with
  | refl => exact .inl .refl
  | tail before edge ih =>
    rename_i x y
    rcases ih with reached | ⟨rfl,noLoop,source⟩
    · by_cases skipped : x = a ∧ y = t
      · obtain ⟨rfl,rfl⟩ := skipped
        by_cases loop : E y y
        · exact .inl (reached.tail ((bypasses.there y).mpr (.inr loop)))
        · exact .inr ⟨rfl,loop,reached⟩
      · refine .inl (reached.tail (bypasses.other edge ?_))
        by_cases source : x = a
        · exact .inr fun target => skipped ⟨source,target⟩
        · exact .inl source
    · exact .inl (source.tail ((bypasses.there y).mpr (.inr edge)))

-- Every cycle can be reached.
def CyclesReached (E : α → α → Prop) (e : α) : Prop := ∀ b, TransGen E b b → ReflTransGen E e b

theorem Bypasses.cyclesReached (bypasses : Bypasses E E' a t) (apart : e ≠ t) (before : CyclesReached E e) :
    CyclesReached E' e := by
  have reached : ∀ b, TransGen E' b b → b ≠ t → ReflTransGen E' e b := by
    intro b cycle other
    have old : TransGen E b b := TransGen.closed (fun _ _ edge => bypasses.back edge) _ _ cycle
    rcases bypasses.stays_reachable (before b old) apart with reached | ⟨same,_⟩
    · exact reached
    · exact absurd same other
  intro b cycle
  by_cases same : b = t
  · subst same
    obtain ⟨p,path,last⟩ := TransGen.tail'_iff.mp cycle
    by_cases loop : p = b
    · subst loop
      have old : TransGen E p p := .single ((bypasses.elsewhere p bypasses.distinct.symm p).mp last)
      rcases bypasses.stays_reachable (before p old) apart with reached | ⟨_,noLoop,_⟩
      · exact reached
      · exact absurd ((bypasses.elsewhere p bypasses.distinct.symm p).mp last) noLoop
    · exact (reached p (TransGen.head' last path) loop).tail last
  · exact reached b cycle same

-- Past its last visit to t, a path to another node avoids t.
theorem avoids_after (path : ReflTransGen E t d) (apart : d ≠ t) :
    ∃ c, E t c ∧ c ≠ t ∧ ReflTransGen (Into (· ≠ t) E) c d := by
  have last : ∀ x, ReflTransGen E x d →
      ReflTransGen (Into (· ≠ t) E) x d ∨ ∃ c, E t c ∧ c ≠ t ∧ ReflTransGen (Into (· ≠ t) E) c d := by
    intro x path
    induction path using ReflTransGen.head_induction_on with
    | refl => exact .inl .refl
    | head step further ih =>
      rename_i x y
      rcases ih with avoiding | found
      · by_cases again : y = t
        · subst again
          rcases ReflTransGen.cases_head avoiding with same | ⟨z,next,rest⟩
          · exact absurd same.symm apart
          · exact .inr ⟨z,next.1,next.2,rest⟩
        · exact .inl (.head ⟨step,again⟩ avoiding)
      · exact .inr found
  rcases last t path with avoiding | found
  · rcases ReflTransGen.cases_head avoiding with same | ⟨z,next,rest⟩
    · exact absurd same.symm apart
    · exact ⟨z,next.1,next.2,rest⟩
  · exact found

-- In a finite graph whose cycles are reached, a node that cannot be reached has an ancestor without edges into it.
theorem exists_source {L : List α} (cycles : CyclesReached E e)
    (closed : ∀ b ∈ L, ¬ ReflTransGen E e b → ∃ p ∈ L, E p b) : ∀ b ∈ L, ReflTransGen E e b := by
  classical
  by_contra! failing
  obtain ⟨b,listed,apart⟩ := failing
  let U := {b : α // b ∈ L ∧ ¬ ReflTransGen E e b}
  have finite : Finite U := by
    have within : {b | b ∈ L ∧ ¬ ReflTransGen E e b} ⊆ {b | b ∈ L} := fun b both => both.1
    exact ((List.finite_toSet L).subset within).to_subtype
  let r : U → U → Prop := fun p q => TransGen E p.1 q.1
  have irrefl : Std.Irrefl r := ⟨fun p cycle => p.2.2 (cycles p.1 cycle)⟩
  have trans : IsTrans U r := ⟨fun _ _ _ first second => first.trans second⟩
  have founded : WellFounded r := Finite.wellFounded_of_trans_of_irrefl r
  obtain ⟨m,_,least⟩ := founded.has_min Set.univ ⟨⟨b,listed,apart⟩,trivial⟩
  obtain ⟨p,member,edge⟩ := closed m.1 m.2.1 m.2.2
  have above : ¬ ReflTransGen E e p := fun reached => m.2.2 (reached.tail edge)
  exact least ⟨p,member,above⟩ trivial (.single edge)

end Bypass
