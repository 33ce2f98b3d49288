import Mathlib.Data.List.Basic
import Mathlib.Data.List.Nodup
import Mathlib.Order.Bounds.Basic
import Mathlib.Data.Fintype.Order

namespace Stratify
variable {α : Type*} {imports : α → List α} {seeded member : α → Prop} {floor : ℕ} {order : List (List α)} {n m : α}
variable {done done' : List α}

-- Seeds come first. Anything else waits until all its imports are done.
def Ready (imports : α → List α) (seeded : α → Prop) (done : List α) (n : α) : Prop :=
  ¬ seeded n ∧ ∀ m ∈ imports n, m ∈ done

theorem Ready.mono (ready : Ready imports seeded done n) (more : ∀ m ∈ done, m ∈ done') : Ready imports seeded done' n :=
  ⟨ready.1,fun m import_ => more m (ready.2 m import_)⟩

-- What the next stratum is made of.
def Frontier (imports : α → List α) (seeded member : α → Prop) (done : List α) (n : α) : Prop :=
  member n ∧ Ready imports seeded done n ∧ n ∉ done

-- The first strata, of which there are floor, hold the seeds, and each later one all that is ready by then.
structure Strata (imports : α → List α) (seeded member : α → Prop) (floor : ℕ) (order : List (List α)) : Prop where
  once : order.flatten.Nodup
  seeds : ∀ n, n ∈ (order.take floor).flatten ↔ member n ∧ seeded n
  enough : floor ≤ order.length
  layer : ∀ i stratum, floor ≤ i → order[i]? = some stratum →
    ∀ n, n ∈ stratum ↔ Frontier imports seeded member (order.take i).flatten n

theorem mem_take_flatten {i : ℕ} : n ∈ (order.take i).flatten ↔ ∃ j stratum, j < i ∧ order[j]? = some stratum ∧ n ∈ stratum := by
  simp only [List.mem_flatten,List.mem_take_iff_getElem,List.getElem?_eq_some_iff]
  constructor
  · rintro ⟨stratum,⟨j,inside,rfl⟩,here⟩
    exact ⟨j,_,by omega,⟨by omega,rfl⟩,here⟩
  · rintro ⟨j,stratum,below,⟨inside,rfl⟩,here⟩
    exact ⟨_,⟨j,by omega,rfl⟩,here⟩

theorem mem_take_mono {i j : ℕ} (le : i ≤ j) (here : n ∈ (order.take i).flatten) : n ∈ (order.take j).flatten := by
  obtain ⟨k,stratum,below,at_,here⟩ := mem_take_flatten.mp here
  exact mem_take_flatten.mpr ⟨k,stratum,by omega,at_,here⟩

theorem mem_take_all (here : n ∈ order.flatten) : n ∈ (order.take order.length).flatten := by
  rwa [List.take_length]

theorem mem_of_mem_take {i : ℕ} (here : n ∈ (order.take i).flatten) : n ∈ order.flatten := by
  obtain ⟨stratum,listed,here⟩ := List.mem_flatten.mp here
  exact List.mem_flatten.mpr ⟨stratum,List.mem_of_mem_take listed,here⟩

-- A finite relation without cycles is well founded.
theorem wellFounded_of_acyclic {r : α → α → Prop} {L : List α} (inside : ∀ m n, r m n → m ∈ L ∧ n ∈ L)
    (acyclic : ∀ n, ¬ Relation.TransGen r n n) : WellFounded r := by
  let U := {n : α // n ∈ L}
  have finite : Finite U := (List.finite_toSet L).to_subtype
  let below : U → U → Prop := fun p q => Relation.TransGen r p.1 q.1
  have irrefl : Std.Irrefl below := ⟨fun p cycle => acyclic p.1 cycle⟩
  have trans : IsTrans U below := ⟨fun _ _ _ first second => first.trans second⟩
  have founded : WellFounded below := Finite.wellFounded_of_trans_of_irrefl below
  have listed : ∀ p : U, Acc r p.1 := by
    intro p
    induction p using founded.induction with
    | h p ih => exact ⟨_,fun m step => ih ⟨m,(inside m _ step).1⟩ (.single step)⟩
  exact ⟨fun n => ⟨_,fun m step => listed ⟨m,(inside m n step).1⟩⟩⟩

namespace Strata
variable (strata : Strata imports seeded member floor order)
include strata

-- Where a node is, and why.
theorem placed (here : n ∈ order.flatten) :
    (n ∈ (order.take floor).flatten ∧ member n ∧ seeded n) ∨
    ∃ i stratum, floor ≤ i ∧ order[i]? = some stratum ∧ n ∈ stratum ∧
      Frontier imports seeded member (order.take i).flatten n := by
  obtain ⟨i,stratum,below,at_,here⟩ := mem_take_flatten.mp (mem_take_all here)
  by_cases early : i < floor
  · have first := mem_take_flatten.mpr ⟨i,stratum,early,at_,here⟩
    exact .inl ⟨first,(strata.seeds n).mp first⟩
  · have late : floor ≤ i := Nat.le_of_not_lt early
    exact .inr ⟨i,stratum,late,at_,here,(strata.layer i stratum late at_ n).mp here⟩

theorem listed (here : n ∈ order.flatten) : member n := by
  rcases strata.placed here with ⟨_,listed,_⟩ | ⟨_,_,_,_,_,frontier⟩
  · exact listed
  · exact frontier.1

theorem ready (here : n ∈ order.flatten) (other : ¬ seeded n) : Ready imports seeded order.flatten n := by
  rcases strata.placed here with ⟨_,_,seed⟩ | ⟨i,_,_,_,_,frontier⟩
  · exact absurd seed other
  · exact frontier.2.1.mono fun m => mem_of_mem_take

-- One more stratum, found by whatever means.
theorem push {stratum : List α} (distinct : stratum.Nodup)
    (found : ∀ n, n ∈ stratum ↔ Frontier imports seeded member order.flatten n) :
    Strata imports seeded member floor (order ++ [stratum]) where
  once := by
    rw [List.flatten_append,List.flatten_singleton,List.nodup_append]
    refine ⟨strata.once,distinct,?_⟩
    rintro n before m new rfl
    exact ((found n).mp new).2.2 before
  seeds := by
    rw [List.take_append_of_le_length strata.enough]
    exact strata.seeds
  enough := by
    rw [List.length_append]
    exact Nat.le_add_right_of_le strata.enough
  layer := by
    intro i other late at_ n
    rcases Nat.lt_trichotomy i order.length with inside | last | beyond
    · rw [List.getElem?_append_left inside] at at_
      rw [List.take_append_of_le_length inside.le]
      exact strata.layer i other late at_ n
    · subst last
      rw [List.getElem?_append_right le_rfl,Nat.sub_self,List.getElem?_cons_zero,Option.some.injEq] at at_
      subst at_
      rw [List.take_left]
      exact found n
    · have none : (order ++ [stratum])[i]? = none := by
        apply List.getElem?_eq_none
        rw [List.length_append,List.length_singleton]
        omega
      rw [none] at at_
      cases at_

-- What the new stratum makes ready is what comes next.
theorem frontier_push {stratum : List α} (found : ∀ n, n ∈ stratum ↔ Frontier imports seeded member order.flatten n) :
    Frontier imports seeded member (order.flatten ++ stratum) n ↔
    member n ∧ Ready imports seeded (order.flatten ++ stratum) n ∧ ¬ Ready imports seeded order.flatten n := by
  constructor
  · rintro ⟨listed,ready,left⟩
    refine ⟨listed,ready,fun early => left ?_⟩
    by_cases before : n ∈ order.flatten
    · exact List.mem_append_left _ before
    · exact List.mem_append_right _ ((found n).mpr ⟨listed,early,before⟩)
  · rintro ⟨listed,ready,late⟩
    refine ⟨listed,ready,fun here => late ?_⟩
    rcases List.mem_append.mp here with before | new
    · exact strata.ready before ready.1
    · exact ((found n).mp new).2.1

-- If nothing is left to do, everything is done.
theorem complete (founded : WellFounded fun m n => member n ∧ m ∈ imports n)
    (closed : ∀ n, member n → ∀ m ∈ imports n, member m)
    (ended : ∀ n, ¬ Frontier imports seeded member order.flatten n) : ∀ n, member n → n ∈ order.flatten := by
  intro n
  induction n using founded.induction with
  | h n ih =>
    intro listed
    by_cases seed : seeded n
    · exact mem_of_mem_take ((strata.seeds n).mpr ⟨listed,seed⟩)
    · by_contra left
      refine ended n ⟨listed,⟨seed,?_⟩,left⟩
      intro m import_
      exact ih m ⟨listed,import_⟩ (closed n listed m import_)

end Strata

section Position
variable [DecidableEq α]

-- The stratum that n is in.
def stratumOf (order : List (List α)) (n : α) : ℕ := order.findIdx fun stratum => n ∈ stratum

theorem stratumOf_lt_iff {i : ℕ} (here : n ∈ order.flatten) : stratumOf order n < i ↔ n ∈ (order.take i).flatten := by
  obtain ⟨stratum,listed,inside⟩ := List.mem_flatten.mp here
  have bound : stratumOf order n < order.length :=
    List.findIdx_lt_length_of_exists ⟨stratum,listed,decide_eq_true inside⟩
  have found : n ∈ order[stratumOf order n] := of_decide_eq_true (List.findIdx_getElem (w := bound))
  rw [mem_take_flatten]
  constructor
  · intro below
    exact ⟨_,_,below,List.getElem?_eq_getElem bound,found⟩
  · rintro ⟨j,stratum,below,at_,inside⟩
    obtain ⟨short,rfl⟩ := List.getElem?_eq_some_iff.mp at_
    by_contra late
    have missed := List.not_of_lt_findIdx (show j < stratumOf order n by omega)
    exact of_decide_eq_false (Bool.eq_false_iff.mpr (by simpa using missed)) inside

theorem Strata.isLeast_stratumOf (strata : Strata imports seeded member floor order)
    (closed : ∀ n, member n → ∀ m ∈ imports n, member m) (all : ∀ n, member n → n ∈ order.flatten) (listed : member n)
    (other : ¬ seeded n) : IsLeast {k | floor ≤ k ∧ ∀ m ∈ imports n, stratumOf order m < k} (stratumOf order n) := by
  have known : ∀ m ∈ imports n, m ∈ order.flatten := fun m import_ => all m (closed n listed m import_)
  rcases strata.placed (all n listed) with ⟨_,_,seed⟩ | ⟨i,stratum,late,at_,inside,frontier⟩
  · exact absurd seed other
  -- n is in no stratum before the one found.
  have position : stratumOf order n = i := by
    apply Nat.le_antisymm
    · refine Nat.lt_succ_iff.mp ((stratumOf_lt_iff (all n listed)).mpr ?_)
      exact mem_take_flatten.mpr ⟨i,stratum,Nat.lt_succ_self i,at_,inside⟩
    · by_contra below
      exact frontier.2.2 ((stratumOf_lt_iff (all n listed)).mp (Nat.lt_of_not_le below))
  rw [position]
  refine ⟨⟨late,fun m import_ => (stratumOf_lt_iff (known m import_)).mpr (frontier.2.1.2 m import_)⟩,?_⟩
  rintro k ⟨enough,before⟩
  by_contra early
  have short : k < order.length := by
    have := (List.getElem?_eq_some_iff.mp at_).1
    omega
  have sooner : Frontier imports seeded member (order.take k).flatten n := by
    refine ⟨listed,⟨other,fun m import_ => (stratumOf_lt_iff (known m import_)).mp (before m import_)⟩,?_⟩
    exact fun here => frontier.2.2 (mem_take_mono (by omega) here)
  have here := (strata.layer k _ enough (List.getElem?_eq_getElem short) n).mpr sooner
  exact frontier.2.2 (mem_take_flatten.mpr ⟨k,_,by omega,List.getElem?_eq_getElem short,here⟩)

end Position
end Stratify
