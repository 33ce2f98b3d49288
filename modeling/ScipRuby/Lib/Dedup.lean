import Mathlib.Data.Set.Insert
import Mathlib.Data.List.Perm.Basic

namespace Dedup

-- A request to put something out. Of the requests with one key only the first is heard.
structure Request (κ β : Type) where
  key : Option κ
  out : Option β

variable {κ β : Type}

open scoped Classical in
noncomputable def admitted (seen : Set κ) : List (Request κ β) → List β
  | [] => []
  | request :: rest =>
    match request.key with
    | none => request.out.toList ++ admitted seen rest
    | some key =>
      if key ∈ seen then admitted seen rest else request.out.toList ++ admitted (insert key seen) rest

theorem admitted_unkeyed (seen : Set κ) (request : Request κ β) (rest : List (Request κ β))
    (unkeyed : request.key = none) : admitted seen (request :: rest) = request.out.toList ++ admitted seen rest := by
  simp [admitted,unkeyed]

theorem admitted_repeated (seen : Set κ) (request : Request κ β) (rest : List (Request κ β))
    (keyed : request.key = some key) (old : key ∈ seen) : admitted seen (request :: rest) = admitted seen rest := by
  simp [admitted,keyed,old]

theorem admitted_new (seen : Set κ) (request : Request κ β) (rest : List (Request κ β))
    (keyed : request.key = some key) (new : key ∉ seen) :
    admitted seen (request :: rest) = request.out.toList ++ admitted (insert key seen) rest := by
  simp [admitted,keyed,new]

-- What every output comes from.
theorem admitted_source (requests : List (Request κ β)) (seen : Set κ) (present : out ∈ admitted seen requests) :
    ∃ request ∈ requests, request.out = some out := by
  induction requests generalizing seen with
  | nil => cases present
  | cons request rest ih =>
    have later (seen : Set κ) (inside : out ∈ admitted seen rest) :
        ∃ other ∈ request :: rest, other.out = some out := by
      obtain ⟨other,member,makes⟩ := ih seen inside
      exact ⟨other,List.mem_cons_of_mem _ member,makes⟩
    have either (seen : Set κ) (inside : out ∈ request.out.toList ++ admitted seen rest) :
        ∃ other ∈ request :: rest, other.out = some out := by
      rcases List.mem_append.mp inside with here | after
      · exact ⟨request,List.mem_cons_self,Option.mem_toList.mp here⟩
      · exact later seen after
    cases keyed : request.key with
    | none =>
      rw [admitted_unkeyed seen request rest keyed] at present
      exact either seen present
    | some key =>
      by_cases old : key ∈ seen
      · rw [admitted_repeated seen request rest keyed old] at present
        exact later seen present
      · rw [admitted_new seen request rest keyed old] at present
        exact either _ present

def Agreeing (requests : List (Request κ β)) : Prop :=
  ∀ a ∈ requests, ∀ b ∈ requests, ∀ key, a.key = some key → b.key = some key → a.out = b.out

-- The answers to a request and to the rest, in a form that two of them can be
-- exchanged in.
theorem admitted_swap (a b : Request κ β) (rest : List (Request κ β)) (seen : Set κ)
    (agree : ∀ key, a.key = some key → b.key = some key → a.out = b.out) :
    (admitted seen (a :: b :: rest)).Perm (admitted seen (b :: a :: rest)) := by
  have exchanged (seen : Set κ) : (a.out.toList ++ (b.out.toList ++ admitted seen rest)).Perm
      (b.out.toList ++ (a.out.toList ++ admitted seen rest)) := by
    rw [← List.append_assoc,← List.append_assoc]
    exact List.Perm.append_right _ List.perm_append_comm
  cases keyA : a.key with
  | none =>
    rw [admitted_unkeyed seen a _ keyA]
    cases keyB : b.key with
    | none =>
      rw [admitted_unkeyed seen b _ keyB,admitted_unkeyed seen b _ keyB,admitted_unkeyed seen a _ keyA]
      exact exchanged seen
    | some key =>
      by_cases old : key ∈ seen
      · rw [admitted_repeated seen b _ keyB old,admitted_repeated seen b _ keyB old,admitted_unkeyed seen a _ keyA]
      · rw [admitted_new seen b _ keyB old,admitted_new seen b _ keyB old,admitted_unkeyed _ a _ keyA]
        exact exchanged _
  | some key =>
    by_cases old : key ∈ seen
    · rw [admitted_repeated seen a _ keyA old]
      cases keyB : b.key with
      | none =>
        rw [admitted_unkeyed seen b _ keyB,admitted_unkeyed seen b _ keyB,admitted_repeated seen a _ keyA old]
      | some key' =>
        by_cases old' : key' ∈ seen
        · rw [admitted_repeated seen b _ keyB old',admitted_repeated seen b _ keyB old',
            admitted_repeated seen a _ keyA old]
        · rw [admitted_new seen b _ keyB old',admitted_new seen b _ keyB old',
            admitted_repeated _ a _ keyA (Set.mem_insert_of_mem _ old)]
    · rw [admitted_new seen a _ keyA old]
      cases keyB : b.key with
      | none =>
        rw [admitted_unkeyed _ b _ keyB,admitted_unkeyed _ b _ keyB,admitted_new seen a _ keyA old]
        exact exchanged _
      | some key' =>
        by_cases same : key = key'
        · subst same
          -- Whichever comes first is heard, and both say the same.
          rw [admitted_repeated _ b _ keyB (Set.mem_insert key seen),admitted_new seen b _ keyB old,
            admitted_repeated _ a _ keyA (Set.mem_insert key seen),agree key keyA keyB]
        · by_cases old' : key' ∈ seen
          · rw [admitted_repeated _ b _ keyB (Set.mem_insert_of_mem _ old'),admitted_repeated seen b _ keyB old',
              admitted_new seen a _ keyA old]
          · have new' : key' ∉ insert key seen := by simp [old',Ne.symm same]
            have new : key ∉ insert key' seen := by simp [old,same]
            rw [admitted_new _ b _ keyB new',admitted_new seen b _ keyB old',admitted_new _ a _ keyA new,
              Set.insert_comm key' key]
            exact exchanged _

theorem Agreeing.perm {requests requests' : List (Request κ β)} (agree : Agreeing requests)
    (perm : requests.Perm requests') : Agreeing requests' :=
  fun a inside b inside' => agree a (perm.symm.subset inside) b (perm.symm.subset inside')

-- Requests that agree under each key may be made in any order.
theorem admitted_perm {requests requests' : List (Request κ β)} (perm : requests.Perm requests')
    (agree : Agreeing requests) (seen : Set κ) : (admitted seen requests).Perm (admitted seen requests') := by
  induction perm generalizing seen with
  | nil => exact List.Perm.refl _
  | cons request _ ih =>
    have later := ih (fun a inside b inside' => agree a (List.mem_cons_of_mem _ inside) b (List.mem_cons_of_mem _ inside'))
    cases keyed : request.key with
    | none =>
      rw [admitted_unkeyed seen request _ keyed,admitted_unkeyed seen request _ keyed]
      exact (later seen).append_left _
    | some key =>
      by_cases old : key ∈ seen
      · rw [admitted_repeated seen request _ keyed old,admitted_repeated seen request _ keyed old]
        exact later seen
      · rw [admitted_new seen request _ keyed old,admitted_new seen request _ keyed old]
        exact (later _).append_left _
  | swap a b rest => exact admitted_swap b a rest seen (agree b (by simp) a (by simp))
  | trans first _ ih ih' => exact (ih agree seen).trans (ih' (agree.perm first) seen)

end Dedup
