import Mathlib.Logic.Basic

namespace OpenRecursion

-- The body of one function of a mutually recursive family: it ends with a value, leaves the defined
-- behaviour of its language, or calls the family again and goes on with the answer.
inductive Body (Q : Type) (A : Q → Type) (α : Type) where
  | done (value : α)
  | stuck
  | call (query : Q) (next : A query → Body Q A α)

variable {Q : Type} {A : Q → Type} {α β : Type}

def Body.bind : Body Q A α → (α → Body Q A β) → Body Q A β
  | .done value,f => f value
  | .stuck,_ => .stuck
  | .call query next,f => .call query fun answer => (next answer).bind f

instance : Monad (Body Q A) where
  pure := .done
  bind := .bind

def ask (query : Q) : Body Q A (A query) := .call query .done

def Body.eval (answers : ∀ query, Option (A query)) : Body Q A α → Option α
  | .done value => some value
  | .stuck => none
  | .call query next => (answers query).bind fun answer => (next answer).eval answers

-- The family unfolded to a bounded depth of calls.
def run (step : ∀ query, Body Q A (A query)) : Nat → ∀ query, Option (A query)
  | 0,_ => none
  | fuel + 1,query => (step query).eval (run step fuel)

section Unfolding
variable (step : ∀ query, Body Q A (A query))

def Returns (query : Q) (answer : A query) : Prop := ∃ fuel, run step fuel query = some answer

def Body.Yields (body : Body Q A α) (value : α) : Prop := ∃ fuel, body.eval (run step fuel) = some value

-- Total correctness of a body.
def Body.Ensures (body : Body Q A α) (post : α → Prop) : Prop := ∃ value, body.Yields step value ∧ post value
end Unfolding

section Laws
variable {step : ∀ query, Body Q A (A query)}

theorem Body.eval_mono {answers more : ∀ query, Option (A query)}
    (extends_ : ∀ query answer, answers query = some answer → more query = some answer)
    (body : Body Q A α) (value : α) : body.eval answers = some value → body.eval more = some value := by
  induction body with
  | done => exact id
  | stuck => intro impossible; cases impossible
  | call query next ih =>
    intro evaluated
    obtain ⟨answer,given,rest⟩ := Option.bind_eq_some_iff.mp evaluated
    exact Option.bind_eq_some_iff.mpr ⟨answer,extends_ _ _ given,ih answer rest⟩

theorem run_mono {less more : Nat} (le : less ≤ more) (query : Q) (answer : A query) :
    run step less query = some answer → run step more query = some answer := by
  induction less generalizing more query with
  | zero => intro impossible; cases impossible
  | succ less ih =>
    obtain ⟨more,rfl⟩ : ∃ k, more = k + 1 := ⟨more - 1,by omega⟩
    exact Body.eval_mono (fun q a => ih (by omega) q a) (step query) answer

theorem Body.eval_run_mono {less more : Nat} (le : less ≤ more) {body : Body Q A α} {value : α}
    (evaluated : body.eval (run step less) = some value) : body.eval (run step more) = some value :=
  body.eval_mono (run_mono le) value evaluated

theorem returns_iff {query : Q} {answer : A query} :
    Returns step query answer ↔ (step query).Yields step answer := by
  constructor
  · rintro ⟨fuel,evaluated⟩
    cases fuel with
    | zero => cases evaluated
    | succ fuel => exact ⟨fuel,evaluated⟩
  · rintro ⟨fuel,evaluated⟩
    exact ⟨fuel + 1,evaluated⟩

theorem Body.Yields.unique {body : Body Q A α} {one other : α} (left : body.Yields step one)
    (right : body.Yields step other) : one = other := by
  obtain ⟨n,first⟩ := left
  obtain ⟨m,second⟩ := right
  have one_large := Body.eval_run_mono (Nat.le_max_left n m) first
  have other_large := Body.eval_run_mono (Nat.le_max_right n m) second
  exact Option.some.inj (one_large.symm.trans other_large)

theorem Returns.unique {query : Q} {one other : A query} (left : Returns step query one)
    (right : Returns step query other) : one = other :=
  (returns_iff.mp left).unique (returns_iff.mp right)

@[simp] theorem yields_pure {value result : α} : (pure value : Body Q A α).Yields step result ↔ value = result := by
  constructor
  · rintro ⟨_,evaluated⟩
    exact Option.some.inj evaluated
  · rintro rfl
    exact ⟨0,rfl⟩

@[simp] theorem yields_stuck {result : α} : ¬ (Body.stuck : Body Q A α).Yields step result := by
  rintro ⟨_,evaluated⟩
  cases evaluated

theorem yields_call {query : Q} {next : A query → Body Q A α} {result : α} :
    (Body.call query next).Yields step result ↔
      ∃ answer, Returns step query answer ∧ (next answer).Yields step result := by
  constructor
  · rintro ⟨fuel,evaluated⟩
    obtain ⟨answer,given,rest⟩ := Option.bind_eq_some_iff.mp evaluated
    exact ⟨answer,⟨fuel,given⟩,fuel,rest⟩
  · rintro ⟨answer,⟨n,given⟩,m,rest⟩
    refine ⟨max n m,Option.bind_eq_some_iff.mpr ⟨answer,?_,?_⟩⟩
    · exact run_mono (Nat.le_max_left n m) _ _ given
    · exact Body.eval_run_mono (Nat.le_max_right n m) rest

@[simp] theorem yields_ask {query : Q} {answer : A query} :
    (ask query : Body Q A _).Yields step answer ↔ Returns step query answer := by
  refine yields_call.trans ⟨?_,fun given => ⟨answer,given,⟨0,rfl⟩⟩⟩
  rintro ⟨found,given,rest⟩
  cases yields_pure.mp rest
  exact given

@[simp] theorem yields_bind {body : Body Q A α} {f : α → Body Q A β} {result : β} :
    (body >>= f).Yields step result ↔ ∃ value, body.Yields step value ∧ (f value).Yields step result := by
  change (body.bind f).Yields step result ↔ _
  induction body with
  | done value =>
    constructor
    · intro rest
      exact ⟨value,⟨0,rfl⟩,rest⟩
    · rintro ⟨found,given,rest⟩
      cases yields_pure.mp given
      exact rest
  | stuck =>
    constructor
    · intro impossible
      exact absurd impossible yields_stuck
    · rintro ⟨_,impossible,_⟩
      exact absurd impossible yields_stuck
  | call query next ih =>
    refine yields_call.trans ⟨?_,?_⟩
    · rintro ⟨answer,given,rest⟩
      obtain ⟨value,first,second⟩ := (ih answer).mp rest
      exact ⟨value,yields_call.mpr ⟨answer,given,first⟩,second⟩
    · rintro ⟨value,first,second⟩
      obtain ⟨answer,given,rest⟩ := yields_call.mp first
      exact ⟨answer,given,(ih answer).mpr ⟨value,rest,second⟩⟩

theorem ensures_pure {value : α} {post : α → Prop} (holds : post value) :
    (pure value : Body Q A α).Ensures step post := ⟨value,yields_pure.mpr rfl,holds⟩

theorem ensures_bind {body : Body Q A α} {f : α → Body Q A β} {post : β → Prop}
    (first : body.Ensures step fun value => (f value).Ensures step post) : (body >>= f).Ensures step post := by
  obtain ⟨value,given,result,rest,holds⟩ := first
  exact ⟨result,yields_bind.mpr ⟨value,given,rest⟩,holds⟩

-- The rest of the body copes with every value of a part that is known to end.
theorem ensures_bind_any {body : Body Q A α} {f : α → Body Q A β} {post : β → Prop}
    (ends : ∃ value, body.Yields step value) (rest : ∀ value, (f value).Ensures step post) :
    (body >>= f).Ensures step post := by
  obtain ⟨value,given⟩ := ends
  exact ensures_bind ⟨value,given,rest value⟩

theorem ensures_bind_of {body : Body Q A α} {f : α → Body Q A β} {mid : α → Prop} {post : β → Prop}
    (first : body.Ensures step mid) (rest : ∀ value, mid value → (f value).Ensures step post) :
    (body >>= f).Ensures step post := by
  obtain ⟨value,given,holds⟩ := first
  exact ensures_bind ⟨value,given,rest value holds⟩

theorem ensures_ask {query : Q} {post : A query → Prop} (body : (step query).Ensures step post) :
    (ask query : Body Q A _).Ensures step post := by
  obtain ⟨answer,given,holds⟩ := body
  exact ⟨answer,yields_ask.mpr (returns_iff.mpr given),holds⟩

theorem Body.Ensures.imp {body : Body Q A α} {post weaker : α → Prop} (ensures : body.Ensures step post)
    (implies : ∀ value, post value → weaker value) : body.Ensures step weaker := by
  obtain ⟨value,given,holds⟩ := ensures
  exact ⟨value,given,implies value holds⟩

end Laws

section Waiting
variable {step : ∀ query, Body Q A (A query)} [DecidableEq Q]

-- Whether a body comes to a query, given answers to those before it.
def Body.asks (answers : ∀ query, Option (A query)) (target : Q) : Body Q A α → Bool
  | .done _ => false
  | .stuck => false
  | .call query next =>
    if query = target then true
    else
      match answers query with
      | none => false
      | some answer => (next answer).asks answers target

-- A body that comes to a query ends with an answer to it only.
theorem Body.asks_answered {fuel : Nat} {target : Q} {body : Body Q A α} {n : Nat} {value : α}
    (asks : body.asks (run step fuel) target = true) (evaluated : body.eval (run step n) = some value) :
    ∃ answer, run step n target = some answer := by
  induction body with
  | done => cases asks
  | stuck => cases asks
  | call query next ih =>
    obtain ⟨answer,given,rest⟩ := Option.bind_eq_some_iff.mp evaluated
    simp only [Body.asks] at asks
    split at asks
    · rename_i reached
      subst reached
      exact ⟨answer,given⟩
    · split at asks
      · cases asks
      · rename_i other known
        have one : Returns step query other := ⟨fuel,known⟩
        cases one.unique ⟨n,given⟩
        exact ih _ asks rest

-- Queries that wait for one another in a circle are never answered.
theorem never_returns {fuel : Nat} {waits : List (Q × Q)}
    (asks : ∀ edge ∈ waits, (step edge.1).asks (run step fuel) edge.2 = true)
    (closed : ∀ edge ∈ waits, ∃ further ∈ waits, further.1 = edge.2) {edge : Q × Q} (member : edge ∈ waits)
    (answer : A edge.1) : ¬ Returns step edge.1 answer := by
  rintro ⟨n,evaluated⟩
  induction n generalizing edge with
  | zero => cases evaluated
  | succ n ih =>
    obtain ⟨query,target⟩ := edge
    obtain ⟨other,given⟩ := Body.asks_answered (asks _ member) evaluated
    obtain ⟨⟨start,_⟩,present,same⟩ := closed _ member
    cases same
    exact ih present other given

end Waiting
end OpenRecursion
