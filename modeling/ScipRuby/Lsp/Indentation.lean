import Mathlib.Data.List.TakeWhile

namespace Lsp.Indentation

def space : UInt8 := 0x20
-- U+00A0 in UTF-8.
def nbsp : List UInt8 := [0xC2,0xA0]

-- message.find(' ', pos); npos is none.
def find (message : List UInt8) (pos : Nat) : Option Nat := ((message.drop pos).findIdx? (· == space)).map (pos + ·)

-- message.find_first_not_of(' ')
def findFirstNotOf (message : List UInt8) : Option Nat := message.findIdx? (· != space)

-- npos is the largest size, so that every other position is below it.
def below (pos : Nat) : Option Nat → Bool
  | none => true
  | some bound => pos < bound

-- message.replace(pos, 1, nbsp), which throws behind the end and takes what is left at the end.
def replace (message : List UInt8) (pos : Nat) : Option (List UInt8) :=
  if message.length < pos then none else some (message.take pos ++ nbsp ++ message.drop (pos + 1))

-- The rounds of the for loop from a position on.
def indentLoop (firstNonWhitespace : Option Nat) : (rounds : Nat) → (message : List UInt8) → (pos : Option Nat) → Option (List UInt8)
  | 0,_,_ => none
  | _+1,message,none => some message
  | rounds+1,message,some pos =>
    if below pos firstNonWhitespace then do
      let message ← replace message pos
      indentLoop firstNonWhitespace rounds message (find message (pos + 1))
    else some message

-- More rounds than the message has bytes.
def indent (message : List UInt8) : Option (List UInt8) :=
  indentLoop (findFirstNotOf message) (message.length + 2) message (some 0)

def leadingSpaces (message : List UInt8) : Nat := (message.takeWhile (· == space)).length

def nbsps (count : Nat) : List UInt8 := (List.replicate count nbsp).flatten

-- Every leading space is replaced by a non-breaking one.
def Indented (message result : List UInt8) : Prop :=
  result = nbsps (leadingSpaces message) ++ message.dropWhile (· == space)

variable {message before rest result : List UInt8} {first : Option Nat} {count k rounds : Nat}

theorem nbsps_succ (count : Nat) : nbsps (count + 1) = nbsp ++ nbsps count := by
  rw [nbsps,List.replicate_succ,List.flatten_cons,nbsps]

theorem length_nbsps (count : Nat) : (nbsps count).length = 2 * count := by
  induction count with
  | zero => rfl
  | succ count ih =>
    rw [nbsps_succ,List.length_append,ih]
    change 2 + 2 * count = _
    omega

-- What is searched for behind a place.
def nextSpace (before rest : List UInt8) : Option Nat := (rest.findIdx? (· == space)).map (before.length + ·)

-- A round at a space puts the two bytes there and goes on behind them.
theorem indentLoop_step (early : below before.length first = true) :
    indentLoop first (rounds + 1) (before ++ space :: rest) (some before.length) =
      indentLoop first rounds (before ++ nbsp ++ rest) (nextSpace (before ++ nbsp) rest) := by
  have replaced : replace (before ++ space :: rest) before.length = some (before ++ nbsp ++ rest) := by
    rw [replace,if_neg (by rw [List.length_append]; omega),List.take_left,← List.drop_drop,List.drop_left]
    rfl
  have behind : (before ++ nbsp ++ rest).drop (before.length + 1) = 0xA0 :: rest := by
    rw [List.append_assoc,← List.drop_drop,List.drop_left]
    rfl
  have found : find (before ++ nbsp ++ rest) (before.length + 1) = nextSpace (before ++ nbsp) rest := by
    rw [find,behind,nextSpace,List.findIdx?_cons,if_neg (by decide),Option.map_map,List.length_append]
    congr 1
    funext index
    change before.length + 1 + (index + 1) = before.length + 2 + index
    omega
  rw [indentLoop,if_pos early,replaced,Option.bind_eq_bind,Option.bind_some,found]

-- Without a bound the loop replaces every space of a run at the end.
theorem indentLoop_all (enough : count < rounds) :
    indentLoop none rounds (before ++ List.replicate count space) (nextSpace before (List.replicate count space)) =
      some (before ++ nbsps count) := by
  induction count generalizing before rounds with
  | zero =>
    obtain ⟨rounds,rfl⟩ : ∃ more, rounds = more + 1 := ⟨rounds - 1,by omega⟩
    rfl
  | succ count ih =>
    obtain ⟨rounds,rfl⟩ : ∃ more, rounds = more + 1 := ⟨rounds - 1,by omega⟩
    have here : nextSpace before (List.replicate (count + 1) space) = some before.length := rfl
    have later := @ih (before ++ nbsp) rounds (by omega)
    rw [here,List.replicate_succ,indentLoop_step rfl,later,nbsps_succ,List.append_assoc]

-- Each round moves on by two bytes, so half of the way to the bound is left as it is. The
-- spaces that remain reach at least up to the bound.
theorem indentLoop_half (reach : k ≤ before.length + count) (enough : count < rounds) :
    indentLoop (some k) rounds (before ++ List.replicate count space ++ rest)
        (nextSpace before (List.replicate count space ++ rest)) =
      some (before ++ nbsps ((k - before.length + 1) / 2) ++
        List.replicate (count - (k - before.length + 1) / 2) space ++ rest) := by
  induction count generalizing before rounds with
  | zero =>
    obtain ⟨rounds,rfl⟩ : ∃ more, rounds = more + 1 := ⟨rounds - 1,by omega⟩
    have none : (k - before.length + 1) / 2 = 0 := by omega
    rw [none,List.replicate_zero,List.append_nil,List.nil_append]
    cases found : nextSpace before rest with
    | none => simp [indentLoop,nbsps]
    | some pos =>
      obtain ⟨index,_,rfl⟩ := Option.map_eq_some_iff.mp found
      have late : below (before.length + index) (some k) = false := decide_eq_false (by omega)
      rw [indentLoop,late]
      simp [nbsps]
  | succ count ih =>
    obtain ⟨rounds,rfl⟩ : ∃ more, rounds = more + 1 := ⟨rounds - 1,by omega⟩
    have here : nextSpace before (List.replicate (count + 1) space ++ rest) = some before.length := rfl
    rw [here]
    by_cases early : before.length < k
    · have length : (before ++ nbsp).length = before.length + 2 := List.length_append
      have later := @ih (before ++ nbsp) rounds (by omega) (by omega)
      have half : (k - before.length + 1) / 2 = (k - (before ++ nbsp).length + 1) / 2 + 1 := by omega
      have bounded : below before.length (some k) = true := decide_eq_true early
      rw [List.replicate_succ,List.append_assoc,List.cons_append,indentLoop_step bounded,half,nbsps_succ,
        Nat.add_sub_add_right,← List.append_assoc (before ++ nbsp),later]
      simp only [List.append_assoc]
    · have none : (k - before.length + 1) / 2 = 0 := by omega
      have late : below before.length (some k) = false := decide_eq_false early
      rw [none,indentLoop,late]
      simp [nbsps]

theorem message_cases (message : List UInt8) : (∃ count, message = List.replicate count space) ∨
    ∃ k byte rest, byte ≠ space ∧ message = List.replicate k space ++ byte :: rest := by
  induction message with
  | nil => exact .inl ⟨0,rfl⟩
  | cons first message ih =>
    by_cases same : first = space
    · subst same
      rcases ih with ⟨count,rfl⟩ | ⟨k,byte,rest,other,rfl⟩
      · exact .inl ⟨count + 1,rfl⟩
      · exact .inr ⟨k + 1,byte,rest,other,rfl⟩
    · exact .inr ⟨0,first,message,same,rfl⟩

theorem findFirstNotOf_replicate (count : Nat) (rest : List UInt8) :
    findFirstNotOf (List.replicate count space ++ rest) = (findFirstNotOf rest).map (count + ·) := by
  induction count with
  | zero => simp [findFirstNotOf]
  | succ count ih =>
    rw [List.replicate_succ,List.cons_append,findFirstNotOf,List.findIdx?_cons,if_neg (by decide)]
    change (findFirstNotOf _).map _ = _
    rw [ih,Option.map_map]
    congr 1
    funext index
    change count + index + 1 = count + 1 + index
    omega

-- A message of spaces only, the empty one aside, is replaced entirely.
theorem indent_spaces (count : Nat) : indent (List.replicate (count + 1) space) = some (nbsps (count + 1)) := by
  have unbounded : findFirstNotOf (List.replicate (count + 1) space) = none := by
    have found := findFirstNotOf_replicate (count + 1) []
    rwa [List.append_nil] at found
  rw [indent,unbounded]
  exact @indentLoop_all [] (count + 1) _ (by rw [List.length_replicate]; omega)

-- The bound is where the other bytes started before anything was replaced.
theorem indent_text {byte : UInt8} (other : byte ≠ space) (k : Nat) (rest : List UInt8) :
    indent (List.replicate k space ++ byte :: rest) =
      some (nbsps ((k + 1) / 2) ++ List.replicate (k - (k + 1) / 2) space ++ byte :: rest) := by
  have bound : findFirstNotOf (List.replicate k space ++ byte :: rest) = some k := by
    rw [findFirstNotOf_replicate,findFirstNotOf,List.findIdx?_cons,if_pos (by simpa using other)]
    rfl
  rw [indent,bound]
  cases k with
  | zero => rfl
  | succ k =>
    have run := @indentLoop_half [] (byte :: rest) (k + 1) (k + 1) _ (by simp)
      (by rw [List.length_append,List.length_replicate]; omega :
        k + 1 < (List.replicate (k + 1) space ++ byte :: rest).length + 2)
    exact run

theorem indent_empty : indent [] = some nbsp := by decide

-- The loop ends on every message.
theorem indent_ends (message : List UInt8) : ∃ result, indent message = some result := by
  obtain ⟨count,rfl⟩ | ⟨k,byte,rest,other,rfl⟩ := message_cases message
  · cases count with
    | zero => exact ⟨_,indent_empty⟩
    | succ count => exact ⟨_,indent_spaces count⟩
  · exact ⟨_,indent_text other k rest⟩

theorem indented_spaces (count : Nat) : Indented (List.replicate count space) result ↔ result = nbsps count := by
  rw [Indented,leadingSpaces]
  simp

theorem leadingSpaces_text {byte : UInt8} (other : byte ≠ space) : leadingSpaces (List.replicate k space ++ byte :: rest) = k := by
  rw [leadingSpaces,List.takeWhile_append_of_pos (by simp),List.takeWhile_cons_of_neg (by simpa using other)]
  simp

theorem indented_text {byte : UInt8} (other : byte ≠ space) :
    Indented (List.replicate k space ++ byte :: rest) result ↔ result = nbsps k ++ byte :: rest := by
  rw [Indented,leadingSpaces_text other,List.dropWhile_append_of_pos (by simp),List.dropWhile_cons_of_neg (by simpa using other)]

-- All leading spaces are replaced exactly when there is at most one or nothing else in the
-- message, which must not be empty: there a non-breaking space is put in.
theorem indent_indented_iff (message : List UInt8) :
    (∃ result, indent message = some result ∧ Indented message result) ↔
      message ≠ [] ∧ (leadingSpaces message ≤ 1 ∨ ∀ byte ∈ message, byte = space) := by
  obtain ⟨count,rfl⟩ | ⟨k,byte,rest,other,rfl⟩ := message_cases message
  · cases count with
    | zero =>
      refine iff_of_false ?_ fun holds => holds.1 rfl
      rintro ⟨result,run,indented⟩
      rw [indented_spaces] at indented
      rw [List.replicate_zero,indent_empty,indented] at run
      cases run
    | succ count =>
      have all : ∀ byte ∈ List.replicate (count + 1) space, byte = space := fun _ => List.eq_of_mem_replicate
      refine iff_of_true ⟨_,indent_spaces count,?_⟩ ⟨List.cons_ne_nil _ _,.inr all⟩
      exact (indented_spaces (count + 1)).mpr rfl
  · have text : ¬∀ byte' ∈ List.replicate k space ++ byte :: rest, byte' = space := fun all =>
      other (all byte (List.mem_append_right _ List.mem_cons_self))
    have filled : List.replicate k space ++ byte :: rest ≠ [] := by simp
    rw [leadingSpaces_text other,or_iff_left text,and_iff_right filled]
    constructor
    · rintro ⟨result,run,indented⟩
      rw [indented_text other] at indented
      rw [indent_text other,indented,Option.some.injEq] at run
      -- A space that is left makes the result shorter by one byte.
      have lengths := congrArg List.length run
      rw [List.length_append,List.length_append,List.length_append,List.length_replicate,length_nbsps,length_nbsps] at lengths
      omega
    · intro few
      have half : (k + 1) / 2 = k := by omega
      refine ⟨_,indent_text other k rest,(indented_text other).mpr ?_⟩
      rw [half,Nat.sub_self,List.replicate_zero,List.append_nil]

theorem indent_two : ¬∃ result, indent [space,space,0x61] = some result ∧ Indented [space,space,0x61] result := by
  rintro ⟨result,run,indented⟩
  have left : indent [space,space,0x61] = some (nbsp ++ [space,0x61]) := by decide
  rw [left,Option.some.injEq] at run
  subst run
  exact absurd (congrArg List.length indented) (by decide)

end Lsp.Indentation
