import ScipRuby.Common.Ints
import ScipRuby.Lib.EditDistance

namespace Common
open EditDistance

abbrev Memory := Nat → UInt8

structure StringView where
  data : Nat
  size : Nat

def StringView.bytes (memory : Memory) (s : StringView) : List UInt8 := (List.range s.size).map fun i => memory (s.data + i)

@[simp] theorem StringView.length_bytes (memory : Memory) (s : StringView) : (s.bytes memory).length = s.size := by
  simp [StringView.bytes]

structure Levenstein where
  column : List Int

-- vector::resize keeps the first elements and fills up with zeros.
def resize (column : List Int) (size : Nat) : List Int := column.take size ++ List.replicate (size - column.length) 0

def iota (column : List Int) : List Int := (List.range column.length).map Nat.cast

namespace Levenstein

-- The inner loop from y on, with the values in column[y-1], in s1 from y-1 on and in column from y on.
def fillColumn (byte : UInt8) : (lastDiagonal previous : Int) → (s1 : List UInt8) → (column : List Int) → Option (List Int)
  | _,_,[],column => some column
  | _,_,_ :: _,[] => none
  | lastDiagonal,previous,b :: s1,oldDiagonal :: column => do
    let deleted ← checked (oldDiagonal + 1)
    let inserted ← checked (previous + 1)
    let replaced ← checked (lastDiagonal + if b = byte then 0 else 1)
    let value := min (min deleted inserted) replaced
    let rest ← fillColumn byte oldDiagonal value s1 column
    some (value :: rest)

-- The outer loop from x on, with s2 from x-1 on.
def fillColumns (s1 : List UInt8) : (x : Int) → (s2 : List UInt8) → (column : List Int) → Option (List Int)
  | _,[],column => some column
  | _,_ :: _,[] => none
  | x,byte :: s2,_ :: column => do
    let lastDiagonal ← checked (x - 1)
    let column ← fillColumn byte lastDiagonal x s1 column
    let next ← checked (x + 1)
    fillColumns s1 next s2 (x :: column)

-- What follows the swap. A negative length leaves no column to write to.
def ordered (memory : Memory) (self : Levenstein) (s1 s2 : StringView) (bound : Int) : Option (Int × Levenstein) := do
  let s1len := toInt s1.size
  let s2len := toInt s2.size
  let difference ← checked (s2len - s1len)
  if difference > bound then some (INT_MAX,self)
  else if s1len < 0 then none
  else
    let size ← checked (s1len + 1)
    let column := iota (resize self.column size.toNat)
    let column ← fillColumns ((s1.bytes memory).take s1len.toNat) 1 ((s2.bytes memory).take s2len.toNat) column
    let result ← column[s1len.toNat]?
    some (result,⟨column⟩)

def distance (memory : Memory) (self : Levenstein) (s1 s2 : StringView) (bound : Int) : Option (Int × Levenstein) :=
  if s1.data = s2.data ∧ s1.size = s2.size then some (0,self)
  else if toInt s2.size < toInt s1.size then self.ordered memory s2 s1 bound
  else self.ordered memory s1 s2 bound

end Levenstein

section Column
variable {p q rest s1 s2 : List UInt8} {byte : UInt8}

-- What the column holds from some place on when q has been read of the longer string.
def prefixDistances (q : List UInt8) : (p rest : List UInt8) → List Int
  | _,[] => []
  | p,b :: rest => (levenshtein (p ++ [b]) q : Int) :: prefixDistances q (p ++ [b]) rest

theorem fillColumn_distances (short : p.length + rest.length < 2^31 - 1) (long : q.length + 1 < 2^31 - 1) :
    Levenstein.fillColumn byte (levenshtein p q) (levenshtein p (q ++ [byte])) rest (prefixDistances q p rest) =
      some (prefixDistances (q ++ [byte]) p rest) := by
  induction rest generalizing p with
  | nil => rfl
  | cons b rest ih =>
    rw [List.length_cons] at short
    have next := ih (p := p ++ [b]) (by rw [List.length_append,List.length_singleton]; omega)
    have above := levenshtein_le_max (p ++ [b]) q
    have left := levenshtein_le_max p (q ++ [byte])
    have corner := levenshtein_le_max p q
    have one := cost_le b byte
    rw [List.length_append,List.length_singleton] at above left
    have deleted : checked (levenshtein (p ++ [b]) q + 1) = some _ := checked_fits (by omega) (by omega)
    have inserted : checked (levenshtein p (q ++ [byte]) + 1) = some _ := checked_fits (by omega) (by omega)
    have same : (if b = byte then 0 else 1 : Int) = (cost b byte : Int) := by
      unfold cost
      split <;> rfl
    have replaced : checked (levenshtein p q + (cost b byte : Int)) = some _ := checked_fits (by omega) (by omega)
    have value : min (min ((levenshtein (p ++ [b]) q : Int) + 1) (levenshtein p (q ++ [byte]) + 1))
        (levenshtein p q + (cost b byte : Int)) = (levenshtein (p ++ [b]) (q ++ [byte]) : Int) := by
      rw [levenshtein_snoc]
      omega
    rw [prefixDistances,Levenstein.fillColumn,deleted,inserted,same,replaced]
    simp only [Option.bind_eq_bind,Option.bind_some]
    rw [value,next,Option.bind_some,prefixDistances]

theorem fillColumns_distances (short : s1.length < 2^31 - 1) (long : q.length + rest.length < 2^31 - 1) :
    Levenstein.fillColumns s1 (q.length + 1) rest ((q.length : Int) :: prefixDistances q [] s1) =
      some (((q ++ rest).length : Int) :: prefixDistances (q ++ rest) [] s1) := by
  induction rest generalizing q with
  | nil => rw [Levenstein.fillColumns,List.append_nil]
  | cons byte rest ih =>
    rw [List.length_cons] at long
    have column := @fillColumn_distances [] q s1 byte (by simpa using short) (by omega)
    have next := ih (q := q ++ [byte]) (by rw [List.length_append,List.length_singleton]; omega)
    rw [levenshtein_nil_left,levenshtein_nil_left,List.length_append,List.length_singleton] at column
    rw [List.length_append,List.length_singleton,List.append_assoc,List.singleton_append] at next
    have back : checked ((q.length : Int) + 1 - 1) = some (q.length : Int) := by
      rw [Int.add_sub_cancel]
      exact checked_fits (by omega) (by omega)
    have forth : checked ((q.length : Int) + 1 + 1) = some _ := checked_fits (by omega) (by omega)
    push_cast at column next
    rw [Levenstein.fillColumns,back]
    simp only [Option.bind_eq_bind,Option.bind_some]
    rw [column,forth]
    exact next

theorem prefixDistances_nil (p rest : List UInt8) :
    prefixDistances [] p rest = (List.range rest.length).map fun i => ((p.length + 1 + i : Nat) : Int) := by
  induction rest generalizing p with
  | nil => rfl
  | cons b rest ih =>
    rw [prefixDistances,ih,List.length_cons,List.range_succ_eq_map,List.map_cons,List.map_map,levenshtein_nil_right,
      List.length_append,List.length_singleton]
    congr 1
    apply List.map_congr_left
    intro i _
    rw [Function.comp_apply]
    congr 1
    omega

theorem length_resize (column : List Int) (size : Nat) : (resize column size).length = size := by
  rw [resize,List.length_append,List.length_take,List.length_replicate]
  omega

-- Whatever the column held, the loops start from the distances to the empty string.
theorem iota_resize (column : List Int) : iota (resize column (s1.length + 1)) = (0 : Int) :: prefixDistances [] [] s1 := by
  rw [iota,length_resize,prefixDistances_nil,List.range_succ_eq_map,List.map_cons,List.map_map]
  congr 1
  apply List.map_congr_left
  intro i _
  rw [Function.comp_apply,List.length_nil]
  congr 1
  omega

theorem last_distance (p q rest : List UInt8) :
    ((levenshtein p q : Int) :: prefixDistances q p rest)[rest.length]? = some (levenshtein (p ++ rest) q : Int) := by
  induction rest generalizing p with
  | nil => rw [List.append_nil]; rfl
  | cons b rest ih =>
    rw [List.length_cons,List.getElem?_cons_succ,prefixDistances,ih,List.append_assoc]
    rfl

end Column

namespace Levenstein
variable {memory : Memory} {s1 s2 : StringView} {bound : Int}

-- The loops on two strings of which the second is not the shorter one.
theorem fillColumns_result (column : List Int) {short long : List UInt8} (ordered : short.length ≤ long.length)
    (fits : long.length < 2^31 - 1) :
    ∃ filled, fillColumns short 1 long (iota (resize column (short.length + 1))) = some filled ∧
      filled[short.length]? = some (levenshtein short long : Int) := by
  have run := @fillColumns_distances [] long short (by omega) (by rwa [List.length_nil,Nat.zero_add])
  have last := last_distance [] long short
  rw [List.nil_append,List.length_nil] at run
  rw [levenshtein_nil_left,List.nil_append] at last
  rw [iota_resize]
  exact ⟨_,run,last⟩

def answer (memory : Memory) (s1 s2 : StringView) (bound : Int) : Int :=
  if (s1.size : Int) - s2.size ≤ bound ∧ (s2.size : Int) - s1.size ≤ bound
  then levenshtein (s1.bytes memory) (s2.bytes memory) else INT_MAX

theorem answer_comm (memory : Memory) (s1 s2 : StringView) (bound : Int) :
    answer memory s1 s2 bound = answer memory s2 s1 bound := by
  rw [answer,answer,levenshtein_comm]
  exact if_congr and_comm rfl rfl

theorem ordered_returns (self : Levenstein) (ascending : s1.size ≤ s2.size) (fits : s2.size < 2^31 - 1) (nonneg : 0 ≤ bound) :
    ∃ after, self.ordered memory s1 s2 bound = some (answer memory s1 s2 bound,after) := by
  have difference : checked ((s2.size : Int) - s1.size) = some _ := checked_fits (by omega) (by omega)
  have size : checked ((s1.size : Int) + 1) = some _ := checked_fits (by omega) (by omega)
  have nonnegative : ¬((s1.size : Int) < 0) := by omega
  rw [ordered,toInt_fits (by omega : s1.size < 2^31),toInt_fits (by omega : s2.size < 2^31)]
  dsimp only
  rw [difference,Option.bind_eq_bind,Option.bind_some]
  by_cases far : (s2.size : Int) - s1.size > bound
  · rw [if_pos far,answer,if_neg (by omega)]
    exact ⟨self,rfl⟩
  · have lengths := StringView.length_bytes memory
    obtain ⟨filled,run,last⟩ := @fillColumns_result self.column (s1.bytes memory) (s2.bytes memory)
      (by rwa [lengths,lengths]) (by rwa [lengths])
    have whole1 : (s1.bytes memory).take s1.size = s1.bytes memory := List.take_of_length_le (Nat.le_of_eq (lengths s1))
    have whole2 : (s2.bytes memory).take s2.size = s2.bytes memory := List.take_of_length_le (Nat.le_of_eq (lengths s2))
    have count : ((s1.size : Int) + 1).toNat = s1.size + 1 := by omega
    rw [lengths] at run last
    rw [if_neg far,if_neg nonnegative,size,answer,if_pos (by omega),Option.bind_eq_bind,Option.bind_some]
    rw [count,Int.toNat_natCast,Int.toNat_natCast,whole1,whole2,run,Option.bind_some,last,Option.bind_some]
    exact ⟨⟨filled⟩,rfl⟩

-- What a call returns for strings whose sizes are ints.
theorem distance_returns (self : Levenstein) (fits1 : s1.size < 2^31 - 1) (fits2 : s2.size < 2^31 - 1)
    (nonneg : 0 ≤ bound) : ∃ after, self.distance memory s1 s2 bound = some (answer memory s1 s2 bound,after) := by
  unfold distance
  split
  · rename_i same
    obtain ⟨data,size⟩ := same
    have bytes : s1.bytes memory = s2.bytes memory := by rw [StringView.bytes,StringView.bytes,data,size]
    rw [answer,if_pos (by omega),bytes,levenshtein_self]
    exact ⟨self,rfl⟩
  · rw [toInt_fits (by omega : s1.size < 2^31),toInt_fits (by omega : s2.size < 2^31)]
    split
    · rw [answer_comm]
      exact ordered_returns self (by omega) fits1 nonneg
    · exact ordered_returns self (by omega) fits2 nonneg

-- The fewest insertions, deletions and substitutions when the lengths differ by at most the
-- bound, and the same for the arguments the other way around, whatever the columns held.
theorem distance_isDistance (memory : Memory) (s1 s2 : StringView) (bound : Int) (self other : Levenstein)
    (fits1 : s1.size < 2^31 - 1) (fits2 : s2.size < 2^31 - 1) (nonneg : 0 ≤ bound) :
    ∃ result after after',
      self.distance memory s1 s2 bound = some (result,after) ∧ other.distance memory s2 s1 bound = some (result,after') ∧
      ((s1.size : Int) - s2.size ≤ bound ∧ (s2.size : Int) - s1.size ≤ bound →
        ∃ n : Nat, result = n ∧ IsDistance (s1.bytes memory) (s2.bytes memory) n) ∧
      (¬((s1.size : Int) - s2.size ≤ bound ∧ (s2.size : Int) - s1.size ≤ bound) → result = INT_MAX) := by
  obtain ⟨after,forward⟩ := @distance_returns memory _ _ _ self fits1 fits2 nonneg
  obtain ⟨after',backward⟩ := @distance_returns memory _ _ _ other fits2 fits1 nonneg
  rw [← answer_comm] at backward
  refine ⟨_,after,after',forward,backward,?_,?_⟩
  · intro near
    exact ⟨_,if_pos near,levenshtein_isDistance _ _⟩
  · intro far
    exact if_neg far

-- "Java" and "Scala" one after the other in memory.
def namesMemory : Memory := fun i => ([74,97,118,97,83,99,97,108,97] : List UInt8).getD i 0

theorem distance_isDistance_names : ∃ result after after',
    (⟨[]⟩ : Levenstein).distance namesMemory ⟨0,4⟩ ⟨4,5⟩ 10 = some (result,after) ∧
    (⟨[7,7]⟩ : Levenstein).distance namesMemory ⟨4,5⟩ ⟨0,4⟩ 10 = some (result,after') ∧
    (((4 : Nat) : Int) - (5 : Nat) ≤ 10 ∧ ((5 : Nat) : Int) - (4 : Nat) ≤ 10 →
      ∃ n : Nat, result = n ∧ IsDistance (StringView.bytes namesMemory ⟨0,4⟩) (StringView.bytes namesMemory ⟨4,5⟩) n) ∧
    (¬(((4 : Nat) : Int) - (5 : Nat) ≤ 10 ∧ ((5 : Nat) : Int) - (4 : Nat) ≤ 10) → result = INT_MAX) :=
  distance_isDistance namesMemory ⟨0,4⟩ ⟨4,5⟩ 10 ⟨[]⟩ ⟨[7,7]⟩ (by decide) (by decide) (by decide)

example : ((⟨[7,7]⟩ : Levenstein).distance namesMemory ⟨0,4⟩ ⟨4,5⟩ 10).map Prod.fst = some 3 := by decide

-- A size of 2^32 becomes the int 0: the string is taken for the empty one, so the bound does not apply.
theorem distance_wraps : (⟨[]⟩ : Levenstein).distance (fun _ => 97) ⟨0,2^32⟩ ⟨0,0⟩ 0 = some (0,⟨[0]⟩) ∧
    ¬((0 : Int) = INT_MAX) ∧ (0 : Int) < (2^32 : Nat) - (0 : Nat) := by
  refine ⟨?_,by decide,by decide⟩
  have wrapped : toInt (2^32) = 0 := by decide
  have empty : toInt 0 = 0 := by decide
  have size : checked (0 + 1) = some 1 := by decide
  have column : iota (resize [] (1 : Int).toNat) = [0] := by decide
  rw [distance,if_neg (by decide),if_neg (by decide),ordered]
  dsimp only
  rw [wrapped,empty]
  have difference : checked (0 - 0) = some 0 := by decide
  rw [difference,Option.bind_eq_bind,Option.bind_some,if_neg (by decide),if_neg (by decide),size,Option.bind_eq_bind,
    Option.bind_some,column,Int.toNat_zero,List.take_zero,List.take_zero]
  rfl

end Levenstein
end Common
