import Mathlib.Data.Finset.Basic
import Mathlib.Logic.Function.Basic
import ScipRuby.Lib.WordSets

namespace Common
open WordSets

structure UIntSet where
  members : List (BitVec 32)

namespace UIntSet

-- The sum is taken in uint32_t.
def new (size : BitVec 32) : UIntSet := ⟨List.replicate ((size + 31) / 32).toNat 0⟩

def clear (self : UIntSet) : UIntSet := ⟨self.members.map fun _ => 0⟩

def memberIndex (item : BitVec 32) : Nat := (item >>> 5).toNat
def mask (item : BitVec 32) : BitVec 32 := 1#32 <<< (item &&& 0x1F)

-- There is no result where an index is out of range.
def update (self : UIntSet) (item : BitVec 32) (f : BitVec 32 → BitVec 32) : Option UIntSet :=
  self.members[memberIndex item]?.map fun word => ⟨self.members.set (memberIndex item) (f word)⟩

def add (self : UIntSet) (item : BitVec 32) : Option UIntSet := self.update item (· ||| mask item)
def remove (self : UIntSet) (item : BitVec 32) : Option UIntSet := self.update item (· &&& ~~~mask item)

def contains (self : UIntSet) (item : BitVec 32) : Option Bool :=
  self.members[memberIndex item]?.map fun word => decide (0 < word &&& mask item)

-- The loop over the words of this set and of another one.
def zip (f : BitVec 32 → BitVec 32 → BitVec 32) (self set : UIntSet) : Option UIntSet :=
  if self.members.length ≤ set.members.length then some ⟨List.zipWith f self.members set.members⟩ else none

def removeSet (self set : UIntSet) : Option UIntSet := zip (fun ours theirs => ours &&& ~~~theirs) self set
def addSet (self set : UIntSet) : Option UIntSet := zip (fun ours theirs => ours ||| theirs) self set
def intersect (self set : UIntSet) : Option UIntSet := zip (fun ours theirs => ours &&& theirs) self set

-- The loop over the words of this set and of two others.
def zipBoth (f : BitVec 32 → BitVec 32 → BitVec 32) (self a b : UIntSet) : Option UIntSet :=
  if self.members.length ≤ a.members.length ∧ self.members.length ≤ b.members.length
  then some ⟨List.zipWith f self.members (List.zipWith (fun x y => x ||| y) a.members b.members)⟩ else none

def addBoth (self a b : UIntSet) : Option UIntSet := zipBoth (fun ours both => ours ||| both) self a b
def overwriteWithUnion (self a b : UIntSet) : Option UIntSet := zipBoth (fun _ both => both) self a b

def empty (self : UIntSet) : Bool := self.members.all fun items => !decide (items > 0)

def size (self : UIntSet) : Nat := (self.members.map fun member => member.cpop.toNat).sum

-- The calls of each for one word; 32 rounds clear every bit.
def forEachBit : (fuel : Nat) → (base entry : BitVec 32) → Option (List (BitVec 32))
  | 0,_,entry => if entry = 0 then some [] else none
  | fuel+1,base,entry =>
    if entry = 0 then some []
    else do
      let bit := entry.ctz
      let later ← forEachBit fuel base (entry &&& (entry - 1))
      some ((base + bit) :: later)

def forEachWord : (base : BitVec 32) → List (BitVec 32) → Option (List (BitVec 32))
  | _,[] => some []
  | base,entry :: members => do
    let first ← forEachBit 32 base entry
    let later ← forEachWord (base + 32) members
    some (first ++ later)

def forEach (self : UIntSet) : Option (List (BitVec 32)) := forEachWord 0 self.members

end UIntSet

section Queries
variable {words : List (BitVec 32)} {entry base : BitVec 32} {fuel n : Nat}

theorem forEachBit_enumerates (above : ∀ i, entry.getLsbD i = true → 32 ≤ i + fuel) (fits : base.toNat + 32 ≤ 2^32) :
    ∃ visited, UIntSet.forEachBit fuel base entry = some visited ∧
      Enumerates (visited.map BitVec.toNat) fun n => base.toNat ≤ n ∧ entry.getLsbD (n - base.toNat) = true := by
  induction fuel generalizing entry with
  | zero =>
    have zero : entry = 0 := by
      by_contra nonzero
      obtain ⟨i,set⟩ := exists_getLsbD nonzero
      have inside := BitVec.lt_of_getLsbD set
      have high := above i set
      omega
    refine ⟨[],if_pos zero,enumerates_nil ?_⟩
    intro n
    subst zero
    simp
  | succ fuel ih =>
    rw [UIntSet.forEachBit]
    split
    · rename_i zero
      refine ⟨[],rfl,enumerates_nil ?_⟩
      intro n
      subst zero
      simp
    · rename_i nonzero
      have first := BitVec.getLsbD_true_ctz_of_ne_zero nonzero
      have inside := BitVec.lt_of_getLsbD first
      have least : ∀ i, entry.getLsbD i = true → entry.ctz.toNat ≤ i := fun i => ctz_le_of_getLsbD
      have kept (i : Nat) : (entry &&& (entry - 1)).getLsbD i = true ↔ entry.getLsbD i = true ∧ i ≠ entry.ctz.toNat := by
        have cleared := @getLsbD_clearLowest 32 entry i nonzero
        change (entry &&& (entry - 1#32)).getLsbD i = true ↔ _
        rw [cleared,Bool.and_eq_true,decide_eq_true_eq]
      obtain ⟨later,run,enumerates⟩ := @ih (entry &&& (entry - 1)) (by
        intro i set
        obtain ⟨bit,other⟩ := (kept i).mp set
        have lowest := least i bit
        have high := above _ first
        omega)
      have value : (base + entry.ctz).toNat = base.toNat + entry.ctz.toNat := by
        rw [BitVec.toNat_add]
        exact Nat.mod_eq_of_lt (by omega)
      rw [run]
      refine ⟨_,rfl,?_⟩
      rw [List.map_cons,value]
      apply enumerates.cons
      · rintro n ⟨low,set⟩
        obtain ⟨bit,other⟩ := (kept _).mp set
        have lowest := least _ bit
        omega
      · intro n
        rw [kept]
        constructor
        · rintro ⟨low,bit⟩
          by_cases same : n - base.toNat = entry.ctz.toNat
          · exact .inl (by omega)
          · exact .inr ⟨low,bit,same⟩
        · rintro (rfl | ⟨low,bit,_⟩)
          · rw [Nat.add_sub_cancel_left]
            exact ⟨Nat.le_add_right _ _,first⟩
          · exact ⟨low,bit⟩

-- The start of the word behind the last one may be 2^32, which is 0 in uint32_t; no bit is added to it.
theorem forEachWord_enumerates {start : Nat} (fits : start + 32 * words.length ≤ 2^32) :
    ∃ visited, UIntSet.forEachWord (BitVec.ofNat 32 start) words = some visited ∧
      Enumerates (visited.map BitVec.toNat) (fun n => start ≤ n ∧ holds words (n - start) = true) ∧
      (words.map fun member => member.cpop.toNat).sum = visited.length := by
  induction words generalizing start with
  | nil =>
    refine ⟨[],rfl,enumerates_nil ?_,rfl⟩
    intro n
    simp [holds]
  | cons entry words ih =>
    rw [List.length_cons] at fits
    have value : (BitVec.ofNat 32 start).toNat = start := Nat.mod_eq_of_lt (by omega)
    have next : BitVec.ofNat 32 start + 32 = BitVec.ofNat 32 (start + 32) := (BitVec.ofNat_add start 32).symm
    obtain ⟨first,run,bits⟩ := @forEachBit_enumerates entry (BitVec.ofNat 32 start) 32 (by omega) (by omega)
    obtain ⟨later,rest,words',sum⟩ := @ih (start + 32) (by omega)
    rw [value] at bits
    have count := cpop_enumerates bits.shift
    rw [List.length_map,List.length_map] at count
    refine ⟨first ++ later,?_,?_,?_⟩
    · rw [UIntSet.forEachWord,run,next,rest]
      rfl
    · rw [List.map_append]
      have inWord : ∀ n, start ≤ n ∧ entry.getLsbD (n - start) = true → n < start + 32 := by
        rintro n ⟨low,set⟩
        have inside := BitVec.lt_of_getLsbD set
        omega
      apply (bits.append words' inWord fun n later => later.1).congr
      intro n
      rw [holds]
      by_cases word : n - start < 32
      · rw [if_pos word]
        constructor
        · rintro (here | ⟨low,_⟩)
          · exact here
          · omega
        · exact .inl
      · rw [if_neg word,(by omega : n - start - 32 = n - (start + 32))]
        constructor
        · rintro (here | ⟨low,set⟩)
          · have inside := inWord n here
            omega
          · exact ⟨by omega,set⟩
        · exact fun later => .inr ⟨by omega,later.2⟩
    · rw [List.map_cons,List.sum_cons,count,sum,List.length_append]

end Queries

-- The words of a set of the given capacity and the numbers whose bits are set in them.
structure Represents (size : BitVec 32) (set : UIntSet) (S : Finset Nat) : Prop where
  width : set.members.length = (size.toNat + 31) / 32
  exact : ∀ n, holds set.members n = true ↔ n ∈ S
  below : ∀ n ∈ S, n < size.toNat

section Representation
variable {size item : BitVec 32} {set set' set'' : UIntSet} {S T U : Finset Nat} {n : Nat}

theorem new_represents (fits : size.toNat + 31 < 2^32) : Represents size (UIntSet.new size) ∅ := by
  have count : ((size + 31) / 32).toNat = (size.toNat + 31) / 32 := by
    rw [BitVec.toNat_udiv,BitVec.toNat_add]
    exact congrArg (· / 32) (Nat.mod_eq_of_lt fits)
  refine ⟨?_,?_,?_⟩
  · rw [UIntSet.new,List.length_replicate,count]
  · intro n
    exact iff_of_false (by rw [UIntSet.new]; exact ne_true_of_eq_false (holds_replicate _)) (Finset.notMem_empty n)
  · intro n member
    exact absurd member (Finset.notMem_empty n)

theorem clear_represents (represents : Represents size set S) : Represents size set.clear ∅ := by
  refine ⟨?_,?_,?_⟩
  · rw [UIntSet.clear,List.length_map,represents.width]
  · intro n
    rw [UIntSet.clear,List.map_const']
    exact iff_of_false (ne_true_of_eq_false (holds_replicate _)) (Finset.notMem_empty n)
  · intro n member
    exact absurd member (Finset.notMem_empty n)

theorem memberIndex_eq (item : BitVec 32) : UIntSet.memberIndex item = item.toNat / 32 := by
  rw [UIntSet.memberIndex,BitVec.toNat_ushiftRight,Nat.shiftRight_eq_div_pow]

theorem getLsbD_mask (inside : n < 32) : (UIntSet.mask item).getLsbD n = decide (n = item.toNat % 32) := by
  have bit : (item &&& 0x1F#32).toNat = item.toNat % 32 := by
    rw [BitVec.toNat_and]
    exact Nat.and_two_pow_sub_one_eq_mod item.toNat 5
  have mask : UIntSet.mask item = BitVec.twoPow 32 (item.toNat % 32) := by
    rw [BitVec.twoPow,← bit]
    rfl
  rw [mask,BitVec.getLsbD_twoPow]
  have small := Nat.mod_lt item.toNat (by decide : 0 < 32)
  by_cases same : n = item.toNat % 32
  · rw [decide_eq_true same,← same]
    simp [inside]
  · rw [decide_eq_false same,decide_eq_false fun other : item.toNat % 32 = n => same other.symm,Bool.and_false]

theorem Represents.index (represents : Represents size set S) (inside : item.toNat < size.toNat) :
    item.toNat / 32 < set.members.length := by
  rw [represents.width]
  omega

theorem Represents.contains (represents : Represents size set S) (inside : item.toNat < size.toNat) :
    set.contains item = some (decide (item.toNat ∈ S)) := by
  have index := represents.index inside
  have bit := represents.exact item.toNat
  rw [holds_eq (by decide),List.getD_eq_getElem?_getD,List.getElem?_eq_getElem index,Option.getD_some] at bit
  rw [UIntSet.contains,memberIndex_eq,List.getElem?_eq_getElem index,Option.map_some,Option.some.injEq,decide_eq_decide,← bit]
  have small := Nat.mod_lt item.toNat (by decide : 0 < 32)
  have kept (n : Nat) (inside : n < 32) : (set.members[item.toNat / 32] &&& UIntSet.mask item).getLsbD n = true ↔
      set.members[item.toNat / 32].getLsbD n = true ∧ n = item.toNat % 32 := by
    rw [BitVec.getLsbD_and,getLsbD_mask inside,Bool.and_eq_true,decide_eq_true_eq]
  constructor
  · intro positive
    obtain ⟨n,set⟩ := exists_getLsbD ((BitVec.pos_iff_ne_zero _).mp positive)
    obtain ⟨here,rfl⟩ := (kept n (BitVec.lt_of_getLsbD set)).mp set
    exact here
  · intro here
    exact (BitVec.pos_iff_ne_zero _).mpr (ne_zero_of_getLsbD ((kept _ small).mpr ⟨here,rfl⟩))

-- Writing one bit of one word.
theorem Represents.update {f : BitVec 32 → BitVec 32} (value : Bool) (represents : Represents size set S)
    (inside : item.toNat < size.toNat)
    (bits : ∀ word, ∀ n < 32, (f word).getLsbD n = if n = item.toNat % 32 then value else word.getLsbD n)
    (result : ∀ n, n ∈ T ↔ if n = item.toNat then value = true else n ∈ S) :
    ∃ set', set.update item f = some set' ∧ Represents size set' T := by
  have index := represents.index inside
  have small := Nat.mod_lt item.toNat (by decide : 0 < 32)
  refine ⟨⟨set.members.set (item.toNat / 32) (f set.members[item.toNat / 32])⟩,?_,?_,?_,?_⟩
  · rw [UIntSet.update,memberIndex_eq,List.getElem?_eq_getElem index,Option.map_some]
  · rw [List.length_set,represents.width]
  · intro n
    have others : ∀ j < 32, j ≠ item.toNat % 32 →
        (f set.members[item.toNat / 32]).getLsbD j = (set.members[item.toNat / 32]).getLsbD j := by
      intro j inside other
      rw [bits _ j inside,if_neg other]
    rw [holds_set (by decide) index others,result,bits _ _ small,if_pos rfl]
    split
    · exact Iff.rfl
    · exact represents.exact n
  · intro n member
    have cases := (result n).mp member
    split at cases
    · rename_i same
      exact same ▸ inside
    · exact represents.below n cases

theorem Represents.add (represents : Represents size set S) (inside : item.toNat < size.toNat) :
    ∃ set', set.add item = some set' ∧ Represents size set' (insert item.toNat S) := by
  apply represents.update true inside
  · intro word n inside
    rw [BitVec.getLsbD_or,getLsbD_mask inside]
    split
    · rename_i same
      rw [decide_eq_true same,Bool.or_true]
    · rename_i other
      rw [decide_eq_false other,Bool.or_false]
  · intro n
    rw [Finset.mem_insert]
    split
    · rename_i same
      exact iff_of_true (.inl same) rfl
    · rename_i other
      exact or_iff_right other

theorem Represents.remove (represents : Represents size set S) (inside : item.toNat < size.toNat) :
    ∃ set', set.remove item = some set' ∧ Represents size set' (S.erase item.toNat) := by
  apply represents.update false inside
  · intro word n inside
    rw [BitVec.getLsbD_and,BitVec.getLsbD_not,getLsbD_mask inside,decide_eq_true inside,Bool.true_and]
    split
    · rename_i same
      rw [decide_eq_true same,Bool.not_true,Bool.and_false]
    · rename_i other
      rw [decide_eq_false other,Bool.not_false,Bool.and_true]
  · intro n
    rw [Finset.mem_erase]
    split
    · rename_i same
      exact iff_of_false (fun member => member.1 same) Bool.false_ne_true
    · rename_i other
      exact and_iff_right other

theorem Represents.zip {f : BitVec 32 → BitVec 32 → BitVec 32} {g : Bool → Bool → Bool} (bitwise : Bitwise f g)
    (inert : g false false = false) (left : Represents size set S) (right : Represents size set' T)
    (result : ∀ n, n ∈ U ↔ g (decide (n ∈ S)) (decide (n ∈ T)) = true) :
    ∃ zipped, UIntSet.zip f set set' = some zipped ∧ Represents size zipped U := by
  have same : set.members.length = set'.members.length := left.width.trans right.width.symm
  have bits (n : Nat) : holds set.members n = decide (n ∈ S) ∧ holds set'.members n = decide (n ∈ T) := by
    exact ⟨Bool.eq_iff_iff.mpr (by rw [left.exact,decide_eq_true_eq]),Bool.eq_iff_iff.mpr (by rw [right.exact,decide_eq_true_eq])⟩
  refine ⟨_,if_pos (Nat.le_of_eq same),?_,?_,?_⟩
  · rw [List.length_zipWith,← same,Nat.min_self,left.width]
  · intro n
    rw [holds_zipWith bitwise inert same,(bits n).1,(bits n).2,result]
  · intro n member
    have either : n ∈ S ∨ n ∈ T := by
      by_contra neither
      rw [not_or] at neither
      have value := (result n).mp member
      rw [decide_eq_false neither.1,decide_eq_false neither.2,inert] at value
      cases value
    exact either.elim (left.below n) (right.below n)

-- A loop over three sets is one over the first and the union of the others.
theorem Represents.zipBoth {f : BitVec 32 → BitVec 32 → BitVec 32} {g : Bool → Bool → Bool} (bitwise : Bitwise f g)
    (inert : g false false = false) (left : Represents size set S) (first : Represents size set' T)
    (second : Represents size set'' U) {V : Finset Nat}
    (result : ∀ n, n ∈ V ↔ g (decide (n ∈ S)) (decide (n ∈ T ∪ U)) = true) :
    ∃ zipped, UIntSet.zipBoth f set set' set'' = some zipped ∧ Represents size zipped V := by
  obtain ⟨both,run,union⟩ := Represents.zip (U := T ∪ U) bitwise_or rfl first second (by simp)
  obtain ⟨zipped,run',whole⟩ := Represents.zip bitwise inert left union result
  refine ⟨zipped,?_,whole⟩
  have short : set.members.length ≤ set'.members.length := Nat.le_of_eq (left.width.trans first.width.symm)
  have short' : set.members.length ≤ set''.members.length := Nat.le_of_eq (left.width.trans second.width.symm)
  have equal : set'.members.length ≤ set''.members.length := Nat.le_of_eq (first.width.trans second.width.symm)
  rw [UIntSet.zip,if_pos equal,Option.some.injEq] at run
  subst run
  rw [UIntSet.zip] at run'
  split at run'
  · rw [UIntSet.zipBoth,if_pos ⟨short,short'⟩]
    exact run'
  · cases run'

theorem Represents.empty (represents : Represents size set S) : set.empty = decide (S = ∅) := by
  have words : set.empty = true ↔ ∀ x ∈ set.members, x = 0#32 := by
    rw [UIntSet.empty,List.all_eq_true]
    refine forall₂_congr fun x _ => ?_
    rw [Bool.not_eq_true',decide_eq_false_iff_not,gt_iff_lt]
    exact (not_congr (BitVec.pos_iff_ne_zero x)).trans not_not
  rw [Bool.eq_iff_iff,words,← holds_none_iff,decide_eq_true_eq,Finset.eq_empty_iff_forall_notMem]
  refine forall_congr' fun n => ?_
  rw [← represents.exact,Bool.not_eq_true]

theorem Represents.visits (represents : Represents size set S) :
    ∃ visited, set.forEach = some visited ∧ Enumerates (visited.map BitVec.toNat) (· ∈ S) ∧ set.size = S.card := by
  have bound := size.isLt
  obtain ⟨visited,run,enumerates,count⟩ := @forEachWord_enumerates set.members 0 (by rw [represents.width]; omega)
  have listed : Enumerates (visited.map BitVec.toNat) (· ∈ S) := enumerates.congr fun n => by
    rw [Nat.sub_zero,represents.exact]
    exact and_iff_right (Nat.zero_le n)
  refine ⟨visited,run,listed,?_⟩
  rw [UIntSet.size,count,← listed.card,List.length_map]

end Representation

section Operations

-- The operations on numbered sets of one capacity.
inductive SetOperation where
  | add (set : Nat) (item : BitVec 32)
  | remove (set : Nat) (item : BitVec 32)
  | removeSet (set other : Nat)
  | addSet (set other : Nat)
  | addBoth (set a b : Nat)
  | intersect (set other : Nat)
  | overwriteWithUnion (set a b : Nat)
  | clear (set : Nat)

namespace SetOperation

def target : SetOperation → Nat
  | .add set _ | .remove set _ | .removeSet set _ | .addSet set _ | .addBoth set _ _ | .intersect set _
  | .overwriteWithUnion set _ _ | .clear set => set

def run (sets : Nat → UIntSet) : SetOperation → Option UIntSet
  | .add set item => (sets set).add item
  | .remove set item => (sets set).remove item
  | .removeSet set other => (sets set).removeSet (sets other)
  | .addSet set other => (sets set).addSet (sets other)
  | .addBoth set a b => (sets set).addBoth (sets a) (sets b)
  | .intersect set other => (sets set).intersect (sets other)
  | .overwriteWithUnion set a b => (sets set).overwriteWithUnion (sets a) (sets b)
  | .clear set => some (sets set).clear

-- What the operation does to mathematical sets.
def meaning (S : Nat → Finset Nat) : SetOperation → Finset Nat
  | .add set item => insert item.toNat (S set)
  | .remove set item => (S set).erase item.toNat
  | .removeSet set other => S set \ S other
  | .addSet set other => S set ∪ S other
  | .addBoth set a b => S set ∪ (S a ∪ S b)
  | .intersect set other => S set ∩ S other
  | .overwriteWithUnion _ a b => S a ∪ S b
  | .clear _ => ∅

-- The elements added or removed are below the capacity.
def Within (size : BitVec 32) : SetOperation → Prop
  | .add _ item | .remove _ item => item.toNat < size.toNat
  | _ => True

def runAll : (sets : Nat → UIntSet) → List SetOperation → Option (Nat → UIntSet)
  | sets,[] => some sets
  | sets,operation :: rest => (operation.run sets).bind fun set => runAll (Function.update sets operation.target set) rest

def meaningAll : (S : Nat → Finset Nat) → List SetOperation → Nat → Finset Nat
  | S,[] => S
  | S,operation :: rest => meaningAll (Function.update S operation.target (operation.meaning S)) rest

end SetOperation

variable {size : BitVec 32} {sets : Nat → UIntSet} {S : Nat → Finset Nat} {operation : SetOperation}
  {operations : List SetOperation}

theorem run_represents (all : ∀ i, Represents size (sets i) (S i)) (within : operation.Within size) :
    ∃ set, operation.run sets = some set ∧ Represents size set (operation.meaning S) := by
  cases operation with
  | add set item => exact (all set).add within
  | remove set item => exact (all set).remove within
  | removeSet set other => exact (all set).zip bitwise_diff rfl (all other) (by simp [SetOperation.meaning])
  | addSet set other => exact (all set).zip bitwise_or rfl (all other) (by simp [SetOperation.meaning])
  | addBoth set a b => exact (all set).zipBoth bitwise_or rfl (all a) (all b) (by simp [SetOperation.meaning])
  | intersect set other => exact (all set).zip bitwise_and rfl (all other) (by simp [SetOperation.meaning])
  | overwriteWithUnion set a b =>
    exact (all set).zipBoth bitwise_second rfl (all a) (all b) (by simp [SetOperation.meaning])
  | clear set => exact ⟨_,rfl,clear_represents (all set)⟩

theorem runAll_represents (all : ∀ i, Represents size (sets i) (S i)) (within : ∀ operation ∈ operations, operation.Within size) :
    ∃ after, SetOperation.runAll sets operations = some after ∧
      ∀ i, Represents size (after i) (SetOperation.meaningAll S operations i) := by
  induction operations generalizing sets S with
  | nil => exact ⟨sets,rfl,all⟩
  | cons operation rest ih =>
    obtain ⟨first,later⟩ := List.forall_mem_cons.mp within
    obtain ⟨set,run,represents⟩ := run_represents all first
    have next : ∀ i, Represents size (Function.update sets operation.target set i)
        (Function.update S operation.target (operation.meaning S) i) := by
      intro i
      by_cases same : i = operation.target
      · subst same
        rw [Function.update_self,Function.update_self]
        exact represents
      · rw [Function.update_of_ne same,Function.update_of_ne same]
        exact all i
    obtain ⟨after,runs,represented⟩ := ih next later
    refine ⟨after,?_,represented⟩
    rw [SetOperation.runAll,run]
    exact runs

-- The queries answer as for the mathematical set.
structure Agrees (size : BitVec 32) (set : UIntSet) (S : Finset Nat) : Prop where
  contains : ∀ item : BitVec 32, item.toNat < size.toNat → set.contains item = some (decide (item.toNat ∈ S))
  empty : set.empty = decide (S = ∅)
  size : set.size = S.card
  forEach : ∃ visited, set.forEach = some visited ∧ Enumerates (visited.map BitVec.toNat) (· ∈ S)

theorem Represents.agrees {set : UIntSet} {S : Finset Nat} (represents : Represents size set S) : Agrees size set S := by
  obtain ⟨visited,run,enumerates,count⟩ := represents.visits
  exact ⟨fun _ inside => represents.contains inside,represents.empty,count,visited,run,enumerates⟩

-- A capacity that is rounded up past 2^32 has no words at all.
theorem new_wraps (large : 2^32 ≤ size.toNat + 31) : UIntSet.new size = ⟨[]⟩ := by
  have bound := size.isLt
  have sum : (size + 31).toNat = size.toNat + 31 - 2^32 := by
    rw [BitVec.toNat_add]
    change (size.toNat + 31) % 2^32 = _
    omega
  have count : ((size + 31) / 32).toNat = 0 := by
    rw [BitVec.toNat_udiv,sum]
    change (size.toNat + 31 - 2^32) / 32 = 0
    omega
  rw [UIntSet.new,count,List.replicate_zero]

-- The queries agree with the mathematical sets after all operations exactly when rounding the
-- capacity up to whole words stays within uint32_t.
theorem operations_agree_iff (size : BitVec 32) :
    (∀ operations : List SetOperation, (∀ operation ∈ operations, operation.Within size) →
      ∃ sets, SetOperation.runAll (fun _ => UIntSet.new size) operations = some sets ∧
        ∀ i, Agrees size (sets i) (SetOperation.meaningAll (fun _ => ∅) operations i)) ↔ size.toNat + 31 < 2^32 := by
  constructor
  · intro agree
    by_contra large
    have bound := size.isLt
    have within : ∀ operation ∈ [SetOperation.add 0 0], operation.Within size := by
      intro operation member
      rw [List.mem_singleton] at member
      subst member
      change 0 < size.toNat
      omega
    obtain ⟨sets,run,_⟩ := agree _ within
    rw [new_wraps (by omega)] at run
    cases run
  · intro fits operations within
    obtain ⟨sets,run,represents⟩ := runAll_represents (fun _ => new_represents fits) within
    exact ⟨sets,run,fun i => (represents i).agrees⟩

theorem operations_largest : ¬∀ operations : List SetOperation,
    (∀ operation ∈ operations, operation.Within (BitVec.ofNat 32 (2^32 - 1))) →
      ∃ sets, SetOperation.runAll (fun _ => UIntSet.new (BitVec.ofNat 32 (2^32 - 1))) operations = some sets ∧
        ∀ i, Agrees (BitVec.ofNat 32 (2^32 - 1)) (sets i) (SetOperation.meaningAll (fun _ => ∅) operations i) := by
  intro agree
  have within : ∀ operation ∈ [SetOperation.add 0 5], operation.Within (BitVec.ofNat 32 (2^32 - 1)) := by
    intro operation member
    rw [List.mem_singleton] at member
    subst member
    change 5 < 2^32 - 1
    decide
  obtain ⟨sets,run,_⟩ := agree _ within
  rw [new_wraps (by decide)] at run
  cases run

end Operations
end Common
