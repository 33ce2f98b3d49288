import Mathlib.Data.Finset.Card
import Mathlib.Data.Nat.Bitwise

namespace WordSets

section Enumerations
variable {P Q : Nat → Prop} {visited more : List Nat} {bound k : Nat}

-- Each number with the property once and in increasing order.
structure Enumerates (visited : List Nat) (P : Nat → Prop) : Prop where
  increasing : visited.Pairwise (· < ·)
  exact : ∀ n, n ∈ visited ↔ P n

theorem Enumerates.nodup (enumerates : Enumerates visited P) : visited.Nodup := enumerates.increasing.imp Nat.ne_of_lt

theorem Enumerates.length_eq (first : Enumerates visited P) (second : Enumerates more P) : visited.length = more.length := by
  have same : ∀ n, n ∈ visited ↔ n ∈ more := fun n => (first.exact n).trans (second.exact n).symm
  exact ((List.perm_ext_iff_of_nodup first.nodup second.nodup).mpr same).length_eq

theorem Enumerates.congr (enumerates : Enumerates visited P) (same : ∀ n, P n ↔ Q n) : Enumerates visited Q :=
  ⟨enumerates.increasing,fun n => (enumerates.exact n).trans (same n)⟩

theorem Enumerates.card {S : Finset Nat} (enumerates : Enumerates visited (· ∈ S)) : visited.length = S.card := by
  have same : visited.toFinset = S := by
    ext n
    rw [List.mem_toFinset,enumerates.exact]
  rw [← same,List.toFinset_card_of_nodup enumerates.nodup]

theorem enumerates_nil (none : ∀ n, ¬P n) : Enumerates [] P :=
  ⟨.nil,fun n => iff_of_false List.not_mem_nil (none n)⟩

theorem Enumerates.cons (rest : Enumerates visited Q) (least : ∀ n, Q n → k < n) (same : ∀ n, P n ↔ n = k ∨ Q n) :
    Enumerates (k :: visited) P := by
  refine ⟨List.pairwise_cons.mpr ⟨fun n member => least n ((rest.exact n).mp member),rest.increasing⟩,?_⟩
  intro n
  rw [List.mem_cons,rest.exact,same]

theorem Enumerates.append (first : Enumerates visited P) (second : Enumerates more Q) (low : ∀ n, P n → n < bound)
    (high : ∀ n, Q n → bound ≤ n) : Enumerates (visited ++ more) (fun n => P n ∨ Q n) := by
  refine ⟨List.pairwise_append.mpr ⟨first.increasing,second.increasing,?_⟩,?_⟩
  · intro n inFirst m inSecond
    exact Nat.lt_of_lt_of_le (low n ((first.exact n).mp inFirst)) (high m ((second.exact m).mp inSecond))
  · intro n
    rw [List.mem_append,first.exact,second.exact]

-- The same numbers counted from another start.
theorem Enumerates.shift (enumerates : Enumerates visited fun n => k ≤ n ∧ P (n - k)) :
    Enumerates (visited.map (· - k)) P := by
  have low : ∀ n ∈ visited, k ≤ n := fun n member => ((enumerates.exact n).mp member).1
  refine ⟨List.pairwise_map.mpr (List.Pairwise.imp_of_mem ?_ enumerates.increasing),?_⟩
  · intro n m first _ less
    have start := low n first
    omega
  · intro n
    rw [List.mem_map]
    constructor
    · rintro ⟨m,member,rfl⟩
      exact ((enumerates.exact m).mp member).2
    · intro holds
      refine ⟨n + k,(enumerates.exact _).mpr ⟨Nat.le_add_left k n,?_⟩,Nat.add_sub_cancel n k⟩
      rwa [Nat.add_sub_cancel]

end Enumerations

section Word
variable {w : Nat} {x y : BitVec w} {i : Nat}

-- Subtracting one clears the lowest set bit of a number and sets the bits below it.
theorem testBit_and_pred {n k : Nat} (set : n.testBit k = true) (clear : ∀ j < k, n.testBit j = false) (i : Nat) :
    (n &&& (n - 1)).testBit i = (n.testBit i && decide (i ≠ k)) := by
  have low : n % 2^(k+1) = 2^k := by
    apply Nat.eq_of_testBit_eq
    intro j
    rw [Nat.testBit_mod_two_pow,Nat.testBit_two_pow]
    rcases Nat.lt_trichotomy j k with less | same | more
    · rw [clear j less,Bool.and_false]
      symm
      exact decide_eq_false (by omega)
    · subst same
      rw [set]
      simp
    · rw [decide_eq_false (by omega : ¬j < k + 1),Bool.false_and]
      symm
      exact decide_eq_false (by omega)
  have power : 0 < 2^k := Nat.two_pow_pos k
  have below : 2^k < 2^(k+1) := Nat.pow_lt_pow_right (by decide) (Nat.lt_succ_self k)
  have split := Nat.div_add_mod n (2^(k+1))
  rw [low] at split
  have pred : n - 1 = 2^(k+1) * (n / 2^(k+1)) + (2^k - 1) := by omega
  have bit (j : Nat) := Nat.testBit_two_pow_mul_add (n / 2^(k+1)) below j
  have bitPred (j : Nat) := Nat.testBit_two_pow_mul_add (n / 2^(k+1)) (by omega : 2^k - 1 < 2^(k+1)) j
  rw [split] at bit
  rw [← pred] at bitPred
  rw [Nat.testBit_and,bit,bitPred,Nat.testBit_two_pow,Nat.testBit_two_pow_sub_one]
  split
  · by_cases same : i = k
    · subst same
      simp
    · rw [decide_eq_false (by omega : ¬k = i)]
      simp
  · rw [decide_eq_true (by omega : i ≠ k)]
    simp

theorem getLsbD_clearLowest (nonzero : x ≠ 0#w) :
    (x &&& (x - 1#w)).getLsbD i = (x.getLsbD i && decide (i ≠ x.ctz.toNat)) := by
  have set := BitVec.getLsbD_true_ctz_of_ne_zero nonzero
  have clear : ∀ j < x.ctz.toNat, x.toNat.testBit j = false := fun j less => BitVec.getLsbD_false_of_lt_ctz less
  have positive : 0 < x.toNat := Nat.pos_of_ne_zero fun zero => nonzero (BitVec.eq_of_toNat_eq zero)
  have pred : (x - 1#w).toNat = x.toNat - 1 := by
    have bound := x.isLt
    rw [BitVec.toNat_sub,BitVec.toNat_ofNat,Nat.mod_eq_of_lt (by omega : 1 < 2^w)]
    rw [(by omega : 2^w - 1 + x.toNat = x.toNat - 1 + 2^w),Nat.add_mod_right]
    exact Nat.mod_eq_of_lt (by omega)
  have bits := testBit_and_pred set clear i
  rw [← pred,← BitVec.toNat_and] at bits
  exact bits

theorem ctz_le_of_getLsbD (set : x.getLsbD i = true) : x.ctz.toNat ≤ i := by
  by_contra less
  rw [BitVec.getLsbD_false_of_lt_ctz (by omega)] at set
  cases set

theorem ne_zero_of_getLsbD (set : x.getLsbD i = true) : x ≠ 0#w := by
  rintro rfl
  rw [BitVec.getLsbD_zero] at set
  cases set

theorem exists_getLsbD (nonzero : x ≠ 0#w) : ∃ i, x.getLsbD i = true :=
  ⟨_,BitVec.getLsbD_true_ctz_of_ne_zero nonzero⟩

theorem cpopNatRec_countP (x : BitVec w) (k : Nat) : x.cpopNatRec k 0 = (List.range k).countP x.getLsbD := by
  induction k with
  | zero => rfl
  | succ k ih =>
    rw [BitVec.cpopNatRec_succ,BitVec.cpopNatRec_eq,ih,List.range_succ,List.countP_append,List.countP_singleton]
    cases x.getLsbD k <;> simp

-- The population count is the number of elements, however they are listed.
theorem cpop_enumerates {visited : List Nat} (enumerates : Enumerates visited (x.getLsbD · = true)) :
    x.cpop.toNat = visited.length := by
  have filtered : Enumerates ((List.range w).filter x.getLsbD) (x.getLsbD · = true) := by
    refine ⟨List.Pairwise.filter _ List.pairwise_lt_range,?_⟩
    intro n
    rw [List.mem_filter,List.mem_range]
    exact and_iff_right_of_imp BitVec.lt_of_getLsbD
  have count : (List.range w).countP x.getLsbD ≤ w := by
    simpa using List.countP_le_length (p := x.getLsbD) (l := List.range w)
  rw [BitVec.cpop,BitVec.toNat_ofNat,cpopNatRec_countP,Nat.mod_eq_of_lt (Nat.lt_of_le_of_lt count Nat.lt_two_pow_self),
    List.countP_eq_length_filter]
  exact filtered.length_eq enumerates

end Word

section Words
variable {w : Nat} {words others : List (BitVec w)} {n i : Nat}

-- Whether a number is in the set: w to a word, the lowest first.
def holds : List (BitVec w) → Nat → Bool
  | [],_ => false
  | x :: rest,n => if n < w then x.getLsbD n else holds rest (n - w)

theorem holds_eq (positive : 0 < w) (words : List (BitVec w)) (n : Nat) :
    holds words n = (words.getD (n / w) 0).getLsbD (n % w) := by
  induction words generalizing n with
  | nil => simp [holds]
  | cons x rest ih =>
    rw [holds]
    split
    · rename_i first
      rw [Nat.div_eq_of_lt first,Nat.mod_eq_of_lt first,List.getD_cons_zero]
    · rename_i later
      have above : w ≤ n := Nat.le_of_not_lt later
      have word : n / w = (n - w) / w + 1 := Nat.div_eq_sub_div positive above
      have bit : n % w = (n - w) % w := Nat.mod_eq_sub_mod above
      rw [ih,word,bit,List.getD_cons_succ]

theorem holds_replicate (count : Nat) : holds (List.replicate count 0#w) n = false := by
  induction count generalizing n with
  | zero => rfl
  | succ count ih =>
    rw [List.replicate_succ,holds,ih,BitVec.getLsbD_zero,ite_self]

-- An operation on two words that acts bit by bit.
def Bitwise (f : BitVec w → BitVec w → BitVec w) (g : Bool → Bool → Bool) : Prop :=
  ∀ x y, ∀ i < w, (f x y).getLsbD i = g (x.getLsbD i) (y.getLsbD i)

theorem holds_zipWith {f : BitVec w → BitVec w → BitVec w} {g : Bool → Bool → Bool} (bitwise : Bitwise f g)
    (inert : g false false = false) (same : words.length = others.length) :
    holds (List.zipWith f words others) n = g (holds words n) (holds others n) := by
  induction words generalizing others n with
  | nil =>
    cases others with
    | nil => exact inert.symm
    | cons y others => cases same
  | cons x words ih =>
    cases others with
    | nil => cases same
    | cons y others =>
      have later := @ih others (n - w) (Nat.succ.inj same)
      rw [List.zipWith_cons_cons,holds,holds,holds,later]
      split
      · rename_i first
        exact bitwise x y n first
      · rfl

theorem bitwise_or : Bitwise (w := w) (· ||| ·) (· || ·) := fun _ _ _ _ => BitVec.getLsbD_or
theorem bitwise_and : Bitwise (w := w) (· &&& ·) (· && ·) := fun _ _ _ _ => BitVec.getLsbD_and

theorem bitwise_diff : Bitwise (w := w) (fun x y => x &&& ~~~y) (fun a b => a && !b) := by
  intro x y i inside
  rw [BitVec.getLsbD_and,BitVec.getLsbD_not,decide_eq_true inside,Bool.true_and]

theorem bitwise_second : Bitwise (fun _ y : BitVec w => y) (fun _ b => b) := fun _ _ _ _ => rfl

theorem holds_none_iff : (∀ n, holds words n = false) ↔ ∀ x ∈ words, x = 0#w := by
  induction words with
  | nil => simp [holds]
  | cons x rest ih =>
    rw [List.forall_mem_cons,← ih]
    constructor
    · intro none
      constructor
      · by_contra nonzero
        obtain ⟨i,set⟩ := exists_getLsbD nonzero
        have absent := none i
        rw [holds,if_pos (BitVec.lt_of_getLsbD set),set] at absent
        cases absent
      · intro n
        have absent := none (n + w)
        rwa [holds,if_neg (by omega),Nat.add_sub_cancel] at absent
    · rintro ⟨rfl,none⟩ n
      rw [holds,BitVec.getLsbD_zero,none,ite_self]

-- Writing the word of one number.
theorem holds_set (positive : 0 < w) {x : BitVec w} (inside : i / w < words.length)
    (others : ∀ j < w, j ≠ i % w → x.getLsbD j = (words[i / w]).getLsbD j) :
    holds (words.set (i / w) x) n = if n = i then x.getLsbD (i % w) else holds words n := by
  rw [holds_eq positive,holds_eq positive,List.getD_eq_getElem?_getD,List.getD_eq_getElem?_getD,List.getElem?_set]
  by_cases word : i / w = n / w
  · rw [if_pos word,if_pos (word ▸ inside),Option.getD_some,← word,List.getElem?_eq_getElem inside,Option.getD_some]
    split
    · rename_i same
      rw [same]
    · rename_i other
      apply others _ (Nat.mod_lt n positive)
      intro bit
      have left := Nat.div_add_mod n w
      have right := Nat.div_add_mod i w
      rw [bit,← word,right] at left
      exact other left.symm
  · rw [if_neg word,if_neg]
    rintro rfl
    exact word rfl

end Words
end WordSets
