import ScipRuby.Lib.SelfSync

namespace Scip
open SelfSync

abbrev Bytes := List UInt8

-- The trailing bytes of a sequence.
def Trailing (byte : UInt8) : Prop := 0x80 ≤ byte ∧ byte ≤ 0xBF

instance Trailing.decidable (byte : UInt8) : Decidable (Trailing byte) := inferInstanceAs (Decidable (_ ∧ _))

-- The well-formed byte sequences of one code point: no overlong forms, no
-- surrogates, nothing above U+10FFFF.
def WellFormed : Bytes → Prop
  | [a] => a ≤ 0x7F
  | [a,b] => (0xC2 ≤ a ∧ a ≤ 0xDF) ∧ Trailing b
  | [a,b,c] =>
    (a = 0xE0 ∧ 0xA0 ≤ b ∨ 0xE1 ≤ a ∧ a ≤ 0xEC ∨ a = 0xED ∧ b ≤ 0x9F ∨ 0xEE ≤ a ∧ a ≤ 0xEF) ∧ Trailing b ∧ Trailing c
  | [a,b,c,d] =>
    (a = 0xF0 ∧ 0x90 ≤ b ∨ 0xF1 ≤ a ∧ a ≤ 0xF3 ∨ a = 0xF4 ∧ b ≤ 0x8F) ∧ Trailing b ∧ Trailing c ∧ Trailing d
  | _ => False

instance WellFormed.decidable : DecidablePred WellFormed
  | [] => inferInstanceAs (Decidable False)
  | [a] => inferInstanceAs (Decidable (a ≤ 0x7F))
  | [_,_] => inferInstanceAs (Decidable (_ ∧ _))
  | [_,_,_] => inferInstanceAs (Decidable (_ ∧ _))
  | [_,_,_,_] => inferInstanceAs (Decidable (_ ∧ _))
  | _ :: _ :: _ :: _ :: _ :: _ => inferInstanceAs (Decidable False)

-- rapidjson's UTF8 decoder on the bytes that are left: how many it has taken, if
-- it accepts.
abbrev Decode := Bytes → Option Nat

-- It accepts exactly the well-formed sequences at the start of its input and
-- takes them.
def Decode.Standard (decode : Decode) : Prop :=
  ∀ input taken, decode input = some taken ↔ ∃ sequence, WellFormed sequence ∧ sequence <+: input ∧ sequence.length = taken

section Code
variable {decode : Decode} {text result : Bytes} {offset fuel : Nat}

def escapeByte (byte : UInt8) : Bytes :=
  [0x5C,(0x30 : UInt8) + ((byte >>> 6) &&& 7),(0x30 : UInt8) + ((byte >>> 3) &&& 7),(0x30 : UInt8) + (byte &&& 7)]

-- The fuel bounds the rounds of the loop; none stands for a loop that still runs.
def escapeLoop (decode : Decode) (text : Bytes) : Nat → Nat → Bytes → Option Bytes
  | 0,_,_ => none
  | fuel + 1,offset,result =>
    match text[offset]? with
    | none => some result
    | some byte =>
      if byte < 0x80 then escapeLoop decode text fuel (offset + 1) (result ++ [byte])
      else match decode (text.drop offset) with
        | some taken => escapeLoop decode text fuel (offset + taken) (result ++ (text.drop offset).take taken)
        | none => escapeLoop decode text fuel (offset + 1) (result ++ escapeByte byte)

def escapeInvalidUtf8 (decode : Decode) (fuel : Nat) (text : Bytes) : Option Bytes := escapeLoop decode text fuel 0 []

end Code

-- A backslash and the three octal digits of the byte.
def octal (byte : UInt8) : Bytes :=
  [0x5C,.ofNat (48 + byte.toNat / 64),.ofNat (48 + byte.toNat / 8 % 8),.ofNat (48 + byte.toNat % 8)]

section Sequences

def sequenceLength (first : UInt8) : Nat :=
  if first < 0x80 then 1 else if first < 0xE0 then 2 else if first < 0xF0 then 3 else 4

theorem WellFormed.length_eq {first : UInt8} {rest : Bytes} (formed : WellFormed (first :: rest)) :
    (first :: rest).length = sequenceLength first := by
  match rest,formed with
  | [],formed => grind [WellFormed,sequenceLength]
  | [b],formed => grind [WellFormed,sequenceLength]
  | [b,c],formed => grind [WellFormed,sequenceLength]
  | [b,c,d],formed => grind [WellFormed,sequenceLength]

theorem WellFormed.opens {w : Bytes} (formed : WellFormed w) :
    ∃ first rest, w = first :: rest ∧ ¬ Trailing first ∧ ∀ byte ∈ rest, Trailing byte := by
  match w,formed with
  | [a],formed => exact ⟨a,[],rfl,by grind [WellFormed,Trailing],by simp⟩
  | [a,b],formed => exact ⟨a,[b],rfl,by grind [WellFormed,Trailing],by grind [WellFormed]⟩
  | [a,b,c],formed => exact ⟨a,[b,c],rfl,by grind [WellFormed,Trailing],by grind [WellFormed]⟩
  | [a,b,c,d],formed => exact ⟨a,[b,c,d],rfl,by grind [WellFormed,Trailing],by grind [WellFormed]⟩

theorem wellFormed_code : Code WellFormed Trailing where
  opens := WellFormed.opens
  complete := by
    intro w more short long
    obtain ⟨first,rest,rfl,_⟩ := short.opens
    have short' := short.length_eq
    have long' : (first :: rest ++ more).length = sequenceLength first := long.length_eq
    have both : (first :: rest ++ more).length = (first :: rest).length + more.length := List.length_append
    rw [both] at long'
    exact List.eq_nil_of_length_eq_zero (by omega)

theorem masked_eq (byte : UInt8) : byte &&& 7 = .ofNat (byte.toNat % 8) := by
  apply UInt8.toNat_inj.mp
  have masked : byte.toNat &&& 7 = byte.toNat % 8 := Nat.and_two_pow_sub_one_eq_mod byte.toNat 3
  rw [UInt8.toNat_and,UInt8.toNat_ofNat']
  change byte.toNat &&& 7 = _
  omega

theorem escapeByte_octal (byte : UInt8) : escapeByte byte = octal byte := by
  have low := UInt8.toNat_lt byte
  have high : (byte >>> 6).toNat = byte.toNat / 64 := by
    simp [UInt8.toNat_shiftRight,Nat.shiftRight_eq_div_pow]
  have middle : (byte >>> 3).toNat = byte.toNat / 8 := by
    simp [UInt8.toNat_shiftRight,Nat.shiftRight_eq_div_pow]
  have high' : byte.toNat / 64 % 8 = byte.toNat / 64 := by omega
  rw [escapeByte,octal,masked_eq,masked_eq,masked_eq,high,middle,high',UInt8.ofNat_add,UInt8.ofNat_add,UInt8.ofNat_add]
  rfl

theorem wellFormed_ascii {byte : UInt8} (small : byte < 0x80) : WellFormed [byte] := by
  change byte ≤ 0x7F
  grind

theorem escapeByte_valid (byte : UInt8) : Valid WellFormed (escapeByte byte) := by
  have small : ∀ n < 8, UInt8.ofNat (48 + n) < 0x80 := by decide
  have low := UInt8.toNat_lt byte
  rw [escapeByte_octal]
  have digit : ∀ n < 8, Valid WellFormed [.ofNat (48 + n)] := fun n few => .single (wellFormed_ascii (small n few))
  have slash : Valid WellFormed [0x5C] := .single (wellFormed_ascii (by decide))
  exact slash.append ((digit (byte.toNat / 64) (by omega)).append ((digit (byte.toNat / 8 % 8) (by omega)).append
    (digit (byte.toNat % 8) (by omega))))

end Sequences

section Loop
variable {decode : Decode} {text result : Bytes} {offset fuel : Nat}

-- Every round takes at least one byte, so fuel beyond the bytes left suffices.
theorem escapeLoop_repairs (standard : decode.Standard) (enough : text.length - offset < fuel) :
    ∃ out, Repairs WellFormed escapeByte (text.drop offset) out ∧ escapeLoop decode text fuel offset result = some (result ++ out) := by
  induction fuel generalizing offset result with
  | zero => cases enough
  | succ fuel ih =>
    rw [escapeLoop]
    cases here : text[offset]? with
    | none =>
      have beyond := List.getElem?_eq_none_iff.mp here
      exact ⟨[],by rw [List.drop_eq_nil_of_le beyond]; exact .nil,by rw [List.append_nil]⟩
    | some byte =>
      obtain ⟨inside,same⟩ := List.getElem?_eq_some_iff.mp here
      have rest : text.drop offset = byte :: text.drop (offset + 1) := by
        rw [← same]
        exact List.drop_eq_getElem_cons inside
      dsimp only
      split
      · rename_i small
        obtain ⟨out,repairs,runs⟩ := @ih (result ++ [byte]) (offset + 1) (by omega)
        refine ⟨byte :: out,?_,by rw [runs,List.append_assoc]; rfl⟩
        rw [rest]
        exact .word (wellFormed_ascii small) repairs
      · cases decoded : decode (text.drop offset) with
        | some taken =>
          obtain ⟨w,formed,⟨after,whole⟩,rfl⟩ := (standard _ _).mp decoded
          have nonempty : 0 < w.length := by
            obtain ⟨_,_,rfl,_⟩ := formed.opens
            simp
          have dropped : text.drop (offset + w.length) = after := by
            rw [← List.drop_drop,← whole,List.drop_left]
          have taken : (text.drop offset).take w.length = w := by
            rw [← whole,List.take_left]
          obtain ⟨out,repairs,runs⟩ := @ih (result ++ w) (offset + w.length) (by omega)
          refine ⟨w ++ out,?_,?_⟩
          · rw [← whole]
            rw [dropped] at repairs
            exact .word formed repairs
          · dsimp only
            rw [taken,runs,List.append_assoc]
        | none =>
          obtain ⟨out,repairs,runs⟩ := @ih (result ++ escapeByte byte) (offset + 1) (by omega)
          refine ⟨escapeByte byte ++ out,?_,by rw [runs,List.append_assoc]⟩
          rw [rest]
          apply Repairs.letter _ repairs
          intro w formed starts
          rw [← rest] at starts
          rw [(standard _ _).mpr ⟨w,formed,starts,rfl⟩] at decoded
          cases decoded

end Loop

section Repair

-- What the loop makes of a text does not depend on the fuel once it suffices.
theorem escapeInvalidUtf8_repair (decode : Decode) (standard : decode.Standard) :
    ∃ repair : Bytes → Bytes,
      (∀ text fuel, text.length < fuel → escapeInvalidUtf8 decode fuel text = some (repair text)) ∧
      (∀ text, Valid WellFormed (repair text)) ∧
      (∀ text, Valid WellFormed text → repair text = text) ∧
      (∀ text, repair (repair text) = repair text) ∧
      repair [] = [] ∧
      (∀ before run after, Valid WellFormed run → run ≠ [] →
        repair (before ++ (run ++ after)) = repair before ++ (run ++ repair after)) ∧
      (∀ before byte after, Uncovered WellFormed before byte after →
        repair (before ++ byte :: after) = repair before ++ (octal byte ++ repair after)) := by
  have total : ∀ text, ∃ out, Repairs WellFormed escapeByte text out := by
    intro text
    obtain ⟨out,repairs,_⟩ := @escapeLoop_repairs decode text [] 0 (text.length + 1) standard (by omega)
    exact ⟨out,repairs⟩
  choose repair repairs using total
  have unique : ∀ {text out}, Repairs WellFormed escapeByte text out → repair text = out :=
    fun other => wellFormed_code.repairs_unique (repairs _) other
  have valid : ∀ text, Valid WellFormed (repair text) := fun text => (repairs text).valid escapeByte_valid
  have kept : ∀ text, Valid WellFormed text → repair text = text := fun text valid => unique (.of_valid valid)
  refine ⟨repair,?_,valid,kept,fun text => kept _ (valid text),kept [] .nil,?_,?_⟩
  · intro text fuel enough
    obtain ⟨out,found,runs⟩ := @escapeLoop_repairs decode text [] 0 fuel standard (by omega)
    rw [escapeInvalidUtf8,runs]
    exact congrArg some (unique found).symm
  · intro before run after formed filled
    exact unique (wellFormed_code.repairs_run formed filled (repairs before) (repairs after))
  · intro before byte after uncovered
    rw [← escapeByte_octal]
    exact unique (wellFormed_code.repairs_letter uncovered (repairs before) (repairs after))

-- A decoder that tries the lengths of a sequence one after the other.
def decodeSequence : Decode := fun input => [1,2,3,4].find? fun taken => taken ≤ input.length ∧ WellFormed (input.take taken)

theorem decodeSequence_standard : Decode.Standard decodeSequence := by
  intro input taken
  constructor
  · intro found
    have accepted := List.find?_some found
    obtain ⟨few,formed⟩ := of_decide_eq_true accepted
    exact ⟨input.take taken,formed,List.take_prefix _ _,List.length_take_of_le few⟩
  · rintro ⟨w,formed,⟨rest,rfl⟩,rfl⟩
    cases found : decodeSequence (w ++ rest) with
    | some n =>
      have accepted := List.find?_some found
      obtain ⟨few,other⟩ := of_decide_eq_true accepted
      have same := wellFormed_code.prefix_eq other formed (List.take_prefix _ _) (List.prefix_append w rest)
      rw [← same,List.length_take_of_le few]
    | none =>
      have lengths : w.length ∈ [1,2,3,4] := by
        obtain ⟨first,others,rfl,_⟩ := formed.opens
        rw [formed.length_eq]
        grind [sequenceLength]
      have refused := List.find?_eq_none.mp found w.length lengths
      exact absurd (decide_eq_true ⟨by simp,by rwa [List.take_left]⟩) refused

-- A truncated sequence, an opening bracket, a whole sequence, and a surrogate.
def brokenBytes : Bytes := [0xE2,0x82,0x28,0xC3,0xA9,0xED,0xA0,0x80]

theorem escapeInvalidUtf8_repair_broken : ∃ repair : Bytes → Bytes,
    escapeInvalidUtf8 decodeSequence 9 brokenBytes = some (repair brokenBytes) ∧
      Valid WellFormed (repair brokenBytes) ∧ repair (repair brokenBytes) = repair brokenBytes ∧
      repair brokenBytes = octal 0xE2 ++ octal 0x82 ++ [0x28,0xC3,0xA9] ++ octal 0xED ++ octal 0xA0 ++ octal 0x80 := by
  obtain ⟨repair,runs,valid,_,idempotent,_⟩ := escapeInvalidUtf8_repair decodeSequence decodeSequence_standard
  have run := runs brokenBytes 9 (by decide)
  refine ⟨repair,run,valid _,idempotent _,?_⟩
  rw [← Option.some.injEq,← run]
  decide +kernel

end Repair

end Scip
