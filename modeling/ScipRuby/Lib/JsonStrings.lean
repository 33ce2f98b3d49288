import Mathlib.Data.List.Basic

namespace JsonStrings
variable {rest decoded : List UInt8} {byte : UInt8} {n : Nat}

def quote : UInt8 := 34
def backslash : UInt8 := 92

-- What the byte after a backslash stands for.
def letters : List (UInt8 × UInt8) :=
  [(quote,quote),(backslash,backslash),(47,47),(98,8),(102,12),(110,10),(114,13),(116,9)]

def letter (c : UInt8) : Option UInt8 := letters.lookup c

def digitValue (c : UInt8) : Option Nat :=
  if 48 ≤ c ∧ c ≤ 57 then some (c.toNat - 48)
  else if 97 ≤ c ∧ c ≤ 102 then some (c.toNat - 87)
  else if 65 ≤ c ∧ c ≤ 70 then some (c.toNat - 55)
  else none

def codeUnit (a b c d : UInt8) : Option Nat := do
  let a ← digitValue a
  let b ← digitValue b
  let c ← digitValue c
  let d ← digitValue d
  some (((a*16 + b)*16 + c)*16 + d)

-- The UTF-8 bytes of a code unit that is a character on its own.
def utf8 (unit : Nat) : Option (List UInt8) :=
  if unit < 0x80 then some [UInt8.ofNat unit]
  else if unit < 0x800 then some [UInt8.ofNat (0xC0 + unit / 64),UInt8.ofNat (0x80 + unit % 64)]
  else if 0xD800 ≤ unit ∧ unit < 0xE000 then none
  else some [UInt8.ofNat (0xE0 + unit / 4096),UInt8.ofNat (0x80 + unit / 64 % 64),UInt8.ofNat (0x80 + unit % 64)]

-- The bytes that the inside of a JSON string stands for. There are none where it holds a bare
-- quote, a control byte or a backslash that starts no escape.
def decode : List UInt8 → Option (List UInt8)
  | [] => some []
  | byte :: rest =>
    if byte = quote ∨ byte < 0x20 then none
    else if byte = backslash then
      match rest with
      | [] => none
      | c :: rest =>
        if c = 117 then
          match rest with
          | h1 :: h2 :: h3 :: h4 :: rest => do
            let unit ← codeUnit h1 h2 h3 h4
            let bytes ← utf8 unit
            let later ← decode rest
            some (bytes ++ later)
          | _ => none
        else do
          let plain ← letter c
          let later ← decode rest
          some (plain :: later)
    else do
      let later ← decode rest
      some (byte :: later)

-- Nothing but plain bytes and whole escapes.
inductive Escaped : List UInt8 → Prop where
  | nil : Escaped []
  | plain (byte : UInt8) (rest : List UInt8) (bare : byte ≠ quote) (printable : 0x20 ≤ byte) (other : byte ≠ backslash)
      (later : Escaped rest) : Escaped (byte :: rest)
  | short (c : UInt8) (rest : List UInt8) (known : (letter c).isSome = true) (later : Escaped rest) :
      Escaped (backslash :: c :: rest)
  | long (h1 h2 h3 h4 : UInt8) (rest : List UInt8) (digits : (codeUnit h1 h2 h3 h4).isSome = true)
      (later : Escaped rest) : Escaped (backslash :: 117 :: h1 :: h2 :: h3 :: h4 :: rest)

theorem decode_plain (bare : byte ≠ quote) (printable : 0x20 ≤ byte) (other : byte ≠ backslash)
    (later : decode rest = some decoded) : decode (byte :: rest) = some (byte :: decoded) := by
  have forbidden : ¬(byte = quote ∨ byte < 0x20) := by
    rintro (same | low)
    · exact bare same
    · exact absurd printable (UInt8.not_le.mpr low)
  rw [decode.eq_def]
  dsimp only
  rw [if_neg forbidden,if_neg other,later]
  rfl

theorem decode_short {c : UInt8} (notLong : c ≠ 117) (known : letter c = some byte)
    (later : decode rest = some decoded) : decode (backslash :: c :: rest) = some (byte :: decoded) := by
  rw [decode.eq_def]
  dsimp only
  rw [if_neg (by decide),if_pos rfl,if_neg notLong,known,later]
  rfl

theorem decode_long {h1 h2 h3 h4 : UInt8} (unit : codeUnit h1 h2 h3 h4 = some n) (low : n < 0x80)
    (later : decode rest = some decoded) :
    decode (backslash :: 117 :: h1 :: h2 :: h3 :: h4 :: rest) = some (UInt8.ofNat n :: decoded) := by
  have bytes : utf8 n = some [UInt8.ofNat n] := if_pos low
  rw [decode.eq_def]
  dsimp only
  rw [if_neg (by decide),if_pos rfl,if_pos rfl,unit,later]
  simp [bytes]

theorem letter_printable {c : UInt8} (known : (letter c).isSome = true) : 0x20 ≤ c := by
  obtain ⟨plain,found⟩ := Option.isSome_iff_exists.mp known
  obtain ⟨before,after,listed,_⟩ := List.lookup_eq_some_iff.mp found
  have member : (c,plain) ∈ letters := listed ▸ List.mem_append_right before List.mem_cons_self
  have all : ∀ pair ∈ letters, 0x20 ≤ pair.1 := by simp [letters,quote,backslash]
  exact all _ member

theorem digit_printable {c : UInt8} (known : (digitValue c).isSome = true) : 0x20 ≤ c := by
  have least {bound : UInt8} (high : 0x20 ≤ bound) (above : bound ≤ c) : 0x20 ≤ c := UInt8.le_trans high above
  unfold digitValue at known
  split at known
  · rename_i range; exact least (by decide) range.1
  split at known
  · rename_i range; exact least (by decide) range.1
  split at known
  · rename_i range; exact least (by decide) range.1
  · cases known

theorem codeUnit_digits {h1 h2 h3 h4 : UInt8} (known : (codeUnit h1 h2 h3 h4).isSome = true) :
    ∀ c ∈ [h1,h2,h3,h4], (digitValue c).isSome = true := by
  unfold codeUnit at known
  cases first : digitValue h1 with
  | none => simp [first] at known
  | some _ =>
    cases second : digitValue h2 with
    | none => simp [first,second] at known
    | some _ =>
      cases third : digitValue h3 with
      | none => simp [first,second,third] at known
      | some _ =>
        cases fourth : digitValue h4 with
        | none => simp [first,second,third,fourth] at known
        | some _ => simp [first,second,third,fourth]

theorem Escaped.printable (escaped : Escaped rest) : ∀ byte ∈ rest, 0x20 ≤ byte := by
  have slash : 0x20 ≤ backslash := by decide
  induction escaped with
  | nil => simp
  | plain byte rest bare printable other later ih => exact List.forall_mem_cons.mpr ⟨printable,ih⟩
  | short c rest known later ih =>
    exact List.forall_mem_cons.mpr ⟨slash,List.forall_mem_cons.mpr ⟨letter_printable known,ih⟩⟩
  | long h1 h2 h3 h4 rest digits later ih =>
    have known := codeUnit_digits digits
    have four : ∀ c ∈ [h1,h2,h3,h4], 0x20 ≤ c := fun c member => digit_printable (known c member)
    refine List.forall_mem_cons.mpr ⟨slash,List.forall_mem_cons.mpr ⟨by decide,?_⟩⟩
    intro byte member
    rcases List.mem_append.mp (show byte ∈ [h1,h2,h3,h4] ++ rest from member) with first | last
    · exact four byte first
    · exact ih byte last

end JsonStrings
