import ScipRuby.Common.Ints
import ScipRuby.Lib.JsonStrings

namespace Common.JSON
open JsonStrings

-- A char is signed where the switch compares it.
def signedChar (ch : UInt8) : Int := Int.bmod ch.toNat 256

-- The cases of the switch: backslash, quote, backspace, form feed, line feed, carriage return and tab.
def special (ch : UInt8) : Option (List UInt8) :=
  if ch = 92 then some [92,92]
  else if ch = 34 then some [92,34]
  else if ch = 8 then some [92,98]
  else if ch = 12 then some [92,102]
  else if ch = 10 then some [92,110]
  else if ch = 13 then some [92,114]
  else if ch = 9 then some [92,116]
  else none

def hexDigit (n : Nat) : UInt8 := UInt8.ofNat (if n < 10 then 48 + n else 87 + n)

-- What {:04x} writes for a number of at most four digits.
def hex4 (n : Nat) : List UInt8 :=
  [hexDigit (n / 4096 % 16),hexDigit (n / 256 % 16),hexDigit (n / 16 % 16),hexDigit (n % 16)]

-- The string_view from a place on; there is none outside of the string.
def view (source : List UInt8) (start size : Int) : Option (List UInt8) :=
  if 0 ≤ start ∧ 0 ≤ size ∧ start + size ≤ source.length then some ((source.drop start.toNat).take size.toNat) else none

-- One pass of the loop: what it adds to the buffer and the two indices after it.
def escapeChar (source : List UInt8) (buf : List UInt8) (firstUnusedChar currentChar : Int) (ch : UInt8) :
    Option (List UInt8 × Int × Int) := do
  let currentChar ← checked (currentChar + 1)
  match special ch with
  | some special =>
    let size ← checked (currentChar - firstUnusedChar)
    let toAdd ← view source firstUnusedChar size
    let firstUnusedChar ← checked (currentChar + 1)
    some (buf ++ toAdd ++ special,firstUnusedChar,currentChar)
  | none =>
    if 0x00 ≤ signedChar ch ∧ signedChar ch ≤ 0x1f then
      let size ← checked (currentChar - firstUnusedChar)
      let toAdd ← view source firstUnusedChar size
      let firstUnusedChar ← checked (currentChar + 1)
      some (buf ++ toAdd ++ [92,117] ++ hex4 ch.toNat,firstUnusedChar,currentChar)
    else some (buf,firstUnusedChar,currentChar)

def escapeLoop (source : List UInt8) : (rest buf : List UInt8) → (firstUnusedChar currentChar : Int) → Option (List UInt8 × Int)
  | [],buf,firstUnusedChar,_ => some (buf,firstUnusedChar)
  | ch :: rest,buf,firstUnusedChar,currentChar => do
    let (buf,firstUnusedChar,currentChar) ← escapeChar source buf firstUnusedChar currentChar ch
    escapeLoop source rest buf firstUnusedChar currentChar

def escape (source : List UInt8) : Option (List UInt8) := do
  let (buf,firstUnusedChar) ← escapeLoop source source [] 0 (-1)
  let toAdd ← view source firstUnusedChar (source.length - firstUnusedChar)
  some (buf ++ toAdd)

-- What one byte becomes.
def escapeByte (ch : UInt8) : List UInt8 :=
  match special ch with
  | some special => special
  | none => if ch < 0x20 then [92,117] ++ hex4 ch.toNat else [ch]

section Bytes
variable {ch : UInt8} {n : Nat} {rest decoded : List UInt8}

theorem bmod_control (small : n < 256) : 0x00 ≤ Int.bmod n 256 ∧ Int.bmod n 256 ≤ 0x1f ↔ n < 32 := by
  rw [Int.bmod_def]
  split
  · omega
  · omega

theorem toNat_control (ch : UInt8) : ch < 0x20 ↔ ch.toNat < 32 := by simp [UInt8.lt_iff_toNat_lt]

theorem control_iff (ch : UInt8) : 0x00 ≤ signedChar ch ∧ signedChar ch ≤ 0x1f ↔ ch < 0x20 := by
  rw [toNat_control]
  exact bmod_control ch.toNat_lt

theorem digitValue_hexDigit (small : n < 16) : digitValue (hexDigit n) = some n := by
  have all : ∀ n < 16, digitValue (hexDigit n) = some n := by decide +kernel
  exact all n small

theorem codeUnit_hex4 (small : n < 65536) :
    codeUnit (hexDigit (n / 4096 % 16)) (hexDigit (n / 256 % 16)) (hexDigit (n / 16 % 16)) (hexDigit (n % 16)) = some n := by
  have digit (n : Nat) : digitValue (hexDigit (n % 16)) = some (n % 16) := digitValue_hexDigit (Nat.mod_lt n (by decide))
  rw [codeUnit,digit,digit,digit,digit]
  simp only [Option.bind_eq_bind,Option.bind_some,Option.some.injEq]
  omega

-- The cases of the switch are the letters of JSON escapes.
theorem special_letter {text : List UInt8} (case : special ch = some text) :
    ∃ c, text = [backslash,c] ∧ c ≠ 117 ∧ letter c = some ch := by
  unfold special at case
  split at case
  · rename_i same; cases case; subst same; exact ⟨92,rfl,by decide,rfl⟩
  split at case
  · rename_i same; cases case; subst same; exact ⟨34,rfl,by decide,rfl⟩
  split at case
  · rename_i same; cases case; subst same; exact ⟨98,rfl,by decide,rfl⟩
  split at case
  · rename_i same; cases case; subst same; exact ⟨102,rfl,by decide,rfl⟩
  split at case
  · rename_i same; cases case; subst same; exact ⟨110,rfl,by decide,rfl⟩
  split at case
  · rename_i same; cases case; subst same; exact ⟨114,rfl,by decide,rfl⟩
  split at case
  · rename_i same; cases case; subst same; exact ⟨116,rfl,by decide,rfl⟩
  · cases case

theorem special_none (plain : special ch = none) : ch ≠ quote ∧ ch ≠ backslash := by
  constructor
  · rintro rfl
    cases plain
  · rintro rfl
    cases plain

theorem decode_escapeByte (ch : UInt8) (later : decode rest = some decoded) :
    decode (escapeByte ch ++ rest) = some (ch :: decoded) := by
  unfold escapeByte
  split
  · rename_i text case
    obtain ⟨c,rfl,notLong,known⟩ := special_letter case
    exact decode_short notLong known later
  · rename_i plain
    obtain ⟨bare,other⟩ := special_none plain
    split
    · rename_i control
      have low : ch.toNat < 32 := (toNat_control ch).mp control
      have read := decode_long (codeUnit_hex4 (by omega : ch.toNat < 65536)) (by omega) later
      rw [UInt8.ofNat_toNat] at read
      exact read
    · rename_i printable
      exact decode_plain bare (UInt8.not_lt.mp printable) other later

theorem escaped_escapeByte (ch : UInt8) (later : Escaped rest) : Escaped (escapeByte ch ++ rest) := by
  unfold escapeByte
  split
  · rename_i text case
    obtain ⟨c,rfl,_,known⟩ := special_letter case
    exact .short c rest (by rw [known]; rfl) later
  · rename_i plain
    obtain ⟨bare,other⟩ := special_none plain
    split
    · rename_i control
      have low : ch.toNat < 32 := (toNat_control ch).mp control
      apply Escaped.long _ _ _ _ rest _ later
      rw [codeUnit_hex4 (by omega : ch.toNat < 65536)]
      rfl
    · rename_i printable
      exact .plain ch rest bare (UInt8.not_lt.mp printable) other later

theorem decode_flatMap (source : List UInt8) : decode (source.flatMap escapeByte) = some source := by
  induction source with
  | nil => rw [List.flatMap_nil,decode]
  | cons ch rest ih =>
    rw [List.flatMap_cons]
    exact decode_escapeByte ch ih

theorem escaped_flatMap (source : List UInt8) : Escaped (source.flatMap escapeByte) := by
  induction source with
  | nil => exact .nil
  | cons ch rest ih =>
    rw [List.flatMap_cons]
    exact escaped_escapeByte ch ih

end Bytes

section Loop
variable {source done pending rest : List UInt8} {ch : UInt8} {buf : List UInt8}

-- The run of bytes since firstUnusedChar, none of which is escaped.
structure Pending (source done pending rest : List UInt8) : Prop where
  parts : source = done ++ pending ++ rest
  plain : pending.flatMap escapeByte = pending

theorem Pending.view (waiting : Pending source done pending rest) :
    JSON.view source done.length pending.length = some pending := by
  rw [JSON.view,waiting.parts]
  rw [if_pos (by simp only [List.length_append]; omega),Int.toNat_natCast,Int.toNat_natCast,List.append_assoc,List.drop_left,
    List.take_left]

-- One byte is either left pending or written out behind the run.
theorem escapeChar_spec (waiting : Pending source done pending (ch :: rest)) (fits : source.length < 2^31) :
    ∃ done' pending', Pending source done' pending' rest ∧
      escapeChar source (done.flatMap escapeByte) done.length (done.length + pending.length - 1) ch =
        some (done'.flatMap escapeByte,(done'.length : Int),(done'.length : Int) + pending'.length - 1) := by
  have lengths : source.length = done.length + pending.length + (rest.length + 1) := by
    rw [waiting.parts,List.length_append,List.length_append,List.length_cons]
  have current : checked ((done.length : Int) + pending.length - 1 + 1) = some ((done.length : Int) + pending.length) := by
    rw [Int.sub_add_cancel]
    exact checked_fits (by omega) (by omega)
  have size : checked ((done.length : Int) + pending.length - done.length) = some (pending.length : Int) := by
    have difference : (done.length : Int) + pending.length - done.length = pending.length := by omega
    rw [difference]
    exact checked_fits (by omega) (by omega)
  have next : checked ((done.length : Int) + pending.length + 1) = some _ := checked_fits (by omega) (by omega)
  -- An escaped byte is written right behind the run that was waiting.
  have flushed : Pending source (done ++ pending ++ [ch]) [] rest ∧
      (done ++ pending ++ [ch]).flatMap escapeByte = done.flatMap escapeByte ++ pending ++ escapeByte ch := by
    refine ⟨⟨?_,rfl⟩,?_⟩
    · rw [waiting.parts,List.append_nil,List.append_assoc _ [ch],List.singleton_append]
    · rw [List.flatMap_append,List.flatMap_append,waiting.plain,List.flatMap_singleton]
  have count : ((done ++ pending ++ [ch]).length : Int) = done.length + pending.length + 1 := by
    simp only [List.length_append,List.length_singleton]
    omega
  rw [escapeChar,current,Option.bind_eq_bind,Option.bind_some]
  cases case : special ch with
  | some text =>
    have text_eq : escapeByte ch = text := by rw [escapeByte,case]
    refine ⟨_,[],flushed.1,?_⟩
    dsimp only
    rw [size,Option.bind_eq_bind,Option.bind_some,waiting.view,Option.bind_some,next,Option.bind_some,count,flushed.2,text_eq]
    simp
  | none =>
    by_cases control : ch < 0x20
    · have text_eq : escapeByte ch = [92,117] ++ hex4 ch.toNat := by
        rw [escapeByte,case]
        exact if_pos control
      refine ⟨_,[],flushed.1,?_⟩
      dsimp only
      rw [if_pos ((control_iff ch).mpr control),size,Option.bind_eq_bind,Option.bind_some,waiting.view,Option.bind_some,next,
        Option.bind_some,count,flushed.2,text_eq]
      simp
    · have text_eq : escapeByte ch = [ch] := by
        rw [escapeByte,case]
        exact if_neg control
      refine ⟨done,pending ++ [ch],⟨?_,?_⟩,?_⟩
      · rw [waiting.parts,List.append_assoc,List.append_assoc,List.append_assoc]
        rfl
      · rw [List.flatMap_append,waiting.plain,List.flatMap_singleton,text_eq]
      · dsimp only
        rw [if_neg fun low => control ((control_iff ch).mp low),List.length_append,List.length_singleton]
        have current : ((done.length : Int) + pending.length) = done.length + (pending.length + 1 : Nat) - 1 := by omega
        rw [current]

theorem escapeLoop_spec (waiting : Pending source done pending rest) (fits : source.length < 2^31) :
    ∃ done' pending', Pending source done' pending' [] ∧
      escapeLoop source rest (done.flatMap escapeByte) done.length (done.length + pending.length - 1) =
        some (done'.flatMap escapeByte,(done'.length : Int)) := by
  induction rest generalizing done pending with
  | nil => exact ⟨done,pending,waiting,rfl⟩
  | cons ch rest ih =>
    obtain ⟨done',pending',waiting',step⟩ := escapeChar_spec waiting fits
    obtain ⟨last,tail,final,run⟩ := ih waiting'
    refine ⟨last,tail,final,?_⟩
    rw [escapeLoop,step,Option.bind_eq_bind,Option.bind_some]
    exact run

-- The runs and the escapes together are the bytes one by one.
theorem escape_eq (fits : source.length < 2^31) : escape source = some (source.flatMap escapeByte) := by
  obtain ⟨done,pending,waiting,run⟩ := @escapeLoop_spec source [] [] source ⟨rfl,rfl⟩ fits
  have parts := waiting.parts
  have view := waiting.view
  rw [List.append_nil] at parts
  have size : (source.length : Int) - done.length = pending.length := by
    rw [parts,List.length_append]
    omega
  have start : (([] : List UInt8).length : Int) + ([] : List UInt8).length - 1 = -1 := rfl
  rw [start] at run
  change escapeLoop source source [] 0 (-1) = _ at run
  rw [escape]
  rw [run,Option.bind_eq_bind,Option.bind_some]
  dsimp only
  rw [size,view,Option.bind_eq_bind,Option.bind_some,parts,List.flatMap_append,waiting.plain]

end Loop

-- The output holds whole escapes and printable bytes only and stands for the string, so that
-- two strings never have the same one.
theorem escape_decodes (source : List UInt8) (fits : source.length < 2^31) :
    ∃ escaped, escape source = some escaped ∧ Escaped escaped ∧ (∀ byte ∈ escaped, 0x20 ≤ byte) ∧
      decode escaped = some source ∧
      ∀ other : List UInt8, other.length < 2^31 → escape other = some escaped → other = source := by
  refine ⟨_,escape_eq fits,escaped_flatMap source,(escaped_flatMap source).printable,decode_flatMap source,?_⟩
  intro other short same
  rw [escape_eq short,Option.some.injEq] at same
  have back := decode_flatMap other
  rw [same,decode_flatMap] at back
  exact (Option.some.inj back).symm

theorem escape_decodes_special : ∃ escaped, escape [34,1,97,92] = some escaped ∧ Escaped escaped ∧
    (∀ byte ∈ escaped, 0x20 ≤ byte) ∧ decode escaped = some [34,1,97,92] ∧
    ∀ other : List UInt8, other.length < 2^31 → escape other = some escaped → other = [34,1,97,92] :=
  escape_decodes [34,1,97,92] (by decide)

example : escape [34,1,97,92] = some [92,34,92,117,48,48,48,49,97,92,92] := by decide

-- The index of the last of more than 2^31 bytes is no int.
theorem escapeLoop_overflow {source buf : List UInt8} {n : Nat} {firstUnusedChar currentChar : Int}
    (low : -1 ≤ currentChar) (high : currentChar < 2^31) (long : 2^31 ≤ currentChar + n) :
    escapeLoop source (List.replicate n 97) buf firstUnusedChar currentChar = none := by
  induction n generalizing currentChar with
  | zero => omega
  | succ n ih =>
    rw [List.replicate_succ,escapeLoop]
    by_cases last : currentChar + 1 < 2^31
    · have plain : special 97 = none := by decide
      have printable : ¬(0x00 ≤ signedChar 97 ∧ signedChar 97 ≤ 0x1f) := by decide
      have later := @ih (currentChar + 1) (by omega) last (by omega)
      have step : escapeChar source buf firstUnusedChar currentChar 97 = some (buf,firstUnusedChar,currentChar + 1) := by
        rw [escapeChar,checked_fits (by omega) last,Option.bind_eq_bind,Option.bind_some,plain]
        exact if_neg printable
      rw [step,Option.bind_eq_bind,Option.bind_some]
      exact later
    · rw [escapeChar]
      have overflow : checked (currentChar + 1) = none := if_neg fun range => last range.2
      rw [overflow]
      rfl

theorem escape_overflow : ¬∃ escaped, escape (List.replicate (2^31 + 1) 97) = some escaped := by
  have overflow : escapeLoop (List.replicate (2^31 + 1) 97) (List.replicate (2^31 + 1) 97) [] 0 (-1) = none :=
    escapeLoop_overflow (by decide) (by decide) (by decide)
  rw [escape,overflow]
  rintro ⟨escaped,impossible⟩
  cases impossible

end Common.JSON
