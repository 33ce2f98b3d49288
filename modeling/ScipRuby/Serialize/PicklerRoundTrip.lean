import ScipRuby.Serialize.Pickler

namespace Serialize

-- What a finished buffer says about a writer state on the way to it. An open run
-- will have been closed with some count, at least the zeros counted so far.
def Fits (p : Pickler) (final : List UInt8) : Prop :=
  if p.zeroCounter = 0 then p.data <+: final
  else ∃ count, p.zeroCounter ≤ count ∧ p.data ++ [count] <+: final

-- The reader that has consumed exactly what this writer state has produced. In
-- an open run it has the count byte already and owes the zeros still to come.
def cursor (p : Pickler) (final : List UInt8) : UnPickler :=
  if p.zeroCounter = 0 then ⟨final,p.data.length,0⟩
  else ⟨final,p.data.length + 1,final[p.data.length]?.getD 0 - p.zeroCounter⟩

theorem prefix_at {front : List UInt8} (fits : front ++ b :: rest <+: final) : final[front.length]? = some b := by
  obtain ⟨tail,rfl⟩ := fits
  simp

theorem fits_closed {p : Pickler} (closed : p.zeroCounter = 0) : Fits p final ↔ p.data <+: final := by
  simp [Fits,closed]

theorem cursor_closed {p : Pickler} (closed : p.zeroCounter = 0) (final : List UInt8) :
    cursor p final = ⟨final,p.data.length,0⟩ := by simp [cursor,closed]

@[simp] theorem flush_closed (p : Pickler) : p.flush.zeroCounter = 0 := by
  unfold Pickler.flush; split <;> simp_all

theorem flush_idle {p : Pickler} (closed : p.zeroCounter = 0) : p.flush = p := by simp [Pickler.flush,closed]

-- Closing a run moves no reader: the count byte was read when the run was entered.
theorem flush_fits {p : Pickler} (fits : Fits p.flush final) :
    Fits p final ∧ cursor p final = cursor p.flush final := by
  by_cases closed : p.zeroCounter = 0
  · rw [flush_idle closed] at fits ⊢
    exact ⟨fits,rfl⟩
  · have flushed : p.flush = ⟨p.data ++ [p.zeroCounter],0⟩ := by simp [Pickler.flush,closed]
    rw [flushed] at fits ⊢
    simp only [Fits,if_true] at fits
    refine ⟨?_,?_⟩
    · simp only [Fits,closed,if_false]
      exact ⟨_,UInt8.le_refl _,fits⟩
    · have count := prefix_at fits
      simp [cursor,closed,count]

theorem putU1_eq (p : Pickler) (b : UInt8) : p.putU1 b = ⟨p.flush.data ++ [b],0⟩ := by
  have closed := flush_closed p
  simp only [Pickler.putU1,Pickler.emplace]
  rw [← closed]

theorem next_emplace {p : Pickler} (closed : p.zeroCounter = 0) (fits : Fits (p.emplace b) final) :
    Fits p final ∧ (cursor p final).next = some (b,cursor (p.emplace b) final) := by
  have inner : (p.emplace b).zeroCounter = 0 := closed
  have written := (fits_closed inner).mp fits
  refine ⟨(fits_closed closed).mpr ((List.prefix_append _ _).trans written),?_⟩
  have here := prefix_at written
  rw [cursor_closed closed,cursor_closed inner]
  simp [UnPickler.next,here,Pickler.emplace]

theorem getU1_putU1 {p : Pickler} (fits : Fits (p.putU1 b) final) :
    Fits p final ∧ (cursor p final).getU1 = some (b,cursor (p.putU1 b) final) := by
  obtain ⟨flushed,read⟩ := next_emplace (flush_closed p) fits
  obtain ⟨fitsHere,same⟩ := flush_fits flushed
  refine ⟨fitsHere,?_⟩
  rw [same,UnPickler.getU1,if_pos (by simp [cursor_closed (flush_closed p)]),read]
  rfl

theorem fits_open {p : Pickler} (opened : p.zeroCounter ≠ 0) :
    Fits p final ↔ ∃ count, p.zeroCounter ≤ count ∧ p.data ++ [count] <+: final := by
  simp [Fits,opened]

theorem cursor_open {p : Pickler} (opened : p.zeroCounter ≠ 0) (written : p.data ++ [count] <+: final) :
    cursor p final = ⟨final,p.data.length + 1,count - p.zeroCounter⟩ := by
  simp [cursor,opened,prefix_at written]

-- The marker and its count are read together; the first zero of the run is then paid.
theorem getU4_marker (front : List UInt8) (written : front ++ [0,count] <+: final) :
    (⟨final,front.length,0⟩ : UnPickler).getU4 = some (0,⟨final,front.length + 2,count - 1⟩) := by
  have marker : final[front.length]? = some 0 := prefix_at written
  have counted : final[front.length + 1]? = some count := by
    have behind : (front ++ [0]) ++ [count] <+: final := by simpa using written
    simpa using prefix_at behind
  simp [UnPickler.getU4,UnPickler.next,marker,counted]

theorem getU4_openRun {p : Pickler} (closed : p.zeroCounter = 0) (fits : Fits p.openRun final) :
    Fits p final ∧ (cursor p final).getU4 = some (0,cursor p.openRun final) := by
  have one : p.openRun.zeroCounter ≠ 0 := by simp [Pickler.openRun]
  obtain ⟨count,_,written⟩ := (fits_open one).mp fits
  rw [cursor_closed closed,cursor_open one written]
  have marked : p.data ++ [0,count] <+: final := by simpa [Pickler.openRun] using written
  refine ⟨(fits_closed closed).mpr ((List.prefix_append _ _).trans marked),?_⟩
  rw [getU4_marker p.data marked]
  simp [Pickler.openRun]

-- The three ways a zero word goes out: a new run, one more in an open run, and
-- a full run closed at 255 with a new one behind it.
theorem getU4_zero {p : Pickler} (fits : Fits (p.putU4 0) final) :
    Fits p final ∧ (cursor p final).getU4 = some (0,cursor (p.putU4 0) final) := by
  by_cases closed : p.zeroCounter = 0
  · have started : p.putU4 0 = p.openRun := by simp [Pickler.putU4,closed]
    rw [started] at fits ⊢
    exact getU4_openRun closed fits
  · by_cases full : p.zeroCounter = 255
    · have flushed : p.flush = ⟨p.data ++ [255],0⟩ := by simp [Pickler.flush,full]
      have restarted : p.putU4 0 = p.flush.openRun := by simp [Pickler.putU4,full,flushed]
      rw [restarted] at fits ⊢
      obtain ⟨inner,read⟩ := getU4_openRun (flush_closed p) fits
      obtain ⟨outer,same⟩ := flush_fits inner
      exact ⟨outer,same ▸ read⟩
    · have extended : p.putU4 0 = {p with zeroCounter := p.zeroCounter + 1} := by
        simp [Pickler.putU4,closed,full]
      have room : p.zeroCounter.toNat < 255 := by
        have bound := p.zeroCounter.toNat_lt
        have notFull : p.zeroCounter.toNat ≠ 255 := fun eq => full (UInt8.toNat_inj.mp eq)
        omega
      have grown : (p.zeroCounter + 1).toNat = p.zeroCounter.toNat + 1 := by
        rw [UInt8.toNat_add]; simp; omega
      rw [extended] at fits ⊢
      have opened : ({p with zeroCounter := p.zeroCounter + 1} : Pickler).zeroCounter ≠ 0 := by
        intro wrapped
        have := congrArg UInt8.toNat wrapped
        simp only [grown,UInt8.toNat_zero] at this
        omega
      obtain ⟨count,enough,written⟩ := (fits_open opened).mp fits
      rw [cursor_open closed written,cursor_open opened written]
      have enoughNat : p.zeroCounter.toNat + 1 ≤ count.toNat := grown ▸ UInt8.le_iff_toNat_le.mp enough
      refine ⟨(fits_open closed).mpr ⟨count,UInt8.le_iff_toNat_le.mpr (by omega),written⟩,?_⟩
      have owed : count - p.zeroCounter ≠ 0 := by
        intro none
        have eq : count = p.zeroCounter := by
          have := congrArg (· + p.zeroCounter) none
          simpa using this
        rw [eq] at enoughNat
        omega
      rw [UnPickler.getU4,if_pos owed]
      have paid : count - p.zeroCounter - 1 = count - (p.zeroCounter + 1) := by grind
      rw [paid]

-- A group above the ones already accumulated, in the width of the register.
theorem accumulate32 {res : UInt32} (acc : res.toNat < 2^(7*k)) (small : k ≤ 4)
    (fits : res.toNat + g * 2^(7*k) < 2^32) :
    (res ||| (UInt32.ofNat g <<< UInt32.ofNat (7*k))).toNat = res.toNat + g * 2^(7*k) := by
  have groupFits : g * 2^(7*k) < 2^32 := by omega
  have word : g < 2^32 := Nat.lt_of_le_of_lt (Nat.le_mul_of_pos_right _ (Nat.two_pow_pos _)) groupFits
  have shift : (UInt32.ofNat (7*k)).toNat % 32 = 7*k := by
    rw [UInt32.toNat_ofNat']; omega
  rw [UInt32.toNat_or,UInt32.toNat_shiftLeft,shift,UInt32.toNat_ofNat',Nat.mod_eq_of_lt word,
    Nat.mod_eq_of_lt (by rwa [Nat.shiftLeft_eq]),Varint.group_or acc]

theorem accumulate64 {res : UInt64} (acc : res.toNat < 2^(7*k)) (small : k ≤ 9)
    (fits : res.toNat + g * 2^(7*k) < 2^64) :
    (res ||| (UInt64.ofNat g <<< UInt64.ofNat (k*7))).toNat = res.toNat + g * 2^(7*k) := by
  have groupFits : g * 2^(7*k) < 2^64 := by omega
  have word : g < 2^64 := Nat.lt_of_le_of_lt (Nat.le_mul_of_pos_right _ (Nat.two_pow_pos _)) groupFits
  have shift : (UInt64.ofNat (k*7)).toNat % 64 = 7*k := by
    rw [UInt64.toNat_ofNat']; omega
  rw [UInt64.toNat_or,UInt64.toNat_shiftLeft,shift,UInt64.toNat_ofNat',Nat.mod_eq_of_lt word,
    Nat.mod_eq_of_lt (by rwa [Nat.shiftLeft_eq]),Varint.group_or acc]

theorem encode_head (n : Nat) : ∃ b tail, Varint.encode n = b :: tail ∧ b.toNat &&& 127 = n % 128 ∧
    (n > 127 → b.toNat &&& 128 ≠ 0 ∧ tail = Varint.encode (n / 128)) ∧
    (¬ n > 127 → b.toNat &&& 128 = 0 ∧ tail = []) := by
  by_cases more : n > 127
  · exact ⟨_,_,Varint.encode_more more,Varint.more_payload n,fun _ => ⟨Varint.more_flag n,rfl⟩,fun last => absurd more last⟩
  · refine ⟨_,_,Varint.encode_last more,?_,fun wide => absurd wide more,fun _ => ⟨Varint.last_flag more,rfl⟩⟩
    rw [Varint.last_payload more,Nat.mod_eq_of_lt (by omega)]

-- Carrying one group from the rest of the value into the accumulator.
theorem group_split (m shift : Nat) : m % 128 * 2^shift + m / 128 * 2^(shift+7) = m * 2^shift := by
  rw [Nat.pow_add,← Nat.mul_assoc,Nat.mul_right_comm,← Nat.add_mul]
  congr 1
  omega

theorem group_below (below : acc < 2^shift) (m : Nat) : acc + m % 128 * 2^shift < 2^(shift+7) := by
  have group : m % 128 * 2^shift ≤ 127 * 2^shift := Nat.mul_le_mul_right _ (by omega)
  rw [Nat.pow_add]
  omega

-- Just behind the first byte of `encode m`, with the groups below it accumulated.
theorem getU4Tail_reads (left : Nat) {front : List UInt8} {res : UInt32} {b : UInt8} {tail : List UInt8}
    (total : k + left = 4) (first : Varint.encode m = b :: tail) (written : front ++ Varint.encode m <+: final)
    (below : acc < 2^(7*k)) (held : res.toNat = acc + (m % 128) * 2^(7*k)) (word : acc + m * 2^(7*k) < 2^32) :
    (⟨final,front.length + 1,0⟩ : UnPickler).getU4Tail res b
        ((List.range' (k+1) left).map (fun i => UInt32.ofNat (7*i))) =
      some (UInt32.ofNat (acc + m * 2^(7*k)),⟨final,front.length + (Varint.encode m).length,0⟩) := by
  induction left generalizing k m acc front res b tail with
  | zero =>
    obtain rfl : k = 4 := total
    have last : ¬ m > 127 := by norm_num at word; omega
    have done : res = UInt32.ofNat (acc + m * 2^(7*4)) := by
      apply UInt32.toNat_inj.mp
      rw [held,UInt32.toNat_ofNat',Nat.mod_eq_of_lt word,Nat.mod_eq_of_lt (by omega)]
    rw [Varint.encode_last last]
    simp [UnPickler.getU4Tail,done]
  | succ left ih =>
    obtain ⟨b',tail',head,_,onMore,onLast⟩ := encode_head m
    obtain ⟨rfl,rfl⟩ := List.cons.inj (first.symm.trans head)
    simp only [List.range'_succ,List.map_cons,UnPickler.getU4Tail]
    by_cases more : m > 127
    · obtain ⟨flag,rest⟩ := onMore more
      obtain ⟨c,tail'',head',payload,_⟩ := encode_head (m/128)
      have moved : front ++ [b] ++ Varint.encode (m/128) <+: final := by
        rw [first,rest] at written; simpa using written
      have here : final[front.length + 1]? = some c := by
        rw [head'] at moved
        simpa using prefix_at moved
      have carried := group_split m (7*k)
      have word' : acc + m % 128 * 2^(7*k) + m / 128 * 2^(7*(k+1)) < 2^32 := by
        rw [Nat.mul_succ]; omega
      have below' : acc + m % 128 * 2^(7*k) < 2^(7*(k+1)) := by
        rw [Nat.mul_succ]; exact group_below below m
      have group : m / 128 % 128 * 2^(7*(k+1)) ≤ m / 128 * 2^(7*(k+1)) :=
        Nat.mul_le_mul_right _ (Nat.mod_le _ _)
      have held' : (res ||| (UInt32.ofNat (c.toNat &&& 127) <<< UInt32.ofNat (7*(k+1)))).toNat =
          acc + m % 128 * 2^(7*k) + m / 128 % 128 * 2^(7*(k+1)) := by
        rw [payload,accumulate32 (held ▸ below') (by omega) (by rw [held]; omega),held]
      have next := ih (k := k+1) (by omega) head' moved below' held' word'
      rw [if_neg flag]
      simp only [UnPickler.next,here,Option.map_some,Option.bind_eq_bind,Option.bind_some]
      have position : (front ++ [b]).length = front.length + 1 := by simp
      rw [position] at next
      rw [next,first,rest,Nat.mul_succ]
      simp only [List.length_cons,Nat.add_assoc,Nat.add_comm 1,carried]
    · obtain ⟨flag,empty⟩ := onLast more
      rw [if_pos flag,first,empty]
      have done : res = UInt32.ofNat (acc + m * 2^(7*k)) := by
        apply UInt32.toNat_inj.mp
        rw [held,UInt32.toNat_ofNat',Nat.mod_eq_of_lt word,Nat.mod_eq_of_lt (by omega)]
      simp [done]

theorem getU4_word {p : Pickler} {w : UInt32} (nonzero : w ≠ 0) (fits : Fits (p.putU4 w) final) :
    Fits p final ∧ (cursor p final).getU4 = some (w,cursor (p.putU4 w) final) := by
  have put : p.putU4 w = ⟨p.flush.data ++ Varint.encode w.toNat,0⟩ := by
    have closed := flush_closed p
    simp only [Pickler.putU4,if_neg nonzero]
    rw [← closed]
  rw [put] at fits ⊢
  have written : p.flush.data ++ Varint.encode w.toNat <+: final := (fits_closed rfl).mp fits
  have flushed : Fits p.flush final :=
    (fits_closed (flush_closed p)).mpr ((List.prefix_append _ _).trans written)
  obtain ⟨fitsHere,same⟩ := flush_fits flushed
  refine ⟨fitsHere,?_⟩
  obtain ⟨b,tail,head,payload,onMore,onLast⟩ := encode_head w.toNat
  have here : final[p.flush.data.length]? = some b := by
    rw [head] at written; exact prefix_at written
  -- A zero first byte would be a run marker; no non-zero word starts with one.
  have notMarker : b ≠ 0 := by
    intro zero
    subst b
    by_cases more : w.toNat > 127
    · exact (onMore more).1 (by simp)
    · have small : w.toNat = 0 := by simp at payload; omega
      exact nonzero (UInt32.toNat_inj.mp (by simpa using small))
  have word : w.toNat < 2^32 := w.toNat_lt
  have held : (UInt32.ofNat (b.toNat &&& 127)).toNat = 0 + w.toNat % 128 * 2^(7*0) := by
    rw [payload,UInt32.toNat_ofNat']; simp; omega
  have read := getU4Tail_reads 4 rfl head written (by simp) held (by simpa using word)
  rw [same,cursor_closed (flush_closed p),cursor_closed rfl,UnPickler.getU4,if_neg (by simp)]
  simp only [UnPickler.next,here,Option.map_some,Option.bind_eq_bind,Option.bind_some,if_neg notMarker]
  have shifts : (List.range' 1 4).map (fun i => UInt32.ofNat (7*i)) = [7,14,21,28] := by decide
  rw [shifts] at read
  simpa using read

theorem getU4_putU4 {p : Pickler} {w : UInt32} (fits : Fits (p.putU4 w) final) :
    Fits p final ∧ (cursor p final).getU4 = some (w,cursor (p.putU4 w) final) := by
  by_cases zero : w = 0
  · subst w; exact getU4_zero fits
  · exact getU4_word zero fits

theorem putU8Loop_eq (p : Pickler) (m : Nat) :
    p.putU8Loop m = ⟨p.flush.data ++ Varint.encode m,0⟩ := by
  induction m using Nat.strongRecOn generalizing p with
  | ind m ih =>
    rw [Pickler.putU8Loop,Varint.encode]
    split
    · rename_i more
      have smaller : m >>> 7 < m := by rw [Nat.shiftRight_eq_div_pow]; omega
      rw [ih _ smaller,putU1_eq,flush_idle rfl,Nat.or_comm]
      simp
    · exact putU1_eq _ _

theorem getU8Loop_reads (m : Nat) {p : Pickler} {res : UInt64} (fits : Fits (p.putU8Loop m) final)
    (fuel : Nat) (enough : (Varint.encode m).length ≤ fuel) (below : res.toNat < 2^(7*i)) (small : i ≤ 9)
    (word : res.toNat + m * 2^(7*i) < 2^64) :
    Fits p final ∧ (cursor p final).getU8Loop res i fuel =
      some (UInt64.ofNat (res.toNat + m * 2^(7*i)),cursor (p.putU8Loop m) final) := by
  induction m using Nat.strongRecOn generalizing p res i fuel with
  | ind m ih =>
    cases fuel with
    | zero => exact absurd (List.length_eq_zero_iff.mp (Nat.le_zero.mp enough)) (Varint.encode_ne_nil m)
    | succ fuel =>
      have group : m % 128 * 2^(7*i) ≤ m * 2^(7*i) := Nat.mul_le_mul_right _ (Nat.mod_le _ _)
      have held : (res ||| (UInt64.ofNat (m % 128) <<< UInt64.ofNat (i*7))).toNat =
          res.toNat + m % 128 * 2^(7*i) := accumulate64 below small (by omega)
      rw [Pickler.putU8Loop] at fits ⊢
      simp only [UnPickler.getU8Loop]
      by_cases more : m > 127
      · have half : m >>> 7 = m / 128 := Nat.shiftRight_eq_div_pow m 7
        rw [if_pos more,Nat.or_comm,Varint.flagged,half] at fits ⊢
        rw [Varint.encode_more more,List.length_cons] at enough
        have carried := group_split m (7*i)
        have position : i + 1 ≤ 9 := by
          by_contra beyond
          obtain rfl : i = 9 := by omega
          have := Nat.mul_le_mul_right (2^(7*9)) (show 128 ≤ m by omega)
          norm_num at word this
          omega
        have below' : (res ||| (UInt64.ofNat (m % 128) <<< UInt64.ofNat (i*7))).toNat < 2^(7*(i+1)) := by
          rw [held,Nat.mul_succ]; exact group_below below m
        obtain ⟨fitsByte,rest⟩ := ih (m / 128) (by omega) fits fuel (by omega) below' position
          (by rw [held,Nat.mul_succ]; omega)
        obtain ⟨fitsHere,byte⟩ := getU1_putU1 fitsByte
        refine ⟨fitsHere,?_⟩
        rw [byte]
        simp only [Option.bind_eq_bind,Option.bind_some,Varint.more_payload,if_pos (Varint.more_flag m)]
        rw [rest,held,Nat.mul_succ,Nat.add_assoc,carried]
      · rw [if_neg more,Varint.payload,Nat.mod_eq_of_lt (by omega : m < 128)] at fits ⊢
        obtain ⟨fitsHere,byte⟩ := getU1_putU1 fits
        refine ⟨fitsHere,?_⟩
        rw [byte]
        simp only [Option.bind_eq_bind,Option.bind_some,Varint.last_payload more,Varint.last_flag more]
        rw [Nat.mod_eq_of_lt (by omega : m < 128)] at held
        have done : res ||| (UInt64.ofNat m <<< UInt64.ofNat (i*7)) = UInt64.ofNat (res.toNat + m * 2^(7*i)) := by
          apply UInt64.toNat_inj.mp
          rw [held,UInt64.toNat_ofNat',Nat.mod_eq_of_lt word]
        rw [done,if_neg (by simp)]

theorem getU8_putU8 {p : Pickler} {w : UInt64} (fits : Fits (p.putU8 w) final) :
    Fits p final ∧ (cursor p final).getU8 = some (w,cursor (p.putU8 w) final) := by
  have written : p.flush.data ++ Varint.encode w.toNat <+: final := by
    rw [Pickler.putU8,putU8Loop_eq] at fits
    exact (fits_closed rfl).mp fits
  have flushed : Fits p.flush final :=
    (fits_closed (flush_closed p)).mpr ((List.prefix_append _ _).trans written)
  have same := (flush_fits flushed).2
  have room : (Varint.encode w.toNat).length ≤ (cursor p final).data.length - (cursor p final).pos := by
    have := written.length_le
    rw [same,cursor_closed (flush_closed p)]
    simp only [List.length_append] at this ⊢
    omega
  have below : (0 : UInt64).toNat < 2^(7*0) := by simp
  have read := getU8Loop_reads w.toNat fits _ room below (by omega) (by simpa using w.toNat_lt)
  simpa [UnPickler.getU8,Pickler.putU8] using read

theorem getS8_putS8 {p : Pickler} {v : Int64} (fits : Fits (p.putS8 v) final) :
    Fits p final ∧ (cursor p final).getS8 = some (v,cursor (p.putS8 v) final) := by
  obtain ⟨fitsHere,read⟩ := getU8_putU8 fits
  refine ⟨fitsHere,?_⟩
  simp [UnPickler.getS8,Pickler.putS8,read]

theorem putU1s_eq (bytes : List UInt8) (p : Pickler) (nonempty : bytes ≠ []) :
    bytes.foldl Pickler.putU1 p = ⟨p.flush.data ++ bytes,0⟩ := by
  induction bytes generalizing p with
  | nil => exact absurd rfl nonempty
  | cons b rest ih =>
    rw [List.foldl_cons,putU1_eq]
    by_cases last : rest = []
    · subst rest; rfl
    · rw [ih _ last,flush_idle rfl]
      simp

theorem cursor_inside {p : Pickler} (fits : Fits p final) : (cursor p final).pos ≤ final.length := by
  by_cases closed : p.zeroCounter = 0
  · rw [cursor_closed closed]
    exact ((fits_closed closed).mp fits).length_le
  · obtain ⟨count,_,written⟩ := (fits_open closed).mp fits
    rw [cursor_open closed written]
    simpa using written.length_le

@[simp] theorem cursor_data (p : Pickler) (final : List UInt8) : (cursor p final).data = final := by
  unfold cursor; split <;> rfl

theorem getStr_empty {p : Pickler} (fits : Fits (p.putStr []) final) :
    Fits p final ∧ (cursor p final).getStr = some ([],cursor (p.putStr []) final) := by
  have inside := cursor_inside fits
  obtain ⟨fitsHere,read⟩ := getU4_putU4 (w := 0) fits
  refine ⟨fitsHere,?_⟩
  simp only [Pickler.putStr,List.foldl_nil,List.length_nil] at inside ⊢
  simp only [UnPickler.getStr,read,Option.bind_eq_bind,Option.bind_some]
  rw [if_pos ⟨by decide,by simpa using inside⟩]
  simp only [UInt32.toNat_zero,List.take_zero,Nat.add_zero]
  rfl

-- The bytes follow the length with no run open between them.
theorem getStr_bytes {p : Pickler} {s : List UInt8} (short : s.length < 2^31) (nonempty : s ≠ [])
    (fits : Fits (p.putStr s) final) :
    Fits p final ∧ (cursor p final).getStr = some (s,cursor (p.putStr s) final) := by
  have size : (UInt32.ofNat s.length).toNat = s.length := by
    rw [UInt32.toNat_ofNat',Nat.mod_eq_of_lt (by omega)]
  unfold Pickler.putStr at fits ⊢
  generalize sized : p.putU4 (UInt32.ofNat s.length) = q at fits ⊢
  rw [putU1s_eq s q nonempty] at fits ⊢
  have written : q.flush.data ++ s <+: final := (fits_closed rfl).mp fits
  obtain ⟨fitsSize,same⟩ := flush_fits
    ((fits_closed (flush_closed q)).mpr ((List.prefix_append _ _).trans written))
  obtain ⟨fitsHere,read⟩ := getU4_putU4 (sized ▸ fitsSize)
  refine ⟨fitsHere,?_⟩
  have inside : q.flush.data.length + s.length ≤ final.length := by simpa using written.length_le
  have view : (final.drop q.flush.data.length).take s.length = s := by
    obtain ⟨tail,rfl⟩ := written
    simp
  rw [sized,same,cursor_closed (flush_closed q)] at read
  simp only [UnPickler.getStr,read,Option.bind_eq_bind,Option.bind_some,size]
  rw [if_pos ⟨short,inside⟩,view,cursor_closed rfl,List.length_append]

theorem get_put {p : Pickler} (op : Put) (small : final.length < 2^31) (fits : Fits (p.put op) final) :
    Fits p final ∧ (cursor p final).get op.get = some (op,cursor (p.put op) final) := by
  cases op with
  | u1 v =>
    obtain ⟨fitsHere,read⟩ := getU1_putU1 fits
    exact ⟨fitsHere,by simp [UnPickler.get,Put.get,Pickler.put,read]⟩
  | u4 v =>
    obtain ⟨fitsHere,read⟩ := getU4_putU4 fits
    exact ⟨fitsHere,by simp [UnPickler.get,Put.get,Pickler.put,read]⟩
  | s8 v =>
    obtain ⟨fitsHere,read⟩ := getS8_putS8 fits
    exact ⟨fitsHere,by simp [UnPickler.get,Put.get,Pickler.put,read]⟩
  | str s =>
    by_cases empty : s = []
    · subst s
      obtain ⟨fitsHere,read⟩ := getStr_empty fits
      exact ⟨fitsHere,by simp [UnPickler.get,Put.get,Pickler.put,read]⟩
    · have short : s.length < 2^31 := by
        have written := fits
        simp only [Pickler.put,Pickler.putStr,putU1s_eq s _ empty] at written
        have := ((fits_closed rfl).mp written).length_le
        simp only [List.length_append] at this
        omega
      obtain ⟨fitsHere,read⟩ := getStr_bytes short empty fits
      exact ⟨fitsHere,by simp [UnPickler.get,Put.get,Pickler.put,read]⟩

-- The run lemma. The reader is followed backwards from the finished buffer,
-- since the count of a run is only known when the run is over.
theorem getAll_putAll (ops : List Put) {p : Pickler} (small : final.length < 2^31)
    (fits : Fits (p.putAll ops) final) :
    Fits p final ∧ (cursor p final).getAll (ops.map Put.get) = some (ops,cursor (p.putAll ops) final) := by
  induction ops generalizing p with
  | nil => exact ⟨fits,rfl⟩
  | cons op ops ih =>
    obtain ⟨fitsNext,rest⟩ := ih (p := p.put op) fits
    obtain ⟨fitsHere,read⟩ := get_put op small fitsNext
    refine ⟨fitsHere,?_⟩
    simp only [List.map_cons,UnPickler.getAll,read,Option.bind_eq_bind,Option.bind_some,rest]
    rfl

theorem readInt_intBytes (small : n < 2^31) (rest : List UInt8) :
    readInt (intBytes n ++ rest) = some (n,rest) := by
  have value : (UInt8.ofNat n).toNat + (UInt8.ofNat (n >>> 8)).toNat * 2^8 +
      (UInt8.ofNat (n >>> 16)).toNat * 2^16 + (UInt8.ofNat (n >>> 24)).toNat * 2^24 = n := by
    simp only [UInt8.toNat_ofNat',Nat.shiftRight_eq_div_pow]
    omega
  simp only [intBytes,List.cons_append,List.nil_append,readInt,value,if_pos small]

theorem compressBound_small (size : Nat) : 2048 + lz4CompressBound size - 8 < 2^31 := by
  unfold lz4CompressBound lz4MaxInputSize
  split <;> omega

theorem make_parts {lz4 : Lz4} {plain : List UInt8} (first : readInt compressed = some (compressedSize,rest))
    (second : readInt rest = some (uncompressedSize,body))
    (inflated : lz4.decompress (body.take compressedSize) uncompressedSize = some plain)
    (complete : plain.length = uncompressedSize) : UnPickler.make lz4 compressed = some ⟨plain,0,0⟩ := by
  simp [UnPickler.make,first,second,inflated,complete]

theorem make_result {lz4 : Lz4} (documented : lz4.Documented) {p : Pickler}
    (small : p.flush.data.length < 2^31) (written : p.result lz4 = some bytes) :
    UnPickler.make lz4 bytes = some ⟨p.flush.data,0,0⟩ := by
  have bound := compressBound_small p.flush.data.length
  unfold Pickler.result at written
  generalize 2048 + lz4CompressBound p.flush.data.length - 8 = cap at written bound
  obtain ⟨out,compressed,rfl⟩ := Option.map_eq_some_iff.mp written
  have room := Nat.lt_of_le_of_lt (documented.bounded _ _ _ compressed) bound
  have inverse := documented.inverse _ _ _ compressed
  have whole : out.take out.length = out := List.take_length
  rw [List.append_assoc]
  exact make_parts (readInt_intBytes room _) (readInt_intBytes small _) (whole.symm ▸ inverse) rfl

theorem result_fits {lz4 : Lz4} (documented : lz4.Documented) {p : Pickler} (fits : p.flush.data.length ≤ lz4MaxInputSize) :
    ∃ bytes, p.result lz4 = some bytes := by
  have room : lz4CompressBound p.flush.data.length ≤ 2048 + lz4CompressBound p.flush.data.length - 8 := by omega
  obtain ⟨out,compressed⟩ := Option.isSome_iff_exists.mp (documented.succeeds _ _ fits room)
  exact ⟨_,by rw [Pickler.result,compressed]; rfl⟩

theorem flush_finishes (p : Pickler) : Fits p p.flush.data :=
  (flush_fits ((fits_closed (flush_closed p)).mpr (List.prefix_refl _))).1

theorem pickler_roundtrip (lz4 : Lz4) (documented : lz4.Documented) (ops : List Put)
    (small : (({} : Pickler).putAll ops).flush.data.length < 2^31) :
    (∀ bytes, (({} : Pickler).putAll ops).result lz4 = some bytes →
      ∃ reader, UnPickler.make lz4 bytes = some reader ∧
        ∃ rest, reader.getAll (ops.map Put.get) = some (ops,rest)) ∧
    ((({} : Pickler).putAll ops).flush.data.length ≤ lz4MaxInputSize →
      ∃ bytes, (({} : Pickler).putAll ops).result lz4 = some bytes) := by
  refine ⟨?_,?_⟩
  · intro bytes written
    have run := (getAll_putAll ops small (flush_finishes _)).2
    rw [cursor_closed rfl] at run
    exact ⟨_,make_result documented small written,_,run⟩
  · exact result_fits documented

-- A block of literals: the length in the token and, from 15 on, in further bytes.
def literalLength (n : Nat) : List UInt8 :=
  if n < 15 then [UInt8.ofNat (n <<< 4)] else 240 :: (List.replicate ((n - 15) / 255) 255 ++ [UInt8.ofNat ((n - 15) % 255)])

def literals : List UInt8 → List UInt8
  | [] => []
  | token :: rest => if token = 240 then (rest.dropWhile (· = 255)).tail else rest

def blockLz4 : Lz4 where
  compress src cap :=
    if src.length ≤ lz4MaxInputSize ∧ src.length + (literalLength src.length).length ≤ cap then some (literalLength src.length ++ src)
    else none
  decompress out cap := if (literals out).length ≤ cap then some (literals out) else none

theorem literals_length (src : List UInt8) : literals (literalLength src.length ++ src) = src := by
  rw [literalLength]
  split
  · rename_i short
    have token : UInt8.ofNat (src.length <<< 4) ≠ 240 := by
      intro same
      have := congrArg UInt8.toNat same
      rw [UInt8.toNat_ofNat',Nat.shiftLeft_eq] at this
      simp only [UInt8.reduceToNat] at this
      omega
    rw [List.singleton_append,literals,if_neg token]
  · have last : UInt8.ofNat ((src.length - 15) % 255) ≠ 255 := by
      intro same
      have := congrArg UInt8.toNat same
      rw [UInt8.toNat_ofNat'] at this
      simp only [UInt8.reduceToNat] at this
      omega
    rw [List.cons_append,literals,if_pos rfl,List.append_assoc,List.dropWhile_append_of_pos (by simp)]
    simp [last]

theorem literalLength_le (n : Nat) : (literalLength n).length ≤ n / 255 + 3 := by
  rw [literalLength]
  split
  · simp
  · simp only [List.length_cons,List.length_append,List.length_replicate,List.length_nil]
    omega

theorem blockLz4_documented : blockLz4.Documented where
  succeeds src cap small room := by
    have := literalLength_le src.length
    rw [lz4CompressBound,if_neg (by omega)] at room
    simp only [blockLz4,if_pos (And.intro small (by omega : src.length + (literalLength src.length).length ≤ cap)),Option.isSome_some]
  bounded src cap out compressed := by
    simp only [blockLz4] at compressed
    split at compressed
    · rename_i room
      cases compressed
      rw [List.length_append]
      omega
    · cases compressed
  inverse src cap out compressed := by
    simp only [blockLz4] at compressed
    split at compressed
    · cases compressed
      simp only [blockLz4,literals_length,Nat.le_refl,↓reduceIte]
    · cases compressed

def mixedPuts : List Put :=
  [.u4 0,.u4 0,.str [97,0],.u4 0,.str [],.u1 0,.u4 4294967295,.s8 (-1),.u4 0]

theorem pickler_roundtrip_mixed :
    (({} : Pickler).putAll mixedPuts).flush.data.length = 25 ∧
    ∃ bytes reader rest, (({} : Pickler).putAll mixedPuts).result blockLz4 = some bytes ∧
      UnPickler.make blockLz4 bytes = some reader ∧
      reader.getAll (mixedPuts.map Put.get) = some (mixedPuts,rest) := by
  have size : (({} : Pickler).putAll mixedPuts).flush.data.length = 25 := by
    simp +decide [mixedPuts,Pickler.putAll,Pickler.put,Pickler.putU4,Pickler.putStr,Pickler.putU1,Pickler.putS8,
      Pickler.putU8,putU8Loop_eq,Pickler.flush,Pickler.emplace,Pickler.openRun,Varint.encode]
  obtain ⟨reads,writes⟩ := pickler_roundtrip blockLz4 blockLz4_documented mixedPuts (by rw [size]; decide)
  obtain ⟨bytes,written⟩ := writes (by rw [size]; decide)
  obtain ⟨reader,made,rest,read⟩ := reads bytes written
  exact ⟨size,bytes,reader,rest,written,made,read⟩

end Serialize
