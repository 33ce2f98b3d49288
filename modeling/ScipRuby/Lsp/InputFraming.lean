import ScipRuby.Lsp.Input
import Mathlib.Data.Nat.Digits.Lemmas
import Mathlib.Data.List.TakeWhile

namespace Lsp
namespace Input
variable {arrivals : Nat → Arrival} {fd fd' fd'' : Fd} {buffer line tail bytes : Bytes} {size n m : Nat}

section Lines

theorem span_line (single : LF ∉ line) : (line ++ LF :: tail).span (· != LF) = (line,LF :: tail) := by
  rw [List.span_eq_takeWhile_dropWhile]
  have kept : ∀ c ∈ line,(c != LF) = true := by
    intro c present
    rw [bne_iff_ne]
    rintro rfl
    exact single present
  rw [List.takeWhile_append_of_pos kept,List.dropWhile_append_of_pos kept]
  simp

theorem findLine_line (single : LF ∉ line) : findLine (line ++ LF :: tail) = some (line,tail) := by
  rw [findLine,span_line single]

theorem findLine_none (none_ : LF ∉ bytes) : findLine bytes = none := by
  have kept : ∀ c ∈ bytes,(c != LF) = true := by
    intro c present
    rw [bne_iff_ne]
    rintro rfl
    exact none_ present
  rw [findLine,List.span_eq_takeWhile_dropWhile,List.dropWhile_eq_nil_iff.mpr kept]

-- A stream that starts with a line, cut anywhere: the cut is before or after the newline.
theorem cut_line {front back : Bytes} (pending : front ++ back = line ++ LF :: tail) (single : LF ∉ line) :
    (∃ rest, front = line ++ LF :: rest ∧ rest ++ back = tail) ∨
    (∃ rest, line = front ++ rest ∧ back = rest ++ LF :: tail ∧ LF ∉ front) := by
  rcases List.append_eq_append_iff.mp pending with ⟨rest,rfl,rfl⟩ | ⟨rest,rfl,cut⟩
  · exact .inr ⟨rest,rfl,rfl,fun inside => single (List.mem_append_left _ inside)⟩
  · cases rest with
    | nil =>
      rw [List.append_nil] at *
      exact .inr ⟨[],(List.append_nil _).symm,cut.symm,single⟩
    | cons first rest =>
      rw [List.cons_append,List.cons.injEq] at cut
      obtain ⟨rfl,rfl⟩ := cut
      exact .inl ⟨rest,rfl,rfl⟩

end Lines

section Progress

-- How many of the first calls of readFd timed out.
def timeouts (arrivals : Nat → Arrival) (clock : Nat) : Nat :=
  ((List.range clock).filter (fun i => arrivals i = .timeout)).length

theorem timeouts_succ (clock : Nat) :
    timeouts arrivals (clock + 1) = timeouts arrivals clock + if arrivals clock = .timeout then 1 else 0 := by
  rw [timeouts,List.range_succ,List.filter_append,List.length_append]
  congr 1
  split <;> rename_i quiet <;> simp [quiet]

-- Bytes read and timeouts make up for at least `n` calls.
def Advances (arrivals : Nat → Arrival) (n : Nat) (fd fd' : Fd) : Prop :=
  fd'.rest.length + timeouts arrivals fd.clock + n ≤ fd.rest.length + timeouts arrivals fd'.clock

theorem Advances.refl (fd : Fd) : Advances arrivals 0 fd fd := Nat.le_refl _

theorem Advances.trans (first : Advances arrivals n fd fd') (second : Advances arrivals m fd' fd'') :
    Advances arrivals (n + m) fd fd'' := by
  unfold Advances at *
  omega

theorem Advances.mono (advances : Advances arrivals n fd fd') (less : m ≤ n) : Advances arrivals m fd fd' := by
  unfold Advances at *
  omega

-- What readFd does, by its result.
theorem readFd_cases (arrivals : Nat → Arrival) (fd : Fd) (size : Nat) (positive : 0 < size) :
    (∃ fd', readFd arrivals fd size = (.timeout,fd') ∧ fd'.rest = fd.rest ∧ Advances arrivals 1 fd fd') ∨
    (∃ fd', readFd arrivals fd size = (.error,fd') ∧ fd.rest = [] ∧ fd'.rest = []) ∨
    ∃ bytes fd', readFd arrivals fd size = (.data bytes,fd') ∧ fd.rest = bytes ++ fd'.rest ∧ bytes.length ≤ size ∧
      Advances arrivals 1 fd fd' := by
  unfold readFd
  cases arrival : arrivals fd.clock with
  | timeout =>
    refine .inl ⟨_,rfl,rfl,?_⟩
    simp only [Advances,timeouts_succ,arrival,if_true]
    omega
  | chunk more =>
    dsimp only
    split
    · rename_i empty
      refine .inr (.inl ⟨_,rfl,?_⟩)
      rw [List.isEmpty_iff,List.take_eq_nil_iff] at empty
      rcases empty with zero | none_
      · omega
      · exact ⟨none_,none_⟩
    · rename_i some_
      refine .inr (.inr ⟨_,_,rfl,(List.take_append_drop _ _).symm,?_,?_⟩)
      · rw [List.length_take]
        omega
      · have nonempty : fd.rest ≠ [] := by
          rintro none_
          simp [none_] at some_
        have := List.length_pos_of_ne_nil nonempty
        simp only [Advances,timeouts_succ,arrival,reduceCtorEq,if_false,List.length_drop]
        omega

end Progress

section Headers

theorem readLineFromFd_line (arrivals : Nat → Arrival) (pending : buffer ++ fd.rest = line ++ LF :: tail) (single : LF ∉ line) :
    (∃ buffer' fd', readLineFromFd arrivals fd buffer = (.success line,buffer',fd') ∧ buffer' ++ fd'.rest = tail ∧
      Advances arrivals 0 fd fd') ∨
    ∃ buffer' fd', readLineFromFd arrivals fd buffer = (.timeout,buffer',fd') ∧ buffer' ++ fd'.rest = buffer ++ fd.rest ∧
      Advances arrivals 1 fd fd' := by
  unfold readLineFromFd
  rcases cut_line pending single with ⟨rest,rfl,whole⟩ | ⟨rest,rfl,back,none_⟩
  · rw [findLine_line single]
    exact .inl ⟨rest,fd,rfl,whole,.refl fd⟩
  · rw [findLine_none none_]
    rcases readFd_cases arrivals fd buffSize (by decide) with ⟨fd',read,same,advances⟩ | ⟨fd',_,empty,_⟩ |
      ⟨bytes,fd',read,split,_,advances⟩
    · rw [read]
      exact .inr ⟨buffer,fd',rfl,by rw [same],advances⟩
    · rw [empty] at back
      simp at back
    · rw [read]
      rw [split] at back
      have single' : LF ∉ rest := fun inside => single (List.mem_append_right _ inside)
      dsimp only
      rcases cut_line back single' with ⟨after,rfl,whole⟩ | ⟨after,rfl,_,none'⟩
      · rw [findLine_line single']
        exact .inl ⟨after,fd',rfl,whole,advances.mono (Nat.zero_le _)⟩
      · rw [findLine_none none']
        exact .inr ⟨buffer ++ bytes,fd',rfl,by rw [split,List.append_assoc],advances⟩

-- The length after the header lines, each as the loop sees it.
def scanLines (length : Int) (lines : List Bytes) : Int :=
  lines.foldl (fun length line => (scanContentLength (line ++ [CR])).getD length) length

theorem readHeaders_lines {lines : List Bytes} {left : Nat} {allRead : Bytes} {length : Int}
    (proper : ∀ line ∈ lines,line ≠ [] ∧ LF ∉ line) (enough : lines.length < left)
    (pending : buffer ++ fd.rest = lines.flatMap encodeLine ++ (encodeLine [] ++ tail)) :
    (∃ buffer' fd', readHeaders arrivals left allRead length buffer fd =
        .read (allRead ++ (lines.flatMap encodeLine ++ encodeLine [])) (scanLines length lines) buffer' fd' ∧
      buffer' ++ fd'.rest = tail ∧ Advances arrivals 0 fd fd') ∨
    ∃ buffer' fd', readHeaders arrivals left allRead length buffer fd = .aborted .timeout buffer' fd' ∧
      buffer' ++ fd'.rest = allRead ++ (buffer ++ fd.rest) ∧ Advances arrivals 1 fd fd' := by
  induction lines generalizing left allRead length buffer fd with
  | nil =>
    cases left with
    | zero => cases enough
    | succ left =>
      have first : buffer ++ fd.rest = [CR] ++ LF :: tail := pending
      rcases readLineFromFd_line arrivals first (by decide) with ⟨buffer',fd',read,after,advances⟩ |
        ⟨buffer',fd',read,after,advances⟩
      · refine .inl ⟨buffer',fd',?_,after,advances⟩
        simp only [readHeaders,read,if_true]
        rfl
      · refine .inr ⟨allRead ++ buffer',fd',?_,?_,advances⟩
        · simp only [readHeaders,read]
        · rw [List.append_assoc,after]
  | cons line lines ih =>
    cases left with
    | zero => cases enough
    | succ left =>
      obtain ⟨nonempty,single⟩ := proper line List.mem_cons_self
      have first : buffer ++ fd.rest =
          (line ++ [CR]) ++ LF :: (lines.flatMap encodeLine ++ (encodeLine [] ++ tail)) := by
        rw [pending]
        simp [encodeLine]
      have single' : LF ∉ line ++ [CR] := by
        intro inside
        rcases List.mem_append.mp inside with header | cr
        · exact single header
        · exact absurd (List.mem_singleton.mp cr) (by decide)
      have header : line ++ [CR] ≠ [CR] := by
        intro same
        exact nonempty (List.append_left_eq_self.mp same)
      rcases readLineFromFd_line arrivals first single' with ⟨buffer',fd',read,after,advances⟩ |
        ⟨buffer',fd',read,after,advances⟩
      · have rest := @ih fd' buffer' left (allRead ++ (line ++ [CR] ++ [LF]))
          ((scanContentLength (line ++ [CR])).getD length) (fun other later => proper other (List.mem_cons_of_mem _ later))
          (Nat.lt_of_succ_lt_succ enough) after
        simp only [readHeaders,read,if_neg header]
        rcases rest with ⟨buffer'',fd'',read',after',advances'⟩ | ⟨buffer'',fd'',read',after',advances'⟩
        · refine .inl ⟨buffer'',fd'',?_,after',(advances.trans advances').mono (Nat.zero_le _)⟩
          rw [read']
          simp [encodeLine,scanLines]
        · refine .inr ⟨buffer'',fd'',read',?_,(advances.trans advances').mono (Nat.le_add_left _ _)⟩
          rw [after',after,first]
          simp
      · refine .inr ⟨allRead ++ buffer',fd',?_,?_,advances⟩
        · simp only [readHeaders,read]
        · rw [List.append_assoc,after]

end Headers

section Scan

theorem digitOf_digit {digit : Nat} (small : digit < 10) : digitOf (UInt8.ofNat (48 + digit)) = digit := by
  interval_cases digit <;> rfl

def digitBytes (digits : List Nat) : Bytes := digits.map (fun digit => UInt8.ofNat (48 + digit))

-- The first digit of a number that is not zero tells the base.
theorem decimal_digits (positive : n ≠ 0) : ∃ first digits, decimal n = digitBytes (first :: digits) ∧ first ≠ 0 ∧
    (∀ digit ∈ first :: digits,digit < 10) ∧
    (first :: digits).foldl (fun value digit => value * 10 + digit) 0 = n := by
  have small : ∀ digit ∈ (Nat.digits 10 n).reverse,digit < 10 := by
    intro digit present
    exact Nat.digits_lt_base (by decide) (List.mem_reverse.mp present)
  have value : (Nat.digits 10 n).reverse.foldl (fun value digit => value * 10 + digit) 0 = n := by
    have value := Nat.ofDigits_digits 10 n
    rw [Nat.ofDigits_eq_foldr] at value
    rw [List.foldl_reverse]
    refine Eq.trans ?_ value
    congr 1
    funext digit rest
    simp only [Nat.cast_id]
    omega
  have nonempty : Nat.digits 10 n ≠ [] := Nat.digits_ne_nil_iff_ne_zero.mpr positive
  have shape : decimal n = digitBytes (Nat.digits 10 n).reverse := by rw [decimal,if_neg positive,digitBytes]
  have leading : (Nat.digits 10 n).getLast nonempty ≠ 0 := Nat.getLast_digit_ne_zero 10 positive
  rw [←List.head_reverse (List.reverse_ne_nil_iff.mpr nonempty)] at leading
  cases reversed : (Nat.digits 10 n).reverse with
  | nil => exact absurd (List.reverse_eq_nil_iff.mp reversed) nonempty
  | cons first digits =>
    rw [reversed] at small value shape
    simp only [reversed,List.head_cons] at leading
    exact ⟨first,digits,shape,leading,small,value⟩

theorem scanDigits_decimal {digits : List Nat} {value : Nat} (small : ∀ digit ∈ digits,digit < 10) (some_ : digits ≠ [])
    (fold : digits.foldl (fun value digit => value * 10 + digit) 0 = value) :
    scanDigits 10 (digitBytes digits ++ [CR]) = some value := by
  have kept : ∀ c ∈ digitBytes digits,decide (digitOf c < 10) = true := by
    intro c present
    obtain ⟨digit,stored,rfl⟩ := List.mem_map.mp present
    rw [digitOf_digit (small digit stored)]
    exact decide_eq_true (small digit stored)
  have back : (digitBytes digits).map digitOf = digits := by
    rw [digitBytes,List.map_map]
    refine Eq.trans (List.map_congr_left ?_) (List.map_id digits)
    exact fun digit stored => digitOf_digit (small digit stored)
  rw [scanDigits,List.takeWhile_append_of_pos kept,List.takeWhile_cons_of_neg (by decide),List.append_nil,back]
  cases digits with
  | nil => exact absurd rfl some_
  | cons _ _ => exact congrArg some fold

theorem toInt_small (small : n < 2 ^ 31) : toInt n = n := by
  unfold toInt
  rw [min_eq_right (by omega),max_eq_right (by omega)]
  exact Int.bmod_eq_of_le_mul_two (by omega) (by omega)

theorem scanInt_decimal (small : n < 2 ^ 31) : scanInt (32 :: decimal n ++ [CR]) = some (n : Int) := by
  by_cases zero : n = 0
  · subst zero
    rfl
  · obtain ⟨first,digits,shape,leading,digits_,value⟩ := decimal_digits zero
    have scanned : scanDigits 10 (digitBytes (first :: digits) ++ [CR]) = some n :=
      scanDigits_decimal digits_ (List.cons_ne_nil _ _) value
    have bound : first < 10 := digits_ first List.mem_cons_self
    have rest : scanInt (32 :: decimal n ++ [CR]) =
        (scanDigits 10 (digitBytes (first :: digits) ++ [CR])).map (fun value : Nat => toInt value) := by
      rw [shape]
      interval_cases first
      · exact absurd rfl leading
      all_goals rfl
    rw [rest,scanned,Option.map_some,toInt_small small]

theorem decimal_bytes (n : Nat) : ∀ c ∈ decimal n,(c != 0) = true ∧ c ≠ LF := by
  by_cases zero : n = 0
  · subst zero
    have all : (decimal 0).all (fun c => c != 0 && c != LF) = true := by decide
    intro c present
    simpa using List.all_eq_true.mp all c present
  · obtain ⟨first,digits,shape,-,small,-⟩ := decimal_digits zero
    rw [shape]
    intro c present
    obtain ⟨digit,stored,rfl⟩ := List.mem_map.mp present
    have bound := small digit stored
    interval_cases digit <;> decide

theorem scanContentLength_length (small : n < 2 ^ 31) : scanContentLength (contentLength n ++ [CR]) = some (n : Int) := by
  have name : ∀ c ∈ contentLengthName,(c != 0) = true := List.all_eq_true.mp (by decide)
  have nonzero : ∀ c ∈ contentLength n ++ [CR],(c != 0) = true := by
    intro c present
    rcases List.mem_append.mp present with header | cr
    · rcases List.mem_append.mp header with own | value
      · exact name c own
      · rcases List.mem_cons.mp value with rfl | digit
        · rfl
        · exact (decimal_bytes n c digit).1
    · rw [List.mem_singleton.mp cr]
      rfl
  have text : (contentLength n ++ [CR]).takeWhile (· != 0) = contentLengthName ++ (32 :: decimal n ++ [CR]) := by
    rw [List.takeWhile_eq_self_iff.mpr nonzero,contentLength]
    simp
  simp only [scanContentLength,text]
  rw [if_pos (List.isPrefixOf_iff_prefix.mpr (List.prefix_append _ _)),List.drop_left]
  exact scanInt_decimal small

theorem scanContentLength_other (other : OtherHeader line) : scanContentLength (line ++ [CR]) = none := by
  unfold scanContentLength
  dsimp only
  rw [if_neg]
  intro found
  have begins := (List.isPrefixOf_iff_prefix.mp found).trans (List.takeWhile_prefix _)
  rcases List.prefix_concat_iff.mp begins with whole | inside
  · have cr : CR ∈ contentLengthName := by
      rw [whole]
      exact List.mem_append_right _ List.mem_cons_self
    exact absurd cr (by decide)
  · exact other.name inside

theorem scanLines_headers (frame : Frame) : scanLines (-1) frame.headers = frame.body.length := by
  have others : ∀ lines, (∀ line ∈ lines,OtherHeader line) → ∀ length, scanLines length lines = length := by
    intro lines
    induction lines with
    | nil => exact fun _ _ => rfl
    | cons line lines ih =>
      intro all length
      have rest := ih (fun other later => all other (List.mem_cons_of_mem _ later)) length
      rw [scanLines,List.foldl_cons,scanContentLength_other (all line List.mem_cons_self),Option.getD_none]
      exact rest
  have before := others frame.before (fun line present => frame.others line (List.mem_append_left _ present)) (-1)
  have after := others frame.after (fun line present => frame.others line (List.mem_append_right _ present))
  unfold scanLines at before after ⊢
  rw [Frame.headers,List.foldl_append,before,List.foldl_cons,scanContentLength_length frame.small,Option.getD_some]
  exact after _

end Scan

section FromClient
variable {Document Raw : Type} {json : Deserializer Document Raw} {text : Bytes}

theorem fromClient_throws : (∃ thrown, json.fromClient text = .error thrown) ↔ json.Escapes text := by
  unfold Deserializer.fromClient Deserializer.Escapes
  cases parsed : json.parse text with
  | none => simp
  | some d =>
    cases id : json.messageId d with
    | error thrown => simp [bind,Except.bind,id]
    | ok id_ =>
      cases read : json.fromJSONValue d with
      | ok raw => simp [bind,Except.bind,id,read]
      | error thrown =>
        cases thrown with
        | invalidStringEnum enumName value =>
          by_cases method : enumName = ascii "LSPMethod" <;> simp [bind,Except.bind,id,read,method]
        | deserialization message => simp [bind,Except.bind,id,read]
        | other what => simp [bind,Except.bind,id,read]

end FromClient

section Read
variable {Document Raw : Type} {json : Deserializer Document Raw} {input : LSPFDInput} {frame : Frame}
  {frames : List Frame}

theorem headers_proper (frame : Frame) : ∀ line ∈ frame.headers,line ≠ [] ∧ LF ∉ line := by
  intro line present
  rcases List.mem_append.mp present with before | rest
  · have other := frame.others line (List.mem_append_left _ before)
    exact ⟨other.nonempty,other.single⟩
  · rcases List.mem_cons.mp rest with rfl | after
    · refine ⟨fun empty => (by cases empty),?_⟩
      intro inside
      have name : LF ∉ contentLengthName := by decide
      rcases List.mem_append.mp inside with own | value
      · exact name own
      · rcases List.mem_cons.mp value with impossible | digit
        · exact absurd impossible (by decide)
        · exact (decimal_bytes _ _ digit).2 rfl
    · have other := frame.others line (List.mem_append_right _ after)
      exact ⟨other.nonempty,other.single⟩

-- What a call does that gives the body at the front of the stream to fromClient.
structure TakesBody (json : Deserializer Document Raw) (body tail : Bytes) (call : Call Raw) (input : LSPFDInput) : Prop where
  passed : call.passed = some body
  threw : call.Threw ↔ json.Escapes body
  pending : ¬call.Threw → input.buffer ++ input.fd.rest = tail
  open_ : call.result ≠ some .errorOrEof

theorem takeMessage_body {body : Bytes} (after : buffer ++ fd'.rest = body ++ tail) (long : body.length ≤ buffer.length) :
    TakesBody json body tail (takeMessage json body.length buffer fd').1 (takeMessage json body.length buffer fd').2 ∧
      (takeMessage json body.length buffer fd').2.fd = fd' := by
  obtain ⟨rest,rfl⟩ : ∃ rest, buffer = body ++ rest := by
    have front : body <+: buffer := List.prefix_of_prefix_length_le ⟨tail,after.symm⟩ ⟨fd'.rest,rfl⟩ long
    exact front.imp (fun _ same => same.symm)
  rw [List.append_assoc,List.append_cancel_left_eq] at after
  simp only [takeMessage,List.take_left,List.drop_left]
  have escapes := @fromClient_throws _ _ json body
  cases outcome : json.fromClient body with
  | error thrown =>
    have threw : (⟨some body,.error thrown⟩ : Call Raw).Threw := rfl
    dsimp only
    exact ⟨⟨rfl,⟨fun _ => escapes.mp ⟨thrown,outcome⟩,fun _ => threw⟩,fun quiet => absurd threw quiet,nofun⟩,rfl⟩
  | ok msg =>
    have quiet : ¬(⟨some body,.ok ⟨.success,some msg⟩⟩ : Call Raw).Threw := nofun
    dsimp only
    refine ⟨⟨rfl,⟨fun threw => absurd threw quiet,fun escaped => ?_⟩,fun _ => after,nofun⟩,rfl⟩
    obtain ⟨thrown,error⟩ := escapes.mpr escaped
    rw [outcome] at error
    cases error

-- What a call does with the frame at the front of the stream.
theorem read_frame (pending : input.buffer ++ input.fd.rest = frame.encode ++ tail) :
    (TakesBody json frame.body tail (input.read arrivals json).1 (input.read arrivals json).2 ∧
      Advances arrivals 0 input.fd (input.read arrivals json).2.fd) ∨
    ∃ input', input.read arrivals json = (⟨none,.ok ⟨.timeout,none⟩⟩,input') ∧
      input'.buffer ++ input'.fd.rest = input.buffer ++ input.fd.rest ∧ Advances arrivals 1 input.fd input'.fd := by
  have lines : input.buffer ++ input.fd.rest =
      frame.headers.flatMap encodeLine ++ (encodeLine [] ++ (frame.body ++ tail)) := by
    rw [pending,Frame.encode]
    simp
  have enough : frame.headers.length < 10 := by
    have := frame.few
    simp only [Frame.headers,List.length_append,List.length_cons]
    omega
  unfold LSPFDInput.read
  rcases @readHeaders_lines arrivals _ _ _ _ _ [] (-1) (headers_proper frame) enough lines with
    ⟨buffer,fd,read,after,advances⟩ | ⟨buffer,fd,read,after,advances⟩
  · rw [read,scanLines_headers]
    dsimp only
    rw [if_neg (by omega),Int.toNat_natCast,List.nil_append]
    have restored : ∀ more rest, more ++ rest = frame.body ++ tail →
        frame.headers.flatMap encodeLine ++ encodeLine [] ++ more ++ rest = input.buffer ++ input.fd.rest := by
      intro more rest same
      rw [lines,←same]
      simp
    by_cases short : buffer.length < frame.body.length
    · rw [if_pos short]
      rcases readFd_cases arrivals fd (frame.body.length - buffer.length) (by omega) with ⟨fd',body,same,more⟩ |
        ⟨fd',_,empty,_⟩ | ⟨bytes,fd',body,split,_,more⟩
      · rw [body]
        exact .inr ⟨_,rfl,restored buffer fd'.rest (by rw [same,after]),(advances.trans more).mono (Nat.le_add_left _ _)⟩
      · rw [empty,List.append_nil] at after
        rw [after,List.length_append] at short
        omega
      · rw [body]
        rw [split,←List.append_assoc] at after
        dsimp only
        split
        · refine .inr ⟨_,rfl,?_,(advances.trans more).mono (Nat.le_add_left _ _)⟩
          exact restored (buffer ++ bytes) fd'.rest after
        · rename_i whole
          have length : (buffer ++ bytes).length = frame.body.length := by
            rw [List.length_append]
            omega
          obtain ⟨takes,same⟩ := @takeMessage_body fd' _ _ _ _ json _ after (Nat.le_of_eq length.symm)
          refine .inl ⟨takes,?_⟩
          rw [same]
          exact (advances.trans more).mono (Nat.zero_le _)
    · rw [if_neg short]
      obtain ⟨takes,same⟩ := @takeMessage_body fd _ _ _ _ json _ after (Nat.le_of_not_lt short)
      refine .inl ⟨takes,?_⟩
      rw [same]
      exact advances
  · rw [read]
    exact .inr ⟨⟨buffer,fd⟩,rfl,after,advances⟩

-- A call at the end of the stream.
theorem read_end (ended : input.buffer ++ input.fd.rest = []) :
    ∃ result input', input.read arrivals json = (⟨none,.ok ⟨result,none⟩⟩,input') ∧ input'.buffer ++ input'.fd.rest = [] := by
  obtain ⟨empty,none_⟩ := List.append_eq_nil_iff.mp ended
  have nothing : findLine [] = none := rfl
  unfold LSPFDInput.read
  simp only [readHeaders,readLineFromFd,empty,nothing]
  rcases readFd_cases arrivals input.fd buffSize (by decide) with ⟨fd',read,same,_⟩ | ⟨fd',read,_,same⟩ |
    ⟨bytes,fd',read,split,_,advances⟩
  · rw [read]
    exact ⟨.timeout,⟨[],fd'⟩,rfl,same.trans none_⟩
  · rw [read]
    exact ⟨.errorOrEof,⟨[],fd'⟩,rfl,same⟩
  · rw [none_] at split
    obtain ⟨rfl,rest⟩ := List.append_eq_nil_iff.mp split.symm
    rw [read]
    simp only [nothing]
    exact ⟨.timeout,⟨[],fd'⟩,rfl,rest⟩

-- What the calls have done when `k` frames are passed on. The last of them is the only
-- one that can have thrown.
structure Reads (arrivals : Nat → Arrival) (json : Deserializer Document Raw) (frames : List Frame) (n : Nat)
    (calls : List (Call Raw)) (input : LSPFDInput) (k : Nat) : Prop where
  bound : k ≤ frames.length
  passed : calls.filterMap Call.passed = (frames.take k).map Frame.body
  threw : (∃ call ∈ calls,call.Threw) ↔ ∃ frame ∈ frames.take k,json.Escapes frame.body
  earlier : ∀ frame ∈ frames.take (k - 1),¬json.Escapes frame.body
  pending : (¬∃ call ∈ calls,call.Threw) → input.buffer ++ input.fd.rest = (frames.drop k).flatMap Frame.encode
  ended : some ReadResult.errorOrEof ∈ calls.map Call.result → k = frames.length
  progress : (¬∃ call ∈ calls,call.Threw) → k < frames.length → n + input.fd.rest.length ≤
    (frames.flatMap Frame.encode).length + k + timeouts arrivals input.fd.clock

theorem threw_concat {calls : List (Call Raw)} {call : Call Raw} (quiet : ¬∃ call ∈ calls,call.Threw) :
    (∃ other ∈ calls ++ [call],other.Threw) ↔ call.Threw := by
  constructor
  · rintro ⟨other,present,threw⟩
    rcases List.mem_append.mp present with before | last
    · exact absurd ⟨other,before,threw⟩ quiet
    · rw [List.mem_singleton] at last
      rwa [←last]
  · intro threw
    exact ⟨call,List.mem_append_right _ List.mem_cons_self,threw⟩

theorem Reads.frames_quiet {calls : List (Call Raw)} {k : Nat} (reads : Reads arrivals json frames n calls input k)
    (quiet : ¬∃ call ∈ calls,call.Threw) : ∀ frame ∈ frames.take k,¬json.Escapes frame.body :=
  fun frame present escapes => quiet (reads.threw.mpr ⟨frame,present,escapes⟩)

theorem Reads.open_ {calls : List (Call Raw)} {k : Nat} (reads : Reads arrivals json frames n calls input k)
    (left : k < frames.length) : some ReadResult.errorOrEof ∉ calls.map Call.result :=
  fun error => absurd (reads.ended error) (Nat.ne_of_lt left)

-- The body of the next frame is passed on.
theorem Reads.takes {calls : List (Call Raw)} {call : Call Raw} {input' : LSPFDInput} {k : Nat}
    (reads : Reads arrivals json frames n calls input k) (quiet : ¬∃ call ∈ calls,call.Threw) (left : k < frames.length)
    (takes : TakesBody json frames[k].body ((frames.drop (k + 1)).flatMap Frame.encode) call input')
    (advances : Advances arrivals 0 input.fd input'.fd) :
    Reads arrivals json frames (n + 1) (calls ++ [call]) input' (k + 1) := by
  have none_ := reads.frames_quiet quiet
  have passes : frames.take (k + 1) = frames.take k ++ [frames[k]] := List.take_succ_eq_append_getElem left
  refine ⟨left,?_,?_,none_,?_,?_,?_⟩
  · rw [List.filterMap_append,reads.passed,passes,List.map_append]
    simp [takes.passed]
  · rw [threw_concat quiet,takes.threw,passes]
    constructor
    · exact fun escapes => ⟨_,List.mem_append_right _ List.mem_cons_self,escapes⟩
    · rintro ⟨frame,present,escapes⟩
      rcases List.mem_append.mp present with front | last
      · exact absurd escapes (none_ frame front)
      · rw [List.mem_singleton] at last
        rwa [←last]
  · rw [threw_concat quiet]
    exact takes.pending
  · intro error
    rw [List.map_append,List.mem_append] at error
    rcases error with front | last
    · exact absurd front (reads.open_ left)
    · exact absurd (List.mem_singleton.mp last).symm takes.open_
  · intro _ _
    have sofar := reads.progress quiet left
    unfold Advances at advances
    omega

-- The call comes back without a frame.
theorem Reads.waits {calls : List (Call Raw)} {result : ReadResult} {input' : LSPFDInput} {k : Nat}
    (reads : Reads arrivals json frames n calls input k) (quiet : ¬∃ call ∈ calls,call.Threw)
    (same : input'.buffer ++ input'.fd.rest = input.buffer ++ input.fd.rest)
    (more : k < frames.length → result = .timeout ∧ Advances arrivals 1 input.fd input'.fd) :
    Reads arrivals json frames (n + 1) (calls ++ [⟨none,.ok ⟨result,none⟩⟩]) input' k := by
  have silent : ¬(⟨none,.ok ⟨result,none⟩⟩ : Call Raw).Threw := nofun
  refine ⟨reads.bound,?_,?_,reads.earlier,fun _ => same.trans (reads.pending quiet),?_,?_⟩
  · rw [List.filterMap_append,reads.passed]
    simp
  · rw [threw_concat quiet,←reads.threw]
    exact ⟨fun impossible => absurd impossible silent,fun impossible => absurd impossible quiet⟩
  · intro error
    by_contra missing
    have left := Nat.lt_of_le_of_ne reads.bound missing
    obtain ⟨rfl,_⟩ := more left
    rw [List.map_append,List.mem_append] at error
    rcases error with front | last
    · exact absurd front (reads.open_ left)
    · cases List.mem_singleton.mp last
  · intro _ left
    have sofar := reads.progress quiet left
    have advances := (more left).2
    unfold Advances at advances
    omega

theorem Reads.step {calls : List (Call Raw)} {k : Nat} (reads : Reads arrivals json frames n calls input k)
    (quiet : ¬∃ call ∈ calls,call.Threw) :
    ∃ k', Reads arrivals json frames (n + 1) (calls ++ [(input.read arrivals json).1]) (input.read arrivals json).2 k' := by
  have pending := reads.pending quiet
  by_cases left : k < frames.length
  · rw [List.drop_eq_getElem_cons left,List.flatMap_cons] at pending
    rcases @read_frame arrivals _ _ _ json _ _ pending with ⟨takes,advances⟩ | ⟨input',read,same,advances⟩
    · exact ⟨k + 1,reads.takes quiet left takes advances⟩
    · rw [read]
      exact ⟨k,reads.waits quiet same fun _ => ⟨rfl,advances⟩⟩
  · have all : k = frames.length := Nat.le_antisymm reads.bound (Nat.le_of_not_lt left)
    rw [all,List.drop_length] at pending
    obtain ⟨result,input',read,after⟩ := @read_end arrivals _ _ json _ pending
    rw [read]
    exact ⟨k,reads.waits quiet (after.trans pending.symm) fun more => absurd more left⟩

-- There is no call after one that threw.
theorem Reads.stopped {calls : List (Call Raw)} {k : Nat} (reads : Reads arrivals json frames n calls input k)
    (threw : ∃ call ∈ calls,call.Threw) : Reads arrivals json frames (n + 1) calls input k :=
  {reads with progress := fun quiet => absurd threw quiet}

def opened (frames : List Frame) : LSPFDInput := {fd := ⟨frames.flatMap Frame.encode,0⟩}

theorem calls_reads (arrivals : Nat → Arrival) (json : Deserializer Document Raw) (frames : List Frame) (n : Nat) :
    ∃ k, Reads arrivals json frames n ((opened frames).calls arrivals json n).1 ((opened frames).calls arrivals json n).2 k := by
  induction n with
  | zero =>
    refine ⟨0,Nat.zero_le _,rfl,?_,nofun,fun _ => rfl,nofun,fun _ _ => ?_⟩
    · simp [LSPFDInput.calls]
    · simp [LSPFDInput.calls,opened]
  | succ n ih =>
    obtain ⟨k,reads⟩ := ih
    simp only [LSPFDInput.calls]
    by_cases threw : ∃ call ∈ ((opened frames).calls arrivals json n).1,call.Threw
    · rw [if_pos threw]
      exact ⟨k,reads.stopped threw⟩
    · rw [if_neg threw]
      exact reads.step threw

-- What `n` calls give to fromClient: the bodies of the first `k` frames. What follows is
-- kept while no call threw; it is all bodies when the end of the stream is reported, and
-- once the calls outnumber the bytes, frames and timeouts.
structure Passes (arrivals : Nat → Arrival) (json : Deserializer Document Raw) (frames : List Frame) (n k : Nat) : Prop where
  bound : k ≤ frames.length
  bodies : ((opened frames).calls arrivals json n).1.filterMap Call.passed = (frames.take k).map Frame.body
  kept : (∀ call ∈ ((opened frames).calls arrivals json n).1,¬call.Threw) →
    ((opened frames).calls arrivals json n).2.buffer ++ ((opened frames).calls arrivals json n).2.fd.rest =
      (frames.drop k).flatMap Frame.encode
  ended : some ReadResult.errorOrEof ∈ ((opened frames).calls arrivals json n).1.map Call.result → k = frames.length
  all : (frames.flatMap Frame.encode).length + frames.length +
    timeouts arrivals ((opened frames).calls arrivals json n).2.fd.clock ≤ n → k = frames.length

def PassesBodies (json : Deserializer Document Raw) (frames : List Frame) : Prop :=
  ∀ arrivals n, ∃ k, Passes arrivals json frames n k

theorem timeouts_chunks (more clock : Nat) : timeouts (fun _ => .chunk more) clock = 0 := by
  simp [timeouts]

theorem PassesBodies.quiet (passes : PassesBodies json frames) : ∀ frame ∈ frames.dropLast,¬json.Escapes frame.body := by
  -- no timeouts, and calls enough for all bodies
  let n := (frames.flatMap Frame.encode).length + frames.length
  obtain ⟨k,-,bodies,-,-,all⟩ := passes (fun _ => .chunk 0) n
  obtain ⟨k',bound,passed,-,earlier,-,-,-⟩ := calls_reads (fun _ => .chunk 0) json frames n
  rw [timeouts_chunks] at all
  have whole : k = frames.length := all (Nat.le_refl _)
  have same : k' = frames.length := by
    have lengths := congrArg List.length (passed.symm.trans bodies)
    rw [List.length_map,List.length_map,List.length_take,List.length_take] at lengths
    omega
  rw [same,←List.dropLast_eq_take] at earlier
  exact earlier

theorem quiet_passesBodies (quiet : ∀ frame ∈ frames.dropLast,¬json.Escapes frame.body) : PassesBodies json frames := by
  intro arrivals n
  obtain ⟨k,bound,passed,threw,-,pending,ended,progress⟩ := calls_reads arrivals json frames n
  refine ⟨k,bound,passed,?_,ended,?_⟩
  · intro none_
    exact pending (fun ⟨call,present,thrown⟩ => none_ call present thrown)
  · intro enough
    by_contra missing
    have left : k < frames.length := Nat.lt_of_le_of_ne bound missing
    have silent : ¬∃ call ∈ ((opened frames).calls arrivals json n).1,call.Threw := by
      intro thrown
      obtain ⟨frame,present,escapes⟩ := threw.mp thrown
      refine quiet frame ?_ escapes
      rw [List.dropLast_eq_take]
      exact List.take_subset_take_left frames (by omega) present
    have sofar := progress silent left
    omega

-- However the stream arrives, the calls pass on the bodies, if and only if no body
-- before the last one lets an exception escape.
theorem read_passes_bodies_iff (json : Deserializer Document Raw) (frames : List Frame) :
    PassesBodies json frames ↔ ∀ frame ∈ frames.dropLast,¬json.Escapes frame.body :=
  ⟨PassesBodies.quiet,quiet_passesBodies⟩

end Read

section Shutdown

def shutdownText : Bytes := ascii "\x7b\"jsonrpc\":\"2.0\",\"method\":\"shutdown\"\x7d"
def exitText : Bytes := ascii "\x7b\"jsonrpc\":\"2.0\",\"method\":\"exit\"\x7d"

def shutdownWhat : Bytes := ascii ("Error serializing object to JSON message: Invalid discriminant value for variant field " ++
  "`NotificationMessage.params`: `shutdown` (from `method`) is not a valid discriminant")

-- The reader on these two texts: exit is a notification, shutdown only a request.
def shutdownReader : Deserializer (List (Bytes × Bytes)) Bytes where
  parse text :=
    if text = shutdownText then some [(ascii "jsonrpc",ascii "2.0"),(ascii "method",ascii "shutdown")]
    else if text = exitText then some [(ascii "jsonrpc",ascii "2.0"),(ascii "method",ascii "exit")]
    else none
  hasMember d name := .ok (d.any (fun member => member.1 == name))
  intMember _ _ := none
  requestMessage d := .ok ((d.lookup (ascii "method")).getD [])
  responseMessage _ := .ok []
  notificationMessage d :=
    if d.lookup (ascii "method") = some (ascii "shutdown") then .error (.other shutdownWhat)
    else .ok ((d.lookup (ascii "method")).getD [])

def plainFrame (body : Bytes) (small : body.length < 2 ^ 31) : Frame := ⟨[],[],body,nofun,by decide,small⟩

def shutdownFrames : List Frame := [plainFrame shutdownText (by decide),plainFrame exitText (by decide)]

-- The second body never reaches fromClient.
theorem read_loses_exit : ¬PassesBodies shutdownReader shutdownFrames := by
  intro passes
  have quiet := passes.quiet (plainFrame shutdownText (by decide)) List.mem_cons_self
  exact quiet ⟨[(ascii "jsonrpc",ascii "2.0"),(ascii "method",ascii "shutdown")],rfl,.inr ⟨shutdownWhat,rfl⟩⟩

end Shutdown
end Input
end Lsp
