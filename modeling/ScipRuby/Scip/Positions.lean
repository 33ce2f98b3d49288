import ScipRuby.Lib.Segments
import ScipRuby.Scip.Coordinates

namespace Scip
variable {source : Str} {detail : Detail} {off line column : Nat}

def uint32 (n : Nat) : Nat := n % 4294967296

def sizeT (n : Nat) : Nat := n % 18446744073709551616

-- The line may be one past the last; there the size of the file is smaller than the
-- start of the line and the length wraps.
def detail2Pos (source : Str) (detail : Detail) : Option Nat :=
  let line1idx := detail.line
  let lineBreaks := findLineBreaks source
  if ¬ (1 ≤ line1idx ∧ line1idx ≤ lineBreaks.length + 1) then none
  else
    let line0idx := line1idx - 1
    let lineStart := if line0idx = 0 then 0 else uint32 (lineBreaks.getD (line0idx - 1) 0 + 1)
    let lineEnd := if line0idx < lineBreaks.length then lineBreaks.getD line0idx 0 else source.length
    let lineLength := sizeT (lineEnd + 18446744073709551616 - lineStart)
    let column1idx := detail.column
    if column1idx > sizeT (lineLength + 1) then none
    else
      let column0idx := uint32 (column1idx + 4294967295)
      some (uint32 (lineStart + column0idx))

section Breaks

theorem newlines_rising (pos : Nat) (text : Str) : (newlines pos text).Pairwise (· < ·) := by
  induction text generalizing pos with
  | nil => exact List.Pairwise.nil
  | cons c rest ih =>
    rw [newlines]
    split
    · apply List.Pairwise.cons
      · intro later member
        have := (newlines_bounds member).1
        omega
      · exact ih (pos + 1)
    · exact ih (pos + 1)

-- The sentinel is past every line break.
theorem findLineBreaks_rising (source : Str) : (findLineBreaks source).Pairwise (· < ·) := by
  apply List.pairwise_append.mpr
  refine ⟨newlines_rising 0 source,List.pairwise_singleton _ _,?_⟩
  intro before member last sentinel
  obtain rfl := List.mem_singleton.mp sentinel
  have := (newlines_bounds member).2
  omega

theorem findLineBreaks_covers : (∃ stop ∈ findLineBreaks source, off ≤ stop) ↔ off ≤ source.length := by
  constructor
  · rintro ⟨stop,member,reaches⟩
    obtain inner | sentinel := List.mem_append.mp member
    · have := (newlines_bounds inner).2
      omega
    · obtain rfl := List.mem_singleton.mp sentinel
      exact reaches
  · intro inside
    exact ⟨source.length,List.mem_append_right _ List.mem_cons_self,inside⟩

end Breaks

section RoundTrip

-- Lines are the segments that the line breaks cut.
theorem pos2Detail_segment (source : Str) (off : Nat) : pos2Detail source off =
    ⟨Segments.segment (findLineBreaks source) off + 1,Segments.distance (findLineBreaks source) off + 1⟩ := by
  rw [pos2Detail,Segments.distance,Segments.segment]
  cases last : ((findLineBreaks source).takeWhile (· < off)).getLast? with
  | none =>
    rw [List.getLast?_eq_none_iff.mp last]
    rfl
  | some stop =>
    have below := of_decide_eq_true (List.mem_takeWhile_imp (p := fun stop => decide (stop < off)) (List.mem_of_getLast? last))
    obtain ⟨others,whole⟩ := List.takeWhile_prefix (fun stop => decide (stop < off)) (l := findLineBreaks source)
    rw [List.getLast?_eq_getElem?] at last
    cases size : ((findLineBreaks source).takeWhile (· < off)).length with
    | zero =>
      rw [List.eq_nil_of_length_eq_zero size] at last
      cases last
    | succ i =>
      rw [size] at last
      have here : (findLineBreaks source)[i]? = some stop := by
        rw [← whole,List.getElem?_append_left (by omega)]
        exact last
      have stop_ : (findLineBreaks source).getD i 0 = stop := by simp [here]
      simp only [Segments.start,stop_]
      congr 1
      omega

theorem start_line (fits : source.length < invalidPosLoc) (line : Nat) :
    (if line = 0 then 0 else uint32 ((findLineBreaks source).getD (line - 1) 0 + 1)) = Segments.start (findLineBreaks source) line := by
  cases line with
  | zero => rfl
  | succ i =>
    have inside : (findLineBreaks source).getD i 0 ≤ source.length := by
      rw [List.getD_eq_getElem?_getD]
      cases here : (findLineBreaks source)[i]? with
      | none => exact Nat.zero_le _
      | some stop => exact findLineBreaks_covers.mp ⟨stop,List.mem_of_getElem? here,Nat.le_refl _⟩
    rw [if_neg (Nat.succ_ne_zero i),Nat.add_sub_cancel,Segments.start]
    apply Nat.mod_eq_of_lt
    rw [invalidPosLoc] at fits
    omega

-- One line past the last the length wraps so that no column is left; inside the file
-- nothing wraps.
theorem detail2Pos_within (fits : source.length < invalidPosLoc) (low : 1 ≤ detail.line) (counted : 1 ≤ detail.column) :
    detail2Pos source detail = Segments.within (findLineBreaks source) (detail.line - 1) (detail.column - 1) := by
  have rising := findLineBreaks_rising source
  have total : (findLineBreaks source).length = (newlines 0 source).length + 1 := by simp [findLineBreaks]
  unfold detail2Pos
  dsimp only
  rw [start_line fits,Segments.within]
  rw [invalidPosLoc] at fits
  cases here : (findLineBreaks source)[detail.line - 1]? with
  | none =>
    have past := List.getElem?_eq_none_iff.mp here
    dsimp only
    split
    · rfl
    · rename_i known
      have last : detail.line - 1 = (newlines 0 source).length + 1 := by omega
      have start : Segments.start (findLineBreaks source) (detail.line - 1) = source.length + 1 := by
        rw [last,Segments.start,findLineBreaks]
        simp
      have empty : sizeT (sizeT (source.length + 18446744073709551616 - (source.length + 1)) + 1) = 0 := by
        simp only [sizeT]
        omega
      have beyond : ¬ detail.line - 1 < (findLineBreaks source).length := by omega
      rw [start,if_neg beyond,empty]
      exact if_pos counted
  | some stop =>
    have bound := (List.getElem?_eq_some_iff.mp here).1
    have start := Segments.start_le_stop rising here
    have inside := findLineBreaks_covers.mp ⟨stop,List.mem_of_getElem? here,Nat.le_refl _⟩
    have stop_ : (findLineBreaks source).getD (detail.line - 1) 0 = stop := by simp [here]
    have known : ¬¬ (1 ≤ detail.line ∧ detail.line ≤ (findLineBreaks source).length + 1) := by omega
    rw [if_neg known,if_pos bound,stop_]
    dsimp only
    generalize Segments.start (findLineBreaks source) (detail.line - 1) = lineStart at start ⊢
    have length : sizeT (sizeT (stop + 18446744073709551616 - lineStart) + 1) = stop - lineStart + 1 := by
      simp only [sizeT]
      omega
    rw [length]
    by_cases long : lineStart + (detail.column - 1) ≤ stop
    · have result : uint32 (lineStart + uint32 (detail.column + 4294967295)) = lineStart + (detail.column - 1) := by
        simp only [uint32]
        omega
      rw [if_neg (by omega),if_pos long,result]
    · rw [if_pos (by omega),if_neg long]

-- A position stands for the offset it is computed from and for no other.
theorem detail2Pos_iff (fits : source.length < invalidPosLoc) (counted : 1 ≤ detail.column) :
    detail2Pos source detail = some off ↔ off ≤ source.length ∧ pos2Detail source off = detail := by
  by_cases low : 1 ≤ detail.line
  · rw [detail2Pos_within fits low counted,Segments.within_iff (findLineBreaks_rising source),findLineBreaks_covers,
      pos2Detail_segment]
    apply and_congr_right
    intro _
    obtain ⟨line,column⟩ := detail
    dsimp only at counted low ⊢
    rw [Detail.mk.injEq]
    omega
  · have rejected : detail2Pos source detail = none := if_pos (by omega)
    constructor
    · intro found
      rw [rejected] at found
      cases found
    · rintro ⟨_,rfl⟩
      rw [pos2Detail_segment] at low
      exact absurd (Nat.le_add_left 1 _) low

theorem detail2Pos_pos2Detail (fits : source.length < invalidPosLoc) (inside : off ≤ source.length) :
    detail2Pos source (pos2Detail source off) = some off := by
  apply (detail2Pos_iff fits _).mpr ⟨inside,rfl⟩
  rw [pos2Detail_segment]
  exact Nat.le_add_left 1 _

theorem detail2Pos_rejects (fits : source.length < invalidPosLoc) (counted : 1 ≤ detail.column) :
    detail2Pos source detail = none ↔ ∀ off ≤ source.length, pos2Detail source off ≠ detail := by
  rw [Option.eq_none_iff_forall_ne_some]
  constructor
  · intro rejected off inside image
    exact rejected off ((detail2Pos_iff fits counted).mpr ⟨inside,image⟩)
  · intro missed off found
    obtain ⟨inside,image⟩ := (detail2Pos_iff fits counted).mp found
    exact missed off inside image

theorem detail2Pos_pastEnd (fits : source.length < invalidPosLoc) (counted : 1 ≤ column) :
    detail2Pos source ⟨(findLineBreaks source).length + 1,column⟩ = none := by
  rw [detail2Pos_within fits (Nat.le_add_left 1 _) counted,Segments.within]
  simp

end RoundTrip

end Scip
