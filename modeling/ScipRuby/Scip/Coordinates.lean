import ScipRuby.Scip.Searching

namespace Scip
variable {text pre post : Str} {off pos : Nat}

-- The characters of whole lines, with their line breaks.
def linesLength : List Str → Nat
  | [] => 0
  | line :: lines => line.length + 1 + linesLength lines

-- The offset of a zero-based line and column, if the text has such a place.
def offsetAt (text : Str) (line column : Nat) : Option Nat :=
  match (splitAt '\n' text)[line]? with
  | some contents =>
    if column ≤ contents.length then some (linesLength ((splitAt '\n' text).take line) + column) else none
  | none => none

def textBetween (text : Str) (start stop : Option Nat) : Option Str :=
  match start,stop with
  | some start,some stop => some ((text.drop start).take (stop - start))
  | _,_ => none

-- The text that a range of three or four numbers stands for.
def readBack (text : Str) : List Nat → Option Str
  | [line,column,column'] => textBetween text (offsetAt text line column) (offsetAt text line column')
  | [line,column,line',column'] => textBetween text (offsetAt text line column) (offsetAt text line' column')
  | _ => none

-- The text after the last double colon, or all of it if there is none.
def AfterLastColons (text shown : Str) : Prop :=
  (¬ [':',':'] <:+: text ∧ shown = text) ∨
    ∃ i, [':',':'] <+: text.drop i ∧ (∀ j, i < j → ¬ [':',':'] <+: text.drop j) ∧ shown = text.drop (i + 2)

section Breaks

theorem newlines_append (first second : Str) :
    newlines pos (first ++ second) = newlines pos first ++ newlines (pos + first.length) second := by
  induction first generalizing pos with
  | nil => simp [newlines]
  | cons c first ih =>
    rw [List.cons_append,newlines,newlines,ih]
    have shifted : pos + 1 + first.length = pos + (c :: first).length := by
      rw [List.length_cons]
      omega
    rw [shifted]
    split <;> simp

theorem newlines_bounds {at' : Nat} (member : at' ∈ newlines pos text) : pos ≤ at' ∧ at' < pos + text.length := by
  induction text generalizing pos with
  | nil => cases member
  | cons c rest ih =>
    rw [newlines] at member
    rw [List.length_cons]
    split at member
    · obtain rfl | later := List.mem_cons.mp member
      · omega
      · have := ih later
        omega
    · have := ih member
      omega

theorem newlines_length : (newlines pos text).length = text.count '\n' := by
  induction text generalizing pos with
  | nil => rfl
  | cons c rest ih =>
    rw [newlines]
    split
    · rename_i same
      simp [same,ih]
    · rename_i other
      simp [ih,other]

-- The breaks before an offset are those of the text up to it.
theorem breaks_below (inside : off ≤ text.length) :
    (findLineBreaks text).takeWhile (· < off) = newlines 0 (text.take off) := by
  have low : ∀ at' ∈ newlines 0 (text.take off), decide (at' < off) = true := by
    intro at' member
    have bound := (newlines_bounds member).2
    rw [List.length_take,Nat.min_eq_left inside] at bound
    exact decide_eq_true (by omega)
  have high : (newlines off (text.drop off) ++ [text.length]).takeWhile (· < off) = [] := by
    have beyond : ∀ at' ∈ newlines off (text.drop off) ++ [text.length], off ≤ at' := by
      intro at' member
      obtain old | new := List.mem_append.mp member
      · exact (newlines_bounds old).1
      · rw [List.mem_singleton.mp new]
        exact inside
    cases rest : newlines off (text.drop off) ++ [text.length] with
    | nil => rfl
    | cons first others =>
      have bound := beyond first (rest ▸ List.mem_cons_self)
      exact List.takeWhile_cons_of_neg (by simpa using bound)
  have split : findLineBreaks text = newlines 0 (text.take off) ++ (newlines off (text.drop off) ++ [text.length]) := by
    have parts := @newlines_append 0 (text.take off) (text.drop off)
    rw [List.take_append_drop,List.length_take,Nat.min_eq_left inside,Nat.zero_add] at parts
    rw [findLineBreaks,parts,List.append_assoc]
  rw [split,List.takeWhile_append_of_pos low,high,List.append_nil]

end Breaks

section Lines

theorem splitAt_prepend {after : Str} (absent : '\n' ∉ after) (post : Str) :
    ∃ first others, splitAt '\n' (after ++ post) = (after ++ first) :: others := by
  induction after with
  | nil =>
    cases lines : splitAt '\n' post with
    | nil => exact absurd lines (splitAt_nonempty post)
    | cons first others => exact ⟨first,others,lines⟩
  | cons c after ih =>
    have apart : c ≠ '\n' := fun same => absent (same ▸ List.mem_cons_self)
    obtain ⟨first,others,lines⟩ := ih fun member => absent (List.mem_cons_of_mem _ member)
    exact ⟨first,others,by rw [List.cons_append,splitAt,if_neg apart,lines,List.cons_append]⟩

theorem splitAt_join (first second : Str) :
    splitAt '\n' (first ++ '\n' :: second) = splitAt '\n' first ++ splitAt '\n' second := by
  induction first with
  | nil => simp [splitAt]
  | cons c first ih =>
    rw [List.cons_append,splitAt,splitAt,ih]
    split
    · rfl
    · cases lines : splitAt '\n' first with
      | nil => exact absurd lines (splitAt_nonempty first)
      | cons line others => rfl

theorem splitAt_length (text : Str) : (splitAt '\n' text).length = text.count '\n' + 1 := by
  induction text with
  | nil => rfl
  | cons c rest ih =>
    rw [splitAt]
    split
    · rename_i same
      simp [same,ih]
    · rename_i other
      cases lines : splitAt '\n' rest with
      | nil => exact absurd lines (splitAt_nonempty rest)
      | cons line others =>
        rw [lines] at ih
        simpa [List.count_cons,other] using ih

-- The last line counts a break that the text does not have.
theorem splitAt_linesLength (text : Str) : linesLength (splitAt '\n' text) = text.length + 1 := by
  induction text with
  | nil => rfl
  | cons c rest ih =>
    rw [splitAt]
    split
    · rw [linesLength,ih,List.length_nil,List.length_cons]
      omega
    · cases lines : splitAt '\n' rest with
      | nil => exact absurd lines (splitAt_nonempty rest)
      | cons line others =>
        rw [lines,linesLength] at ih
        dsimp only
        rw [linesLength,List.length_cons,List.length_cons]
        omega

theorem offsetAt_first {after : Str} (absent : '\n' ∉ after) :
    offsetAt (after ++ post) 0 after.length = some after.length := by
  obtain ⟨first,others,lines⟩ := splitAt_prepend absent post
  simp [offsetAt,lines,linesLength]

theorem offsetAt_later {after : Str} (absent : '\n' ∉ after) :
    offsetAt (pre ++ '\n' :: (after ++ post)) (pre.count '\n' + 1) after.length = some (pre.length + 1 + after.length) := by
  obtain ⟨first,others,lines⟩ := splitAt_prepend absent post
  have count := splitAt_length pre
  have line : (splitAt '\n' pre ++ (after ++ first) :: others)[pre.count '\n' + 1]? = some (after ++ first) := by
    rw [← count]
    simp
  have above : (splitAt '\n' pre ++ (after ++ first) :: others).take (pre.count '\n' + 1) = splitAt '\n' pre := by
    rw [← count]
    exact List.take_left
  rw [offsetAt,splitAt_join,lines,line,above,splitAt_linesLength]
  simp

end Lines

section Positions

theorem newlines_absent (absent : '\n' ∉ text) : newlines pos text = [] := by
  apply List.eq_nil_of_length_eq_zero
  rw [newlines_length]
  exact List.count_eq_zero.mpr absent

-- The line and column of an offset lead back to it.
theorem pos2Detail_back (inside : off ≤ text.length) : (pos2Detail text off).line = (text.take off).count '\n' + 1 ∧
    offsetAt text ((pos2Detail text off).line - 1) ((pos2Detail text off).column - 1) = some off := by
  have length := List.length_take_of_le inside
  have whole := List.take_append_drop off text
  rw [pos2Detail,breaks_below inside]
  obtain ⟨absent,_⟩ | ⟨before,after,parts,absent,_⟩ := rfind_char_cases '\n' (text.take off)
  · have back := @offsetAt_first (text.drop off) _ absent
    rw [whole,length] at back
    rw [newlines_absent absent,List.count_eq_zero.mpr absent]
    exact ⟨rfl,back⟩
  · have back := @offsetAt_later before (text.drop off) _ absent
    have joined : before ++ '\n' :: (after ++ text.drop off) = text := by
      calc before ++ '\n' :: (after ++ text.drop off)
        _ = (before ++ '\n' :: after) ++ text.drop off := by simp
        _ = text := by rw [← parts,whole]
    have offset : before.length + 1 + after.length = off := by
      rw [← length,parts,List.length_append,List.length_cons]
      omega
    have breaks : newlines 0 (text.take off) = newlines 0 before ++ [before.length] := by
      rw [parts,newlines_append,Nat.zero_add,newlines,if_pos rfl,newlines_absent absent]
    have column : off - before.length - 1 = after.length := by omega
    have lines : (text.take off).count '\n' = before.count '\n' + 1 := by
      rw [parts]
      simp [List.count_eq_zero.mpr absent]
    rw [joined,offset] at back
    rw [breaks,lines]
    simp only [List.getLast?_append,List.getLast?_singleton,Option.some_or,List.length_append,List.length_singleton,
      newlines_length,Nat.add_sub_cancel,column]
    exact ⟨trivial,back⟩

end Positions

section Ranges
variable {files : Files} {loc : Loc} {head shown tail : Str}

theorem fromSorbetLoc_exact (file : (files loc.file).source = head ++ shown ++ tail) (start : loc.offsets.beginLoc = head.length)
    (stop : loc.offsets.endLoc = head.length + shown.length) :
    readBack (files loc.file).source (fromSorbetLoc files loc) = some shown ∧
      ((fromSorbetLoc files loc).length = 3 ↔ '\n' ∉ shown) := by
  have total : (head ++ shown ++ tail).length = head.length + shown.length + tail.length := by
    rw [List.length_append,List.length_append]
  obtain ⟨line,back⟩ := @pos2Detail_back (head ++ shown ++ tail) head.length (by omega)
  obtain ⟨line',back'⟩ := @pos2Detail_back (head ++ shown ++ tail) (head.length + shown.length) (by omega)
  have before : (head ++ shown ++ tail).take head.length = head := by simp
  have upto : (head ++ shown ++ tail).take (head.length + shown.length) = head ++ shown := by
    rw [← List.length_append]
    exact List.take_left
  have between : ((head ++ shown ++ tail).drop head.length).take (head.length + shown.length - head.length) = shown := by
    simp
  rw [before] at line
  rw [upto,List.count_append] at line'
  rw [fromSorbetLoc,Loc.toDetails,file,start,stop]
  dsimp only
  by_cases same : '\n' ∈ shown
  · have several := List.count_pos_iff.mpr same
    rw [if_pos (by omega)]
    constructor
    · change textBetween _ (offsetAt _ _ _) (offsetAt _ _ _) = _
      rw [back,back',textBetween,between]
    · simp [same]
  · have single := List.count_eq_zero.mpr same
    have lines : (pos2Detail (head ++ shown ++ tail) (head.length + shown.length)).line =
        (pos2Detail (head ++ shown ++ tail) head.length).line := by omega
    rw [lines] at back'
    rw [lines,if_neg (by simp)]
    constructor
    · change textBetween _ (offsetAt _ _ _) (offsetAt _ _ _) = _
      rw [back,back',textBetween,between]
    · simp [same]

-- Where a location lies in its file.
theorem source_parts (inside : loc.offsets.endLoc ≤ (files loc.file).source.length) (read : loc.source files = some text) :
    ∃ head tail, (files loc.file).source = head ++ text ++ tail ∧ loc.offsets.beginLoc = head.length ∧
      loc.offsets.endLoc = head.length + text.length := by
  have ordered := loc.offsets.ordered
  rw [Loc.source] at read
  split at read
  · obtain rfl := Option.some.inj read
    refine ⟨(files loc.file).source.take loc.offsets.beginLoc,(files loc.file).source.drop loc.offsets.endLoc,?_,?_,?_⟩
    · have rest : (files loc.file).source.drop loc.offsets.endLoc =
          ((files loc.file).source.drop loc.offsets.beginLoc).drop (loc.offsets.endLoc - loc.offsets.beginLoc) := by
        rw [List.drop_drop,Nat.add_sub_cancel' ordered]
      rw [rest,List.append_assoc,List.take_append_drop,List.take_append_drop]
    · rw [List.length_take]
      omega
    · rw [List.length_take,List.length_take,List.length_drop]
      omega
  · cases read

theorem trimColonColonPrefix_shown (read : loc.source files = some text) (stop : loc.offsets.endLoc = pos + text.length)
    (start : loc.offsets.beginLoc = pos) (unended : ¬ [':',':'] <:+ text) :
    ∃ shown, AfterLastColons text shown ∧ shown <:+ text ∧ (text ≠ [] → shown ≠ []) ∧ ¬ [':',':'] <:+: shown ∧
      (trimColonColonPrefix files loc).offsets.beginLoc = pos + (text.length - shown.length) ∧
      (trimColonColonPrefix files loc).offsets.endLoc = loc.offsets.endLoc := by
  unfold trimColonColonPrefix
  rw [read]
  dsimp only
  cases found : rfind [':',':'] text with
  | none =>
    have absent : ¬ [':',':'] <:+: text := by
      rintro ⟨before,after,rfl⟩
      apply (rfind_none (by simp)).mp found before.length
      simp
    exact ⟨text,.inl ⟨absent,rfl⟩,List.suffix_refl _,id,absent,by simpa using start,rfl⟩
  | some i =>
    obtain ⟨⟨after,place⟩,last⟩ := (rfind_some (by simp)).mp found
    have shown_ : text.drop (i + 2) = after := by
      rw [← List.drop_drop,← place]
      rfl
    have short : i + 2 + after.length = text.length := by
      have sizes := congrArg List.length place
      simp at sizes
      omega
    refine ⟨after,.inr ⟨i,⟨after,place⟩,last,shown_.symm⟩,shown_ ▸ List.drop_suffix _ _,?_,?_,?_,rfl⟩
    · rintro - rfl
      apply unended
      rw [← List.append_nil [':',':'],place]
      exact List.drop_suffix i text
    · rintro ⟨before,others,rfl⟩
      apply last (i + 2 + before.length) (by omega)
      rw [← List.drop_drop,shown_]
      simp
    · dsimp only
      omega

theorem trimColonColonPrefix_unchanged (absent : ∀ text, loc.source files = some text → ¬ [':',':'] <:+: text) :
    trimColonColonPrefix files loc = loc := by
  unfold trimColonColonPrefix
  split
  · rfl
  · rename_i text read
    split
    · rfl
    · rename_i i found
      have starts := ((rfind_some (by simp)).mp found).1
      exact absurd (starts.isInfix.trans (List.drop_suffix _ _).isInfix) (absent text read)

-- The range of a trimmed location reads back as the text after the last double
-- colon of the location.
theorem trimmedRange_exact (files : Files) (loc : Loc) (text : Str) (inside : loc.offsets.endLoc ≤ (files loc.file).source.length)
    (read : loc.source files = some text) (filled : loc.empty = false) (unended : ¬ [':',':'] <:+ text) :
    ∃ shown, AfterLastColons text shown ∧ shown ≠ [] ∧
      readBack (files loc.file).source (fromSorbetLoc files (trimColonColonPrefix files loc)) = some shown ∧
      ((fromSorbetLoc files (trimColonColonPrefix files loc)).length = 3 ↔ '\n' ∉ shown) ∧
      (trimColonColonPrefix files loc).file = loc.file ∧
      loc.offsets.beginLoc ≤ (trimColonColonPrefix files loc).offsets.beginLoc ∧
      (trimColonColonPrefix files loc).offsets.endLoc = loc.offsets.endLoc ∧
      (trimColonColonPrefix files loc).empty = false ∧
      trimColonColonPrefix files (trimColonColonPrefix files loc) = trimColonColonPrefix files loc := by
  obtain ⟨head,tail,whole,start,stop⟩ := source_parts inside read
  obtain ⟨shown,after,⟨front,rfl⟩,some_,plain,start',stop'⟩ := trimColonColonPrefix_shown read stop start unended
  have text_some : front ++ shown ≠ [] := by
    intro nothing
    rw [nothing] at stop
    simp [Loc.empty,LocOffsets.empty,start,stop] at filled
  have size := List.length_pos_of_ne_nil (some_ text_some)
  have length : (front ++ shown).length = front.length + shown.length := List.length_append
  have whole' : (files (trimColonColonPrefix files loc).file).source = (head ++ front) ++ shown ++ tail := by
    rw [trimColonColonPrefix_file,whole]
    simp
  have begins : (trimColonColonPrefix files loc).offsets.beginLoc = (head ++ front).length := by
    rw [start',length,List.length_append,Nat.add_sub_cancel]
  have ends : (trimColonColonPrefix files loc).offsets.endLoc = (head ++ front).length + shown.length := by
    rw [stop',stop,length,List.length_append,Nat.add_assoc]
  obtain ⟨back,three⟩ := fromSorbetLoc_exact whole' begins ends
  rw [trimColonColonPrefix_file] at back
  refine ⟨shown,after,some_ text_some,back,three,trimColonColonPrefix_file _ _,by omega,stop',?_,?_⟩
  · have apart : (trimColonColonPrefix files loc).offsets.beginLoc ≠ (trimColonColonPrefix files loc).offsets.endLoc := by
      omega
    simpa [Loc.empty,LocOffsets.empty] using apart
  · apply trimColonColonPrefix_unchanged
    intro text' read'
    rw [Loc.source] at read'
    split at read'
    · have same : shown = text' := by
        rw [← Option.some.inj read',whole',begins,ends]
        simp
      rwa [← same]
    · cases read'

-- The location is that of A::B, with a line break after the colons.
def colonsFiles : Files := fun _ => ⟨[],"x = A::\nB\ny".toList⟩

def colonsLoc : Loc := ⟨1,4,9,by decide⟩

theorem trimmedRange_exact_colons : ∃ shown, AfterLastColons "A::\nB".toList shown ∧ shown ≠ [] ∧
    readBack (colonsFiles 1).source (fromSorbetLoc colonsFiles (trimColonColonPrefix colonsFiles colonsLoc)) = some shown ∧
    ((fromSorbetLoc colonsFiles (trimColonColonPrefix colonsFiles colonsLoc)).length = 3 ↔ '\n' ∉ shown) := by
  obtain ⟨shown,after,some_,back,three,_⟩ := trimmedRange_exact colonsFiles colonsLoc "A::\nB".toList (by decide) (by decide) rfl (by decide)
  exact ⟨shown,after,some_,back,three⟩

end Ranges

end Scip
