import ScipRuby.Common.Ints
import ScipRuby.Lib.Occurrences

namespace Common.FileOps
open Occurrences

def slash : UInt8 := 0x2F

-- An absolute or relative pattern of the options: both begin with a slash.
structure IgnorePattern where
  text : List UInt8
  begins : text.head? = some slash

-- An int converted to size_t, and the largest size_t.
def toSize (value : Int) : Nat := (value % 2^64).toNat
def npos : Nat := 2^64 - 1

def endPos (ignorePattern : List UInt8) (pos : Int) : Int := toInt ((toSize pos + ignorePattern.length) % 2^64)

def isFile (path ignorePattern : List UInt8) (pos : Int) : Bool := toSize (endPos ignorePattern pos) == path.length

-- path.at throws behind the end.
def isFolder (path ignorePattern : List UInt8) (pos : Int) : Option Bool :=
  path[toSize (endPos ignorePattern pos)]?.map (· == slash)

def isFileOrFolder (path ignorePattern : List UInt8) (pos : Int) : Option Bool :=
  if isFile path ignorePattern pos then some true else isFolder path ignorePattern pos

def matchesAbsolute (relativePath : List UInt8) : List IgnorePattern → Option Bool
  | [] => some false
  | p :: patterns =>
    if relativePath.take p.text.length = p.text then do
      if ← isFileOrFolder relativePath p.text 0 then some true else matchesAbsolute relativePath patterns
    else matchesAbsolute relativePath patterns

-- The rounds of the loop over the occurrences of a pattern.
def searchLoop (relativePath p : List UInt8) : (rounds : Nat) → (pos : Int) → Option Bool
  | 0,_ => none
  | rounds+1,pos => do
    let pos := toInt ((find p relativePath (toSize pos)).getD npos)
    if toSize pos = npos then some false
    else if ← isFileOrFolder relativePath p pos then some true
    else searchLoop relativePath p rounds (toInt ((toSize pos + p.length) % 2^64))

def matchesRelative (relativePath : List UInt8) : List IgnorePattern → Option Bool
  | [] => some false
  | p :: patterns => do
    if ← searchLoop relativePath p.text (relativePath.length + 2) 0 then some true else matchesRelative relativePath patterns

def isFileIgnored (basePath filePath : List UInt8) (absoluteIgnorePatterns relativeIgnorePatterns : List IgnorePattern) :
    Option Bool := do
  let relativePath := filePath.drop basePath.length
  if ← matchesAbsolute relativePath absoluteIgnorePatterns then some true
  else matchesRelative relativePath relativeIgnorePatterns

-- An occurrence that ends at the end of the path or before a slash.
def Whole (p s : List UInt8) (i : Nat) : Prop := i + p.length = s.length ∨ s[i + p.length]? = some slash

def IgnoredAbsolute (relativePath : List UInt8) (patterns : List IgnorePattern) : Prop :=
  ∃ p ∈ patterns, OccursAt p.text relativePath 0 ∧ Whole p.text relativePath 0

def IgnoredRelative (relativePath : List UInt8) (patterns : List IgnorePattern) : Prop :=
  ∃ p ∈ patterns, ∃ i, OccursAt p.text relativePath i ∧ Whole p.text relativePath i

-- Some whole occurrence is among those taken from the left without overlaps.
def FoundRelative (relativePath : List UInt8) (patterns : List IgnorePattern) : Prop :=
  ∃ p ∈ patterns, ∃ i, Picked p.text relativePath 0 i ∧ Whole p.text relativePath i

variable {p s : List UInt8} {i pos : Nat} {pattern : IgnorePattern} {patterns : List IgnorePattern}

theorem IgnorePattern.filled (pattern : IgnorePattern) : pattern.text ≠ [] := by
  intro empty
  have begins := pattern.begins
  rw [empty] at begins
  cases begins

theorem toSize_fits (fits : pos < 2^31) : toSize pos = pos := by
  unfold toSize
  omega

theorem endPos_fits (fits : pos + p.length < 2^31) : toSize (endPos p pos) = pos + p.length := by
  rw [endPos,toSize_fits (by omega),Nat.mod_eq_of_lt (by omega),toInt_fits fits,toSize_fits fits]

-- No character behind the end of the path is read at an occurrence.
theorem isFileOrFolder_spec (short : s.length < 2^31) (inside : i + p.length ≤ s.length) :
    ∃ answer, isFileOrFolder s p i = some answer ∧ (answer = true ↔ Whole p s i) := by
  have place := @endPos_fits p i (by omega)
  rw [isFileOrFolder,isFile,isFolder,place,Whole]
  by_cases atEnd : i + p.length = s.length
  · exact ⟨true,if_pos (beq_iff_eq.mpr atEnd),iff_of_true rfl (.inl atEnd)⟩
  · rw [if_neg fun same => atEnd (beq_iff_eq.mp same),List.getElem?_eq_getElem (by omega),Option.map_some]
    refine ⟨_,rfl,?_⟩
    rw [beq_iff_eq,or_iff_right atEnd,Option.some.injEq]

theorem matchesAbsolute_spec (short : s.length < 2^31) (patterns : List IgnorePattern) :
    ∃ answer, matchesAbsolute s patterns = some answer ∧ (answer = true ↔ IgnoredAbsolute s patterns) := by
  induction patterns with
  | nil => exact ⟨false,rfl,by simp [IgnoredAbsolute]⟩
  | cons pattern patterns ih =>
    obtain ⟨later,run,exact⟩ := ih
    have split : IgnoredAbsolute s (pattern :: patterns) ↔
        (OccursAt pattern.text s 0 ∧ Whole pattern.text s 0) ∨ IgnoredAbsolute s patterns := by
      simp [IgnoredAbsolute]
    have begins : s.take pattern.text.length = pattern.text ↔ OccursAt pattern.text s 0 := by
      rw [OccursAt,List.drop_zero,List.prefix_iff_eq_take]
      exact eq_comm
    rw [matchesAbsolute,split]
    by_cases occurs : OccursAt pattern.text s 0
    · have fits := occurs.fits pattern.filled
      obtain ⟨here,tested,whole⟩ := @isFileOrFolder_spec pattern.text s 0 short fits
      rw [if_pos (begins.mpr occurs),and_iff_right occurs,← whole]
      change ∃ answer, ((isFileOrFolder s pattern.text (0 : Nat)).bind _) = some answer ∧ _
      rw [tested,Option.bind_some]
      cases here with
      | true => exact ⟨true,rfl,by simp⟩
      | false => exact ⟨later,run,by simp [exact]⟩
    · rw [if_neg fun same => occurs (begins.mp same),run]
      exact ⟨later,rfl,by simp [exact,occurs]⟩

-- Each round moves on behind an occurrence, which is not empty.
theorem searchLoop_spec {rounds : Nat} (filled : p ≠ []) (short : s.length < 2^31) (start : pos ≤ s.length)
    (enough : s.length + 1 < pos + rounds) :
    ∃ answer, searchLoop s p rounds pos = some answer ∧ (answer = true ↔ ∃ i, Picked p s pos i ∧ Whole p s i) := by
  have some_ : 0 < p.length := List.length_pos_iff.mpr filled
  induction rounds generalizing pos with
  | zero => omega
  | succ rounds ih =>
    rw [searchLoop,toSize_fits (by omega)]
    cases found : find p s pos with
    | none =>
      refine ⟨false,rfl,iff_of_false Bool.false_ne_true ?_⟩
      rintro ⟨i,picked,_⟩
      exact picked_none (find_none filled found) picked
    | some i =>
      have leftmost := find_some found
      have fits := leftmost.occurs.fits filled
      obtain ⟨here,tested,whole⟩ := @isFileOrFolder_spec p s i short fits
      have notLast : i ≠ npos := by
        unfold npos
        omega
      have cases_ : (∃ j, Picked p s pos j ∧ Whole p s j) ↔ Whole p s i ∨ ∃ j, Picked p s (i + p.length) j ∧ Whole p s j := by
        simp only [picked_iff leftmost,or_and_right,exists_or,exists_eq_left]
      rw [Option.getD_some,toInt_fits (by omega : i < 2^31),toSize_fits (by omega : i < 2^31)]
      rw [if_neg notLast,tested,Nat.mod_eq_of_lt (by omega),toInt_fits (by omega : i + p.length < 2^31),cases_,← whole,
        Option.bind_eq_bind,Option.bind_some]
      cases here with
      | true => exact ⟨true,rfl,by simp⟩
      | false =>
        obtain ⟨later,run,exact⟩ := @ih (i + p.length) fits (by have := leftmost.after; omega)
        exact ⟨later,run,by simp [exact]⟩

theorem matchesRelative_spec (short : s.length < 2^31) (patterns : List IgnorePattern) :
    ∃ answer, matchesRelative s patterns = some answer ∧ (answer = true ↔ FoundRelative s patterns) := by
  induction patterns with
  | nil => exact ⟨false,rfl,by simp [FoundRelative]⟩
  | cons pattern patterns ih =>
    obtain ⟨later,run,exact⟩ := ih
    obtain ⟨here,search,found⟩ := @searchLoop_spec pattern.text s 0 (s.length + 2) pattern.filled short (Nat.zero_le _) (by omega)
    have split : FoundRelative s (pattern :: patterns) ↔
        (∃ i, Picked pattern.text s 0 i ∧ Whole pattern.text s i) ∨ FoundRelative s patterns := by
      simp [FoundRelative]
    rw [matchesRelative,split,← found]
    change ∃ answer, ((searchLoop s pattern.text (s.length + 2) (0 : Nat)).bind _) = some answer ∧ _
    rw [search,Option.bind_some]
    cases here with
    | true => exact ⟨true,rfl,by simp⟩
    | false => exact ⟨later,run,by simp [exact]⟩

section Main
variable {basePath filePath : List UInt8} {absolute relative : List IgnorePattern}

-- What isFileIgnored returns: it never throws and the loops end.
theorem isFileIgnored_spec (short : (filePath.drop basePath.length).length < 2^31) :
    ∃ answer, isFileIgnored basePath filePath absolute relative = some answer ∧
      (answer = true ↔ IgnoredAbsolute (filePath.drop basePath.length) absolute ∨
        FoundRelative (filePath.drop basePath.length) relative) := by
  obtain ⟨first,run,ignored⟩ := matchesAbsolute_spec short absolute
  obtain ⟨second,run',found⟩ := matchesRelative_spec short relative
  rw [isFileIgnored,run,← ignored,← found,Option.bind_eq_bind,Option.bind_some]
  cases first with
  | true => exact ⟨true,rfl,by simp⟩
  | false => exact ⟨second,run',by simp⟩

theorem FoundRelative.ignored (found : FoundRelative s patterns) : IgnoredRelative s patterns := by
  obtain ⟨p,member,i,picked,whole⟩ := found
  exact ⟨p,member,i,picked.occurs,whole⟩

-- Where no pattern overlaps itself in the path, the search misses nothing.
theorem foundRelative_of_apart (apart : ∀ p ∈ patterns, ∀ i j, OccursAt p.text s i → OccursAt p.text s j → i < j → i + p.text.length ≤ j) :
    FoundRelative s patterns ↔ IgnoredRelative s patterns := by
  refine ⟨FoundRelative.ignored,?_⟩
  rintro ⟨p,member,i,occurs,whole⟩
  exact ⟨p,member,i,picked_of_apart p.filled (apart p member) (Nat.zero_le i) occurs,whole⟩

-- The patterns are matched as meant exactly when a whole occurrence of a relative pattern is
-- not hidden behind overlapping ones.
theorem isFileIgnored_iff (basePath filePath : List UInt8) (absolute relative : List IgnorePattern)
    (below : basePath <+: filePath) (short : filePath.length < 2^31) :
    (∃ answer, isFileIgnored basePath filePath absolute relative = some answer ∧
      (answer = true ↔ IgnoredAbsolute (filePath.drop basePath.length) absolute ∨
        IgnoredRelative (filePath.drop basePath.length) relative)) ↔
    (IgnoredRelative (filePath.drop basePath.length) relative →
      IgnoredAbsolute (filePath.drop basePath.length) absolute ∨ FoundRelative (filePath.drop basePath.length) relative) := by
  have fits : (filePath.drop basePath.length).length < 2^31 := by
    have base := below.length_le
    rw [List.length_drop]
    omega
  obtain ⟨answer,run,exact⟩ := @isFileIgnored_spec basePath filePath absolute relative fits
  have weaker := @FoundRelative.ignored (filePath.drop basePath.length) relative
  constructor
  · rintro ⟨other,run',meant⟩ ignored
    rw [run,Option.some.injEq] at run'
    subst run'
    exact exact.mp (meant.mpr (.inr ignored))
  · intro visible
    refine ⟨answer,run,exact.trans ?_⟩
    constructor
    · exact Or.imp_right weaker
    · exact fun ignored => ignored.elim .inl visible

-- The pattern "/ab/a", the base "/x" and the path "/x/ab/ab/a" below it.
def abPattern : IgnorePattern := ⟨[0x2F,0x61,0x62,0x2F,0x61],rfl⟩
def abBase : List UInt8 := [0x2F,0x78]
def abFile : List UInt8 := [0x2F,0x78,0x2F,0x61,0x62,0x2F,0x61,0x62,0x2F,0x61]

theorem isFileIgnored_iff_ab :
    (∃ answer, isFileIgnored abBase abFile [] [abPattern] = some answer ∧
      (answer = true ↔ IgnoredAbsolute (abFile.drop abBase.length) [] ∨
        IgnoredRelative (abFile.drop abBase.length) [abPattern])) ↔
    (IgnoredRelative (abFile.drop abBase.length) [abPattern] →
      IgnoredAbsolute (abFile.drop abBase.length) [] ∨ FoundRelative (abFile.drop abBase.length) [abPattern]) :=
  isFileIgnored_iff abBase abFile [] [abPattern] (List.prefix_append abBase _) (by decide)

-- The occurrence at 0 goes on with a letter, and the search for the next one starts behind the
-- beginning of the occurrence at 3.
theorem isFileIgnored_overlap : ¬∃ answer, isFileIgnored abBase abFile [] [abPattern] = some answer ∧
    (answer = true ↔ IgnoredAbsolute (abFile.drop abBase.length) [] ∨
      IgnoredRelative (abFile.drop abBase.length) [abPattern]) := by
  rintro ⟨answer,run,meant⟩
  have missed : isFileIgnored abBase abFile [] [abPattern] = some false := by decide
  rw [missed,Option.some.injEq] at run
  subst run
  have occurs : OccursAt abPattern.text (abFile.drop abBase.length) 3 := ⟨[],rfl⟩
  cases meant.mpr (.inr ⟨abPattern,List.mem_singleton.mpr rfl,3,occurs,.inl rfl⟩)

end Main
end Common.FileOps
