import Mathlib.Data.List.Induction
import Mathlib.Data.List.TakeWhile
import ScipRuby.Scip.Searching

namespace Scip

-- Three components, compared from the left.
structure Version where
  major : Nat
  minor : Nat
  patch : Nat
  deriving DecidableEq,Repr

def Version.before (version other : Version) : Bool :=
  version.major < other.major || (version.major == other.major && (version.minor < other.minor ||
    (version.minor == other.minor && version.patch < other.patch)))

-- Each call of getline: a last piece without any character is no line.
def getlines (contents : Str) : List Str :=
  let pieces := splitAt '\n' contents
  if pieces.getLast? = some [] then pieces.dropLast else pieces

def popReturn (line : Str) : Str := if line.getLast? = some '\r' then line.dropLast else line

def runtimePrefix : Str := "    sorbet-runtime (".toList

def specsLine : Str := "  specs:".toList

def gemSection : Str := "GEM".toList

def isDigit (c : Char) : Bool := '0' ≤ c && c ≤ '9'

def digitsValue (digits : Str) : Nat := digits.foldl (fun value c => 10 * value + (c.toNat - '0'.toNat)) 0

-- One group of digits and the character after it.
def matchGroup (closing : Char) (line : Str) : Option (Str × Str) :=
  match line.takeWhile isDigit,line.dropWhile isDigit with
  | [],_ => none
  | digits,c :: rest => if c = closing then some (digits,rest) else none
  | _,[] => none

-- The three groups of the regular expression of released versions, matched
-- against the whole line.
def releasedVersion (line : Str) : Option (Str × Str × Str) :=
  if runtimePrefix.isPrefixOf line then
    (matchGroup '.' (line.drop runtimePrefix.length)).bind fun (major,line) =>
      (matchGroup '.' line).bind fun (minor,line) =>
        (matchGroup ')' line).bind fun (patch,line) => if line = [] then some (major,minor,patch) else none
  else none

-- absl::SimpleAtoi on digits only, for a number of 32 bits.
def simpleAtoi (digits : Str) : Option Nat := if digitsValue digits < 4294967296 then some (digitsValue digits) else none

def parseVersion (line : Str) : Option Version :=
  (releasedVersion line).bind fun (major,minor,patch) =>
    (simpleAtoi major).bind fun major => (simpleAtoi minor).bind fun minor =>
      (simpleAtoi patch).map fun patch => ⟨major,minor,patch⟩

def isSection (line : Str) : Bool := line != [] && line.head? != some ' '

def introducedTModule : Version := ⟨0,6,12698⟩

-- The loop over the lines, with the section, whether a specs list is open, and
-- the version seen so far.
def usesLegacyLoop (lockSection : Str) (specs : Bool) (pin : Option Version) : List Str → Bool
  | [] => pin.any (·.before introducedTModule)
  | line :: rest =>
    if isSection (popReturn line) then usesLegacyLoop (popReturn line) false pin rest
    else if popReturn line = specsLine then usesLegacyLoop lockSection true pin rest
    else if specs && runtimePrefix.isPrefixOf (popReturn line) then
      if lockSection ≠ gemSection then false
      else match parseVersion (popReturn line) with
        | none => false
        | some version => if pin.any (· != version) then false else usesLegacyLoop lockSection specs (some version) rest
    else usesLegacyLoop lockSection specs pin rest

-- The contents are none when there is no Gemfile.lock.
def usesLegacyTModule (contents : Option Str) : Bool :=
  match contents with
  | none => false
  | some contents => usesLegacyLoop [] false none (getlines contents)

section Specification

-- The last section line, or nothing before the first one.
def Heads (lines : List Str) (lockSection : Str) : Prop :=
  (∃ before after, lines = before ++ lockSection :: after ∧ isSection lockSection = true ∧ ∀ line ∈ after, isSection line = false) ∨
    (lockSection = [] ∧ ∀ line ∈ lines, isSection line = false)

-- The line is a runtime entry of a specs list of the section.
def Listed (lines : List Str) (lockSection line : Str) : Prop :=
  runtimePrefix <+: line ∧ ∃ before between after, lines = before ++ specsLine :: (between ++ line :: after) ∧
    Heads before lockSection ∧ ∀ other ∈ between, isSection other = false

def Digits (text : Str) : Prop := text ≠ [] ∧ ∀ c ∈ text, isDigit c = true

-- A plain major.minor.patch version whose components fit in 32 bits.
def PlainVersion (line : Str) (version : Version) : Prop :=
  ∃ major minor patch, Digits major ∧ Digits minor ∧ Digits patch ∧
    line = runtimePrefix ++ (major ++ '.' :: (minor ++ '.' :: (patch ++ [')']))) ∧
    version = ⟨digitsValue major,digitsValue minor,digitsValue patch⟩ ∧
    digitsValue major < 4294967296 ∧ digitsValue minor < 4294967296 ∧ digitsValue patch < 4294967296

end Specification

section Parsing
variable {closing : Char} {line digits rest : Str}

theorem digits_span (digits_ : Digits digits) (stop : isDigit closing = false) :
    (digits ++ closing :: rest).takeWhile isDigit = digits ∧ (digits ++ closing :: rest).dropWhile isDigit = closing :: rest := by
  rw [List.takeWhile_append_of_pos digits_.2,List.dropWhile_append_of_pos digits_.2,
    List.takeWhile_cons_of_neg (by simp [stop]),List.dropWhile_cons_of_neg (by simp [stop]),List.append_nil]
  exact ⟨rfl,rfl⟩

theorem matchGroup_some (stop : isDigit closing = false) :
    matchGroup closing line = some (digits,rest) ↔ Digits digits ∧ line = digits ++ closing :: rest := by
  constructor
  · intro matched
    have whole := @List.takeWhile_append_dropWhile _ isDigit line
    have all : ∀ c ∈ line.takeWhile isDigit, isDigit c = true := fun c member => List.mem_takeWhile_imp member
    unfold matchGroup at matched
    cases taken : line.takeWhile isDigit with
    | nil =>
      rw [taken] at matched
      cases matched
    | cons first others =>
      cases dropped : line.dropWhile isDigit with
      | nil =>
        rw [taken,dropped] at matched
        cases matched
      | cons c after =>
        rw [taken] at all whole
        rw [dropped] at whole
        rw [taken,dropped] at matched
        dsimp only at matched
        split at matched
        · rename_i same
          cases matched
          exact ⟨⟨by simp,all⟩,by rw [← whole,same]⟩
        · cases matched
  · rintro ⟨digits_,rfl⟩
    obtain ⟨taken,dropped⟩ := digits_span digits_ stop
    obtain ⟨first,others,rfl⟩ := List.exists_cons_of_ne_nil digits_.1
    rw [matchGroup,taken,dropped]
    exact if_pos rfl

theorem releasedVersion_some {major minor patch : Str} : releasedVersion line = some (major,minor,patch) ↔
    Digits major ∧ Digits minor ∧ Digits patch ∧
      line = runtimePrefix ++ (major ++ '.' :: (minor ++ '.' :: (patch ++ [')']))) := by
  constructor
  · intro matched
    rw [releasedVersion] at matched
    split at matched
    · rename_i starts
      obtain ⟨line,rfl⟩ := List.isPrefixOf_iff_prefix.mp starts
      rw [List.drop_left] at matched
      obtain ⟨⟨_,_⟩,first,matched⟩ := Option.bind_eq_some_iff.mp matched
      obtain ⟨⟨_,_⟩,second,matched⟩ := Option.bind_eq_some_iff.mp matched
      obtain ⟨⟨_,_⟩,third,matched⟩ := Option.bind_eq_some_iff.mp matched
      dsimp only at second third matched
      split at matched
      · rename_i ended
        cases matched
        obtain ⟨majors,rfl⟩ := (matchGroup_some (by decide)).mp first
        obtain ⟨minors,rfl⟩ := (matchGroup_some (by decide)).mp second
        obtain ⟨patches,rfl⟩ := (matchGroup_some (by decide)).mp third
        exact ⟨majors,minors,patches,by rw [ended]⟩
      · cases matched
    · cases matched
  · rintro ⟨majors,minors,patches,rfl⟩
    rw [releasedVersion,if_pos (List.isPrefixOf_iff_prefix.mpr (List.prefix_append _ _)),List.drop_left,
      (matchGroup_some (by decide)).mpr ⟨majors,rfl⟩]
    change Option.bind (matchGroup '.' _) _ = _
    rw [(matchGroup_some (by decide)).mpr ⟨minors,rfl⟩]
    change Option.bind (matchGroup ')' _) _ = _
    rw [(matchGroup_some (by decide)).mpr ⟨patches,rfl⟩]
    rfl

theorem simpleAtoi_some {value : Nat} : simpleAtoi digits = some value ↔ value = digitsValue digits ∧ digitsValue digits < 4294967296 := by
  rw [simpleAtoi]
  split
  · rename_i fits
    simp [fits,eq_comm]
  · rename_i large
    simp [large]

theorem parseVersion_some {version : Version} : parseVersion line = some version ↔ PlainVersion line version := by
  constructor
  · intro parsed
    obtain ⟨⟨major,minor,patch⟩,matched,parsed⟩ := Option.bind_eq_some_iff.mp parsed
    obtain ⟨first,major',parsed⟩ := Option.bind_eq_some_iff.mp parsed
    obtain ⟨second,minor',parsed⟩ := Option.bind_eq_some_iff.mp parsed
    obtain ⟨third,patch',rfl⟩ := Option.map_eq_some_iff.mp parsed
    obtain ⟨rfl,fits⟩ := simpleAtoi_some.mp major'
    obtain ⟨rfl,fits'⟩ := simpleAtoi_some.mp minor'
    obtain ⟨rfl,fitsPatch⟩ := simpleAtoi_some.mp patch'
    obtain ⟨majors,minors,patches,line⟩ := releasedVersion_some.mp matched
    exact ⟨major,minor,patch,majors,minors,patches,line,rfl,fits,fits',fitsPatch⟩
  · rintro ⟨major,minor,patch,majors,minors,patches,line,rfl,fits,fits',fitsPatch⟩
    rw [parseVersion,releasedVersion_some.mpr ⟨majors,minors,patches,line⟩]
    dsimp only [Option.bind]
    rw [simpleAtoi_some.mpr ⟨rfl,fits⟩,simpleAtoi_some.mpr ⟨rfl,fits'⟩,simpleAtoi_some.mpr ⟨rfl,fitsPatch⟩]
    rfl

end Parsing

section Entries
variable {lines before after : List Str} {lockSection line : Str} {state : Str × Bool} {pin : Option Version}

def lockStep (state : Str × Bool) (line : Str) : Str × Bool :=
  if isSection line then (line,false) else if line = specsLine then (state.1,true) else state

def entries (state : Str × Bool) : List Str → List (Str × Str)
  | [] => []
  | line :: rest =>
    (if state.2 && runtimePrefix.isPrefixOf line then [(state.1,line)] else []) ++ entries (lockStep state line) rest

-- The version that an entry gives, if it is accepted.
def accepted (entry : Str × Str) : Option Version := if entry.1 = gemSection then parseVersion entry.2 else none

def verdict (pin : Option Version) : List (Str × Str) → Bool
  | [] => pin.any (·.before introducedTModule)
  | entry :: rest =>
    match accepted entry with
    | none => false
    | some version => if pin.any (· != version) then false else verdict (some version) rest

theorem entry_inside (starts : runtimePrefix <+: line) : isSection line = false ∧ line ≠ specsLine := by
  have blank : runtimePrefix.head? = some ' ' := by decide
  have long : specsLine.length < runtimePrefix.length := by decide
  constructor
  · have first : line.head? = some ' ' := by
      obtain ⟨rest,rfl⟩ := starts
      rw [List.head?_append,blank]
      rfl
    rw [isSection,first]
    simp
  · intro same
    have short := starts.length_le
    rw [same] at short
    omega

theorem lockStep_entry (starts : runtimePrefix <+: line) : lockStep state line = state := by
  obtain ⟨inside,other⟩ := entry_inside starts
  rw [lockStep,inside,if_neg Bool.false_ne_true,if_neg other]

theorem usesLegacyLoop_eq :
    usesLegacyLoop state.1 state.2 pin lines = verdict pin (entries state (lines.map popReturn)) := by
  induction lines generalizing state pin with
  | nil => rfl
  | cons line rest ih =>
    rw [usesLegacyLoop,List.map_cons,entries]
    by_cases starts : runtimePrefix <+: popReturn line
    · obtain ⟨inside,other⟩ := entry_inside starts
      rw [lockStep_entry starts,List.isPrefixOf_iff_prefix.mpr starts,inside,if_neg Bool.false_ne_true,if_neg other]
      obtain ⟨lockSection,specs⟩ := state
      cases specs with
      | false => exact @ih (lockSection,false) pin
      | true =>
        change _ = verdict pin ((lockSection,popReturn line) :: entries (lockSection,true) (rest.map popReturn))
        rw [verdict,accepted]
        dsimp only [Bool.true_and]
        rw [if_pos (Bool.and_self true)]
        by_cases gem : lockSection = gemSection
        · rw [if_neg (not_not.mpr gem),if_pos gem]
          cases parseVersion (popReturn line) with
          | none => rfl
          | some version =>
            dsimp only
            rw [← @ih (lockSection,true) (some version)]
        · rw [if_pos gem,if_neg gem]
    · have unlisted : runtimePrefix.isPrefixOf (popReturn line) = false := by
        exact Bool.eq_false_iff.mpr (mt List.isPrefixOf_iff_prefix.mp starts)
      rw [unlisted,Bool.and_false,if_neg Bool.false_ne_true,if_neg Bool.false_ne_true,List.nil_append,lockStep]
      split
      · exact @ih (popReturn line,false) pin
      · split
        · exact @ih (state.1,true) pin
        · exact ih

theorem verdict_some {version : Version} {listed : List (Str × Str)} :
    verdict (some version) listed = true ↔ version.before introducedTModule = true ∧ ∀ entry ∈ listed, accepted entry = some version := by
  induction listed with
  | nil => simp [verdict]
  | cons entry rest ih =>
    rw [verdict,List.forall_mem_cons]
    cases parsed : accepted entry with
    | none => simp
    | some other =>
      by_cases same : version = other
      · subst same
        simp [ih]
      · simp [same,Ne.symm same]

theorem verdict_none {listed : List (Str × Str)} : verdict none listed = true ↔
    listed ≠ [] ∧ ∃ version, version.before introducedTModule = true ∧ ∀ entry ∈ listed, accepted entry = some version := by
  cases listed with
  | nil => simp [verdict]
  | cons entry rest =>
    rw [verdict]
    cases parsed : accepted entry with
    | none => simp [parsed]
    | some version => simp [parsed,verdict_some]

theorem mem_entries {lockSection : Str} : (lockSection,line) ∈ entries state lines ↔
    runtimePrefix <+: line ∧ ∃ before after, lines = before ++ line :: after ∧ before.foldl lockStep state = (lockSection,true) := by
  induction lines generalizing state with
  | nil => simp [entries]
  | cons first rest ih =>
    rw [entries,List.mem_append,ih]
    constructor
    · rintro (here | ⟨starts,before,after,rfl,reached⟩)
      · split at here
        · rename_i open_
          obtain ⟨specs,starts⟩ := (Bool.and_eq_true _ _).mp open_
          cases List.mem_singleton.mp here
          exact ⟨List.isPrefixOf_iff_prefix.mp starts,[],rest,rfl,Prod.ext rfl specs⟩
        · cases here
      · exact ⟨starts,first :: before,after,rfl,reached⟩
    · rintro ⟨starts,before,after,whole,reached⟩
      cases before with
      | nil =>
        obtain ⟨rfl,rfl⟩ := List.cons.inj whole
        obtain rfl : state = (lockSection,true) := reached
        exact .inl (by simp [List.isPrefixOf_iff_prefix.mpr starts])
      | cons _ before =>
        obtain ⟨rfl,rfl⟩ := List.cons.inj whole
        exact .inr ⟨starts,before,after,rfl,reached⟩

end Entries

section States
variable {lines before : List Str} {lockSection line : Str}

theorem Heads.append (heads : Heads lines lockSection) (inside : isSection line = false) : Heads (lines ++ [line]) lockSection := by
  obtain ⟨before,after,rfl,opens,others⟩ | ⟨rfl,others⟩ := heads
  · refine .inl ⟨before,after ++ [line],by simp,opens,?_⟩
    simpa [or_imp,forall_and,inside] using others
  · refine .inr ⟨rfl,?_⟩
    simpa [or_imp,forall_and,inside] using others

-- The state after some lines: their last section, and whether that section has
-- opened a specs list.
theorem lockState_heads : Heads lines (lines.foldl lockStep ([],false)).1 := by
  induction lines using List.reverseRecOn with
  | nil => exact .inr ⟨rfl,by simp⟩
  | append_singleton lines line ih =>
    rw [List.foldl_append,List.foldl_cons,List.foldl_nil,lockStep]
    split
    · rename_i opens
      exact .inl ⟨lines,[],rfl,opens,by simp⟩
    · rename_i inside
      have inside' := Bool.eq_false_iff.mpr inside
      split
      · exact ih.append inside'
      · exact ih.append inside'

theorem foldl_inside {state : Str × Bool} (others : ∀ line ∈ lines, isSection line = false) :
    (lines.foldl lockStep state).1 = state.1 ∧ (state.2 = true → (lines.foldl lockStep state).2 = true) := by
  induction lines generalizing state with
  | nil => exact ⟨rfl,id⟩
  | cons line rest ih =>
    obtain ⟨first,others⟩ := List.forall_mem_cons.mp others
    obtain ⟨same,still⟩ := @ih (lockStep state line) others
    rw [List.foldl_cons,same]
    have step : (lockStep state line).1 = state.1 ∧ (state.2 = true → (lockStep state line).2 = true) := by
      rw [lockStep,first,if_neg Bool.false_ne_true]
      split
      · exact ⟨rfl,fun _ => rfl⟩
      · exact ⟨rfl,id⟩
    exact ⟨step.1,fun on => still (step.2 on)⟩

theorem Heads.lockState (heads : Heads lines lockSection) : (lines.foldl lockStep ([],false)).1 = lockSection := by
  obtain ⟨before,after,rfl,opens,others⟩ | ⟨rfl,others⟩ := heads
  · rw [List.foldl_append,List.foldl_cons,(foldl_inside others).1,lockStep,if_pos opens]
  · exact (foldl_inside others).1

theorem specsLine_inside : isSection specsLine = false := by decide

theorem lockState_specs : lines.foldl lockStep ([],false) = (lockSection,true) ↔
    ∃ before between, lines = before ++ specsLine :: between ∧ Heads before lockSection ∧
      ∀ other ∈ between, isSection other = false := by
  constructor
  · intro reached
    induction lines using List.reverseRecOn with
    | nil => cases reached
    | append_singleton lines line ih =>
      rw [List.foldl_append,List.foldl_cons,List.foldl_nil,lockStep] at reached
      split at reached
      · cases reached
      · rename_i inside
        split at reached
        · rename_i same
          cases reached
          exact ⟨lines,[],by rw [same],lockState_heads,by simp⟩
        · obtain ⟨before,between,rfl,heads,others⟩ := ih reached
          refine ⟨before,between ++ [line],by simp,heads,?_⟩
          simpa [or_imp,forall_and,Bool.eq_false_iff.mpr inside] using others
  · rintro ⟨before,between,rfl,heads,others⟩
    have opened : lockStep (before.foldl lockStep ([],false)) specsLine = (lockSection,true) := by
      rw [lockStep,specsLine_inside,if_neg Bool.false_ne_true,if_pos rfl,heads.lockState]
    rw [List.foldl_append,List.foldl_cons,opened]
    obtain ⟨same,still⟩ := @foldl_inside between (lockSection,true) others
    exact Prod.ext same (still rfl)

theorem listed_iff : Listed lines lockSection line ↔ (lockSection,line) ∈ entries ([],false) lines := by
  rw [mem_entries,Listed]
  apply and_congr_right
  intro starts
  constructor
  · rintro ⟨before,between,after,rfl,heads,others⟩
    exact ⟨before ++ specsLine :: between,after,by simp,lockState_specs.mpr ⟨before,between,rfl,heads,others⟩⟩
  · rintro ⟨earlier,after,rfl,reached⟩
    obtain ⟨before,between,rfl,heads,others⟩ := lockState_specs.mp reached
    exact ⟨before,between,after,by simp,heads,others⟩

end States

section Results
variable {lines : List Str} {lockSection line : Str} {version : Version}

theorem accepted_some : accepted (lockSection,line) = some version ↔ lockSection = gemSection ∧ PlainVersion line version := by
  rw [accepted,← parseVersion_some]
  split
  · rename_i gem
    simp [show lockSection = gemSection from gem]
  · rename_i other
    simp [show lockSection ≠ gemSection from other]

-- Some lines, then whole sections one after the other.
def Sectioned (lines preamble : List Str) (sections : List (List Str)) : Prop :=
  lines = preamble ++ sections.flatten ∧ ∀ block ∈ sections, ∃ header body, block = header :: body ∧ isSection header = true

theorem entries_append {state : Str × Bool} {first second : List Str} :
    entries state (first ++ second) = entries state first ++ entries (first.foldl lockStep state) second := by
  induction first generalizing state with
  | nil => rfl
  | cons line rest ih => rw [List.cons_append,entries,entries,ih,List.foldl_cons,List.append_assoc]

theorem entries_header {state : Str × Bool} {header : Str} (opens : isSection header = true) (body : List Str) :
    entries state (header :: body) = entries (header,false) body := by
  have unlisted : runtimePrefix.isPrefixOf header = false := by
    apply Bool.eq_false_iff.mpr
    intro starts
    rw [(entry_inside (List.isPrefixOf_iff_prefix.mp starts)).1] at opens
    cases opens
  rw [entries,unlisted,Bool.and_false,if_neg Bool.false_ne_true,List.nil_append,lockStep,if_pos opens]

theorem entries_sections {state : Str × Bool} {sections : List (List Str)}
    (headed : ∀ block ∈ sections, ∃ header body, block = header :: body ∧ isSection header = true) :
    entries state sections.flatten = sections.flatMap (entries ([],false)) := by
  induction sections generalizing state with
  | nil => rfl
  | cons block rest ih =>
    obtain ⟨⟨header,body,rfl,opens⟩,others⟩ := List.forall_mem_cons.mp headed
    rw [List.flatten_cons,entries_append,ih others,entries_header opens,List.flatMap_cons,entries_header opens]

theorem verdict_members {listed listed' : List (Str × Str)} (same : ∀ entry, entry ∈ listed ↔ entry ∈ listed') :
    verdict none listed = verdict none listed' := by
  apply Bool.eq_iff_iff.mpr
  rw [verdict_none,verdict_none]
  simp only [same,ne_eq,List.eq_nil_iff_forall_not_mem]

theorem verdict_listed {lines : List Str} : verdict none (entries ([],false) lines) = true ↔
    (∃ lockSection line, Listed lines lockSection line) ∧
      ∃ version, version.before introducedTModule = true ∧
        ∀ lockSection line, Listed lines lockSection line → lockSection = gemSection ∧ PlainVersion line version := by
  have filled : entries ([],false) lines ≠ [] ↔ ∃ lockSection line, (lockSection,line) ∈ entries ([],false) lines := by
    simp only [ne_eq,List.eq_nil_iff_forall_not_mem,Prod.forall,not_forall,not_not]
  simp only [verdict_none,listed_iff,← accepted_some,filled,Prod.forall]

-- The answer depends only on the entries of the specs lists, and not on the
-- order of the sections.
theorem usesLegacyTModule_exact (contents : Str) :
    (usesLegacyTModule (some contents) = true ↔
      (∃ lockSection line, Listed ((getlines contents).map popReturn) lockSection line) ∧
      ∃ version, version.before introducedTModule = true ∧
        ∀ lockSection line, Listed ((getlines contents).map popReturn) lockSection line →
          lockSection = gemSection ∧ PlainVersion line version) ∧
    ∀ contents' preamble sections sections',
      Sectioned ((getlines contents).map popReturn) preamble sections →
      Sectioned ((getlines contents').map popReturn) preamble sections' → sections.Perm sections' →
      usesLegacyTModule (some contents') = usesLegacyTModule (some contents) := by
  have run : ∀ contents, usesLegacyTModule (some contents) = verdict none (entries ([],false) ((getlines contents).map popReturn)) :=
    fun contents => @usesLegacyLoop_eq (getlines contents) ([],false) none
  constructor
  · rw [run]
    exact verdict_listed
  · rintro contents' preamble sections sections' ⟨lines,headed⟩ ⟨lines',headed'⟩ perm
    rw [run,run,lines,lines',entries_append,entries_append,entries_sections headed,entries_sections headed']
    apply verdict_members
    intro entry
    rw [List.mem_append,List.mem_append,(perm.flatMap_right _).mem_iff]

-- Two sections with CRLF line ends, and the same sections the other way round.
theorem usesLegacyTModule_exact_swapped :
    usesLegacyTModule (some "GEM\r\n  specs:\r\n    sorbet-runtime (0.5.10)\r\nPLATFORMS\r\n  ruby".toList) = true ∧
    usesLegacyTModule (some "PLATFORMS\n  ruby\nGEM\n  specs:\n    sorbet-runtime (0.5.10)\n".toList) = true := by
  have first : usesLegacyTModule (some "GEM\r\n  specs:\r\n    sorbet-runtime (0.5.10)\r\nPLATFORMS\r\n  ruby".toList) = true := by
    decide +kernel
  refine ⟨first,?_⟩
  rw [← first]
  exact (usesLegacyTModule_exact _).2 "PLATFORMS\n  ruby\nGEM\n  specs:\n    sorbet-runtime (0.5.10)\n".toList []
    [["GEM".toList,"  specs:".toList,"    sorbet-runtime (0.5.10)".toList],["PLATFORMS".toList,"  ruby".toList]]
    [["PLATFORMS".toList,"  ruby".toList],["GEM".toList,"  specs:".toList,"    sorbet-runtime (0.5.10)".toList]]
    ⟨by decide +kernel,by simp; decide +kernel⟩ ⟨by decide +kernel,by simp; decide +kernel⟩ (List.Perm.swap _ _ _)

end Results

end Scip
