import Mathlib.Data.List.DropRight
import ScipRuby.Scip.Searching

namespace Lsp
open Scip (Str splitAt rfind)

-- absl::ascii_isspace
def isSpace (c : Char) : Bool := c == ' ' || (9 ≤ c.toNat && c.toNat ≤ 13)

def stripTrailingAsciiWhitespace (text : Str) : Str := text.rdropWhile isSpace
def stripAsciiWhitespace (text : Str) : Str := stripTrailingAsciiWhitespace (text.dropWhile isSpace)

def startsWith (text : Str) (start : String) : Bool := start.toList.isPrefixOf text
def endsWith (text : Str) (stop : String) : Bool := stop.toList.isSuffixOf text

-- The two kinds of a sig block over several lines.
inductive SigBlock where
  | braces
  | doEnd
  deriving DecidableEq,Repr

namespace SigBlock

def opens (line : Str) : SigBlock → Bool
  | braces => startsWith line "sig \x7b" || startsWith line "sig(:final) \x7b"
  | doEnd => startsWith line "sig do" || startsWith line "sig(:final) do"

-- A closing line inside of a block, which is invalid.
def closesAgain (line : Str) : SigBlock → Bool
  | braces => startsWith line "\x7d"
  | doEnd => line == "end".toList

-- A whole block in its opening line.
def isOneLine (line : Str) : SigBlock → Bool
  | braces => false
  | doEnd => (startsWith line "sig do;" || startsWith line "sig(:final) do;") && endsWith line "end"

end SigBlock

-- The branches of the loop, by the stripped line.
inductive LineKind where
  | empty
  | oneLineSig
  | closes (block : SigBlock)
  | comment (text : Str)
  | other
  deriving DecidableEq,Repr

def lineKind (line : Str) : LineKind :=
  if line.isEmpty then .empty
  else if startsWith line "sig" then .oneLineSig
  else if startsWith line "\x7d" then .closes .braces
  else if startsWith line "end" then .closes .doEnd
  else if startsWith line "#" && !startsWith line "# typed:" then
    let skipAfterHash := if startsWith line "# " then 2 else 1
    .comment (line.drop (line.idxOf '#' + skipAfterHash))
  else .other

-- A reverse iterator is the list of the lines from it up to the first line, so
-- that all_lines.rend() is []. The lines that were read stand in file order here.
inductive Reading where
  | done (documentationLines : List Str)
  | pastFirstLine
  deriving DecidableEq,Repr

-- A yarddoc line has an extra newline before it.
def addComment (comment : Str) (documentationLines : List Str) : List Str :=
  if startsWith comment "@" then [] :: comment :: documentationLines else comment :: documentationLines

mutual

def readLines : List Str → List Str → Reading
  | [],documentationLines => .done documentationLines
  | line :: above,documentationLines =>
    match lineKind (stripAsciiWhitespace line) with
    | .empty => .done documentationLines
    | .oneLineSig => readLines above documentationLines
    | .closes block =>
      -- The line above is read before the iterator is compared with rend().
      if above.isEmpty then .pastFirstLine else readBlock block above documentationLines
    | .comment text => readLines above (addComment text documentationLines)
    | .other => .done documentationLines

-- The inner loops, upwards from a closing line to the line that opens the block.
def readBlock (block : SigBlock) : List Str → List Str → Reading
  | [],documentationLines => .done documentationLines
  | line :: above,documentationLines =>
    let line := stripAsciiWhitespace line
    if block.closesAgain line then .done documentationLines
    else if block.opens line then
      if block.isOneLine line then .done documentationLines else readLines above documentationLines
    else readBlock block above documentationLines

end

-- string_view::rfind with a position: the last newline at beginIndex or before it.
def lastNewline (sourceCode : Str) (beginIndex : Nat) : Option Nat := rfind ['\n'] (sourceCode.take (beginIndex + 1))

-- substr up to npos is the whole text.
def preDefinition (sourceCode : Str) (beginIndex : Nat) : Str :=
  match lastNewline sourceCode beginIndex with
  | some newline => sourceCode.take newline
  | none => sourceCode

def allLines (sourceCode : Str) (beginIndex : Nat) : List Str := splitAt '\n' (preDefinition sourceCode beginIndex)

inductive Documentation where
  | found (documentation : Option Str)
  | pastFirstLine
  deriving DecidableEq,Repr

-- The test for no lines at all has no branch here: a split text has a line.
def findDocumentation (sourceCode : Str) (beginIndex : Nat) : Documentation :=
  match readLines (allLines sourceCode beginIndex).reverse [] with
  | .pastFirstLine => .pastFirstLine
  | .done documentationLines =>
    let documentation := stripTrailingAsciiWhitespace (['\n'].intercalate documentationLines)
    .found (if documentation.isEmpty then none else some documentation)

section Bounds
variable {line first opener : Str} {lines above rest inside front back : List Str} {block : SigBlock}

-- A line inside of a block, between the closing line and the opening one.
def SigBlock.Inside (block : SigBlock) (line : Str) : Prop :=
  block.closesAgain (stripAsciiWhitespace line) = false ∧ block.opens (stripAsciiWhitespace line) = false

structure SigBlock.Opener (block : SigBlock) (line : Str) : Prop where
  opens : block.opens (stripAsciiWhitespace line) = true
  valid : block.closesAgain (stripAsciiWhitespace line) = false
  several : block.isOneLine (stripAsciiWhitespace line) = false

-- The lines that the search leaves behind on its way up and goes on, lowest first.
inductive Passed : List Str → Prop where
  | nil : Passed []
  | sig {line : Str} {above : List Str} : lineKind (stripAsciiWhitespace line) = .oneLineSig → Passed above →
      Passed (line :: above)
  | comment {line text : Str} {above : List Str} : lineKind (stripAsciiWhitespace line) = .comment text → Passed above →
      Passed (line :: above)
  | block {line opener : Str} {block : SigBlock} {inside above : List Str} :
      lineKind (stripAsciiWhitespace line) = .closes block → (∀ l ∈ inside, block.Inside l) → block.Opener opener →
      Passed above → Passed (line :: (inside ++ opener :: above))

-- The search comes to the first line, and that line closes a block.
def TopCloses (lines : List Str) : Prop :=
  ∃ passed first block, lines = passed ++ [first] ∧ Passed passed ∧ lineKind (stripAsciiWhitespace first) = .closes block

theorem Passed.append (passed : Passed front) (passed' : Passed back) : Passed (front ++ back) := by
  induction passed with
  | nil => exact passed'
  | sig kind _ ih => exact .sig kind ih
  | comment kind _ ih => exact .comment kind ih
  | block kind inert opener _ ih =>
    have whole := Passed.block kind inert opener ih
    simpa using whole

theorem TopCloses.below (passed : Passed front) (top : TopCloses back) : TopCloses (front ++ back) := by
  obtain ⟨passed',first,block,rfl,run,kind⟩ := top
  exact ⟨front ++ passed',first,block,(List.append_assoc ..).symm,passed.append run,kind⟩

theorem readBlock_inside (inert : ∀ l ∈ inside, block.Inside l) (documentationLines : List Str) :
    readBlock block (inside ++ rest) documentationLines = readBlock block rest documentationLines := by
  induction inside with
  | nil => rfl
  | cons line inside ih =>
    obtain ⟨open_,shut⟩ := inert line List.mem_cons_self
    have inert' : ∀ l ∈ inside, block.Inside l := fun l member => inert l (List.mem_cons_of_mem _ member)
    rw [List.cons_append,readBlock]
    simp only [open_,shut,Bool.false_eq_true,if_false]
    exact ih inert'

theorem readBlock_opener (starts : block.Opener opener) (documentationLines : List Str) :
    readBlock block (opener :: above) documentationLines = readLines above documentationLines := by
  rw [readBlock]
  simp only [starts.opens,starts.valid,starts.several,Bool.false_eq_true,if_false,if_true]

theorem readLines_passed (passed : Passed front) (documentationLines : List Str) :
    ∃ documentationLines', readLines (front ++ back) documentationLines = readLines back documentationLines' := by
  induction passed generalizing documentationLines with
  | nil => exact ⟨documentationLines,rfl⟩
  | sig kind _ ih =>
    rw [List.cons_append,readLines,kind]
    exact ih documentationLines
  | comment kind _ ih =>
    rw [List.cons_append,readLines,kind]
    exact ih _
  | @block line opener block inside above kind inert starts _ ih =>
    have split : inside ++ opener :: above ++ back = inside ++ opener :: (above ++ back) := by simp
    have some_ : (inside ++ opener :: (above ++ back)).isEmpty = false := by simp
    rw [List.cons_append,readLines,kind,split]
    simp only [some_,Bool.false_eq_true,if_false]
    rw [readBlock_inside inert,readBlock_opener starts]
    exact ih documentationLines

theorem readLines_top (top : TopCloses lines) (documentationLines : List Str) :
    readLines lines documentationLines = .pastFirstLine := by
  obtain ⟨passed,first,block,rfl,run,kind⟩ := top
  obtain ⟨documentationLines',same⟩ := @readLines_passed _ [first] run documentationLines
  rw [same,readLines,kind]
  rfl

-- The two loops together, by induction on the lines that are left.
theorem topCloses_of_past (lines : List Str) :
    (∀ documentationLines, readLines lines documentationLines = .pastFirstLine → TopCloses lines) ∧
    ∀ block documentationLines, readBlock block lines documentationLines = .pastFirstLine →
      ∃ inside opener above, lines = inside ++ opener :: above ∧ (∀ l ∈ inside, block.Inside l) ∧ block.Opener opener ∧
        TopCloses above := by
  induction lines with
  | nil =>
    constructor
    · intro documentationLines past
      simp [readLines] at past
    · intro block documentationLines past
      simp [readBlock] at past
  | cons line above ih =>
    obtain ⟨ofLines,ofBlock⟩ := ih
    constructor
    · intro documentationLines past
      rw [readLines] at past
      cases kind : lineKind (stripAsciiWhitespace line) with
      | empty => simp [kind] at past
      | other => simp [kind] at past
      | oneLineSig =>
        simp only [kind] at past
        exact (ofLines _ past).below (.sig kind .nil)
      | comment text =>
        simp only [kind] at past
        exact (ofLines _ past).below (.comment kind .nil)
      | closes block =>
        simp only [kind] at past
        cases above with
        | nil => exact ⟨[],line,block,rfl,.nil,kind⟩
        | cons next above =>
          obtain ⟨inside,opener,others,split,inert,starts,top⟩ := ofBlock block documentationLines past
          rw [split]
          have below := top.below (.block kind inert starts .nil)
          simpa using below
    · intro block documentationLines past
      rw [readBlock] at past
      split at past
      · cases past
      · rename_i valid
        split at past
        · rename_i opens
          split at past
          · cases past
          · rename_i several
            have starts : block.Opener line := ⟨opens,by simpa using valid,by simpa using several⟩
            exact ⟨[],line,above,rfl,by simp,starts,ofLines _ past⟩
        · rename_i shut
          obtain ⟨inside,opener,others,split,inert,starts,top⟩ := ofBlock block documentationLines past
          refine ⟨line :: inside,opener,others,by rw [split,List.cons_append],?_,starts,top⟩
          intro l member
          obtain rfl | member' := List.mem_cons.mp member
          · exact ⟨by simpa using valid,by simpa using shut⟩
          · exact inert l member'

-- The iterator is read only at lines of the file unless the search gets up to a
-- first line that closes a block.
theorem findDocumentation_inBounds_iff (sourceCode : Str) (beginIndex : Nat) :
    findDocumentation sourceCode beginIndex ≠ .pastFirstLine ↔ ¬ TopCloses (allLines sourceCode beginIndex).reverse := by
  apply not_congr
  constructor
  · intro past
    apply (topCloses_of_past _).1 []
    unfold findDocumentation at past
    split at past
    · assumption
    · cases past
  · intro top
    rw [findDocumentation,readLines_top top]

theorem findDocumentation_past_first_line :
    ¬ ∀ sourceCode beginIndex, findDocumentation sourceCode beginIndex ≠ .pastFirstLine := by
  intro inBounds
  exact inBounds "endpoint = 1\ndef f; end".toList 13 (by decide)

end Bounds

section Locality
variable {sourceCode : Str} {beginIndex : Nat}

-- The text of the lines above the line of an index, with their line breaks.
def textAbove (sourceCode : Str) (beginIndex : Nat) : Str := (sourceCode.take beginIndex).rdropWhile (· ≠ '\n')

-- A definition starts with a character of its line.
def StartsDefinition (sourceCode : Str) (beginIndex : Nat) : Prop := ∃ c, sourceCode[beginIndex]? = some c ∧ c ≠ '\n'

-- Any other text with the same lines above a definition has the same documentation
-- there, and there is none above the first line.
def Local (sourceCode : Str) (beginIndex : Nat) : Prop :=
  (∀ sourceCode' beginIndex', StartsDefinition sourceCode' beginIndex' →
    textAbove sourceCode' beginIndex' = textAbove sourceCode beginIndex →
    findDocumentation sourceCode' beginIndex' = findDocumentation sourceCode beginIndex) ∧
  (textAbove sourceCode beginIndex = [] → findDocumentation sourceCode beginIndex = .found none)

end Locality

end Lsp
