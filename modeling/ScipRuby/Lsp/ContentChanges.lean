import ScipRuby.Lib.Splicing
import ScipRuby.Scip.Positions

namespace Lsp
open Scip
variable {files : Files} {loc : Loc} {range : Range} {text new final : Str} {off : Nat}

-- Conversions between int and uint32_t wrap.
def int32 (n : Nat) : Int := Int.bmod n 4294967296

def ofInt32 (i : Int) : Nat := (i % 4294967296).toNat

structure Position where
  line : Int
  character : Int
  deriving DecidableEq

structure Range where
  start : Position
  stop : Position
  deriving DecidableEq

-- All numbers of a range are zero-based, those of a location start at 1.
def Range.fromLoc (files : Files) (loc : Loc) : Option Range :=
  if !loc.exists then none
  else
    let (first,second) := loc.toDetails files
    some ⟨⟨int32 (first.line - 1),int32 (first.column - 1)⟩,⟨int32 (second.line - 1),int32 (second.column - 1)⟩⟩

structure TextDocumentContentChangeEvent where
  range : Option Range
  text : Str

-- string::replace; a count that runs past the end takes all that is left.
def replace (source : Str) (start count : Nat) (text : Str) : Str := source.take start ++ text ++ source.drop (start + count)

def detailOf (position : Position) : Detail := ⟨ofInt32 (position.line + 1),ofInt32 (position.character + 1)⟩

-- Nothing comes out where the file is refused for its size, or where an offset has
-- no value.
def TextDocumentContentChangeEvent.apply (change : TextDocumentContentChangeEvent) (oldSource : Str) : Option Str :=
  match change.range with
  | some r =>
    if oldSource.length ≥ invalidPosLoc then none
    else
      match detail2Pos oldSource (detailOf r.start),detail2Pos oldSource (detailOf r.stop) with
      | some startOffset,some endOffset => some (replace oldSource startOffset (uint32 (endOffset + 4294967296 - startOffset)) change.text)
      | _,_ => none
  | none => some change.text

-- DidChangeTextDocumentParams::getSource.
def getSource (contentChanges : List TextDocumentContentChangeEvent) (oldFileContents : Str) : Option Str :=
  contentChanges.foldlM (fun rv change => change.apply rv) oldFileContents

-- What a client did to its text: every change is told in terms of the text that the
-- changes before it left.
inductive Editing : Str → List TextDocumentContentChangeEvent → Str → Prop
  | done (text : Str) : Editing text [] text
  | whole {text new final : Str} {changes : List TextDocumentContentChangeEvent} (rest : Editing new changes final) :
      Editing text (⟨none,new⟩ :: changes) final
  | slice {text new final : Str} {changes : List TextDocumentContentChangeEvent} {files : Files} {loc : Loc} {range : Range}
      (here : (files loc.file).source = text) (fits : text.length < invalidPosLoc) (inside : loc.offsets.endLoc ≤ text.length)
      (told : Range.fromLoc files loc = some range)
      (rest : Editing (Splicing.splice text loc.offsets.beginLoc loc.offsets.endLoc new) changes final) :
      Editing text (⟨some range,new⟩ :: changes) final

section Ranges

theorem pos2Detail_small (inside : off ≤ text.length) :
    1 ≤ (pos2Detail text off).line ∧ (pos2Detail text off).line ≤ off + 1 ∧
      1 ≤ (pos2Detail text off).column ∧ (pos2Detail text off).column ≤ off + 1 := by
  have line := (pos2Detail_back inside).1
  have count : (text.take off).count '\n' ≤ off :=
    Nat.le_trans List.count_le_length (Nat.le_of_eq (List.length_take_of_le inside))
  have column : (pos2Detail text off).column = Segments.distance (findLineBreaks text) off + 1 := by rw [pos2Detail_segment]
  have distance : Segments.distance (findLineBreaks text) off ≤ off := Nat.sub_le _ _
  omega

-- Counting from zero and back again loses nothing.
theorem ofInt32_int32 {n : Nat} (low : 1 ≤ n) (high : n ≤ 4294967295) : ofInt32 (int32 (n - 1) + 1) = n := by
  have same : int32 (n - 1) % 4294967296 = ((n - 1 : Nat) : Int) % 4294967296 := @Int.bmod_emod (n - 1 : Nat) 4294967296
  rw [ofInt32]
  generalize int32 (n - 1) = i at same ⊢
  omega

theorem detailOf_pos2Detail (inside : off ≤ text.length) (fits : text.length < invalidPosLoc) :
    detailOf ⟨int32 ((pos2Detail text off).line - 1),int32 ((pos2Detail text off).column - 1)⟩ = pos2Detail text off := by
  obtain ⟨line,line',column,column'⟩ := pos2Detail_small inside
  rw [invalidPosLoc] at fits
  rw [detailOf,ofInt32_int32 line (by omega),ofInt32_int32 column (by omega)]

end Ranges

section Changes

theorem fromLoc_isSome (file : loc.file.exists) (inside : loc.offsets.endLoc ≤ text.length) (fits : text.length < invalidPosLoc) :
    ∃ range, Range.fromLoc files loc = some range := by
  have ordered := loc.offsets.ordered
  have exists_ : loc.exists = true := by
    rw [Loc.exists,file,LocOffsets.exists]
    simp only [bne_iff_ne,Bool.true_and,Bool.and_eq_true]
    omega
  rw [Range.fromLoc,exists_]
  exact ⟨_,rfl⟩

-- A range told for two offsets replaces the bytes between them.
theorem apply_range (here : (files loc.file).source = text) (inside : loc.offsets.endLoc ≤ text.length)
    (fits : text.length < invalidPosLoc) (told : Range.fromLoc files loc = some range) :
    TextDocumentContentChangeEvent.apply ⟨some range,new⟩ text =
      some (Splicing.splice text loc.offsets.beginLoc loc.offsets.endLoc new) := by
  have ordered := loc.offsets.ordered
  have inside' : loc.offsets.beginLoc ≤ text.length := Nat.le_trans ordered inside
  rw [Range.fromLoc,Loc.toDetails,here] at told
  split at told
  · cases told
  · obtain rfl := Option.some.inj told
    have count : uint32 (loc.offsets.endLoc + 4294967296 - loc.offsets.beginLoc) = loc.offsets.endLoc - loc.offsets.beginLoc := by
      rw [invalidPosLoc] at fits
      rw [uint32]
      omega
    simp only [TextDocumentContentChangeEvent.apply,detailOf_pos2Detail inside fits,detailOf_pos2Detail inside' fits,
      detail2Pos_pos2Detail fits inside,detail2Pos_pos2Detail fits inside',count]
    rw [if_neg (Nat.not_le_of_lt fits),replace,Splicing.splice,Nat.add_sub_cancel' ordered]

theorem getSource_editing {changes : List TextDocumentContentChangeEvent} (edits : Editing text changes final) :
    getSource changes text = some final := by
  induction edits with
  | done text => rfl
  | whole rest ih => exact ih
  | slice here fits inside told rest ih =>
    rw [getSource,List.foldlM_cons,apply_range here inside fits told]
    exact ih

theorem getSource_append (text : Str) (first second : List TextDocumentContentChangeEvent) :
    getSource (first ++ second) text = (getSource first text).bind (getSource second) := by
  rw [getSource,List.foldlM_append]
  rfl

end Changes

-- Offsets and positions name each other, and a change told through them is the change
-- that was made.
theorem positions_splice (text : Str) (fits : text.length < invalidPosLoc) :
    (∀ off ≤ text.length, detail2Pos text (pos2Detail text off) = some off ∧ 1 ≤ (pos2Detail text off).column) ∧
      (∀ detail : Detail, 1 ≤ detail.column → ∀ off, detail2Pos text detail = some off →
        off ≤ text.length ∧ pos2Detail text off = detail) ∧
      (∀ detail : Detail, 1 ≤ detail.column →
        (detail2Pos text detail = none ↔ ∀ off ≤ text.length, pos2Detail text off ≠ detail)) ∧
      (∀ column, 1 ≤ column → detail2Pos text ⟨(splitAt '\n' text).length + 1,column⟩ = none) ∧
      (∀ (files : Files) (loc : Loc) (new : Str), (files loc.file).source = text → loc.file.exists →
        loc.offsets.endLoc ≤ text.length → ∃ range, Range.fromLoc files loc = some range ∧
          TextDocumentContentChangeEvent.apply ⟨some range,new⟩ text =
            some (Splicing.splice text loc.offsets.beginLoc loc.offsets.endLoc new)) ∧
      (∀ changes final, Editing text changes final → getSource changes text = some final) ∧
      ∀ first second, getSource (first ++ second) text = (getSource first text).bind (getSource second) := by
  refine ⟨?_,?_,?_,?_,?_,fun changes final => getSource_editing,getSource_append text⟩
  · intro off inside
    exact ⟨detail2Pos_pos2Detail fits inside,(pos2Detail_small inside).2.2.1⟩
  · intro detail counted off found
    exact (detail2Pos_iff fits counted).mp found
  · intro detail counted
    exact detail2Pos_rejects fits counted
  · intro column counted
    have lines : (splitAt '\n' text).length = (findLineBreaks text).length := by
      rw [splitAt_length,findLineBreaks,List.length_append,newlines_length,List.length_singleton]
    rw [lines]
    exact detail2Pos_pastEnd fits counted
  · intro files loc new here file inside
    obtain ⟨range,told⟩ := @fromLoc_isSome files loc text file inside fits
    exact ⟨range,told,apply_range here inside fits told⟩

-- The line break is replaced, and there is no third line.
def twoLines : Files := fun _ => ⟨[],['a','\n','b']⟩

theorem positions_splice_twoLines : detail2Pos ['a','\n','b'] ⟨3,1⟩ = none ∧
    ∃ range, Range.fromLoc twoLines ⟨1,⟨1,2,by decide⟩⟩ = some range ∧
      TextDocumentContentChangeEvent.apply ⟨some range,[' ',' ']⟩ ['a','\n','b'] = some ['a',' ',' ','b'] := by
  obtain ⟨_,_,_,past,splices,_⟩ := positions_splice ['a','\n','b'] (by decide)
  exact ⟨past 1 (by decide),splices twoLines ⟨1,⟨1,2,by decide⟩⟩ [' ',' '] rfl rfl (by decide)⟩

end Lsp
