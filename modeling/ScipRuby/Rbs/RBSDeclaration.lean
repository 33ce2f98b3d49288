import Mathlib.Data.Nat.Init
import ScipRuby.Scip.SymbolString

namespace Rbs
open Scip (Str)

-- core::LocOffsets, whose ends withoutPrefix changes one at a time.
structure LocOffsets where
  beginLoc : Nat
  endLoc : Nat
  deriving DecidableEq,Repr

structure Comment where
  typeLoc : LocOffsets
  string : Str
  deriving DecidableEq,Repr

namespace Comment

def typeLength (comment : Comment) : Nat := comment.typeLoc.endLoc - comment.typeLoc.beginLoc

def removePrefix (comment : Comment) (length : Nat) : Comment where
  typeLoc := ⟨comment.typeLoc.beginLoc + length,comment.typeLoc.endLoc⟩
  string := comment.string.drop length

-- The string of a comment is as long as its place in the file.
def AsLong (comment : Comment) : Prop := comment.typeLoc.endLoc = comment.typeLoc.beginLoc + comment.string.length

instance (comment : Comment) : Decidable comment.AsLong := inferInstanceAs (Decidable (_ = _))

end Comment

-- The loop of withoutPrefix; the last comment is kept even if nothing of it is left.
def dropPrefix : Nat → List Comment → List Comment
  | _,[] => []
  | length,[last] => [last.removePrefix length]
  | length,comment :: next :: comments =>
    if comment.string.length ≤ length then dropPrefix (length - comment.string.length) (next :: comments)
    else comment.removePrefix length :: dropPrefix 0 (next :: comments)

def concatenate (comments : List Comment) : Str := comments.flatMap Comment.string

theorem concatenate_cons (comment : Comment) (comments : List Comment) :
    (concatenate (comment :: comments)).length = comment.string.length + (concatenate comments).length := by
  simp [concatenate]

theorem removePrefix_asLong {comment : Comment} {length : Nat} (asLong : comment.AsLong)
    (fits : length ≤ comment.string.length) : (comment.removePrefix length).AsLong := by
  unfold Comment.AsLong at *
  rw [Comment.removePrefix,List.length_drop]
  dsimp only
  omega

theorem dropPrefix_nonempty {comments : List Comment} (length : Nat) (nonempty : comments ≠ []) :
    dropPrefix length comments ≠ [] := by
  induction comments generalizing length with
  | nil => exact absurd rfl nonempty
  | cons comment comments ih =>
    cases comments with
    | nil => simp [dropPrefix]
    | cons next comments =>
      rw [dropPrefix]
      split
      · exact ih _ (List.cons_ne_nil _ _)
      · exact List.cons_ne_nil _ _

theorem dropPrefix_asLong {comments : List Comment} {length : Nat} (asLong : ∀ c ∈ comments, c.AsLong)
    (fits : length ≤ (concatenate comments).length) : ∀ c ∈ dropPrefix length comments, c.AsLong := by
  induction comments generalizing length with
  | nil =>
    intro c member
    cases member
  | cons comment comments ih =>
    have here := asLong comment List.mem_cons_self
    have others : ∀ c ∈ comments, c.AsLong := fun c member => asLong c (List.mem_cons_of_mem _ member)
    rw [concatenate_cons] at fits
    cases comments with
    | nil =>
      intro c member
      obtain rfl := List.mem_singleton.mp member
      exact removePrefix_asLong here (by simpa [concatenate] using fits)
    | cons next comments =>
      rw [dropPrefix]
      split
      · exact ih others (by omega)
      · intro c member
        obtain rfl | member' := List.mem_cons.mp member
        · exact removePrefix_asLong here (by omega)
        · exact ih others (Nat.zero_le _) c member'

structure RBSDeclaration where
  comments : List Comment
  nonempty : comments ≠ []
  asLong : ∀ c ∈ comments, c.AsLong

-- A range of bytes, rbs_location_range.
structure Range where
  start_byte : Nat
  end_byte : Nat
  ordered : start_byte ≤ end_byte
  deriving Repr

def Range.length (range : Range) : Nat := range.end_byte - range.start_byte

def Range.shift (range : Range) (length : Nat) : Range :=
  ⟨length + range.start_byte,length + range.end_byte,Nat.add_le_add_left range.ordered length⟩

-- The loop of typeLocFromRange; nothing is found past the last comment.
def locate (rangeLength : Nat) : Nat → List Comment → Option LocOffsets
  | _,[] => none
  | rangeOffset,comment :: comments =>
    let commentTypeLength := comment.typeLength
    if rangeOffset < commentTypeLength then
      let beginLoc := comment.typeLoc.beginLoc + rangeOffset
      let endLoc := beginLoc + rangeLength
      some ⟨beginLoc,if rangeLength > commentTypeLength then comment.typeLoc.endLoc else endLoc⟩
    else locate rangeLength (rangeOffset - commentTypeLength) comments

namespace RBSDeclaration

def string (declaration : RBSDeclaration) : Str := concatenate declaration.comments

-- The code asserts that the text is long enough.
def withoutPrefix (declaration : RBSDeclaration) (length : Nat) (fits : length ≤ declaration.string.length) : RBSDeclaration where
  comments := dropPrefix length declaration.comments
  nonempty := dropPrefix_nonempty length declaration.nonempty
  asLong := dropPrefix_asLong declaration.asLong fits

def typeLocFromRange (declaration : RBSDeclaration) (range : Range) : LocOffsets :=
  match locate range.length range.start_byte declaration.comments with
  | some loc => loc
  | none => (declaration.comments.head declaration.nonempty).typeLoc

end RBSDeclaration

section Mapping
variable {before after comments : List Comment} {comment : Comment} {offset length start : Nat}

-- Where a comment and a place in it lie in the text of all comments.
structure At (comments before : List Comment) (comment : Comment) (offset position : Nat) : Prop where
  split : ∃ after, comments = before ++ comment :: after
  position : position = (concatenate before).length + offset
  inside : offset < comment.string.length

-- What the mapping of a range is to be, in the comment where it starts.
structure Points (comment : Comment) (offset : Nat) (range : Range) (loc : LocOffsets) : Prop where
  starts : loc.beginLoc = comment.typeLoc.beginLoc + offset
  stays : loc.endLoc ≤ comment.typeLoc.endLoc
  whole : offset + range.length ≤ comment.string.length → loc.endLoc = loc.beginLoc + range.length

theorem typeLength_eq (asLong : comment.AsLong) : comment.typeLength = comment.string.length := by
  unfold Comment.AsLong at asLong
  rw [Comment.typeLength,asLong,Nat.add_sub_cancel_left]

theorem locate_at (asLong : ∀ c ∈ comments, c.AsLong) (at_ : At comments before comment offset start) :
    locate length start comments = some ⟨comment.typeLoc.beginLoc + offset,
      if length > comment.string.length then comment.typeLoc.endLoc else comment.typeLoc.beginLoc + offset + length⟩ := by
  obtain ⟨⟨after,rfl⟩,rfl,inside⟩ := at_
  induction before with
  | nil =>
    have size := typeLength_eq (asLong comment List.mem_cons_self)
    rw [List.nil_append,locate,size]
    simp [concatenate,inside]
  | cons first before ih =>
    have size := typeLength_eq (asLong first List.mem_cons_self)
    have later := ih fun c member => asLong c (List.mem_cons_of_mem _ member)
    have past : ¬ (concatenate (first :: before)).length + offset < first.string.length := by
      rw [concatenate_cons]
      omega
    have rest : (concatenate (first :: before)).length + offset - first.string.length = (concatenate before).length + offset := by
      rw [concatenate_cons]
      omega
    rw [List.cons_append,locate,size]
    dsimp only
    rw [if_neg past,rest]
    exact later

-- The comment of a place behind the removed prefix, and what is left of it.
theorem dropPrefix_at (at_ : At comments before comment offset (length + start)) :
    ∃ before', At (dropPrefix length comments) before' (comment.removePrefix (length - (concatenate before).length))
      (offset - (length - (concatenate before).length)) start := by
  obtain ⟨⟨after,rfl⟩,position,inside⟩ := at_
  induction before generalizing length start with
  | nil =>
    have position' : length + start = offset := by simpa [concatenate] using position
    have kept : ∃ after', dropPrefix length (comment :: after) = comment.removePrefix length :: after' := by
      cases after with
      | nil => exact ⟨[],rfl⟩
      | cons next after => exact ⟨_,if_neg (by omega)⟩
    obtain ⟨after',kept⟩ := kept
    refine ⟨[],⟨after',kept⟩,?_,?_⟩
    · simp [concatenate]
      omega
    · simp [concatenate,Comment.removePrefix]
      omega
  | cons first before ih =>
    obtain ⟨next,others,split⟩ : ∃ next others, before ++ comment :: after = next :: others := by
      cases before with
      | nil => exact ⟨comment,after,rfl⟩
      | cons next before => exact ⟨next,before ++ comment :: after,rfl⟩
    rw [concatenate_cons] at position ⊢
    rw [List.cons_append,split,dropPrefix]
    split
    · rename_i dropped
      obtain ⟨before',at_⟩ := @ih (length - first.string.length) start (by omega)
      rw [split,Nat.sub_sub] at at_
      exact ⟨before',at_⟩
    · rename_i trimmed
      have position' : 0 + (start - (first.string.length - length)) = (concatenate before).length + offset := by omega
      obtain ⟨before',⟨after',rest⟩,position'',inside'⟩ := ih position'
      have none_ : length - (first.string.length + (concatenate before).length) = 0 := by omega
      rw [Nat.zero_sub] at rest position'' inside'
      rw [none_]
      refine ⟨first.removePrefix length :: before',⟨after',by rw [← split,rest,List.cons_append]⟩,?_,inside'⟩
      rw [concatenate_cons,Comment.removePrefix,List.length_drop]
      omega

theorem typeLocFromRange_at {declaration : RBSDeclaration} {range : Range}
    (at_ : At declaration.comments before comment offset range.start_byte) :
    declaration.typeLocFromRange range = ⟨comment.typeLoc.beginLoc + offset,
      if range.length > comment.string.length then comment.typeLoc.endLoc
      else comment.typeLoc.beginLoc + offset + range.length⟩ := by
  rw [RBSDeclaration.typeLocFromRange,locate_at declaration.asLong at_]

theorem At.asLong {declaration : RBSDeclaration} (at_ : At declaration.comments before comment offset start) :
    comment.AsLong := by
  obtain ⟨after,split⟩ := at_.split
  apply declaration.asLong
  rw [split]
  exact List.mem_append_right _ List.mem_cons_self

end Mapping

section Exactness
variable {declaration : RBSDeclaration} {range : Range} {before : List Comment} {comment : Comment} {offset length : Nat}

-- A range that leaves its comment is cut off only if it is longer than all of the comment.
theorem typeLocFromRange_points_iff (at_ : At declaration.comments before comment offset range.start_byte) :
    Points comment offset range (declaration.typeLocFromRange range) ↔
      offset + range.length ≤ comment.string.length ∨ comment.string.length < range.length := by
  have asLong := at_.asLong
  have inside := at_.inside
  unfold Comment.AsLong at asLong
  rw [typeLocFromRange_at at_]
  by_cases long : range.length > comment.string.length
  · rw [if_pos long]
    refine iff_of_true ⟨rfl,Nat.le_refl _,fun fits => ?_⟩ (.inr long)
    omega
  · rw [if_neg long]
    constructor
    · rintro ⟨-,stays,-⟩
      dsimp only at stays
      omega
    · intro fits
      refine ⟨rfl,?_,fun _ => rfl⟩
      dsimp only
      omega

-- What is left of the comment is shorter, so that a range may be longer than it though
-- it is not longer than the whole comment.
theorem withoutPrefix_typeLocFromRange_iff (fits : length ≤ declaration.string.length)
    (at_ : At declaration.comments before comment offset (length + range.start_byte)) :
    (declaration.withoutPrefix length fits).typeLocFromRange range = declaration.typeLocFromRange (range.shift length) ↔
      range.length + (length - (concatenate before).length) ≤ comment.string.length ∨
        comment.string.length < range.length := by
  obtain ⟨before',left⟩ := dropPrefix_at at_
  have shifted : At declaration.comments before comment offset (range.shift length).start_byte := at_
  have same : (range.shift length).length = range.length := Nat.add_sub_add_left _ _ _
  have onLeft := @typeLocFromRange_at _ _ _ (declaration.withoutPrefix length fits) range left
  have asLong := at_.asLong
  have inside := left.inside
  have position := at_.position
  unfold Comment.AsLong at asLong
  rw [onLeft,typeLocFromRange_at shifted,same,LocOffsets.mk.injEq]
  simp only [Comment.removePrefix,List.length_drop] at inside ⊢
  split <;> split <;> omega

theorem typeLocFromRange_exact (declaration : RBSDeclaration) :
    (∀ range before comment offset, At declaration.comments before comment offset range.start_byte →
      (Points comment offset range (declaration.typeLocFromRange range) ↔
        offset + range.length ≤ comment.string.length ∨ comment.string.length < range.length)) ∧
    ∀ length fits range before comment offset, At declaration.comments before comment offset (length + range.start_byte) →
      ((declaration.withoutPrefix length fits).typeLocFromRange range = declaration.typeLocFromRange (range.shift length) ↔
        range.length + (length - (concatenate before).length) ≤ comment.string.length ∨
          comment.string.length < range.length) :=
  ⟨fun _ _ _ _ => typeLocFromRange_points_iff,fun _ fits _ _ _ _ => withoutPrefix_typeLocFromRange_iff fits⟩

-- Two lines of a signature, at the places 10 and 20 of the file.
def twoLines : RBSDeclaration where
  comments := [⟨⟨10,14⟩,"abcd".toList⟩,⟨⟨20,25⟩,"efghi".toList⟩]
  nonempty := List.cons_ne_nil _ _
  asLong := by decide

theorem twoLines_at : At twoLines.comments [] ⟨⟨10,14⟩,"abcd".toList⟩ 1 1 := ⟨⟨_,rfl⟩,rfl,by decide⟩

theorem typeLocFromRange_exact_twoLines :
    Points ⟨⟨10,14⟩,"abcd".toList⟩ 1 ⟨1,3,by decide⟩ (twoLines.typeLocFromRange ⟨1,3,by decide⟩) ∧
    (twoLines.withoutPrefix 1 (by decide)).typeLocFromRange ⟨0,2,by decide⟩ = twoLines.typeLocFromRange ⟨1,3,by decide⟩ :=
  ⟨((typeLocFromRange_exact twoLines).1 _ _ _ _ twoLines_at).mpr (.inl (by decide)),
    ((typeLocFromRange_exact twoLines).2 1 (by decide) ⟨0,2,by decide⟩ _ _ _ twoLines_at).mpr (.inl (by decide))⟩

-- A range from the last byte of the first line into the second line.
theorem typeLocFromRange_leaves : ¬ ∀ (declaration : RBSDeclaration) range before comment offset,
    At declaration.comments before comment offset range.start_byte →
      (declaration.typeLocFromRange range).endLoc ≤ comment.typeLoc.endLoc := by
  intro always
  have stays := always twoLines ⟨3,6,by decide⟩ [] _ 3 ⟨⟨_,rfl⟩,rfl,by decide⟩
  exact absurd stays (by decide)

end Exactness

end Rbs
