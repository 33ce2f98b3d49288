import Mathlib.Data.Char
import Mathlib.Data.List.Lex
import ScipRuby.Autocorrect.Application

namespace Autocorrect
open Scip (Str FileRef Loc)

def Edit.empty (edit : Edit) : Bool := edit.loc.empty

-- The comparator of mergeAdjacentEdits; it does not look at the file.
def mergeLess (lhs rhs : Edit) : Bool :=
  if lhs.loc = rhs.loc then lhs.replacement < rhs.replacement else lhs.beginPos < rhs.beginPos

-- The loop, with the edit at index i and the edits after it.
def mergeInto (edit : Edit) : List Edit → List Edit
  | [] => [edit]
  | next :: edits =>
    if edit.beginPos = next.beginPos ∧ edit.empty ∧ next.empty then
      mergeInto {edit with replacement := edit.replacement ++ next.replacement} edits
    else edit :: mergeInto next edits

def mergeNeighbours : List Edit → List Edit
  | [] => []
  | edit :: edits => mergeInto edit edits

-- The lists that mergeAdjacentEdits can leave.
def Merges (edits merged : List Edit) : Prop := ∃ sorted, SortedBy mergeLess edits sorted ∧ merged = mergeNeighbours sorted

section Meaning

def insertionLoc (file : FileRef) (pos : Nat) : Loc := ⟨file,⟨pos,pos,Nat.le_refl pos⟩⟩

def insertionsAt (edits : List Edit) (file : FileRef) (pos : Nat) : List Edit :=
  edits.filter fun edit => edit.loc = insertionLoc file pos

def sortedReplacements (edits : List Edit) : List Str := (edits.map Edit.replacement).insertionSort (· ≤ ·)

-- One insertion for a place that had any, with all of their text.
def combined (insertions : List Edit) (file : FileRef) (pos : Nat) : List Edit :=
  if insertions.isEmpty then [] else [⟨insertionLoc file pos,(sortedReplacements insertions).flatten⟩]

structure Merged (edits merged : List Edit) : Prop where
  filled : (merged.filter fun edit => !edit.empty).Perm (edits.filter fun edit => !edit.empty)
  insertions : ∀ file pos, insertionsAt merged file pos = combined (insertionsAt edits file pos) file pos

-- The edits that begin at one offset, of whatever file.
def beginningAt (edits : List Edit) (pos : Nat) : List Edit := edits.filter fun edit => edit.beginPos = pos

-- Edits that begin at one offset have one place, or there is at most one insertion among them and the place decides
-- the replacement.
def Unmixed (edits : List Edit) : Prop :=
  ∀ pos, (∀ a ∈ beginningAt edits pos, ∀ b ∈ beginningAt edits pos, a.loc = b.loc) ∨
    ((beginningAt edits pos).filter Edit.empty).length ≤ 1 ∧
      ∀ a ∈ beginningAt edits pos, ∀ b ∈ beginningAt edits pos, a.loc = b.loc → a.replacement = b.replacement

end Meaning

section Loop
variable {edits first second : List Edit} {edit next : Edit} {pos : Nat}

theorem beginPos_loc {a b : Edit} (same : a.loc = b.loc) : a.beginPos = b.beginPos := congrArg (fun loc => loc.offsets.beginLoc) same

theorem empty_loc {a b : Edit} (same : a.loc = b.loc) : a.empty = b.empty := congrArg Loc.empty same

theorem empty_iff : edit.empty = true ↔ edit.loc = insertionLoc edit.file edit.beginPos := by
  obtain ⟨⟨file,⟨beginLoc,endLoc,ordered⟩⟩,replacement⟩ := edit
  simp only [Edit.empty,Loc.empty,Scip.LocOffsets.empty,insertionLoc,Edit.file,Edit.beginPos,beq_iff_eq,Loc.mk.injEq,true_and,
    Scip.LocOffsets.mk.injEq]
  exact eq_comm

theorem mem_insertionsAt {file : FileRef} : edit ∈ insertionsAt edits file pos ↔ edit ∈ edits ∧ edit.loc = insertionLoc file pos := by
  simp [insertionsAt]

theorem mem_beginningAt : edit ∈ beginningAt edits pos ↔ edit ∈ edits ∧ edit.beginPos = pos := by
  simp [beginningAt]

-- Two neighbours that are merged.
def Adjacent (edit next : Edit) : Prop := edit.beginPos = next.beginPos ∧ edit.empty = true ∧ next.empty = true

theorem mergeInto_adjacent (adjacent : Adjacent edit next) (edits : List Edit) :
    mergeInto edit (next :: edits) = mergeInto {edit with replacement := edit.replacement ++ next.replacement} edits :=
  if_pos adjacent

theorem mergeInto_other (other : ¬ Adjacent edit next) (edits : List Edit) :
    mergeInto edit (next :: edits) = edit :: mergeInto next edits := if_neg other

theorem mergeInto_filled (edit : Edit) (edits : List Edit) :
    (mergeInto edit edits).filter (fun e => !e.empty) = (edit :: edits).filter fun e => !e.empty := by
  induction edits generalizing edit with
  | nil => rfl
  | cons next edits ih =>
    rw [mergeInto]
    split
    · rename_i merges
      have none_ : edit.empty = true := merges.2.1
      have kept : Edit.empty {edit with replacement := edit.replacement ++ next.replacement} = true := none_
      rw [ih,List.filter_cons,List.filter_cons,List.filter_cons,kept,none_,merges.2.2]
      rfl
    · rw [List.filter_cons,ih,List.filter_cons (x := edit)]

theorem mergeNeighbours_filled (edits : List Edit) :
    (mergeNeighbours edits).filter (fun e => !e.empty) = edits.filter fun e => !e.empty := by
  cases edits with
  | nil => rfl
  | cons edit edits => exact mergeInto_filled edit edits

theorem mergeInto_loc (member : next ∈ mergeInto edit edits) : ∃ old ∈ edit :: edits, next.loc = old.loc := by
  induction edits generalizing edit with
  | nil => exact ⟨edit,List.mem_cons_self,congrArg Edit.loc (List.mem_singleton.mp member)⟩
  | cons other edits ih =>
    rw [mergeInto] at member
    split at member
    · obtain ⟨old,place,same⟩ := ih member
      obtain rfl | later := List.mem_cons.mp place
      · exact ⟨edit,List.mem_cons_self,same⟩
      · exact ⟨old,List.mem_cons_of_mem _ (List.mem_cons_of_mem _ later),same⟩
    · obtain rfl | later := List.mem_cons.mp member
      · exact ⟨next,List.mem_cons_self,rfl⟩
      · obtain ⟨old,place,same⟩ := ih later
        exact ⟨old,List.mem_cons_of_mem _ place,same⟩

theorem mergeNeighbours_loc (member : next ∈ mergeNeighbours edits) : ∃ old ∈ edits, next.loc = old.loc := by
  cases edits with
  | nil => cases member
  | cons edit edits => exact mergeInto_loc member

-- Nothing is merged across a change of the offset.
theorem mergeInto_append (apart : ∀ a ∈ edit :: first, ∀ b ∈ second, a.beginPos ≠ b.beginPos) :
    mergeInto edit (first ++ second) = mergeInto edit first ++ mergeNeighbours second := by
  induction first generalizing edit with
  | nil =>
    cases second with
    | nil => simp [mergeInto,mergeNeighbours]
    | cons next second =>
      have other := apart edit List.mem_cons_self next List.mem_cons_self
      rw [List.nil_append,mergeInto_other fun adjacent => other adjacent.1]
      rfl
  | cons next first ih =>
    have later : ∀ a ∈ next :: first, ∀ b ∈ second, a.beginPos ≠ b.beginPos :=
      fun a member => apart a (List.mem_cons_of_mem _ member)
    rw [List.cons_append,mergeInto,mergeInto]
    split
    · apply ih
      intro a member
      obtain rfl | member' := List.mem_cons.mp member
      · exact apart edit List.mem_cons_self
      · exact later a (List.mem_cons_of_mem _ member')
    · rw [ih later,List.cons_append]

theorem mergeNeighbours_append (apart : ∀ a ∈ first, ∀ b ∈ second, a.beginPos ≠ b.beginPos) :
    mergeNeighbours (first ++ second) = mergeNeighbours first ++ mergeNeighbours second := by
  cases first with
  | nil => rfl
  | cons edit first => exact mergeInto_append apart

theorem mergeInto_apart (apart : (edit :: edits).Pairwise fun a b => ¬ (a.empty = true ∧ b.empty = true)) :
    mergeInto edit edits = edit :: edits := by
  induction edits generalizing edit with
  | nil => rfl
  | cons next edits ih =>
    have other : ¬ Adjacent edit next := fun adjacent => List.rel_of_pairwise_cons apart List.mem_cons_self adjacent.2
    rw [mergeInto_other other,ih apart.of_cons]

theorem mergeNeighbours_apart (apart : edits.Pairwise fun a b => ¬ (a.empty = true ∧ b.empty = true)) :
    mergeNeighbours edits = edits := by
  cases edits with
  | nil => rfl
  | cons edit edits => exact mergeInto_apart apart

-- Insertions at one offset that stand together.
theorem mergeInto_insertions (empty : edit.empty = true) (all : ∀ e ∈ first, e.empty = true ∧ e.beginPos = edit.beginPos)
    (none_ : ∀ e ∈ second, e.empty = false) :
    mergeInto edit (first ++ second) =
      {edit with replacement := edit.replacement ++ (first.map Edit.replacement).flatten} :: second := by
  induction first generalizing edit with
  | nil =>
    rw [List.nil_append,List.map_nil,List.flatten_nil,List.append_nil]
    apply mergeInto_apart
    refine List.pairwise_cons.mpr ⟨fun e member both => ?_,List.pairwise_of_forall_mem_list fun a _ b member both => ?_⟩
    · simp [none_ e member] at both
    · simp [none_ b member] at both
  | cons next first ih =>
    obtain ⟨empty',start⟩ := all next List.mem_cons_self
    have rest := @ih {edit with replacement := edit.replacement ++ next.replacement} empty
      fun e member => all e (List.mem_cons_of_mem _ member)
    rw [List.cons_append,mergeInto_adjacent ⟨start.symm,empty,empty'⟩,rest]
    simp

-- Merging does not lose the last insertion.
theorem mergeInto_some (some_ : ∃ e ∈ edit :: edits, e.empty = true) : ∃ e ∈ mergeInto edit edits, e.empty = true := by
  induction edits generalizing edit with
  | nil => exact some_
  | cons next edits ih =>
    by_cases adjacent : Adjacent edit next
    · rw [mergeInto_adjacent adjacent]
      exact ih ⟨_,List.mem_cons_self,adjacent.2.1⟩
    · rw [mergeInto_other adjacent]
      obtain ⟨e,member,empty⟩ := some_
      obtain rfl | later := List.mem_cons.mp member
      · exact ⟨e,List.mem_cons_self,empty⟩
      · obtain ⟨e',member',empty'⟩ := ih ⟨e,later,empty⟩
        exact ⟨e',List.mem_cons_of_mem _ member',empty'⟩

end Loop

section Comparator
variable {edits sorted low group high : List Edit} {a b c edit : Edit} {pos : Nat} {file : FileRef}

theorem mergeLess_iff : mergeLess a b = true ↔ a.beginPos < b.beginPos ∨ a.loc = b.loc ∧ a.replacement < b.replacement := by
  unfold mergeLess
  split
  · rename_i same
    simp [same,beginPos_loc same]
  · rename_i other
    simp [other]

theorem mergeLess_trans (first : mergeLess a b = true) (second : mergeLess b c = true) : mergeLess a c = true := by
  rw [mergeLess_iff] at *
  obtain first | ⟨same,first⟩ := first
  · obtain second | ⟨same',_⟩ := second
    · exact .inl (first.trans second)
    · exact .inl (beginPos_loc same' ▸ first)
  · obtain second | ⟨same',second⟩ := second
    · exact .inl (beginPos_loc same ▸ second)
    · exact .inr ⟨same.trans same',first.trans second⟩

theorem not_less_begin (ordered : mergeLess b a = false) : a.beginPos ≤ b.beginPos := by
  by_contra more
  have less : mergeLess b a = true := mergeLess_iff.mpr (.inl (Nat.lt_of_not_le more))
  rw [less] at ordered
  cases ordered

theorem incomparable_iff : (¬ mergeLess a b = true ∧ ¬ mergeLess b a = true) ↔
    a.beginPos = b.beginPos ∧ (a.loc = b.loc → a.replacement = b.replacement) := by
  rw [mergeLess_iff,mergeLess_iff]
  constructor
  · rintro ⟨first,second⟩
    refine ⟨by omega,fun same => le_antisymm ?_ ?_⟩
    · exact not_lt.mp fun less => second (.inr ⟨same.symm,less⟩)
    · exact not_lt.mp fun less => first (.inr ⟨same,less⟩)
  · rintro ⟨start,replaced⟩
    constructor
    · rintro (less | ⟨same,less⟩)
      · omega
      · exact absurd (replaced same) (ne_of_lt less)
    · rintro (less | ⟨same,less⟩)
      · omega
      · exact absurd (replaced same.symm) (ne_of_gt less)

theorem strictWeakOrder_of_unmixed (unmixed : Unmixed edits) :
    IsStrictWeakOrder {edit // edit ∈ edits} fun a b => mergeLess a.1 b.1 = true where
  irrefl := by
    intro a less
    obtain less | ⟨-,less⟩ := mergeLess_iff.mp less
    · exact absurd less (Nat.lt_irrefl _)
    · exact absurd less (lt_irrefl _)
  trans := fun _ _ _ => mergeLess_trans
  incomp_trans := by
    rintro ⟨a,inA⟩ ⟨b,inB⟩ ⟨c,inC⟩ first second
    simp only [incomparable_iff] at *
    obtain ⟨start,replaced⟩ := first
    obtain ⟨start',replaced'⟩ := second
    refine ⟨start.trans start',fun same => ?_⟩
    have placeA : a ∈ beginningAt edits b.beginPos := mem_beginningAt.mpr ⟨inA,start⟩
    have placeB : b ∈ beginningAt edits b.beginPos := mem_beginningAt.mpr ⟨inB,rfl⟩
    have placeC : c ∈ beginningAt edits b.beginPos := mem_beginningAt.mpr ⟨inC,start'.symm⟩
    obtain one | ⟨-,decides⟩ := unmixed b.beginPos
    · exact (replaced (one a placeA b placeB)).trans (replaced' (one b placeB c placeC))
    · exact decides a placeA c placeC same

-- A sorted list is in three parts around each offset.
theorem cut_at (ordered : sorted.Pairwise fun a b => mergeLess b a = false) (pos : Nat) :
    sorted = (sorted.filter (·.beginPos < pos)) ++ (beginningAt sorted pos ++ sorted.filter (pos < ·.beginPos)) := by
  induction sorted with
  | nil => rfl
  | cons edit sorted ih =>
    obtain ⟨first,rest⟩ := List.pairwise_cons.mp ordered
    have parts := ih rest
    obtain less | same | more := Nat.lt_trichotomy edit.beginPos pos
    · have apart : ¬ edit.beginPos = pos := by omega
      have later : ¬ pos < edit.beginPos := by omega
      simp only [beginningAt] at parts
      simp only [beginningAt,List.filter_cons,less,apart,later,decide_true,decide_false,if_true,Bool.false_eq_true,if_false]
      rw [List.cons_append,← parts]
    · have none_ : sorted.filter (·.beginPos < pos) = [] := by
        refine List.filter_eq_nil_iff.mpr fun e member => ?_
        have := not_less_begin (first e member)
        simp
        omega
      rw [none_,List.nil_append,beginningAt] at parts
      simp only [beginningAt,List.filter_cons,same,decide_true,decide_false,if_true,Bool.false_eq_true,if_false,
        Nat.lt_irrefl,none_]
      rw [List.nil_append,List.cons_append,← parts]
    · have none_ : sorted.filter (·.beginPos < pos) = [] := by
        refine List.filter_eq_nil_iff.mpr fun e member => ?_
        have := not_less_begin (first e member)
        simp
        omega
      have none' : sorted.filter (fun e => e.beginPos = pos) = [] := by
        refine List.filter_eq_nil_iff.mpr fun e member => ?_
        have := not_less_begin (first e member)
        simp
        omega
      rw [none_,List.nil_append,beginningAt,none',List.nil_append] at parts
      have apart : ¬ edit.beginPos = pos := by omega
      have earlier : ¬ edit.beginPos < pos := by omega
      simp only [beginningAt,List.filter_cons,more,apart,earlier,decide_true,decide_false,if_true,Bool.false_eq_true,if_false,
        none_,none']
      rw [List.nil_append,List.nil_append,← parts]

theorem insertionsAt_elsewhere (apart : ∀ e ∈ edits, e.beginPos ≠ pos) (file : FileRef) :
    insertionsAt (mergeNeighbours edits) file pos = [] := by
  refine List.filter_eq_nil_iff.mpr fun e member => ?_
  obtain ⟨old,place,same⟩ := mergeNeighbours_loc member
  refine fun here => apart old place ?_
  rw [← beginPos_loc same,Edit.beginPos,of_decide_eq_true here]
  rfl

-- The insertions at an offset come from the edits that begin there.
theorem insertionsAt_cut (below : ∀ e ∈ low, e.beginPos < pos) (here : ∀ e ∈ group, e.beginPos = pos)
    (above : ∀ e ∈ high, pos < e.beginPos) (file : FileRef) :
    insertionsAt (mergeNeighbours (low ++ (group ++ high))) file pos = insertionsAt (mergeNeighbours group) file pos := by
  have first : ∀ a ∈ low, ∀ b ∈ group ++ high, a.beginPos ≠ b.beginPos := by
    intro a inLow b inRest
    have := below a inLow
    obtain inGroup | inHigh := List.mem_append.mp inRest
    · have := here b inGroup
      omega
    · have := above b inHigh
      omega
  have second : ∀ a ∈ group, ∀ b ∈ high, a.beginPos ≠ b.beginPos := by
    intro a inGroup b inHigh
    have := here a inGroup
    have := above b inHigh
    omega
  have none_ := insertionsAt_elsewhere (fun e member => Nat.ne_of_lt (below e member)) file
  have none' := insertionsAt_elsewhere (fun e member => Nat.ne_of_gt (above e member)) file
  rw [mergeNeighbours_append first,mergeNeighbours_append second]
  unfold insertionsAt at *
  rw [List.filter_append,List.filter_append,none_,none',List.nil_append,List.append_nil]

theorem mergeNeighbours_at (ordered : sorted.Pairwise fun a b => mergeLess b a = false) (file : FileRef) (pos : Nat) :
    insertionsAt (mergeNeighbours sorted) file pos = insertionsAt (mergeNeighbours (beginningAt sorted pos)) file pos := by
  have below : ∀ e ∈ sorted.filter (·.beginPos < pos), e.beginPos < pos :=
    fun e member => of_decide_eq_true (List.mem_filter.mp member).2
  have above : ∀ e ∈ sorted.filter (pos < ·.beginPos), pos < e.beginPos :=
    fun e member => of_decide_eq_true (List.mem_filter.mp member).2
  conv_lhs => rw [cut_at ordered pos]
  exact insertionsAt_cut below (fun e member => (mem_beginningAt.mp member).2) above file

-- The comparator refined to a total order.
def Sorts (a b : Edit) : Prop := a.beginPos < b.beginPos ∨ a.beginPos = b.beginPos ∧ a.replacement ≤ b.replacement

instance : DecidableRel Sorts := fun _ _ => inferInstanceAs (Decidable (_ ∨ _))

instance : Std.Total Sorts := ⟨by
  intro a b
  unfold Sorts
  obtain less | same | more := Nat.lt_trichotomy a.beginPos b.beginPos
  · exact .inl (.inl less)
  · exact (le_total a.replacement b.replacement).imp (fun le => .inr ⟨same,le⟩) fun le => .inr ⟨same.symm,le⟩
  · exact .inr (.inl more)⟩

instance : IsTrans Edit Sorts := ⟨by
  unfold Sorts
  rintro a b c (first | ⟨same,first⟩) (second | ⟨same',second⟩)
  · exact .inl (first.trans second)
  · exact .inl (same' ▸ first)
  · exact .inl (same ▸ second)
  · exact .inr ⟨same.trans same',first.trans second⟩⟩

theorem sorts_ordered (sorts : Sorts a b) : mergeLess b a = false := by
  rw [← Bool.not_eq_true,mergeLess_iff]
  rintro (less | ⟨same,less⟩)
  · obtain less' | ⟨same,_⟩ := sorts <;> omega
  · have start := beginPos_loc same
    obtain less' | ⟨_,le⟩ := sorts
    · omega
    · exact absurd less (not_lt_of_ge le)

-- The edits of one offset may come in any order that the comparator does not forbid.
theorem exists_group (perm : group.Perm (beginningAt edits pos)) (free : group.Pairwise fun a b => mergeLess b a = false) :
    ∃ low high, SortedBy mergeLess edits (low ++ (group ++ high)) ∧ (∀ e ∈ low, e.beginPos < pos) ∧
      (∀ e ∈ group, e.beginPos = pos) ∧ ∀ e ∈ high, pos < e.beginPos := by
  have pairs := (List.pairwise_insertionSort Sorts edits).imp sorts_ordered
  have sorted := List.perm_insertionSort Sorts edits
  have cut := cut_at pairs pos
  refine ⟨(edits.insertionSort Sorts).filter (·.beginPos < pos),(edits.insertionSort Sorts).filter (pos < ·.beginPos),?_,?_,?_,?_⟩
  · have same : group.Perm (beginningAt (edits.insertionSort Sorts) pos) := perm.trans (sorted.symm.filter _)
    constructor
    · exact (((same.append_right _).append_left _).trans (List.Perm.of_eq cut.symm)).trans sorted
    · rw [cut] at pairs
      obtain ⟨first,rest,across⟩ := List.pairwise_append.mp pairs
      obtain ⟨_,last,across'⟩ := List.pairwise_append.mp rest
      refine List.pairwise_append.mpr ⟨first,List.pairwise_append.mpr ⟨free,last,?_⟩,?_⟩
      · exact fun a inGroup => across' a (same.mem_iff.mp inGroup)
      · intro a inLow b inRest
        apply across a inLow
        obtain inGroup | inHigh := List.mem_append.mp inRest
        · exact List.mem_append_left _ (same.mem_iff.mp inGroup)
        · exact List.mem_append_right _ inHigh
  · exact fun e member => of_decide_eq_true (List.mem_filter.mp member).2
  · exact fun e member => (mem_beginningAt.mp (perm.mem_iff.mp member)).2
  · exact fun e member => of_decide_eq_true (List.mem_filter.mp member).2

end Comparator

section Exactness
variable {edits merged sorted group others filled : List Edit} {a b n first : Edit} {pos : Nat} {file : FileRef}

-- What every merge of the edits makes of one offset, for each order of the edits there.
theorem merged_group (all : ∀ merged, Merges edits merged → Merged edits merged) (perm : group.Perm (beginningAt edits pos))
    (free : group.Pairwise fun a b => mergeLess b a = false) (file : FileRef) :
    insertionsAt (mergeNeighbours group) file pos = combined (insertionsAt edits file pos) file pos := by
  obtain ⟨low,high,sortedBy,below,here,above⟩ := exists_group perm free
  rw [← insertionsAt_cut below here above,(all _ ⟨_,sortedBy,rfl⟩).insertions]

theorem insertion_loc (place : a ∈ beginningAt edits pos) (empty : a.empty = true) : a.loc = insertionLoc a.file pos := by
  rw [empty_iff.mp empty,(mem_beginningAt.mp place).2]

theorem filled_loc (filled : a.empty = false) (file : FileRef) : a.loc ≠ insertionLoc file pos := by
  intro same
  rw [Edit.empty,same] at filled
  simp [insertionLoc,Loc.empty,Scip.LocOffsets.empty] at filled

-- Where the insertions stand together, one of another place than the first would be lost.
theorem insertions_placed (all : ∀ merged, Merges edits merged → Merged edits merged)
    (free : ∀ group : List Edit, group.Perm (beginningAt edits pos) → group.Pairwise fun a b => mergeLess b a = false)
    (perm : (first :: others ++ filled).Perm (beginningAt edits pos)) (known : ∀ e ∈ first :: others, e.empty = true)
    (unknown : ∀ e ∈ filled, e.empty = false) : ∀ e ∈ others, e.loc = first.loc := by
  have place : ∀ e ∈ first :: others, e ∈ beginningAt edits pos :=
    fun e member => perm.mem_iff.mp (List.mem_append_left _ member)
  have inFirst := place first List.mem_cons_self
  have locFirst := insertion_loc inFirst (known first List.mem_cons_self)
  intro e member
  have inE := place e (List.mem_cons_of_mem _ member)
  have locE := insertion_loc inE (known e (List.mem_cons_of_mem _ member))
  by_contra other
  have together : ∀ d ∈ others, d.empty = true ∧ d.beginPos = first.beginPos := by
    intro d inside
    have inD := place d (List.mem_cons_of_mem _ inside)
    exact ⟨known d (List.mem_cons_of_mem _ inside),(mem_beginningAt.mp inD).2.trans (mem_beginningAt.mp inFirst).2.symm⟩
  have none_ : insertionsAt (mergeNeighbours (first :: others ++ filled)) e.file pos = [] := by
    rw [mergeNeighbours.eq_def]
    dsimp only [List.cons_append]
    rw [mergeInto_insertions (known first List.mem_cons_self) together unknown]
    refine List.filter_eq_nil_iff.mpr fun d inside here => ?_
    obtain rfl | inside' := List.mem_cons.mp inside
    · exact other (locE.trans (of_decide_eq_true here).symm)
    · exact filled_loc (unknown d inside') e.file (of_decide_eq_true here)
  have some_ : (insertionsAt edits e.file pos).isEmpty = false := by
    have inside : e ∈ insertionsAt edits e.file pos := mem_insertionsAt.mpr ⟨(mem_beginningAt.mp inE).1,locE⟩
    exact List.isEmpty_eq_false_iff.mpr (List.ne_nil_of_mem inside)
  have result := merged_group all perm (free _ perm) e.file
  rw [none_,combined,some_,if_neg Bool.false_ne_true] at result
  cases result

-- An edit that is no insertion would leave apart the insertions before and after it.
theorem insertions_undivided (all : ∀ merged, Merges edits merged → Merged edits merged)
    (free : ∀ group : List Edit, group.Perm (beginningAt edits pos) → group.Pairwise fun a b => mergeLess b a = false)
    (perm : (first :: others ++ n :: filled).Perm (beginningAt edits pos)) (known : ∀ e ∈ first :: others, e.empty = true)
    (unknown : ∀ e ∈ n :: filled, e.empty = false) (same : ∀ e ∈ others, e.loc = first.loc) : others = [] := by
  by_contra several
  obtain ⟨second,later⟩ := List.exists_mem_of_ne_nil others several
  have inFirst : first ∈ beginningAt edits pos := perm.mem_iff.mp List.mem_cons_self
  have locFirst := insertion_loc inFirst (known first List.mem_cons_self)
  have moved : (first :: (n :: filled ++ others)).Perm (beginningAt edits pos) :=
    (List.perm_append_comm.cons first).trans perm
  have apart : ¬ Adjacent first n := by
    intro adjacent
    have filled_ := unknown n List.mem_cons_self
    rw [adjacent.2.2] at filled_
    cases filled_
  have left : ∃ e ∈ mergeInto n (filled ++ others), e.empty = true :=
    mergeInto_some ⟨second,List.mem_cons_of_mem _ (List.mem_append_right _ later),known second (List.mem_cons_of_mem _ later)⟩
  obtain ⟨e,member,empty⟩ := left
  obtain ⟨old,place,locs⟩ := mergeInto_loc member
  have place' : old ∈ others := by
    have empty' : old.empty = true := (empty_loc locs).symm.trans empty
    obtain inFilled | inOthers := List.mem_append.mp (show old ∈ n :: filled ++ others from place)
    · have filled_ := unknown old inFilled
      rw [empty'] at filled_
      cases filled_
    · exact inOthers
  have there : e ∈ insertionsAt (mergeInto n (filled ++ others)) first.file pos :=
    mem_insertionsAt.mpr ⟨member,(locs.trans (same old place')).trans locFirst⟩
  have two : insertionsAt (mergeNeighbours (first :: (n :: filled ++ others))) first.file pos =
      first :: insertionsAt (mergeInto n (filled ++ others)) first.file pos := by
    rw [mergeNeighbours,List.cons_append,mergeInto_other apart,insertionsAt,List.filter_cons,if_pos (by simpa using locFirst)]
    rfl
  have result := merged_group all moved (free _ moved) first.file
  have size := congrArg List.length result
  have some_ := List.length_pos_of_mem there
  rw [combined,two,List.length_cons] at size
  split at size
  · cases size
  · rw [List.length_singleton] at size
    omega

-- Of several insertions at an offset one is lost among those of another place, or one is left apart behind an edit
-- that is no insertion.
theorem few_insertions (all : ∀ merged, Merges edits merged → Merged edits merged)
    (free : ∀ group : List Edit, group.Perm (beginningAt edits pos) → group.Pairwise fun a b => mergeLess b a = false)
    (places : ¬ ∀ a ∈ beginningAt edits pos, ∀ b ∈ beginningAt edits pos, a.loc = b.loc) :
    ((beginningAt edits pos).filter Edit.empty).length ≤ 1 := by
  have perm : ((beginningAt edits pos).filter Edit.empty ++ (beginningAt edits pos).filter fun e => !e.empty).Perm
      (beginningAt edits pos) := List.filter_append_perm ..
  have known : ∀ e ∈ (beginningAt edits pos).filter Edit.empty, e.empty = true := fun e member => (List.mem_filter.mp member).2
  have unknown : ∀ e ∈ (beginningAt edits pos).filter (fun e => !e.empty), e.empty = false := by
    intro e member
    simpa using (List.mem_filter.mp member).2
  revert perm known unknown
  generalize (beginningAt edits pos).filter Edit.empty = insertions
  generalize (beginningAt edits pos).filter (fun e => !e.empty) = filled
  intro perm known unknown
  cases insertions with
  | nil => exact Nat.zero_le 1
  | cons first others =>
    have same := insertions_placed all free perm known unknown
    cases filled with
    | nil =>
      rw [List.append_nil] at perm
      have one : ∀ e ∈ beginningAt edits pos, e.loc = first.loc := by
        intro e member
        obtain rfl | member' := List.mem_cons.mp (perm.mem_iff.mpr member)
        · rfl
        · exact same e member'
      exact absurd (fun a inA b inB => (one a inA).trans (one b inB).symm) places
    | cons n filled =>
      rw [insertions_undivided all free perm known unknown same]
      exact Nat.le_refl 1

-- Two edits at one place are both incomparable to an edit of another place.
theorem one_replacement (weak : IsStrictWeakOrder {edit // edit ∈ edits} fun a b => mergeLess a.1 b.1 = true)
    (places : ¬ ∀ a ∈ beginningAt edits pos, ∀ b ∈ beginningAt edits pos, a.loc = b.loc)
    (inA : a ∈ beginningAt edits pos) (inB : b ∈ beginningAt edits pos) (same : a.loc = b.loc) : a.replacement = b.replacement := by
  obtain ⟨z,inZ,other⟩ : ∃ z ∈ beginningAt edits pos, z.loc ≠ a.loc := by
    by_contra none_
    push Not at none_
    exact places fun c inC d inD => (none_ c inC).trans (none_ d inD).symm
  obtain ⟨memberA,startA⟩ := mem_beginningAt.mp inA
  obtain ⟨memberB,startB⟩ := mem_beginningAt.mp inB
  obtain ⟨memberZ,startZ⟩ := mem_beginningAt.mp inZ
  have first := incomparable_iff.mpr ⟨startA.trans startZ.symm,fun same' => absurd same'.symm other⟩
  have second := incomparable_iff.mpr ⟨startZ.trans startB.symm,fun same' => absurd (same'.trans same.symm) other⟩
  exact (incomparable_iff.mp (weak.incomp_trans ⟨a,memberA⟩ ⟨z,memberZ⟩ ⟨b,memberB⟩ first second)).2 same

theorem unmixed_of_merged (weak : IsStrictWeakOrder {edit // edit ∈ edits} fun a b => mergeLess a.1 b.1 = true)
    (all : ∀ merged, Merges edits merged → Merged edits merged) : Unmixed edits := by
  intro pos
  by_cases places : ∀ a ∈ beginningAt edits pos, ∀ b ∈ beginningAt edits pos, a.loc = b.loc
  · exact .inl places
  · have decides : ∀ a ∈ beginningAt edits pos, ∀ b ∈ beginningAt edits pos, a.loc = b.loc → a.replacement = b.replacement :=
      fun a inA b inB => one_replacement weak places inA inB
    refine .inr ⟨few_insertions all (fun group perm => ?_) places,decides⟩
    refine List.pairwise_of_forall_mem_list fun a inA b inB => ?_
    have inA' := perm.mem_iff.mp inA
    have inB' := perm.mem_iff.mp inB
    have start := (mem_beginningAt.mp inA').2.trans (mem_beginningAt.mp inB').2.symm
    exact Bool.eq_false_iff.mpr (incomparable_iff.mpr ⟨start,decides a inA' b inB'⟩).2

theorem insertionsAt_beginningAt (edits : List Edit) (file : FileRef) (pos : Nat) :
    insertionsAt (beginningAt edits pos) file pos = insertionsAt edits file pos := by
  rw [insertionsAt,beginningAt,List.filter_filter]
  refine List.filter_congr fun e _ => ?_
  by_cases here : e.loc = insertionLoc file pos
  · have start : e.beginPos = pos := congrArg (fun loc => loc.offsets.beginLoc) here
    simp [here,start]
  · simp [here]

theorem insertionsAt_empty (member : a ∈ insertionsAt edits file pos) : a.empty = true ∧ a.beginPos = pos := by
  have here := (mem_insertionsAt.mp member).2
  constructor
  · rw [Edit.empty,here]
    simp [insertionLoc,Loc.empty,Scip.LocOffsets.empty]
  · exact congrArg (fun loc => loc.offsets.beginLoc) here

theorem combined_perm {insertions insertions' : List Edit} (perm : insertions.Perm insertions') (file : FileRef) (pos : Nat) :
    combined insertions file pos = combined insertions' file pos := by
  have sorted : sortedReplacements insertions = sortedReplacements insertions' := by
    have perm' := ((List.perm_insertionSort (· ≤ ·) _).trans (perm.map Edit.replacement)).trans
      (List.perm_insertionSort (· ≤ ·) (insertions'.map Edit.replacement)).symm
    exact perm'.eq_of_pairwise (fun _ _ _ _ => le_antisymm) (List.pairwise_insertionSort _ _) (List.pairwise_insertionSort _ _)
  rw [combined,combined,sorted,perm.isEmpty_eq]

-- One place for all edits of the offset.
theorem mergeNeighbours_one (ordered : group.Pairwise fun a b => mergeLess b a = false)
    (one : ∀ a ∈ group, ∀ b ∈ group, a.loc = b.loc) (start : ∀ a ∈ group, a.beginPos = pos) :
    insertionsAt (mergeNeighbours group) file pos = combined (insertionsAt group file pos) file pos := by
  cases group with
  | nil => rfl
  | cons first others =>
    have locs : ∀ e ∈ others, e.loc = first.loc := fun e member => one e (List.mem_cons_of_mem _ member) first List.mem_cons_self
    by_cases here : first.loc = insertionLoc file pos
    · have all : insertionsAt (first :: others) file pos = first :: others := by
        refine List.filter_eq_self.mpr fun e member => decide_eq_true ?_
        exact (one e member first List.mem_cons_self).trans here
      have empty : first.empty = true := (insertionsAt_empty (mem_insertionsAt.mpr ⟨List.mem_cons_self,here⟩ :
        first ∈ insertionsAt (first :: others) file pos)).1
      have together : ∀ e ∈ others, e.empty = true ∧ e.beginPos = first.beginPos :=
        fun e member => ⟨(empty_loc (locs e member)).trans empty,beginPos_loc (locs e member)⟩
      have merged := mergeInto_insertions empty together (by simp : ∀ e ∈ ([] : List Edit), e.empty = false)
      rw [List.append_nil] at merged
      have sorted : sortedReplacements (first :: others) = (first :: others).map Edit.replacement := by
        refine List.Pairwise.insertionSort_eq (List.pairwise_map.mpr (ordered.imp_of_mem ?_))
        intro a b inA inB order
        refine not_lt.mp fun less => ?_
        rw [mergeLess_iff.mpr (.inr ⟨one b inB a inA,less⟩)] at order
        cases order
      rw [all,combined,sorted,mergeNeighbours,merged,insertionsAt,List.filter_cons,if_pos (by simpa using here),here]
      rfl
    · have none_ : ∀ e ∈ first :: others, e.loc ≠ insertionLoc file pos :=
        fun e member same => here ((one e member first List.mem_cons_self).symm.trans same)
      have nil : insertionsAt (first :: others) file pos = [] :=
        List.filter_eq_nil_iff.mpr fun e member same => none_ e member (of_decide_eq_true same)
      rw [nil]
      refine List.filter_eq_nil_iff.mpr fun e member same => ?_
      obtain ⟨old,place,locs⟩ := mergeNeighbours_loc member
      exact none_ old place (locs.symm.trans (of_decide_eq_true same))

-- At most one insertion at the offset.
theorem mergeNeighbours_few (few : (group.filter Edit.empty).length ≤ 1) :
    insertionsAt (mergeNeighbours group) file pos = combined (insertionsAt group file pos) file pos := by
  have apart : group.Pairwise fun a b => ¬ (a.empty = true ∧ b.empty = true) := by
    refine List.pairwise_iff_forall_sublist.mpr fun {a b} pair both => ?_
    have two := (pair.filter Edit.empty).length_le
    rw [List.filter_cons,if_pos both.1,List.filter_cons,if_pos both.2] at two
    exact absurd (two.trans few) (by simp)
  rw [mergeNeighbours_apart apart]
  have short : (insertionsAt group file pos).length ≤ 1 := by
    refine ((List.monotone_filter_right group fun e here => ?_).length_le).trans few
    rw [Edit.empty,of_decide_eq_true here]
    simp [insertionLoc,Loc.empty,Scip.LocOffsets.empty]
  cases found : insertionsAt group file pos with
  | nil => rfl
  | cons e others =>
    have alone : others = [] := by
      rw [found,List.length_cons] at short
      exact List.eq_nil_of_length_eq_zero (by omega)
    have here : e.loc = insertionLoc file pos := (mem_insertionsAt.mp (found ▸ List.mem_cons_self)).2
    rw [alone,combined,sortedReplacements,← here]
    simp

theorem merged_of_unmixed (unmixed : Unmixed edits) (merges : Merges edits merged) : Merged edits merged := by
  obtain ⟨sorted,⟨perm,ordered⟩,rfl⟩ := merges
  constructor
  · rw [mergeNeighbours_filled]
    exact perm.filter _
  · intro file pos
    have here : ∀ e ∈ beginningAt sorted pos, e.beginPos = pos := fun e member => (mem_beginningAt.mp member).2
    have same : (beginningAt sorted pos).Perm (beginningAt edits pos) := perm.filter _
    have step : insertionsAt (mergeNeighbours (beginningAt sorted pos)) file pos =
        combined (insertionsAt (beginningAt sorted pos) file pos) file pos := by
      obtain one | ⟨few,-⟩ := unmixed pos
      · refine mergeNeighbours_one (ordered.filter _) (fun a inA b inB => ?_) here
        exact one a (same.mem_iff.mp inA) b (same.mem_iff.mp inB)
      · exact mergeNeighbours_few (by rwa [(same.filter _).length_eq])
    calc insertionsAt (mergeNeighbours sorted) file pos
      _ = combined (insertionsAt (beginningAt sorted pos) file pos) file pos := (mergeNeighbours_at ordered file pos).trans step
      _ = combined (insertionsAt sorted file pos) file pos := by rw [insertionsAt_beginningAt]
      _ = combined (insertionsAt edits file pos) file pos := combined_perm (perm.filter _) file pos

-- The merge keeps everything and its comparator is fit for a sort exactly for lists that do not mix places.
theorem mergeAdjacentEdits_exact_iff (edits : List Edit) :
    (IsStrictWeakOrder {edit // edit ∈ edits} (fun a b => mergeLess a.1 b.1 = true) ∧
      ∀ merged, Merges edits merged → Merged edits merged) ↔ Unmixed edits :=
  ⟨fun ⟨weak,all⟩ => unmixed_of_merged weak all,
    fun unmixed => ⟨strictWeakOrder_of_unmixed unmixed,fun _ => merged_of_unmixed unmixed⟩⟩

-- Insertions at the start of two files.
theorem mergeAdjacentEdits_mixes_files :
    ¬ ∀ edits merged, Merges edits merged → Merged edits merged := by
  intro all
  have sorted : SortedBy mergeLess [⟨insertionLoc 1 0,['a']⟩,⟨insertionLoc 2 0,['b']⟩]
      [⟨insertionLoc 1 0,['a']⟩,⟨insertionLoc 2 0,['b']⟩] := ⟨.refl _,by decide⟩
  have lost := (all _ _ ⟨_,sorted,rfl⟩).insertions 2 0
  exact absurd lost (by decide)

end Exactness

end Autocorrect
