import Mathlib.Data.List.Induction
import Mathlib.Data.List.Pairwise
import Mathlib.Data.List.Sort
import ScipRuby.Lib.Splicing
import ScipRuby.Scip.Location

namespace Autocorrect
open Scip (Str FileRef Loc)

structure Edit where
  loc : Loc
  replacement : Str
  deriving DecidableEq

namespace Edit

def file (edit : Edit) : FileRef := edit.loc.file
def beginPos (edit : Edit) : Nat := edit.loc.offsets.beginLoc
def endPos (edit : Edit) : Nat := edit.loc.offsets.endLoc

end Edit

structure AutocorrectSuggestion where
  edits : List Edit

-- Sorbet's hasSeen; the order of the set does not matter.
def hasSeen (seen : List Loc) (loc : Loc) : Bool :=
  seen.any fun seenLoc =>
    if seenLoc.file ≠ loc.file then false
    else if seenLoc = loc then true
    else if loc.offsets.beginLoc ≤ seenLoc.offsets.beginLoc ∧ seenLoc.offsets.beginLoc < loc.offsets.endLoc then true
    else loc.offsets.beginLoc ≤ seenLoc.offsets.endLoc ∧ seenLoc.offsets.endLoc < loc.offsets.endLoc

-- Backwards.
def compare (left right : Edit) : Bool :=
  if left.file ≠ right.file then right.file < left.file
  else if left.beginPos ≠ right.beginPos then right.beginPos < left.beginPos
  else false

-- fast_sort is not stable: any order of the list will do in which no element comes
-- after one that is to come after it.
structure SortedBy {α : Type} (compare : α → α → Bool) (list sorted : List α) : Prop where
  perm : sorted.Perm list
  ordered : sorted.Pairwise fun a b => compare b a = false

-- The map of the results as a function.
structure State where
  seen : List Loc := []
  ret : FileRef → Option Str := fun _ => none

def applyEdit (sources : FileRef → Str) (state : State) (edit : Edit) : State :=
  let loc := edit.loc
  if !loc.exists then state
  else
    let source := (state.ret loc.file).getD (sources loc.file)
    let state := {state with ret := Function.update state.ret loc.file (some source)}
    let start := loc.offsets.beginLoc
    let stop := loc.offsets.endLoc
    if hasSeen state.seen loc then state
    else
      { seen := loc :: state.seen
        ret := Function.update state.ret loc.file (some (source.take start ++ edit.replacement ++ source.drop stop)) }

def allEdits (autocorrects : List AutocorrectSuggestion) : List Edit := autocorrects.flatMap AutocorrectSuggestion.edits

def applySorted (sources : FileRef → Str) (edits : List Edit) : State := edits.foldl (applyEdit sources) {}

-- The results that apply can have; sources is what the file system holds.
def Applies (sources : FileRef → Str) (autocorrects : List AutocorrectSuggestion) (result : FileRef → Option Str) : Prop :=
  ∃ sorted, SortedBy compare (allEdits autocorrects) sorted ∧ result = (applySorted sources sorted).ret

section Meaning
variable (sources : FileRef → Str)

def Edit.toSplice (edit : Edit) : Splicing.Edit Char := ⟨edit.beginPos,edit.endPos,edit.replacement,edit.loc.offsets.ordered⟩

def editsOf (file : FileRef) (edits : List Edit) : List (Splicing.Edit Char) :=
  (edits.filter fun edit => edit.file = file).map Edit.toSplice

-- All edits of a file at once, for a file that has any.
def simultaneousText (edits : List Edit) (file : FileRef) : Option Str :=
  if (editsOf file edits).isEmpty then none else some (Splicing.simultaneous (editsOf file edits) (sources file))

-- Edits of one file that do not overlap and have different ranges.
def Separate (a b : Edit) : Prop := a.file = b.file → Splicing.Edit.Apart a.toSplice b.toSplice

structure Valid (edits : List Edit) : Prop where
  existing : ∀ edit ∈ edits, edit.loc.exists = true
  inside : ∀ edit ∈ edits, edit.endPos ≤ (sources edit.file).length
  separate : edits.Pairwise Separate

-- An insertion at the start of a range that is replaced.
structure Masks (insertion edit : Edit) : Prop where
  file : insertion.file = edit.file
  start : insertion.beginPos = edit.beginPos
  stop : insertion.endPos = edit.beginPos
  filled : edit.beginPos < edit.endPos

-- Whatever is replaced behind an insertion is replaced with itself.
def Unmasked (edits : List Edit) : Prop :=
  ∀ edit ∈ edits, ∀ insertion ∈ edits, Masks insertion edit → edit.replacement = edit.toSplice.old (sources edit.file)

-- However the edits are ordered and split over suggestions, each file is as if they
-- had been applied at once.
def AppliedExactly (autocorrects : List AutocorrectSuggestion) : Prop :=
  ∀ autocorrects' result, (allEdits autocorrects').Perm (allEdits autocorrects) → Applies sources autocorrects' result →
    ∀ file, result file = simultaneousText sources (allEdits autocorrects) file

end Meaning

section Steps
variable {sources : FileRef → Str} {kept : List Edit} {edit d : Edit} {state : State} {file : FileRef}

theorem editsOf_cons_same (edit : Edit) (edits : List Edit) :
    editsOf edit.file (edit :: edits) = edit.toSplice :: editsOf edit.file edits := by
  simp [editsOf]

theorem editsOf_cons_other (other : edit.file ≠ file) (edits : List Edit) : editsOf file (edit :: edits) = editsOf file edits := by
  simp [editsOf,other]

theorem mem_editsOf {edits : List Edit} {e : Splicing.Edit Char} :
    e ∈ editsOf file edits ↔ ∃ edit ∈ edits, edit.file = file ∧ edit.toSplice = e := by
  simp [editsOf,and_assoc]

-- Sorted edits come from the back of the file to its front.
theorem seen_iff (separate : Separate d edit) (behind : d.file = edit.file → edit.beginPos ≤ d.beginPos) :
    hasSeen [d.loc] edit.loc = true ↔ Masks d edit := by
  have ordered := d.loc.offsets.ordered
  unfold hasSeen
  rw [List.any_cons,List.any_nil,Bool.or_false]
  by_cases same : d.loc.file = edit.loc.file
  · obtain ⟨distinct,disjoint⟩ := separate same
    have low := behind same
    simp only [Edit.toSplice,Edit.beginPos,Edit.endPos] at distinct disjoint low
    have differs : d.loc ≠ edit.loc := by
      intro equal
      rw [equal] at distinct
      exact distinct ⟨rfl,rfl⟩
    rw [if_neg (not_not.mpr same),if_neg differs]
    constructor
    · intro overlaps
      split at overlaps
      · refine ⟨same,?_,?_,?_⟩ <;> simp only [Edit.beginPos,Edit.endPos] <;> omega
      · have := of_decide_eq_true overlaps
        refine ⟨same,?_,?_,?_⟩ <;> simp only [Edit.beginPos,Edit.endPos] <;> omega
    · rintro ⟨-,start,stop,filled⟩
      simp only [Edit.beginPos,Edit.endPos] at start stop filled
      rw [if_pos (by omega)]
  · rw [if_pos same]
    exact iff_of_false Bool.false_ne_true fun masks => same masks.file

theorem hasSeen_iff (separate : ∀ d ∈ kept, Separate d edit)
    (behind : ∀ d ∈ kept, d.file = edit.file → edit.beginPos ≤ d.beginPos) :
    hasSeen (kept.map Edit.loc) edit.loc = true ↔ ∃ d ∈ kept, Masks d edit := by
  have each : hasSeen (kept.map Edit.loc) edit.loc = true ↔ ∃ d ∈ kept, hasSeen [d.loc] edit.loc = true := by
    simp only [hasSeen,List.any_eq_true,List.mem_map,exists_exists_and_eq_and,List.any_cons,List.any_nil,Bool.or_false]
  rw [each]
  exact exists_congr fun d => and_congr_right fun member => seen_iff (separate d member) (behind d member)

theorem simultaneousText_getD (sources : FileRef → Str) (edits : List Edit) (file : FileRef) :
    (simultaneousText sources edits file).getD (sources file) = Splicing.simultaneous (editsOf file edits) (sources file) := by
  unfold simultaneousText
  split
  · rename_i none_
    rw [List.isEmpty_iff.mp none_,Splicing.simultaneous_nil]
    rfl
  · rfl

theorem simultaneousText_some (sources : FileRef → Str) {edits : List Edit} (member : d ∈ edits) :
    simultaneousText sources edits d.file = some (Splicing.simultaneous (editsOf d.file edits) (sources d.file)) := by
  have inside : d.toSplice ∈ editsOf d.file edits := mem_editsOf.mpr ⟨d,member,rfl,rfl⟩
  exact if_neg fun none_ => List.ne_nil_of_mem inside (List.isEmpty_iff.mp none_)

-- The state after edits of which some were applied.
structure Kept (sources : FileRef → Str) (kept : List Edit) (state : State) : Prop where
  seen : state.seen = kept.map Edit.loc
  ret : ∀ file, state.ret file = simultaneousText sources kept file

theorem Kept.skip (holds : Kept sources kept state) (existing : edit.loc.exists = true) (separate : ∀ d ∈ kept, Separate d edit)
    (behind : ∀ d ∈ kept, d.file = edit.file → edit.beginPos ≤ d.beginPos) (masked : ∃ d ∈ kept, Masks d edit) :
    Kept sources kept (applyEdit sources state edit) := by
  have seen : hasSeen state.seen edit.loc = true := by
    rw [holds.seen]
    exact (hasSeen_iff separate behind).mpr masked
  obtain ⟨d,member,masks⟩ := masked
  have there : state.ret edit.loc.file = some ((state.ret edit.loc.file).getD (sources edit.loc.file)) := by
    have found := simultaneousText_some sources member
    rw [masks.file] at found
    rw [holds.ret,show edit.loc.file = edit.file from rfl,found]
    rfl
  have result : applyEdit sources state edit = state := by
    simp only [applyEdit,existing,seen,Bool.not_true,Bool.false_eq_true,if_false,if_true]
    rw [← there,Function.update_eq_self]
  rw [result]
  exact holds

theorem Kept.apply (holds : Kept sources kept state) (existing : edit.loc.exists = true)
    (inside : edit.endPos ≤ (sources edit.file).length) (separate : ∀ d ∈ kept, Separate d edit)
    (behind : ∀ d ∈ kept, d.file = edit.file → edit.beginPos ≤ d.beginPos) (unmasked : ¬ ∃ d ∈ kept, Masks d edit) :
    Kept sources (edit :: kept) (applyEdit sources state edit) := by
  have seen : hasSeen state.seen edit.loc = false := by
    rw [holds.seen,← Bool.not_eq_true]
    exact mt (hasSeen_iff separate behind).mp unmasked
  have after : ∀ e ∈ editsOf edit.file kept, edit.toSplice.stop ≤ e.start := by
    intro e member
    obtain ⟨d,member',same,rfl⟩ := mem_editsOf.mp member
    obtain ⟨distinct,disjoint⟩ := separate d member' same
    have low := behind d member' same
    have ordered := d.loc.offsets.ordered
    have ordered' := edit.loc.offsets.ordered
    simp only [Edit.toSplice,Edit.beginPos,Edit.endPos] at distinct disjoint low ⊢
    by_contra before
    have masks : Masks d edit := by
      refine ⟨same,?_,?_,?_⟩ <;> simp only [Edit.beginPos,Edit.endPos] <;> omega
    exact unmasked ⟨d,member',masks⟩
  have text := Splicing.simultaneous_cons after inside
  simp only [applyEdit,existing,seen,Bool.not_true,Bool.false_eq_true,if_false]
  refine ⟨by rw [holds.seen]; rfl,fun file => ?_⟩
  dsimp only
  by_cases same : edit.file = file
  · have found := simultaneousText_some sources (List.mem_cons_self : edit ∈ edit :: kept)
    rw [← same,found,editsOf_cons_same,text,← simultaneousText_getD,← holds.ret]
    exact Function.update_self ..
  · have other : file ≠ edit.loc.file := Ne.symm same
    rw [simultaneousText,editsOf_cons_other same,Function.update_of_ne other,Function.update_of_ne other,holds.ret]
    rfl

end Steps

section Runs
variable {sources : FileRef → Str} {edits sorted done : List Edit} {edit d : Edit}

-- An edit behind an insertion at its start, in the order of the list.
def MaskedIn (sorted : List Edit) (edit : Edit) : Prop :=
  ∃ before after, sorted = before ++ edit :: after ∧ ∃ insertion ∈ before, Masks insertion edit

theorem maskedIn_snoc : MaskedIn (done ++ [d]) edit ↔ MaskedIn done edit ∨ (edit = d ∧ ∃ insertion ∈ done, Masks insertion d) := by
  constructor
  · rintro ⟨before,after,split,masked⟩
    obtain rfl | ⟨after',last,rfl⟩ := List.eq_nil_or_concat after
    · obtain ⟨rfl,same⟩ := List.append_inj' split rfl
      obtain rfl := List.singleton_inj.mp same
      exact .inr ⟨rfl,masked⟩
    · rw [List.concat_eq_append,← List.cons_append,← List.append_assoc] at split
      obtain ⟨rfl,-⟩ := List.append_inj' split rfl
      exact .inl ⟨before,after',rfl,masked⟩
  · rintro (⟨before,after,rfl,masked⟩ | ⟨rfl,masked⟩)
    · exact ⟨before,after ++ [d],by simp,masked⟩
    · exact ⟨done,[],rfl,masked⟩

-- What a run over sorted edits keeps and what it leaves out: replacements behind an insertion.
structure Ran (sources : FileRef → Str) (sorted kept dropped : List Edit) : Prop where
  perm : sorted.Perm (dropped ++ kept)
  masked : ∀ edit, edit ∈ dropped ↔ MaskedIn sorted edit
  holds : Kept sources kept (applySorted sources sorted)

-- An insertion is not left out itself.
theorem Ran.insertion {kept dropped : List Edit} (ran : Ran sources sorted kept dropped) (member : edit ∈ sorted)
    (masks : Masks edit d) : edit ∈ kept := by
  obtain lost | stays := List.mem_append.mp (ran.perm.mem_iff.mp member)
  · obtain ⟨_,_,_,_,_,masks'⟩ := (ran.masked edit).mp lost
    have filled := masks'.filled
    rw [masks.stop,masks.start] at filled
    exact absurd filled (Nat.lt_irrefl _)
  · exact stays

theorem applySorted_ran (valid : Valid sources sorted) (ordered : sorted.Pairwise fun a b => compare b a = false) :
    ∃ kept dropped, Ran sources sorted kept dropped := by
  induction sorted using List.reverseRecOn with
  | nil =>
    refine ⟨[],[],.refl _,?_,rfl,fun _ => rfl⟩
    simp [MaskedIn]
  | append_singleton done d ih =>
    have valid' : Valid sources done := ⟨fun edit member => valid.existing edit (List.mem_append_left _ member),
      fun edit member => valid.inside edit (List.mem_append_left _ member),(List.pairwise_append.mp valid.separate).1⟩
    obtain ⟨kept,dropped,ran⟩ := ih valid' (List.pairwise_append.mp ordered).1
    have last : d ∈ done ++ [d] := List.mem_append_right _ List.mem_cons_self
    have earlier : ∀ e ∈ kept, e ∈ done := fun e member => ran.perm.mem_iff.mpr (List.mem_append_right _ member)
    have separate : ∀ e ∈ kept, Separate e d :=
      fun e member => (List.pairwise_append.mp valid.separate).2.2 e (earlier e member) d List.mem_cons_self
    have behind : ∀ e ∈ kept, e.file = d.file → d.beginPos ≤ e.beginPos := by
      intro e member same
      have order := (List.pairwise_append.mp ordered).2.2 e (earlier e member) d List.mem_cons_self
      simp only [compare,same,ne_eq,not_true_eq_false,if_false] at order
      split at order
      · have := of_decide_eq_false order
        omega
      · omega
    have masks_iff : (∃ insertion ∈ kept, Masks insertion d) ↔ ∃ insertion ∈ done, Masks insertion d :=
      ⟨fun ⟨insertion,member,masks⟩ => ⟨insertion,earlier insertion member,masks⟩,
        fun ⟨insertion,member,masks⟩ => ⟨insertion,ran.insertion member masks,masks⟩⟩
    have run : applySorted sources (done ++ [d]) = applyEdit sources (applySorted sources done) d := List.foldl_concat ..
    by_cases behind_ : ∃ insertion ∈ kept, Masks insertion d
    · refine ⟨kept,d :: dropped,?_,?_,run ▸ ran.holds.skip (valid.existing d last) separate behind behind_⟩
      · exact (List.perm_append_singleton d done).trans (ran.perm.cons d)
      · intro edit
        rw [maskedIn_snoc,List.mem_cons,ran.masked,← masks_iff]
        tauto
    · refine ⟨d :: kept,dropped,?_,?_,run ▸ ran.holds.apply (valid.existing d last) (valid.inside d last) separate behind behind_⟩
      · exact (List.perm_append_singleton d done).trans ((ran.perm.cons d).trans List.perm_middle.symm)
      · intro edit
        rw [maskedIn_snoc,ran.masked,← masks_iff]
        exact (or_iff_left fun both => behind_ both.2).symm

theorem Separate.symm (separate : Separate edit d) : Separate d edit := fun same => (separate same.symm).symm

instance : Std.Symm Separate := ⟨fun _ _ separate => separate.symm⟩

theorem Valid.perm (valid : Valid sources edits) (perm : sorted.Perm edits) : Valid sources sorted :=
  ⟨fun edit member => valid.existing edit (perm.mem_iff.mp member),fun edit member => valid.inside edit (perm.mem_iff.mp member),
    (perm.pairwise_iff fun separate => separate.symm).mpr valid.separate⟩

theorem Valid.apart (valid : Valid sources edits) (file : FileRef) : (editsOf file edits).Pairwise Splicing.Edit.Apart := by
  refine List.pairwise_map.mpr ((valid.separate.filter _).imp_of_mem ?_)
  intro a b first second separate
  have first' := (List.mem_filter.mp first).2
  have second' := (List.mem_filter.mp second).2
  exact separate ((of_decide_eq_true first').trans (of_decide_eq_true second').symm)

theorem simultaneousText_perm (valid : Valid sources edits) (perm : sorted.Perm edits) (file : FileRef) :
    simultaneousText sources sorted file = simultaneousText sources edits file := by
  have perm' : (editsOf file sorted).Perm (editsOf file edits) := (perm.filter _).map _
  rw [simultaneousText,simultaneousText,Splicing.simultaneous_perm ((valid.perm perm).apart file) perm',perm'.isEmpty_eq]

-- Whether it matters that one replacement behind an insertion is left out.
theorem simultaneousText_drop (valid : Valid sources (edit :: edits)) (masked : ∃ insertion ∈ edits, Masks insertion edit) :
    (∀ file, simultaneousText sources (edit :: edits) file = simultaneousText sources edits file) ↔
      edit.replacement = edit.toSplice.old (sources edit.file) := by
  obtain ⟨insertion,member,masks⟩ := masked
  have apart := valid.apart edit.file
  rw [editsOf_cons_same,List.pairwise_cons] at apart
  have same := Splicing.simultaneous_without_iff (fun e member => (apart.1 e member).disjoint.symm)
    masks.filled (valid.inside edit List.mem_cons_self)
  have here := simultaneousText_some sources (List.mem_cons_self : edit ∈ edit :: edits)
  have here' := simultaneousText_some sources member
  rw [masks.file] at here'
  rw [editsOf_cons_same] at here
  constructor
  · intro all
    have text := all edit.file
    rw [here,here'] at text
    exact same.mp (Option.some.inj text)
  · intro replaced file
    by_cases file_ : edit.file = file
    · rw [← file_,here,here',same.mpr replaced]
    · rw [simultaneousText,editsOf_cons_other file_,simultaneousText]

-- Leaving out replacements that change nothing.
theorem simultaneousText_dropped {kept dropped : List Edit} (valid : Valid sources (dropped ++ kept))
    (masked : ∀ edit ∈ dropped, ∃ insertion ∈ kept, Masks insertion edit)
    (idle : ∀ edit ∈ dropped, edit.replacement = edit.toSplice.old (sources edit.file)) (file : FileRef) :
    simultaneousText sources (dropped ++ kept) file = simultaneousText sources kept file := by
  induction dropped with
  | nil => rfl
  | cons edit dropped ih =>
    have valid' : Valid sources (dropped ++ kept) := ⟨fun e member => valid.existing e (List.mem_cons_of_mem _ member),
      fun e member => valid.inside e (List.mem_cons_of_mem _ member),valid.separate.of_cons⟩
    obtain ⟨insertion,member,masks⟩ := masked edit List.mem_cons_self
    have one := (simultaneousText_drop valid ⟨insertion,List.mem_append_right _ member,masks⟩).mpr (idle edit List.mem_cons_self)
    have others := ih valid' (fun e member => masked e (List.mem_cons_of_mem _ member))
      (fun e member => idle e (List.mem_cons_of_mem _ member))
    exact (one file).trans others

end Runs

section Arrangement
variable {sources : FileRef → Str} {edits sorted kept dropped : List Edit} {edit insertion : Edit}

-- Where a sort may leave edits with one start: one insertion in front of the
-- replacement there, any other one behind it.
def rank (insertion edit : Edit) : Nat := if edit = insertion then 2 else if edit.beginPos < edit.endPos then 1 else 0

def Earlier (insertion a b : Edit) : Prop :=
  b.file < a.file ∨ b.file = a.file ∧ (b.beginPos < a.beginPos ∨
    b.beginPos = a.beginPos ∧ rank insertion b ≤ rank insertion a)

instance (insertion : Edit) : DecidableRel (Earlier insertion) := fun _ _ => inferInstanceAs (Decidable (_ ∨ _))

instance (insertion : Edit) : Std.Total (Earlier insertion) := ⟨by
  intro a b
  simp only [Earlier,FileRef]
  omega⟩

instance (insertion : Edit) : IsTrans Edit (Earlier insertion) := ⟨by
  intro a b c first second
  simp only [Earlier,FileRef] at *
  omega⟩

theorem earlier_ordered {a b : Edit} (earlier : Earlier insertion a b) : compare b a = false := by
  simp only [Earlier,FileRef] at earlier
  unfold compare
  split
  · rename_i other
    refine decide_eq_false ?_
    simp only [FileRef,ne_eq] at other ⊢
    omega
  · split
    · rename_i same other
      refine decide_eq_false ?_
      simp only [FileRef,ne_eq,not_not] at same other ⊢
      omega
    · rfl

theorem exists_arrangement (insertion : Edit) (edits : List Edit) :
    ∃ sorted, SortedBy compare edits sorted ∧ sorted.Pairwise (Earlier insertion) := by
  have pairs := List.pairwise_insertionSort (Earlier insertion) edits
  exact ⟨_,⟨List.perm_insertionSort _ _,pairs.imp earlier_ordered⟩,pairs⟩

theorem rank_filled (filled : edit.beginPos < edit.endPos) (empty : insertion.beginPos = insertion.endPos) :
    rank insertion edit = 1 := by
  have apart : edit ≠ insertion := by
    rintro rfl
    omega
  rw [rank,if_neg apart,if_pos filled]

-- In that arrangement exactly the one replacement is behind an insertion.
theorem maskedIn_arrangement (valid : Valid sources sorted) (ordered : sorted.Pairwise (Earlier insertion))
    (member : edit ∈ sorted) (member' : insertion ∈ sorted) (masks : Masks insertion edit) (d : Edit) :
    MaskedIn sorted d ↔ d = edit := by
  have empty : insertion.beginPos = insertion.endPos := masks.start.trans masks.stop.symm
  have first : rank insertion insertion = 2 := if_pos rfl
  constructor
  · rintro ⟨before,after,split,other,place,masks'⟩
    have earlier : Earlier insertion other d := by
      rw [split] at ordered
      exact (List.pairwise_append.mp ordered).2.2 other place d List.mem_cons_self
    have low := rank_filled masks'.filled empty
    have same : other = insertion := by
      by_contra apart
      have none_ : rank insertion other = 0 := by
        have start := masks'.start
        have stop := masks'.stop
        rw [rank,if_neg apart,if_neg (by omega)]
      have file := masks'.file
      have start := masks'.start
      simp only [Earlier,FileRef] at earlier
      rw [low,none_,file,start] at earlier
      omega
    rw [same] at masks'
    by_contra apart
    have inside : d ∈ sorted := split ▸ List.mem_append_right _ List.mem_cons_self
    have both := valid.separate.forall inside member apart
    obtain ⟨-,disjoint⟩ := both (masks'.file.symm.trans masks.file)
    have starts := masks'.start.symm.trans masks.start
    have filled := masks.filled
    have filled' := masks'.filled
    simp only [Edit.toSplice] at disjoint
    omega
  · rintro rfl
    obtain ⟨before,after,split⟩ := List.append_of_mem member
    refine ⟨before,after,split,insertion,?_,masks⟩
    rw [split] at member' ordered
    obtain inside | later := List.mem_append.mp member'
    · exact inside
    obtain same | behind := List.mem_cons.mp later
    · have filled := masks.filled
      rw [← same] at filled
      omega
    · have earlier := List.rel_of_pairwise_cons (List.pairwise_append.mp ordered).2.1 behind
      have low := rank_filled masks.filled empty
      have file := masks.file
      have start := masks.start
      simp only [Earlier,FileRef] at earlier
      rw [low,first,file,start] at earlier
      omega

theorem Valid.nodup (valid : Valid sources edits) : edits.Nodup :=
  valid.separate.imp fun separate same => (separate (congrArg Edit.file same)).distinct ⟨by rw [same],by rw [same]⟩

-- Apply is exact for every order of the edits unless something is replaced behind an
-- insertion at its start, by something else.
theorem apply_exact_iff (sources : FileRef → Str) (autocorrects : List AutocorrectSuggestion)
    (valid : Valid sources (allEdits autocorrects)) :
    AppliedExactly sources autocorrects ↔ Unmasked sources (allEdits autocorrects) := by
  constructor
  · intro exact_ edit member insertion member' masks
    obtain ⟨sorted,sortedBy,ordered⟩ := exists_arrangement insertion (allEdits autocorrects)
    have valid' := valid.perm sortedBy.perm
    obtain ⟨kept,dropped,ran⟩ := applySorted_ran valid' sortedBy.ordered
    have alone := maskedIn_arrangement valid' ordered (sortedBy.perm.mem_iff.mpr member) (sortedBy.perm.mem_iff.mpr member') masks
    have once : dropped.Perm [edit] := by
      have nodup := (ran.perm.nodup_iff.mp valid'.nodup).of_append_left
      refine (List.perm_ext_iff_of_nodup nodup (List.nodup_singleton edit)).mpr fun d => ?_
      rw [ran.masked,alone,List.mem_singleton]
    have perm : (edit :: kept).Perm (allEdits autocorrects) :=
      ((once.append_right kept).symm.trans ran.perm.symm).trans sortedBy.perm
    refine (simultaneousText_drop (valid.perm perm) ⟨insertion,ran.insertion (sortedBy.perm.mem_iff.mpr member') masks,masks⟩).mp ?_
    intro file
    rw [simultaneousText_perm valid perm,← ran.holds.ret]
    exact (exact_ autocorrects _ (.refl _) ⟨sorted,sortedBy,rfl⟩ file).symm
  · rintro unmasked autocorrects' result same ⟨sorted,sortedBy,rfl⟩ file
    have perm := sortedBy.perm.trans same
    have valid' := valid.perm perm
    obtain ⟨kept,dropped,ran⟩ := applySorted_ran valid' sortedBy.ordered
    have behind : ∀ edit ∈ dropped, edit ∈ sorted ∧ ∃ insertion ∈ sorted, Masks insertion edit := by
      intro edit member
      obtain ⟨before,after,split,insertion,place,masks⟩ := (ran.masked edit).mp member
      exact ⟨ran.perm.mem_iff.mpr (List.mem_append_left _ member),insertion,split ▸ List.mem_append_left _ place,masks⟩
    have masked : ∀ edit ∈ dropped, ∃ insertion ∈ kept, Masks insertion edit := by
      intro edit member
      obtain ⟨-,insertion,place,masks⟩ := behind edit member
      exact ⟨insertion,ran.insertion place masks,masks⟩
    have idle : ∀ edit ∈ dropped, edit.replacement = edit.toSplice.old (sources edit.file) := by
      intro edit member
      obtain ⟨inside,insertion,place,masks⟩ := behind edit member
      exact unmasked edit (perm.mem_iff.mp inside) insertion (perm.mem_iff.mp place) masks
    have all : (dropped ++ kept).Perm (allEdits autocorrects) := ran.perm.symm.trans perm
    calc (applySorted sources sorted).ret file
      _ = simultaneousText sources kept file := ran.holds.ret file
      _ = simultaneousText sources (dropped ++ kept) file := (simultaneousText_dropped (valid.perm all) masked idle file).symm
      _ = simultaneousText sources (allEdits autocorrects) file := simultaneousText_perm valid all file

-- An insertion before the b of abcd, and the b itself or the c replaced.
def abcd : FileRef → Str := fun _ => "abcd".toList

def insertX : Edit := ⟨⟨1,1,1,by decide⟩,"x".toList⟩
def replaceB : Edit := ⟨⟨1,1,2,by decide⟩,"y".toList⟩
def replaceC : Edit := ⟨⟨1,2,3,by decide⟩,"y".toList⟩

theorem valid_pair {a b : Edit} (existing : a.loc.exists = true ∧ b.loc.exists = true) (inside : a.endPos ≤ 4 ∧ b.endPos ≤ 4)
    (separate : Separate a b) : Valid abcd (allEdits [⟨[a,b]⟩]) where
  existing := by simpa [allEdits] using existing
  inside := by simpa [allEdits,abcd] using inside
  separate := by simpa [allEdits] using separate

theorem apply_exact_replaceC : AppliedExactly abcd [⟨[insertX,replaceC]⟩] := by
  have valid : Valid abcd (allEdits [⟨[insertX,replaceC]⟩]) :=
    valid_pair (by decide) (by decide) fun _ => ⟨by decide,.inl (by decide)⟩
  refine (apply_exact_iff abcd [⟨[insertX,replaceC]⟩] valid).mpr fun edit member insertion member' masks => ?_
  have starts : ∀ e ∈ allEdits [⟨[insertX,replaceC]⟩], ∀ i ∈ allEdits [⟨[insertX,replaceC]⟩],
      i.beginPos = e.beginPos → ¬ e.beginPos < e.endPos ∨ ¬ i.endPos = e.beginPos := by decide
  obtain empty | other := starts edit member insertion member' masks.start
  · exact absurd masks.filled empty
  · exact absurd masks.stop other

theorem apply_loses_replacement : ¬ ∀ sources autocorrects, Valid sources (allEdits autocorrects) →
    AppliedExactly sources autocorrects := by
  intro always
  have valid : Valid abcd (allEdits [⟨[insertX,replaceB]⟩]) :=
    valid_pair (by decide) (by decide) fun _ => ⟨by decide,.inl (by decide)⟩
  have sorted : SortedBy compare (allEdits [⟨[insertX,replaceB]⟩]) [insertX,replaceB] := ⟨.refl _,by decide⟩
  have text := always abcd [⟨[insertX,replaceB]⟩] valid [⟨[insertX,replaceB]⟩] _ (.refl _) ⟨_,sorted,rfl⟩ 1
  exact absurd text (by decide)

end Arrangement

end Autocorrect
