import Mathlib.Data.List.Basic

namespace Splicing
variable {α : Type}

-- A range of places and what stands there afterwards; an empty range is an insertion.
structure Edit (α : Type) where
  start : Nat
  stop : Nat
  new : List α
  ordered : start ≤ stop

def splice (text : List α) (start stop : Nat) (new : List α) : List α := text.take start ++ new ++ text.drop stop

namespace Edit

def inserts (e : Edit α) (i : Nat) : Bool := e.start == i && e.stop == i
def replaces (e : Edit α) (i : Nat) : Bool := e.start == i && i < e.stop
def covers (e : Edit α) (i : Nat) : Bool := e.start ≤ i && i < e.stop

-- What an edit takes away.
def old (e : Edit α) (text : List α) : List α := (text.drop e.start).take (e.stop - e.start)

-- Two edits that can be made at once. An insertion may touch a range.
structure Apart (a b : Edit α) : Prop where
  distinct : ¬ (a.start = b.start ∧ a.stop = b.stop)
  disjoint : a.stop ≤ b.start ∨ b.stop ≤ a.start

theorem Apart.symm {a b : Edit α} (apart : Apart a b) : Apart b a :=
  ⟨fun same => apart.distinct ⟨same.1.symm,same.2.symm⟩,apart.disjoint.symm⟩

end Edit

-- What stands at a place in the end: insertions there, replacements of a range from
-- there on, and the old element unless it is taken away.
def place (edits : List (Edit α)) (text : List α) (i : Nat) : List α :=
  (edits.filter (·.inserts i)).flatMap Edit.new ++ (edits.filter (·.replaces i)).flatMap Edit.new ++
    if edits.any (·.covers i) then [] else text[i]?.toList

def between (edits : List (Edit α)) (text : List α) (start count : Nat) : List α :=
  (List.range' start count).flatMap (place edits text)

-- All edits at once.
def simultaneous (edits : List (Edit α)) (text : List α) : List α := between edits text 0 (text.length + 1)

section Places
variable {edits edits' : List (Edit α)} {text : List α} {e : Edit α} {i start count : Nat}

theorem between_add (first second : Nat) :
    between edits text start (first + second) = between edits text start first ++ between edits text (start + first) second := by
  rw [between,between,between,← List.range'_append_1,List.flatMap_append]

theorem between_succ : between edits text start (count + 1) = place edits text start ++ between edits text (start + 1) count := by
  rw [between,between,List.range'_succ,List.flatMap_cons]

theorem between_congr (same : ∀ i, start ≤ i → i < start + count → place edits text i = place edits' text i) :
    between edits text start count = between edits' text start count := by
  apply List.flatMap_congr
  intro i member
  obtain ⟨low,high⟩ := List.mem_range'_1.mp member
  exact same i low high

theorem take_drop_succ (text : List α) (start count : Nat) :
    (text.drop start).take (count + 1) = text[start]?.toList ++ (text.drop (start + 1)).take count := by
  have head := @List.head?_drop _ text start
  have tail := @List.tail_drop _ text start
  cases rest : text.drop start with
  | nil =>
    rw [rest] at head tail
    rw [← head,← tail]
    simp
  | cons c rest' =>
    rw [rest] at head tail
    rw [← head,← tail]
    rfl

-- Places where nothing happens.
theorem between_kept (kept : ∀ i, start ≤ i → i < start + count → place edits text i = text[i]?.toList) :
    between edits text start count = (text.drop start).take count := by
  induction count generalizing start with
  | zero => simp [between]
  | succ count ih =>
    have later := ih fun i low high => kept i (Nat.le_of_succ_le low) (by omega)
    rw [between_succ,kept start (Nat.le_refl _) (by omega),later,take_drop_succ]

theorem between_gone (gone : ∀ i, start ≤ i → i < start + count → place edits text i = []) :
    between edits text start count = [] := by
  apply List.flatMap_eq_nil_iff.mpr
  intro i member
  obtain ⟨low,high⟩ := List.mem_range'_1.mp member
  exact gone i low high

-- A place that an edit does not touch.
structure Edit.Off (e : Edit α) (i : Nat) : Prop where
  inserts : e.inserts i = false
  covers : e.covers i = false

theorem Edit.off_below (low : i < e.start) : e.Off i := by
  refine ⟨?_,?_⟩
  · simp [Edit.inserts]
    omega
  · simp [Edit.covers]
    omega

theorem Edit.off_above (high : e.stop ≤ i) (later : e.start ≠ i) : e.Off i := by
  refine ⟨?_,?_⟩
  · simp [Edit.inserts,later]
  · simp [Edit.covers]
    omega

theorem Edit.Off.replaces (off : e.Off i) : e.replaces i = false := by
  have uncovered := off.covers
  simp [Edit.covers,Edit.replaces] at uncovered ⊢
  omega

theorem place_off (off : ∀ d ∈ edits, d.Off i) : place edits text i = text[i]?.toList := by
  have none_ : edits.filter (·.inserts i) = [] := by
    refine List.filter_eq_nil_iff.mpr fun d member => ?_
    simp [(off d member).inserts]
  have none' : edits.filter (·.replaces i) = [] := by
    refine List.filter_eq_nil_iff.mpr fun d member => ?_
    simp [(off d member).replaces]
  have open_ : edits.any (·.covers i) = false := by
    refine List.any_eq_false.mpr fun d member => ?_
    simp [(off d member).covers]
  rw [place,none_,none',open_]
  rfl

theorem place_cons_off (off : e.Off i) : place (e :: edits) text i = place edits text i := by
  simp [place,off.inserts,off.covers,off.replaces]

theorem place_cons_insertion (inserts : e.start = i) (inserts' : e.stop = i) :
    place (e :: edits) text i = e.new ++ place edits text i := by
  simp [place,Edit.inserts,Edit.replaces,Edit.covers,inserts,inserts']

-- Inside of a range that other edits at most touch, all but the insertions at its start
-- is the range's own.
theorem place_inside (apart : ∀ d ∈ edits, d.stop ≤ e.start ∨ e.stop ≤ d.start) (low : e.start ≤ i) (high : i < e.stop) :
    place (e :: edits) text i =
      (edits.filter (·.inserts i)).flatMap Edit.new ++ (if e.start = i then e.new else []) ∧
    place edits text i = (edits.filter (·.inserts i)).flatMap Edit.new ++ text[i]?.toList := by
  have none_ : edits.filter (·.replaces i) = [] := by
    refine List.filter_eq_nil_iff.mpr fun d member => ?_
    have := apart d member
    simp [Edit.replaces]
    omega
  have open_ : edits.any (·.covers i) = false := by
    refine List.any_eq_false.mpr fun d member => ?_
    have := apart d member
    simp [Edit.covers]
    omega
  have inserts : e.inserts i = false := by
    simp [Edit.inserts]
    omega
  have covers : e.covers i = true := by
    simp [Edit.covers]
    omega
  constructor
  · by_cases start : e.start = i
    · have replaces : e.replaces i = true := by simp [Edit.replaces,start,high]
      simp [place,none_,inserts,covers,replaces,start]
    · have replaces : e.replaces i = false := by simp [Edit.replaces,start]
      simp [place,none_,inserts,covers,replaces,start]
  · simp [place,none_,open_]

theorem between_inside (apart : ∀ d ∈ edits, d.stop ≤ e.start ∨ e.stop ≤ d.start) (filled : e.start < e.stop) :
    between (e :: edits) text e.start (e.stop - e.start) = (edits.filter (·.inserts e.start)).flatMap Edit.new ++ e.new ∧
    between edits text e.start (e.stop - e.start) = (edits.filter (·.inserts e.start)).flatMap Edit.new ++ e.old text := by
  obtain ⟨count,size⟩ : ∃ count, e.stop - e.start = count + 1 := ⟨e.stop - e.start - 1,by omega⟩
  have here := @place_inside _ edits text e e.start apart (Nat.le_refl _) filled
  have none_ : ∀ i, e.start + 1 ≤ i → i < e.start + 1 + count → edits.filter (·.inserts i) = [] := by
    intro i low high
    refine List.filter_eq_nil_iff.mpr fun d member => ?_
    have := apart d member
    simp [Edit.inserts]
    omega
  have gone : between (e :: edits) text (e.start + 1) count = [] := by
    refine between_gone fun i low high => ?_
    rw [(place_inside apart (by omega) (by omega)).1,none_ i low high,if_neg (by omega)]
    rfl
  have kept : between edits text (e.start + 1) count = (text.drop (e.start + 1)).take count := by
    refine between_kept fun i low high => ?_
    rw [(place_inside apart (by omega) (by omega)).2,none_ i low high]
    rfl
  constructor
  · rw [size,between_succ,gone,here.1,if_pos rfl,List.append_nil]
  · rw [size,between_succ,kept,here.2,Edit.old,size,take_drop_succ,List.append_assoc]

end Places

section Adding
variable {edits edits' : List (Edit α)} {text : List α} {e : Edit α}

-- The places before an edit, those of the edit, and those after it.
theorem simultaneous_split (edits : List (Edit α)) (inside : e.stop ≤ text.length) :
    simultaneous edits text = between edits text 0 e.start ++ (between edits text e.start (e.stop - e.start) ++
      between edits text e.stop (text.length + 1 - e.stop)) := by
  have ordered := e.ordered
  have first : text.length + 1 = e.start + (text.length + 1 - e.start) := by omega
  have second : text.length + 1 - e.start = (e.stop - e.start) + (text.length + 1 - e.stop) := by omega
  have third : e.start + (e.stop - e.start) = e.stop := by omega
  rw [simultaneous,first,between_add,Nat.zero_add,← first,second,between_add,third]

theorem simultaneous_nil (text : List α) : simultaneous [] text = text := by
  rw [simultaneous,between_kept fun i _ _ => place_off (by simp),List.drop_zero,List.take_of_length_le (by omega)]

theorem between_before (e : Edit α) : between (e :: edits) text 0 e.start = between edits text 0 e.start :=
  between_congr fun i _ high => place_cons_off (Edit.off_below (by omega))

theorem between_after (filled : e.start < e.stop) (count : Nat) :
    between (e :: edits) text e.stop count = between edits text e.stop count :=
  between_congr fun i low _ => place_cons_off (Edit.off_above low (by omega))

-- An edit in front of all others changes nothing that they have changed.
theorem simultaneous_cons (behind : ∀ d ∈ edits, e.stop ≤ d.start) (inside : e.stop ≤ text.length) :
    simultaneous (e :: edits) text = splice (simultaneous edits text) e.start e.stop e.new := by
  have ordered := e.ordered
  have front : ∀ count ≤ e.stop, between edits text 0 count = text.take count := by
    intro count low
    refine between_kept fun i _ high => place_off fun d member => Edit.off_below ?_
    have := behind d member
    omega
  have tail : simultaneous edits text = text.take e.stop ++ between edits text e.stop (text.length + 1 - e.stop) := by
    have whole : text.length + 1 = e.stop + (text.length + 1 - e.stop) := by omega
    rw [simultaneous,whole,between_add,Nat.zero_add,← whole,front e.stop (Nat.le_refl _)]
  have size : (text.take e.stop).length = e.stop := List.length_take_of_le inside
  have before : (simultaneous edits text).take e.start = between edits text 0 e.start := by
    rw [tail,List.take_append_of_le_length (by omega),List.take_take,Nat.min_eq_left ordered,front e.start ordered]
  have after : (simultaneous edits text).drop e.stop = between edits text e.stop (text.length + 1 - e.stop) := by
    rw [tail,List.drop_append_of_le_length (by omega),List.drop_eq_nil_of_le (by omega),List.nil_append]
  rw [splice,before,after,simultaneous_split _ inside,between_before,List.append_assoc]
  congr 1
  obtain filled | empty := Nat.lt_or_eq_of_le ordered
  · have none_ : edits.filter (·.inserts e.start) = [] := by
      refine List.filter_eq_nil_iff.mpr fun d member => ?_
      have := behind d member
      simp [Edit.inserts]
      omega
    rw [between_after filled,(between_inside (fun d member => .inr (behind d member)) filled).1,none_]
    rfl
  · have rest : text.length + 1 - e.stop = (text.length - e.stop) + 1 := by omega
    have later : between (e :: edits) text (e.stop + 1) (text.length - e.stop) =
        between edits text (e.stop + 1) (text.length - e.stop) :=
      between_congr fun i low _ => place_cons_off (Edit.off_above (by omega) (by omega))
    rw [rest,between_succ,between_succ,later,place_cons_insertion empty rfl,empty,Nat.sub_self,List.append_assoc]
    rfl

-- An edit that is left out stands between two texts that do not depend on it.
theorem simultaneous_without (apart : ∀ d ∈ edits, d.stop ≤ e.start ∨ e.stop ≤ d.start) (filled : e.start < e.stop)
    (inside : e.stop ≤ text.length) :
    ∃ before after, simultaneous (e :: edits) text = before ++ (e.new ++ after) ∧
      simultaneous edits text = before ++ (e.old text ++ after) := by
  obtain ⟨with_,without⟩ := @between_inside _ edits text e apart filled
  refine ⟨between edits text 0 e.start ++ (edits.filter (·.inserts e.start)).flatMap Edit.new,
    between edits text e.stop (text.length + 1 - e.stop),?_,?_⟩
  · rw [simultaneous_split _ inside,between_before,between_after filled,with_]
    simp
  · rw [simultaneous_split _ inside,without]
    simp

theorem simultaneous_without_iff (apart : ∀ d ∈ edits, d.stop ≤ e.start ∨ e.stop ≤ d.start) (filled : e.start < e.stop)
    (inside : e.stop ≤ text.length) : simultaneous (e :: edits) text = simultaneous edits text ↔ e.new = e.old text := by
  obtain ⟨before,after,with_,without⟩ := simultaneous_without apart filled inside
  rw [with_,without,List.append_cancel_left_eq,List.append_cancel_right_eq]

theorem filter_short {p : Edit α → Bool} (apart : edits.Pairwise Edit.Apart)
    (single : ∀ a b, p a = true → p b = true → ¬ Edit.Apart a b) : (edits.filter p).length ≤ 1 := by
  have pairs := apart.filter p
  cases found : edits.filter p with
  | nil => simp
  | cons a others =>
    cases others with
    | nil => simp
    | cons b others =>
      rw [found] at pairs
      have all : ∀ d ∈ a :: b :: others, p d = true := fun d member => (List.mem_filter.mp (found ▸ member)).2
      have both := List.rel_of_pairwise_cons pairs List.mem_cons_self
      exact absurd both (single a b (all a (by simp)) (all b (by simp)))

theorem flatMap_perm_short {first second : List (Edit α)} (perm : first.Perm second) (short : first.length ≤ 1) :
    first.flatMap Edit.new = second.flatMap Edit.new := by
  cases first with
  | nil => rw [List.nil_perm.mp perm]
  | cons a others =>
    cases others with
    | nil => rw [List.singleton_perm.mp perm]
    | cons b others => simp at short

-- The order in which the edits are given does not matter.
theorem simultaneous_perm (apart : edits.Pairwise Edit.Apart) (perm : edits.Perm edits') (text : List α) :
    simultaneous edits text = simultaneous edits' text := by
  refine between_congr fun i _ _ => ?_
  have inserts := @filter_short _ edits (·.inserts i) apart (by
    intro a b first second both
    simp [Edit.inserts] at first second
    exact both.distinct ⟨first.1.trans second.1.symm,first.2.trans second.2.symm⟩)
  have replaces := @filter_short _ edits (·.replaces i) apart (by
    intro a b first second both
    simp [Edit.replaces] at first second
    have := both.disjoint
    omega)
  rw [place,place,flatMap_perm_short (perm.filter _) inserts,flatMap_perm_short (perm.filter _) replaces,perm.any_eq]

end Adding

end Splicing
