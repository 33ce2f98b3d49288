import Mathlib.Data.List.Nodup
import Mathlib.Data.List.Sort
import Mathlib.Data.List.Perm.Basic

-- Tables that only grow, entries found by a name, and patches: the entries that
-- turn one state of a table into a later one.
namespace Patches
variable {α ν : Type*}

abbrev Patch (α : Type*) := List (Nat × α)

def keys (patch : Patch α) : List Nat := patch.map Prod.fst

-- The newer patch with what the older one says of other keys.
def overlay (newer older : Patch α) : Patch α :=
  older.foldl (fun patch entry => if entry.1 ∈ keys patch then patch else patch ++ [entry]) newer

section Overlay
variable {newer older : Patch α} {entry : Nat × α}

@[simp] theorem keys_append (first second : Patch α) : keys (first ++ second) = keys first ++ keys second :=
  List.map_append

theorem mem_keys (present : entry ∈ newer) : entry.1 ∈ keys newer := List.mem_map_of_mem present

theorem overlay_cons : overlay newer (entry :: older) =
    overlay (if entry.1 ∈ keys newer then newer else newer ++ [entry]) older := rfl

theorem subset_overlay (present : entry ∈ newer) : entry ∈ overlay newer older := by
  induction older generalizing newer with
  | nil => exact present
  | cons first older ih =>
    rw [overlay_cons]
    apply ih
    split
    · exact present
    · exact List.mem_append_left _ present

theorem mem_overlay (present : entry ∈ overlay newer older) :
    entry ∈ newer ∨ entry ∈ older ∧ entry.1 ∉ keys newer := by
  induction older generalizing newer with
  | nil => exact .inl present
  | cons first older ih =>
    rw [overlay_cons] at present
    split at present
    · rcases ih present with new | ⟨old,unseen⟩
      · exact .inl new
      · exact .inr ⟨List.mem_cons_of_mem _ old,unseen⟩
    · rename_i unseen
      rcases ih present with new | ⟨old,unseen⟩
      · rcases List.mem_append.mp new with new | last
        · exact .inl new
        · rw [List.mem_singleton.mp last]
          exact .inr ⟨List.mem_cons_self,unseen⟩
      · rw [keys_append,List.mem_append,not_or] at unseen
        exact .inr ⟨List.mem_cons_of_mem _ old,unseen.1⟩

theorem mem_keys_overlay {key : Nat} : key ∈ keys (overlay newer older) ↔ key ∈ keys newer ∨ key ∈ keys older := by
  induction older generalizing newer with
  | nil => simp [overlay,keys]
  | cons first older ih =>
    have split : key ∈ keys (first :: older) ↔ key = first.1 ∨ key ∈ keys older := List.mem_cons
    rw [overlay_cons,ih,split]
    by_cases seen : first.1 ∈ keys newer
    · rw [if_pos seen]
      constructor
      · rintro (new | old)
        · exact .inl new
        · exact .inr (.inr old)
      · rintro (new | rfl | old)
        · exact .inl new
        · exact .inl seen
        · exact .inr old
    · rw [if_neg seen,keys_append,List.mem_append,or_assoc]
      simp [keys]

theorem nodup_overlay (distinct : (keys newer).Nodup) : (keys (overlay newer older)).Nodup := by
  induction older generalizing newer with
  | nil => exact distinct
  | cons first older ih =>
    rw [overlay_cons]
    apply ih
    split
    · exact distinct
    · rename_i unseen
      rw [keys_append]
      refine distinct.append (List.nodup_singleton _) ?_
      intro key new last
      rw [List.mem_singleton.mp last] at new
      exact unseen new

end Overlay

-- `patch` has every entry of `target` that `base` does not have, and of the keys it
-- mentions the entry of `target`. Names stay with their keys.
structure Covers (name : α → ν) (base target : List α) (patch : Patch α) : Prop where
  names : ∀ (i : Nat) (v : α), base[i]? = some v → ∃ w, target[i]? = some w ∧ name w = name v
  distinct : (keys patch).Nodup
  current : ∀ entry ∈ patch,target[entry.1]? = some entry.2
  rest : ∀ (i : Nat) (w : α), target[i]? = some w → i ∉ keys patch → base[i]? = some w

section Covers
variable {name : α → ν} {base middle target : List α} {patch newer older : Patch α}

theorem Covers.refl (name : α → ν) (table : List α) : Covers name table table [] where
  names := fun _ v present => ⟨v,present,rfl⟩
  distinct := List.nodup_nil
  current := fun _ impossible => (by cases impossible)
  rest := fun _ _ present _ => present

theorem Covers.le (covers : Covers name base target patch) : base.length ≤ target.length := by
  by_contra shorter
  rw [Nat.not_le] at shorter
  obtain ⟨w,present,-⟩ := covers.names target.length _ (List.getElem?_eq_getElem shorter)
  simp at present

theorem Covers.unchanged (covers : Covers name base target patch) {i : Nat} {v : α} (old : base[i]? = some v)
    (untouched : i ∉ keys patch) : target[i]? = some v := by
  obtain ⟨w,present,-⟩ := covers.names i v old
  have same := covers.rest i w present untouched
  rw [present,←same,old]

theorem Covers.trans (first : Covers name base middle older) (second : Covers name middle target newer) :
    Covers name base target (overlay newer older) where
  names := by
    intro i v present
    obtain ⟨w,inMiddle,same⟩ := first.names i v present
    obtain ⟨x,inTarget,again⟩ := second.names i w inMiddle
    exact ⟨x,inTarget,again.trans same⟩
  distinct := nodup_overlay second.distinct
  current := by
    intro entry present
    rcases mem_overlay present with new | ⟨old,unseen⟩
    · exact second.current entry new
    · exact second.unchanged (first.current entry old) unseen
  rest := by
    intro i w present untouched
    rw [mem_keys_overlay,not_or] at untouched
    exact first.rest i w (second.rest i w present untouched.1) untouched.2

-- Entries of the base may be added: they change nothing.
theorem Covers.noop (covers : Covers name base target patch) (old : ∀ entry ∈ older,base[entry.1]? = some entry.2) :
    Covers name base target (overlay patch older) where
  names := covers.names
  distinct := nodup_overlay covers.distinct
  current := by
    intro entry present
    rcases mem_overlay present with new | ⟨noop,unseen⟩
    · exact covers.current entry new
    · exact covers.unchanged (old entry noop) unseen
  rest := by
    intro i w present untouched
    rw [mem_keys_overlay,not_or] at untouched
    exact covers.rest i w present untouched.1

-- The entries of a patch in their places; keys past the end change nothing.
def replaceAll (table : List α) (patch : Patch α) : List α :=
  patch.foldl (fun table entry => table.set entry.1 entry.2) table

theorem replaceAll_eq_take {table : List α} (current : ∀ entry ∈ patch,target[entry.1]? = some entry.2)
    (short : table.length ≤ target.length)
    (rest : ∀ i, i < table.length → i ∉ keys patch → table[i]? = target[i]?) :
    replaceAll table patch = target.take table.length := by
  induction patch generalizing table with
  | nil =>
    apply List.ext_getElem?
    intro i
    by_cases inside : i < table.length
    · rw [List.getElem?_take_of_lt inside]
      exact rest i inside (fun impossible => (by cases impossible))
    · rw [List.getElem?_take_eq_none (Nat.le_of_not_lt inside)]
      exact List.getElem?_eq_none (Nat.le_of_not_lt inside)
  | cons entry patch ih =>
    have again : replaceAll (table.set entry.1 entry.2) patch = target.take (table.set entry.1 entry.2).length := by
      apply ih
      · exact fun other present => current other (List.mem_cons_of_mem _ present)
      · rwa [List.length_set]
      · intro i inside missed
        rw [List.length_set] at inside
        by_cases equal : entry.1 = i
        · subst equal
          rw [List.getElem?_set_self inside,current entry List.mem_cons_self]
        · rw [List.getElem?_set_ne equal]
          apply rest i inside
          intro present
          rcases List.mem_cons.mp present with same | later
          · exact equal same.symm
          · exact missed later
    rwa [List.length_set] at again

theorem Covers.replaceAll (covers : Covers name base target patch) : replaceAll base patch = target.take base.length := by
  apply replaceAll_eq_take covers.current covers.le
  intro i inside missed
  obtain ⟨v,present⟩ : ∃ v, base[i]? = some v := ⟨base[i],List.getElem?_eq_getElem inside⟩
  rw [present,covers.unchanged present missed]

theorem Covers.map_name (covers : Covers name base target patch) :
    base.map name = (target.take base.length).map name := by
  apply List.ext_getElem?
  intro i
  simp only [List.getElem?_map]
  cases present : base[i]? with
  | none =>
    have outside := List.getElem?_eq_none_iff.mp present
    rw [List.getElem?_eq_none (by simp; omega)]
  | some v =>
    have inside := (List.getElem?_eq_some_iff.mp present).1
    obtain ⟨w,stored,same⟩ := covers.names i v present
    rw [List.getElem?_take_of_lt inside,stored]
    simp [same]

theorem Covers.nodup (covers : Covers name base target patch) (distinct : (target.map name).Nodup) :
    (base.map name).Nodup := by
  rw [covers.map_name,List.map_take]
  exact distinct.sublist (List.take_sublist _ _)

-- The keys past the base are in the patch, in their order the tail of the target.
theorem Covers.tail (covers : Covers name base target patch) :
    (patch.filter (fun entry => base.length ≤ entry.1)).insertionSort (fun a b => a.1 ≤ b.1) =
      ((target.drop base.length).zipIdx base.length).map Prod.swap := by
  have sorted : (((target.drop base.length).zipIdx base.length).map Prod.swap).Pairwise (fun a b => a.1 < b.1) := by
    rw [List.pairwise_map]
    have increasing := List.pairwise_lt_range' (s := base.length) (n := (target.drop base.length).length)
    rw [←List.zipIdx_map_snd base.length,List.pairwise_map] at increasing
    exact increasing
  have inTail : ∀ entry, entry ∈ ((target.drop base.length).zipIdx base.length).map Prod.swap ↔
      base.length ≤ entry.1 ∧ target[entry.1]? = some entry.2 := by
    rintro ⟨i,v⟩
    simp only [List.mem_map,Prod.exists,List.mk_mem_zipIdx_iff_le_and_getElem?_sub,Prod.swap_prod_mk,Prod.mk.injEq]
    constructor
    · rintro ⟨v,i,⟨le,present⟩,rfl,rfl⟩
      rw [List.getElem?_drop,Nat.add_sub_cancel' le] at present
      exact ⟨le,present⟩
    · rintro ⟨le,present⟩
      refine ⟨v,i,⟨le,?_⟩,rfl,rfl⟩
      rw [List.getElem?_drop,Nat.add_sub_cancel' le]
      exact present
  have filtered : ∀ entry, entry ∈ patch.filter (fun entry => base.length ≤ entry.1) ↔
      base.length ≤ entry.1 ∧ target[entry.1]? = some entry.2 := by
    intro entry
    rw [List.mem_filter,decide_eq_true_eq]
    constructor
    · rintro ⟨present,le⟩
      exact ⟨le,covers.current entry present⟩
    · rintro ⟨le,present⟩
      refine ⟨?_,le⟩
      have touched : entry.1 ∈ keys patch := by
        by_contra untouched
        have old := covers.rest _ _ present untouched
        rw [List.getElem?_eq_none le] at old
        cases old
      obtain ⟨other,stored,same⟩ := List.mem_map.mp touched
      have current := covers.current other stored
      rw [same,present] at current
      rwa [Prod.ext same (Option.some.inj current).symm] at stored
  have unique : (patch.filter (fun entry => base.length ≤ entry.1)).Nodup :=
    (List.Nodup.of_map _ covers.distinct).filter _
  have permuted : (patch.filter (fun entry => base.length ≤ entry.1)).insertionSort (fun a b => a.1 ≤ b.1) |>.Perm
      (((target.drop base.length).zipIdx base.length).map Prod.swap) := by
    refine (List.perm_insertionSort _ _).trans ?_
    rw [List.perm_ext_iff_of_nodup unique (sorted.imp (fun lt same => by rw [same] at lt; exact Nat.lt_irrefl _ lt))]
    intro entry
    rw [filtered,inTail]
  have ordered : ((patch.filter (fun entry => base.length ≤ entry.1)).insertionSort (fun a b => a.1 ≤ b.1)).Pairwise
      (fun a b => a.1 ≤ b.1) := List.pairwise_insertionSort _ _
  refine List.Perm.eq_of_pairwise ?_ ordered (sorted.imp (fun lt => Nat.le_of_lt lt)) permuted
  intro a b inA inB ab ba
  have first := (filtered a).mp ((List.mem_insertionSort _).mp inA)
  have second := (inTail b).mp inB
  have same : a.1 = b.1 := Nat.le_antisymm ab ba
  rw [same] at first
  exact Prod.ext same (Option.some.inj (first.2.symm.trans second.2))

end Covers

section Upsert
variable [DecidableEq ν] {name : α → ν} {base table : List α} {patch : Patch α} {v : α} {i : Nat}

def locate (name : α → ν) (table : List α) (n : ν) : Option Nat := table.findIdx? (fun v => name v = n)

-- An entry takes the place of the one with its name, or goes to the end.
def upsert (name : α → ν) (table : List α) (v : α) : List α × Nat :=
  match locate name table (name v) with
  | some i => (table.set i v,i)
  | none => (table ++ [v],table.length)

theorem locate_of_getElem (distinct : (table.map name).Nodup) (present : table[i]? = some v) :
    locate name table (name v) = some i := by
  obtain ⟨inside,rfl⟩ := List.getElem?_eq_some_iff.mp present
  rw [locate,List.findIdx?_eq_some_iff_getElem]
  refine ⟨inside,by simp,?_⟩
  intro j earlier same
  simp only [decide_eq_true_eq] at same
  have mapped := List.nodup_iff_injective_getElem.mp distinct
  have clash : (⟨j,by simp; omega⟩ : Fin (table.map name).length) = ⟨i,by simpa using inside⟩ := by
    apply mapped
    simpa using same
  have : j = i := congrArg Fin.val clash
  omega

theorem getElem_of_locate {n : ν} (found : locate name table n = some i) : ∃ v, table[i]? = some v ∧ name v = n := by
  obtain ⟨inside,named,-⟩ := List.findIdx?_eq_some_iff_getElem.mp found
  exact ⟨table[i],List.getElem?_eq_getElem inside,by simpa using named⟩

theorem locate_none {n : ν} (absent : locate name table n = none) : n ∉ table.map name := by
  intro present
  obtain ⟨v,stored,named⟩ := List.mem_map.mp present
  have miss := List.findIdx?_eq_none_iff.mp absent v stored
  simp [named] at miss

-- What an upsert does, by the two cases of its name.
theorem upsert_cases (name : α → ν) (table : List α) (v : α) :
    (∃ i old, table[i]? = some old ∧ name old = name v ∧ locate name table (name v) = some i ∧
      upsert name table v = (table.set i v,i)) ∨
    (name v ∉ table.map name ∧ locate name table (name v) = none ∧ upsert name table v = (table ++ [v],table.length)) := by
  unfold upsert
  cases found : locate name table (name v) with
  | some i =>
    obtain ⟨old,present,same⟩ := getElem_of_locate found
    exact .inl ⟨i,old,present,same,rfl,rfl⟩
  | none => exact .inr ⟨locate_none found,rfl,rfl⟩

theorem nodup_upsert (distinct : (table.map name).Nodup) : ((upsert name table v).1.map name).Nodup := by
  rcases upsert_cases name table v with ⟨i,old,present,same,-,replaced⟩ | ⟨fresh,-,appended⟩
  · have unchanged : (table.set i v).map name = table.map name := by
      obtain ⟨inside,rfl⟩ := List.getElem?_eq_some_iff.mp present
      rw [List.map_set,←same,←List.getElem_map name (h := by simpa using inside),List.set_getElem_self]
    rw [replaced,unchanged]
    exact distinct
  · rw [appended,List.map_append]
    refine distinct.append (List.nodup_singleton _) ?_
    intro n old last
    rw [List.mem_singleton.mp last] at old
    exact fresh old

theorem Covers.upsert (covers : Covers name base table patch) (unnamed : ∀ entry ∈ patch,name entry.2 ≠ name v) :
    Covers name base (upsert name table v).1 (patch ++ [((upsert name table v).2,v)]) := by
  rcases upsert_cases name table v with ⟨i,old,present,same,-,replaced⟩ | ⟨fresh,-,appended⟩
  · rw [replaced]
    have inside := (List.getElem?_eq_some_iff.mp present).1
    have untouched : ∀ entry ∈ patch,entry.1 ≠ i := by
      intro entry stored equal
      have current := covers.current entry stored
      rw [equal,present] at current
      exact unnamed entry stored (by rw [←Option.some.inj current,same])
    refine ⟨?_,?_,?_,?_⟩
    · intro j w stored
      obtain ⟨x,inTable,named⟩ := covers.names j w stored
      by_cases equal : i = j
      · subst equal
        rw [present] at inTable
        refine ⟨v,by simp [inside],?_⟩
        rw [←same,Option.some.inj inTable,named]
      · exact ⟨x,by rwa [List.getElem?_set_ne equal],named⟩
    · rw [keys_append]
      refine covers.distinct.append (List.nodup_singleton _) ?_
      intro key stored last
      obtain ⟨entry,inPatch,rfl⟩ := List.mem_map.mp stored
      exact untouched entry inPatch (List.mem_singleton.mp last)
    · intro entry stored
      rcases List.mem_append.mp stored with earlier | last
      · rw [List.getElem?_set_ne (Ne.symm (untouched entry earlier))]
        exact covers.current entry earlier
      · rw [List.mem_singleton.mp last]
        simp [inside]
    · intro j w stored missed
      rw [keys_append,List.mem_append,not_or] at missed
      have different : i ≠ j := fun equal => missed.2 (by simp [keys,equal])
      rw [List.getElem?_set_ne different] at stored
      exact covers.rest j w stored missed.1
  · rw [appended]
    refine ⟨?_,?_,?_,?_⟩
    · intro j w stored
      obtain ⟨x,inTable,named⟩ := covers.names j w stored
      have inside := (List.getElem?_eq_some_iff.mp inTable).1
      exact ⟨x,by rwa [List.getElem?_append_left inside],named⟩
    · rw [keys_append]
      refine covers.distinct.append (List.nodup_singleton _) ?_
      intro key stored last
      obtain ⟨entry,inPatch,rfl⟩ := List.mem_map.mp stored
      have inside := (List.getElem?_eq_some_iff.mp (covers.current entry inPatch)).1
      rw [List.mem_singleton.mp last] at inside
      exact Nat.lt_irrefl _ inside
    · intro entry stored
      rcases List.mem_append.mp stored with earlier | last
      · have current := covers.current entry earlier
        rwa [List.getElem?_append_left (List.getElem?_eq_some_iff.mp current).1]
      · rw [List.mem_singleton.mp last]
        simp
    · intro j w stored missed
      rw [keys_append,List.mem_append,not_or] at missed
      have different : j ≠ table.length := fun equal => missed.2 (by simp [keys,equal])
      have inside : j < table.length := by
        have bound := (List.getElem?_eq_some_iff.mp stored).1
        simp only [List.length_append,List.length_singleton] at bound
        omega
      rw [List.getElem?_append_left inside] at stored
      exact covers.rest j w stored missed.1

end Upsert

section History
variable [DecidableEq ν] {name : α → ν} {base middle target : List α} {newer older patch : Patch α}
  {history values : List α}

-- The last of the values of one name.
def latest (name : α → ν) (values : List α) (n : ν) : Option α := (values.filter (fun v => name v = n)).getLast?

theorem latest_append (n : ν) : latest name (history ++ values) n = (latest name values n).or (latest name history n) := by
  rw [latest,latest,latest,List.filter_append,List.getLast?_append]

theorem latest_none {n : ν} : latest name values n = none ↔ n ∉ values.map name := by
  rw [latest,List.getLast?_eq_none_iff,List.filter_eq_nil_iff]
  simp

theorem latest_name {n : ν} {v : α} (last : latest name values n = some v) : v ∈ values ∧ name v = n := by
  have present := List.mem_of_getLast? last
  rw [List.mem_filter,decide_eq_true_eq] at present
  exact present

theorem filter_name (distinct : (values.map name).Nodup) {v : α} (present : v ∈ values) :
    values.filter (fun w => name w = name v) = [v] := by
  induction values with
  | nil => cases present
  | cons first values ih =>
    rw [List.map_cons,List.nodup_cons] at distinct
    rcases List.mem_cons.mp present with rfl | later
    · rw [List.filter_cons_of_pos (by simp)]
      congr 1
      rw [List.filter_eq_nil_iff]
      intro w stored same
      simp only [decide_eq_true_eq] at same
      exact distinct.1 (same ▸ List.mem_map_of_mem stored)
    · have different : name first ≠ name v := fun same => distinct.1 (same ▸ List.mem_map_of_mem later)
      rw [List.filter_cons_of_neg (by simpa using different)]
      exact ih distinct.2 later

theorem latest_of_mem (distinct : (values.map name).Nodup) {v : α} (present : v ∈ values) :
    latest name values (name v) = some v := by
  rw [latest,filter_name distinct present]
  rfl

-- The values are the latest of a history, each name once.
structure Tracks (name : α → ν) (history values : List α) : Prop where
  distinct : (values.map name).Nodup
  latest : ∀ v, v ∈ values ↔ latest name history (name v) = some v

theorem Tracks.self (distinct : (values.map name).Nodup) : Tracks name values values where
  distinct := distinct
  latest := fun _ => ⟨latest_of_mem distinct,fun last => (latest_name last).1⟩

theorem Tracks.filter (tracks : Tracks name history values) (n : ν) :
    values.filter (fun v => name v = n) = (Patches.latest name history n).toList := by
  cases last : Patches.latest name history n with
  | none =>
    rw [Option.toList_none,List.filter_eq_nil_iff]
    intro v present same
    simp only [decide_eq_true_eq] at same
    rw [←same,(tracks.latest v).mp present] at last
    cases last
  | some v =>
    obtain ⟨-,rfl⟩ := latest_name last
    exact filter_name tracks.distinct ((tracks.latest v).mpr last)

theorem Tracks.mem_names (tracks : Tracks name history values) {n : ν} : n ∈ values.map name ↔ n ∈ history.map name := by
  constructor
  · intro present
    obtain ⟨v,stored,rfl⟩ := List.mem_map.mp present
    exact List.mem_map_of_mem (latest_name ((tracks.latest v).mp stored)).1
  · intro present
    cases last : Patches.latest name history n with
    | none => exact absurd present (latest_none.mp last)
    | some v =>
      obtain ⟨-,rfl⟩ := latest_name last
      exact List.mem_map_of_mem ((tracks.latest v).mpr last)

theorem Covers.names_nodup (covers : Covers name base target patch) (distinct : (target.map name).Nodup) :
    ((patch.map Prod.snd).map name).Nodup := by
  have unique := List.Nodup.of_map _ covers.distinct
  rw [List.map_map]
  apply List.Nodup.map_on _ unique
  intro first inFirst second inSecond same
  have left := locate_of_getElem distinct (covers.current first inFirst)
  have right := locate_of_getElem distinct (covers.current second inSecond)
  have same : name first.2 = name second.2 := same
  rw [same,right] at left
  have key : second.1 = first.1 := Option.some.inj left
  have value := covers.current second inSecond
  rw [key,covers.current first inFirst] at value
  exact Prod.ext key.symm (Option.some.inj value)

-- An entry of the base whose name the patch has stands at a key of the patch.
theorem Covers.key_of_name (covers : Covers name base target patch) (distinct : (target.map name).Nodup) {i : Nat} {v : α}
    (present : base[i]? = some v) (named : name v ∈ (patch.map Prod.snd).map name) : i ∈ keys patch := by
  obtain ⟨w,inTarget,same⟩ := covers.names i v present
  obtain ⟨x,stored,again⟩ := List.mem_map.mp named
  obtain ⟨entry,inPatch,rfl⟩ := List.mem_map.mp stored
  have left := locate_of_getElem distinct (covers.current entry inPatch)
  rw [again,←same,locate_of_getElem distinct inTarget] at left
  rw [Option.some.inj left]
  exact mem_keys inPatch

-- An entry of the older patch is hidden exactly when the newer one has its name.
theorem hidden_iff (first : Covers name base middle older) (second : Covers name middle target newer)
    (distinct : (target.map name).Nodup) {entry : Nat × α} (present : entry ∈ older) :
    entry.1 ∈ keys newer ↔ name entry.2 ∈ (newer.map Prod.snd).map name := by
  obtain ⟨w,inTarget,same⟩ := second.names _ _ (first.current entry present)
  constructor
  · intro seen
    obtain ⟨other,stored,key⟩ := List.mem_map.mp seen
    have current := second.current other stored
    rw [key,inTarget] at current
    rw [←same,Option.some.inj current]
    exact List.mem_map_of_mem (List.mem_map_of_mem stored)
  · exact second.key_of_name distinct (first.current entry present)

theorem mem_overlay_values (first : Covers name base middle older) (second : Covers name middle target newer)
    (distinct : (target.map name).Nodup) (v : α) : v ∈ (overlay newer older).map Prod.snd ↔
      v ∈ newer.map Prod.snd ∨ v ∈ older.map Prod.snd ∧ name v ∉ (newer.map Prod.snd).map name := by
  constructor
  · intro present
    obtain ⟨entry,stored,rfl⟩ := List.mem_map.mp present
    rcases mem_overlay stored with new | ⟨old,unseen⟩
    · exact .inl (List.mem_map_of_mem new)
    · exact .inr ⟨List.mem_map_of_mem old,fun named => unseen ((hidden_iff first second distinct old).mpr named)⟩
  · rintro (new | ⟨old,unnamed⟩)
    · obtain ⟨entry,stored,rfl⟩ := List.mem_map.mp new
      exact List.mem_map_of_mem (subset_overlay stored)
    · obtain ⟨entry,stored,rfl⟩ := List.mem_map.mp old
      have unseen : entry.1 ∉ keys newer := fun seen => unnamed ((hidden_iff first second distinct stored).mp seen)
      have kept : entry.1 ∈ keys (overlay newer older) := mem_keys_overlay.mpr (.inr (mem_keys stored))
      obtain ⟨other,inOverlay,key⟩ := List.mem_map.mp kept
      have value : other = entry := by
        have whole := first.trans second
        have current := whole.current other inOverlay
        have own := second.unchanged (first.current entry stored) unseen
        rw [key,own] at current
        exact Prod.ext key (Option.some.inj current).symm
      rw [value] at inOverlay
      exact List.mem_map_of_mem inOverlay

theorem Tracks.overlay (tracks : Tracks name history (older.map Prod.snd)) (first : Covers name base middle older)
    (second : Covers name middle target newer) (distinct : (target.map name).Nodup) :
    Tracks name (history ++ newer.map Prod.snd) ((overlay newer older).map Prod.snd) where
  distinct := (first.trans second).names_nodup distinct
  latest := by
    intro v
    have own := second.names_nodup distinct
    rw [mem_overlay_values first second distinct,latest_append,tracks.latest]
    constructor
    · rintro (new | ⟨old,unnamed⟩)
      · rw [latest_of_mem own new,Option.some_or]
      · rw [latest_none.mpr unnamed,Option.none_or,old]
    · intro last
      cases found : Patches.latest name (newer.map Prod.snd) (name v) with
      | none =>
        rw [found,Option.none_or] at last
        exact .inr ⟨last,latest_none.mp found⟩
      | some w =>
        rw [found,Option.some_or] at last
        rw [Option.some.inj last] at found
        exact .inl (latest_name found).1

end History
end Patches
