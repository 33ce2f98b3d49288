import Mathlib.Data.List.Basic
import Mathlib.Logic.Function.Basic

namespace Common.Storage

-- `strings` holds the shared pointers: the numbers of the pages.
structure StableStringStorage where
  strings : List Nat
  currentPagePosition : Nat

structure View where
  page : Nat
  start : Nat
  size : Nat

-- One memcpy of enterString. Its range is the view that the call returns.
structure Write (Instance : Type) where
  writer : Instance
  page : Nat
  start : Nat
  contents : List UInt8

def Write.view {Instance : Type} (write : Write Instance) : View := ⟨write.page,write.start,write.contents.length⟩

-- All pages ever made with the instance that made each, the storages, and the memcpys so far.
structure Heap (Instance : Type) where
  pages : List (List UInt8)
  makers : List Instance
  storages : Instance → StableStringStorage
  writes : List (Write Instance)

namespace Heap
variable {Instance : Type}

def initial (Instance : Type) (pageSize : Nat) : Heap Instance := ⟨[],[],fun _ => ⟨[],pageSize + 1⟩,[]⟩

-- make_shared<vector<char>>(size); its number is that of the pages before.
def makeShared (heap : Heap Instance) (this : Instance) (size : Nat) : Heap Instance :=
  {heap with pages := heap.pages ++ [List.replicate size 0],makers := heap.makers ++ [this]}

section Steps
variable [DecidableEq Instance]

def store (heap : Heap Instance) (this : Instance) (storage : StableStringStorage) : Heap Instance :=
  {heap with storages := Function.update heap.storages this storage}

-- A copy that does not fit into its page has no result.
def memcpy (heap : Heap Instance) (this : Instance) (page start : Nat) (str : List UInt8) : Option (View × Heap Instance) := do
  let bytes ← heap.pages[page]?
  if start + str.length ≤ bytes.length then
    some (⟨page,start,str.length⟩,{heap with
      pages := heap.pages.set page (bytes.take start ++ str ++ bytes.drop (start + str.length))
      writes := ⟨this,page,start,str⟩ :: heap.writes})
  else none

-- swap(*(strings.end() - 1), *(strings.end() - 2))
def swapLast (strings : List Nat) : List Nat :=
  match strings.reverse with
  | last :: beforeLast :: rest => (beforeLast :: last :: rest).reverse
  | _ => strings

def enterString (pageSize : Nat) (heap : Heap Instance) (this : Instance) (str : List UInt8) : Option (View × Heap Instance) :=
  let storage := heap.storages this
  if str.length > pageSize then
    let inserted := heap.pages.length
    let heap := heap.makeShared this str.length
    let strings := storage.strings ++ [inserted]
    if strings.length > 1 then
      (heap.store this {storage with strings := swapLast strings}).memcpy this inserted 0 str
    else
      let page := heap.pages.length
      let heap := heap.makeShared this pageSize
      (heap.store this ⟨strings ++ [page],0⟩).memcpy this inserted 0 str
  else if storage.currentPagePosition + str.length > pageSize then
    let page := heap.pages.length
    let heap := heap.makeShared this pageSize
    (heap.store this ⟨storage.strings ++ [page],0 + str.length⟩).memcpy this page 0 str
  else do
    let back ← storage.strings.getLast?
    let position := storage.currentPagePosition
    (heap.store this {storage with currentPagePosition := position + str.length}).memcpy this back position str

-- The copy assignment.
def assign (pageSize : Nat) (heap : Heap Instance) (this rhs : Instance) : Heap Instance :=
  heap.store this ⟨(heap.storages rhs).strings,pageSize + 1⟩

inductive Operation (Instance : Type) where
  | enterString (this : Instance) (str : List UInt8)
  | assign (this rhs : Instance)

def apply (pageSize : Nat) (heap : Heap Instance) : Operation Instance → Option (Heap Instance)
  | .enterString this str => (heap.enterString pageSize this str).map Prod.snd
  | .assign this rhs => some (heap.assign pageSize this rhs)

def run (pageSize : Nat) : Heap Instance → List (Operation Instance) → Option (Heap Instance)
  | heap,[] => some heap
  | heap,operation :: rest => (heap.apply pageSize operation).bind (run pageSize · rest)

end Steps

-- A page is kept as long as some instance points to it; then the view reads these bytes.
def Held (heap : Heap Instance) (page : Nat) : Prop := ∃ this, page ∈ (heap.storages this).strings

def bytes (heap : Heap Instance) (view : View) : Option (List UInt8) :=
  heap.pages[view.page]?.map fun page => (page.drop view.start).take view.size

def Reads (heap : Heap Instance) (view : View) (contents : List UInt8) : Prop :=
  heap.Held view.page ∧ heap.bytes view = some contents

-- Every copy was made by the maker of its page, lies in it and is still there.
structure Sound (heap : Heap Instance) : Prop where
  paired : heap.makers.length = heap.pages.length
  owned : ∀ write ∈ heap.writes, heap.makers[write.page]? = some write.writer
  inside : ∀ write ∈ heap.writes, ∃ page, heap.pages[write.page]? = some page ∧ write.start + write.contents.length ≤ page.length
  kept : ∀ write ∈ heap.writes, heap.bytes write.view = some write.contents

-- An instance may go on writing to a page from a position on.
structure Writable (pageSize : Nat) (heap : Heap Instance) (this : Instance) (page position : Nat) : Prop where
  made : heap.makers[page]? = some this
  whole : ∃ bytes, heap.pages[page]? = some bytes ∧ bytes.length = pageSize
  free : ∀ write ∈ heap.writes, write.page = page → write.start + write.contents.length ≤ position

-- The last page of a storage is writable from its position on, if that is a position in a page at all.
def Current (pageSize : Nat) (heap : Heap Instance) (this : Instance) (storage : StableStringStorage) : Prop :=
  storage.currentPagePosition ≤ pageSize →
    ∃ front last, storage.strings = front ++ [last] ∧ Writable pageSize heap this last storage.currentPagePosition

structure Invariant (pageSize : Nat) (heap : Heap Instance) : Prop where
  sound : heap.Sound
  known : ∀ this, ∀ page ∈ (heap.storages this).strings, page < heap.pages.length
  current : ∀ this, Current pageSize heap this (heap.storages this)

variable {pageSize page position start size : Nat} {heap heap' : Heap Instance} {this other : Instance}
  {storage : StableStringStorage} {str : List UInt8} {write : Write Instance}

theorem initial_invariant (pageSize : Nat) : Invariant pageSize (initial Instance pageSize) := by
  refine ⟨⟨rfl,?_,?_,?_⟩,?_,?_⟩
  · exact fun write member => nomatch member
  · exact fun write member => nomatch member
  · exact fun write member => nomatch member
  · exact fun this page member => nomatch member
  · intro this low
    exact absurd low (Nat.not_succ_le_self pageSize)

theorem Sound.known (sound : heap.Sound) (member : write ∈ heap.writes) : write.page < heap.pages.length := by
  obtain ⟨page,found,_⟩ := sound.inside write member
  exact (List.getElem?_eq_some_iff.mp found).1

section Making

theorem makeShared_pages (known : page < heap.pages.length) :
    (heap.makeShared this size).pages[page]? = heap.pages[page]? := List.getElem?_append_left known

theorem makeShared_makers (known : page < heap.makers.length) :
    (heap.makeShared this size).makers[page]? = heap.makers[page]? := List.getElem?_append_left known

theorem makeShared_bytes {view : View} (known : view.page < heap.pages.length) :
    (heap.makeShared this size).bytes view = heap.bytes view := by
  rw [bytes,bytes,makeShared_pages known]

theorem makeShared_sound (sound : heap.Sound) : (heap.makeShared this size).Sound := by
  refine ⟨?_,?_,?_,?_⟩
  · rw [makeShared,List.length_append,List.length_append,sound.paired]
    rfl
  · intro write member
    rw [makeShared_makers (sound.paired ▸ sound.known member)]
    exact sound.owned write member
  · intro write member
    rw [makeShared_pages (sound.known member)]
    exact sound.inside write member
  · intro write member
    rw [makeShared_bytes (sound.known member)]
    exact sound.kept write member

theorem Writable.makeShared (writable : Writable pageSize heap other page position) :
    Writable pageSize (heap.makeShared this size) other page position := by
  obtain ⟨bytes,found,length⟩ := writable.whole
  refine ⟨?_,⟨bytes,?_,length⟩,writable.free⟩
  · rw [makeShared_makers (List.getElem?_eq_some_iff.mp writable.made).1]
    exact writable.made
  · rw [makeShared_pages (List.getElem?_eq_some_iff.mp found).1]
    exact found

theorem makeShared_invariant (invariant : Invariant pageSize heap) : Invariant pageSize (heap.makeShared this size) := by
  refine ⟨makeShared_sound invariant.sound,?_,?_⟩
  · intro holder page member
    have known := invariant.known holder page member
    rw [makeShared,List.length_append]
    omega
  · intro holder low
    obtain ⟨front,last,parts,writable⟩ := invariant.current holder low
    exact ⟨front,last,parts,writable.makeShared⟩

-- The new page has its maker and its size, and nothing was copied to it.
theorem makeShared_fresh (sound : heap.Sound) : (heap.makeShared this size).makers[heap.pages.length]? = some this ∧
    (heap.makeShared this size).pages[heap.pages.length]? = some (List.replicate size 0) ∧
    ∀ write ∈ (heap.makeShared this size).writes, write.page ≠ heap.pages.length := by
  refine ⟨?_,?_,?_⟩
  · rw [← sound.paired]
    exact List.getElem?_concat_length
  · exact List.getElem?_concat_length
  · intro write member
    exact Nat.ne_of_lt (sound.known member)

end Making

section Copying
variable {bytes : List UInt8}

-- A page with some bytes copied in.
def patched (bytes : List UInt8) (start : Nat) (str : List UInt8) : List UInt8 :=
  bytes.take start ++ str ++ bytes.drop (start + str.length)

theorem length_patched (fits : start + str.length ≤ bytes.length) : (patched bytes start str).length = bytes.length := by
  rw [patched,List.length_append,List.length_append,List.length_take,List.length_drop]
  omega

theorem patched_self (fits : start + str.length ≤ bytes.length) : ((patched bytes start str).drop start).take str.length = str := by
  have length : (bytes.take start).length = start := by
    rw [List.length_take]
    omega
  rw [patched,List.append_assoc,List.drop_left' length,List.take_left]

theorem patched_before {first count : Nat} (before : first + count ≤ start) (fits : start ≤ bytes.length) :
    ((patched bytes start str).drop first).take count = (bytes.drop first).take count := by
  have whole : bytes = bytes.take start ++ bytes.drop start := (List.take_append_drop start bytes).symm
  have length : (bytes.take start).length = start := by
    rw [List.length_take]
    omega
  have inside : count ≤ ((bytes.take start).drop first).length := by
    rw [List.length_drop,length]
    omega
  rw [patched,List.append_assoc,List.drop_append_of_le_length (by omega),List.take_append_of_le_length inside]
  conv_rhs => rw [whole,List.drop_append_of_le_length (by omega),List.take_append_of_le_length inside]

variable [DecidableEq Instance]

-- The heap after the storage of the instance is updated and the string is copied.
def copied (heap : Heap Instance) (this : Instance) (storage : StableStringStorage) (page start : Nat) (bytes str : List UInt8) :
    Heap Instance :=
  {heap.store this storage with
    pages := heap.pages.set page (patched bytes start str)
    writes := ⟨this,page,start,str⟩ :: heap.writes}

theorem copied_target (found : heap.pages[page]? = some bytes) :
    (heap.copied this storage page start bytes str).pages[page]? = some (patched bytes start str) :=
  List.getElem?_set_self (List.getElem?_eq_some_iff.mp found).1

theorem copied_others {last : Nat} (different : last ≠ page) :
    (heap.copied this storage page start bytes str).pages[last]? = heap.pages[last]? := List.getElem?_set_ne different.symm

theorem memcpy_copied (found : heap.pages[page]? = some bytes) (fits : start + str.length ≤ bytes.length) :
    (heap.store this storage).memcpy this page start str =
      some (⟨page,start,str.length⟩,heap.copied this storage page start bytes str) := by
  rw [memcpy]
  change (heap.pages[page]?.bind _) = _
  rw [found,Option.bind_some,if_pos fits]
  rfl

-- A copy behind all that was copied to its page leaves every copy where it is.
theorem Sound.copied (sound : heap.Sound) (made : heap.makers[page]? = some this) (found : heap.pages[page]? = some bytes)
    (fits : start + str.length ≤ bytes.length)
    (free : ∀ write ∈ heap.writes, write.page = page → write.start + write.contents.length ≤ start) :
    (heap.copied this storage page start bytes str).Sound := by
  refine ⟨sound.paired.trans List.length_set.symm,?_,?_,?_⟩
  · exact List.forall_mem_cons.mpr ⟨made,sound.owned⟩
  · refine List.forall_mem_cons.mpr ⟨⟨_,copied_target found,?_⟩,?_⟩
    · rw [length_patched fits]
      exact fits
    · intro write member
      obtain ⟨old,stored,range⟩ := sound.inside write member
      by_cases target : write.page = page
      · rw [target,found,Option.some.injEq] at stored
        subst stored
        rw [target]
        exact ⟨_,copied_target found,by rw [length_patched fits]; exact range⟩
      · rw [copied_others target]
        exact ⟨old,stored,range⟩
  · refine List.forall_mem_cons.mpr ⟨?_,?_⟩
    · rw [Heap.bytes,Write.view,copied_target found,Option.map_some,patched_self fits]
    · intro write member
      have old := sound.kept write member
      rw [Heap.bytes,Write.view] at old ⊢
      dsimp only at old ⊢
      by_cases target : write.page = page
      · rw [target,found,Option.map_some] at old
        rw [target,copied_target found,Option.map_some,patched_before (free write member target) (by omega)]
        exact old
      · rw [copied_others target]
        exact old

-- A page keeps its size, and the bound of a page that is not the target stays as it is.
theorem Writable.copied {last : Nat} (writable : Writable pageSize heap other last position)
    (found : heap.pages[page]? = some bytes) (fits : start + str.length ≤ bytes.length)
    (bound : last = page → start + str.length ≤ position) :
    Writable pageSize (heap.copied this storage page start bytes str) other last position := by
  obtain ⟨old,stored,length⟩ := writable.whole
  refine ⟨writable.made,?_,?_⟩
  · by_cases target : last = page
    · rw [target,found,Option.some.injEq] at stored
      subst stored
      rw [target]
      exact ⟨_,copied_target found,(length_patched fits).trans length⟩
    · rw [copied_others target]
      exact ⟨old,stored,length⟩
  · exact List.forall_mem_cons.mpr ⟨fun target => bound target.symm,writable.free⟩

-- The end of every call: the storage of the instance is updated and the string is copied to a
-- place of one of its own pages behind everything that was copied there.
theorem copy_spec (invariant : Invariant pageSize heap) (known : ∀ page ∈ storage.strings, page < heap.pages.length)
    (made : heap.makers[page]? = some this) (found : heap.pages[page]? = some bytes)
    (fits : start + str.length ≤ bytes.length)
    (free : ∀ write ∈ heap.writes, write.page = page → write.start + write.contents.length ≤ start)
    (current : storage.currentPagePosition ≤ pageSize → ∃ front last, storage.strings = front ++ [last] ∧
      Writable pageSize heap this last storage.currentPagePosition ∧
      (last = page → start + str.length ≤ storage.currentPagePosition)) :
    ∃ heap', (heap.store this storage).memcpy this page start str = some (⟨page,start,str.length⟩,heap') ∧
      Invariant pageSize heap' ∧ heap'.writes = ⟨this,page,start,str⟩ :: heap.writes ∧
      heap'.storages = Function.update heap.storages this storage := by
  refine ⟨_,memcpy_copied found fits,⟨invariant.sound.copied made found fits free,?_,?_⟩,rfl,rfl⟩
  · intro holder last member
    change last < (heap.pages.set page (patched bytes start str)).length
    rw [List.length_set]
    change last ∈ (Function.update heap.storages this storage holder).strings at member
    by_cases own : holder = this
    · rw [own,Function.update_self] at member
      exact known last member
    · rw [Function.update_of_ne own] at member
      exact invariant.known holder last member
  · intro holder
    change Current pageSize _ holder (Function.update heap.storages this storage holder)
    by_cases own : holder = this
    · rw [own,Function.update_self]
      intro low
      obtain ⟨front,last,parts,writable,bound⟩ := current low
      exact ⟨front,last,parts,writable.copied found fits bound⟩
    · rw [Function.update_of_ne own]
      intro low
      obtain ⟨front,last,parts,writable⟩ := invariant.current holder low
      refine ⟨front,last,parts,writable.copied found fits ?_⟩
      intro target
      rw [← target,writable.made,Option.some.injEq] at made
      exact absurd made own

end Copying

section Calls
variable [DecidableEq Instance]

-- What a call of enterString returns and changes.
structure Enters (pageSize : Nat) (heap : Heap Instance) (this : Instance) (str : List UInt8) (view : View)
    (heap' : Heap Instance) : Prop where
  invariant : Invariant pageSize heap'
  writes : heap'.writes = ⟨this,view.page,view.start,str⟩ :: heap.writes
  size : view.size = str.length
  grows : ∀ page ∈ (heap.storages this).strings, page ∈ (heap'.storages this).strings
  holds : view.page ∈ (heap'.storages this).strings
  others : ∀ other, other ≠ this → heap'.storages other = heap.storages other

theorem swapLast_append (front : List Nat) (last inserted : Nat) :
    swapLast (front ++ [last] ++ [inserted]) = front ++ [inserted] ++ [last] := by
  have turned : (front ++ [last] ++ [inserted]).reverse = inserted :: last :: front.reverse := by simp
  rw [swapLast,turned]
  simp

-- A storage that is updated and a copy to one of its pages are such a call.
theorem enters_of_copy {view : View} (copied : heap'.writes = ⟨this,page,start,str⟩ :: heap.writes)
    (stored : heap'.storages = Function.update heap.storages this storage) (invariant : Invariant pageSize heap')
    (returned : view = ⟨page,start,str.length⟩) (grows : ∀ page ∈ (heap.storages this).strings, page ∈ storage.strings)
    (holds : page ∈ storage.strings) : Enters pageSize heap this str view heap' := by
  subst returned
  refine ⟨invariant,copied,rfl,?_,?_,?_⟩
  · rw [stored,Function.update_self]
    exact grows
  · rw [stored,Function.update_self]
    exact holds
  · intro other different
    rw [stored,Function.update_of_ne different]

-- A string that is longer than a page gets one of its own, before the current page.
theorem enterString_huge (invariant : Invariant pageSize heap) (this : Instance) (huge : str.length > pageSize) :
    ∃ view heap', enterString pageSize heap this str = some (view,heap') ∧ Enters pageSize heap this str view heap' := by
  have made := @makeShared_invariant _ pageSize str.length heap this invariant
  obtain ⟨maker,bytes,unwritten⟩ := @makeShared_fresh _ str.length heap this invariant.sound
  have room : 0 + str.length ≤ (List.replicate str.length (0 : UInt8)).length := by
    rw [List.length_replicate]
    omega
  have old : ∀ page ∈ (heap.storages this).strings, page < (heap.makeShared this str.length).pages.length :=
    made.known this
  have new : heap.pages.length < (heap.makeShared this str.length).pages.length := (List.getElem?_eq_some_iff.mp bytes).1
  rw [enterString,if_pos huge]
  dsimp only
  rcases List.eq_nil_or_concat (heap.storages this).strings with empty | ⟨front,last,parts⟩
  · -- The first page of the storage: an empty one is put behind it.
    have again := @makeShared_invariant _ pageSize pageSize (heap.makeShared this str.length) this made
    obtain ⟨maker',bytes',unwritten'⟩ := @makeShared_fresh _ pageSize (heap.makeShared this str.length) this made.sound
    have count : (heap.makeShared this str.length).pages.length = heap.pages.length + 1 := List.length_append
    have next : heap.pages.length + 1 < ((heap.makeShared this str.length).makeShared this pageSize).pages.length := by
      rw [← count]
      exact (List.getElem?_eq_some_iff.mp bytes').1
    rw [empty,List.nil_append,if_neg (by simp)]
    obtain ⟨heap',run,invariant',writes,storages⟩ := @copy_spec _ pageSize heap.pages.length 0
      ((heap.makeShared this str.length).makeShared this pageSize) this ⟨[heap.pages.length] ++ [heap.pages.length + 1],0⟩ str
      (List.replicate str.length 0) _ again (by simp; omega)
      (by rw [makeShared_makers (made.sound.paired ▸ new)]; exact maker)
      (by rw [makeShared_pages new]; exact bytes) room
      (fun write member target => absurd target (unwritten write member))
      (fun _ => ⟨_,_,rfl,⟨count ▸ maker',⟨_,count ▸ bytes',List.length_replicate⟩,
        fun write member target => absurd (target.trans count.symm) (unwritten' write member)⟩,
        fun same => absurd same (Nat.succ_ne_self _)⟩)
    rw [count]
    exact ⟨_,heap',run,enters_of_copy writes storages invariant' rfl (by rw [empty]; simp) (by simp)⟩
  · have swapped : swapLast ((heap.storages this).strings ++ [heap.pages.length]) = front ++ [heap.pages.length] ++ [last] := by
      rw [parts,List.concat_eq_append]
      exact swapLast_append front last heap.pages.length
    have many : ((heap.storages this).strings ++ [heap.pages.length]).length > 1 := by
      rw [parts]
      simp
    have members : ∀ page, page ∈ front ++ [heap.pages.length] ++ [last] ↔
        page ∈ (heap.storages this).strings ∨ page = heap.pages.length := by
      intro page
      rw [parts]
      simp
      tauto
    rw [if_pos many,swapped]
    obtain ⟨heap',run,invariant',writes,storages⟩ := @copy_spec _ pageSize heap.pages.length 0
      (heap.makeShared this str.length) this ⟨front ++ [heap.pages.length] ++ [last],(heap.storages this).currentPagePosition⟩ str
      (List.replicate str.length 0) _ made
      (fun page member => ((members page).mp member).elim (old page) fun same => same ▸ new)
      maker bytes room (fun write member target => absurd target (unwritten write member))
      (fun low => by
        obtain ⟨front',last',parts',writable⟩ := invariant.current this low
        have same : last' = last := by
          rw [parts,List.concat_eq_append] at parts'
          exact (List.singleton_inj.mp (List.append_inj' parts' rfl).2).symm
        subst same
        refine ⟨_,_,rfl,writable.makeShared,?_⟩
        intro target
        have known := invariant.known this last' (by rw [parts]; simp)
        omega)
    exact ⟨_,heap',run,enters_of_copy writes storages invariant' rfl (fun page member => (members page).mpr (.inl member))
      ((members _).mpr (.inr rfl))⟩

theorem enterString_spec (invariant : Invariant pageSize heap) (this : Instance) (str : List UInt8) :
    ∃ view heap', enterString pageSize heap this str = some (view,heap') ∧ Enters pageSize heap this str view heap' := by
  by_cases huge : str.length > pageSize
  · exact enterString_huge invariant this huge
  rw [enterString,if_neg huge]
  dsimp only
  by_cases full : (heap.storages this).currentPagePosition + str.length > pageSize
  · -- A new page, written from its start.
    have made := @makeShared_invariant _ pageSize pageSize heap this invariant
    obtain ⟨maker,bytes,unwritten⟩ := @makeShared_fresh _ pageSize heap this invariant.sound
    have new : heap.pages.length < (heap.makeShared this pageSize).pages.length := (List.getElem?_eq_some_iff.mp bytes).1
    rw [if_pos full]
    obtain ⟨heap',run,invariant',writes,storages⟩ := @copy_spec _ pageSize heap.pages.length 0
      (heap.makeShared this pageSize) this ⟨(heap.storages this).strings ++ [heap.pages.length],0 + str.length⟩ str
      (List.replicate pageSize 0) _ made
      (fun page member => (List.mem_append.mp member).elim (made.known this page) fun one => List.mem_singleton.mp one ▸ new)
      maker bytes (by rw [List.length_replicate]; omega) (fun write member target => absurd target (unwritten write member))
      (fun _ => ⟨_,_,rfl,⟨maker,⟨_,bytes,List.length_replicate⟩,
        fun write member target => absurd target (unwritten write member)⟩,fun _ => Nat.le_refl _⟩)
    exact ⟨_,heap',run,enters_of_copy writes storages invariant' rfl (fun page => List.mem_append_left _)
      (List.mem_append_right _ List.mem_cons_self)⟩
  · -- The current page, from the current position on.
    obtain ⟨front,last,parts,writable⟩ := invariant.current this (by omega)
    obtain ⟨bytes,found,length⟩ := writable.whole
    rw [if_neg full,parts,List.getLast?_concat]
    obtain ⟨heap',run,invariant',writes,storages⟩ := @copy_spec _ pageSize last (heap.storages this).currentPagePosition
      heap this ⟨front ++ [last],(heap.storages this).currentPagePosition + str.length⟩ str bytes _ invariant
      (by rw [← parts]; exact invariant.known this) writable.made found (by omega) writable.free
      (fun _ => ⟨_,_,rfl,⟨writable.made,writable.whole,fun write member target =>
        Nat.le_trans (writable.free write member target) (Nat.le_add_right _ _)⟩,fun _ => Nat.le_refl _⟩)
    exact ⟨_,heap',run,enters_of_copy writes storages invariant' rfl (by rw [parts]; exact fun page => id) (by simp)⟩

theorem assign_invariant (invariant : Invariant pageSize heap) (this rhs : Instance) :
    Invariant pageSize (heap.assign pageSize this rhs) := by
  refine ⟨⟨invariant.sound.paired,invariant.sound.owned,invariant.sound.inside,invariant.sound.kept⟩,?_,?_⟩
  · intro holder page member
    change page ∈ (Function.update heap.storages this _ holder).strings at member
    by_cases own : holder = this
    · rw [own,Function.update_self] at member
      exact invariant.known rhs page member
    · rw [Function.update_of_ne own] at member
      exact invariant.known holder page member
  · intro holder
    change Current pageSize _ holder (Function.update heap.storages this _ holder)
    by_cases own : holder = this
    · rw [own,Function.update_self]
      intro low
      exact absurd low (Nat.not_succ_le_self pageSize)
    · rw [Function.update_of_ne own]
      intro low
      obtain ⟨front,last,parts,writable⟩ := invariant.current holder low
      exact ⟨front,last,parts,⟨writable.made,writable.whole,writable.free⟩⟩

-- The instance whose pages an operation replaces.
def Operation.assigned : Operation Instance → Option Instance
  | .enterString _ _ => none
  | .assign this _ => some this

theorem apply_spec (invariant : Invariant pageSize heap) (operation : Operation Instance) :
    ∃ heap', heap.apply pageSize operation = some heap' ∧ Invariant pageSize heap' ∧
      (∀ write ∈ heap.writes, write ∈ heap'.writes) ∧
      ∀ this, operation.assigned ≠ some this → ∀ page ∈ (heap.storages this).strings, page ∈ (heap'.storages this).strings := by
  cases operation with
  | enterString this str =>
    obtain ⟨view,heap',run,enters⟩ := enterString_spec invariant this str
    refine ⟨heap',?_,enters.invariant,?_,?_⟩
    · rw [apply,run]
      rfl
    · intro write member
      rw [enters.writes]
      exact List.mem_cons_of_mem _ member
    · intro other _ page member
      by_cases own : other = this
      · subst own
        exact enters.grows page member
      · rw [enters.others other own]
        exact member
  | assign this rhs =>
    refine ⟨_,rfl,assign_invariant invariant this rhs,fun write member => member,?_⟩
    intro other untouched page member
    change page ∈ (Function.update heap.storages this _ other).strings
    rw [Function.update_of_ne fun same => untouched (congrArg some same.symm)]
    exact member

theorem run_spec (invariant : Invariant pageSize heap) (operations : List (Operation Instance)) :
    ∃ heap', run pageSize heap operations = some heap' ∧ Invariant pageSize heap' ∧
      (∀ write ∈ heap.writes, write ∈ heap'.writes) ∧
      ∀ this, (∀ operation ∈ operations, operation.assigned ≠ some this) →
        ∀ page ∈ (heap.storages this).strings, page ∈ (heap'.storages this).strings := by
  induction operations generalizing heap with
  | nil => exact ⟨heap,rfl,invariant,fun write member => member,fun this _ page member => member⟩
  | cons operation rest ih =>
    obtain ⟨next,step,invariant',writes,pages⟩ := apply_spec invariant operation
    obtain ⟨heap',steps,final,writes',pages'⟩ := ih invariant'
    refine ⟨heap',?_,final,fun write member => writes' write (writes write member),?_⟩
    · rw [run,step]
      exact steps
    · intro this untouched page member
      obtain ⟨first,later⟩ := List.forall_mem_cons.mp untouched
      exact pages' this later page (pages this first page member)

-- No two instances copied to the same page, and no copy left its page.
structure Separate (heap : Heap Instance) : Prop where
  single : ∀ one ∈ heap.writes, ∀ other ∈ heap.writes, one.page = other.page → one.writer = other.writer
  inside : ∀ write ∈ heap.writes, ∃ page, heap.pages[write.page]? = some page ∧ write.start + write.contents.length ≤ page.length

omit [DecidableEq Instance] in
theorem Sound.separate (sound : heap.Sound) : Separate heap := by
  refine ⟨?_,sound.inside⟩
  intro one first other second same
  have left := sound.owned one first
  rw [same,sound.owned other second,Option.some.injEq] at left
  exact left.symm

end Calls

section Runs
variable [DecidableEq Instance]

-- Whatever is entered and assigned before and after a call of enterString: all calls succeed,
-- the view it returned reads its string while any instance holds its page, and the instance
-- that returned it does so until it is assigned to.
theorem enterString_stable (pageSize : Nat) (before after : List (Operation Instance)) (this : Instance) (str : List UInt8) :
    ∃ heap view entered last, run pageSize (initial Instance pageSize) before = some heap ∧
      heap.enterString pageSize this str = some (view,entered) ∧ run pageSize entered after = some last ∧
      (last.Held view.page → last.Reads view str) ∧
      ((∀ operation ∈ after, operation.assigned ≠ some this) → last.Held view.page) ∧ Separate last := by
  obtain ⟨heap,first,invariant,_,_⟩ := run_spec (initial_invariant pageSize) before
  obtain ⟨view,entered,call,enters⟩ := enterString_spec invariant this str
  obtain ⟨last,second,final,writes,pages⟩ := run_spec enters.invariant after
  have logged : (⟨this,view.page,view.start,str⟩ : Write Instance) ∈ last.writes :=
    writes _ (enters.writes ▸ List.mem_cons_self)
  have contents := final.sound.kept _ logged
  rw [Write.view,← enters.size] at contents
  exact ⟨heap,view,entered,last,first,call,second,fun held => ⟨held,contents⟩,
    fun untouched => ⟨this,pages this untouched view.page enters.holds⟩,final.sound.separate⟩

end Runs

-- The page of a view is freed when the only instance that holds it takes over another storage.
theorem assign_frees : ∃ view entered last, (initial Bool 4).enterString 4 false [0x61] = some (view,entered) ∧
    run 4 entered [.assign false true] = some last ∧ entered.Reads view [0x61] ∧ ¬last.Reads view [0x61] := by
  refine ⟨_,_,_,rfl,rfl,⟨⟨false,List.mem_cons_self⟩,rfl⟩,?_⟩
  rintro ⟨⟨holder,member⟩,_⟩
  cases holder with
  | false => cases member
  | true => cases member

end Heap
end Common.Storage
