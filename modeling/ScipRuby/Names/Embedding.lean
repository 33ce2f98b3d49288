import ScipRuby.Names.Substitution

namespace Names
open GlobalState
variable {xxh32 : List UInt8 → UInt32} {from_ to_ to' target : GlobalState} {ref ref' o o' : NameRef} {content content' : Name}
  {kind : NameKind} {age : NameRef → Nat} {b : Building} {tree : NameTree}

-- Two names of two tables with the same structure.
def SameName (from_ : GlobalState) (ref : NameRef) (to_ : GlobalState) (ref' : NameRef) : Prop :=
  ∃ tree, Spells from_ ref tree ∧ Spells to_ ref' tree

theorem SameName.keep (same : SameName from_ ref to_ ref') (keeps : Keeps to_ to') : SameName from_ ref to' ref' := by
  obtain ⟨tree,left,right⟩ := same
  exact ⟨tree,left,right.keep keeps⟩

-- The content that stands in the target for one of the source.
inductive Carried (from_ to_ : GlobalState) : Name → Name → Prop where
  | text (name : UTF8Name) : Carried from_ to_ (.utf8 name) (.utf8 name)
  | renamed {content : Name} {o o' : NameRef} (made : content.original = some o) (same : SameName from_ o to_ o') :
      Carried from_ to_ content (content.renamed o')

theorem Carried.sameName (carried : Carried from_ to_ content content') (at_ : from_.name ref = some content)
    (at_' : to_.name ref' = some content') : SameName from_ ref to_ ref' := by
  cases carried with
  | text name => exact ⟨_,.utf8 at_,.utf8 at_'⟩
  | @renamed _ o o' made same =>
    obtain ⟨tree,left,right⟩ := same
    cases content with
    | utf8 name => cases made
    | unique name =>
      cases made
      have there : to_.name ref' = some (.unique ⟨o',name.num,name.uniqueNameKind⟩) := at_'
      have spelled := Spells.unique there right
      exact ⟨_,.unique at_ left,spelled⟩
    | constant name =>
      cases made
      exact ⟨_,.constant at_ left,.constant at_' right⟩

theorem Carried.keep (carried : Carried from_ to_ content content') (keeps : Keeps to_ to') :
    Carried from_ to' content content' := by
  cases carried with
  | text name => exact .text name
  | renamed made same => exact .renamed made (same.keep keeps)

theorem Spells.present (spells : Spells to_ ref tree) : (to_.name ref).isSome := by
  cases spells with
  | utf8 at_ => rw [at_]; rfl
  | unique at_ => rw [at_]; rfl
  | constant at_ => rw [at_]; rfl

theorem Carried.known (carried : Carried from_ to_ content content') (made : content'.original = some o) :
    (to_.name o).isSome := by
  cases carried with
  | text name => cases made
  | @renamed _ p o' made' same =>
    obtain ⟨tree,_,spells⟩ := same
    have : o' = o := by
      cases content with
      | utf8 name => cases made'
      | unique name => exact Option.some.inj made
      | constant name => exact Option.some.inj made
    rw [←this]
    exact spells.present

-- A carried name is entered, and it is the same name.
theorem Spacious.carry (spacious : Spacious xxh32 to_) (few : to_.namesUsedTotal ≤ nameLimit)
    (carried : Carried from_ to_ content content') (at_ : from_.name ref = some content) :
    ∃ ref' to', to_.enterName xxh32 content' = .ok (ref',to') ∧ Spacious xxh32 to' ∧ Keeps to_ to' ∧
      to'.namesUsedTotal ≤ to_.namesUsedTotal + 1 ∧ SameName from_ ref to' ref' := by
  obtain ⟨ref',to',entered,spacious',logged,total⟩ := spacious.enterName few content'
  have there : to'.name ref' = some content' := (logged ref' content').mpr (.inr (List.mem_singleton_self _))
  exact ⟨ref',to',entered,spacious',logged.keeps,total,(carried.keep logged.keeps).sameName at_ there⟩

section Order

theorem Aged.index_lt (aged : Aged from_ age) {m n : Nat} (inside : m < from_.size kind)
    (earlier : age (NameRef.make kind m) < age (NameRef.make kind n)) : m < n := by
  by_contra beyond
  rcases Nat.lt_or_eq_of_le (Nat.le_of_not_lt beyond) with below | rfl
  · have := aged.increasing kind n m below inside
    omega
  · omega

theorem Aged.age_le (aged : Aged from_ age) {m n : Nat} (le : m ≤ n) (inside : n < from_.size kind) :
    age (NameRef.make kind m) ≤ age (NameRef.make kind n) := by
  rcases Nat.lt_or_eq_of_le le with below | rfl
  · exact Nat.le_of_lt (aged.increasing kind m n below inside)
  · exact Nat.le_refl _

theorem name_inside (at_ : from_.name ref = some content) :
    ref = NameRef.make content.kind ref.unsafeTableIndex ∧ ref.unsafeTableIndex < from_.size content.kind := by
  refine ⟨NameRef.eq_make (name_kind at_),?_⟩
  rw [←contents_length]
  exact (List.getElem?_eq_some_iff.mp (name_index at_)).1

end Order

section Tables

def NameSubstitution.size (sub : NameSubstitution) : Nat :=
  (sub.table .utf8).length + (sub.table .constant).length + (sub.table .unique).length

theorem table_emplaceBack (sub : NameSubstitution) (added kind : NameKind) (ref : NameRef) :
    (sub.emplaceBack added ref).table kind = sub.table kind ++ (if kind = added then [ref] else []) := by
  cases added <;> cases kind <;> simp [NameSubstitution.emplaceBack,NameSubstitution.table]

theorem length_emplaceBack (sub : NameSubstitution) (added kind : NameKind) (ref : NameRef) :
    ((sub.emplaceBack added ref).table kind).length = (sub.table kind).length + (if kind = added then 1 else 0) := by
  rw [table_emplaceBack,List.length_append]
  split <;> rfl

theorem size_emplaceBack (sub : NameSubstitution) (kind : NameKind) (ref : NameRef) :
    (sub.emplaceBack kind ref).size = sub.size + 1 := by
  rw [NameSubstitution.size,length_emplaceBack,length_emplaceBack,length_emplaceBack,NameSubstitution.size]
  cases kind <;> simp only [reduceCtorEq,↓reduceIte] <;> omega

theorem substitute_of_kind (sub : NameSubstitution) (known : ref.kind = some kind) :
    sub.substitute ref = (sub.table kind)[ref.unsafeTableIndex]? := by
  rw [NameSubstitution.substitute,known]
  rfl

end Tables

section Eager

-- The entries so far are the same names in the target, which keeps its own.
structure Covers (xxh32 : List UInt8 → UInt32) (from_ target : GlobalState) (b : Building) : Prop where
  built : Built xxh32 b.to_
  keeps : Keeps target b.to_
  total : b.to_.namesUsedTotal ≤ target.namesUsedTotal + b.sub.size
  within : ∀ kind, (b.sub.table kind).length ≤ from_.size kind
  faithful : ∀ kind i ref, (b.sub.table kind)[i]? = some ref → SameName from_ (NameRef.make kind i) b.to_ ref

theorem Covers.start (built : Built xxh32 target) : Covers xxh32 from_ target ⟨.empty,target⟩ where
  built := built
  keeps := fun _ _ at_ => at_
  total := Nat.le_refl _
  within := by
    intro kind
    cases kind <;> exact Nat.zero_le _
  faithful := by
    intro kind i ref at_
    cases kind <;> cases at_

theorem Covers.size_le (covers : Covers xxh32 from_ target b) : b.sub.size ≤ from_.namesUsedTotal := by
  have utf8 := covers.within .utf8
  have constant := covers.within .constant
  have unique := covers.within .unique
  rw [NameSubstitution.size,total_eq]
  omega

-- An entry of the substitution for the original of a name.
theorem Covers.substitute (covers : Covers xxh32 from_ target b) (known : o.kind = some kind)
    (defined : o.unsafeTableIndex < (b.sub.table kind).length) :
    ∃ o', b.sub.substitute o = some o' ∧ SameName from_ o b.to_ o' := by
  have at_ := List.getElem?_eq_getElem defined
  have same := covers.faithful kind _ _ at_
  rw [←NameRef.eq_make known] at same
  exact ⟨_,(substitute_of_kind b.sub known).trans at_,same⟩

theorem Covers.rename (covers : Covers xxh32 from_ target b)
    (ready : ∀ o, content.original = some o → ∃ kind, o.kind = some kind ∧ o.unsafeTableIndex < (b.sub.table kind).length) :
    ∃ content', b.sub.rename content = .ok content' ∧ Carried from_ b.to_ content content' := by
  cases made : content.original with
  | none =>
    refine ⟨content,by simp only [NameSubstitution.rename,made],?_⟩
    cases content with
    | utf8 name => exact .text name
    | _ => cases made
  | some o =>
    obtain ⟨kind,known,defined⟩ := ready o made
    obtain ⟨o',found,same⟩ := covers.substitute known defined
    refine ⟨content.renamed o',?_,.renamed made same⟩
    simp only [NameSubstitution.rename,made,found,expect,Option.elim,Except.map]

variable (fits : from_.namesUsedTotal + target.namesUsedTotal ≤ nameLimit)
include fits

-- One turn of a loop: the original has an entry, so that the name gets one.
theorem Covers.define (covers : Covers xxh32 from_ target b)
    (at_ : from_.name (NameRef.make content.kind (b.sub.table content.kind).length) = some content)
    (ready : ∀ o, content.original = some o → ∃ kind, o.kind = some kind ∧ o.unsafeTableIndex < (b.sub.table kind).length) :
    ∃ b', define xxh32 b content = .ok b' ∧ Covers xxh32 from_ target b' ∧
      (b'.sub.table content.kind).length = (b.sub.table content.kind).length + 1 ∧
      ∀ kind, kind ≠ content.kind → (b'.sub.table kind).length = (b.sub.table kind).length := by
  have size := covers.size_le
  have total := covers.total
  have few : from_.namesUsedTotal ≤ nameLimit := by omega
  have small : (b.sub.table content.kind).length < 2 ^ 30 :=
    Nat.lt_of_le_of_lt (covers.within content.kind) (size_small few content.kind)
  have inside : (b.sub.table content.kind).length < from_.size content.kind := by
    have := (name_inside at_).2
    rwa [NameRef.index_make small] at this
  obtain ⟨content',renamed,carried⟩ := covers.rename ready
  have spacious := covers.built.spacious (by omega)
  obtain ⟨ref,to_,entered,_,keeps,added,same⟩ := spacious.carry (by omega) carried at_
  have built : Built xxh32 to_ := .entered covers.built (fun o made => carried.known made) entered
  refine ⟨⟨b.sub.emplaceBack content.kind ref,to_⟩,?_,⟨built,covers.keeps.trans keeps,?_,?_,?_⟩,?_,?_⟩
  · simp only [Names.define,renamed,bind,Except.bind,entered,ofTable,Except.mapError]
  · simp only [size_emplaceBack]
    omega
  · intro kind
    have within := covers.within kind
    rw [length_emplaceBack]
    split
    · rename_i new
      rw [new]
      exact inside
    · exact within
  · intro kind i ref' there
    simp only [table_emplaceBack] at there
    rcases Nat.lt_or_ge i (b.sub.table kind).length with before | after
    · rw [List.getElem?_append_left before] at there
      exact (covers.faithful kind i ref' there).keep keeps
    · rw [List.getElem?_append_right after] at there
      split at there
      · rename_i new
        subst new
        rw [List.getElem?_singleton] at there
        split at there
        · cases there
          rw [show i = (b.sub.table content.kind).length by omega]
          exact same
        · cases there
      · cases there
  · rw [length_emplaceBack,if_pos rfl]
  · intro kind other
    rw [length_emplaceBack,if_neg other]
    rfl

-- The loop over the strings of the source.
theorem Covers.utf8Names (rest done : List UTF8Name) (covers : Covers xxh32 from_ target b)
    (split : from_.utf8Names.entries = done ++ rest) (reached : (b.sub.table .utf8).length = done.length) :
    ∃ b', rest.foldlM (fun b nm => Names.define xxh32 b (.utf8 nm)) b = .ok b' ∧ Covers xxh32 from_ target b' ∧
      (b'.sub.table .utf8).length = from_.size .utf8 ∧
      ∀ kind, kind ≠ .utf8 → (b'.sub.table kind).length = (b.sub.table kind).length := by
  induction rest generalizing b done with
  | nil =>
    refine ⟨b,rfl,covers,?_,fun _ _ => rfl⟩
    rw [reached,GlobalState.size,Vec.size,split,List.append_nil]
  | cons nm rest ih =>
    have inside : done.length < from_.size .utf8 := by
      rw [GlobalState.size,Vec.size,split,List.length_append,List.length_cons]
      omega
    have small := size_small (by omega : from_.namesUsedTotal ≤ nameLimit) .utf8
    have at_ : from_.name (NameRef.make (Name.utf8 nm).kind (b.sub.table (Name.utf8 nm).kind).length) = some (.utf8 nm) := by
      rw [Name.kind,name_make (by omega),contents,List.getElem?_map,split,reached,List.getElem?_append_right (Nat.le_refl _),
        Nat.sub_self]
      rfl
    obtain ⟨middle,defined,covers',here,others⟩ := covers.define fits at_ fun o made => by cases made
    rw [Name.kind,reached] at here
    obtain ⟨b',looped,covers'',complete,others'⟩ := ih (done ++ [nm]) covers'
      (by rw [split,List.append_assoc]; rfl) (by rw [here,List.length_append,List.length_singleton])
    refine ⟨b',?_,covers'',complete,?_⟩
    · rw [List.foldlM_cons]
      simp only [bind,Except.bind,defined]
      exact looped
    · intro kind other
      rw [others' kind other,others kind other]

-- The loop over constants: their originals are strings, earlier constants, or
-- unique names that are older than the constants.
theorem Covers.constantNames (aged : Aged from_ age) (n start : Nat) (covers : Covers xxh32 from_ target b)
    (strings : (b.sub.table .utf8).length = from_.size .utf8) (reached : (b.sub.table .constant).length = start)
    (inside : start + n ≤ from_.size .constant)
    (older : ∀ i < start + n, ∀ j < from_.size .unique, age (NameRef.make .unique j) < age (NameRef.make .constant i) →
      j < (b.sub.table .unique).length) :
    ∃ b', (List.range' start n).foldlM (fun b i => (expect .outside from_.constantNames.entries[i]?).bind fun cnst =>
        Names.define xxh32 b (.constant cnst)) b = .ok b' ∧ Covers xxh32 from_ target b' ∧
      (b'.sub.table .constant).length = start + n ∧
      ∀ kind, kind ≠ .constant → (b'.sub.table kind).length = (b.sub.table kind).length := by
  induction n generalizing b start with
  | zero => exact ⟨b,rfl,covers,reached,fun _ _ => rfl⟩
  | succ n ih =>
    have few : from_.namesUsedTotal ≤ nameLimit := by omega
    have small := size_small few .constant
    have present : start < from_.constantNames.entries.length := by
      have : from_.size .constant = from_.constantNames.entries.length := rfl
      omega
    have entry := List.getElem?_eq_getElem present
    generalize from_.constantNames.entries[start] = cnst at entry
    have at_ : from_.name (NameRef.make (Name.constant cnst).kind (b.sub.table (Name.constant cnst).kind).length) =
        some (.constant cnst) := by
      rw [Name.kind,reached,name_make (by omega),contents,List.getElem?_map,entry]
      rfl
    have ready : ∀ o, (Name.constant cnst).original = some o →
        ∃ kind, o.kind = some kind ∧ o.unsafeTableIndex < (b.sub.table kind).length := by
      intro o made
      obtain ⟨there,earlier⟩ := aged.backward _ _ o at_ made
      obtain ⟨content,there⟩ := Option.isSome_iff_exists.mp there
      obtain ⟨whole,index⟩ := name_inside there
      rw [whole,Name.kind,reached] at earlier
      refine ⟨content.kind,name_kind there,?_⟩
      cases known : content.kind with
      | utf8 =>
        rw [known] at index
        omega
      | unique =>
        rw [known] at index earlier
        exact older start (by omega) _ index earlier
      | constant =>
        rw [known] at index earlier
        rw [reached]
        exact aged.index_lt index earlier
    obtain ⟨middle,defined,covers',here,others⟩ := covers.define fits at_ ready
    rw [Name.kind] at here others
    rw [reached] at here
    obtain ⟨b',looped,covers'',complete,others'⟩ := ih (start + 1) covers' ((others .utf8 (by decide)).trans strings) here
      (by omega) (by rw [others .unique (by decide)]; exact fun i below => older i (by omega))
    refine ⟨b',?_,covers'',by omega,?_⟩
    · rw [List.range'_succ,List.foldlM_cons]
      simp only [bind,Except.bind,entry,expect,Option.elim,defined]
      exact looped
    · intro kind other
      rw [others' kind other,others kind other]

theorem Covers.defineConstants (aged : Aged from_ age) (covers : Covers xxh32 from_ target b) {stop : Nat}
    (strings : (b.sub.table .utf8).length = from_.size .utf8) (more : (b.sub.table .constant).length ≤ stop)
    (inside : stop ≤ from_.size .constant)
    (older : ∀ i < stop, ∀ j < from_.size .unique, age (NameRef.make .unique j) < age (NameRef.make .constant i) →
      j < (b.sub.table .unique).length) :
    ∃ b', defineConstants xxh32 from_ b stop = .ok b' ∧ Covers xxh32 from_ target b' ∧
      (b'.sub.table .constant).length = stop ∧
      ∀ kind, kind ≠ .constant → (b'.sub.table kind).length = (b.sub.table kind).length := by
  have whole : (b.sub.table .constant).length + (stop - (b.sub.table .constant).length) = stop := by omega
  obtain ⟨b',looped,covers',complete,others⟩ := covers.constantNames fits aged (stop - (b.sub.table .constant).length) _
    strings rfl (by rw [whole]; exact inside) (by rw [whole]; exact older)
  rw [whole] at complete
  exact ⟨b',looped,covers',complete,others⟩

-- A unique name over a constant without an entry: the constants up to that one
-- are older than the unique name, and so are the unique names that they are made from.
theorem Covers.defineUnique (aged : Aged from_ age) (covers : Covers xxh32 from_ target b) {nm : UniqueName}
    (strings : (b.sub.table .utf8).length = from_.size .utf8)
    (at_ : from_.name (NameRef.make .unique (b.sub.table .unique).length) = some (.unique nm)) :
    ∃ b', defineUnique xxh32 from_ b nm = .ok b' ∧ Covers xxh32 from_ target b' ∧
      (b'.sub.table .utf8).length = from_.size .utf8 ∧
      (b'.sub.table .unique).length = (b.sub.table .unique).length + 1 := by
  obtain ⟨there,earlier⟩ := aged.backward _ _ nm.original at_ rfl
  obtain ⟨content,there⟩ := Option.isSome_iff_exists.mp there
  obtain ⟨whole,index⟩ := name_inside there
  have known := name_kind there
  -- What is left once the original has an entry.
  have finish : ∀ {middle : Building}, Covers xxh32 from_ target middle →
      (middle.sub.table .utf8).length = from_.size .utf8 →
      (middle.sub.table .unique).length = (b.sub.table .unique).length →
      nm.original.unsafeTableIndex < (middle.sub.table content.kind).length →
      ∃ b', Names.define xxh32 middle (.unique nm) = .ok b' ∧ Covers xxh32 from_ target b' ∧
        (b'.sub.table .utf8).length = from_.size .utf8 ∧
        (b'.sub.table .unique).length = (b.sub.table .unique).length + 1 := by
    intro middle covers' strings' same defined
    have at_' : from_.name (NameRef.make (Name.unique nm).kind (middle.sub.table (Name.unique nm).kind).length) =
        some (.unique nm) := by
      rw [Name.kind,same]
      exact at_
    obtain ⟨b',done,covers'',here,others⟩ := covers'.define fits at_' fun o made => by
      cases made
      exact ⟨_,known,defined⟩
    rw [Name.kind] at here others
    exact ⟨b',done,covers'',(others .utf8 (by decide)).trans strings',by rw [here,same]⟩
  by_cases missing : nm.original.kind = some .constant ∧ (b.sub.table .constant).length ≤ nm.original.unsafeTableIndex
  · obtain ⟨constant,beyond⟩ := missing
    have kind : content.kind = .constant := Option.some.inj (known.symm.trans constant)
    rw [kind] at whole index finish
    rw [whole] at earlier
    obtain ⟨middle,looped,covers',complete,others⟩ := covers.defineConstants fits aged
      (by exact strings) (Nat.le_succ_of_le beyond) index (by
        intro i below j inside older
        have le := aged.age_le (Nat.le_of_lt_succ below) index
        exact aged.index_lt inside (by omega))
    obtain ⟨b',done,rest⟩ := finish covers' ((others .utf8 (by decide)).trans strings) (others .unique (by decide)) (by omega)
    refine ⟨b',?_,rest⟩
    rw [Names.defineUnique,if_pos ⟨constant,beyond⟩]
    simp only [bind,Except.bind,looped]
    exact done
  · have defined : nm.original.unsafeTableIndex < (b.sub.table content.kind).length := by
      cases kind : content.kind with
      | utf8 =>
        rw [kind] at index
        omega
      | unique =>
        rw [kind] at index whole
        rw [whole] at earlier
        exact aged.index_lt index earlier
      | constant =>
        rw [kind] at known
        by_contra beyond
        exact missing ⟨known,Nat.le_of_not_lt beyond⟩
    obtain ⟨b',done,rest⟩ := finish covers strings rfl defined
    refine ⟨b',?_,rest⟩
    exact (if_neg missing).trans done

theorem Covers.uniqueNames (aged : Aged from_ age) (rest done : List UniqueName) (covers : Covers xxh32 from_ target b)
    (strings : (b.sub.table .utf8).length = from_.size .utf8)
    (split : from_.uniqueNames.entries = done ++ rest) (reached : (b.sub.table .unique).length = done.length) :
    ∃ b', rest.foldlM (Names.defineUnique xxh32 from_) b = .ok b' ∧ Covers xxh32 from_ target b' ∧
      (b'.sub.table .utf8).length = from_.size .utf8 ∧ (b'.sub.table .unique).length = from_.size .unique := by
  induction rest generalizing b done with
  | nil =>
    refine ⟨b,rfl,covers,strings,?_⟩
    rw [reached,GlobalState.size,Vec.size,split,List.append_nil]
  | cons nm rest ih =>
    have inside : done.length < from_.size .unique := by
      rw [GlobalState.size,Vec.size,split,List.length_append,List.length_cons]
      omega
    have small := size_small (by omega : from_.namesUsedTotal ≤ nameLimit) .unique
    have at_ : from_.name (NameRef.make .unique (b.sub.table .unique).length) = some (.unique nm) := by
      rw [reached,name_make (by omega),contents,List.getElem?_map,split,List.getElem?_append_right (Nat.le_refl _),
        Nat.sub_self]
      rfl
    obtain ⟨middle,defined,covers',strings',here⟩ := covers.defineUnique fits aged strings at_
    obtain ⟨b',looped,rest'⟩ := ih (done ++ [nm]) covers' strings' (by rw [split,List.append_assoc]; rfl)
      (by rw [here,reached,List.length_append,List.length_singleton])
    refine ⟨b',?_,rest'⟩
    rw [List.foldlM_cons]
    simp only [bind,Except.bind,defined]
    exact looped

-- The constructor comes to its end, with an entry for every name.
theorem Covers.build (aged : Aged from_ age) (built : Built xxh32 target) :
    ∃ b, NameSubstitution.build xxh32 from_ target = .ok b ∧ Covers xxh32 from_ target b ∧
      ∀ kind, (b.sub.table kind).length = from_.size kind := by
  obtain ⟨first,strings,covers1,complete1,others1⟩ :=
    (Covers.start built).utf8Names fits from_.utf8Names.entries [] rfl rfl
  obtain ⟨second,uniques,covers2,complete2,complete3⟩ :=
    covers1.uniqueNames fits aged from_.uniqueNames.entries [] complete1 rfl (others1 .unique (by decide))
  obtain ⟨b,constants,covers3,complete4,others3⟩ := covers2.defineConstants fits aged
    complete2 (covers2.within .constant) (Nat.le_refl _) (by
      intro i _ j inside _
      rw [complete3]
      exact inside)
  refine ⟨b,?_,covers3,?_⟩
  · simp only [NameSubstitution.build,bind,Except.bind,strings,uniques]
    exact constants
  · intro kind
    cases kind with
    | utf8 => exact (others3 .utf8 (by decide)).trans complete2
    | unique => exact (others3 .unique (by decide)).trans complete3
    | constant => exact complete4

end Eager

section Lazy
open LazyNameSubstitution
variable {lazy : LazyNameSubstitution}

-- The remembered entries are the same names in the target, one for each name that
-- has been asked for.
structure Remembers (xxh32 : List UInt8 → UInt32) (from_ target : GlobalState) (lazy : LazyNameSubstitution) : Prop where
  spacious : Spacious xxh32 lazy.toGS
  keeps : Keeps target lazy.toGS
  nodup : (lazy.nameSubstitution.map Prod.fst).Nodup
  sources : ∀ ref ∈ lazy.nameSubstitution.map Prod.fst, ref = .noName ∨ ∃ content, from_.name ref = some content
  empty : lazy.nameSubstitution.lookup .noName = some .noName
  total : lazy.toGS.namesUsedTotal + 1 ≤ target.namesUsedTotal + lazy.nameSubstitution.length
  faithful : ∀ ref ref' content, lazy.nameSubstitution.lookup ref = some ref' → from_.name ref = some content →
    SameName from_ ref lazy.toGS ref'

theorem Remembers.start (spacious : Spacious xxh32 target) : Remembers xxh32 from_ target (start target) where
  spacious := spacious
  keeps := fun _ _ at_ => at_
  nodup := List.nodup_singleton _
  sources := by
    intro ref present
    exact .inl (List.mem_singleton.mp present)
  empty := rfl
  total := Nat.le_refl _
  faithful := by
    intro ref ref' content found at_
    by_cases none : ref = .noName
    · rw [none] at at_
      exact absurd rfl (name_present at_)
    · simp only [LazyNameSubstitution.start,List.lookup_cons,beq_eq_false_iff_ne.mpr none,List.lookup_nil,reduceCtorEq] at found

-- As many names can be asked for as the source has, and the empty one.
theorem Aged.length_le (aged : Aged from_ age) {refs : List NameRef} (nodup : refs.Nodup)
    (sources : ∀ ref ∈ refs, ref = .noName ∨ ∃ content, from_.name ref = some content) :
    refs.length ≤ from_.namesUsedTotal + 1 := by
  have named : ∀ ref ∈ refs.erase .noName, ∃ content, from_.name ref = some content := by
    intro ref present
    rw [nodup.mem_erase_iff] at present
    exact (sources ref present.2).resolve_left present.1
  have ages : ((refs.erase .noName).map age).Nodup := by
    refine (nodup.erase _).map_on ?_
    intro ref first ref' second same
    obtain ⟨content,at_⟩ := named ref first
    obtain ⟨content',at_'⟩ := named ref' second
    exact aged.distinct ref ref' content content' at_ at_' same
  have below : (refs.erase .noName).map age ⊆ List.range from_.namesUsedTotal := by
    intro n present
    obtain ⟨ref,member,rfl⟩ := List.mem_map.mp present
    obtain ⟨content,at_⟩ := named ref member
    exact List.mem_range.mpr (aged.bounded ref content at_)
  have fewer := (ages.subperm below).length_le
  rw [List.length_map,List.length_range] at fewer
  have := @List.le_length_erase _ _ _ NameRef.noName refs
  omega

variable (fits : from_.namesUsedTotal + target.namesUsedTotal ≤ nameLimit) (aged : Aged from_ age)
include fits aged

-- A name that has not been asked for yet is entered and remembered.
theorem Remembers.add (remembers : Remembers xxh32 from_ target lazy) (at_ : from_.name ref = some content)
    (new : ref ∉ lazy.nameSubstitution.map Prod.fst) (carried : Carried from_ lazy.toGS content content') :
    ∃ ref' to', lazy.toGS.enterName xxh32 content' = .ok (ref',to') ∧
      Remembers xxh32 from_ target ⟨(ref,ref') :: lazy.nameSubstitution,to'⟩ ∧ SameName from_ ref to' ref' ∧
      Keeps lazy.toGS to' := by
  have nodup : (ref :: lazy.nameSubstitution.map Prod.fst).Nodup := List.nodup_cons.mpr ⟨new,remembers.nodup⟩
  have sources : ∀ key ∈ ref :: lazy.nameSubstitution.map Prod.fst, key = .noName ∨ ∃ content, from_.name key = some content := by
    intro key present
    rcases List.mem_cons.mp present with rfl | present
    · exact .inr ⟨content,at_⟩
    · exact remembers.sources key present
  have bound := aged.length_le nodup sources
  rw [List.length_cons,List.length_map] at bound
  have total := remembers.total
  obtain ⟨ref',to',entered,spacious,keeps,added,same⟩ := remembers.spacious.carry (by omega) carried at_
  refine ⟨ref',to',entered,⟨spacious,remembers.keeps.trans keeps,nodup,sources,?_,?_,?_⟩,same,keeps⟩
  · have apart : NameRef.noName ≠ ref := by
      rintro rfl
      exact name_present at_ rfl
    rw [List.lookup_cons,beq_eq_false_iff_ne.mpr apart]
    exact remembers.empty
  · simp only [List.length_cons]
    omega
  · intro key key' c found there
    by_cases here : key = ref
    · subst here
      rw [List.lookup_cons,beq_self_eq_true] at found
      cases found
      exact same
    · rw [List.lookup_cons,beq_eq_false_iff_ne.mpr here] at found
      exact (remembers.faithful key key' c found there).keep keeps

-- A request leads back through the originals; what it adds is not younger than
-- the name that is asked for.
theorem Remembers.substituteWithin (fuel : Nat) (remembers : Remembers xxh32 from_ target lazy)
    (at_ : from_.name ref = some content) (enough : age ref < fuel) :
    ∃ ref' lazy', substituteWithin xxh32 from_ fuel lazy ref = .ok (ref',lazy') ∧ Remembers xxh32 from_ target lazy' ∧
      SameName from_ ref lazy'.toGS ref' ∧ Keeps lazy.toGS lazy'.toGS ∧
      ∀ key ∈ lazy'.nameSubstitution.map Prod.fst, key ∈ lazy.nameSubstitution.map Prod.fst ∨ age key ≤ age ref := by
  induction fuel generalizing lazy ref content with
  | zero => omega
  | succ fuel ih =>
    cases found : lazy.nameSubstitution.lookup ref with
    | some ref' =>
      refine ⟨ref',lazy,?_,remembers,remembers.faithful ref ref' content found at_,fun _ _ there => there,
        fun key present => .inl present⟩
      simp only [LazyNameSubstitution.substituteWithin,found]
    | none =>
      have new : ref ∉ lazy.nameSubstitution.map Prod.fst := by
        intro present
        obtain ⟨entry,member,rfl⟩ := List.mem_map.mp present
        have := List.lookup_eq_none_iff.mp found entry member
        simp at this
      obtain ⟨content',middle,renamed,remembers',carried,keeps,older⟩ : ∃ content' middle,
          lazy.rename (substituteWithin xxh32 from_ fuel) content = .ok (content',middle) ∧
          Remembers xxh32 from_ target middle ∧ Carried from_ middle.toGS content content' ∧ Keeps lazy.toGS middle.toGS ∧
          ∀ key ∈ middle.nameSubstitution.map Prod.fst, key ∈ lazy.nameSubstitution.map Prod.fst ∨ age key < age ref := by
        cases made : content.original with
        | none =>
          refine ⟨content,lazy,by simp only [rename,made],remembers,?_,fun _ _ there => there,fun key present => .inl present⟩
          cases content with
          | utf8 name => exact .text name
          | _ => cases made
        | some o =>
          obtain ⟨there,earlier⟩ := aged.backward ref content o at_ made
          obtain ⟨c,there⟩ := Option.isSome_iff_exists.mp there
          obtain ⟨o',middle,asked,remembers',same,keeps,older⟩ := ih remembers there (by omega)
          refine ⟨content.renamed o',middle,?_,remembers',.renamed made same,keeps,?_⟩
          · simp only [rename,made,asked,Except.map]
          · intro key present
            exact (older key present).imp_right fun le => Nat.lt_of_le_of_lt le earlier
      have new' : ref ∉ middle.nameSubstitution.map Prod.fst := by
        intro present
        rcases older ref present with before | younger
        · exact new before
        · omega
      obtain ⟨ref',to',entered,remembers'',same,keeps'⟩ := remembers'.add fits aged at_ new' carried
      refine ⟨ref',_,?_,remembers'',same,keeps.trans keeps',?_⟩
      · simp only [LazyNameSubstitution.substituteWithin,found,defineName,at_,expect,Option.elim,bind,Except.bind,renamed,
          entered,ofTable,Except.mapError]
      · intro key present
        rcases List.mem_cons.mp present with rfl | present
        · exact .inr (Nat.le_refl _)
        · exact (older key present).imp_right Nat.le_of_lt

theorem Remembers.substitute (remembers : Remembers xxh32 from_ target lazy)
    (asked : ref = .noName ∨ ∃ content, from_.name ref = some content) :
    ∃ ref' lazy', lazy.substitute xxh32 from_ ref = .ok (ref',lazy') ∧ Remembers xxh32 from_ target lazy' ∧
      (ref = .noName → ref' = .noName) ∧ (∀ content, from_.name ref = some content → SameName from_ ref lazy'.toGS ref') ∧
      Keeps lazy.toGS lazy'.toGS := by
  rcases asked with rfl | ⟨content,at_⟩
  · refine ⟨.noName,lazy,?_,remembers,fun _ => rfl,?_,fun _ _ there => there⟩
    · simp only [LazyNameSubstitution.substitute,LazyNameSubstitution.substituteWithin,remembers.empty]
    · intro content at_
      exact absurd rfl (name_present at_)
  · have enough := aged.bounded ref content at_
    obtain ⟨ref',lazy',done,remembers',same,keeps,_⟩ :=
      remembers.substituteWithin fits aged (from_.namesUsedTotal + 1) at_ (by omega)
    refine ⟨ref',lazy',done,remembers',?_,fun _ _ => same,keeps⟩
    rintro rfl
    exact absurd rfl (name_present at_)

-- What a request gets, seen from a later state of the target.
def Requested (from_ after : GlobalState) (ref ref' : NameRef) : Prop :=
  (ref = .noName → ref' = .noName) ∧ ∀ content, from_.name ref = some content → SameName from_ ref after ref'

theorem Remembers.substituteAll (requests : List NameRef) (remembers : Remembers xxh32 from_ target lazy)
    (asked : ∀ ref ∈ requests, ref = .noName ∨ ∃ content, from_.name ref = some content) :
    ∃ results lazy', lazy.substituteAll xxh32 from_ requests = .ok (results,lazy') ∧ Remembers xxh32 from_ target lazy' ∧
      Keeps lazy.toGS lazy'.toGS ∧ List.Forall₂ (Requested from_ lazy'.toGS) requests results := by
  induction requests generalizing lazy with
  | nil => exact ⟨[],lazy,rfl,remembers,fun _ _ there => there,.nil⟩
  | cons ref requests ih =>
    obtain ⟨ref',middle,first,remembers',empty,same,keeps⟩ := remembers.substitute fits aged (asked ref List.mem_cons_self)
    obtain ⟨results,lazy',rest,remembers'',keeps',others⟩ :=
      ih remembers' fun r present => asked r (List.mem_cons_of_mem _ present)
    refine ⟨ref' :: results,lazy',?_,remembers'',keeps.trans keeps',.cons ⟨empty,?_⟩ others⟩
    · simp only [LazyNameSubstitution.substituteAll,first,bind,Except.bind,rest]
    · exact fun content at_ => (same content at_).keep keeps'

end Lazy

-- Every name of the source has its own entry, the same name in the target.
structure Embeds (from_ to_ : GlobalState) (substitute : NameRef → Option NameRef) : Prop where
  faithful : ∀ ref content, from_.name ref = some content → ∃ ref', substitute ref = some ref' ∧ SameName from_ ref to_ ref'
  injective : ∀ ref ref' content content', from_.name ref = some content → from_.name ref' = some content' →
    substitute ref = substitute ref' → ref = ref'

theorem Covers.embeds (covers : Covers xxh32 from_ target b) (interned : Interned xxh32 from_)
    (complete : ∀ kind, (b.sub.table kind).length = from_.size kind) : Embeds from_ b.to_ b.sub.substitute := by
  have faithful : ∀ ref content, from_.name ref = some content →
      ∃ ref', b.sub.substitute ref = some ref' ∧ SameName from_ ref b.to_ ref' := by
    intro ref content at_
    exact covers.substitute (name_kind at_) ((name_inside at_).2.trans_eq (complete content.kind).symm)
  refine ⟨faithful,?_⟩
  intro ref ref' content content' at_ at_' same
  obtain ⟨r,found,tree,left,right⟩ := faithful ref content at_
  obtain ⟨r',found',tree',left',right'⟩ := faithful ref' content' at_'
  rw [found,found'] at same
  cases same
  rw [←right.tree_eq right'] at left'
  exact left.ref_eq interned left'

-- What the lazy substitution gives, against the entry of the eager one; over a
-- target that holds the names of the eager one it is the entry itself.
def AsEager (b : Building) (other after : GlobalState) (ref ref' : NameRef) : Prop :=
  (ref = .noName → ref' = .noName) ∧
    ∀ entry, b.sub.substitute ref = some entry → SameName b.to_ entry after ref' ∧ (Keeps b.to_ other → ref' = entry)

theorem Requested.asEager {other after : GlobalState} (requested : Requested from_ after ref ref')
    (embeds : Embeds from_ b.to_ b.sub.substitute) (asked : ref = .noName ∨ ∃ content, from_.name ref = some content)
    (interned : Interned xxh32 after) (keeps : Keeps other after) : AsEager b other after ref ref' := by
  refine ⟨requested.1,?_⟩
  intro entry found
  rcases asked with rfl | ⟨content,at_⟩
  · rw [NameSubstitution.substitute,NameRef.kind_noName] at found
    cases found
  · obtain ⟨r,found',tree,left,right⟩ := embeds.faithful ref content at_
    rw [found] at found'
    cases found'
    obtain ⟨tree',left',right'⟩ := requested.2 content at_
    rw [←left.tree_eq left'] at right'
    refine ⟨⟨tree,right,right'⟩,?_⟩
    intro held
    exact right'.ref_eq interned (right.keep (held.trans keeps))

theorem nameSubstitution_embeds (xxh32 : List UInt8 → UInt32) (from_ to_ : GlobalState) (source : Built xxh32 from_)
    (target : Built xxh32 to_) (fits : from_.namesUsedTotal + to_.namesUsedTotal ≤ nameLimit) :
    ∃ b, NameSubstitution.build xxh32 from_ to_ = .ok b ∧ Built xxh32 b.to_ ∧ Embeds from_ b.to_ b.sub.substitute ∧
      ∀ other requests, Built xxh32 other → from_.namesUsedTotal + other.namesUsedTotal ≤ nameLimit →
        (∀ ref ∈ requests, ref = .noName ∨ ∃ content, from_.name ref = some content) →
        ∃ results after, (LazyNameSubstitution.start other).substituteAll xxh32 from_ requests = .ok (results,after) ∧
          List.Forall₂ (AsEager b other after.toGS) requests results := by
  obtain ⟨age,aged⟩ := source.aged (by omega)
  have interned := (source.spacious (by omega)).interned
  obtain ⟨b,built,covers,complete⟩ := Covers.build fits aged target
  have embeds := covers.embeds interned complete
  refine ⟨b,built,covers.built,embeds,?_⟩
  intro other requests ready fits' asked
  have start : Remembers xxh32 from_ other (.start other) := .start (ready.spacious (by omega))
  obtain ⟨results,after,done,remembers,keeps,requested⟩ := start.substituteAll fits' aged requests asked
  refine ⟨results,after,done,?_⟩
  rw [List.forall₂_iff_zip] at requested ⊢
  refine ⟨requested.1,?_⟩
  intro ref ref' pair
  exact (requested.2 pair).asEager embeds (asked ref (List.of_mem_zip pair).1) remembers.spacious.interned keeps

-- A singleton name over a constant.
theorem nameSubstitution_embeds_unique : ∃ from_ b, Built (fun _ => 0) from_ ∧
    NameSubstitution.build (fun _ => 0) from_ .initial = .ok b ∧ Embeds from_ b.to_ b.sub.substitute ∧
    ∃ ref ref', Spells from_ ref (.unique .singleton 1 (.constant (.utf8 [97]))) ∧ b.sub.substitute ref = some ref' ∧
      Spells b.to_ ref' (.unique .singleton 1 (.constant (.utf8 [97]))) := by
  have few : GlobalState.initial.namesUsedTotal = 0 := rfl
  obtain ⟨text,gs1,entered1,spacious1,logged1,total1⟩ :=
    (initial_spacious fun _ => 0).enterName (by rw [few]; exact Nat.zero_le _) (.utf8 ⟨[97]⟩)
  have at1 : gs1.name text = some (.utf8 ⟨[97]⟩) := (logged1 _ _).mpr (.inr (List.mem_singleton_self _))
  rw [few] at total1
  obtain ⟨constant,gs2,entered2,spacious2,logged2,total2⟩ :=
    spacious1.enterName (Nat.le_trans total1 (by decide)) (.constant ⟨text⟩)
  have at2 : gs2.name constant = some (.constant ⟨text⟩) := (logged2 _ _).mpr (.inr (List.mem_singleton_self _))
  obtain ⟨unique,gs3,entered3,spacious3,logged3,total3⟩ :=
    spacious2.enterName (Nat.le_trans total2 (Nat.le_trans (Nat.succ_le_succ total1) (by decide)))
      (.unique ⟨constant,1,.singleton⟩)
  have at3 : gs3.name unique = some (.unique ⟨constant,1,.singleton⟩) := (logged3 _ _).mpr (.inr (List.mem_singleton_self _))
  have built : Built (fun _ => 0) gs3 := by
    refine .entered (.entered (.entered .initial ?_ entered1) ?_ entered2) ?_ entered3
    · intro o made
      cases made
    · intro o made
      cases made
      rw [at1]
      rfl
    · intro o made
      cases made
      rw [at2]
      rfl
  have spelled : Spells gs3 unique (.unique .singleton 1 (.constant (.utf8 [97]))) :=
    .unique at3 (.constant (logged3.keeps _ _ at2) (.utf8 (logged3.keeps _ _ (logged2.keeps _ _ at1))))
  obtain ⟨b,done,_,embeds,_⟩ := nameSubstitution_embeds (fun _ => 0) gs3 .initial built .initial
    (by rw [few]; exact Nat.le_trans (by omega : _ ≤ 3) (by decide))
  obtain ⟨ref',found,tree,left,right⟩ := embeds.faithful unique _ at3
  rw [←spelled.tree_eq left] at right
  exact ⟨gs3,b,built,done,embeds,unique,ref',spelled,found,right⟩

end Names
