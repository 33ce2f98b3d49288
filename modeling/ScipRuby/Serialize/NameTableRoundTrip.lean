import ScipRuby.Serialize.NameTable

namespace Serialize
open Names GlobalState NameHash
variable {xxh32 : List UInt8 → UInt32} {gs target : GlobalState} {content : Name} {kind : NameKind}

section Entries

theorem uniqueNameKind_byte (kind : UniqueNameKind) : uniqueNameKindOfByte (uniqueNameKindByte kind) = some kind := by
  cases kind <;> rfl

theorem decodes_uniqueName (name : UniqueName) : Decodes unpickleUniqueName (pickleUniqueName name) name := by
  apply Decodes.u4_bind
  apply Decodes.u4_bind
  apply Decodes.u1_bind
  apply Decodes.option_bind (uniqueNameKind_byte name.uniqueNameKind)
  exact decodes_pure _

theorem decodes_name (content : Name) : Decodes (unpickleName content.kind) (pickleName content) content := by
  cases content with
  | utf8 name => exact ((decodes_str name.utf8).map UTF8Name.mk).map Name.utf8
  | constant name => exact ((decodes_u4 name.original.rawId).map fun raw => ⟨⟨raw⟩⟩).map Name.constant
  | unique name => exact (decodes_uniqueName name).map Name.unique

-- Appending at the end of the table is what entering a new name does.
theorem decodes_appendName {i : Nat} (found : lookupBucket gs.namesByHash (hashMix xxh32 content) isEmpty = .ok i) :
    Decodes (appendName gs content.kind (gs.size content.kind)) (pickleEntry xxh32 content)
      (gs.store i (hashMix xxh32 content) content).2 := by
  have bucket : (lookupBucket gs.namesByHash (hashMix xxh32 content) isEmpty).toOption = some i := by rw [found]; rfl
  apply Decodes.u4_bind
  rw [←List.append_nil (pickleName content)]
  apply (decodes_name content).bind
  apply Decodes.option_bind bucket
  exact decodes_pure _

end Entries

section Loading

-- A state on its way to the tables of target, with buckets enough for all of them.
structure Loading (xxh32 : List UInt8 → UInt32) (target gs : GlobalState) : Prop where
  sound : Sound xxh32 gs
  grows : Grows gs target
  room : target.namesUsedTotal + 1 < gs.namesByHash.length

-- The same state with the tables of some kinds completed.
structure Completes (target gs gs' : GlobalState) (kind : NameKind) : Prop where
  contents : ∀ k, gs'.contents k = if k = kind then target.contents k else gs.contents k
  buckets : gs'.namesByHash.length = gs.namesByHash.length

theorem Grows.total_le (grows : Grows gs target) : gs.namesUsedTotal ≤ target.namesUsedTotal := by
  have utf8 := grows.size_le .utf8
  have constant := grows.size_le .constant
  have unique := grows.size_le .unique
  rw [total_eq,total_eq]
  omega

theorem prefix_next {l m : List Name} {a : Name} (before : l <+: m) (next : m[l.length]? = some a) : l ++ [a] <+: m := by
  obtain ⟨rest,rfl⟩ := before
  rw [List.getElem?_append_right (Nat.le_refl _),Nat.sub_self] at next
  cases rest with
  | nil => cases next
  | cons b rest =>
    rw [List.getElem?_cons_zero,Option.some.injEq] at next
    subst next
    exact ⟨rest,by simp⟩

variable (ordered : Interned xxh32 target) (addressable : Addressable target)
include ordered addressable

-- The next name of the target is not among the names that are there already:
-- the target would have it twice.
theorem Loading.absent (loading : Loading xxh32 target gs) (next : (target.contents kind)[gs.size kind]? = some content) :
    gs.Absent content := by
  intro ref at_
  have small : gs.size kind < 2 ^ 30 := by
    obtain ⟨inside,_⟩ := List.getElem?_eq_some_iff.mp next
    rw [contents_length] at inside
    exact Nat.lt_of_lt_of_le inside (addressable kind)
  have same := contents_kind (List.mem_of_getElem? next)
  have here : target.name (NameRef.make kind (gs.size kind)) = some content := by
    rw [name_make small,next]
  have there : target.name ref = some content := by
    have index := name_index at_
    obtain ⟨rest,whole⟩ := loading.grows content.kind
    rw [name_of_kind (name_kind at_),←whole,List.getElem?_append_left (List.getElem?_eq_some_iff.mp index).1]
    exact index
  have fresh : gs.name (NameRef.make kind (gs.size kind)) = none := by
    rw [name_make small]
    exact List.getElem?_eq_none (by rw [contents_length])
  rw [ordered.distinct _ _ _ there here,fresh] at at_
  cases at_

theorem Loading.append (loading : Loading xxh32 target gs) (next : (target.contents kind)[gs.size kind]? = some content) :
    ∃ gs', Decodes (appendName gs kind (gs.size kind)) (pickleEntry xxh32 content) gs' ∧ Loading xxh32 target gs' ∧
      gs'.namesByHash.length = gs.namesByHash.length ∧
      ∀ k, gs'.contents k = gs.contents k ++ (if k = kind then [content] else []) := by
  have absent := loading.absent ordered addressable next
  have same := contents_kind (List.mem_of_getElem? next)
  subst same
  have small : gs.size content.kind < 2 ^ 30 := by
    obtain ⟨inside,_⟩ := List.getElem?_eq_some_iff.mp next
    rw [contents_length] at inside
    exact Nat.lt_of_lt_of_le inside (addressable content.kind)
  have total := Grows.total_le loading.grows
  have room := loading.room
  obtain ⟨i,found⟩ := loading.sound.interned.lookupBucket_ok (by omega) (hashMix xxh32 content) isEmpty
  obtain ⟨k,power⟩ := loading.sound.interned.power
  have contents := contents_store gs i (hashMix xxh32 content) content
  have length : (gs.store i (hashMix xxh32 content) content).2.namesByHash.length = gs.namesByHash.length := List.length_set
  refine ⟨_,decodes_appendName found,⟨loading.sound.store small absent (lookupBucket_free power found),?_,?_⟩,length,contents⟩
  · intro k
    rw [contents]
    split
    · rename_i here
      subst here
      exact prefix_next (loading.grows _) (by rw [contents_length,next])
    · rw [List.append_nil]
      exact loading.grows k
  · rw [length]
    exact room

theorem Loading.appendMany (loading : Loading xxh32 target gs) (kind : NameKind) (count : Nat) (all : gs.size kind + count = target.size kind) :
    ∃ gs', Decodes (appendNames kind gs (gs.size kind) count)
        (((target.contents kind).drop (gs.size kind)).flatMap (pickleEntry xxh32)) gs' ∧
      Loading xxh32 target gs' ∧ Completes target gs gs' kind := by
  induction count generalizing gs with
  | zero =>
    have whole : gs.contents kind = target.contents kind :=
      (loading.grows kind).eq_of_length (by rw [contents_length,contents_length]; omega)
    refine ⟨gs,?_,loading,?_,rfl⟩
    · rw [List.drop_eq_nil_of_le (by rw [contents_length]; omega)]
      exact decodes_pure gs
    · intro k
      split
      · rename_i here
        rw [here,whole]
      · rfl
  | succ count ih =>
    have inside : gs.size kind < (target.contents kind).length := by
      rw [contents_length]
      omega
    obtain ⟨middle,first,loading',length,contents⟩ := loading.append ordered addressable (List.getElem?_eq_getElem inside)
    have grown : middle.size kind = gs.size kind + 1 := by
      rw [←contents_length,contents,if_pos rfl,List.length_append,contents_length]
      rfl
    obtain ⟨gs',rest,loading'',completes⟩ := ih loading' (by omega)
    rw [grown] at rest
    refine ⟨gs',?_,loading'',?_,completes.buckets.trans length⟩
    · rw [List.drop_eq_getElem_cons inside]
      exact first.bind rest
    · intro k
      rw [completes.contents]
      split
      · rfl
      · rename_i other
        rw [contents,if_neg other,List.append_nil]

end Loading

section Tables

theorem toNat_ofNat {n : Nat} (small : n < 2 ^ 32) : (UInt32.ofNat n).toNat = n := by
  rw [UInt32.toNat_ofNat',Nat.mod_eq_of_lt small]

theorem Completes.size {gs' : GlobalState} (completes : Completes target gs gs' kind) {k : NameKind} (other : k ≠ kind) :
    gs'.size k = gs.size k := by
  rw [←contents_length,completes.contents,if_neg other,contents_length]

variable (ordered : Interned xxh32 target) (addressable : Addressable target)

section Diffs
include ordered addressable

theorem Loading.tableDiff (loading : Loading xxh32 target gs) (written : Written) (kind : NameKind) (at_ : written kind = gs.size kind) :
    ∃ gs', Decodes (unpickleTableDiff gs kind) (pickleTableDiff xxh32 target written kind) gs' ∧
      Loading xxh32 target gs' ∧ Completes target gs gs' kind := by
  have le := loading.grows.size_le kind
  have bound := addressable kind
  obtain ⟨gs',decodes,loading',completes⟩ := loading.appendMany ordered addressable kind (target.size kind - gs.size kind) (by omega)
  refine ⟨gs',?_,loading',completes⟩
  have start : (UInt32.ofNat (gs.size kind)).toNat = gs.size kind := toNat_ofNat (by omega)
  have sum : (UInt32.ofNat (gs.size kind) + UInt32.ofNat (target.size kind - gs.size kind)).toNat = target.size kind := by
    rw [UInt32.toNat_add,start,toNat_ofNat (by omega)]
    omega
  rw [pickleTableDiff,at_]
  apply Decodes.u4_bind
  apply Decodes.u4_bind
  rw [start,sum]
  exact decodes

theorem Loading.diff (loading : Loading xxh32 target gs) :
    ∃ gs', Decodes (unpickleNameTableDiff gs) (pickleNameTableDiff xxh32 target gs.size) gs' ∧ Loading xxh32 target gs' ∧
      gs'.contents = target.contents ∧ gs'.namesByHash.length = gs.namesByHash.length := by
  obtain ⟨first,decodes₁,loading₁,completes₁⟩ := loading.tableDiff ordered addressable gs.size .utf8 rfl
  obtain ⟨second,decodes₂,loading₂,completes₂⟩ := loading₁.tableDiff ordered addressable gs.size .constant
    (completes₁.size (by decide)).symm
  obtain ⟨third,decodes₃,loading₃,completes₃⟩ := loading₂.tableDiff ordered addressable gs.size .unique
    ((completes₂.size (by decide)).trans (completes₁.size (by decide))).symm
  refine ⟨third,?_,loading₃,?_,completes₃.buckets.trans (completes₂.buckets.trans completes₁.buckets)⟩
  · apply decodes₁.bind
    apply decodes₂.bind
    exact decodes₃
  · funext k
    cases k
    · rw [completes₃.contents,if_neg (by decide),completes₂.contents,if_neg (by decide),completes₁.contents,if_pos rfl]
    · rw [completes₃.contents,if_pos rfl]
    · rw [completes₃.contents,if_neg (by decide),completes₂.contents,if_pos rfl]

end Diffs

section Emptied

theorem clear_contents (gs : GlobalState) (size : Nat) (kind : NameKind) : (clearNames gs size).contents kind = [] := by
  cases kind <;> rfl

theorem reserve_names (gs : GlobalState) (n : Nat) (kind : NameKind) : (reserveNames gs n kind).contents = gs.contents := by
  funext k
  cases kind <;> cases k <;> rfl

theorem reserve_buckets (gs : GlobalState) (n : Nat) (kind : NameKind) : (reserveNames gs n kind).namesByHash = gs.namesByHash := by
  cases kind <;> rfl

theorem Loading.reserve (loading : Loading xxh32 target gs) (n : Nat) (kind : NameKind) : Loading xxh32 target (reserveNames gs n kind) where
  sound := by
    have buckets := reserve_buckets gs n kind
    have interned := loading.sound.interned
    refine ⟨interned.rebuild (reserve_names gs n kind) (buckets ▸ interned.power) (buckets ▸ interned.chained) ?_ ?_,
      buckets ▸ loading.sound.narrow⟩
    · intro b _
      rw [buckets]
    · rw [buckets]
  grows := (grows_of_contents (reserve_names gs n kind).symm).trans loading.grows
  room := reserve_buckets gs n kind ▸ loading.room

-- An empty state with as many buckets as the target.
theorem loading_clear (sound : Sound xxh32 target) (room : target.namesUsedTotal + 1 < target.namesByHash.length) (gs : GlobalState) :
    Loading xxh32 target (clearNames gs target.namesByHash.length) := by
  have length : (clearNames gs target.namesByHash.length).namesByHash.length = target.namesByHash.length := List.length_replicate
  have none : ∀ ref, (clearNames gs target.namesByHash.length).name ref = none := by
    intro ref
    cases known : ref.kind with
    | none => simp only [name,known]
    | some kind =>
      rw [name_of_kind known,clear_contents]
      rfl
  obtain ⟨k,power⟩ := sound.interned.power
  have buckets : (clearNames gs target.namesByHash.length).namesByHash = List.replicate (2 ^ k) ⟨0,0⟩ := by
    rw [←power]
    rfl
  refine ⟨⟨interned_empty xxh32 none rfl buckets,length.trans_lt sound.narrow⟩,?_,room.trans_eq length.symm⟩
  intro kind
  rw [clear_contents]
  exact List.nil_prefix

include ordered addressable

theorem Loading.table (loading : Loading xxh32 target gs) (kind : NameKind) (nothing : gs.size kind = 0) :
    ∃ gs', Decodes (unpickleTable gs kind) (pickleTable xxh32 target kind) gs' ∧ Loading xxh32 target gs' ∧
      Completes target gs gs' kind := by
  have bound := addressable kind
  have written : (UInt32.ofNat (target.size kind)).toNat = target.size kind := toNat_ofNat (by omega)
  have reserved := reserve_names gs (nextPowerOfTwo (UInt32.ofNat (target.size kind))).toNat kind
  have size : (reserveNames gs (nextPowerOfTwo (UInt32.ofNat (target.size kind))).toNat kind).size kind = 0 := by
    rw [size_of_contents reserved,nothing]
  have loading' := loading.reserve (nextPowerOfTwo (UInt32.ofNat (target.size kind))).toNat kind
  obtain ⟨gs',decodes,loading'',completes⟩ := loading'.appendMany ordered addressable kind (target.size kind) (by omega)
  refine ⟨gs',?_,loading'',?_,?_⟩
  · apply Decodes.u4_bind
    rw [written,if_pos (by omega)]
    rw [size,List.drop_zero] at decodes
    exact decodes
  · intro k
    rw [completes.contents,reserved]
  · rw [completes.buckets,reserve_buckets]

end Emptied

end Tables

section Full

-- Entry by entry the same tables, and the same answers.
structure SameNames (xxh32 : List UInt8 → UInt32) (gs loaded : GlobalState) : Prop where
  utf8Names : loaded.utf8Names.entries = gs.utf8Names.entries
  constantNames : loaded.constantNames.entries = gs.constantNames.entries
  uniqueNames : loaded.uniqueNames.entries = gs.uniqueNames.entries
  lookupNameUTF8 : ∀ nm, loaded.lookupNameUTF8 xxh32 nm = gs.lookupNameUTF8 xxh32 nm
  lookupNameConstant : ∀ original, loaded.lookupNameConstant xxh32 original = gs.lookupNameConstant xxh32 original
  lookupNameUnique : ∀ uniqueNameKind original num,
    loaded.lookupNameUnique xxh32 uniqueNameKind original num = gs.lookupNameUnique xxh32 uniqueNameKind original num

theorem Loading.same (loading : Loading xxh32 target gs) (ordered : Interned xxh32 target)
    (room : target.namesUsedTotal + 1 < target.namesByHash.length) (contents : gs.contents = target.contents) :
    SameNames xxh32 target gs := by
  have total : gs.namesUsedTotal = target.namesUsedTotal := by
    rw [total_eq,total_eq,size_of_contents contents]
  have agrees := ordered.lookupName_agrees loading.sound.interned contents room (by rw [total]; exact loading.room)
  have utf8 : gs.utf8Names.entries.map Name.utf8 = target.utf8Names.entries.map Name.utf8 := congrFun contents .utf8
  have constant : gs.constantNames.entries.map Name.constant = target.constantNames.entries.map Name.constant :=
    congrFun contents .constant
  have unique : gs.uniqueNames.entries.map Name.unique = target.uniqueNames.entries.map Name.unique := congrFun contents .unique
  exact ⟨List.map_injective_iff.mpr (fun _ _ => Name.utf8.inj) utf8,
    List.map_injective_iff.mpr (fun _ _ => Name.constant.inj) constant,
    List.map_injective_iff.mpr (fun _ _ => Name.unique.inj) unique,
    fun _ => agrees _,fun _ => agrees _,fun _ _ _ => agrees _⟩

theorem decodes_nameTable (sound : Sound xxh32 target) (addressable : Addressable target)
    (room : target.namesUsedTotal + 1 < target.namesByHash.length) (gs : GlobalState) :
    ∃ loaded, Decodes (unpickleNameTable gs) (pickleNameTable xxh32 target) loaded ∧ SameNames xxh32 target loaded := by
  have none : ∀ kind, (clearNames gs target.namesByHash.length).size kind = 0 := by
    intro kind
    rw [←contents_length,clear_contents]
    rfl
  obtain ⟨first,decodes₁,loading₁,completes₁⟩ := (loading_clear sound room gs).table sound.interned addressable .utf8 (none _)
  obtain ⟨second,decodes₂,loading₂,completes₂⟩ := loading₁.table sound.interned addressable .constant
    ((completes₁.size (by decide)).trans (none _))
  obtain ⟨third,decodes₃,loading₃,completes₃⟩ := loading₂.table sound.interned addressable .unique
    ((completes₂.size (by decide)).trans ((completes₁.size (by decide)).trans (none _)))
  refine ⟨third,?_,loading₃.same sound.interned room ?_⟩
  · apply Decodes.u4_bind
    rw [toNat_ofNat sound.narrow]
    apply decodes₁.bind
    apply decodes₂.bind
    exact decodes₃
  · funext k
    cases k
    · rw [completes₃.contents,if_neg (by decide),completes₂.contents,if_neg (by decide),completes₁.contents,if_pos rfl]
    · rw [completes₃.contents,if_pos rfl]
    · rw [completes₃.contents,if_neg (by decide),completes₂.contents,if_pos rfl]

end Full

section Chain
variable {lz4 : Lz4} {bytes : List UInt8} {diffs : List (List UInt8)} {states : List GlobalState}
  (documented : lz4.Documented) (bounded : lz4.Bounded)

theorem decodes_appendDiff (ordered : Interned xxh32 target) (addressable : Addressable target) (loading : Loading xxh32 target gs) :
    ∃ gs', Decodes (loadAndAppendNameTableDiff gs) (storeNameTableDiff xxh32 target gs.size) gs' ∧ Loading xxh32 target gs' ∧
      gs'.contents = target.contents ∧ gs'.namesByHash.length = gs.namesByHash.length := by
  obtain ⟨gs',decodes,rest⟩ := loading.diff ordered addressable
  refine ⟨gs',?_,rest⟩
  apply Decodes.u4_bind
  rw [if_pos rfl]
  exact decodes

theorem storeDiffs_cons {written : Written} (stored : storeDiffs lz4 xxh32 written (gs :: states) = some diffs) :
    ∃ diff rest, store lz4 (storeNameTableDiff xxh32 gs written) = some diff ∧
      storeDiffs lz4 xxh32 (markNameTableAsCached gs) states = some rest ∧ diffs = diff :: rest := by
  simp only [storeDiffs,Option.bind_eq_bind,Option.bind_eq_some_iff,Option.some.injEq] at stored
  obtain ⟨diff,first,rest,second,rfl⟩ := stored
  exact ⟨diff,rest,first,second,rfl⟩

theorem storeDiffs_length {written : Written} (stored : storeDiffs lz4 xxh32 written states = some diffs) :
    diffs.length = states.length := by
  induction states generalizing written diffs with
  | nil =>
    cases stored
    rfl
  | cons gs states ih =>
    obtain ⟨diff,rest,_,later,rfl⟩ := storeDiffs_cons stored
    rw [List.length_cons,List.length_cons,ih later]

-- A state of the chain: in order, within the range of references, and small
-- enough for the hash table it will be loaded into.
structure Storable (xxh32 : List UInt8 → UInt32) (buckets : Nat) (gs : GlobalState) : Prop where
  ordered : Interned xxh32 gs
  addressable : Addressable gs
  room : gs.namesUsedTotal + 1 < buckets

include documented bounded

-- By induction on the states that are still to come; the state read so far has
-- the tables of the one before them.
theorem loadDiffs_chain {countAndHashSize : List UInt8} {all : List (List UInt8)} {i : Nat} (sound : Sound xxh32 gs)
    (storable : ∀ state ∈ states, Storable xxh32 gs.namesByHash.length state) (chain : (gs :: states).IsChain Grows)
    (stored : storeDiffs lz4 xxh32 gs.size states = some diffs) (from_ : all.drop i = diffs) :
    ∃ loaded, loadDiffs lz4 ⟨all,countAndHashSize⟩ gs (List.range' i diffs.length) = some loaded ∧
      Sound xxh32 loaded ∧ loaded.contents = (states.getLastD gs).contents ∧ loaded.namesByHash.length = gs.namesByHash.length := by
  induction states generalizing gs diffs i with
  | nil =>
    cases stored
    exact ⟨gs,rfl,sound,rfl,rfl⟩
  | cons state states ih =>
    obtain ⟨grows,later⟩ := List.isChain_cons_cons.mp chain
    have here := storable state List.mem_cons_self
    obtain ⟨diff,rest,written,stored',rfl⟩ := storeDiffs_cons stored
    obtain ⟨middle,decodes,loading,contents,length⟩ :=
      decodes_appendDiff here.ordered here.addressable ⟨sound,grows,here.room⟩
    have chain' : (middle :: states).IsChain Grows := by
      cases states with
      | nil => exact .singleton _
      | cons next states =>
        obtain ⟨onward,further⟩ := List.isChain_cons_cons.mp later
        exact List.isChain_cons_cons.mpr ⟨(grows_of_contents contents.symm).trans onward,further⟩
    have sizes : markNameTableAsCached state = middle.size := (size_of_contents contents).symm
    rw [sizes] at stored'
    have found : all[i]? = some diff := by
      have first : (all.drop i)[0]? = all[i + 0]? := List.getElem?_drop
      rw [from_] at first
      exact first.symm
    have after : all.drop (i + 1) = rest := by
      rw [←List.drop_drop,from_]
      rfl
    obtain ⟨loaded,read,sound',contents',length'⟩ := ih loading.sound
      (fun next member => length ▸ storable next (List.mem_cons_of_mem _ member)) chain' stored' after
    refine ⟨loaded,?_,sound',?_,length'.trans length⟩
    · rw [List.length_cons,List.range'_succ]
      simp only [loadDiffs,found,decodes.load documented bounded written,Option.bind_eq_bind,Option.bind_some]
      exact read
    · rw [contents',List.getLastD_cons]
      cases states with
      | nil => exact contents
      | cons next states => rfl

end Chain

section Extensions

-- Later calls that enter at least one new name; without one nothing is stored.
def Extension (xxh32 : List UInt8 → UInt32) (gs gs' : GlobalState) : Prop :=
  (∃ calls log, run xxh32 gs calls = .ok (log,gs')) ∧ wasNameTableModified gs' (markNameTableAsCached gs)

theorem Extension.grows {gs' : GlobalState} (extension : Extension xxh32 gs gs') : Grows gs gs' := by
  obtain ⟨⟨calls,log,ran⟩,_⟩ := extension
  exact run_grows ran

theorem Extension.total_lt {gs' : GlobalState} (extension : Extension xxh32 gs gs') : gs.namesUsedTotal < gs'.namesUsedTotal := by
  have utf8 := extension.grows.size_le .utf8
  have constant := extension.grows.size_le .constant
  have unique := extension.grows.size_le .unique
  have modified := extension.2
  rw [total_eq,total_eq]
  simp only [wasNameTableModified,markNameTableAsCached] at modified
  omega

variable {base : GlobalState} {extensions : List GlobalState}

theorem chain_grows_last (chain : (base :: extensions).IsChain (Extension xxh32)) :
    ∀ state ∈ base :: extensions, Grows state (extensions.getLastD base) := by
  induction extensions generalizing base with
  | nil =>
    intro state member
    rw [List.mem_singleton.mp member]
    exact Grows.refl _
  | cons next extensions ih =>
    obtain ⟨first,rest⟩ := List.isChain_cons_cons.mp chain
    intro state member
    rw [List.getLastD_cons]
    rcases List.mem_cons.mp member with rfl | later
    · exact first.grows.trans (ih rest next List.mem_cons_self)
    · exact ih rest state later

theorem chain_length (chain : (base :: extensions).IsChain (Extension xxh32)) :
    base.namesUsedTotal + extensions.length ≤ (extensions.getLastD base).namesUsedTotal := by
  induction extensions generalizing base with
  | nil => exact Nat.le_refl _
  | cons next extensions ih =>
    obtain ⟨first,rest⟩ := List.isChain_cons_cons.mp chain
    have more := first.total_lt
    have later := ih rest
    rw [List.getLastD_cons,List.length_cons]
    omega

theorem chain_sound (sound : Sound xxh32 base) (chain : (base :: extensions).IsChain (Extension xxh32))
    (addressable : Addressable (extensions.getLastD base)) : ∀ state ∈ base :: extensions, Sound xxh32 state := by
  induction extensions generalizing base with
  | nil =>
    intro state member
    rw [List.mem_singleton.mp member]
    exact sound
  | cons next extensions ih =>
    obtain ⟨first,rest⟩ := List.isChain_cons_cons.mp chain
    rw [List.getLastD_cons] at addressable
    have within := (chain_grows_last rest next List.mem_cons_self).addressable addressable
    obtain ⟨⟨calls,log,ran⟩,_⟩ := first
    intro state member
    rcases List.mem_cons.mp member with rfl | later
    · exact sound
    · exact ih (sound.ran ran within) rest addressable state later

theorem chain_storable {last : GlobalState} (sound : Sound xxh32 base) (chain : (base :: extensions).IsChain (Extension xxh32))
    (end_ : extensions.getLastD base = last) (addressable : Addressable last)
    (room : last.namesUsedTotal + 1 < last.namesByHash.length) :
    ∀ state ∈ base :: extensions, Storable xxh32 last.namesByHash.length state := by
  subst end_
  intro state member
  have grows := chain_grows_last chain state member
  have total := Grows.total_le grows
  exact ⟨(chain_sound sound chain addressable state member).interned,grows.addressable addressable,by omega⟩

theorem decodes_countAndHashSize {count : Nat} (small : count < 2 ^ 32) (sound : Sound xxh32 target) (gs : GlobalState)
    (room : target.namesUsedTotal + 1 < target.namesByHash.length) :
    ∃ emptied, Decodes (loadNameTableDiffCountAndResizeNamesHash gs) (storeNameTableDiffCountAndHashSize count target) (count,emptied) ∧
      Loading xxh32 target emptied ∧ emptied.size = nothingWritten ∧ emptied.namesByHash.length = target.namesByHash.length := by
  have cleared := ((((loading_clear sound room gs).reserve (nextPowerOfTwo (UInt32.ofNat (target.size .utf8))).toNat .utf8).reserve
    (nextPowerOfTwo (UInt32.ofNat (target.size .constant))).toNat .constant).reserve
    (nextPowerOfTwo (UInt32.ofNat (target.size .unique))).toNat .unique)
  refine ⟨_,?_,cleared,?_,?_⟩
  · apply Decodes.u4_bind
    rw [if_pos rfl]
    apply Decodes.u4_bind
    apply Decodes.u4_bind
    apply Decodes.u4_bind
    apply Decodes.u4_bind
    apply Decodes.u4_bind
    rw [toNat_ofNat small,toNat_ofNat sound.narrow]
    exact decodes_pure _
  · rw [size_of_contents (reserve_names _ _ _),size_of_contents (reserve_names _ _ _),size_of_contents (reserve_names _ _ _)]
    funext kind
    rw [←contents_length,clear_contents]
    rfl
  · rw [reserve_buckets,reserve_buckets,reserve_buckets]
    exact List.length_replicate

end Extensions

-- The table of the last state, stored whole, and the chain of diffs that led to
-- it: both come back as the tables of the last state.
theorem nameTable_chain_roundtrip (xxh32 : List UInt8 → UInt32) (lz4 : Lz4) (documented : lz4.Documented) (bounded : lz4.Bounded)
    (base : GlobalState) (reached : ∃ calls log, run xxh32 .initial calls = .ok (log,base))
    (extensions : List GlobalState) (chain : (base :: extensions).IsChain (Extension xxh32))
    (addressable : Addressable (extensions.getLastD base))
    (room : (extensions.getLastD base).namesUsedTotal + 1 < (extensions.getLastD base).namesByHash.length) (gs : GlobalState) :
    (∀ bytes, store lz4 (pickleNameTable xxh32 (extensions.getLastD base)) = some bytes →
      ∃ loaded, load lz4 (unpickleNameTable gs) bytes = some loaded ∧ SameNames xxh32 (extensions.getLastD base) loaded) ∧
    ∀ stored, storeChain lz4 xxh32 base extensions = some stored →
      ∃ loaded, loadChain lz4 gs stored = some loaded ∧ SameNames xxh32 (extensions.getLastD base) loaded := by
  obtain ⟨calls,log,ran⟩ := reached
  have start : Sound xxh32 base :=
    (initial_sound xxh32).ran ran ((chain_grows_last chain base List.mem_cons_self).addressable addressable)
  have storable := chain_storable start chain rfl addressable room
  have last : Sound xxh32 (extensions.getLastD base) := by
    apply chain_sound start chain addressable
    rw [List.getLastD_eq_getLast?]
    cases found : extensions.getLast? with
    | none => exact List.mem_cons_self
    | some state => exact List.mem_cons_of_mem _ (List.mem_of_getLast? found)
  have count := chain_length chain
  have utf8 := addressable .utf8
  have constant := addressable .constant
  have unique := addressable .unique
  have total := total_eq (extensions.getLastD base)
  constructor
  · intro bytes stored
    obtain ⟨loaded,decodes,same⟩ := decodes_nameTable last addressable room gs
    exact ⟨loaded,decodes.load documented bounded stored,same⟩
  · intro stored written
    simp only [storeChain,Option.bind_eq_bind,Option.bind_eq_some_iff,Option.some.injEq] at written
    obtain ⟨diffs,diffsStored,countAndHashSize,countStored,rfl⟩ := written
    have length := storeDiffs_length diffsStored
    rw [List.length_cons] at length
    obtain ⟨emptied,decodes,loading,nothing,buckets⟩ := decodes_countAndHashSize (by omega : diffs.length < 2 ^ 32) last gs room
    have grows : Grows emptied base := by
      intro kind
      have none : emptied.contents kind = [] := by
        rw [←List.length_eq_zero_iff,contents_length,nothing]
        rfl
      rw [none]
      exact List.nil_prefix
    have onward : (emptied :: base :: extensions).IsChain Grows :=
      List.isChain_cons_cons.mpr ⟨grows,chain.imp fun _ _ extension => extension.grows⟩
    rw [←nothing] at diffsStored
    obtain ⟨loaded,read,sound,contents,same⟩ := loadDiffs_chain documented bounded loading.sound
      (fun state member => buckets ▸ storable state member) onward diffsStored (List.drop_zero (l := diffs))
    rw [List.getLastD_cons] at contents
    refine ⟨loaded,?_,Loading.same ⟨sound,grows_of_contents contents.symm,?_⟩ last.interned room contents⟩
    · simp only [loadChain,decodes.load documented bounded countStored,Option.bind_eq_bind,Option.bind_some,List.range_eq_range']
      exact read
    · rw [same,buckets]
      exact room

section Sample

-- XXH32 of the one-letter string that the sample enters.
def sampleHash : List UInt8 → UInt32 := fun _ => 0x550D7456

theorem enter_fresh {gs : GlobalState} (interned : Interned xxh32 gs) (sized : Sized gs) (absent : gs.Absent content)
    (space : gs.size content.kind < gs.capacity content.kind) :
    ∃ i, run xxh32 gs [content.enter] = .ok ([(content,(gs.store i (hashMix xxh32 content) content).1)],(gs.store i (hashMix xxh32 content) content).2) ∧
      Free gs.namesByHash (hashMix xxh32 content) i := by
  obtain ⟨i,entered,free⟩ := interned.enterName_absent sized.room absent
  have done : gs.enterName xxh32 content = .ok (gs.store i (hashMix xxh32 content) content) := by
    rw [entered,insertName,if_neg (Nat.ne_of_lt space)]
  have stepped : step xxh32 gs content.enter =
      .ok ([(content,(gs.store i (hashMix xxh32 content) content).1)],(gs.store i (hashMix xxh32 content) content).2) := by
    rw [step_enter (content_enter content),done]
    rfl
  exact ⟨i,run_cons stepped rfl,free⟩

def sampleString : Name := .utf8 ⟨[97]⟩
def sampleConstant : Name := .constant ⟨NameRef.make .utf8 0⟩

theorem sample_stores {base next : GlobalState} (first : ∀ kind, base.contents kind = if kind = .utf8 then [sampleString] else [])
    (second : ∀ kind, next.contents kind = base.contents kind ++ (if kind = .constant then [sampleConstant] else []))
    (buckets : next.namesByHash.length = 65536) : ∃ stored, storeChain blockLz4 sampleHash base [next] = some stored := by
  have size : ∀ kind, base.size kind = if kind = .utf8 then 1 else 0 := by
    intro kind
    rw [←contents_length,first]
    cases kind <;> rfl
  have size' : ∀ kind, next.size kind = if kind = .unique then 0 else 1 := by
    intro kind
    rw [←contents_length,second,first]
    cases kind <;> rfl
  obtain ⟨diff,stored⟩ : ∃ bytes, store blockLz4 (storeNameTableDiff sampleHash base nothingWritten) = some bytes := by
    apply blockLz4_stores
    simp +decide [storeNameTableDiff,pickleNameTableDiff,pickleTableDiff,nothingWritten,first,size,pickleEntry,pickleName,
      pickleUTF8Name,sampleString,hashMix,sampleHash,Pickler.putAll,Pickler.put,Pickler.putU4,Pickler.putStr,Pickler.putU1,Pickler.flush,
      Pickler.emplace,Pickler.openRun,Varint.encode]
  obtain ⟨diff',stored'⟩ : ∃ bytes, store blockLz4 (storeNameTableDiff sampleHash next base.size) = some bytes := by
    apply blockLz4_stores
    simp +decide [storeNameTableDiff,pickleNameTableDiff,pickleTableDiff,first,second,size,size',pickleEntry,pickleName,
      pickleConstantName,sampleString,sampleConstant,hashMix,Pickler.putAll,Pickler.put,Pickler.putU4,Pickler.flush,Pickler.openRun,
      Varint.encode]
  obtain ⟨count,storedCount⟩ : ∃ bytes, store blockLz4 (storeNameTableDiffCountAndHashSize 2 next) = some bytes := by
    apply blockLz4_stores
    simp +decide [storeNameTableDiffCountAndHashSize,size',buckets,version,Pickler.putAll,Pickler.put,Pickler.putU4,Pickler.flush,
      Pickler.openRun,Varint.encode]
  refine ⟨⟨[diff,diff'],count⟩,?_⟩
  simp only [storeChain,storeDiffs,markNameTableAsCached,stored,stored',Option.bind_eq_bind,Option.bind_some]
  exact congrArg (Option.bind · _) storedCount

theorem nameTable_chain_roundtrip_sample :
    ∃ base next stored loaded, Extension sampleHash base next ∧ storeChain blockLz4 sampleHash base [next] = some stored ∧
      loadChain blockLz4 .initial stored = some loaded ∧ SameNames sampleHash next loaded := by
  have interned := initial_interned sampleHash
  have absent : GlobalState.initial.Absent sampleString := by
    intro ref
    rw [initial_name]
    exact fun impossible => (by cases impossible)
  obtain ⟨i,ran,free⟩ := enter_fresh interned initial_sized absent (by decide)
  have inserted : Inserted .initial _ sampleString _ := store_inserted (by decide) (by decide) i (hashMix sampleHash sampleString)
  have interned' := interned.store (by decide) absent free
  have sized' := inserted.sized initial_sized
  have contents := contents_store .initial i (hashMix sampleHash sampleString) sampleString
  have length : (GlobalState.initial.store i (hashMix sampleHash sampleString) sampleString).2.namesByHash.length = 65536 :=
    inserted.buckets.trans initial_length
  have capacity : (GlobalState.initial.store i (hashMix sampleHash sampleString) sampleString).2.capacity .constant = 4096 :=
    congrFun inserted.capacity .constant
  generalize (GlobalState.initial.store i (hashMix sampleHash sampleString) sampleString).2 = base at *
  have absent' : base.Absent sampleConstant := by
    intro ref at_
    have := (inserted.names ref sampleConstant).mp at_
    rw [initial_name] at this
    rcases this with impossible | ⟨impossible,_⟩ <;> cases impossible
  have size : ∀ kind, base.size kind = if kind = .utf8 then 1 else 0 := by
    intro kind
    rw [inserted.size,initial_size,Nat.zero_add]
    rfl
  have space : base.size .constant < base.capacity .constant := by
    rw [size,capacity]
    decide
  obtain ⟨j,ran',free'⟩ := enter_fresh interned' sized' absent' space
  have small : base.size .constant < 2 ^ 30 := by
    rw [size]
    decide
  have inserted' : Inserted base _ sampleConstant _ := store_inserted space small j (hashMix sampleHash sampleConstant)
  have contents' := contents_store base j (hashMix sampleHash sampleConstant) sampleConstant
  have length' := inserted'.buckets.trans length
  generalize (base.store j (hashMix sampleHash sampleConstant) sampleConstant).2 = next at *
  have extension : Extension sampleHash base next := by
    refine ⟨⟨_,_,ran'⟩,.inr (.inl ?_)⟩
    rw [markNameTableAsCached,inserted'.size]
    exact Nat.lt_succ_self _
  have addressable : Addressable next := by
    intro kind
    rw [inserted'.size,size]
    cases kind <;> decide
  have room : next.namesUsedTotal + 1 < next.namesByHash.length := (inserted'.sized sized').room
  have first : ∀ kind, base.contents kind = if kind = .utf8 then [sampleString] else [] := by
    intro kind
    rw [contents]
    cases kind <;> rfl
  obtain ⟨stored,written⟩ := sample_stores first contents' length'
  obtain ⟨loaded,read,same⟩ := (nameTable_chain_roundtrip sampleHash blockLz4 blockLz4_documented blockLz4_bounded base
    ⟨_,_,ran⟩ [next] (List.isChain_cons_cons.mpr ⟨extension,.singleton _⟩) addressable room .initial).2 stored written
  exact ⟨base,next,stored,loaded,extension,written,read,same⟩

end Sample

end Serialize
