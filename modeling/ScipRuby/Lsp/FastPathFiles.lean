import Mathlib.Data.List.Sort
import ScipRuby.Lsp.Indexer

namespace Lsp
open Patches
variable {config : LSPConfiguration} {gs : FileTable} {files : List File} {evictedFiles : EvictedFiles}

section Differences
variable {a b c x : SymbolHash} {old new : List SymbolHash} {fuel : Nat}

theorem SymbolHash.lt_irrefl (a : SymbolHash) : a.lt a = false := by simp [SymbolHash.lt]

theorem SymbolHash.lt_trans (first : a.lt b = true) (second : b.lt c = true) : a.lt c = true := by
  simp only [SymbolHash.lt,Bool.or_eq_true,Bool.and_eq_true,decide_eq_true_eq,beq_iff_eq] at first second ⊢
  grind

theorem SymbolHash.lt_antisymm (first : a.lt b = false) (second : b.lt a = false) : a = b := by
  obtain ⟨name,symbol⟩ := a
  obtain ⟨name',symbol'⟩ := b
  simp only [SymbolHash.lt,Bool.or_eq_false_iff,Bool.and_eq_false_iff,decide_eq_false_iff_not,beq_eq_false_iff_ne] at first second
  rw [SymbolHash.mk.injEq]
  grind

-- The hashes come out of a map with one entry for each name and are sorted then.
def Sorted (hashes : List SymbolHash) : Prop := hashes.Pairwise fun a b => a.lt b = true

theorem Sorted.above (sorted : Sorted (b :: new)) (less : a.lt b = true) : a ∉ b :: new := by
  intro member
  obtain rfl | later := List.mem_cons.mp member
  · rw [a.lt_irrefl] at less
    cases less
  · have loop := SymbolHash.lt_trans less ((List.pairwise_cons.mp sorted).1 a later)
    rw [a.lt_irrefl] at loop
    cases loop

theorem Sorted.head (sorted : Sorted (a :: old)) : a ∉ old := by
  intro member
  have loop := (List.pairwise_cons.mp sorted).1 a member
  rw [a.lt_irrefl] at loop
  cases loop

theorem Sorted.tail (sorted : Sorted (a :: old)) : Sorted old := (List.pairwise_cons.mp sorted).2

-- Present in exactly one of two versions.
def Differs (old new : List SymbolHash) (x : SymbolHash) : Prop := x ∈ old ∧ x ∉ new ∨ x ∈ new ∧ x ∉ old

theorem mem_symmetricDifference (sortedOld : Sorted old) (sortedNew : Sorted new) (enough : old.length + new.length < fuel) :
    x ∈ symmetricDifference fuel old new ↔ Differs old new x := by
  induction fuel generalizing old new with
  | zero => cases enough
  | succ fuel ih =>
    cases old with
    | nil => simp [symmetricDifference,Differs]
    | cons a old =>
      cases new with
      | nil => simp [symmetricDifference,Differs]
      | cons b new =>
        rw [List.length_cons,List.length_cons] at enough
        rw [symmetricDifference]
        cases less : a.lt b with
        | true =>
          have later := ih sortedOld.tail sortedNew (by rw [List.length_cons]; omega)
          have absent := sortedNew.above less
          rw [if_pos rfl,List.mem_cons,later]
          by_cases same : x = a
          · subst same
            simp [Differs,absent]
          · simp [Differs,same]
        | false =>
          rw [if_neg Bool.false_ne_true]
          cases more : b.lt a with
          | true =>
            have later := ih sortedOld sortedNew.tail (by rw [List.length_cons]; omega)
            have absent := sortedOld.above more
            rw [if_pos rfl,List.mem_cons,later]
            by_cases same : x = b
            · subst same
              simp [Differs,absent]
            · simp [Differs,same]
          | false =>
            have equal := SymbolHash.lt_antisymm less more
            subst equal
            have later := ih sortedOld.tail sortedNew.tail (by omega)
            rw [if_neg Bool.false_ne_true,later]
            by_cases same : x = a
            · subst same
              simp [Differs,sortedOld.head,sortedNew.head]
            · simp [Differs,same]

end Differences

section Intersections
variable {a b : List NameHash} {x y : NameHash} {fuel : Nat}

-- What lower_bound leaves of a sorted range.
theorem mem_dropWhile (sorted : a.Pairwise (· ≤ ·)) : x ∈ a.dropWhile (· < y) ↔ x ∈ a ∧ y ≤ x := by
  induction a with
  | nil => simp
  | cons first rest ih =>
    obtain ⟨above,sorted'⟩ := List.pairwise_cons.mp sorted
    rw [List.dropWhile_cons]
    split
    · rename_i low
      have low := of_decide_eq_true low
      rw [ih sorted',List.mem_cons]
      constructor
      · exact fun ⟨member,high⟩ => ⟨.inr member,high⟩
      · rintro ⟨rfl | member,high⟩
        · grind
        · exact ⟨member,high⟩
    · rename_i high
      have high : ¬ first < y := by simpa using high
      constructor
      · intro member
        refine ⟨member,?_⟩
        obtain rfl | later := List.mem_cons.mp member
        · grind
        · have := above x later
          grind
      · exact And.left

theorem sorted_dropWhile (sorted : a.Pairwise (· ≤ ·)) : (a.dropWhile (· < y)).Pairwise (· ≤ ·) :=
  sorted.sublist (List.dropWhile_sublist _)

theorem dropWhile_same (same : (a.dropWhile (· < y)).length = a.length) : a.dropWhile (· < y) = a :=
  (List.dropWhile_sublist _).eq_of_length same

-- Skipping what is below the other range skips nothing that is shared.
theorem skip_left (sorted : a.Pairwise (· ≤ ·)) (least : ∀ x ∈ b, y ≤ x) :
    (∃ x ∈ a.dropWhile (· < y), x ∈ b) ↔ ∃ x ∈ a, x ∈ b := by
  constructor
  · rintro ⟨x,member,shared⟩
    exact ⟨x,((mem_dropWhile sorted).mp member).1,shared⟩
  · rintro ⟨x,member,shared⟩
    exact ⟨x,(mem_dropWhile sorted).mpr ⟨member,least x shared⟩,shared⟩

theorem skip_right (sorted : b.Pairwise (· ≤ ·)) (least : ∀ x ∈ a, y ≤ x) :
    (∃ x ∈ a, x ∈ b.dropWhile (· < y)) ↔ ∃ x ∈ a, x ∈ b := by
  have swapped := @skip_left b a y sorted least
  simpa only [and_comm] using swapped

theorem least_head (sorted : (x :: a).Pairwise (· ≤ ·)) : ∀ y ∈ x :: a, x ≤ y := by
  intro y member
  obtain rfl | later := List.mem_cons.mp member
  · grind
  · exact (List.pairwise_cons.mp sorted).1 y later

-- The first range is at an element that the second does not start below.
def Aligned (a b : List NameHash) : Prop := ∃ x rest, a = x :: rest ∧ ∀ y ∈ b, x ≤ y

-- Two heads of which none is below the other are the same hash.
theorem shared_heads {first : NameHash} {bs : List NameHash} (low : ∀ y ∈ first :: bs, x ≤ y) (high : first ≤ x) :
    ∃ z ∈ x :: a, z ∈ first :: bs := by
  have same : x = first := by
    have := low first List.mem_cons_self
    grind
  exact ⟨x,List.mem_cons_self,same ▸ List.mem_cons_self⟩

-- A round that does not end the search skips something on one of the sides.
theorem sortedIntersectsLoop_iff {prevEqual : Bool} (sortedA : a.Pairwise (· ≤ ·)) (sortedB : b.Pairwise (· ≤ ·))
    (enough : a.length + b.length < fuel) (aligned : prevEqual = true → Aligned a b) :
    sortedIntersectsLoop fuel a b prevEqual = true ↔ ∃ x ∈ a, x ∈ b := by
  induction fuel generalizing a b prevEqual with
  | zero => cases enough
  | succ fuel ih =>
    cases b with
    | nil => simp [sortedIntersectsLoop]
    | cons first bs =>
      have sharedA := @skip_left a (first :: bs) first sortedA (least_head sortedB)
      have highA : ∀ x ∈ a.dropWhile (· < first), first ≤ x := fun x member => ((mem_dropWhile sortedA).mp member).2
      have shortA : (a.dropWhile (· < first)).length ≤ a.length := (List.dropWhile_sublist _).length_le
      rw [sortedIntersectsLoop,← sharedA]
      dsimp only
      split
      · rename_i both
        obtain ⟨aEqual,prev⟩ := Bool.and_eq_true_iff.mp both
        have whole := dropWhile_same (beq_iff_eq.mp aEqual)
        obtain ⟨x,rest,rfl,low⟩ := aligned prev
        rw [whole] at highA ⊢
        exact iff_of_true rfl (shared_heads low (highA x List.mem_cons_self))
      · cases next : a.dropWhile (· < first) with
        | nil => simp
        | cons x rest =>
          have sortedNext : (x :: rest).Pairwise (· ≤ ·) := next ▸ sorted_dropWhile sortedA
          have sharedB := @skip_right (x :: rest) (first :: bs) x sortedB (least_head sortedNext)
          have highB : ∀ y ∈ (first :: bs).dropWhile (· < x), x ≤ y := fun y member => ((mem_dropWhile sortedB).mp member).2
          have shortB : ((first :: bs).dropWhile (· < x)).length ≤ (first :: bs).length := (List.dropWhile_sublist _).length_le
          rw [next] at highA shortA
          dsimp only
          split
          · rename_i both
            obtain ⟨bEqual,_⟩ := Bool.and_eq_true_iff.mp both
            have whole := dropWhile_same (beq_iff_eq.mp bEqual)
            rw [whole] at highB
            exact iff_of_true rfl (shared_heads highB (highA x List.mem_cons_self))
          · rename_i moved
            rw [← sharedB]
            apply ih sortedNext (sorted_dropWhile sortedB)
            · rw [Bool.and_eq_true,beq_iff_eq,beq_iff_eq] at moved
              omega
            · exact fun _ => ⟨x,rest,rfl,highB⟩

theorem sortedIntersects_iff (sortedA : a.Pairwise (· ≤ ·)) (sortedB : b.Pairwise (· ≤ ·)) :
    sortedIntersects a b = true ↔ ∃ x ∈ a, x ∈ b :=
  sortedIntersectsLoop_iff sortedA sortedB (Nat.lt_succ_self _) fun impossible => nomatch impossible

-- The rounds of the loop with running out of fuel apart from its answers.
def sortedIntersectsRounds : (fuel : Nat) → (a b : List NameHash) → (prevEqual : Bool) → Option Bool
  | 0,_,_,_ => none
  | _,_,[],_ => some false
  | fuel+1,a,b :: bs,prevEqual =>
    let aNext := a.dropWhile (· < b)
    let aEqual := aNext.length == a.length
    if aEqual && prevEqual then some true
    else
      match aNext with
      | [] => some false
      | x :: _ =>
        let bNext := (b :: bs).dropWhile (· < x)
        let bEqual := bNext.length == (b :: bs).length
        if bEqual && aEqual then some true
        else sortedIntersectsRounds fuel aNext bNext bEqual

-- Order plays no part here: two leaps of length zero in a row end the loop, and any other
-- round leaves fewer elements.
theorem sortedIntersectsRounds_eq {prevEqual : Bool} (enough : a.length + b.length < fuel) :
    sortedIntersectsRounds fuel a b prevEqual = some (sortedIntersectsLoop fuel a b prevEqual) := by
  induction fuel generalizing a b prevEqual with
  | zero => cases enough
  | succ fuel ih =>
    cases b with
    | nil => simp [sortedIntersectsRounds,sortedIntersectsLoop]
    | cons first bs =>
      have shortA : (a.dropWhile (· < first)).length ≤ a.length := (List.dropWhile_sublist _).length_le
      rw [sortedIntersectsRounds,sortedIntersectsLoop]
      dsimp only
      split
      · rfl
      · cases next : a.dropWhile (· < first) with
        | nil => rfl
        | cons x rest =>
          have shortB : ((first :: bs).dropWhile (· < x)).length ≤ (first :: bs).length := (List.dropWhile_sublist _).length_le
          rw [next] at shortA
          dsimp only
          split
          · rfl
          · rename_i moved
            apply ih
            rw [Bool.and_eq_true,beq_iff_eq,beq_iff_eq] at moved
            omega

-- On sorted vectors the loop ends within one round for each element, with the right answer.
theorem sortedIntersects_shared (a b : List NameHash) (sortedA : a.Pairwise (· ≤ ·)) (sortedB : b.Pairwise (· ≤ ·)) :
    ∃ answer, sortedIntersectsRounds (a.length + b.length + 1) a b false = some answer ∧
      (answer = true ↔ ∃ x ∈ a, x ∈ b) := by
  refine ⟨sortedIntersects a b,sortedIntersectsRounds_eq (Nat.lt_succ_self _),?_⟩
  exact sortedIntersects_iff sortedA sortedB

theorem sortedIntersects_shared_duplicates : ∃ answer,
    sortedIntersectsRounds 7 [2,5,5] [3,5,9] false = some answer ∧ (answer = true ↔ ∃ x ∈ ([2,5,5] : List NameHash), x ∈ [3,5,9]) :=
  sortedIntersects_shared [2,5,5] [3,5,9] (by decide) (by decide)

end Intersections

section Changes

-- An updated file whose symbols are compared. In --sorbet-packages mode package files are left out.
def compared (config : LSPConfiguration) (file : File) : Bool := !(config.sorbetPackages && file.isPackage config)

-- The versions of a file from before and after the edit.
structure Version (gs : FileTable) (evictedFiles : EvictedFiles) (file : File) (fref : FileRef) (old : File) : Prop where
  found : findFileByPath gs file.path = some fref
  evicted : evictedFiles.lookup fref = some old

def ChangedSymbol (gs : FileTable) (evictedFiles : EvictedFiles) (files : List File) (symbol : SymbolHash) : Prop :=
  ∃ file ∈ files, ∃ fref old, Version gs evictedFiles file fref old ∧
    Differs old.hash.retypecheckableSymbolHashes file.hash.retypecheckableSymbolHashes symbol

theorem Version.old {file : File} {fref : FileRef} {old : File} (version : Version gs evictedFiles file fref old) :
    oldFileOf gs evictedFiles fref = some old := by
  have there := version.evicted
  rw [oldFileOf]
  split
  · rename_i nothing
    have none_ : evictedFiles.entries = [] := List.isEmpty_iff.mp nothing
    rw [AList.lookup,none_] at there
    cases there
  · exact there

theorem changedSymbol_cons {file : File} {fref : FileRef} {old : File} {symbol : SymbolHash}
    (version : Version gs evictedFiles file fref old) : ChangedSymbol gs evictedFiles (file :: files) symbol ↔
      Differs old.hash.retypecheckableSymbolHashes file.hash.retypecheckableSymbolHashes symbol ∨
        ChangedSymbol gs evictedFiles files symbol := by
  rw [ChangedSymbol,List.exists_mem_cons_iff]
  apply or_congr_left
  constructor
  · rintro ⟨fref',old',version',differs⟩
    obtain rfl := Option.some.inj (version.found.symm.trans version'.found)
    obtain rfl := Option.some.inj (version.evicted.symm.trans version'.evicted)
    exact differs
  · exact fun differs => ⟨fref,old,version,differs⟩

theorem changedNameHashes_iff {old new : FileHash} {h : NameHash} (sortedOld : Sorted old.retypecheckableSymbolHashes)
    (sortedNew : Sorted new.retypecheckableSymbolHashes) : h ∈ changedNameHashes old new ↔
      ∃ symbol, Differs old.retypecheckableSymbolHashes new.retypecheckableSymbolHashes symbol ∧ symbol.nameHash = h := by
  rw [changedNameHashes,List.mem_map]
  simp only [mem_symmetricDifference sortedOld sortedNew (Nat.lt_succ_self _)]

-- The loop over the updated files, if each of them has a version from before.
theorem changedFilesAndSymbols_spec
    (versions : ∀ file ∈ files, ∃ fref old, Version gs evictedFiles file fref old ∧
      Sorted old.hash.retypecheckableSymbolHashes ∧ Sorted file.hash.retypecheckableSymbolHashes) :
    ∃ refs hashes, changedFilesAndSymbols config gs evictedFiles files = some (refs,hashes) ∧
      (∀ ref, ref ∈ refs ↔ ∃ file ∈ files.filter (compared config), findFileByPath gs file.path = some ref) ∧
      ∀ h, h ∈ hashes ↔ ∃ symbol, ChangedSymbol gs evictedFiles (files.filter (compared config)) symbol ∧ symbol.nameHash = h := by
  induction files with
  | nil => exact ⟨[],[],rfl,by simp,by simp [ChangedSymbol]⟩
  | cons file files ih =>
    obtain ⟨refs,hashes,rest,inRefs,inHashes⟩ := ih fun other member => versions other (List.mem_cons_of_mem _ member)
    obtain ⟨fref,old,version,sortedOld,sortedNew⟩ := versions file List.mem_cons_self
    simp only [changedFilesAndSymbols,rest,Option.bind_eq_bind,Option.bind_some]
    cases package : config.sorbetPackages && file.isPackage config with
    | true =>
      have left : (file :: files).filter (compared config) = files.filter (compared config) := by simp [compared,package]
      rw [left]
      exact ⟨refs,hashes,rfl,inRefs,inHashes⟩
    | false =>
      have kept : (file :: files).filter (compared config) = file :: files.filter (compared config) := by
        simp [compared,package]
      simp only [Bool.false_eq_true,if_false,version.found,version.old,Option.bind_some]
      refine ⟨_,_,rfl,fun ref => ?_,fun h => ?_⟩
      · have member : ref ∈ (if fref ∈ refs then refs else fref :: refs) ↔ ref = fref ∨ ref ∈ refs := by
          split
          · rename_i there
            constructor
            · exact .inr
            · rintro (rfl | member)
              · exact there
              · exact member
          · exact List.mem_cons
        rw [member,inRefs,kept,List.exists_mem_cons_iff,version.found,Option.some_inj,@eq_comm _ ref fref]
      · rw [List.mem_append,changedNameHashes_iff sortedOld sortedNew,inHashes,kept]
        simp only [changedSymbol_cons version,or_and_right,exists_or]

end Changes

section Table
variable {changed : List FileRef} {hashes : List NameHash} {start : FileRef} {table : List File}
variable {result : FastPathFilesToTypecheckResult}

-- What the loop over the table adds when it runs to its end.
def extras (config : LSPConfiguration) (changed : List FileRef) (hashes : List NameHash) (start : FileRef) (table : List File) :
    List FileRef :=
  ((table.zipIdx start).filter fun (file,ref) => mentionsChange config changed hashes ref file).map Prod.snd

-- The short circuit leaves a count that is too large for the fast path.
theorem addExtraFiles_extras
    (small : (addExtraFiles config changed hashes start table result).totalChanged ≤ 2 * config.lspMaxFilesOnFastPath) :
    (addExtraFiles config changed hashes start table result).extraFiles = result.extraFiles ++ extras config changed hashes start table := by
  induction table generalizing start result with
  | nil => simp [addExtraFiles,extras]
  | cons file table ih =>
    rw [addExtraFiles] at small ⊢
    cases mentions : mentionsChange config changed hashes start file with
    | false =>
      rw [mentions,if_neg Bool.false_ne_true] at small
      rw [if_neg Bool.false_ne_true,ih small]
      simp [extras,List.zipIdx_cons,mentions]
    | true =>
      rw [mentions,if_pos rfl] at small
      rw [if_pos rfl]
      dsimp only at small ⊢
      split at small
      · rename_i many
        exact absurd small (Nat.not_le_of_lt many)
      · rename_i within
        rw [if_neg within,ih small]
        simp [extras,List.zipIdx_cons,mentions]

theorem extras_rising : (extras config changed hashes start table).Pairwise (· < ·) := by
  have all : ((table.zipIdx start).map Prod.snd).Pairwise (· < ·) := by
    rw [List.zipIdx_map_snd]
    exact List.pairwise_lt_range'
  exact all.sublist (List.filter_sublist.map _)

theorem mem_extras {ref : FileRef} : ref ∈ extras config changed hashes 0 table ↔
    ∃ file, table[ref]? = some file ∧ mentionsChange config changed hashes ref file = true := by
  rw [extras,List.mem_map]
  constructor
  · rintro ⟨⟨file,_⟩,member,rfl⟩
    obtain ⟨there,mentions⟩ := List.mem_filter.mp member
    exact ⟨file,List.mem_zipIdx_iff_getElem?.mp there,mentions⟩
  · rintro ⟨file,there,mentions⟩
    exact ⟨(file,ref),List.mem_filter.mpr ⟨List.mem_zipIdx_iff_getElem?.mpr there,mentions⟩,rfl⟩

theorem mem_sortAndDedupe {h : NameHash} : h ∈ sortAndDedupe hashes ↔ h ∈ hashes := by
  rw [sortAndDedupe,List.mem_dedup,List.mem_insertionSort]

theorem sortAndDedupe_sorted (hashes : List NameHash) : (sortAndDedupe hashes).Pairwise (· ≤ ·) := by
  have total : Std.Total (fun a b : NameHash => a ≤ b) := ⟨fun a b => by grind⟩
  have trans_ : IsTrans NameHash (· ≤ ·) := ⟨fun a b c => by grind⟩
  exact (List.pairwise_insertionSort (· ≤ ·) hashes).sublist (List.dedup_sublist _)

end Table

section Decision

-- What an edit is like: the hashes are sorted, and the evicted files cover the updated ones.
structure Updating (gs : FileTable) (files : List File) (evictedFiles : EvictedFiles) : Prop where
  usages : ∀ file ∈ gs, file.hash.usages.Pairwise (· ≤ ·)
  sorted : ∀ file ∈ files, Sorted file.hash.retypecheckableSymbolHashes
  covered : ∀ file ∈ files, ∀ fref, findFileByPath gs file.path = some fref → ∃ old, evictedFiles.lookup fref = some old ∧
    Sorted old.hash.retypecheckableSymbolHashes

def Updated (gs : FileTable) (files : List File) (ref : FileRef) : Prop :=
  ∃ updated ∈ files, findFileByPath gs updated.path = some ref

def Mentions (gs : FileTable) (evictedFiles : EvictedFiles) (files : List File) (file : File) : Prop :=
  ∃ symbol, ChangedSymbol gs evictedFiles files symbol ∧ symbol.nameHash ∈ file.hash.usages

-- A file that is no payload and, in --sorbet-packages mode, no package.
structure Ordinary (config : LSPConfiguration) (file : File) : Prop where
  notPayload : file.isPayload = false
  notPackage : (config.sorbetPackages && file.isPackage config) = false

-- A file outside the edit that mentions a changed symbol of it.
structure Affects (config : LSPConfiguration) (gs : FileTable) (evictedFiles : EvictedFiles) (files : List File)
    (ref : FileRef) (file : File) : Prop where
  there : gs[ref]? = some file
  ordinary : Ordinary config file
  outside : ¬Updated gs files ref
  mentions : Mentions gs evictedFiles files file

def ReportsAffected (config : LSPConfiguration) (gs : FileTable) (evictedFiles : EvictedFiles) (files : List File)
    (extraFiles : List FileRef) : Prop :=
  extraFiles.Pairwise (· < ·) ∧ ∀ ref, ref ∈ extraFiles ↔ ∃ file, Affects config gs evictedFiles files ref file

-- The package files that the comparison leaves out do not matter to an ordinary file: one
-- that mentions a symbol they change mentions another changed symbol as well, and one that
-- they update is updated by a compared file or mentions nothing.
structure PackagesSettled (config : LSPConfiguration) (gs : FileTable) (evictedFiles : EvictedFiles) (files : List File) :
    Prop where
  symbols : ∀ ref file, gs[ref]? = some file → Ordinary config file → ¬Updated gs files ref →
    Mentions gs evictedFiles (files.filter (fun file => !compared config file)) file →
    Mentions gs evictedFiles (files.filter (compared config)) file
  table : ∀ ref file, gs[ref]? = some file → Ordinary config file →
    Updated gs (files.filter (fun file => !compared config file)) ref →
    Mentions gs evictedFiles (files.filter (compared config)) file → Updated gs (files.filter (compared config)) ref

section Split

-- A property of some updated file is one of a compared or of a skipped file.
theorem exists_split {holds : File → Prop} : (∃ file ∈ files, holds file) ↔
    (∃ file ∈ files.filter (compared config), holds file) ∨
      ∃ file ∈ files.filter (fun file => !compared config file), holds file := by
  constructor
  · rintro ⟨file,member,own⟩
    cases kept : compared config file with
    | true => exact .inl ⟨file,List.mem_filter.mpr ⟨member,kept⟩,own⟩
    | false => exact .inr ⟨file,List.mem_filter.mpr ⟨member,by rw [kept]; rfl⟩,own⟩
  · rintro (⟨file,member,own⟩ | ⟨file,member,own⟩)
    · exact ⟨file,(List.mem_filter.mp member).1,own⟩
    · exact ⟨file,(List.mem_filter.mp member).1,own⟩

theorem updated_split {ref : FileRef} : Updated gs files ref ↔ Updated gs (files.filter (compared config)) ref ∨
    Updated gs (files.filter (fun file => !compared config file)) ref := exists_split

theorem mentions_split {file : File} : Mentions gs evictedFiles files file ↔
    Mentions gs evictedFiles (files.filter (compared config)) file ∨
      Mentions gs evictedFiles (files.filter (fun file => !compared config file)) file := by
  unfold Mentions
  rw [← exists_or]
  apply exists_congr
  intro symbol
  rw [← or_and_right]
  apply and_congr_left
  exact fun _ => exists_split

-- The files that the loop over the table finds are the affected ones.
theorem settled_iff : PackagesSettled config gs evictedFiles files ↔ ∀ ref,
    (∃ file, gs[ref]? = some file ∧ Ordinary config file ∧ ¬Updated gs (files.filter (compared config)) ref ∧
      Mentions gs evictedFiles (files.filter (compared config)) file) ↔
    ∃ file, Affects config gs evictedFiles files ref file := by
  constructor
  · intro settled ref
    apply exists_congr
    intro file
    constructor
    · rintro ⟨there,ordinary,outside,mentions⟩
      refine ⟨there,ordinary,?_,mentions_split.mpr (.inl mentions)⟩
      intro updated
      rcases updated_split.mp updated with own | skipped
      · exact outside own
      · exact outside (settled.table ref file there ordinary skipped mentions)
    · rintro ⟨there,ordinary,outside,mentions⟩
      refine ⟨there,ordinary,fun own => outside (updated_split.mpr (.inl own)),?_⟩
      rcases mentions_split.mp mentions with own | skipped
      · exact own
      · exact settled.symbols ref file there ordinary outside skipped
  · intro same
    constructor
    · intro ref file there ordinary outside skipped
      obtain ⟨other,there',-,-,mentions⟩ :=
        (same ref).mpr ⟨file,there,ordinary,outside,(@mentions_split config _ _ _ _).mpr (.inr skipped)⟩
      rwa [Option.some.inj (there.symm.trans there')]
    · intro ref file there ordinary skipped mentions
      by_contra outside
      obtain ⟨other,affects⟩ := (same ref).mp ⟨file,there,ordinary,outside,mentions⟩
      exact affects.outside ((@updated_split config _ _ _).mpr (.inr skipped))

end Split

-- The checks before the file set is computed find a version of each file.
theorem Updating.versions (updating : Updating gs files evictedFiles)
    (quick : files.any (needsSlowPath config gs evictedFiles) = false) :
    ∀ file ∈ files, ∃ fref old, Version gs evictedFiles file fref old ∧ Sorted old.hash.retypecheckableSymbolHashes ∧
      (config.sorbetPackages && old.hasPackageRbPath && old.sourceHash != file.sourceHash) = false := by
  intro file member
  have passes : needsSlowPath config gs evictedFiles file = false := by
    rw [List.any_eq_false] at quick
    exact Bool.not_eq_true _ ▸ quick file member
  rw [needsSlowPath] at passes
  cases found : findFileByPath gs file.path with
  | none =>
    rw [found] at passes
    cases passes
  | some fref =>
    obtain ⟨old,evicted,sorted⟩ := updating.covered file member fref found
    simp only [found,getOldFile,evicted,Bool.or_eq_false_iff] at passes
    exact ⟨fref,old,⟨found,evicted⟩,sorted,passes.1.1⟩

theorem fastPathFilesToTypecheck_extraFiles (updating : Updating gs files evictedFiles)
    (quick : files.any (needsSlowPath config gs evictedFiles) = false) {result : FastPathFilesToTypecheckResult}
    (computed : fastPathFilesToTypecheck config gs files evictedFiles = some result)
    (small : result.totalChanged ≤ 2 * config.lspMaxFilesOnFastPath) :
    result.extraFiles.Pairwise (· < ·) ∧
      ∀ ref, ref ∈ result.extraFiles ↔ ∃ file, gs[ref]? = some file ∧ Ordinary config file ∧
        ¬Updated gs (files.filter (compared config)) ref ∧ Mentions gs evictedFiles (files.filter (compared config)) file := by
  have versions : ∀ file ∈ files, ∃ fref old, Version gs evictedFiles file fref old ∧
      Sorted old.hash.retypecheckableSymbolHashes ∧ Sorted file.hash.retypecheckableSymbolHashes := by
    intro file member
    obtain ⟨fref,old,version,sorted,_⟩ := updating.versions quick file member
    exact ⟨fref,old,version,sorted,updating.sorted file member⟩
  obtain ⟨refs,hashes,changes,inRefs,inHashes⟩ := @changedFilesAndSymbols_spec config _ _ _ versions
  rw [fastPathFilesToTypecheck,changes] at computed
  dsimp only [Option.bind_eq_bind,Option.bind_some] at computed
  split at computed
  · rename_i nothing
    obtain rfl := Option.some.inj computed
    refine ⟨List.Pairwise.nil,fun ref => iff_of_false List.not_mem_nil ?_⟩
    rintro ⟨file,_,_,_,symbol,changed,_⟩
    have member := (inHashes symbol.nameHash).mpr ⟨symbol,changed,rfl⟩
    rw [List.isEmpty_iff.mp nothing] at member
    cases member
  · obtain rfl := Option.some.inj computed
    rw [addExtraFiles_extras small]
    refine ⟨extras_rising,fun ref => ?_⟩
    rw [List.nil_append,mem_extras]
    apply exists_congr
    intro file
    apply and_congr_right
    intro there
    have usages := updating.usages file (List.mem_of_getElem? there)
    have intersects := sortedIntersects_iff (sortAndDedupe_sorted hashes) usages
    have mentions : (∃ h ∈ sortAndDedupe hashes, h ∈ file.hash.usages) ↔
        Mentions gs evictedFiles (files.filter (compared config)) file := by
      constructor
      · rintro ⟨h,member,used⟩
        obtain ⟨symbol,changed,rfl⟩ := (inHashes h).mp (mem_sortAndDedupe.mp member)
        exact ⟨symbol,changed,used⟩
      · rintro ⟨symbol,changed,used⟩
        exact ⟨symbol.nameHash,mem_sortAndDedupe.mpr ((inHashes _).mpr ⟨symbol,changed,rfl⟩),used⟩
    have updated : ref ∈ refs ↔ Updated gs (files.filter (compared config)) ref := inRefs ref
    rw [mentionsChange,Bool.and_eq_true,intersects,mentions,← updated]
    constructor
    · rintro ⟨plain,own⟩
      simp only [Bool.and_eq_true,Bool.not_eq_true',List.contains_eq_mem,decide_eq_false_iff_not] at plain
      exact ⟨⟨plain.2,plain.1.2⟩,plain.1.1,own⟩
    · rintro ⟨ordinary,outside,own⟩
      simp [ordinary.notPayload,ordinary.notPackage,outside,own]

theorem fast_files {result : TypecheckingPathResult}
    (decided : getTypecheckingPathInternal config gs files evictedFiles = some result) (fast : result.path = .fast) :
    files.any (needsSlowPath config gs evictedFiles) = false ∧
      fastPathFilesToTypecheck config gs files evictedFiles = some result.files ∧
      result.files.totalChanged ≤ config.lspMaxFilesOnFastPath := by
  unfold getTypecheckingPathInternal at decided
  split at decided
  · cases decided
    cases fast
  · split at decided
    · cases decided
      cases fast
    · split at decided
      · cases decided
        cases fast
      · rename_i quick
        obtain ⟨found,computed,rest⟩ := Option.bind_eq_some_iff.mp decided
        split at rest
        · cases rest
          cases fast
        · rename_i bounded
          cases rest
          exact ⟨Bool.not_eq_true _ ▸ quick,computed,Nat.le_of_not_lt bounded⟩

-- Every affected file, once and in the order of the table, if and only if no package file
-- that is left out matters.
theorem fastPath_extraFiles_iff (updating : Updating gs files evictedFiles) {result : TypecheckingPathResult}
    (decided : getTypecheckingPathInternal config gs files evictedFiles = some result) (fast : result.path = .fast) :
    ReportsAffected config gs evictedFiles files result.files.extraFiles ↔
      PackagesSettled config gs evictedFiles files := by
  obtain ⟨quick,computed,small⟩ := fast_files decided fast
  obtain ⟨rising,found⟩ := fastPathFilesToTypecheck_extraFiles updating quick computed (by omega)
  rw [ReportsAffected,and_iff_right rising,settled_iff]
  simp only [found]

-- Package files that were packages before, with the same symbols for the same source, and
-- that the table holds already.
theorem settled_of_packages (updating : Updating gs files evictedFiles)
    (quick : files.any (needsSlowPath config gs evictedFiles) = false)
    (before : ∀ file ∈ files, compared config file = false → ∀ fref old, Version gs evictedFiles file fref old →
      old.hasPackageRbPath = true ∧ (old.sourceHash = file.sourceHash →
        old.hash.retypecheckableSymbolHashes = file.hash.retypecheckableSymbolHashes))
    (held : ∀ file ∈ files, ∀ fref, findFileByPath gs file.path = some fref → gs[fref]? = some file) :
    PackagesSettled config gs evictedFiles files := by
  constructor
  · rintro ref file - - - ⟨symbol,⟨skipped,member,fref,old,version,differs⟩,-⟩
    obtain ⟨inside,left⟩ := List.mem_filter.mp member
    have left : compared config skipped = false := by rwa [Bool.not_eq_true'] at left
    obtain ⟨package,same⟩ := before skipped inside left fref old version
    obtain ⟨fref',old',version',-,source⟩ := updating.versions quick skipped inside
    obtain rfl := Option.some.inj (version.found.symm.trans version'.found)
    obtain rfl := Option.some.inj (version.evicted.symm.trans version'.evicted)
    have packages : config.sorbetPackages = true := by
      rw [compared,Bool.not_eq_false',Bool.and_eq_true] at left
      exact left.1
    rw [packages,package,Bool.true_and,Bool.true_and,bne_eq_false_iff_eq] at source
    rw [same source] at differs
    rcases differs with ⟨here,missing⟩ | ⟨here,missing⟩
    · exact absurd here missing
    · exact absurd here missing
  · rintro ref file there ordinary ⟨skipped,member,found⟩ -
    obtain ⟨inside,left⟩ := List.mem_filter.mp member
    obtain rfl := Option.some.inj (there.symm.trans (held skipped inside ref found))
    rw [compared,ordinary.notPackage] at left
    cases left

-- A method of a.rb changes and b.rb calls it.
def callee (symbolHash : UInt32) : File := {path := "a.rb",hash := ⟨1,[⟨5,symbolHash⟩],[]⟩}

def caller : File := {path := "b.rb",hash := ⟨1,[],[3,5]⟩}

def package (strictLevel : StrictLevel) (symbols : List SymbolHash) : File :=
  {path := "p/__package.rb",strictLevel := strictLevel,hash := ⟨1,symbols,[]⟩}

def packages : LSPConfiguration := {sorbetPackages := true,packageDBEnabled := true}

def calleeEvicted : EvictedFiles := ((∅ : EvictedFiles).insert 0 (callee 7)).insert 2 (package .false_ [])

theorem callee_found : findFileByPath [callee 8,caller,package .false_ []] (callee 8).path = some 0 := by decide +kernel

theorem package_found : findFileByPath [callee 8,caller,package .false_ []] (package .false_ []).path = some 2 := by
  decide +kernel

theorem callee_updating :
    Updating [callee 8,caller,package .false_ []] [callee 8,package .false_ []] calleeEvicted := by
  refine ⟨?_,?_,?_⟩
  · intro file member
    simp only [List.mem_cons,List.not_mem_nil,or_false] at member
    obtain rfl | rfl | rfl := member <;> decide
  · intro file member
    simp only [List.mem_cons,List.not_mem_nil,or_false] at member
    obtain rfl | rfl := member
    · exact List.pairwise_singleton _ _
    · exact List.Pairwise.nil
  · intro file member fref found
    simp only [List.mem_cons,List.not_mem_nil,or_false] at member
    obtain rfl | rfl := member
    · obtain rfl := Option.some.inj (callee_found.symm.trans found)
      exact ⟨callee 7,by decide +kernel,List.pairwise_singleton _ _⟩
    · obtain rfl := Option.some.inj (package_found.symm.trans found)
      exact ⟨package .false_ [],by decide +kernel,List.Pairwise.nil⟩

-- An edit of a method and of a package file that was one before.
theorem fastPath_extraFiles_caller :
    ReportsAffected packages [callee 8,caller,package .false_ []] calleeEvicted [callee 8,package .false_ []] [1] := by
  have decided : getTypecheckingPathInternal packages [callee 8,caller,package .false_ []]
      [callee 8,package .false_ []] calleeEvicted = some ⟨.fast,⟨2,true,[1]⟩⟩ := by decide +kernel
  refine (fastPath_extraFiles_iff callee_updating decided rfl).mpr (settled_of_packages callee_updating ?_ ?_ ?_)
  · decide +kernel
  · intro file member left fref old version
    simp only [List.mem_cons,List.not_mem_nil,or_false] at member
    obtain rfl | rfl := member
    · cases left.symm.trans (by decide +kernel : compared packages (callee 8) = true)
    · obtain rfl := Option.some.inj (package_found.symm.trans version.found)
      have stored : calleeEvicted.lookup 2 = some (package .false_ []) := by decide +kernel
      obtain rfl := Option.some.inj (stored.symm.trans version.evicted)
      exact ⟨by decide +kernel,fun _ => rfl⟩
  · intro file member fref found
    simp only [List.mem_cons,List.not_mem_nil,or_false] at member
    obtain rfl | rfl := member
    · obtain rfl := Option.some.inj (callee_found.symm.trans found)
      rfl
    · obtain rfl := Option.some.inj (package_found.symm.trans found)
      rfl

def ignoredEvicted : EvictedFiles := (∅ : EvictedFiles).insert 0 (package .ignore [])

-- A package file that was ignored before the edit defines a method that b.rb calls.
theorem fastPath_extraFiles_missed : ∃ result,
    Updating [package .false_ [⟨5,1⟩],caller] [package .false_ [⟨5,1⟩]] ignoredEvicted ∧
    getTypecheckingPathInternal packages [package .false_ [⟨5,1⟩],caller] [package .false_ [⟨5,1⟩]] ignoredEvicted =
      some result ∧ result.path = .fast ∧
    ¬ReportsAffected packages [package .false_ [⟨5,1⟩],caller] ignoredEvicted [package .false_ [⟨5,1⟩]]
      result.files.extraFiles := by
  have first : findFileByPath [package .false_ [⟨5,1⟩],caller] (package .false_ [⟨5,1⟩]).path = some 0 := by decide +kernel
  have stored : ignoredEvicted.lookup 0 = some (package .ignore []) := by decide +kernel
  refine ⟨⟨.fast,⟨0,false,[]⟩⟩,⟨?_,?_,?_⟩,by decide +kernel,rfl,?_⟩
  · intro file member
    simp only [List.mem_cons,List.not_mem_nil,or_false] at member
    obtain rfl | rfl := member <;> decide
  · intro file member
    obtain rfl := List.mem_singleton.mp member
    exact List.pairwise_singleton _ _
  · intro file member fref found
    obtain rfl := List.mem_singleton.mp member
    obtain rfl := Option.some.inj (first.symm.trans found)
    exact ⟨package .ignore [],stored,List.Pairwise.nil⟩
  · rintro ⟨-,exact_⟩
    have missed : 1 ∈ ([] : List FileRef) := by
      refine (exact_ 1).mpr ⟨caller,rfl,⟨rfl,by decide +kernel⟩,?_,⟨5,1⟩,?_,by decide⟩
      · rintro ⟨file,member,found⟩
        obtain rfl := List.mem_singleton.mp member
        cases first.symm.trans found
      · exact ⟨_,List.mem_cons_self,0,_,⟨first,stored⟩,.inr ⟨List.mem_cons_self,List.not_mem_nil⟩⟩
    cases missed

end Decision

end Lsp
