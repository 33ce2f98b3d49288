import ScipRuby.Lib.Greedy
import ScipRuby.Packager.ExportsByPackage

namespace Packager
open Greedy
variable {Name : Type} [DecidableEq Name]

section Meaning
variable (gs : GlobalState Name)

-- The class c is t or lies below it. The root owns all and counts for none.
inductive Within (t : ClassOrModuleRef) : ClassOrModuleRef → Prop where
  | self : t ≠ root → Within t t
  | under {c : ClassOrModuleRef} : c ≠ root → Within t (gs.classAndModules c).owner → Within t c

-- Each class after the root has a larger id than its owner. The root and those before it, the
-- top and the bottom, are in no package.
structure Tree : Prop where
  owners : ∀ c, root < c → c < gs.classAndModulesUsed → root ≤ (gs.classAndModules c).owner ∧ (gs.classAndModules c).owner < c
  fieldOwners : ∀ f, 0 < f → f < gs.fieldsUsed → root ≤ (gs.fields f).owner ∧ (gs.fields f).owner < gs.classAndModulesUsed
  unpackaged : ∀ c ≤ root, (gs.classAndModules c).package = none

def Entered : SymbolRef → Prop
  | .classOrModule ref => 0 < ref ∧ ref < gs.classAndModulesUsed
  | .field ref => 0 < ref ∧ ref < gs.fieldsUsed

-- The symbol belongs to the package, and a file refers to it that must see an export.
structure Needed (P : Name) (s : SymbolRef) : Prop where
  present : Entered gs s
  package : packageOf gs s = some P
  referenced : ∃ f, 0 < f ∧ f < gs.filesUsed ∧ s ∈ gs.symbolsReferencedByFile f ∧ skipsFile gs P f = false

structure Right (P : Name) (exports : List SymbolRef) : Prop where
  nodup : exports.Nodup
  minimal : ∀ s ∈ exports, ∀ c, .classOrModule c ∈ exports → ¬Within gs c (ownerOf gs s)
  sufficient : ∀ s, Needed gs P s → s ∈ exports ∨ ∃ c, .classOrModule c ∈ exports ∧ Within gs c (ownerOf gs s)
  grounded : ∀ s ∈ exports, Needed gs P s ∨
    ∃ value c, Needed gs P (.field value) ∧ getEnumClassForEnumValue gs (.field value) = some c ∧ s = .classOrModule c

-- An enum class is listed because of a value, when nothing at or above it is listed but
-- something below it already is.
def Overtaken (P : Name) : Prop :=
  ∃ value enum, Needed gs P (.field value) ∧ getEnumClassForEnumValue gs (.field value) = some enum ∧
    (∀ c, Within gs c enum → ¬Needed gs P (.classOrModule c)) ∧
    (∀ other c, other < value → Needed gs P (.field other) → getEnumClassForEnumValue gs (.field other) = some c → ¬Within gs c enum) ∧
    ((∃ c, Needed gs P (.classOrModule c) ∧ Within gs enum (ownerOf gs (.classOrModule c))) ∨
      ∃ other, other < value ∧ Needed gs P (.field other) ∧ Within gs enum (ownerOf gs (.field other)))

end Meaning

section Owners
variable {gs : GlobalState Name} {t c d : ClassOrModuleRef}

omit [DecidableEq Name] in
theorem Tree.packaged (tree : Tree gs) {P : Name} (package : (gs.classAndModules c).package = some P) : root < c := by
  by_contra low
  cases (tree.unpackaged c (Nat.le_of_not_lt low)).symm.trans package

omit [DecidableEq Name] in
theorem Within.ne_root (within : Within gs t c) : c ≠ root := by
  cases within with
  | self other => exact other
  | under other _ => exact other

omit [DecidableEq Name] in
theorem Within.top_ne_root (within : Within gs t c) : t ≠ root := by
  induction within with
  | self other => exact other
  | under _ _ ih => exact ih

omit [DecidableEq Name] in
theorem Within.trans (first : Within gs t d) (second : Within gs d c) : Within gs t c := by
  induction second with
  | self _ => exact first
  | under other _ ih => exact .under other ih

-- The owners of a class are in one line.
omit [DecidableEq Name] in
theorem Within.linear (first : Within gs t c) (second : Within gs d c) : Within gs t d ∨ Within gs d (gs.classAndModules t).owner := by
  induction first with
  | self other =>
    cases second with
    | self _ => exact .inl (.self other)
    | under _ above => exact .inr above
  | under other above ih =>
    cases second with
    | self _ => exact .inl (.under other above)
    | under _ second => exact ih second

omit [DecidableEq Name] in
theorem Within.le (tree : Tree gs) (within : Within gs t c) (present : root ≤ c ∧ c < gs.classAndModulesUsed) : t ≤ c := by
  induction within with
  | self _ => exact Nat.le_refl _
  | @under c other above ih =>
    have inside := tree.owners c (Nat.lt_of_le_of_ne present.1 (Ne.symm other)) present.2
    exact Nat.le_trans (ih ⟨inside.1,Nat.lt_trans inside.2 present.2⟩) (Nat.le_of_lt inside.2)

omit [DecidableEq Name] in
theorem ownerWillBeExported_any (list : List SymbolRef) (fuel : Nat) (owner : ClassOrModuleRef) :
    ownerWillBeExported gs list fuel owner = list.any fun t => ownerWillBeExported gs [t] fuel owner := by
  induction fuel generalizing owner with
  | zero => simp [ownerWillBeExported]
  | succ fuel ih =>
    simp only [ownerWillBeExported]
    by_cases atRoot : owner = root
    · simp [atRoot]
    simp only [atRoot,if_false]
    by_cases listed : .classOrModule owner ∈ list
    · rw [if_pos listed]
      apply Eq.symm
      apply List.any_eq_true.mpr
      exact ⟨_,listed,if_pos (List.mem_singleton_self _)⟩
    · rw [if_neg listed,ih,Bool.eq_iff_iff,List.any_eq_true,List.any_eq_true]
      apply exists_congr
      intro t
      apply and_congr_right
      intro member
      rw [if_neg]
      intro same
      rw [List.mem_singleton.mp same] at listed
      exact listed member

omit [DecidableEq Name] in
theorem ownerWillBeExported_iff (tree : Tree gs) {list : List SymbolRef} {fuel : Nat}
    (present : root ≤ c ∧ c < gs.classAndModulesUsed) (enough : c < fuel) :
    ownerWillBeExported gs list fuel c = true ↔ ∃ t, .classOrModule t ∈ list ∧ Within gs t c := by
  induction fuel generalizing c with
  | zero => exact absurd enough (Nat.not_lt_zero c)
  | succ fuel ih =>
    rw [ownerWillBeExported]
    by_cases atRoot : c = root
    · rw [if_pos atRoot]
      apply iff_of_false Bool.false_ne_true
      rintro ⟨t,_,within⟩
      exact within.ne_root atRoot
    rw [if_neg atRoot]
    by_cases listed : .classOrModule c ∈ list
    · rw [if_pos listed]
      exact iff_of_true rfl ⟨c,listed,.self atRoot⟩
    · rw [if_neg listed]
      have inside := tree.owners c (Nat.lt_of_le_of_ne present.1 (Ne.symm atRoot)) present.2
      rw [ih ⟨inside.1,Nat.lt_trans inside.2 present.2⟩ (Nat.lt_of_lt_of_le inside.2 (Nat.le_of_lt_succ enough))]
      constructor
      · rintro ⟨t,member,within⟩
        exact ⟨t,member,.under atRoot within⟩
      · rintro ⟨t,member,within⟩
        cases within with
        | self _ => exact absurd member listed
        | under _ above => exact ⟨t,member,above⟩

end Owners

section Selection
variable (gs : GlobalState Name) (P : Name)

def blocks (t s : SymbolRef) : Bool := ownerWillBeExported gs [t] (ownerOf gs s + 1) (ownerOf gs s)

-- A value of an enum is exported with the enum class.
def exported (s : SymbolRef) : SymbolRef := (getEnumClassForEnumValue gs s).elim s .classOrModule

def needed (s : SymbolRef) : Bool :=
  packageOf gs s = some P && (computeReferencingFiles gs s).any fun f => !skipsFile gs P f

-- The symbols in the order of the two loops.
def candidates : List SymbolRef :=
  ((List.range' 1 (gs.classAndModulesUsed - 1)).map SymbolRef.classOrModule ++
    (List.range' 1 (gs.fieldsUsed - 1)).map SymbolRef.field).filter (needed gs P)

theorem exportReferenced_eq (toExport : Exports Name) (symbol pushed : SymbolRef) (referencingFiles : List FileRef) :
    exportReferenced gs toExport P symbol pushed referencingFiles =
      if (referencingFiles.any fun f => !skipsFile gs P f) = true ∧ (toExport P).any (blocks gs · symbol) = false then
        Function.update toExport P (toExport P ++ [pushed])
      else toExport := by
  induction referencingFiles with
  | nil => simp [exportReferenced]
  | cons f referencingFiles ih =>
    rw [exportReferenced,List.any_cons]
    cases skips : skipsFile gs P f with
    | true =>
      rw [if_pos rfl,ih]
      rfl
    | false =>
      rw [if_neg Bool.false_ne_true]
      dsimp only
      rw [ownerWillBeExported_any]
      show (if (toExport P).any (blocks gs · symbol) then _ else _) = _
      cases (toExport P).any (blocks gs · symbol) <;> rfl

theorem exportSymbol_at (toExport : Exports Name) (selective : exportsAll gs P = false) (s : SymbolRef) :
    exportSymbol gs toExport s (exported gs s) (computeReferencingFiles gs s) P =
      if needed gs P s then add (blocks gs) (exported gs) (toExport P) s else toExport P := by
  unfold exportSymbol needed
  cases package : packageOf gs s with
  | none => rfl
  | some owningPackage =>
    dsimp only
    by_cases same : owningPackage = P
    · subst same
      rw [selective,if_neg Bool.false_ne_true,exportReferenced_eq]
      simp only [decide_true,Bool.true_and]
      unfold add
      cases (computeReferencingFiles gs s).any fun f => !skipsFile gs owningPackage f with
      | false => rfl
      | true =>
        cases (toExport owningPackage).any (blocks gs · s) with
        | true => rfl
        | false =>
          rw [if_pos ⟨rfl,rfl⟩,Function.update_self]
          rfl
    · rw [decide_eq_false fun equal => same (Option.some.inj equal),Bool.false_and,if_neg Bool.false_ne_true]
      split
      · rfl
      · rw [exportReferenced_eq]
        split
        · exact Function.update_of_ne (Ne.symm same) _ _
        · rfl

theorem exportSymbols_at (symbols : List SymbolRef) (toExport : Exports Name) (selective : exportsAll gs P = false) :
    symbols.foldl (fun toExport s => exportSymbol gs toExport s (exported gs s) (computeReferencingFiles gs s)) toExport P =
      (symbols.filter (needed gs P)).foldl (add (blocks gs) (exported gs)) (toExport P) := by
  induction symbols generalizing toExport with
  | nil => rfl
  | cons s symbols ih =>
    rw [List.foldl_cons,ih,exportSymbol_at gs P toExport selective]
    cases keep : needed gs P s with
    | true => rw [List.filter_cons_of_pos keep,List.foldl_cons,if_pos rfl]
    | false => rw [List.filter_cons_of_neg (Bool.not_eq_true _ ▸ keep),if_neg Bool.false_ne_true]

theorem exportsByPackage_eq (selective : exportsAll gs P = false) :
    exportsByPackage gs P = select (blocks gs) (exported gs) (candidates gs P) := by
  have folds : exportsByPackage gs = (((List.range' 1 (gs.classAndModulesUsed - 1)).map SymbolRef.classOrModule) ++
      (List.range' 1 (gs.fieldsUsed - 1)).map SymbolRef.field).foldl
        (fun toExport s => exportSymbol gs toExport s (exported gs s) (computeReferencingFiles gs s)) fun _ => [] := by
    rw [List.foldl_append,List.foldl_map,List.foldl_map]
    rfl
  rw [folds,exportSymbols_at gs P _ _ selective]
  rfl

omit [DecidableEq Name] in
theorem mem_ids (n i : Nat) : i ∈ List.range' 1 (n - 1) ↔ 0 < i ∧ i < n := by
  rw [List.mem_range'_1]
  omega

theorem mem_candidates (s : SymbolRef) : s ∈ candidates gs P ↔ Needed gs P s := by
  have present : s ∈ (List.range' 1 (gs.classAndModulesUsed - 1)).map SymbolRef.classOrModule ++
      (List.range' 1 (gs.fieldsUsed - 1)).map SymbolRef.field ↔ Entered gs s := by
    cases s <;> simp [Entered,-List.mem_range'_1,mem_ids]
  have kept : needed gs P s = true ↔ packageOf gs s = some P ∧
      ∃ f, 0 < f ∧ f < gs.filesUsed ∧ s ∈ gs.symbolsReferencedByFile f ∧ skipsFile gs P f = false := by
    unfold needed computeReferencingFiles
    rw [Bool.and_eq_true,decide_eq_true_eq,List.any_eq_true]
    apply and_congr_right
    intro _
    apply exists_congr
    intro f
    rw [List.mem_filter,mem_ids,decide_eq_true_eq,Bool.not_eq_true',and_assoc,and_assoc]
  unfold candidates
  rw [List.mem_filter,present,kept]
  constructor
  · rintro ⟨present,package,referenced⟩
    exact ⟨present,package,referenced⟩
  · rintro ⟨present,package,referenced⟩
    exact ⟨present,package,referenced⟩

end Selection

-- Classes come before fields, and either come by their ids.
def Precedes : SymbolRef → SymbolRef → Prop
  | .classOrModule i,.classOrModule j | .field i,.field j => i < j
  | .classOrModule _,.field _ => True
  | .field _,.classOrModule _ => False

theorem Precedes.asymm {s t : SymbolRef} (first : Precedes s t) : ¬Precedes t s := by
  cases s with
  | classOrModule i =>
    cases t with
    | classOrModule j => exact Nat.lt_asymm first
    | field j => exact not_false
  | field i =>
    cases t with
    | classOrModule j => exact first.elim
    | field j => exact Nat.lt_asymm first

section Order
variable {gs : GlobalState Name} {P : Name} {s e : SymbolRef} {before after : List SymbolRef}

theorem candidates_pairwise (gs : GlobalState Name) (P : Name) : (candidates gs P).Pairwise Precedes := by
  apply List.Pairwise.filter
  rw [List.pairwise_append]
  refine ⟨?_,?_,?_⟩
  · rw [List.pairwise_map]
    exact List.pairwise_lt_range'
  · rw [List.pairwise_map]
    exact List.pairwise_lt_range'
  · intro s first t second
    obtain ⟨_,_,rfl⟩ := List.mem_map.mp first
    obtain ⟨_,_,rfl⟩ := List.mem_map.mp second
    trivial

-- What comes before a candidate in the list is what precedes it.
theorem mem_before_iff (split : candidates gs P = before ++ s :: after) : e ∈ before ↔ Needed gs P e ∧ Precedes e s := by
  have ordered := candidates_pairwise gs P
  rw [split,List.pairwise_append] at ordered
  obtain ⟨_,later,across⟩ := ordered
  rw [← mem_candidates,split]
  constructor
  · intro member
    exact ⟨List.mem_append_left _ member,across e member s List.mem_cons_self⟩
  · rintro ⟨member,precedes⟩
    rcases List.mem_append.mp member with earlier | rest
    · exact earlier
    · rcases List.mem_cons.mp rest with rfl | afterwards
      · exact absurd precedes precedes.asymm
      · exact absurd precedes ((List.pairwise_cons.mp later).1 e afterwards).asymm

end Order

section Blocking
variable {gs : GlobalState Name} {P : Name} {s e : SymbolRef} {c : ClassOrModuleRef}

omit [DecidableEq Name] in
theorem ownerOf_present (tree : Tree gs) (present : Entered gs s) (package : packageOf gs s = some P) :
    root ≤ ownerOf gs s ∧ ownerOf gs s < gs.classAndModulesUsed := by
  cases s with
  | classOrModule ref =>
    have inside := tree.owners ref (tree.packaged package) present.2
    exact ⟨inside.1,Nat.lt_trans inside.2 present.2⟩
  | field ref => exact tree.fieldOwners ref present.1 present.2

theorem blocks_iff (tree : Tree gs) (needed : Needed gs P s) (t : SymbolRef) :
    blocks gs t s = true ↔ ∃ c, t = .classOrModule c ∧ Within gs c (ownerOf gs s) := by
  unfold blocks
  rw [ownerWillBeExported_iff tree (ownerOf_present tree needed.present needed.package) (Nat.lt_succ_self _)]
  apply exists_congr
  intro c
  rw [List.mem_singleton,eq_comm]

omit [DecidableEq Name] in
theorem enumClass_owner {value : FieldRef} (found : getEnumClassForEnumValue gs (.field value) = some c) :
    ownerOf gs (.field value) = c := by
  unfold getEnumClassForEnumValue at found
  dsimp only at found
  split at found
  · exact Option.some.inj found
  · cases found

theorem owner_ne_root (tree : Tree gs) {value : FieldRef} (needed : Needed gs P (.field value)) :
    ownerOf gs (.field value) ≠ root := by
  intro same
  have package : (gs.classAndModules (ownerOf gs (.field value))).package = some P := needed.package
  exact Nat.lt_irrefl _ (same ▸ tree.packaged package)

-- What a candidate adds is itself, or the class that owns it.
omit [DecidableEq Name] in
theorem exported_cases (s : SymbolRef) : exported gs s = s ∨
    ∃ value c, s = .field value ∧ getEnumClassForEnumValue gs (.field value) = some c ∧ exported gs s = .classOrModule c := by
  cases s with
  | classOrModule ref => exact .inl rfl
  | field value =>
    unfold exported
    cases found : getEnumClassForEnumValue gs (.field value) with
    | none => exact .inl rfl
    | some c => exact .inr ⟨value,c,rfl,found,rfl⟩

-- A candidate that has been passed is on the list, or one of its owners is.
theorem covered (tree : Tree gs) {items : List SymbolRef} (needed : Needed gs P s) (member : s ∈ items) :
    (getEnumClassForEnumValue gs s = none ∧ s ∈ select (blocks gs) (exported gs) items) ∨
      ∃ c, .classOrModule c ∈ select (blocks gs) (exported gs) items ∧ Within gs c (ownerOf gs s) := by
  rcases @select_covers _ (blocks gs) (exported gs) items s member with chosen | ⟨t,listed,blocked⟩
  · cases s with
    | classOrModule ref => exact .inl ⟨rfl,chosen⟩
    | field value =>
      cases found : getEnumClassForEnumValue gs (.field value) with
      | none =>
        rw [show exported gs (.field value) = .field value by unfold exported; rw [found]; rfl] at chosen
        exact .inl ⟨rfl,chosen⟩
      | some c =>
        rw [show exported gs (.field value) = .classOrModule c by unfold exported; rw [found]; rfl] at chosen
        have owner := enumClass_owner found
        refine .inr ⟨c,chosen,?_⟩
        rw [owner]
        exact .self (owner ▸ owner_ne_root tree needed)
  · obtain ⟨c,rfl,within⟩ := (blocks_iff tree needed t).mp blocked
    exact .inr ⟨c,listed,within⟩

end Blocking

section Exactness
variable {gs : GlobalState Name} {P : Name} {s : SymbolRef} {before after items : List SymbolRef}

def Minimal (gs : GlobalState Name) (exports : List SymbolRef) : Prop :=
  ∀ s ∈ exports, ∀ c, .classOrModule c ∈ exports → ¬Within gs c (ownerOf gs s)

-- A symbol is on the list for its own sake, or as the enum class of a value.
omit [DecidableEq Name] in
theorem listed_cases (member : s ∈ select (blocks gs) (exported gs) items) : s ∈ items ∨
    ∃ value c, .field value ∈ items ∧ getEnumClassForEnumValue gs (.field value) = some c ∧ s = .classOrModule c := by
  obtain ⟨item,inside,rfl⟩ := mem_select member
  rcases @exported_cases _ gs item with same | ⟨value,c,rfl,found,equal⟩
  · rw [same]
    exact .inl inside
  · exact .inr ⟨value,c,inside,found,equal⟩

theorem add_nodup (tree : Tree gs) (split : candidates gs P = before ++ s :: after)
    (nodup : (select (blocks gs) (exported gs) before).Nodup) : (select (blocks gs) (exported gs) (before ++ [s])).Nodup := by
  rw [select_snoc]
  unfold add
  split
  · exact nodup
  rename_i free
  have needed : Needed gs P s := (mem_candidates gs P s).mp (split ▸ List.mem_append_right _ List.mem_cons_self)
  have late : s ∉ before := fun inside => ((mem_before_iff split).mp inside).2.asymm ((mem_before_iff split).mp inside).2
  apply List.nodup_append.mpr
  refine ⟨nodup,List.pairwise_singleton _ _,?_⟩
  rintro t member _ new rfl
  rw [List.mem_singleton] at new
  subst new
  rcases @exported_cases _ gs s with same | ⟨value,c,rfl,found,equal⟩
  · rw [same] at member
    rcases listed_cases member with inside | ⟨value,c,inside,_,rfl⟩
    · exact late inside
    · exact ((mem_before_iff split).mp inside).2.elim
  · rw [equal] at member
    apply free
    apply List.any_eq_true.mpr
    refine ⟨_,member,(blocks_iff tree needed _).mpr ⟨c,rfl,?_⟩⟩
    have owner := enumClass_owner found
    rw [owner]
    exact .self (owner ▸ owner_ne_root tree needed)

omit [DecidableEq Name] in
theorem owner_not_within (tree : Tree gs) {c d : ClassOrModuleRef} (present : root ≤ d ∧ d < gs.classAndModulesUsed)
    (other : d ≠ root) (le : d ≤ c) : ¬Within gs c (gs.classAndModules d).owner := by
  intro within
  have inside := tree.owners d (Nat.lt_of_le_of_ne present.1 (Ne.symm other)) present.2
  have above := within.le tree ⟨inside.1,Nat.lt_trans inside.2 present.2⟩
  exact Nat.not_lt.mpr le (Nat.lt_of_le_of_lt above inside.2)

-- A class of the package, which the root is not.
omit [DecidableEq Name] in
theorem class_present (tree : Tree gs) {c : ClassOrModuleRef} (needed : Entered gs (.classOrModule c))
    (package : packageOf gs (.classOrModule c) = some P) : (root ≤ c ∧ c < gs.classAndModulesUsed) ∧ c ≠ root := by
  have low := tree.packaged package
  exact ⟨⟨Nat.le_of_lt low,needed.2⟩,Nat.ne_of_gt low⟩

-- The list stays minimal when nothing on it is above the new symbol and the new symbol is above nothing.
omit [DecidableEq Name] in
theorem Minimal.push {exports : List SymbolRef} {new : SymbolRef} (minimal : Minimal gs exports)
    (above : ∀ c, .classOrModule c ∈ exports → ¬Within gs c (ownerOf gs new))
    (below : ∀ c, new = .classOrModule c → (∀ t ∈ exports, ¬Within gs c (ownerOf gs t)) ∧ ¬Within gs c (ownerOf gs new)) :
    Minimal gs (exports ++ [new]) := by
  intro t member c owner within
  rcases List.mem_append.mp owner with old | last
  · rcases List.mem_append.mp member with old' | last'
    · exact minimal t old' c old within
    · rw [List.mem_singleton.mp last'] at within
      exact above c old within
  · obtain ⟨others,itself⟩ := below c (List.mem_singleton.mp last).symm
    rcases List.mem_append.mp member with old' | last'
    · exact others t old' within
    · rw [List.mem_singleton.mp last'] at within
      exact itself within

-- No symbol listed before a class is within it.
theorem class_above_none (tree : Tree gs) {c : ClassOrModuleRef} (split : candidates gs P = before ++ .classOrModule c :: after)
    {t : SymbolRef} (listed : t ∈ select (blocks gs) (exported gs) before) :
    ¬Within gs c (ownerOf gs t) := by
  intro within
  have earlier : ∀ e ∈ before, Needed gs P e ∧ Precedes e (.classOrModule c) := fun e inside => (mem_before_iff split).mp inside
  rcases listed_cases listed with inside | ⟨_,_,inside,_,rfl⟩
  · obtain ⟨needed',precedes⟩ := earlier t inside
    cases t with
    | field _ => exact precedes
    | classOrModule d =>
      obtain ⟨present,other⟩ := class_present tree needed'.present needed'.package
      exact owner_not_within tree present other (Nat.le_of_lt precedes) within
  · exact (earlier _ inside).2

-- An enum class above something listed before its value overtakes it.
theorem overtaken_of_below (tree : Tree gs) {value : Nat} {enum : ClassOrModuleRef}
    (split : candidates gs P = before ++ .field value :: after) (needed : Needed gs P (.field value))
    (found : getEnumClassForEnumValue gs (.field value) = some enum)
    (unowned : ∀ c, .classOrModule c ∈ select (blocks gs) (exported gs) before → ¬Within gs c enum) {t : SymbolRef}
    (listed : t ∈ select (blocks gs) (exported gs) before) (below : Within gs enum (ownerOf gs t)) : Overtaken gs P := by
  refine ⟨value,enum,needed,found,?_,?_,?_⟩
  · intro c within needed'
    have inside : .classOrModule c ∈ before := (mem_before_iff split).mpr ⟨needed',trivial⟩
    rcases covered tree needed' inside with ⟨_,itself⟩ | ⟨d,member,above⟩
    · exact unowned c itself within
    · exact unowned d member (Within.trans (.under within.top_ne_root above) within)
  · intro other c less needed' found' within
    have inside : .field other ∈ before := (mem_before_iff split).mpr ⟨needed',less⟩
    rcases covered tree needed' inside with ⟨none,_⟩ | ⟨d,member,above⟩
    · cases none.symm.trans found'
    · rw [enumClass_owner found'] at above
      exact unowned d member (above.trans within)
  · rcases listed_cases listed with inside | ⟨value',c,inside,found',rfl⟩
    · obtain ⟨needed',precedes⟩ := (mem_before_iff split).mp inside
      cases t with
      | classOrModule d => exact .inl ⟨d,needed',below⟩
      | field f => exact .inr ⟨f,precedes,needed',below⟩
    · obtain ⟨needed',precedes⟩ := (mem_before_iff split).mp inside
      have owner := enumClass_owner found'
      refine .inr ⟨value',precedes,needed',?_⟩
      rw [owner]
      exact .under (owner ▸ owner_ne_root tree needed') below

-- A push keeps the list minimal unless it overtakes something.
theorem add_minimal (tree : Tree gs) (split : candidates gs P = before ++ s :: after)
    (minimal : Minimal gs (select (blocks gs) (exported gs) before)) :
    Minimal gs (select (blocks gs) (exported gs) (before ++ [s])) ∨ Overtaken gs P := by
  rw [select_snoc]
  unfold add
  split
  · exact .inl minimal
  rename_i free
  have needed : Needed gs P s := (mem_candidates gs P s).mp (split ▸ List.mem_append_right _ List.mem_cons_self)
  have unowned : ∀ c, .classOrModule c ∈ select (blocks gs) (exported gs) before → ¬Within gs c (ownerOf gs s) := by
    intro c member within
    exact free (List.any_eq_true.mpr ⟨_,member,(blocks_iff tree needed _).mpr ⟨c,rfl,within⟩⟩)
  rcases @exported_cases _ gs s with same | ⟨value,enum,rfl,found,equal⟩
  · left
    rw [same]
    apply minimal.push unowned
    rintro c rfl
    obtain ⟨present,other⟩ := class_present tree needed.present needed.package
    exact ⟨fun t listed => class_above_none tree split listed,owner_not_within tree present other (Nat.le_refl c)⟩
  · rw [equal]
    have owner := enumClass_owner found
    have other : enum ≠ root := owner ▸ owner_ne_root tree needed
    have present := owner ▸ ownerOf_present tree needed.present needed.package
    rw [owner] at unowned
    by_cases overtakes : ∃ t ∈ select (blocks gs) (exported gs) before, Within gs enum (ownerOf gs t)
    · right
      obtain ⟨t,listed,below⟩ := overtakes
      exact overtaken_of_below tree split needed found unowned listed below
    · left
      apply minimal.push
      · exact fun c old within => unowned c old (.under other within)
      · rintro c ⟨⟩
        exact ⟨fun t old within => overtakes ⟨t,old,within⟩,owner_not_within tree present other (Nat.le_refl enum)⟩

theorem select_right (tree : Tree gs) (split : candidates gs P = before ++ after) :
    (select (blocks gs) (exported gs) before).Nodup ∧
      (Minimal gs (select (blocks gs) (exported gs) before) ∨ Overtaken gs P) := by
  induction before using List.reverseRecOn generalizing after with
  | nil => exact ⟨.nil,.inl fun _ member => absurd member List.not_mem_nil⟩
  | append_singleton before s ih =>
    rw [List.append_assoc] at split
    obtain ⟨nodup,either⟩ := ih split
    refine ⟨add_nodup tree split nodup,?_⟩
    rcases either with minimal | overtaken
    · exact add_minimal tree split minimal
    · exact .inr overtaken

-- What is overtaken stays on the list below the enum class.
theorem overtaken_not_minimal (tree : Tree gs) (overtaken : Overtaken gs P) :
    ¬Minimal gs (select (blocks gs) (exported gs) (candidates gs P)) := by
  obtain ⟨value,enum,needed,found,noClass,noValue,below⟩ := overtaken
  obtain ⟨before,after,split⟩ := List.append_of_mem ((mem_candidates gs P (.field value)).mpr needed)
  have owner := enumClass_owner found
  have earlier : ∀ e ∈ before, Needed gs P e ∧ Precedes e (.field value) := fun e inside => (mem_before_iff split).mp inside
  have unowned : ∀ c, .classOrModule c ∈ select (blocks gs) (exported gs) before → ¬Within gs c enum := by
    intro c listed within
    rcases listed_cases listed with inside | ⟨other,_,inside,found',same⟩
    · exact noClass c within (earlier _ inside).1
    · cases same
      obtain ⟨needed',precedes⟩ := earlier _ inside
      exact noValue other c precedes needed' found' within
  -- Something below the enum class is listed before the value.
  have overtakes : ∃ t ∈ select (blocks gs) (exported gs) before, Within gs enum (ownerOf gs t) := by
    have lower : ∀ e, Needed gs P e → Precedes e (.field value) → Within gs enum (ownerOf gs e) →
        ∃ t ∈ select (blocks gs) (exported gs) before, Within gs enum (ownerOf gs t) := by
      intro e needed' precedes within
      rcases covered tree needed' ((mem_before_iff split).mpr ⟨needed',precedes⟩) with ⟨_,itself⟩ | ⟨d,member,above⟩
      · exact ⟨e,itself,within⟩
      · refine ⟨_,member,?_⟩
        exact (above.linear within).resolve_left (unowned d member)
    rcases below with ⟨c,needed',within⟩ | ⟨other,less,needed',within⟩
    · exact lower _ needed' trivial within
    · exact lower _ needed' less within
  obtain ⟨t,listed,within⟩ := overtakes
  have free : ¬(select (blocks gs) (exported gs) before).any (blocks gs · (.field value)) = true := by
    intro blocked
    obtain ⟨t,member,blocked⟩ := List.any_eq_true.mp blocked
    obtain ⟨c,rfl,above⟩ := (blocks_iff tree needed t).mp blocked
    rw [owner] at above
    exact unowned c member above
  have pushed : .classOrModule enum ∈ select (blocks gs) (exported gs) (before ++ [.field value]) := by
    have chosen : exported gs (.field value) = .classOrModule enum := by
      unfold exported
      rw [found]
      rfl
    rw [select_snoc]
    unfold add
    rw [if_neg free,chosen]
    exact List.mem_append_right _ List.mem_cons_self
  intro minimal
  have regroup : candidates gs P = (before ++ [.field value]) ++ after := by
    rw [split,List.append_assoc]
    rfl
  rw [regroup] at minimal
  refine minimal t ?_ enum (select_subset _ _ pushed) within
  rw [List.append_assoc]
  exact select_subset _ _ listed

end Exactness

theorem exportsByPackage_right_iff (gs : GlobalState Name) (tree : Tree gs) (P : Name) (selective : exportsAll gs P = false) :
    Right gs P (exportsByPackage gs P) ↔ ¬Overtaken gs P := by
  rw [exportsByPackage_eq gs P selective]
  obtain ⟨nodup,either⟩ := select_right tree (show candidates gs P = candidates gs P ++ [] by rw [List.append_nil])
  constructor
  · intro right overtaken
    exact overtaken_not_minimal tree overtaken right.minimal
  · intro free
    refine ⟨nodup,either.resolve_right free,?_,?_⟩
    · intro s needed
      exact (covered tree needed ((mem_candidates gs P s).mpr needed)).imp_left And.right
    · intro s member
      rcases listed_cases member with inside | ⟨value,c,inside,found,rfl⟩
      · exact .inl ((mem_candidates gs P s).mp inside)
      · exact .inr ⟨value,c,(mem_candidates gs P _).mp inside,found,rfl⟩

section Samples

-- In the package 7 the class 5 is nested in the enum class 4, which has the value 1. A file
-- of no package refers to the given symbols.
def enumTable (referenced : List SymbolRef) : GlobalState Nat where
  classAndModules := fun c =>
    ⟨if c = 5 then 4 else root,if c = 4 ∨ c = 5 then some 7 else none,if c = 4 then some 6 else none⟩
  classAndModulesUsed := 7
  fields := fun _ => ⟨4,true⟩
  fieldsUsed := 2
  T_Enum := 6
  filesUsed := 2
  symbolsReferencedByFile := fun _ => referenced
  packageDB := .initial

theorem enumTable_tree (referenced : List SymbolRef) : Tree (enumTable referenced) where
  owners c low high := by
    have all : ∀ c < 7, root < c → root ≤ (if c = 5 then 4 else root) ∧ (if c = 5 then 4 else root) < c := by decide
    exact all c high low
  fieldOwners _ _ _ := ⟨(by decide : root ≤ 4),(by decide : 4 < 7)⟩
  unpackaged c low := by
    have all : ∀ c ≤ root, (if c = 4 ∨ c = 5 then some 7 else none : Option Nat) = none := by decide
    exact all c low

theorem exportsByPackage_overtakes : Tree (enumTable [.classOrModule 5,.field 1]) ∧
    exportsAll (enumTable [.classOrModule 5,.field 1]) 7 = false ∧
    ¬Right (enumTable [.classOrModule 5,.field 1]) 7 (exportsByPackage (enumTable [.classOrModule 5,.field 1]) 7) := by
  refine ⟨enumTable_tree _,rfl,fun right => ?_⟩
  have listed : exportsByPackage (enumTable [.classOrModule 5,.field 1]) 7 = [.classOrModule 5,.classOrModule 4] := by decide
  rw [listed] at right
  exact right.minimal (.classOrModule 5) (by decide) 4 (by decide) (.self (by decide))

theorem exportsByPackage_enum : Right (enumTable [.field 1]) 7 (exportsByPackage (enumTable [.field 1]) 7) := by
  have only : ∀ s, Needed (enumTable [.field 1]) 7 s → s = .field 1 := by
    intro s needed
    obtain ⟨_,_,_,member,_⟩ := needed.referenced
    exact List.mem_singleton.mp member
  refine (exportsByPackage_right_iff (enumTable [.field 1]) (enumTable_tree _) 7 rfl).mpr ?_
  rintro ⟨value,_,needed,_,_,_,⟨c,needed',_⟩ | ⟨other,less,needed',_⟩⟩
  · cases only _ needed'
  · cases only _ needed
    cases only _ needed'
    exact Nat.lt_irrefl _ less

end Samples

end Packager
