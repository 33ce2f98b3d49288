import Mathlib.Data.List.Induction
import ScipRuby.Types.ClassUnions

namespace Types
open OpenRecursion

section Recording
variable (gs : GlobalState) (table : Singletons)

-- The class of an operand; other types are not expected among the operands.
def operandClass : Ty → Option ClassOrModuleRef
  | .appliedType _ klass _ => some klass
  | .classType symbol => some symbol
  | _ => none

-- The loop over the right operands.
def recordedRight (classOfSubclass : ClassOrModuleRef) : Ty → Bool
  | .orType _ left right => operandClass right = some classOfSubclass || recordedRight classOfSubclass left
  | _ => false

def leftmost : Ty → Ty
  | .orType _ left _ => leftmost left
  | t => t

def recordSealedSubclass (currentClasses : Ty) (subclass : ClassOrModuleRef) : Ty :=
  let classOfSubclass := table.classOf subclass
  if recordedRight classOfSubclass currentClasses then currentClasses
  -- Here the source compares the attached class with a singleton class.
  else if (operandClass (leftmost currentClasses)).bind table.attachedClass = some classOfSubclass then currentClasses
  else if currentClasses ≠ bottom then orOf currentClasses (externalType gs table classOfSubclass)
  else externalType gs table classOfSubclass

-- The namer starts with T.noreturn, which stands for no subclasses.
def recordSealedSubclasses (subclasses : List ClassOrModuleRef) : Ty :=
  subclasses.foldl (recordSealedSubclass gs table) bottom

def operandSubclass (t : Ty) : Option ClassOrModuleRef := (operandClass t).bind table.attachedClass

def unionFrom (result : Ty) : Ty → Eval Ty
  | .orType _ left right =>
    match operandSubclass table right with
    | none => .stuck
    | some subclass => any (externalType gs table subclass) result >>= fun result => unionFrom result left
  | last =>
    match operandSubclass table last with
    | none => .stuck
    | some subclass => any (externalType gs table subclass) result

def sealedSubclassesToUnion (currentClasses : Ty) : Eval Ty :=
  if currentClasses.isBottom then pure bottom else unionFrom gs table bottom currentClasses

def hasSingleSealedSubclass (isClass isAbstract : Bool) (currentClasses : Ty) : Bool :=
  if isClass && !isAbstract then false else !currentClasses.isBottom && (asOr currentClasses).isNone

-- The subclasses that a stored type lists, from the left.
def listedSubclasses : Ty → List ClassOrModuleRef
  | .orType _ left right => listedSubclasses left ++ (operandSubclass table right).toList
  | last => (operandSubclass table last).toList

end Recording

section Lists
variable {gs : GlobalState} {table : Singletons} {c x first : ClassOrModuleRef} {kept rest subclasses : List ClassOrModuleRef}

theorem classOf_injective (same : table.classOf c = table.classOf x) : c = x := by
  have attached := table.attached c
  rw [same,table.attached x] at attached
  exact (Option.some.inj attached).symm

theorem classOf_bottom : table.classOf c ≠ Symbols.bottom := by
  intro same
  have attached := table.attached c
  rw [same,table.bottom_alone] at attached
  cases attached

theorem operandClass_external : operandClass (externalType gs table c) = some c := by
  unfold externalType
  split <;> rfl

theorem external_bottom : externalType gs table (table.classOf c) ≠ bottom := by
  intro same
  have read := @operandClass_external gs table (table.classOf c)
  rw [same] at read
  exact classOf_bottom (Option.some.inj read).symm

theorem operandSubclass_external : operandSubclass table (externalType gs table (table.classOf c)) = some c := by
  rw [operandSubclass,operandClass_external]
  exact table.attached c

-- The stored type that lists a first subclass and then others.
def stored (gs : GlobalState) (table : Singletons) (first : ClassOrModuleRef) (others : List ClassOrModuleRef) : Ty :=
  others.foldl (fun t subclass => orOf t (externalType gs table (table.classOf subclass)))
    (externalType gs table (table.classOf first))

theorem stored_snoc : stored gs table first (kept ++ [x]) =
    orOf (stored gs table first kept) (externalType gs table (table.classOf x)) := by
  rw [stored,List.foldl_append]
  rfl

theorem stored_bottom : stored gs table first kept ≠ bottom := by
  induction kept using List.reverseRecOn with
  | nil => exact external_bottom
  | append_singleton kept x _ =>
    rw [stored_snoc]
    simp [orOf,bottom]

theorem leaf_cases {t : Ty} (leaf : asOr t = none) : recordedRight c t = false ∧ leftmost t = t ∧
    listedSubclasses table t = (operandSubclass table t).toList := by
  cases t with
  | orType => cases leaf
  | _ => exact ⟨rfl,rfl,rfl⟩

theorem leftmost_stored : leftmost (stored gs table first kept) = externalType gs table (table.classOf first) := by
  induction kept using List.reverseRecOn with
  | nil => exact (@leaf_cases table 0 _ external_leaf.1).2.1
  | append_singleton kept x ih =>
    rw [stored_snoc]
    exact ih

theorem recordedRight_stored : recordedRight (table.classOf x) (stored gs table first kept) = true ↔ x ∈ kept := by
  induction kept using List.reverseRecOn with
  | nil =>
    have none : recordedRight (table.classOf x) (stored gs table first []) = false := (@leaf_cases table _ _ external_leaf.1).1
    simp [none]
  | append_singleton kept y ih =>
    rw [stored_snoc,orOf,recordedRight,Bool.or_eq_true,ih,operandClass_external,List.mem_append,List.mem_singleton,or_comm]
    apply or_congr_right
    simp only [Option.some.injEq,decide_eq_true_eq]
    exact ⟨fun same => (classOf_injective same).symm,fun same => by rw [same]⟩

theorem listed_stored : listedSubclasses table (stored gs table first kept) = first :: kept := by
  induction kept using List.reverseRecOn with
  | nil =>
    refine (@leaf_cases table 0 _ external_leaf.1).2.2.trans ?_
    rw [operandSubclass_external]
    rfl
  | append_singleton kept x ih =>
    rw [stored_snoc,orOf,listedSubclasses,ih,operandSubclass_external]
    rfl

theorem record_stored : recordSealedSubclass gs table (stored gs table first kept) x =
    stored gs table first (if x ∈ kept ∨ table.classOf x = first then kept else kept ++ [x]) := by
  have last : (operandClass (leftmost (stored gs table first kept))).bind table.attachedClass = some first := by
    rw [leftmost_stored,operandClass_external]
    exact table.attached first
  rw [recordSealedSubclass,last]
  by_cases old : x ∈ kept
  · rw [if_pos (recordedRight_stored.mpr old),if_pos (.inl old)]
  rw [if_neg fun found => old (recordedRight_stored.mp found)]
  by_cases lost : table.classOf x = first
  · rw [if_pos (congrArg some lost.symm),if_pos (.inr lost)]
  · rw [if_neg fun same => lost (Option.some.inj same).symm,if_pos stored_bottom,if_neg (not_or.mpr ⟨old,lost⟩),stored_snoc]

-- The subclasses kept after the first one.
def keptAfter (table : Singletons) (first : ClassOrModuleRef) (rest : List ClassOrModuleRef) : List ClassOrModuleRef :=
  rest.foldl (fun kept x => if x ∈ kept ∨ table.classOf x = first then kept else kept ++ [x]) []

theorem recordSealedSubclasses_cons :
    recordSealedSubclasses gs table (first :: rest) = stored gs table first (keptAfter table first rest) := by
  have start : recordSealedSubclass gs table bottom first = stored gs table first [] := by
    have none : (operandClass (leftmost bottom)).bind table.attachedClass = Option.none := table.bottom_alone
    rw [recordSealedSubclass,none,if_neg (by simp [recordedRight,bottom]),if_neg (by simp),if_neg (by simp)]
    rfl
  have run : ∀ kept, rest.foldl (recordSealedSubclass gs table) (stored gs table first kept) = stored gs table first
      (rest.foldl (fun kept x => if x ∈ kept ∨ table.classOf x = first then kept else kept ++ [x]) kept) := by
    induction rest with
    | nil => exact fun kept => rfl
    | cons x rest ih =>
      intro kept
      rw [List.foldl_cons,List.foldl_cons,record_stored,ih]
  rw [recordSealedSubclasses,List.foldl_cons,start,run]
  rfl

theorem keptAfter_snoc : keptAfter table first (rest ++ [x]) =
    if x ∈ keptAfter table first rest ∨ table.classOf x = first then keptAfter table first rest
    else keptAfter table first rest ++ [x] := by
  rw [keptAfter,List.foldl_append]
  rfl

theorem keptAfter_nodup : (keptAfter table first rest).Nodup := by
  induction rest using List.reverseRecOn with
  | nil => exact List.nodup_nil
  | append_singleton rest x ih =>
    rw [keptAfter_snoc]
    split
    · exact ih
    · rename_i new
      simp [List.nodup_append,ih]
      grind

theorem mem_keptAfter : c ∈ keptAfter table first rest ↔ c ∈ rest ∧ table.classOf c ≠ first := by
  induction rest using List.reverseRecOn with
  | nil => simp [keptAfter]
  | append_singleton rest x ih =>
    rw [keptAfter_snoc]
    split
    · grind
    · grind

end Lists

section Unions
variable {gs : GlobalState} {table : Singletons} {c x first : ClassOrModuleRef}
  {kept done_ subclasses others : List ClassOrModuleRef} {t : Ty}

-- A type that stands for the union of some of the subclasses.
def Stands (gs : GlobalState) (table : Singletons) (subclasses classes : List ClassOrModuleRef) (t : Ty) : Prop :=
  ClassUnion gs table subclasses t ∧ Covered gs table (unionClasses t) classes ∧ Covered gs table classes (unionClasses t)

def StandsOrBottom (gs : GlobalState) (table : Singletons) (subclasses classes : List ClassOrModuleRef) (t : Ty) : Prop :=
  (classes = [] ∧ t = bottom) ∨ Stands gs table subclasses classes t

theorem any_stands (joinable : Joinable gs table subclasses) (known : ∀ c ∈ x :: done_, c ∈ subclasses)
    (before : StandsOrBottom gs table subclasses done_ t) :
    (any (externalType gs table x) t).Ensures (step gs) (Stands gs table subclasses (x :: done_)) := by
  have here := known x List.mem_cons_self
  obtain ⟨rfl,rfl⟩ | ⟨union,inside,around⟩ := before
  · refine ⟨_,lub_bottom (joinable.ordinary x here),.single x here,?_,?_⟩
    all_goals rw [unionClasses_external]; exact Covered.of_subset fun c member => member
  · refine (lub_union joinable here union).imp fun r joins => ⟨joins.1,fun d member => ?_,?_⟩
    · obtain rfl | member := joins.2.1 d member
      · exact ⟨d,List.mem_cons_self,below_refl d⟩
      · obtain ⟨e,there,below⟩ := inside d member
        exact ⟨e,List.mem_cons_of_mem _ there,below⟩
    · have middle : Covered gs table (x :: done_) (x :: unionClasses t) := by
        intro d member
        obtain rfl | member := List.mem_cons.mp member
        · exact ⟨d,List.mem_cons_self,below_refl d⟩
        · obtain ⟨e,there,below⟩ := around d member
          exact ⟨e,List.mem_cons_of_mem _ there,below⟩
      exact middle.trans joinable joins.2.2 known (List.forall_mem_cons.mpr ⟨here,union.known⟩) joins.1.known

theorem Stands.congr (stands : Stands gs table subclasses done_ t) (same : ∀ c, c ∈ done_ ↔ c ∈ others) :
    Stands gs table subclasses others t := by
  refine ⟨stands.1,fun c member => ?_,fun c member => stands.2.2 c ((same c).mpr member)⟩
  obtain ⟨d,there,below⟩ := stands.2.1 c member
  exact ⟨d,(same d).mp there,below⟩

theorem unionFrom_leaf {last : Ty} (leaf : asOr last = none) (read : operandSubclass table last = some c) :
    unionFrom gs table t last = any (externalType gs table c) t := by
  cases last with
  | orType => cases leaf
  | _ =>
    rw [unionFrom,read]
    simp

theorem unionFrom_stored (joinable : Joinable gs table subclasses) (known : ∀ c ∈ first :: kept ++ done_, c ∈ subclasses)
    (before : StandsOrBottom gs table subclasses done_ t) :
    (unionFrom gs table t (stored gs table first kept)).Ensures (step gs)
      (Stands gs table subclasses (first :: kept ++ done_)) := by
  induction kept using List.reverseRecOn generalizing t done_ with
  | nil =>
    have last : unionFrom gs table t (stored gs table first []) = any (externalType gs table first) t :=
      unionFrom_leaf external_leaf.1 operandSubclass_external
    rw [last]
    exact any_stands joinable known before
  | append_singleton kept x ih =>
    rw [stored_snoc,orOf,unionFrom,operandSubclass_external]
    dsimp only
    refine ensures_bind_of (any_stands joinable (fun c member => known c (by grind)) before) fun r stands => ?_
    exact (ih (fun c member => known c (by grind)) (.inr stands)).imp fun r' stands' => stands'.congr fun c => by grind

end Unions

section Results
variable {gs : GlobalState} {table : Singletons} {c first : ClassOrModuleRef}
  {rest subclasses everyone : List ClassOrModuleRef}

-- After the first call, no call records the first subclass again, and none
-- records a class whose singleton class it is. Both agree only on the symbol
-- that is its own singleton class.
def RecordsOnce (table : Singletons) (subclasses : List ClassOrModuleRef) : Prop :=
  ∀ first rest, subclasses = first :: rest → ∀ x ∈ rest, x = first ↔ table.classOf x = first

-- Every recorded subclass is listed once, and a single one is told from several.
structure ListedOnce (gs : GlobalState) (table : Singletons) (subclasses : List ClassOrModuleRef) : Prop where
  once : ∀ c, (listedSubclasses table (recordSealedSubclasses gs table subclasses)).count c = if c ∈ subclasses then 1 else 0
  single : ∀ isClass isAbstract, isClass = false ∨ isAbstract = true →
    (hasSingleSealedSubclass isClass isAbstract (recordSealedSubclasses gs table subclasses) = true ↔
      ∃ c, ∀ x, x ∈ subclasses ↔ x = c)

-- The recorded subclasses form a set, of which the union is taken.
structure RecordedAsSet (gs : GlobalState) (table : Singletons) (subclasses : List ClassOrModuleRef) : Prop
    extends ListedOnce gs table subclasses where
  union : (sealedSubclassesToUnion gs table (recordSealedSubclasses gs table subclasses)).Ensures (step gs) fun union =>
    (subclasses = [] → union = bottom) ∧
    (∀ t, ClassUnion gs table subclasses t → (∀ c, c ∈ unionClasses t ↔ c ∈ subclasses) →
      IsSubType gs union t ∧ IsSubType gs t union) ∧
    ∀ subclasses', (∀ c, c ∈ subclasses' ↔ c ∈ subclasses) → RecordsOnce table subclasses' →
      (sealedSubclassesToUnion gs table (recordSealedSubclasses gs table subclasses')).Ensures (step gs) fun union' =>
        IsSubType gs union union' ∧ IsSubType gs union' union

theorem mem_kept_iff (once : RecordsOnce table (first :: rest)) :
    c ∈ first :: keptAfter table first rest ↔ c ∈ first :: rest := by
  rw [List.mem_cons,List.mem_cons,mem_keptAfter]
  have agree := once first rest rfl
  constructor
  · rintro (same | ⟨member,_⟩)
    · exact .inl same
    · exact .inr member
  · rintro (same | member)
    · exact .inl same
    · by_cases same : c = first
      · exact .inl same
      · exact .inr ⟨member,mt (agree c member).mpr same⟩

theorem count_listed (once : RecordsOnce table subclasses) (c : ClassOrModuleRef) :
    (listedSubclasses table (recordSealedSubclasses gs table subclasses)).count c = if c ∈ subclasses then 1 else 0 := by
  cases subclasses with
  | nil =>
    have empty : listedSubclasses table (recordSealedSubclasses gs table []) = [] := by
      change (table.attachedClass Symbols.bottom).toList = []
      rw [table.bottom_alone]
      rfl
    rw [empty]
    simp
  | cons first rest =>
    rw [recordSealedSubclasses_cons,listed_stored]
    have distinct : (first :: keptAfter table first rest).Nodup := by
      refine List.nodup_cons.mpr ⟨fun member => ?_,keptAfter_nodup⟩
      obtain ⟨member,apart⟩ := mem_keptAfter.mp member
      exact apart ((once first rest rfl first member).mp rfl)
    rw [distinct.count,if_congr (mem_kept_iff once) rfl rfl]

theorem once_of_count (counted : ∀ c, (listedSubclasses table (recordSealedSubclasses gs table subclasses)).count c =
    if c ∈ subclasses then 1 else 0) : RecordsOnce table subclasses := by
  rintro first rest rfl x member
  have count := counted x
  rw [recordSealedSubclasses_cons,listed_stored,if_pos (List.mem_cons_of_mem _ member),List.count_cons] at count
  constructor
  · rintro rfl
    by_contra apart
    have again := List.count_pos_iff.mpr (mem_keptAfter.mpr ⟨member,apart⟩)
    simp at count
    omega
  · intro lost
    by_contra apart
    have gone : x ∉ keptAfter table first rest := fun kept => (mem_keptAfter.mp kept).2 lost
    rw [List.count_eq_zero.mpr gone] at count
    simp [Ne.symm apart] at count

theorem union_stands (joinable : Joinable gs table everyone) (once : RecordsOnce table subclasses)
    (known : ∀ c ∈ subclasses, c ∈ everyone) :
    (sealedSubclassesToUnion gs table (recordSealedSubclasses gs table subclasses)).Ensures (step gs)
      (StandsOrBottom gs table everyone subclasses) := by
  cases subclasses with
  | nil => exact ensures_pure (.inl ⟨rfl,rfl⟩)
  | cons first rest =>
    have filled : Ty.isBottom (stored gs table first (keptAfter table first rest)) = false :=
      decide_eq_false stored_bottom
    have inside : ∀ c ∈ first :: keptAfter table first rest ++ [], c ∈ everyone := by
      intro c member
      rw [List.append_nil,mem_kept_iff once] at member
      exact known c member
    rw [recordSealedSubclasses_cons,sealedSubclassesToUnion,filled,if_neg Bool.false_ne_true]
    refine (unionFrom_stored joinable inside (.inl ⟨rfl,rfl⟩)).imp fun union stands => .inr (stands.congr fun c => ?_)
    rw [List.append_nil]
    exact mem_kept_iff once

theorem Stands.isSubType {t t' : Ty} (joinable : Joinable gs table everyone) (stands : Stands gs table everyone subclasses t)
    (stands' : Stands gs table everyone subclasses t') (known : ∀ c ∈ subclasses, c ∈ everyone) : IsSubType gs t t' := by
  rw [isSubType_unions joinable stands.1 stands'.1]
  exact stands.2.1.trans joinable stands'.2.2 stands.1.known known stands'.1.known

theorem Stands.filled {t : Ty} (stands : Stands gs table everyone subclasses t) : subclasses ≠ [] := by
  rintro rfl
  obtain ⟨c,member⟩ := stands.1.filled
  obtain ⟨_,absent,_⟩ := stands.2.1 c member
  cases absent

theorem bottom_isSubType : IsSubType gs bottom bottom :=
  (isSubType_leaf ⟨rfl,rfl⟩ ⟨rfl,rfl⟩).mpr (single_refl _ _)

theorem asOr_stored {kept : List ClassOrModuleRef} : (asOr (stored gs table first kept)).isNone = true ↔ kept = [] := by
  induction kept using List.reverseRecOn with
  | nil => simp [stored,external_leaf.1]
  | append_singleton kept x _ => simp [stored_snoc,orOf,asOr]

theorem single_iff_one (once : RecordsOnce table subclasses) {isClass isAbstract : Bool} (kind : isClass = false ∨ isAbstract = true) :
    hasSingleSealedSubclass isClass isAbstract (recordSealedSubclasses gs table subclasses) = true ↔
      ∃ c, ∀ x, x ∈ subclasses ↔ x = c := by
  have asked : (isClass && !isAbstract) = false := by
    obtain rfl | rfl := kind <;> simp
  rw [hasSingleSealedSubclass,asked,if_neg Bool.false_ne_true]
  cases subclasses with
  | nil =>
    constructor
    · intro found
      cases found
    · rintro ⟨c,only⟩
      cases (only c).mpr rfl
  | cons first rest =>
    have filled : Ty.isBottom (stored gs table first (keptAfter table first rest)) = false :=
      decide_eq_false stored_bottom
    rw [recordSealedSubclasses_cons,filled,Bool.not_false,Bool.true_and,asOr_stored]
    constructor
    · intro none
      refine ⟨first,fun x => ?_⟩
      rw [← mem_kept_iff once,none,List.mem_singleton]
    · rintro ⟨c,only⟩
      obtain rfl := (only first).mp List.mem_cons_self
      apply List.eq_nil_iff_forall_not_mem.mpr
      intro x kept
      obtain ⟨member,apart⟩ := mem_keptAfter.mp kept
      exact apart ((once first rest rfl x member).mp ((only x).mp (List.mem_cons_of_mem _ member)))

theorem listedOnce_iff : ListedOnce gs table subclasses ↔ RecordsOnce table subclasses :=
  ⟨fun listed => once_of_count listed.once,fun once => ⟨count_listed once,fun _ _ kind => single_iff_one once kind⟩⟩

theorem recordedAsSet_of_once (joinable : Joinable gs table subclasses) (once : RecordsOnce table subclasses) :
    RecordedAsSet gs table subclasses := by
  refine ⟨listedOnce_iff.mpr once,(union_stands joinable once fun c member => member).imp fun union stands => ⟨?_,?_,?_⟩⟩
  · rintro rfl
    obtain ⟨_,same⟩ | stands := stands
    · exact same
    · exact absurd rfl stands.filled
  · intro t classes members
    obtain ⟨rfl,_⟩ | stands := stands
    · obtain ⟨c,member⟩ := classes.filled
      cases (members c).mp member
    · have other : Stands gs table subclasses subclasses t := ⟨classes,Covered.of_subset fun c member => (members c).mp member,
        Covered.of_subset fun c member => (members c).mpr member⟩
      exact ⟨stands.isSubType joinable other fun c member => member,other.isSubType joinable stands fun c member => member⟩
  · intro subclasses' same once'
    refine (union_stands joinable once' fun c member => (same c).mp member).imp fun union' stands' => ?_
    obtain ⟨rfl,rfl⟩ | stands := stands
    · obtain ⟨_,rfl⟩ | stands' := stands'
      · exact ⟨bottom_isSubType,bottom_isSubType⟩
      · exact absurd rfl (stands'.congr same).filled
    · obtain ⟨rfl,_⟩ | stands' := stands'
      · exact absurd (List.eq_nil_iff_forall_not_mem.mpr fun c member => by cases (same c).mpr member) stands.filled
      · have other := stands'.congr same
        exact ⟨stands.isSubType joinable other fun c member => member,other.isSubType joinable stands fun c member => member⟩

-- A stored type lists every recorded subclass once exactly when the first one is never recorded again nor
-- taken for another; with subclasses that Types::any joins without widening it then stands for their union.
theorem recordSealedSubclass_once_iff (gs : GlobalState) (table : Singletons) (subclasses : List ClassOrModuleRef) :
    (ListedOnce gs table subclasses ↔ RecordsOnce table subclasses) ∧
      (Joinable gs table subclasses → (RecordedAsSet gs table subclasses ↔ RecordsOnce table subclasses)) :=
  ⟨listedOnce_iff,fun joinable => ⟨fun recorded => listedOnce_iff.mp recorded.toListedOnce,recordedAsSet_of_once joinable⟩⟩

-- The singleton class of a class is a thousand above it.
def sampleSingletons : Singletons where
  classOf c := c + 1000
  attachedClass c := if 1000 ≤ c then some (c - 1000) else none
  attached c := by simp
  bottom_alone := rfl
  externalTargs c := if c = 104 then [pairOfStrings] else [top]
  externalAddress c := c

-- 105 derives from 106; both have a type member of one name, and so has 104.
def sealedTable : GlobalState where
  superClass c := if c = 101 then some 102 else if c = 105 then some 106 else none
  mixins _ := []
  isLinearizationComputed _ := true
  isModule _ := false
  isFinal _ := false
  typeMembers c := if c = 104 then [2] else if c = 105 then [3] else if c = 106 then [4] else []
  name _ := 0
  variance _ := .coVariant
  bounds m := if m = 2 then some (pairOfStrings,pairOfStrings) else some (bottom,top)
  isSCIPRuby := true
  rank c := if c = 101 ∨ c = 105 then 1 else 0
  superClass_rank := by
    intro c p parent
    split at parent
    · rename_i first
      obtain rfl := Option.some.inj parent
      subst first
      decide
    · split at parent
      · rename_i second
        obtain rfl := Option.some.inj parent
        subst second
        decide
      · cases parent
  mixins_rank := nofun

theorem sealedTable_derivesFrom {c x : ClassOrModuleRef} (derives : sealedTable.derivesFrom c x = true) :
    c = 101 ∧ x = 102 ∨ c = 105 ∧ x = 106 := by
  have top : sealedTable.derivesFrom 102 x = false ∧ sealedTable.derivesFrom 106 x = false := by
    constructor <;> rw [GlobalState.derivesFrom_eq] <;> rfl
  have parent : sealedTable.superClass c = if c = 101 then some 102 else if c = 105 then some 106 else none := rfl
  rw [GlobalState.derivesFrom_eq,show sealedTable.mixins c = [] from rfl,List.any_nil,Bool.false_or,parent] at derives
  split at derives
  · rename_i first
    exact .inl ⟨first,by simpa [top.1] using derives⟩
  split at derives
  · rename_i second
    exact .inr ⟨second,by simpa [top.2] using derives⟩
  · cases derives

theorem recordSealedSubclass_once_iff_sample :
    RecordedAsSet sealedTable sampleSingletons [102,104,101,105,104,106,105] := by
  have joinable : Joinable sealedTable sampleSingletons [102,104,101,105,104,106,105] := by
    refine joinable_of_linearized ⟨fun _ _ _ member => absurd member List.not_mem_nil⟩ ?_ ?_
    · decide
    · rintro c _ d _ ⟨derives,_,_⟩
      obtain ⟨rfl,rfl⟩ | ⟨rfl,rfl⟩ := sealedTable_derivesFrom derives
      · contradiction
      · exact ⟨⟨9,by decide⟩,⟨9,by decide⟩⟩
  refine ((recordSealedSubclass_once_iff sealedTable sampleSingletons _).2 joinable).mpr ?_
  rintro first rest ⟨⟩ x member
  simp only [List.mem_cons,List.not_mem_nil,or_false] at member
  obtain rfl | rfl | rfl | rfl | rfl | rfl := member <;> decide

-- A class that is recorded twice, as when it is opened twice with its superclass.
theorem recordSealedSubclass_repeats : ¬ RecordedAsSet sealedTable sampleSingletons [100,100] := by
  intro recorded
  have counted := recorded.once 100
  revert counted
  decide +kernel

end Results

end Types
