import ScipRuby.Types.Transitivity

namespace Types
open OpenRecursion UnionIntersection

-- The singleton classes of a symbol table: the one a class has, or gets when it
-- is first asked for, the class that a singleton class is attached to, and the
-- external types that the resolver has stored.
structure Singletons where
  classOf : ClassOrModuleRef → ClassOrModuleRef
  attachedClass : ClassOrModuleRef → Option ClassOrModuleRef
  attached : ∀ c, attachedClass (classOf c) = some c
  bottom_alone : attachedClass Symbols.bottom = none
  externalTargs : ClassOrModuleRef → List Ty
  externalAddress : ClassOrModuleRef → Address

section External
variable (gs : GlobalState) (table : Singletons)

def externalType (c : ClassOrModuleRef) : Ty :=
  if gs.typeMembers c = [] then .classType c else .appliedType (table.externalAddress c) c (table.externalTargs c)

def Below (c d : ClassOrModuleRef) : Prop := IsSubType gs (externalType gs table c) (externalType gs table d)

-- Two generic classes of which the first derives from the second.
def Related (c d : ClassOrModuleRef) : Prop :=
  gs.derivesFrom c d = true ∧ gs.typeMembers c ≠ [] ∧ gs.typeMembers d ≠ []

-- Classes of which none is treated by name, whose external types are in order, and which Types::any does
-- not widen: of two related ones it takes the one above or leaves both.
structure Joinable (classes : List ClassOrModuleRef) : Prop where
  ordinary : ∀ c ∈ classes, Ordinary c
  transitive : ∀ a ∈ classes, ∀ b ∈ classes, ∀ c ∈ classes, Below gs table a b → Below gs table b c → Below gs table a c
  related : ∀ c ∈ classes, ∀ d ∈ classes, Related gs c d → ∃ answer union,
    Returns (step gs) (.single .alwaysCompatible (externalType gs table c) (externalType gs table d)) answer ∧
      Returns (step gs) (.lub (externalType gs table c) (externalType gs table d)) union ∧
      (union = externalType gs table d ∧ answer = true ∨ union = orOf (externalType gs table c) (externalType gs table d))

-- A union of the external types of some classes, and the classes in it.
inductive ClassUnion (classes : List ClassOrModuleRef) : Ty → Prop where
  | single (c) (member : c ∈ classes) : ClassUnion classes (externalType gs table c)
  | union {l r} (p) (left : ClassUnion classes l) (right : ClassUnion classes r) : ClassUnion classes (.orType p l r)

-- Every class of the first list stands below one of the second.
def Covered (classes others : List ClassOrModuleRef) : Prop := ∀ c ∈ classes, ∃ d ∈ others, Below gs table c d

end External

def unionClasses : Ty → List ClassOrModuleRef
  | .orType _ left right => unionClasses left ++ unionClasses right
  | t => (head t).toList

section Leaves
variable {gs : GlobalState} {table : Singletons} {t t1 t2 : Ty} {c d : ClassOrModuleRef} {classes : List ClassOrModuleRef}

theorem external_cases : (gs.typeMembers c = [] ∧ externalType gs table c = .classType c) ∨
    (gs.typeMembers c ≠ [] ∧
      externalType gs table c = .appliedType (table.externalAddress c) c (table.externalTargs c)) := by
  by_cases members : gs.typeMembers c = []
  · exact .inl ⟨members,if_pos members⟩
  · exact .inr ⟨members,if_neg members⟩

theorem head_external : head (externalType gs table c) = some c := by
  obtain ⟨_,same⟩ | ⟨_,same⟩ := @external_cases gs table c <;> rw [same] <;> rfl

theorem external_injective (same : externalType gs table c = externalType gs table d) : c = d := by
  have heads := congrArg head same
  rw [head_external,head_external] at heads
  exact Option.some.inj heads

theorem external_leaf : IsLeaf (externalType gs table c) := by
  obtain ⟨_,same⟩ | ⟨_,same⟩ := @external_cases gs table c <;> rw [same] <;> exact ⟨rfl,rfl⟩

theorem external_simple : isTypeVar (externalType gs table c) = false ∧ asSelfTypeParam (externalType gs table c) = none ∧
    externalType gs table c ≠ .selfType ∧ asMeta (externalType gs table c) = none ∧
    isProxyType (externalType gs table c) = false := by
  obtain ⟨_,same⟩ | ⟨_,same⟩ := @external_cases gs table c <;>
    simp [same,isTypeVar,asSelfTypeParam,asMeta,isProxyType]

theorem external_named (ordinary : Ordinary c) : externalType gs table c ≠ top ∧ externalType gs table c ≠ bottom ∧
    externalType gs table c ≠ untyped ∧ externalType gs table c ≠ .classType Symbols.void := by
  obtain ⟨notTop,notBottom,notUntyped,notVoid⟩ := ordinary
  obtain ⟨_,same⟩ | ⟨_,same⟩ := @external_cases gs table c <;>
    simp [same,top,bottom,untyped,notTop,notBottom,notUntyped,notVoid]

theorem unionClasses_external : unionClasses (externalType gs table c) = [c] := by
  obtain ⟨_,same⟩ | ⟨_,same⟩ := @external_cases gs table c <;> rw [same] <;> rfl

theorem below_iff : Below gs table c d ↔
    Returns (step gs) (.single .alwaysCompatible (externalType gs table c) (externalType gs table d)) true :=
  isSubType_leaf external_leaf external_leaf

theorem below_refl (c : ClassOrModuleRef) : Below gs table c c := below_iff.mpr (single_refl _ _)

theorem stepSingle_external (left : Ordinary c) (right : Ordinary d) (apart : c ≠ d) :
    stepSingle gs .alwaysCompatible (externalType gs table c) (externalType gs table d) =
      singleAmongClasses gs .alwaysCompatible (externalType gs table c) (externalType gs table d) := by
  have differ : externalType gs table c ≠ externalType gs table d := mt external_injective apart
  obtain ⟨var1,param1,self1,meta1,_⟩ := @external_simple gs table c
  obtain ⟨var2,param2,self2,meta2,_⟩ := @external_simple gs table d
  obtain ⟨top1,bottom1,untyped1,_⟩ := @external_named gs table c left
  obtain ⟨top2,bottom2,untyped2,void2⟩ := @external_named gs table d right
  simp only [stepSingle,differ,var1,var2,untyped1,bottom1,top1,untyped2,bottom2,top2,void2,singleSelfTypeParam,param1,
    param2,self1,self2,singleMeta,meta1,meta2,or_self,Bool.false_eq_true,if_false]

-- Two classes that are not related generic ones are compared by ancestry alone.
theorem single_unrelated (left : Ordinary c) (right : Ordinary d) (apart : c ≠ d) (unrelated : ¬ Related gs c d) :
    Returns (step gs) (.single .alwaysCompatible (externalType gs table c) (externalType gs table d))
      (decide (gs.typeMembers d = []) && gs.classSymbolIsAsGoodAs c d) := by
  rw [returns_iff]
  change (stepSingle gs _ _ _).Yields (step gs) _
  rw [stepSingle_external left right apart]
  obtain ⟨plain1,same1⟩ | ⟨generic1,same1⟩ := @external_cases gs table c <;>
    obtain ⟨plain2,same2⟩ | ⟨generic2,same2⟩ := @external_cases gs table d <;> rw [same1,same2]
  · simp [among_classes,plain2]
  · simp [among_class_applied,generic2]
  · simp [among_applied_class,plain2]
  · have bad : gs.classSymbolIsAsGoodAs c d = false := by
      refine Bool.eq_false_iff.mpr fun good => ?_
      rcases Bool.or_eq_true_iff.mp good with same | derives
      · exact apart (beq_iff_eq.mp same)
      · exact unrelated ⟨derives,generic1,generic2⟩
    simp [among_applied,bad]

theorem Joinable.compared (joinable : Joinable gs table classes) (left : c ∈ classes) (right : d ∈ classes) :
    ∃ answer, Returns (step gs) (.single .alwaysCompatible (externalType gs table c) (externalType gs table d)) answer := by
  by_cases same : c = d
  · subst same
    exact ⟨true,single_refl _ _⟩
  by_cases related : Related gs c d
  · obtain ⟨answer,_,compared,_⟩ := joinable.related c left d right related
    exact ⟨answer,compared⟩
  · exact ⟨_,single_unrelated (joinable.ordinary c left) (joinable.ordinary d right) same related⟩

-- The external types of some classes.
def External (gs : GlobalState) (table : Singletons) (classes : List ClassOrModuleRef) (t : Ty) : Prop :=
  ∃ c ∈ classes, t = externalType gs table c

theorem Joinable.leaves (joinable : Joinable gs table classes) : Leaves gs .alwaysCompatible (External gs table classes) where
  notParam := by
    rintro _ ⟨c,_,rfl⟩
    exact external_simple.2.1
  defined := by
    rintro _ _ ⟨c,member,rfl⟩ _ isUntyped
    exact absurd (of_decide_eq_true isUntyped) (external_named (joinable.ordinary c member)).2.2.1
  total := by
    rintro _ _ ⟨c,left,rfl⟩ ⟨d,right,rfl⟩
    exact joinable.compared left right

end Leaves

section Unions
variable {gs : GlobalState} {table : Singletons} {t t1 t2 : Ty} {c d : ClassOrModuleRef}
  {classes others more everyone : List ClassOrModuleRef}

theorem ClassUnion.mono (union : ClassUnion gs table classes t) (inside : ∀ c ∈ classes, c ∈ others) :
    ClassUnion gs table others t := by
  induction union with
  | single c member => exact .single c (inside c member)
  | union p _ _ left right => exact .union p left right

theorem ClassUnion.known (union : ClassUnion gs table classes t) : ∀ c ∈ unionClasses t, c ∈ classes := by
  induction union with
  | single c member =>
    rw [unionClasses_external]
    exact List.forall_mem_singleton.mpr member
  | union p _ _ left right => exact List.forall_mem_append.mpr ⟨left,right⟩

theorem ClassUnion.filled (union : ClassUnion gs table classes t) : ∃ c, c ∈ unionClasses t := by
  induction union with
  | single c member => exact ⟨c,unionClasses_external ▸ List.mem_singleton_self c⟩
  | union p _ _ left _ =>
    obtain ⟨c,member⟩ := left
    exact ⟨c,List.mem_append_left _ member⟩

theorem Covered.of_subset (subset : ∀ c ∈ classes, c ∈ others) : Covered gs table classes others :=
  fun c member => ⟨c,subset c member,below_refl c⟩

theorem Covered.trans (joinable : Joinable gs table everyone) (first : Covered gs table classes others)
    (second : Covered gs table others more) (inside : ∀ c ∈ classes, c ∈ everyone) (inside' : ∀ c ∈ others, c ∈ everyone)
    (inside'' : ∀ c ∈ more, c ∈ everyone) : Covered gs table classes more := by
  intro c member
  obtain ⟨d,there,below⟩ := first c member
  obtain ⟨e,there',below'⟩ := second d there
  exact ⟨e,there',joinable.transitive c (inside c member) d (inside' d there) e (inside'' e there') below below'⟩

theorem ClassUnion.over (union : ClassUnion gs table classes t) : Over (External gs table classes) t := by
  induction union with
  | single c member =>
    have leaf := @external_leaf gs table c
    intro a present
    rw [tree_leaf leaf.1 leaf.2,Compound.leaves,List.mem_singleton] at present
    exact ⟨c,member,present⟩
  | union p _ _ left right => exact over_or.mpr ⟨left,right⟩

theorem ClassUnion.noInter (union : ClassUnion gs table classes t) : ¬ (tree t).IsInter := by
  cases union with
  | single c => rw [tree_leaf external_leaf.1 external_leaf.2]; exact not_false
  | union => exact not_false

theorem derives_class (right : ClassUnion gs table classes t) (first : c ∈ classes) :
    Derives (Single gs (External gs table classes) .alwaysCompatible) (.leaf (externalType gs table c)) (tree t) ↔
      ∃ d ∈ unionClasses t, Below gs table c d := by
  induction right with
  | single d member =>
    rw [tree_leaf external_leaf.1 external_leaf.2,unionClasses_external]
    simp only [List.mem_singleton,exists_eq_left,below_iff]
    constructor
    · intro derives
      cases derives with
      | leaf single => exact single.2.2
    · intro below
      exact .leaf ⟨⟨c,first,rfl⟩,⟨d,member,rfl⟩,below⟩
  | @union l r p inside inside' left right =>
    simp only [tree,unionClasses,List.mem_append,or_and_right,exists_or]
    rw [← left,← right]
    constructor
    · intro derives
      obtain inside | inside | ⟨_,_,whole,_⟩ := derives.union_right not_false trivial inside.noInter inside'.noInter
      · exact .inl inside
      · exact .inr inside
      · cases whole
    · rintro (inside | inside)
      · exact .intoLeft inside
      · exact .intoRight inside

theorem isSubType_unions (joinable : Joinable gs table classes) (left : ClassUnion gs table classes t1)
    (right : ClassUnion gs table classes t2) :
    IsSubType gs t1 t2 ↔ Covered gs table (unionClasses t1) (unionClasses t2) := by
  refine (joinable.leaves.sub_iff left.over right.over).trans ?_
  induction left with
  | single c member =>
    rw [tree_leaf external_leaf.1 external_leaf.2,derives_class right member,unionClasses_external]
    simp [Covered]
  | @union l r p _ _ one other =>
    have split : Covered gs table (unionClasses (.orType p l r)) (unionClasses t2) ↔
        Covered gs table (unionClasses l) (unionClasses t2) ∧ Covered gs table (unionClasses r) (unionClasses t2) := by
      simp only [Covered,unionClasses,List.mem_append,or_imp,forall_and]
    rw [split,← one,← other]
    exact ⟨fun derives => derives.union_left,fun both => .unionLeft both.1 both.2⟩

end Unions
section Joins
variable {gs : GlobalState} {table : Singletons} {t t1 t2 : Ty} {c d : ClassOrModuleRef}
  {classes : List ClassOrModuleRef}

theorem derivesFrom_rank (derives : gs.derivesFrom c d = true) : gs.rank d < gs.rank c := by
  induction rank : gs.rank c using Nat.strongRecOn generalizing c with
  | _ n ih =>
  rw [gs.derivesFrom_eq] at derives
  simp only [Bool.or_eq_true,List.any_eq_true,Bool.and_eq_true,beq_iff_eq,Option.any_eq_true] at derives
  rcases derives with ⟨m,member,rfl | ⟨_,further⟩⟩ | ⟨p,parent,rfl | further⟩
  · exact rank ▸ gs.mixins_rank c m member
  · have lower := gs.mixins_rank c m member
    exact Nat.lt_trans (ih _ (rank ▸ lower) further rfl) (rank ▸ lower)
  · exact rank ▸ gs.superClass_rank c d parent
  · have lower := gs.superClass_rank c p parent
    exact Nat.lt_trans (ih _ (rank ▸ lower) further rfl) (rank ▸ lower)

-- What lub makes of two external types: the one above, or a union of both.
def JoinOf (gs : GlobalState) (table : Singletons) (c d : ClassOrModuleRef) (r : Ty) : Prop :=
  (r = externalType gs table c ∧ Below gs table d c) ∨ (r = externalType gs table d ∧ Below gs table c d) ∨
    r = orOf (externalType gs table c) (externalType gs table d) ∨ r = orOf (externalType gs table d) (externalType gs table c)

theorem JoinOf.swap {r : Ty} (join : JoinOf gs table c d r) : JoinOf gs table d c r := by
  obtain first | second | one | other := join
  · exact .inr (.inl first)
  · exact .inl second
  · exact .inr (.inr (.inr one))
  · exact .inr (.inr (.inl other))

theorem external_not_or {a b : Ty} : externalType gs table c ≠ orOf a b := by
  intro same
  have leaf := (@external_leaf gs table c).1
  rw [same] at leaf
  cases leaf

theorem JoinOf.left (join : JoinOf gs table c d (externalType gs table c)) : Below gs table d c := by
  obtain ⟨_,below⟩ | ⟨same,_⟩ | impossible | impossible := join
  · exact below
  · cases external_injective same
    exact below_refl c
  · exact absurd impossible external_not_or
  · exact absurd impossible external_not_or

theorem stepLub_external (left : Ordinary c) (right : Ordinary d) (apart : c ≠ d)
    (sorted : (externalType gs table c).kind ≤ (externalType gs table d).kind) :
    stepLub gs (externalType gs table c) (externalType gs table d) =
      lubLeaves gs (externalType gs table c) (externalType gs table d) := by
  have differ : externalType gs table c ≠ externalType gs table d := mt external_injective apart
  obtain ⟨top1,bottom1,untyped1,_⟩ := @external_named gs table c left
  obtain ⟨top2,bottom2,untyped2,_⟩ := @external_named gs table d right
  have leaf1 := @external_leaf gs table c
  have leaf2 := @external_leaf gs table d
  simp only [stepLub,differ,Nat.not_lt_of_le sorted,untyped1,bottom1,top1,untyped2,bottom2,top2,lubSorted,leaf1.1,leaf2.1,
    leaf2.2,Option.isSome_none,Bool.false_eq_true,if_false]

-- A class type sorts behind an applied type.
theorem external_kind : (externalType gs table c).kind = if gs.typeMembers c = [] then 2 else 1 := by
  obtain ⟨members,same⟩ | ⟨members,same⟩ := @external_cases gs table c <;> rw [same] <;> simp [members,Ty.kind]

theorem below_unrelated (left : Ordinary c) (right : Ordinary d) (apart : c ≠ d) (unrelated : ¬ Related gs c d) :
    Below gs table c d ↔ gs.typeMembers d = [] ∧ gs.classSymbolIsAsGoodAs c d = true := by
  have single := @single_unrelated gs table c d left right apart unrelated
  rw [below_iff]
  constructor
  · intro below
    simpa using single.unique below
  · rintro ⟨plain,good⟩
    rw [plain,good] at single
    exact single

theorem lubLeaves_applied (apart : c ≠ d) (unrelated : ¬ Related gs c d) (unrelated' : ¬ Related gs d c)
    (generic1 : gs.typeMembers c ≠ []) (generic2 : gs.typeMembers d ≠ []) :
    (lubLeaves gs (externalType gs table c) (externalType gs table d)).Ensures (step gs) (JoinOf gs table c d) := by
  have same1 : externalType gs table c = .appliedType (table.externalAddress c) c (table.externalTargs c) := if_neg generic1
  have same2 : externalType gs table d = .appliedType (table.externalAddress d) d (table.externalTargs d) := if_neg generic2
  have none : ¬ (c = d ∨ gs.derivesFrom c d = true) := by
    rintro (same | derives)
    · exact apart same
    · exact unrelated ⟨derives,generic1,generic2⟩
  have none' : ¬ gs.derivesFrom d c = true := fun derives => unrelated' ⟨derives,generic2,generic1⟩
  have body : lubLeaves gs (externalType gs table c) (externalType gs table d) =
      pure (orOf (externalType gs table c) (externalType gs table d)) := by
    simp only [same1,same2,lubLeaves,lubApplied,asApplied,if_neg none,if_neg none']
  rw [body]
  exact ensures_pure (.inr (.inr (.inl rfl)))

section Unrelated
variable (left : Ordinary c) (right : Ordinary d) (apart : c ≠ d) (unrelated : ¬ Related gs c d)
  (unrelated' : ¬ Related gs d c)
include left right apart unrelated unrelated'

theorem lubLeaves_classes (plain1 : gs.typeMembers c = []) (plain2 : gs.typeMembers d = []) :
    (lubLeaves gs (externalType gs table c) (externalType gs table d)).Ensures (step gs) (JoinOf gs table c d) := by
  have below := (@below_unrelated gs table c d left right apart unrelated).mpr
  have above := (@below_unrelated gs table d c right left (Ne.symm apart) unrelated').mpr
  have same1 : externalType gs table c = .classType c := if_pos plain1
  have same2 : externalType gs table d = .classType d := if_pos plain2
  have union : JoinOf gs table c d (orOf (.classType c) (.classType d)) := by
    rw [← same1,← same2]
    exact .inr (.inr (.inl rfl))
  simp only [lubLeaves,same1,same2,asApplied,isProxyType,lubMeta,asMeta,isTypeVar,lubSelfTypeParam,asSelfTypeParam,
    lubGround,asClass,Ty.classType.injEq,apart,false_or,or_self,Bool.false_eq_true,reduceCtorEq,if_false]
  split
  · rename_i derives
    exact ensures_pure (.inl ⟨same1.symm,above ⟨plain1,good_of_rtl (.inr derives)⟩⟩)
  split
  · rename_i derives
    exact ensures_pure (.inr (.inl ⟨same2.symm,below ⟨plain2,good_of_rtl (.inr derives)⟩⟩))
  · exact ensures_pure union

theorem lubLeaves_applied_class (generic1 : gs.typeMembers c ≠ []) (plain2 : gs.typeMembers d = []) :
    (lubLeaves gs (externalType gs table c) (externalType gs table d)).Ensures (step gs) (JoinOf gs table c d) := by
  have first := (yields_sub_leaf external_leaf external_leaf).mpr
    (@single_unrelated gs table d c right left (Ne.symm apart) unrelated')
  have second := (yields_sub_leaf external_leaf external_leaf).mpr (@single_unrelated gs table c d left right apart unrelated)
  have same1 : externalType gs table c = .appliedType (table.externalAddress c) c (table.externalTargs c) := if_neg generic1
  have applied : asApplied (externalType gs table d) = none := by
    rw [externalType,if_pos plain2]
    rfl
  have body : lubLeaves gs (externalType gs table c) (externalType gs table d) =
      lubApplied gs (externalType gs table c) c (table.externalTargs c) (externalType gs table d) := by
    rw [same1]
    rfl
  rw [body,lubApplied,applied]
  refine ensures_bind ⟨_,first,?_⟩
  dsimp only
  split
  · rename_i holds
    rw [Bool.and_eq_true,decide_eq_true_eq] at holds
    exact absurd holds.1 generic1
  refine ensures_bind ⟨_,second,?_⟩
  dsimp only
  split
  · rename_i holds
    rw [Bool.and_eq_true,decide_eq_true_eq] at holds
    exact ensures_pure (.inr (.inl ⟨rfl,(below_unrelated left right apart unrelated).mpr holds⟩))
  · exact ensures_pure (.inr (.inr (.inl rfl)))

theorem lubLeaves_unrelated (sorted : (externalType gs table c).kind ≤ (externalType gs table d).kind) :
    (lubLeaves gs (externalType gs table c) (externalType gs table d)).Ensures (step gs) (JoinOf gs table c d) := by
  rw [external_kind,external_kind] at sorted
  by_cases plain1 : gs.typeMembers c = []
  · have plain2 : gs.typeMembers d = [] := by
      by_contra generic2
      rw [if_pos plain1,if_neg generic2] at sorted
      exact absurd sorted (by decide)
    exact lubLeaves_classes left right apart unrelated unrelated' plain1 plain2
  · by_cases plain2 : gs.typeMembers d = []
    · exact lubLeaves_applied_class left right apart unrelated unrelated' plain1 plain2
    · exact lubLeaves_applied apart unrelated unrelated' plain1 plain2

end Unrelated

-- Of two related classes Types::any asks for the one below first, in whatever order they come.
theorem lub_related (left : Ordinary c) (right : Ordinary d) (related : Related gs c d) {r : Ty} :
    Returns (step gs) (.lub (externalType gs table d) (externalType gs table c)) r ↔
      Returns (step gs) (.lub (externalType gs table c) (externalType gs table d)) r := by
  obtain ⟨derives,generic1,generic2⟩ := related
  have apart : c ≠ d := by
    rintro rfl
    exact Nat.lt_irrefl _ (derivesFrom_rank derives)
  have notBack : ¬ (d = c ∨ gs.derivesFrom d c = true) := by
    rintro (same | back)
    · exact apart same.symm
    · exact Nat.lt_asymm (derivesFrom_rank derives) (derivesFrom_rank back)
  have kinds : (externalType gs table c).kind = (externalType gs table d).kind := by
    rw [external_kind,external_kind,if_neg generic1,if_neg generic2]
  have same1 : externalType gs table c = .appliedType (table.externalAddress c) c (table.externalTargs c) := if_neg generic1
  have same2 : externalType gs table d = .appliedType (table.externalAddress d) d (table.externalTargs d) := if_neg generic2
  rw [returns_iff,returns_iff]
  change (stepLub gs _ _).Yields (step gs) r ↔ (stepLub gs _ _).Yields (step gs) r
  rw [stepLub_external right left (Ne.symm apart) (Nat.le_of_eq kinds.symm),
    stepLub_external left right apart (Nat.le_of_eq kinds)]
  simp only [same1,same2,lubLeaves,lubApplied,asApplied,if_neg notBack,derives,or_true,if_true]

theorem lub_external (joinable : Joinable gs table classes) (left : c ∈ classes) (right : d ∈ classes) :
    (any (externalType gs table c) (externalType gs table d)).Ensures (step gs) (JoinOf gs table c d) := by
  by_cases same : c = d
  · subst same
    refine ensures_ask ?_
    change (stepLub gs _ _).Ensures (step gs) _
    rw [stepLub,if_pos rfl]
    exact ensures_pure (.inl ⟨rfl,below_refl c⟩)
  have ordinary := joinable.ordinary c left
  have ordinary' := joinable.ordinary d right
  by_cases related : Related gs c d
  · obtain ⟨answer,union,compared,joined,outcome⟩ := joinable.related c left d right related
    refine ⟨union,yields_ask.mpr joined,?_⟩
    obtain ⟨rfl,rfl⟩ | rfl := outcome
    · exact .inr (.inl ⟨rfl,below_iff.mpr compared⟩)
    · exact .inr (.inr (.inl rfl))
  by_cases related' : Related gs d c
  · obtain ⟨answer,union,compared,joined,outcome⟩ := joinable.related d right c left related'
    refine ⟨union,yields_ask.mpr ((lub_related ordinary' ordinary related').mpr joined),?_⟩
    obtain ⟨rfl,rfl⟩ | rfl := outcome
    · exact .inl ⟨rfl,below_iff.mpr compared⟩
    · exact .inr (.inr (.inr rfl))
  have unrelated := @lubLeaves_unrelated gs table
  refine ensures_ask ?_
  change (stepLub gs _ _).Ensures (step gs) _
  by_cases sorted : (externalType gs table c).kind ≤ (externalType gs table d).kind
  · rw [stepLub_external ordinary ordinary' same sorted]
    exact unrelated ordinary ordinary' same related related' sorted
  · have sorted' : (externalType gs table d).kind ≤ (externalType gs table c).kind := Nat.le_of_not_le sorted
    rw [stepLub,if_neg (mt external_injective same),if_pos (Nat.lt_of_not_le sorted)]
    refine (ensures_ask ?_).imp fun r join => JoinOf.swap join
    change (stepLub gs _ _).Ensures (step gs) _
    rw [stepLub_external ordinary' ordinary (Ne.symm same) sorted']
    exact unrelated ordinary' ordinary (Ne.symm same) related' related sorted'

theorem absorbed_external {components consumed : List Ty} (joinable : Joinable gs table classes) (first : c ∈ classes)
    (all : ∀ t ∈ components, External gs table classes t) :
    (absorbed (externalType gs table c) components consumed).Ensures (step gs) fun outcome =>
      (outcome = none → ∃ d, externalType gs table d ∈ components ∧ Below gs table c d) ∧
      ∀ kept, outcome = some kept → ∀ t ∈ kept, t ∈ consumed ∨ ∃ d, t = externalType gs table d ∧ Below gs table d c := by
  induction components generalizing consumed with
  | nil =>
    refine ensures_pure ⟨by simp,?_⟩
    rintro kept ⟨⟩ t member
    exact .inl member
  | cons component components ih =>
    obtain ⟨⟨d,other,rfl⟩,rest⟩ := List.forall_mem_cons.mp all
    refine ensures_bind_of (lub_external joinable other first) fun lubbed join => ?_
    split
    · rename_i same
      subst same
      exact ensures_pure ⟨fun _ => ⟨d,List.mem_cons_self,join.left⟩,by simp⟩
    split
    · rename_i same
      subst same
      refine (ih rest).imp fun outcome facts => ⟨fun none => ?_,fun kept done t member => ?_⟩
      · obtain ⟨e,there,below⟩ := facts.1 none
        exact ⟨e,List.mem_cons_of_mem _ there,below⟩
      · obtain old | new := facts.2 kept done t member
        · obtain older | here := List.mem_append.mp old
          · exact .inl older
          · exact .inr ⟨d,List.mem_singleton.mp here,join.swap.left⟩
        · exact .inr new
    · refine (ih rest).imp fun outcome facts => ⟨fun none => ?_,facts.2⟩
      obtain ⟨e,there,below⟩ := facts.1 none
      exact ⟨e,List.mem_cons_of_mem _ there,below⟩

theorem orComponents_leaf (leaf : IsLeaf t) : orComponents t = [t] := by
  cases t with
  | orType => cases leaf.1
  | _ => rfl

theorem orComponents_external (union : ClassUnion gs table classes t) :
    orComponents t = (unionClasses t).map (externalType gs table) := by
  induction union with
  | single c => rw [orComponents_leaf external_leaf,unionClasses_external,List.map_singleton]
  | union p _ _ left right => rw [orComponents,unionClasses,left,right,List.map_append]

theorem filterOrComponents_leaf {typeFilter : List Ty} (leaf : IsLeaf t) :
    filterOrComponents typeFilter t = if t ∈ typeFilter then none else some t := by
  cases t with
  | orType => cases leaf.1
  | _ => rfl

theorem filterOrComponents_external {typeFilter : List Ty} (union : ClassUnion gs table classes t) :
    (filterOrComponents typeFilter t = none → ∀ c ∈ unionClasses t, externalType gs table c ∈ typeFilter) ∧
      ∀ rest, filterOrComponents typeFilter t = some rest → ClassUnion gs table classes rest ∧
        ∀ c, c ∈ unionClasses rest ↔ c ∈ unionClasses t ∧ externalType gs table c ∉ typeFilter := by
  induction union with
  | single c member =>
    rw [filterOrComponents_leaf external_leaf,unionClasses_external]
    split
    · rename_i present
      simp [present]
    · rename_i absent
      refine ⟨by simp,?_⟩
      rintro rest ⟨⟩
      refine ⟨.single c member,fun d => ?_⟩
      rw [unionClasses_external,List.mem_singleton]
      exact ⟨fun same => ⟨same,same ▸ absent⟩,fun both => both.1⟩
  | @union l r p inside inside' left right =>
    obtain ⟨leftNone,leftSome⟩ := left
    obtain ⟨rightNone,rightSome⟩ := right
    rw [filterOrComponents]
    cases keptLeft : filterOrComponents typeFilter l with
    | none =>
      have gone := leftNone keptLeft
      dsimp only
      refine ⟨fun none => ?_,fun rest kept => ?_⟩
      · have gone' := rightNone none
        simpa [unionClasses,or_imp,forall_and] using ⟨gone,gone'⟩
      · obtain ⟨union',members⟩ := rightSome rest kept
        refine ⟨union',fun c => ?_⟩
        rw [members,unionClasses,List.mem_append]
        grind
    | some a =>
      obtain ⟨unionA,membersA⟩ := leftSome a keptLeft
      cases keptRight : filterOrComponents typeFilter r with
      | none =>
        have gone := rightNone keptRight
        dsimp only
        refine ⟨by simp,?_⟩
        rintro rest ⟨⟩
        refine ⟨unionA,fun c => ?_⟩
        rw [membersA,unionClasses,List.mem_append]
        grind
      | some b =>
        obtain ⟨unionB,membersB⟩ := rightSome b keptRight
        dsimp only
        split
        · rename_i same
          obtain ⟨rfl,rfl⟩ := same
          refine ⟨by simp,?_⟩
          rintro rest ⟨⟩
          refine ⟨.union p inside inside',fun c => ?_⟩
          rw [unionClasses,List.mem_append]
          grind
        · refine ⟨by simp,?_⟩
          rintro rest ⟨⟩
          refine ⟨.union fresh unionA unionB,fun c => ?_⟩
          rw [orOf,unionClasses,unionClasses,List.mem_append,List.mem_append]
          grind

-- The result of joining a class and a union has no other classes and covers both.
def Joins (gs : GlobalState) (table : Singletons) (classes : List ClassOrModuleRef) (c : ClassOrModuleRef)
    (joined : List ClassOrModuleRef) (t : Ty) : Prop :=
  ClassUnion gs table classes t ∧ (∀ d ∈ unionClasses t, d = c ∨ d ∈ joined) ∧
    Covered gs table (c :: joined) (unionClasses t)

theorem unionWith_external {other : Ty} : (unionWith gs other (externalType gs table c)).Yields (step gs)
    (orOf other (externalType gs table c)) := by
  have noShape : asShape (externalType gs table c) = none := by
    obtain ⟨_,same⟩ | ⟨_,same⟩ := @external_cases gs table c <;> rw [same] <;> rfl
  simp [unionWith,noShape,underlying,(@external_simple gs table c).2.2.2.2]

theorem lubDistributeOr_external (joinable : Joinable gs table classes) (first : c ∈ classes)
    (union : ClassUnion gs table classes t) :
    (lubDistributeOr gs t (externalType gs table c)).Ensures (step gs) (Joins gs table classes c (unionClasses t)) := by
  have components : ∀ a ∈ orComponents t, External gs table classes a := by
    rw [orComponents_external union]
    intro a member
    obtain ⟨d,there,rfl⟩ := List.mem_map.mp member
    exact ⟨d,union.known d there,rfl⟩
  refine ensures_bind_of (absorbed_external joinable first components) fun outcome facts => ?_
  cases outcome with
  | none =>
    obtain ⟨d,there,below⟩ := facts.1 rfl
    rw [orComponents_external union] at there
    obtain ⟨_,there,same⟩ := List.mem_map.mp there
    cases external_injective same
    refine ensures_pure ⟨union,fun d member => .inr member,?_⟩
    intro e member
    obtain rfl | member := List.mem_cons.mp member
    · exact ⟨d,there,below⟩
    · exact ⟨e,member,below_refl e⟩
  | some consumed =>
    have below : ∀ d, externalType gs table d ∈ consumed → Below gs table d c := by
      intro d member
      obtain old | ⟨_,same,below⟩ := facts.2 consumed rfl _ member
      · cases old
      · cases external_injective same
        exact below
    cases consumed with
    | nil =>
      refine ⟨_,unionWith_external,.union fresh union (.single c first),fun d member => ?_,Covered.of_subset fun d member => ?_⟩
      · simpa [orOf,unionClasses,unionClasses_external,or_comm] using member
      · simpa [orOf,unionClasses,unionClasses_external,or_comm] using member
    | cons a consumed =>
      dsimp only
      cases filtered : filterOrComponents (a :: consumed) t with
      | none =>
        have all := (filterOrComponents_external union).1 filtered
        refine ensures_pure ⟨.single c first,fun d member => .inl ?_,?_⟩
        · rwa [unionClasses_external,List.mem_singleton] at member
        intro e member
        refine ⟨c,unionClasses_external ▸ List.mem_singleton_self c,?_⟩
        obtain rfl | member := List.mem_cons.mp member
        · exact below_refl e
        · exact below e (all e member)
      | some rest =>
        obtain ⟨union',members⟩ := (filterOrComponents_external union).2 rest filtered
        refine ⟨_,unionWith_external,.union fresh union' (.single c first),fun d member => ?_,fun e member => ?_⟩
        · rw [orOf,unionClasses,unionClasses_external] at member
          obtain inside | same := List.mem_append.mp member
          · exact .inr ((members d).mp inside).1
          · exact .inl (List.mem_singleton.mp same)
        · rw [orOf,unionClasses,unionClasses_external]
          by_cases taken : externalType gs table e ∈ a :: consumed
          · exact ⟨c,by simp,below e taken⟩
          · refine ⟨e,?_,below_refl e⟩
            obtain rfl | member := List.mem_cons.mp member
            · simp
            · exact List.mem_append_left _ ((members e).mpr ⟨member,taken⟩)

-- Types::any of an external type and a union of them, in either order.
theorem lub_union (joinable : Joinable gs table classes) (first : c ∈ classes) (union : ClassUnion gs table classes t) :
    (any (externalType gs table c) t).Ensures (step gs) (Joins gs table classes c (unionClasses t)) := by
  have distributed := @lubDistributeOr_external gs table t c classes joinable first
  cases union with
  | single d second =>
    refine (lub_external joinable first second).imp fun r join => ?_
    rw [unionClasses_external]
    obtain ⟨rfl,below⟩ | ⟨rfl,below⟩ | rfl | rfl := join
    · exact ⟨.single c first,by simp [unionClasses_external],by simp [Covered,unionClasses_external,below,below_refl]⟩
    · exact ⟨.single d second,by simp [unionClasses_external],by simp [Covered,unionClasses_external,below,below_refl]⟩
    · refine ⟨.union fresh (.single c first) (.single d second),?_,Covered.of_subset ?_⟩
      all_goals simp [orOf,unionClasses,unionClasses_external]
    · refine ⟨.union fresh (.single d second) (.single c first),?_,Covered.of_subset ?_⟩
      all_goals simp [orOf,unionClasses,unionClasses_external,or_comm]
  | @union l r p left right =>
    obtain ⟨notTop,notBottom,notUntyped,_⟩ := @external_named gs table c (joinable.ordinary c first)
    have sorted : ¬ (Ty.orType p l r).kind < (externalType gs table c).kind := by
      rw [external_kind]
      split <;> simp [Ty.kind]
    have apart : externalType gs table c ≠ .orType p l r := by
      intro same
      have leaf := (@external_leaf gs table c).1
      rw [same] at leaf
      cases leaf
    have body : stepLub gs (externalType gs table c) (.orType p l r) =
        lubDistributeOr gs (.orType p l r) (externalType gs table c) := by
      rw [stepLub,if_neg apart,if_neg sorted,if_neg notUntyped,if_neg notBottom,if_neg notTop]
      simp [untyped,bottom,top,lubSorted,asOr]
    apply ensures_ask
    change (stepLub gs (externalType gs table c) (.orType p l r)).Ensures (step gs) _
    rw [body]
    exact distributed (.union p left right)

theorem lub_bottom (first : Ordinary c) : (any (externalType gs table c) bottom).Yields (step gs) (externalType gs table c) := by
  obtain ⟨notTop,notBottom,notUntyped,_⟩ := @external_named gs table c first
  refine yields_ask.mpr (returns_iff.mpr ?_)
  have body : stepLub gs (externalType gs table c) bottom = pure (externalType gs table c) := by
    have other : bottom ≠ untyped := by decide
    have sorted : ¬ bottom.kind < (externalType gs table c).kind := by
      rw [external_kind]
      split <;> simp [bottom,Ty.kind]
    rw [stepLub,if_neg notBottom,if_neg sorted,if_neg notUntyped,if_neg notBottom,if_neg notTop,if_neg other,if_pos rfl]
  change (stepLub gs (externalType gs table c) bottom).Yields (step gs) _
  rw [body]
  exact yields_pure.mpr rfl

end Joins

section Linearized
variable {gs : GlobalState} {table : Singletons} {c d : ClassOrModuleRef} {classes : List ClassOrModuleRef}

theorem good_refl (c : ClassOrModuleRef) : gs.classSymbolIsAsGoodAs c c = true := by simp [GlobalState.classSymbolIsAsGoodAs]

-- With the related ones in order, external types are ordered by ancestry.
theorem below_iff_good (left : Ordinary c) (right : Ordinary d) (related : Related gs c d → Below gs table c d) :
    Below gs table c d ↔ gs.classSymbolIsAsGoodAs c d = true ∧ (gs.typeMembers c = [] → c = d ∨ gs.typeMembers d = []) := by
  by_cases same : c = d
  · subst same
    simp [below_refl,good_refl]
  by_cases both : Related gs c d
  · simp [related both,good_of_rtl (.inr both.1),both.2.1]
  · rw [below_unrelated left right same both]
    constructor
    · rintro ⟨plain,good⟩
      exact ⟨good,fun _ => .inr plain⟩
    · rintro ⟨good,kept⟩
      refine ⟨?_,good⟩
      by_contra generic2
      have generic1 : gs.typeMembers c ≠ [] := fun plain => (kept plain).elim same generic2
      rcases Bool.or_eq_true_iff.mp good with equal | derives
      · exact same (beq_iff_eq.mp equal)
      · exact both ⟨derives,generic1,generic2⟩

-- The usual case: complete mixins, and Types::any takes the upper one of two related generic classes.
theorem joinable_of_linearized (linearized : Linearized gs) (ordinary : ∀ c ∈ classes, Ordinary c)
    (related : ∀ c ∈ classes, ∀ d ∈ classes, Related gs c d → Below gs table c d ∧
      Returns (step gs) (.lub (externalType gs table c) (externalType gs table d)) (externalType gs table d)) :
    Joinable gs table classes where
  ordinary := ordinary
  transitive := by
    intro a inA b inB c inC first second
    rw [below_iff_good (ordinary a inA) (ordinary b inB) fun both => (related a inA b inB both).1] at first
    rw [below_iff_good (ordinary b inB) (ordinary c inC) fun both => (related b inB c inC both).1] at second
    rw [below_iff_good (ordinary a inA) (ordinary c inC) fun both => (related a inA c inC both).1]
    refine ⟨linearized.good_trans first.1 second.1,fun plain => ?_⟩
    obtain rfl | plain' := first.2 plain
    · exact second.2 plain
    · obtain rfl | plain'' := second.2 plain'
      · exact .inr plain'
      · exact .inr plain''
  related := by
    intro c inC d inD both
    obtain ⟨below,joined⟩ := related c inC d inD both
    exact ⟨true,_,below_iff.mp below,joined,.inl ⟨rfl,rfl⟩⟩

end Linearized
end Types
