import ScipRuby.Types.UnionLayer

namespace Types
open OpenRecursion UnionIntersection

-- The class types that no rule of isSubTypeUnderConstraintSingle treats by name.
def Ordinary (c : ClassOrModuleRef) : Prop :=
  c ≠ Symbols.top ∧ c ≠ Symbols.bottom ∧ c ≠ Symbols.untyped ∧ c ≠ Symbols.void

instance (c : ClassOrModuleRef) : Decidable (Ordinary c) := inferInstanceAs (Decidable (_ ∧ _))

-- Types made of ordinary classes by union and intersection.
def ClassTree : Ty → Prop
  | .classType c => Ordinary c
  | .orType _ left right => ClassTree left ∧ ClassTree right
  | .andType _ left right => ClassTree left ∧ ClassTree right
  | _ => False

-- The classes that an object belongs to, with every superclass and every mixin of one of them.
def ClosedUnderAncestors (gs : GlobalState) (S : ClassOrModuleRef → Prop) : Prop :=
  ∀ c, S c → (∀ p, gs.superClass c = some p → S p) ∧ ∀ m ∈ gs.mixins c, S m

def Satisfies (S : ClassOrModuleRef → Prop) : Ty → Prop
  | .classType c => S c
  | .orType _ left right => Satisfies S left ∨ Satisfies S right
  | .andType _ left right => Satisfies S left ∧ Satisfies S right
  | _ => False

section Ancestors
variable {gs : GlobalState} {S : ClassOrModuleRef → Prop} {c sym : ClassOrModuleRef}

theorem closed_derivesFromWithin (closed : ClosedUnderAncestors gs S) (depth : Nat) (present : S c)
    (derives : gs.derivesFromWithin depth c sym = true) : S sym := by
  induction depth generalizing c with
  | zero => cases derives
  | succ depth ih =>
    obtain ⟨above,mixed⟩ := closed c present
    simp only [GlobalState.derivesFromWithin,Bool.or_eq_true,List.any_eq_true,Bool.and_eq_true,beq_iff_eq,
      Option.any_eq_true] at derives
    rcases derives with ⟨m,member,rfl | ⟨_,further⟩⟩ | ⟨p,parent,rfl | further⟩
    · exact mixed m member
    · exact ih (mixed m member) further
    · exact above sym parent
    · exact ih (above p parent) further

theorem closed_classSymbolIsAsGoodAs (closed : ClosedUnderAncestors gs S) (present : S c)
    (good : gs.classSymbolIsAsGoodAs c sym = true) : S sym := by
  rcases Bool.or_eq_true_iff.mp good with same | derives
  · rw [← beq_iff_eq.mp same]
    exact present
  · exact closed_derivesFromWithin closed _ present derives

end Ancestors

section Classes
variable {gs : GlobalState} {mode : UntypedMode} {c d : ClassOrModuleRef}

theorem returns_single_classes (left : Ordinary c) (right : Ordinary d) :
    Returns (step gs) (.single mode (.classType c) (.classType d)) (gs.classSymbolIsAsGoodAs c d) := by
  obtain ⟨notTop,notBottom,notUntyped,_⟩ := left
  obtain ⟨top',bottom',untyped',void'⟩ := right
  rw [returns_iff]
  by_cases same : c = d
  · subst same
    simp [step,stepSingle,GlobalState.classSymbolIsAsGoodAs]
  · simp [step,stepSingle,same,isTypeVar,untyped,bottom,top,notTop,notBottom,notUntyped,top',bottom',untyped',void',
      singleSelfTypeParam,asSelfTypeParam,singleMeta,asMeta,singleAmongClasses,asApplied,isProxyType,asClass]

-- A class type that no rule treats by name.
def OrdinaryClass (t : Ty) : Prop := ∃ c, t = .classType c ∧ Ordinary c

theorem ordinaryClasses_leaves : Leaves gs mode OrdinaryClass where
  notParam := by rintro _ ⟨c,rfl,_⟩; rfl
  defined := by rintro _ _ _ ⟨c,rfl,_⟩ _; rfl
  total := by
    rintro _ _ ⟨c,rfl,left⟩ ⟨d,rfl,right⟩
    exact ⟨_,returns_single_classes left right⟩

theorem classTree_over {t : Ty} (classes : ClassTree t) : Over OrdinaryClass t := by
  induction t using ClassTree.induct with
  | case1 c =>
    intro a present
    cases List.mem_singleton.mp present
    exact ⟨c,rfl,classes⟩
  | case2 p l r left right => exact over_or.mpr ⟨left classes.1,right classes.2⟩
  | case3 p l r left right => exact over_and.mpr ⟨left classes.1,right classes.2⟩
  | case4 t notClass notOr notAnd => cases t <;> simp_all [ClassTree]

theorem satisfies_iff_holds {S : ClassOrModuleRef → Prop} {t : Ty} (classes : ClassTree t) :
    Satisfies S t ↔ (tree t).Holds (Satisfies S) := by
  induction t using ClassTree.induct with
  | case1 c => exact Iff.rfl
  | case2 p l r left right => exact or_congr (left classes.1) (right classes.2)
  | case3 p l r left right => exact and_congr (left classes.1) (right classes.2)
  | case4 t notClass notOr notAnd => cases t <;> simp_all [ClassTree]

end Classes

-- Subtyping of class trees ends, and a positive answer holds of every object.
theorem isSubType_classTree_sound (gs : GlobalState) (t1 t2 : Ty) (left : ClassTree t1) (right : ClassTree t2) :
    ∃ result, Returns (step gs) (.sub .alwaysCompatible t1 t2) result ∧
      (result = true → ∀ S, ClosedUnderAncestors gs S → Satisfies S t1 → Satisfies S t2) := by
  have over1 := classTree_over left
  have over2 := classTree_over right
  obtain ⟨result,returns⟩ : ∃ result, Returns (step gs) (.sub .alwaysCompatible t1 t2) result :=
    ordinaryClasses_leaves.sub_total over1 over2
  refine ⟨result,returns,?_⟩
  rintro rfl S closed
  rw [satisfies_iff_holds left,satisfies_iff_holds right]
  refine (ordinaryClasses_leaves.sub_iff over1 over2).mp returns |>.sound ?_
  rintro _ _ ⟨⟨c,rfl,one⟩,⟨d,rfl,other⟩,single⟩ present
  have good := single.unique (returns_single_classes one other)
  exact closed_classSymbolIsAsGoodAs closed present good.symm

-- Two classes, of which the second is a subclass of a third one and includes a module, and Array.
def sampleTable : GlobalState where
  superClass c := if c = 101 then some 102 else none
  mixins c := if c = 101 then [103] else []
  isLinearizationComputed _ := true
  isModule c := c == 103
  isFinal _ := false
  typeMembers c := if c = Symbols.Array then [1] else []
  name m := m
  variance _ := .coVariant
  bounds _ := some (bottom,top)
  isSCIPRuby := true
  rank c := if c = 101 then 1 else 0
  superClass_rank := by
    intro c p
    by_cases sub : c = 101
    · rw [if_pos sub,if_pos sub]; rintro ⟨⟩; decide
    · rw [if_neg sub]; nofun
  mixins_rank := by
    intro c m
    by_cases sub : c = 101
    · rw [if_pos sub,if_pos sub,List.mem_singleton]; rintro rfl; decide
    · rw [if_neg sub]; nofun

-- (100 | 101) & 103 against (103 & 100) | 102.
def sampleLeft : Ty := .andType 5 (.orType 6 (.classType 100) (.classType 101)) (.classType 103)
def sampleRight : Ty := .orType 7 (.andType 8 (.classType 103) (.classType 100)) (.classType 102)

theorem isSubType_classTree_sound_sample :
    Returns (step sampleTable) (.sub .alwaysCompatible sampleLeft sampleRight) true ∧
      ∀ S, ClosedUnderAncestors sampleTable S → Satisfies S sampleLeft → Satisfies S sampleRight := by
  have ordinary : Ordinary 100 ∧ Ordinary 101 ∧ Ordinary 102 ∧ Ordinary 103 := by decide
  obtain ⟨result,returns,sound⟩ := isSubType_classTree_sound sampleTable sampleLeft sampleRight
    ⟨⟨ordinary.1,ordinary.2.1⟩,ordinary.2.2.2⟩ ⟨⟨ordinary.2.2.2,ordinary.1⟩,ordinary.2.2.1⟩
  have accepted : Returns (step sampleTable) (.sub .alwaysCompatible sampleLeft sampleRight) true := ⟨9,by decide⟩
  exact ⟨accepted,sound (returns.unique accepted)⟩

end Types
