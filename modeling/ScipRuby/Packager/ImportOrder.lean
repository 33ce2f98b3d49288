import Mathlib.Data.Bool.Basic
import Mathlib.Data.Char
import Mathlib.Data.List.Lex
import ScipRuby.Lib.GradedOrder
import ScipRuby.Packager.PackageDB

namespace Packager

-- An import as the sort sees it. A strictness that is given replaces the package's own.
structure ImportItem (Name : Type) where
  info : PackageInfo Name
  isTestImport : Bool
  strictnessOverride : Option StrictDependenciesLevel

namespace ImportItem

def strictness {Name : Type} (item : ImportItem Name) : StrictDependenciesLevel :=
  item.strictnessOverride.getD item.info.strictDependenciesLevel

end ImportItem

namespace PackageInfo
variable {Name : Type}

section Comparison
variable (db : PackageDB Name) (this : PackageInfo Name) (show_ : Name → Text)

def causesLayeringViolation (otherPkgLayer : NameRef) : Bool :=
  match this.layer with
  | none => false
  | some pkgLayer => db.layerIndex pkgLayer < db.layerIndex otherPkgLayer

def orderByAlphabetical (a b : PackageInfo Name) : Int :=
  let aStrName := show_ a.mangledName
  let bStrName := show_ b.mangledName
  if aStrName = bStrName then 0 else if aStrName < bStrName then -1 else 1

-- The switch at the end of orderByStrictness. Where it raises for the level None, which
-- the caller has excluded, the result is 0.
def orderByLevel : StrictDependenciesLevel → StrictDependenciesLevel → StrictDependenciesLevel → Int
  | .None,_,_ => 0
  | .False,aStrictness,bStrictness =>
    match aStrictness with
    | .None => 0
    | .False => if bStrictness = .False then 0 else -1
    | .Layered | .LayeredDag | .Dag => if bStrictness = .False then 1 else 0
  | .Layered,aStrictness,bStrictness | .LayeredDag,aStrictness,bStrictness =>
    match aStrictness with
    | .None => 0
    | .False => if bStrictness = .False then 0 else -1
    | .Layered | .LayeredDag =>
      match bStrictness with
      | .None => 0
      | .False => 1
      | .Layered | .LayeredDag => 0
      | .Dag => -1
    | .Dag => if bStrictness = .Dag then 0 else 1
  | .Dag,aStrictness,bStrictness =>
    match aStrictness with
    | .None => 0
    | .False | .Layered | .LayeredDag => if bStrictness = .Dag then -1 else 0
    | .Dag => if bStrictness = .Dag then 0 else 1

def orderByStrictness (a : PackageInfo Name) (aStrictness : StrictDependenciesLevel) (b : PackageInfo Name)
    (bStrictness : StrictDependenciesLevel) : Int :=
  if !db.enforceLayering ∨ this.strictDependenciesLevel = .None ∨ aStrictness = .None ∨ bStrictness = .None then 0
  else
    match a.layer,b.layer with
    | some aLayer,some bLayer =>
      match this.causesLayeringViolation db aLayer,this.causesLayeringViolation db bLayer with
      | true,true => 0
      | true,false => -1
      | false,true => 1
      | false,false => orderByLevel this.strictDependenciesLevel aStrictness bStrictness
    | _,_ => 0

def orderImports (a b : ImportItem Name) : Int :=
  match a.isTestImport,b.isTestImport with
  | true,true => orderByAlphabetical show_ a.info b.info
  | true,false => 1
  | false,true => -1
  | false,false =>
    let strictnessCompareResult := this.orderByStrictness db a.info a.strictness b.info b.strictness
    if strictnessCompareResult = 0 then orderByAlphabetical show_ a.info b.info else strictnessCompareResult

end Comparison

-- The sections of the import list after the layering violations, counted from 1.
def levelSection : StrictDependenciesLevel → StrictDependenciesLevel → Nat
  | .False,.False => 1
  | .False,_ => 2
  | .Layered,.False | .LayeredDag,.False => 1
  | .Layered,.Layered | .Layered,.LayeredDag | .LayeredDag,.Layered | .LayeredDag,.LayeredDag => 2
  | .Layered,_ | .LayeredDag,_ => 3
  | .Dag,.Dag => 2
  | .Dag,_ => 1
  | .None,_ => 0

section Sections
variable (db : PackageDB Name) (this : PackageInfo Name) (show_ : Name → Text)

-- The section of an import, if its strictness and layer are compared at all.
def importSection (item : ImportItem Name) : Option Nat :=
  if item.isTestImport ∨ !db.enforceLayering ∨ this.strictDependenciesLevel = .None ∨ item.strictness = .None then none
  else item.info.layer.map fun layer =>
    if this.causesLayeringViolation db layer then 0 else levelSection this.strictDependenciesLevel item.strictness

-- An import without a section stands by name between two imports whose sections put
-- them the other way round.
def Tangled (imports : Set (ImportItem Name)) : Prop :=
  GradedOrder.Knot ImportItem.isTestImport (this.importSection db) (fun item => show_ item.info.mangledName) imports

end Sections

section Order
variable {db : PackageDB Name} {this : PackageInfo Name} {show_ : Name → Text} {a b : ImportItem Name}

def sign (m n : Nat) : Int := if m < n then -1 else if n < m then 1 else 0

theorem sign_neg (m n : Nat) : sign m n < 0 ↔ m < n := by
  unfold sign
  split
  · simp [*]
  · split <;> simp [*]

theorem sign_swap (m n : Nat) : sign m n = -sign n m := by
  unfold sign
  split <;> split <;> omega

theorem orderByLevel_eq (own : StrictDependenciesLevel) {aStrictness bStrictness : StrictDependenciesLevel}
    (aSet : aStrictness ≠ .None) (bSet : bStrictness ≠ .None) :
    orderByLevel own aStrictness bStrictness = sign (levelSection own aStrictness) (levelSection own bStrictness) := by
  revert aSet bSet
  cases own <;> cases aStrictness <;> cases bStrictness <;> decide

theorem levelSection_pos {own : StrictDependenciesLevel} (set : own ≠ .None) (level : StrictDependenciesLevel) :
    0 < levelSection own level := by
  revert set
  cases own <;> cases level <;> decide

-- The outcome of orderByStrictness, from the sections alone.
def compareSections : Option Nat → Option Nat → Int
  | some m,some n => sign m n
  | _,_ => 0

theorem compareSections_swap (m n : Option Nat) : compareSections m n = -compareSections n m := by
  cases m with
  | none => cases n <;> rfl
  | some m =>
    cases n with
    | none => rfl
    | some n => exact sign_swap m n

theorem compareSections_neg (m n : Option Nat) : compareSections m n < 0 ↔ ∃ g h, m = some g ∧ n = some h ∧ g < h := by
  cases m with
  | none => simp [compareSections]
  | some m =>
    cases n with
    | none => simp [compareSections]
    | some n => simp [compareSections,sign_neg]

theorem orderByStrictness_eq (aNormal : a.isTestImport = false) (bNormal : b.isTestImport = false) :
    this.orderByStrictness db a.info a.strictness b.info b.strictness
      = compareSections (this.importSection db a) (this.importSection db b) := by
  unfold orderByStrictness importSection
  rw [aNormal,bNormal]
  simp only [Bool.false_eq_true,false_or]
  by_cases off : !db.enforceLayering ∨ this.strictDependenciesLevel = .None
  · rw [if_pos (by tauto),if_pos (by tauto)]
    rfl
  by_cases aSet : a.strictness = .None
  · rw [if_pos (by tauto),if_pos (by tauto)]
    rfl
  by_cases bSet : b.strictness = .None
  · rw [if_pos (by tauto),if_neg (by tauto),if_pos (by tauto)]
    cases a.info.layer <;> rfl
  rw [if_neg (by tauto),if_neg (by tauto),if_neg (by tauto)]
  cases aLayer : a.info.layer with
  | none => rfl
  | some layer =>
    cases bLayer : b.info.layer with
    | none => rfl
    | some layer' =>
      have pos (level : StrictDependenciesLevel) : 0 < levelSection this.strictDependenciesLevel level :=
        levelSection_pos (by tauto) level
      cases aFirst : this.causesLayeringViolation db layer with
      | true =>
        cases bFirst : this.causesLayeringViolation db layer' with
        | true => simp [aFirst,bFirst,compareSections,sign]
        | false => simp [aFirst,bFirst,compareSections,sign,pos]
      | false =>
        cases bFirst : this.causesLayeringViolation db layer' with
        | true => simp [aFirst,bFirst,compareSections,sign,pos]
        | false => simp [aFirst,bFirst,compareSections,orderByLevel_eq this.strictDependenciesLevel aSet bSet]

theorem orderByAlphabetical_neg (a b : PackageInfo Name) :
    orderByAlphabetical show_ a b < 0 ↔ show_ a.mangledName < show_ b.mangledName := by
  rcases lt_trichotomy (show_ a.mangledName) (show_ b.mangledName) with less | equal | more
  · simp [orderByAlphabetical,less,ne_of_lt less]
  · simp [orderByAlphabetical,equal]
  · simp [orderByAlphabetical,ne_of_gt more,lt_asymm more]

theorem orderByAlphabetical_swap (a b : PackageInfo Name) :
    orderByAlphabetical show_ a b = -orderByAlphabetical show_ b a := by
  unfold orderByAlphabetical
  rcases lt_trichotomy (show_ a.mangledName) (show_ b.mangledName) with less | equal | more
  · simp [less,ne_of_lt less,ne_of_gt less,lt_asymm less]
  · simp [equal]
  · simp [more,ne_of_lt more,ne_of_gt more,lt_asymm more]

theorem orderImports_swap (a b : ImportItem Name) :
    this.orderImports db show_ a b = -this.orderImports db show_ b a := by
  unfold orderImports
  cases aTest : a.isTestImport with
  | true =>
    cases bTest : b.isTestImport with
    | true => exact orderByAlphabetical_swap a.info b.info
    | false => rfl
  | false =>
    cases bTest : b.isTestImport with
    | true => rfl
    | false =>
      simp only [orderByStrictness_eq aTest bTest,orderByStrictness_eq bTest aTest]
      rw [compareSections_swap (this.importSection db b)]
      by_cases level : compareSections (this.importSection db a) (this.importSection db b) = 0
      · rw [if_pos level,if_pos (Int.neg_eq_zero.mpr level)]
        exact orderByAlphabetical_swap a.info b.info
      · rw [if_neg level,if_neg (mt Int.neg_eq_zero.mp level)]
        exact (Int.neg_neg _).symm

theorem importSection_test (test : a.isTestImport = true) : this.importSection db a = none := if_pos (.inl test)

-- What the sort sees is the graded order: test imports last, then the sections, then the names.
theorem orderImports_neg (a b : ImportItem Name) : this.orderImports db show_ a b < 0 ↔
    GradedOrder.Before ImportItem.isTestImport (this.importSection db) (fun item => show_ item.info.mangledName) a b := by
  unfold orderImports GradedOrder.Before GradedOrder.Level GradedOrder.Ahead
  cases aTest : a.isTestImport with
  | true =>
    cases bTest : b.isTestImport with
    | true => simp [orderByAlphabetical_neg,importSection_test aTest]
    | false => simp
  | false =>
    cases bTest : b.isTestImport with
    | true => simp
    | false =>
      simp only [orderByStrictness_eq aTest bTest,lt_irrefl,false_or,true_and,← compareSections_neg]
      rw [compareSections_swap (this.importSection db b)]
      split
      · rename_i level
        simp [level,orderByAlphabetical_neg]
      · omega

end Order

section Sorting
variable {Name : Type} (db : PackageDB Name) (this : PackageInfo Name) (show_ : Name → Text)

theorem orderImports_strictWeakOrder_iff (imports : Set (ImportItem Name)) :
    (IsStrictWeakOrder imports (fun a b => this.orderImports db show_ a.1 b.1 < 0) ∧
      ∀ a ∈ imports, ∀ b ∈ imports, this.orderImports db show_ a b = -this.orderImports db show_ b a) ↔
      ¬this.Tangled db show_ imports := by
  unfold Tangled
  rw [← GradedOrder.strictWeakOrder_iff]
  simp only [← orderImports_neg]
  exact and_iff_left fun a _ b _ => orderImports_swap a b

end Sorting

-- Package 1 has no level, package 2 is false and package 3 is dag; their names put them
-- in the order 3, 1, 2.
def tangledInfo (name : Nat) (level : StrictDependenciesLevel) : PackageInfo Nat :=
  {mangledName := name,packagePathPrefixes := [],importedPackageNames := [],exportAll := false,layer := some 0,
    sccID := none,strictDependenciesLevel := level}

def tangledDB : PackageDB Nat := PackageDB.initial.setPackagerOptions {PackagerOptions.initial with layers := [0]}

def tangledItem (name : Nat) (level : StrictDependenciesLevel) : ImportItem Nat := ⟨tangledInfo name level,false,none⟩

def tangledShow : Nat → Text
  | 1 => ['B']
  | 2 => ['C']
  | 3 => ['A']
  | _ => []

def tangledImports : Set (ImportItem Nat) := {tangledItem 1 .None,tangledItem 2 .False,tangledItem 3 .Dag}

theorem orderImports_not_transitive : ¬IsStrictWeakOrder tangledImports
    (fun a b => (tangledInfo 0 .Layered).orderImports tangledDB tangledShow a.1 b.1 < 0) := by
  intro weak
  have skips : ¬(tangledInfo 0 .Layered).orderImports tangledDB tangledShow (tangledItem 1 .None) (tangledItem 3 .Dag) < 0 := by
    decide
  exact skips (weak.trans ⟨tangledItem 1 .None,.inl rfl⟩ ⟨tangledItem 2 .False,.inr (.inl rfl)⟩
    ⟨tangledItem 3 .Dag,.inr (.inr rfl)⟩ (by decide) (by decide))

end PackageInfo

end Packager
