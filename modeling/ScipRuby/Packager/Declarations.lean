import Mathlib.Order.Lattice
import ScipRuby.Packager.ImportOrder

namespace Packager

namespace StrictDependenciesLevel

-- The levels in the order in which the source declares them.
def rank : StrictDependenciesLevel → Nat
  | .None => 0
  | .False => 1
  | .Layered => 2
  | .LayeredDag => 3
  | .Dag => 4

theorem rank_injective : Function.Injective rank := by
  intro a b
  cases a <;> cases b <;> decide

instance : LinearOrder StrictDependenciesLevel := LinearOrder.lift' rank rank_injective

end StrictDependenciesLevel

def strictDependenciesLevelToString : StrictDependenciesLevel → Text
  | .None => "none".toList
  | .False => "false".toList
  | .Layered => "layered".toList
  | .LayeredDag => "layered_dag".toList
  | .Dag => "dag".toList

inductive VisibleToType where
  | Normal
  | Wildcard
  deriving DecidableEq,Repr

structure VisibleTo (Name : Type) where
  mangledName : Name
  type : VisibleToType

-- What a package file declares besides its layer, its level and its imports. The directives
-- and the typed levels are there as they are printed.
structure Declarations (Name : Type) where
  preludePackage : Bool
  usesTestPackages : Bool
  testPackage : Bool
  extraDirectives : List Text
  minTypedLevel : Option Text
  testsMinTypedLevel : Option Text
  exports : List Text
  visibleTo : List (VisibleTo Name)
  visibleToTests : Bool

namespace Declarations

def initial {Name : Type} : Declarations Name := ⟨false,false,false,[],none,none,[],[],false⟩

end Declarations

namespace PackageInfo
variable {Name : Type} (this : PackageInfo Name)

def importsPackage [DecidableEq Name] (name : Name) : Option (Import Name) :=
  this.importedPackageNames.find? fun imp => imp.mangledName = name

-- The other overload of causesLayeringViolation, which takes the package.
def causesLayeringViolationOf (db : PackageDB Name) (otherPkg : PackageInfo Name) : Bool :=
  otherPkg.layer.elim false (this.causesLayeringViolation db)

end PackageInfo

end Packager
