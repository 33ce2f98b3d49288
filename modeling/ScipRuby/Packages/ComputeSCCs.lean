import ScipRuby.Packages.Condensation

namespace Packages

structure Import (Name : Type) where
  mangledName : Name
  type : ImportType

-- A package exists if it is listed. A package file in a test directory always counts as using test packages.
structure PackageDB (Name : Type) where
  packages : List Name
  usesTestPackages : Name → Bool
  isTestPackage : Name → Bool
  isPreludePackage : Name → Bool
  uses : ∀ p, isTestPackage p = true → usesTestPackages p = true

inductive GraphKind where
  | PackageDBPackageGraph
  | ReferencesPackageGraph

-- nameExists is MangledName::exists, which an import of something that is not a package fails.
structure PackageGraph (Name : Type) (db : PackageDB Name) where
  kind : GraphKind
  getImports : Name → List (Import Name)
  nameExists : Name → Bool
  resolved : ∀ p ∈ db.packages, ∀ i ∈ getImports p, nameExists i.mangledName = true → i.mangledName ∈ db.packages

structure NodeInfo where
  index : Nat
  lowLink : Nat
  onStack : Bool

-- The ids kept by the PackageInfos, and those in the nodeMap of a ReferencesPackageGraph, where an absent entry is 0.
structure SccIds (Name : Type) where
  sccID : Name → Option Nat
  testSccID : Name → Option Nat
  sccId : Name → Nat
  testSccId : Name → Nat

variable {Name : Type} [DecidableEq Name]

namespace GraphKind

-- The empty case is value() of an optional without value.
def getSCCId (ids : SccIds Name) (p : Name) : GraphKind → Option Nat
  | PackageDBPackageGraph => ids.sccID p
  | ReferencesPackageGraph => some (ids.sccId p)

def getTestSCCId (ids : SccIds Name) (p : Name) : GraphKind → Option Nat
  | PackageDBPackageGraph => ids.testSccID p
  | ReferencesPackageGraph => some (ids.testSccId p)

def setSCCId (ids : SccIds Name) (p : Name) (id : Nat) : GraphKind → SccIds Name
  | PackageDBPackageGraph => {ids with sccID := Function.update ids.sccID p (some id)}
  | ReferencesPackageGraph => {ids with sccId := Function.update ids.sccId p id}

def setTestSCCId (ids : SccIds Name) (p : Name) (id : Nat) : GraphKind → SccIds Name
  | PackageDBPackageGraph => {ids with testSccID := Function.update ids.testSccID p (some id)}
  | ReferencesPackageGraph => {ids with testSccId := Function.update ids.testSccId p id}

end GraphKind

-- An absent entry of nodeMap is like one that has not been visited. The stack has its top first.
structure ComputePackageSCCs (Name : Type) where
  nextIndex : Nat
  nodeMap : Name → NodeInfo
  stack : List Name
  condensation : Condensation Name
  ids : SccIds Name

namespace ComputePackageSCCs

def unvisited : NodeInfo := ⟨0,0,false⟩

def start (ids : SccIds Name) : ComputePackageSCCs Name := ⟨1,fun _ => unvisited,[],[],ids⟩

def index (s : ComputePackageSCCs Name) (p : Name) : Nat := (s.nodeMap p).index

def enter (s : ComputePackageSCCs Name) (pkgName : Name) : ComputePackageSCCs Name :=
  {s with nodeMap := Function.update s.nodeMap pkgName ⟨s.nextIndex,s.nextIndex,true⟩,nextIndex := s.nextIndex + 1,
          stack := pkgName :: s.stack}

def lower (s : ComputePackageSCCs Name) (pkgName : Name) (link : Nat) : ComputePackageSCCs Name :=
  let info := s.nodeMap pkgName
  {s with nodeMap := Function.update s.nodeMap pkgName {info with lowLink := min info.lowLink link}}

-- Whether a pass over edges of the given type follows an import.
def considers (edge : ImportType) (i : Import Name) : Bool := edge ≠ .Normal || i.type = .Normal

def visitImport (strongConnect : Name → ComputePackageSCCs Name → Option (ComputePackageSCCs Name)) (edge : ImportType)
    (pkgName : Name) (s : ComputePackageSCCs Name) (i : Import Name) : Option (ComputePackageSCCs Name) :=
  if !considers edge i then some s
  else if s.index i.mangledName = 0 then do
    let s ← strongConnect i.mangledName s
    if s.index i.mangledName = 0 then some s else some (s.lower pkgName (s.nodeMap i.mangledName).lowLink)
  else if (s.nodeMap i.mangledName).onStack then some (s.lower pkgName (s.index i.mangledName))
  else some s

-- What is popped until pkgName has been popped, and what stays.
def popUntil (pkgName : Name) : List Name → List Name × List Name
  | [] => ([],[])
  | p :: stack => if p = pkgName then ([p],stack) else ((p :: (popUntil pkgName stack).1),(popUntil pkgName stack).2)

def insertImport (imports : List Nat) (id : Nat) : List Nat := if id ∈ imports then imports else imports ++ [id]

section Graph
variable {db : PackageDB Name} (graph : PackageGraph Name db) (edge : ImportType)

def setId (ids : SccIds Name) (p : Name) (id : Nat) : SccIds Name :=
  if edge = .Normal then graph.kind.setSCCId ids p id else graph.kind.setTestSCCId ids p id

def getId (ids : SccIds Name) (p : Name) : Option Nat :=
  if edge = .Normal then graph.kind.getSCCId ids p else graph.kind.getTestSCCId ids p

-- A popped package becomes a member. In the second pass its node depends on the application node of the package.
def settle (sccId : Nat) (acc : ComputePackageSCCs Name × List Nat) (p : Name) : Option (ComputePackageSCCs Name × List Nat) := do
  let (s,imports) := acc
  let ids := setId graph edge s.ids p sccId
  let s := {s with nodeMap := Function.update s.nodeMap p {s.nodeMap p with onStack := false},ids := ids}
  if edge ≠ .Normal ∧ ¬ db.isTestPackage p then
    let appSccId ← graph.kind.getSCCId ids p
    some (s,insertImport imports appSccId)
  else some (s,imports)

def link (ids : SccIds Name) (sccId : Nat) (imports : List Nat) (i : Import Name) : Option (List Nat) :=
  if !graph.nameExists i.mangledName then some imports
  else if !considers edge i then some imports
  else do
    let impId ← getId graph edge ids i.mangledName
    if impId = sccId then some imports else some (insertImport imports impId)

def linkMember (ids : SccIds Name) (sccId : Nat) (imports : List Nat) (name : Name) : Option (List Nat) :=
  (graph.getImports name).foldlM (link graph edge ids sccId) imports

def closeScc (s : ComputePackageSCCs Name) (pkgName : Name) : Option (ComputePackageSCCs Name) := do
  let node := CondensationBuilder.pushNode s.condensation edge (db.isPreludePackage pkgName)
  let (members,stack) := popUntil pkgName s.stack
  let (s,imports) ← members.foldlM (settle graph edge node.id) ({s with stack := stack},[])
  let imports ← members.foldlM (linkMember graph edge s.ids node.id) imports
  some {s with condensation := s.condensation ++ [{node with members := members,imports := imports}]}

def strongConnect : Nat → Name → ComputePackageSCCs Name → Option (ComputePackageSCCs Name)
  | 0,_,_ => none
  | fuel + 1,pkgName,s =>
    if pkgName ∉ db.packages then some s
    else do
      let s ← (graph.getImports pkgName).foldlM (visitImport (strongConnect fuel) edge pkgName) (s.enter pkgName)
      if s.index pkgName = (s.nodeMap pkgName).lowLink then closeScc graph edge s pkgName else some s

def skips (db : PackageDB Name) (edge : ImportType) (package : Name) : Bool :=
  if edge = .Normal then db.isTestPackage package else db.usesTestPackages package && !db.isTestPackage package

def tarjan (fuel : Nat) (s : ComputePackageSCCs Name) : Option (ComputePackageSCCs Name) :=
  db.packages.foldlM (fun s package =>
    if skips db edge package then some s
    else if s.index package = 0 then strongConnect graph edge fuel package s else some s) s

-- Between the passes. An existing package has an entry in nodeMap if it has been visited.
def reuse (ids : SccIds Name) (p : Name) : Option (SccIds Name) := do
  let sccId ← graph.kind.getSCCId ids p
  some (graph.kind.setTestSCCId ids p sccId)

def cleanOut (s : ComputePackageSCCs Name) : Option (ComputePackageSCCs Name) := do
  let ids ← (db.packages.filter fun p => db.usesTestPackages p && s.index p != 0).foldlM (reuse graph) s.ids
  some {s with nodeMap := fun p => if p ∈ db.packages ∧ db.usesTestPackages p then s.nodeMap p else unvisited,ids := ids}

def matchIds (ids : SccIds Name) (p : Name) : Option (SccIds Name) :=
  if db.usesTestPackages p ∧ ids.sccID p = none then do
    let testSCCId ← graph.kind.getTestSCCId ids p
    some (graph.kind.setSCCId ids p testSCCId)
  else some ids

-- The finished condensation and the ids.
def run (fuel : Nat) (ids : SccIds Name) : Option (Condensation Name × SccIds Name) := do
  let s ← tarjan graph .Normal fuel (start ids)
  let s ← cleanOut graph s
  let s ← tarjan graph .TestHelper fuel s
  let ids ← db.packages.foldlM (matchIds graph) s.ids
  some (CondensationBuilder.build s.condensation,ids)

end Graph
end ComputePackageSCCs
end Packages
