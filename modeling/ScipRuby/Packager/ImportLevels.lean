import ScipRuby.Packages.CodeGraph
import ScipRuby.Packager.BestStrictness
import ScipRuby.Packager.Declarations
import ScipRuby.Packager.Dependents

namespace Packager
open Packages Packages.ComputePackageSCCs Relation Condensations
variable {Name : Type}

section RunStrict
variable [DecidableEq Name] {db : Packages.PackageDB Name} (graph : PackageGraph Name db) (pdb : PackageDB Name)
variable (numFilesInPackage : Name → Nat)

-- A package that does not exist, which ENFORCE excludes, has no level.
def currentLevel (pkgName : Name) : StrictDependenciesLevel :=
  (pdb.getPackageInfo pkgName).elim .None PackageInfo.strictDependenciesLevel

def skipRaisingStrictness (scc : Node Name) : Bool := scc.members.any fun pkgName => numFilesInPackage pkgName = 0

def newLevel (nodes : Condensation Name) (ids : SccIds Name) (bestStrictness : Nat → StrictDependenciesLevel) (pkgName : Name) :
    StrictDependenciesLevel :=
  let sccID := nodeOf graph ids (pkgName,false)
  if bestStrictness sccID < currentLevel pdb pkgName ∨ nodes[sccID]?.any (skipRaisingStrictness numFilesInPackage) then
    currentLevel pdb pkgName
  else bestStrictness sccID

-- The levels that runStrict gives to the packages. Nothing where an ENFORCE fails.
def newStrictnessByPkg (fuel : Nat) (ids : SccIds Name) : Option (Name → StrictDependenciesLevel) := do
  let (nodes,ids) ← run graph fuel ids
  let best := computeBestStrictness pdb nodes
  if best.failed then none else some (newLevel graph pdb numFilesInPackage nodes ids best.bestStrictness)

end RunStrict

section Rules
variable (pdb : PackageDB Name) (E : Name → Name → Prop)

-- The second package is in a higher layer than the first.
def Rises (p q : Name) : Prop :=
  ∃ low high, layerOf pdb p = some low ∧ layerOf pdb q = some high ∧ pdb.layerIndex low < pdb.layerIndex high

-- A package that leads to one without a layer, or to an import of a higher layer.
def Broken (p : Name) : Prop := ∃ q, ReflTransGen E p q ∧ (layerOf pdb q = none ∨ ∃ r, E q r ∧ Rises pdb q r)

def InCycle (p : Name) : Prop := ∃ q, q ≠ p ∧ Mutual E p q

-- The level that a package's imports allow.
structure Earns (p : Name) (level : StrictDependenciesLevel) : Prop where
  broken : level = .False ↔ Broken pdb E p
  cyclic : level = .Layered ↔ ¬Broken pdb E p ∧ InCycle E p
  overCycle : level = .LayeredDag ↔ ¬Broken pdb E p ∧ ¬InCycle E p ∧ ∃ q, ReflTransGen E p q ∧ InCycle E q
  dag : level = .Dag ↔ ¬Broken pdb E p ∧ ∀ q, ReflTransGen E p q → ¬InCycle E q
  given : level ≠ .None

end Rules

section Layers
variable {pdb : PackageDB Name} {E : Name → Name → Prop} {p q r : Name} (unbroken : ¬Broken pdb E p)
include unbroken

theorem layered_of_path (path : ReflTransGen E p q) : ∃ layer, layerOf pdb q = some layer :=
  Option.ne_none_iff_exists'.mp fun bare => unbroken ⟨q,path,.inl bare⟩

theorem position_falls (path : ReflTransGen E p q) (edge : E q r) :
    layerPosition pdb (layerOf pdb r) ≤ layerPosition pdb (layerOf pdb q) := by
  obtain ⟨low,lowest⟩ := layered_of_path unbroken path
  obtain ⟨high,highest⟩ := layered_of_path unbroken (path.tail edge)
  rw [lowest,highest]
  by_contra rises
  exact unbroken ⟨q,path,.inr ⟨r,edge,low,high,lowest,highest,Nat.lt_of_not_le rises⟩⟩

-- Along a cycle the layer cannot fall and come back.
theorem layer_same (listed : ∀ layer, layerOf pdb q = some layer → layer ∈ pdb.layers) (path : ReflTransGen E p q)
    (cycle : Mutual E q r) : layerOf pdb q = layerOf pdb r := by
  obtain ⟨layer,found⟩ := layered_of_path unbroken path
  obtain ⟨layer',found'⟩ := layered_of_path unbroken (path.trans cycle.1)
  have down : layerPosition pdb (layerOf pdb r) ≤ layerPosition pdb (layerOf pdb q) :=
    @path_le _ E (fun p => layerPosition pdb (layerOf pdb p)) _ _
      (fun _ _ further edge => position_falls unbroken (path.trans further) edge) cycle.1
  have up : layerPosition pdb (layerOf pdb q) ≤ layerPosition pdb (layerOf pdb r) :=
    @path_le _ E (fun p => layerPosition pdb (layerOf pdb p)) _ _
      (fun _ _ further edge => position_falls unbroken ((path.trans cycle.1).trans further) edge) cycle.2
  have level := Nat.le_antisymm up down
  rw [found,found'] at level ⊢
  exact congrArg some ((List.idxOf_inj (listed layer found)).mp level)

end Layers

theorem one_lt_length_iff {α : Type} {l : List α} {x : α} (distinct : l.Nodup) (here : x ∈ l) : 1 < l.length ↔ ∃ y ∈ l, y ≠ x := by
  constructor
  · intro several
    by_contra alone
    have only : ∀ y ∈ l, y = x := fun y member => not_not.mp fun other => alone ⟨y,member,other⟩
    rcases l with _ | ⟨first,_ | ⟨second,rest⟩⟩
    · cases here
    · exact Nat.lt_irrefl 1 several
    · have same := (only first List.mem_cons_self).trans (only second (List.mem_cons_of_mem _ List.mem_cons_self)).symm
      exact (List.nodup_cons.mp distinct).1 (same ▸ List.mem_cons_self)
  · rintro ⟨y,member,other⟩
    rcases l with _ | ⟨first,_ | ⟨second,rest⟩⟩
    · cases here
    · exact absurd ((List.mem_singleton.mp member).trans (List.mem_singleton.mp here).symm) other
    · exact Nat.succ_lt_succ (Nat.succ_pos _)

section Nodes
variable {db : Packages.PackageDB Name} {graph : PackageGraph Name db} {nodes : Condensation Name} {ids : SccIds Name}
variable {pdb : PackageDB Name} {p q : Name} {level : StrictDependenciesLevel}
variable (gathered : Gathered graph nodes ids) (configured : ∀ p ∈ db.packages, ∀ layer, layerOf pdb p = some layer → layer ∈ pdb.layers)
include gathered

-- Application code by itself.
theorem application_condenses :
    Condenses (fun p => p ∈ db.packages) (NormalImport graph) (fun p => nodeOf graph ids (p,false)) (Imports nodes) where
  closed := fun _ _ _ edge => edge.1
  strong := by
    intro p q here there
    rw [gathered.condenses.strong (p,false) (q,false) here there,application_path,application_path]
    exact and_congr (and_iff_right rfl) (and_iff_right rfl)
  edges := by
    intro p j here
    refine (gathered.condenses.edges (p,false) j here).trans ⟨?_,?_⟩
    · rintro ⟨⟨q,kind⟩,e,there,same,edge,found,other⟩
      obtain ⟨rfl,_⟩ := application_path.mp ((gathered.condenses.strong _ _ there here).mp same).2
      cases edge with
      | normal edge => exact ⟨q,_,there,same,edge,found,other⟩
    · rintro ⟨q,r,there,same,edge,found,other⟩
      exact ⟨(q,false),(r,false),there,same,.normal edge,found,other⟩

theorem mem_members_iff (here : p ∈ db.packages) : q ∈ nodes.members (nodeOf graph ids (p,false)) ↔
    q ∈ db.packages ∧ Mutual (NormalImport graph) p q := by
  rw [gathered.members (p,false) here]
  refine and_congr_right fun there => eq_comm.trans ?_
  exact (application_condenses gathered).strong p q here there

theorem self_mem (here : p ∈ db.packages) : p ∈ nodes.members (nodeOf graph ids (p,false)) :=
  (mem_members_iff gathered here).mpr ⟨here,.refl,.refl⟩

theorem violating_of_broken (here : p ∈ db.packages) (broken : Broken pdb (NormalImport graph) p) :
    Violating pdb nodes (nodeOf graph ids (p,false)) := by
  have condenses := application_condenses gathered
  obtain ⟨q,path,reason⟩ := broken
  have there := condenses.path_present here path
  refine ⟨_,condenses.path_up here path,?_⟩
  rcases reason with bare | ⟨r,edge,low,high,lowest,highest,less⟩
  · exact .inl (.inl ⟨q,self_mem gathered there,bare⟩)
  · have beyond := condenses.closed _ _ there edge
    by_cases same : nodeOf graph ids (r,false) = nodeOf graph ids (q,false)
    · refine .inl (.inr ⟨q,self_mem gathered there,r,same ▸ self_mem gathered beyond,fun equal => ?_⟩)
      rw [lowest,highest,Option.some_inj] at equal
      exact Nat.ne_of_lt less (congrArg pdb.layerIndex equal)
    · have imports := (condenses.edges q _ there).mpr ⟨q,r,there,rfl,edge,rfl,same⟩
      exact .inr ⟨_,imports,q,self_mem gathered there,r,self_mem gathered beyond,low,high,lowest,highest,less⟩

include configured in
theorem broken_of_violating (here : p ∈ db.packages) (violating : Violating pdb nodes (nodeOf graph ids (p,false))) :
    Broken pdb (NormalImport graph) p := by
  have condenses := application_condenses gathered
  by_contra unbroken
  obtain ⟨j,down,reason⟩ := violating
  obtain ⟨q,there,rfl,path⟩ := condenses.path_down here down
  -- A node has one layer.
  have same {q m : Name} (there : q ∈ db.packages) (path : ReflTransGen (NormalImport graph) p q)
      (inside : m ∈ nodes.members (nodeOf graph ids (q,false))) : layerOf pdb q = layerOf pdb m :=
    layer_same unbroken (configured q there) path ((mem_members_iff gathered there).mp inside).2
  rcases reason with (⟨m,inside,bare⟩ | ⟨m,inside,m',inside',differ⟩) | ⟨_,edge,m,inside,m',inside',low,high,lowest,highest,less⟩
  · obtain ⟨layer,found⟩ := layered_of_path unbroken path
    rw [same there path inside,bare] at found
    cases found
  · exact differ ((same there path inside).symm.trans (same there path inside'))
  · obtain ⟨y,z,present,together,step,rfl,_⟩ := (condenses.edges q _ there).mp edge
    have path' := path.trans ((condenses.strong y q present there).mp together).2
    have beyond := condenses.closed _ _ present step
    have falls := position_falls unbroken path' step
    have own : m ∈ nodes.members (nodeOf graph ids (y,false)) := by rwa [together]
    rw [same present path' own,same beyond (path'.tail step) inside',lowest,highest] at falls
    exact Nat.not_lt.mpr falls less

theorem several_iff (here : p ∈ db.packages) :
    1 < (nodes.members (nodeOf graph ids (p,false))).length ↔ InCycle (NormalImport graph) p := by
  rw [one_lt_length_iff (gathered.distinct _) (self_mem gathered here)]
  constructor
  · rintro ⟨q,inside,other⟩
    exact ⟨q,other,((mem_members_iff gathered here).mp inside).2⟩
  · rintro ⟨q,other,cycle⟩
    have there := (application_condenses gathered).path_present here cycle.1
    exact ⟨q,(mem_members_iff gathered here).mpr ⟨there,cycle⟩,other⟩

theorem single_iff (here : p ∈ db.packages) :
    (nodes.members (nodeOf graph ids (p,false))).length = 1 ↔ ¬InCycle (NormalImport graph) p := by
  have positive := List.length_pos_of_mem (self_mem gathered here)
  rw [← several_iff gathered here]
  omega

theorem acyclic_iff_packages (here : p ∈ db.packages) :
    Acyclic nodes (nodeOf graph ids (p,false)) ↔ ∀ q, ReflTransGen (NormalImport graph) p q → ¬InCycle (NormalImport graph) q := by
  have condenses := application_condenses gathered
  constructor
  · intro acyclic q path
    exact (single_iff gathered (condenses.path_present here path)).mp (acyclic _ (condenses.path_up here path))
  · intro free j down
    obtain ⟨q,there,rfl,path⟩ := condenses.path_down here down
    exact (single_iff gathered there).mpr (free q path)

include configured in
-- The best level of a node is the one its packages earn.
theorem best_earned (here : p ∈ db.packages) (best : Best pdb nodes (nodeOf graph ids (p,false)) level) :
    Earns pdb (NormalImport graph) p level := by
  have violating : Violating pdb nodes (nodeOf graph ids (p,false)) ↔ Broken pdb (NormalImport graph) p :=
    ⟨broken_of_violating gathered configured here,violating_of_broken gathered here⟩
  have acyclic := acyclic_iff_packages gathered here
  constructor
  · exact best.violating.trans violating
  · rw [best.cyclic,violating,several_iff gathered here]
  · rw [best.otherwise,violating,single_iff gathered here,acyclic]
    simp only [not_forall,not_not,exists_prop]
  · rw [best.acyclic,violating,single_iff gathered here,acyclic]
    exact and_congr_right fun _ => and_iff_right_of_imp fun free => free p .refl
  · exact best.given

end Nodes

section Result
variable [DecidableEq Name] {db : Packages.PackageDB Name} {graph : PackageGraph Name db} {nodes : Condensation Name} {ids : SccIds Name}
variable {pdb : PackageDB Name} {p : Name}

omit [DecidableEq Name] in
theorem gathered_ordered (gathered : Gathered graph nodes ids) (condensed : Condensed graph nodes ids)
    (configured : ∀ p ∈ db.packages, ∀ layer, layerOf pdb p = some layer → layer ∈ pdb.layers) : Ordered pdb nodes where
  ids := fun i node at_ => (condensed.smaller i node at_).1
  earlier := fun i node at_ => (condensed.smaller i node at_).2
  inhabited := by
    intro node listed
    obtain ⟨i,at_⟩ := List.mem_iff_getElem?.mp listed
    obtain ⟨c,here,rfl⟩ := gathered.covered i (List.getElem?_eq_some_iff.mp at_).1
    have inside := (gathered.members c here c.1).mpr ⟨here,rfl⟩
    rw [members_at at_] at inside
    exact List.ne_nil_of_mem inside
  configured := by
    intro node listed p inside
    obtain ⟨i,at_⟩ := List.mem_iff_getElem?.mp listed
    obtain ⟨c,here,rfl⟩ := gathered.covered i (List.getElem?_eq_some_iff.mp at_).1
    exact configured p ((gathered.members c here p).mp (by rwa [members_at at_])).1

omit [DecidableEq Name] in
-- A component without files to speak for one of its packages.
theorem skips_iff (gathered : Gathered graph nodes ids) (numFilesInPackage : Name → Nat) (here : p ∈ db.packages) :
    nodes[nodeOf graph ids (p,false)]?.any (skipRaisingStrictness numFilesInPackage) = true ↔
      ∃ q, Mutual (NormalImport graph) p q ∧ numFilesInPackage q = 0 := by
  have at_ := List.getElem?_eq_getElem (gathered.inside (p,false) here)
  have members (q : Name) := mem_members_iff (q := q) gathered here
  rw [at_,Option.any_some,skipRaisingStrictness,List.any_eq_true]
  simp only [members_at at_] at members
  simp only [members,decide_eq_true_eq]
  constructor
  · rintro ⟨q,⟨_,cycle⟩,none_⟩
    exact ⟨q,cycle,none_⟩
  · rintro ⟨q,cycle,none_⟩
    exact ⟨q,⟨(application_condenses gathered).path_present here cycle.1,cycle⟩,none_⟩

end Result

theorem newStrictnessByPkg_earned [DecidableEq Name] {db : Packages.PackageDB Name} (graph : PackageGraph Name db) (pdb : PackageDB Name)
    (numFilesInPackage : Name → Nat) (ids : SccIds Name) (fuel : Nat) (enough : db.packages.length < fuel)
    (plain : ∀ p ∈ db.packages, db.usesTestPackages p = false) (named : ∀ p ∈ db.packages, graph.nameExists p = true)
    (configured : ∀ p ∈ db.packages, ∀ layer, layerOf pdb p = some layer → layer ∈ pdb.layers) :
    ∃ levels, newStrictnessByPkg graph pdb numFilesInPackage fuel ids = some levels ∧
      ∀ p ∈ db.packages, ∃ level, Earns pdb (NormalImport graph) p level ∧
        ((level < currentLevel pdb p ∨ ∃ q, Mutual (NormalImport graph) p q ∧ numFilesInPackage q = 0) → levels p = currentLevel pdb p) ∧
        (currentLevel pdb p ≤ level → (∀ q, Mutual (NormalImport graph) p q → numFilesInPackage q ≠ 0) → levels p = level) := by
  obtain ⟨app,clean,last,ids',run,phases⟩ := run_phases graph ids enough
  have gathered := (phases.gathered plain named).build
  have ordered := gathered_ordered gathered (phases.condensed plain) configured
  have settled := settled_take ordered (Nat.le_refl _)
  rw [List.take_length] at settled
  refine ⟨newLevel graph pdb numFilesInPackage (CondensationBuilder.build last.condensation) ids'
    (computeBestStrictness pdb (CondensationBuilder.build last.condensation)).bestStrictness,?_,fun p here => ?_⟩
  · rw [newStrictnessByPkg,run,Option.bind_eq_bind,Option.bind_some]
    exact if_neg (Bool.eq_false_iff.mp settled.failed)
  · have best := settled.done _ (gathered.inside (p,false) here)
    refine ⟨_,best_earned gathered configured here best,fun keeps => if_pos ?_,fun high full => if_neg ?_⟩
    · exact keeps.imp_right (skips_iff gathered numFilesInPackage here).mpr
    · rintro (low | skips)
      · exact absurd low (not_lt_of_ge high)
      · obtain ⟨q,cycle,none_⟩ := (skips_iff gathered numFilesInPackage here).mp skips
        exact full q cycle none_

def noIds : SccIds Nat := ⟨fun _ => none,fun _ => none,fun _ => 0,fun _ => 0⟩

-- The package 1 is in the higher of two layers.
def fallingDB : PackageDB Nat :=
  {PackageDB.initial with options := {PackagerOptions.initial with layers := [5,6]},
                          packages_ := fun p => if p = 1 then some (layeredInfo 1 6) else some (layeredInfo p 5)}

theorem newStrictnessByPkg_falling : ¬Broken fallingDB (NormalImport plainGraph) 1 ∧ ¬InCycle (NormalImport plainGraph) 1 := by
  have configured : ∀ p ∈ plainDB.packages, ∀ layer, layerOf fallingDB p = some layer → layer ∈ fallingDB.layers := by
    intro p _ layer found
    unfold layerOf fallingDB PackageDB.getPackageInfo at found
    dsimp only at found
    split at found
    · cases found
      decide
    · cases found
      decide
  obtain ⟨levels,done,earned⟩ := newStrictnessByPkg_earned plainGraph fallingDB (fun _ => 1) noIds 4 (by decide)
    (fun _ _ => rfl) (by decide) configured
  obtain ⟨level,earns,_,raised⟩ := earned 1 (by decide)
  have dag : (newStrictnessByPkg plainGraph fallingDB (fun _ => 1) 4 noIds).map (fun levels => levels 1) = some .Dag := by decide
  have lowest : currentLevel fallingDB 1 ≤ level := Nat.zero_le level.rank
  rw [done,Option.map_some,Option.some_inj,raised lowest fun _ _ => Nat.one_ne_zero] at dag
  obtain ⟨unbroken,free⟩ := earns.dag.mp dag
  exact ⟨unbroken,free 1 .refl⟩

-- The ids that a run left, as the package table holds them.
def Holds (pdb : PackageDB Name) {db : Packages.PackageDB Name} (graph : PackageGraph Name db) (ids : SccIds Name) : Prop :=
  ∀ p ∈ db.packages, ∃ info, pdb.getPackageInfo p = some info ∧ info.sccID = graph.kind.getSCCId ids p

theorem transitiveDependentsOf_importers [DecidableEq Name] {db : Packages.PackageDB Name} (graph : PackageGraph Name db)
    (ids : SccIds Name) (fuel : Nat) (enough : db.packages.length < fuel) (few : 2 * db.packages.length ≤ 2 ^ 31)
    (plain : ∀ p ∈ db.packages, db.usesTestPackages p = false) (named : ∀ p ∈ db.packages, graph.nameExists p = true) :
    ∃ nodes ids', run graph fuel ids = some (nodes,ids') ∧ ∀ (pdb : PackageDB Name) (packages : List Name) (fuel' : Nat),
      Holds pdb graph ids' → (∀ p ∈ packages, p ∈ db.packages) → 2 * db.packages.length + 2 ≤ fuel' →
      ∃ downstream, Condensation.transitiveDependentsOf nodes pdb fuel' packages = some downstream ∧
        ∀ q, q ∈ downstream ↔ q ∈ db.packages ∧ ∃ p ∈ packages, ReflTransGen (AnyImport graph) q p := by
  obtain ⟨app,clean,last,ids',run,phases⟩ := run_phases graph ids enough
  have gathered := phases.gathered plain named
  have short := gathered.length_le
  have dag := phases.dag (short.trans few)
  refine ⟨_,ids',run,fun pdb packages fuel' holds present enough' => ?_⟩
  have starts {p : Name} (here : p ∈ db.packages) : StartsAt pdb last.condensation p (nodeOf graph ids' (p,false)) := by
    obtain ⟨info,found,same⟩ := holds p here
    exact ⟨gathered.inside (p,false) here,info,found,same.trans (gathered.assigned p here)⟩
  obtain ⟨frontier,collected,started⟩ := mapM_starts fun p listed => ⟨_,starts (present p listed)⟩
  obtain ⟨downstream,done,members⟩ :=
    transitiveDependentsOf_members dag collected (fun i => (started i).mp) (by omega : _ ≤ fuel')
  refine ⟨downstream,done,fun q => (members q).trans ⟨?_,?_⟩⟩
  · rintro ⟨start,member,i,inside,path⟩
    obtain ⟨p,listed,_,info,found,same⟩ := (started start).mp member
    have here := present p listed
    obtain ⟨_,info',found',same'⟩ := starts here
    cases found.symm.trans found'
    cases same.symm.trans same'
    obtain ⟨kind,there,rfl⟩ := gathered.code_of_member inside
    have leads := (gathered.condenses.reaches_iff (x := (q,kind)) there here).mp path
    refine ⟨there,p,listed,?_⟩
    cases kind with
    | false => exact test_application_path.mp (.head (.own q) leads)
    | true => exact test_application_path.mp leads
  · rintro ⟨there,p,listed,path⟩
    have here := present p listed
    refine ⟨_,(started _).mpr ⟨p,listed,starts here⟩,nodeOf graph ids' (q,true),?_,?_⟩
    · exact (gathered.members (q,true) there q).mpr ⟨there,rfl⟩
    exact (gathered.condenses.reaches_iff (x := (q,true)) there here).mpr (test_application_path.mpr path)

-- The package table after a run.
def idsDB (ids : SccIds Nat) : PackageDB Nat :=
  {PackageDB.initial with packages_ := fun p => some ⟨p,[],[],false,none,ids.sccID p,.None⟩}

theorem transitiveDependentsOf_importers_sample : ∃ nodes ids', run plainGraph 4 noIds = some (nodes,ids') ∧
    ∃ downstream, Condensation.transitiveDependentsOf nodes (idsDB ids') 8 [3] = some downstream ∧ 1 ∈ downstream := by
  obtain ⟨nodes,ids',ran,searched⟩ :=
    transitiveDependentsOf_importers plainGraph noIds 4 (by decide) (by decide) (fun _ _ => rfl) (by decide)
  obtain ⟨downstream,done,members⟩ := searched (idsDB ids') [3] 8 (fun p _ => ⟨_,rfl,rfl⟩) (by decide) (by decide)
  have first : AnyImport plainGraph 1 2 := ⟨by decide,⟨2,.Normal⟩,List.mem_cons_self,rfl⟩
  have second : AnyImport plainGraph 2 3 := ⟨by decide,⟨3,.Normal⟩,List.mem_cons_self,rfl⟩
  refine ⟨nodes,ids',ran,downstream,done,(members 1).mpr ⟨by decide,3,List.mem_singleton_self 3,?_⟩⟩
  exact (ReflTransGen.single first).tail second

end Packager
