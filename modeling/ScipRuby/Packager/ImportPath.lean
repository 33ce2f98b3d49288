import Mathlib.Algebra.GroupWithZero.Nat
import Mathlib.Data.Set.Finite.Basic
import ScipRuby.Lib.BreadthFirst
import ScipRuby.Packager.PackageDB

namespace Packager.PackageDB
open Relation Worklist BreadthFirst
variable {Name : Type} [DecidableEq Name]

section Paths
variable (db : PackageDB Name)

-- The path from the package at the end, last package first. Nothing where prev has no entry.
def walkBack (src : Name) (prev : Name → Option Name) : Nat → Name → Option (List Name)
  | 0,_ => none
  | fuel + 1,curr =>
    if curr = src then some [curr]
    else
      match prev curr with
      | none => none
      | some before => (walkBack src prev fuel before).map (curr :: ·)

def followImport (curr : Name) (visited : List Name) (acc : List Name × (Name → Option Name)) (imp : Import Name) :
    List Name × (Name → Option Name) :=
  let (toVisit,prev) := acc
  if (db.getPackageInfo imp.mangledName).isNone || imp.isTestImport || imp.mangledName ∈ visited then (toVisit,prev)
  else
    let prev := if (prev imp.mangledName).isSome then prev else Function.update prev imp.mangledName (some curr)
    (toVisit ++ [imp.mangledName],prev)

def importsOf (name : Name) : List (Import Name) := (db.getPackageInfo name).elim [] PackageInfo.importedPackageNames

-- Both loops of the source have no bound; nothing is returned when limit or the fuel runs out.
def findPath (limit : Nat) (dest src : Name) : Nat → List Name → (Name → Option Name) → List Name → Option (Option (List Name))
  | 0,_,_,_ => none
  | _ + 1,[],_,_ => some none
  | fuel + 1,curr :: toVisit,prev,visited =>
    if curr ∈ visited then findPath limit dest src fuel toVisit prev visited
    else
      let visited := curr :: visited
      if curr = dest then (walkBack src prev limit curr).map some
      else
        let (toVisit,prev) := (db.importsOf curr).foldl (db.followImport curr visited) (toVisit,prev)
        findPath limit dest src fuel toVisit prev visited

-- The lines of the message, from the other end of the path.
def renderPath (show_ : Name → Text) (path : List Name) : Text :=
  (path.zipIdx.reverse.map fun (name,i) =>
    "    `".toList ++ show_ name ++ "`".toList ++ (if 0 < i then " →".toList else []) ++ "\n".toList).flatten

def pathTo (show_ : Name → Text) (fuel : Nat) (this : PackageInfo Name) (dest : Name) : Option (Option Text) :=
  (db.findPath fuel dest this.mangledName fuel [this.mangledName] (fun _ => none) []).map fun path => path.map (renderPath show_)

-- An import that is followed: not a test import, and of a package that exists.
def Followed (imp : Import Name) : Bool := (db.getPackageInfo imp.mangledName).isSome && !imp.isTestImport

def NormalImport (name other : Name) : Prop :=
  ∃ info, db.getPackageInfo name = some info ∧ ∃ imp ∈ info.importedPackageNames, imp.type = .Normal ∧ imp.mangledName = other ∧
    (db.getPackageInfo other).isSome = true

def targets (imports : List (Import Name)) : List Name := (imports.filter db.Followed).map Import.mangledName

def successors (name : Name) : List Name := db.targets (db.importsOf name)

omit [DecidableEq Name] in
theorem mem_successors (name other : Name) : Edge db.successors name other ↔ db.NormalImport name other := by
  unfold Edge successors targets importsOf NormalImport Followed Import.isTestImport
  cases db.getPackageInfo name with
  | none => simp
  | some info =>
    simp only [Option.elim_some,List.mem_map,List.mem_filter,Option.some.injEq,exists_eq_left']
    constructor
    · rintro ⟨imp,⟨member,followed⟩,rfl⟩
      simp at followed
      exact ⟨imp,member,followed.2,rfl,followed.1⟩
    · rintro ⟨imp,member,normal,rfl,present⟩
      exact ⟨imp,⟨member,by simp [normal,present]⟩,rfl⟩

end Paths

section Steps
variable {db : PackageDB Name} {src curr x : Name} {visited : List Name} {level : Name → Nat} {depth : Nat}
  {prev : Name → Option Name}

theorem walkBack_of_back {path : List Name} {fuel : Nat} (back : Back prev src x path) (enough : path.length ≤ fuel) :
    walkBack src prev fuel x = some path := by
  induction back generalizing fuel with
  | source =>
    obtain ⟨fuel,rfl⟩ := Nat.exists_eq_succ_of_ne_zero (Nat.ne_of_gt enough)
    exact if_pos rfl
  | step other found _ ih =>
    obtain ⟨fuel,rfl⟩ := Nat.exists_eq_succ_of_ne_zero (Nat.ne_of_gt (Nat.zero_lt_of_lt enough))
    rw [walkBack,if_neg other,found]
    dsimp only
    rw [ih (Nat.le_of_succ_le_succ enough)]
    rfl

theorem followImport_passed {acc : List Name × (Name → Option Name)} {imp : Import Name}
    (passed : db.Followed imp = false ∨ imp.mangledName ∈ visited) : db.followImport curr visited acc imp = acc := by
  refine if_pos ?_
  unfold Followed at passed
  cases present : db.getPackageInfo imp.mangledName <;> simp_all

theorem followImport_pushed {toVisit : List Name} {imp : Import Name} (followed : db.Followed imp = true)
    (fresh : imp.mangledName ∉ visited) : db.followImport curr visited (toVisit,prev) imp = (toVisit ++ [imp.mangledName],
      if (prev imp.mangledName).isSome then prev else Function.update prev imp.mangledName (some curr)) := by
  refine if_neg ?_
  unfold Followed at followed
  cases present : db.getPackageInfo imp.mangledName <;> simp_all

theorem followImports_layered (imports : List (Import Name)) (toVisit : List Name)
    (edges : ∀ y ∈ db.targets imports, Edge db.successors curr y)
    (layered : Layered db.successors src visited toVisit prev level depth curr (db.targets imports)) :
    ∃ level', Layered db.successors src visited (imports.foldl (db.followImport curr visited) (toVisit,prev)).1
      (imports.foldl (db.followImport curr visited) (toVisit,prev)).2 level' depth curr [] := by
  induction imports generalizing toVisit prev level with
  | nil => exact ⟨level,layered⟩
  | cons imp imports ih =>
    rw [List.foldl_cons]
    cases followed : db.Followed imp with
    | false =>
      have same : db.targets (imp :: imports) = db.targets imports := by simp [targets,followed]
      rw [same] at edges layered
      rw [followImport_passed (.inl followed)]
      exact ih toVisit edges layered
    | true =>
      have first : db.targets (imp :: imports) = imp.mangledName :: db.targets imports := by simp [targets,followed]
      rw [first] at edges layered
      have rest := fun y member => edges y (List.mem_cons_of_mem _ member)
      by_cases seen : imp.mangledName ∈ visited
      · rw [followImport_passed (.inr seen)]
        exact ih toVisit rest (layered.pass seen)
      · rw [followImport_pushed followed seen]
        cases found : prev imp.mangledName with
        | some before =>
          have waits := (layered.back _ _ found).1.resolve_left seen
          rw [if_pos Option.isSome_some]
          exact ih _ rest (layered.again seen waits)
        | none =>
          rw [Option.isSome_none,if_neg Bool.false_ne_true]
          exact ih _ rest (layered.discover seen found (edges _ List.mem_cons_self))

theorem followImports_length (imports : List (Import Name)) (acc : List Name × (Name → Option Name)) :
    (imports.foldl (db.followImport curr visited) acc).1.length ≤ acc.1.length + imports.length := by
  induction imports generalizing acc with
  | nil => exact Nat.le_refl _
  | cons imp imports ih =>
    have one : (db.followImport curr visited acc imp).1.length ≤ acc.1.length + 1 := by
      unfold followImport
      dsimp only
      split
      · exact Nat.le_succ _
      · rw [List.length_append,List.length_singleton]
    have rest := ih (db.followImport curr visited acc imp)
    rw [List.foldl_cons,List.length_cons]
    omega

end Steps

section Termination
variable (db : PackageDB Name) (names : List Name)

-- The pushes that are still to come, at most.
def work (visited : List Name) : Nat :=
  ((names.filter fun name => name ∉ visited).map fun name => (db.importsOf name).length).sum

theorem work_cons (first : Name) (names visited : List Name) :
    db.work (first :: names) visited = (if first ∈ visited then 0 else (db.importsOf first).length) + db.work names visited := by
  unfold work
  by_cases seen : first ∈ visited
  · simp [seen]
  · simp [seen]

theorem work_visit_le (curr : Name) (visited : List Name) : db.work names (curr :: visited) ≤ db.work names visited := by
  induction names with
  | nil => exact Nat.le_refl _
  | cons first names ih =>
    rw [work_cons,work_cons]
    apply Nat.add_le_add _ ih
    by_cases seen : first ∈ visited
    · rw [if_pos (List.mem_cons_of_mem curr seen)]
      exact Nat.zero_le _
    · rw [if_neg seen]
      split
      · exact Nat.zero_le _
      · exact Nat.le_refl _

theorem work_visit {curr : Name} {visited : List Name} (member : curr ∈ names) (fresh : curr ∉ visited) :
    db.work names (curr :: visited) + (db.importsOf curr).length ≤ db.work names visited := by
  induction names with
  | nil => cases member
  | cons first names ih =>
    rw [work_cons,work_cons]
    by_cases same : first = curr
    · subst same
      have less := db.work_visit_le names first visited
      rw [if_pos List.mem_cons_self,if_neg fresh]
      omega
    · have rest := ih ((List.mem_cons.mp member).resolve_left (Ne.symm same))
      have seen : first ∈ curr :: visited ↔ first ∈ visited := by
        rw [List.mem_cons,or_iff_right same]
      simp only [seen]
      omega

end Termination

section Search
variable {db : PackageDB Name} {src dest : Name} {names : List Name}

-- The names has every package that exists, and the one the search starts from.
structure Covers (db : PackageDB Name) (src : Name) (names : List Name) : Prop where
  source : src ∈ names
  present : ∀ name, db.getPackageInfo name ≠ none → name ∈ names

theorem importsOf_length (covers : Covers db src names) {curr : Name} {visited : List Name} (fresh : curr ∉ visited) :
    db.work names (curr :: visited) + (db.importsOf curr).length ≤ db.work names visited := by
  by_cases member : curr ∈ names
  · exact db.work_visit names member fresh
  · have absent : db.getPackageInfo curr = none := by
      by_contra present
      exact member (covers.present curr present)
    have none : db.importsOf curr = [] := by
      unfold importsOf
      rw [absent]
      rfl
    rw [none]
    exact db.work_visit_le names curr visited

omit [DecidableEq Name] in
theorem path_length_le (covers : Covers db src names) {path : List Name} {x : Name}
    (route : Path db.successors src x path) (nodup : path.Nodup) : path.length ≤ names.length := by
  apply List.Subperm.length_le
  apply nodup.subperm
  intro name member
  rcases route.entered member with rfl | ⟨other,edge⟩
  · exact covers.source
  · obtain ⟨_,_,_,_,_,_,present⟩ := (mem_successors db other name).mp edge
    apply covers.present
    intro absent
    rw [absent] at present
    cases present

-- What the search has found: a shortest path, or that there is none.
def Found (db : PackageDB Name) (src dest : Name) : Option (List Name) → Prop
  | none => ¬ReflTransGen (Edge db.successors) src dest
  | some path => Path db.successors src dest path.reverse ∧ path.Nodup ∧
      ∀ other, Path db.successors src dest other → path.length ≤ other.length

theorem findPath_found (covers : Covers db src names) {limit fuel : Nat} (roomy : names.length ≤ limit)
    {toVisit visited : List Name} {prev : Name → Option Name} {level : Name → Nat} {depth : Nat} {current : Name}
    (layered : Layered db.successors src visited toVisit prev level depth current []) (sought : dest ∉ visited)
    (enough : db.work names visited + toVisit.length < fuel) :
    ∃ result, db.findPath limit dest src fuel toVisit prev visited = some result ∧ Found db src dest result := by
  induction fuel generalizing toVisit visited prev level depth current with
  | zero => exact absurd enough (Nat.not_lt_zero _)
  | succ fuel ih =>
    cases toVisit with
    | nil =>
      exact ⟨none,rfl,fun reached => sought (layered.exhausted reached)⟩
    | cons curr toVisit =>
      rw [findPath]
      rw [List.length_cons] at enough
      by_cases seen : curr ∈ visited
      · rw [if_pos seen]
        exact ih (layered.skip seen) sought (by omega)
      rw [if_neg seen]
      by_cases same : curr = dest
      · subst same
        obtain ⟨path,back⟩ := layered.back_exists (.inr List.mem_cons_self)
        obtain ⟨route,length,_,nodup⟩ := layered.back_path back
        have short := path_length_le covers route (List.nodup_reverse.mpr nodup)
        rw [List.length_reverse] at short
        dsimp only
        rw [if_pos rfl,walkBack_of_back back (short.trans roomy)]
        exact ⟨some path,rfl,route,nodup,fun other way => length ▸ layered.minimal seen way⟩
      · dsimp only
        rw [if_neg same]
        obtain ⟨level',after⟩ := followImports_layered (db.importsOf curr) toVisit (fun _ edge => edge) (layered.visit seen)
        refine ih after ?_ ?_
        · rw [List.mem_cons,not_or]
          exact ⟨Ne.symm same,sought⟩
        · have pushes := @followImports_length _ _ db curr (curr :: visited) (db.importsOf curr) (toVisit,prev)
          have spent := importsOf_length covers seen
          dsimp only at pushes
          omega

end Search

omit [DecidableEq Name] in
theorem successors_eq (db : PackageDB Name) : Edge db.successors = db.NormalImport := by
  funext name other
  exact propext (mem_successors db name other)

theorem pathTo_shortest (db : PackageDB Name) (finite : {name | db.getPackageInfo name ≠ none}.Finite)
    (show_ : Name → Text) (this : PackageInfo Name) (dest : Name) :
    ∃ bound, ∀ fuel, bound ≤ fuel → ∃ result, db.pathTo show_ fuel this dest = some (result.map (renderPath show_)) ∧
      (result.isSome = true ↔ ReflTransGen db.NormalImport this.mangledName dest) ∧
      ∀ path, result = some path → path.reverse.head? = some this.mangledName ∧ path.reverse.getLast? = some dest ∧
        path.reverse.IsChain db.NormalImport ∧ path.Nodup ∧
        ∀ other : List Name, other.head? = some this.mangledName → other.getLast? = some dest →
          other.IsChain db.NormalImport → path.length ≤ other.length := by
  let names := this.mangledName :: finite.toFinset.toList
  have covers : Covers db this.mangledName names := by
    refine ⟨List.mem_cons_self,fun name present => List.mem_cons_of_mem _ ?_⟩
    exact Finset.mem_toList.mpr (finite.mem_toFinset.mpr present)
  refine ⟨db.work names [] + names.length + 2,fun fuel enough => ?_⟩
  obtain ⟨result,computed,found⟩ := @findPath_found _ _ db this.mangledName dest names covers fuel fuel (by omega) _ _ _ _ _ _
    (layered_start db.successors this.mangledName) List.not_mem_nil (by rw [List.length_singleton]; omega)
  refine ⟨result,by unfold pathTo; rw [computed]; rfl,?_,?_⟩
  · rw [← successors_eq]
    cases result with
    | none => exact iff_of_false Bool.false_ne_true found
    | some path => exact iff_of_true rfl found.1.reaches
  · rintro path rfl
    obtain ⟨route,nodup,least⟩ := found
    rw [← successors_eq]
    exact ⟨route.first,route.last,route.chain,nodup,fun other first last chain => least other ⟨first,last,chain⟩⟩

-- The package 1 imports the package 2.
def importer (name : Nat) (imported : List Nat) : PackageInfo Nat :=
  ⟨name,[],imported.map fun other => ⟨other,.Normal,false⟩,false,none,none,.None⟩

def importerDB : PackageDB Nat := (initial.enterPackage (importer 1 [2])).enterPackage (importer 2 [])

theorem pathTo_sample : ∃ fuel text, importerDB.pathTo (fun _ => []) fuel (importer 1 [2]) 2 = some (some text) := by
  have finite : {name | importerDB.getPackageInfo name ≠ none}.Finite := by
    apply ([1,2] : List Nat).finite_toSet.subset
    intro name present
    by_contra absent
    apply present
    simp only [List.mem_cons,List.not_mem_nil,or_false,Set.mem_ofPred_eq,not_or] at absent
    exact (Function.update_of_ne absent.2 _ _).trans (Function.update_of_ne absent.1 _ _)
  have edge : importerDB.NormalImport 1 2 := ⟨importer 1 [2],rfl,_,List.mem_cons_self,rfl,rfl,rfl⟩
  obtain ⟨bound,search⟩ := pathTo_shortest importerDB finite (fun _ => []) (importer 1 [2]) 2
  obtain ⟨result,computed,found,_⟩ := search bound (Nat.le_refl bound)
  obtain ⟨path,rfl⟩ := Option.isSome_iff_exists.mp (found.mpr (.single edge))
  exact ⟨bound,_,computed⟩

end Packager.PackageDB
