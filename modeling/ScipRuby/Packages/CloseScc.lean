import Mathlib.Data.List.Nodup
import ScipRuby.Packages.ComputeSCCs

namespace Packages
namespace ComputePackageSCCs
variable {Name : Type} [DecidableEq Name] {db : PackageDB Name} {graph : PackageGraph Name db} {edge : ImportType}
variable {s s' : ComputePackageSCCs Name} {ids ids' : SccIds Name} {p q : Name} {id bound sccId : Nat} {imports : List Nat}
variable {members : List Name}

section Ids

theorem getId_setId_self : getId graph edge (setId graph edge ids p id) p = some id := by
  unfold getId setId
  cases graph.kind <;> split <;> simp [GraphKind.getSCCId,GraphKind.setSCCId,GraphKind.getTestSCCId,GraphKind.setTestSCCId]

theorem getId_setId_of_ne (other : q ≠ p) : getId graph edge (setId graph edge ids p id) q = getId graph edge ids q := by
  unfold getId setId
  cases graph.kind <;> split <;>
    simp [GraphKind.getSCCId,GraphKind.setSCCId,GraphKind.getTestSCCId,GraphKind.setTestSCCId,other]

-- What a pass leaves alone when it gives ids to the packages in touched.
structure IdsKept (graph : PackageGraph Name db) (edge : ImportType) (touched : Name → Prop) (ids ids' : SccIds Name) : Prop where
  outside : ∀ q, ¬ touched q → getId graph edge ids' q = getId graph edge ids q
  application : edge ≠ .Normal → ∀ q, graph.kind.getSCCId ids' q = graph.kind.getSCCId ids q
  info : ∀ q, ¬ touched q ∨ edge ≠ .Normal ∨ graph.kind = .ReferencesPackageGraph → ids'.sccID q = ids.sccID q

omit [DecidableEq Name] in
theorem IdsKept.refl {touched : Name → Prop} : IdsKept graph edge touched ids ids :=
  ⟨fun _ _ => rfl,fun _ _ => rfl,fun _ _ => rfl⟩

omit [DecidableEq Name] in
theorem IdsKept.trans {touched : Name → Prop} {ids'' : SccIds Name} (first : IdsKept graph edge touched ids ids')
    (second : IdsKept graph edge touched ids' ids'') : IdsKept graph edge touched ids ids'' where
  outside := fun q apart => (second.outside q apart).trans (first.outside q apart)
  application := fun test q => (second.application test q).trans (first.application test q)
  info := fun q apart => (second.info q apart).trans (first.info q apart)

omit [DecidableEq Name] in
theorem IdsKept.mono {touched touched' : Name → Prop} (kept : IdsKept graph edge touched ids ids')
    (more : ∀ q, touched q → touched' q) : IdsKept graph edge touched' ids ids' where
  outside := fun q apart => kept.outside q fun here => apart (more q here)
  application := kept.application
  info := fun q apart => kept.info q (apart.imp_left fun apart here => apart (more q here))

theorem setId_kept : IdsKept graph edge (· = p) ids (setId graph edge ids p id) where
  outside := fun q apart => getId_setId_of_ne apart
  application := by
    intro test q
    unfold setId
    cases graph.kind <;> simp [test,GraphKind.getSCCId,GraphKind.setTestSCCId]
  info := by
    intro q apart
    unfold setId
    cases kind : graph.kind with
    | ReferencesPackageGraph => split <;> rfl
    | PackageDBPackageGraph =>
      split
      · rename_i normal
        rcases apart with apart | test | other
        · exact Function.update_of_ne apart ..
        · exact absurd normal test
        · rw [kind] at other
          cases other
      · rfl

end Ids

section Imports

-- A set of ids below a bound.
structure Below (bound : Nat) (imports : List Nat) : Prop where
  once : imports.Nodup
  less : ∀ imp ∈ imports, imp < bound

theorem Below.insertImport (below : Below bound imports) (small : id < bound) : Below bound (insertImport imports id) := by
  unfold ComputePackageSCCs.insertImport
  split
  · exact below
  · rename_i absent
    constructor
    · rw [List.nodup_append]
      refine ⟨below.once,List.nodup_singleton id,?_⟩
      rintro x here y last rfl
      exact absent (List.mem_singleton.mp last ▸ here)
    · intro imp member
      rcases List.mem_append.mp member with old | new
      · exact below.less imp old
      · exact List.mem_singleton.mp new ▸ small

theorem mem_insertImport {j : Nat} : j ∈ insertImport imports id ↔ j ∈ imports ∨ j = id := by
  unfold ComputePackageSCCs.insertImport
  split
  · rename_i here
    exact ⟨.inl,fun either => either.elim (fun old => old) fun same => same ▸ here⟩
  · rw [List.mem_append,List.mem_singleton]

-- An import of a package in the node numbered j, from one in another node.
structure Links (graph : PackageGraph Name db) (edge : ImportType) (ids : SccIds Name) (sccId : Nat) (i : Import Name) (j : Nat) :
    Prop where
  named : graph.nameExists i.mangledName = true
  considered : considers edge i = true
  found : getId graph edge ids i.mangledName = some j
  other : j ≠ sccId

omit [DecidableEq Name] in
theorem linkAll {l : List (Import Name)} (below : Below bound imports)
    (known : ∀ i ∈ l, graph.nameExists i.mangledName = true → considers edge i = true →
      ∃ impId, getId graph edge ids i.mangledName = some impId ∧ (impId ≠ sccId → impId < bound)) :
    ∃ imports', l.foldlM (link graph edge ids sccId) imports = some imports' ∧ Below bound imports' ∧
      ∀ j, j ∈ imports' ↔ j ∈ imports ∨ ∃ i ∈ l, Links graph edge ids sccId i j := by
  induction l generalizing imports with
  | nil => exact ⟨imports,rfl,below,fun j => by simp⟩
  | cons i l ih =>
    have rest : ∀ imports', Below bound imports' → (∀ j, j ∈ imports' ↔ j ∈ imports ∨ Links graph edge ids sccId i j) →
        ∃ imports'', l.foldlM (link graph edge ids sccId) imports' = some imports'' ∧ Below bound imports'' ∧
          ∀ j, j ∈ imports'' ↔ j ∈ imports ∨ ∃ k ∈ i :: l, Links graph edge ids sccId k j := by
      intro imports' below' first
      obtain ⟨imports'',run,below'',exact_⟩ := ih below' fun j member => known j (List.mem_cons_of_mem _ member)
      refine ⟨imports'',run,below'',fun j => ?_⟩
      simp only [exact_,first,List.mem_cons,exists_eq_or_imp,or_assoc]
    have unlinked (none_ : ∀ j, ¬ Links graph edge ids sccId i j) : ∀ j, j ∈ imports ↔ j ∈ imports ∨ Links graph edge ids sccId i j :=
      fun j => (or_iff_left (none_ j)).symm
    rw [List.foldlM_cons]
    unfold link
    by_cases named : graph.nameExists i.mangledName = true
    · by_cases considered : considers edge i = true
      · obtain ⟨impId,found,small⟩ := known i List.mem_cons_self named considered
        simp only [named,considered,Bool.not_true,Bool.false_eq_true,if_false,found,Option.bind_eq_bind,Option.bind_some]
        by_cases own : impId = sccId
        · simp only [own,if_true,Option.bind_some]
          refine rest imports below (unlinked fun j links => links.other ?_)
          exact (Option.some.inj (found.symm.trans links.found)).symm.trans own
        · simp only [own,if_false,Option.bind_some]
          refine rest _ (below.insertImport (small own)) fun j => ?_
          rw [mem_insertImport]
          refine or_congr_right ⟨fun same => ?_,fun links => ?_⟩
          · exact ⟨named,considered,same ▸ found,same ▸ own⟩
          · exact Option.some.inj (links.found.symm.trans found)
      · simp only [named,considered,Bool.not_true,Bool.not_false,Bool.false_eq_true,if_false,if_true,Option.bind_eq_bind,
          Option.bind_some]
        exact rest imports below (unlinked fun j links => considered links.considered)
    · simp only [named,Bool.not_false,if_true,Option.bind_eq_bind,Option.bind_some]
      exact rest imports below (unlinked fun j links => named links.named)

omit [DecidableEq Name] in
theorem linkMembers (below : Below bound imports)
    (known : ∀ p ∈ members, ∀ i ∈ graph.getImports p, graph.nameExists i.mangledName = true → considers edge i = true →
      ∃ impId, getId graph edge ids i.mangledName = some impId ∧ (impId ≠ sccId → impId < bound)) :
    ∃ imports', members.foldlM (linkMember graph edge ids sccId) imports = some imports' ∧ Below bound imports' ∧
      ∀ j, j ∈ imports' ↔ j ∈ imports ∨ ∃ p ∈ members, ∃ i ∈ graph.getImports p, Links graph edge ids sccId i j := by
  induction members generalizing imports with
  | nil => exact ⟨imports,rfl,below,fun j => by simp⟩
  | cons p members ih =>
    obtain ⟨imports',first,below',linked⟩ := linkAll below (known p List.mem_cons_self)
    obtain ⟨imports'',rest,below'',linked'⟩ := ih below' fun q member => known q (List.mem_cons_of_mem _ member)
    refine ⟨imports'',?_,below'',fun j => ?_⟩
    · rw [List.foldlM_cons,linkMember,first]
      exact rest
    · simp only [linked',linked,List.mem_cons,exists_eq_or_imp,or_assoc]

end Imports

section Settle

-- What popping the members of a component does.
structure Settled (graph : PackageGraph Name db) (edge : ImportType) (sccId : Nat) (members : List Name)
    (s s' : ComputePackageSCCs Name) : Prop where
  nextIndex : s'.nextIndex = s.nextIndex
  stack : s'.stack = s.stack
  condensation : s'.condensation = s.condensation
  nodeMap : ∀ q, s'.nodeMap q = if q ∈ members then {s.nodeMap q with onStack := false} else s.nodeMap q
  assigned : ∀ q ∈ members, getId graph edge s'.ids q = some sccId
  kept : IdsKept graph edge (· ∈ members) s.ids s'.ids

-- In the second pass a package's test code depends on its application code.
structure OwnCode (graph : PackageGraph Name db) (edge : ImportType) (ids : SccIds Name) (p : Name) (j : Nat) : Prop where
  second : edge ≠ .Normal
  code : db.isTestPackage p = false
  found : graph.kind.getSCCId ids p = some j

theorem settleAll (below : Below bound imports)
    (apps : edge ≠ .Normal → ∀ p ∈ members, db.isTestPackage p = false → ∃ id < bound, graph.kind.getSCCId s.ids p = some id) :
    ∃ s' imports', members.foldlM (settle graph edge sccId) (s,imports) = some (s',imports') ∧
      Settled graph edge sccId members s s' ∧ Below bound imports' ∧
      ∀ j, j ∈ imports' ↔ j ∈ imports ∨ ∃ p ∈ members, OwnCode graph edge s'.ids p j := by
  induction members generalizing s imports with
  | nil =>
    refine ⟨s,imports,rfl,⟨rfl,rfl,rfl,?_,?_,.refl⟩,below,fun j => by simp⟩
    · intro q
      simp
    · intro q impossible
      cases impossible
  | cons p members ih =>
    let first : ComputePackageSCCs Name :=
      {s with nodeMap := Function.update s.nodeMap p {s.nodeMap p with onStack := false},ids := setId graph edge s.ids p sccId}
    have keeps := @setId_kept _ _ _ graph edge s.ids p sccId
    have step : ∃ imports', settle graph edge sccId (s,imports) p = some (first,imports') ∧ Below bound imports' ∧
        ∀ j, j ∈ imports' ↔ j ∈ imports ∨ OwnCode graph edge first.ids p j := by
      unfold settle
      by_cases app : edge ≠ .Normal ∧ ¬ db.isTestPackage p = true
      · obtain ⟨id,small,found⟩ := apps app.1 p List.mem_cons_self (Bool.eq_false_iff.mpr app.2)
        rw [← keeps.application app.1 p] at found
        refine ⟨insertImport imports id,?_,below.insertImport small,fun j => ?_⟩
        · simp only [if_pos app,found,Option.bind_eq_bind,Option.bind_some]
          rfl
        · rw [mem_insertImport]
          refine or_congr_right ⟨fun same => ⟨app.1,Bool.eq_false_iff.mpr app.2,same ▸ found⟩,fun own => ?_⟩
          exact Option.some.inj (own.found.symm.trans found)
      · refine ⟨imports,if_neg app,below,fun j => (or_iff_left fun own => app ⟨own.second,?_⟩).symm⟩
        exact Bool.eq_false_iff.mp own.code
    obtain ⟨imports',done,below',owned⟩ := step
    obtain ⟨s',imports'',rest,settled,below'',owned'⟩ := @ih first imports' below' (by
      intro test q member app
      obtain ⟨id,small,found⟩ := apps test q (List.mem_cons_of_mem _ member) app
      exact ⟨id,small,(keeps.application test q).trans found⟩)
    refine ⟨s',imports'',?_,?_,below'',fun j => ?_⟩
    · rw [List.foldlM_cons,done]
      exact rest
    · refine ⟨settled.nextIndex,settled.stack,settled.condensation,?_,?_,?_⟩
      · intro q
        rw [settled.nodeMap]
        by_cases same : q = p
        · subst same
          simp [first]
        · simp [first,same]
      · intro q member
        by_cases later : q ∈ members
        · exact settled.assigned q later
        · obtain rfl := (List.mem_cons.mp member).resolve_right later
          rw [settled.kept.outside q later]
          exact getId_setId_self
      · refine IdsKept.trans (keeps.mono ?_) (settled.kept.mono ?_)
        · rintro q rfl
          exact List.mem_cons_self
        · exact fun q member => List.mem_cons_of_mem _ member
    · rw [owned',owned,List.exists_mem_cons_iff,or_assoc]
      refine or_congr_right (or_congr_left ⟨fun own => ?_,fun own => ?_⟩)
      · exact ⟨own.second,own.code,(settled.kept.application own.second p).trans own.found⟩
      · exact ⟨own.second,own.code,(settled.kept.application own.second p).symm.trans own.found⟩

end Settle

theorem popUntil_eq {segment stack : List Name} (absent : p ∉ segment) :
    popUntil p (segment ++ p :: stack) = (segment ++ [p],stack) := by
  induction segment with
  | nil => simp [popUntil]
  | cons q segment ih =>
    rw [List.mem_cons,not_or] at absent
    rw [List.cons_append,popUntil,if_neg (Ne.symm absent.1),ih absent.2]
    rfl

end ComputePackageSCCs
end Packages
