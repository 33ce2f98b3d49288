import ScipRuby.Packager.VisibilityChecker

namespace Packager.Visibility
open Preorder

section Meaning
variable (gs : GlobalState) (P : ClassOrModuleRef)

-- A class or a static field of the package.
def belongs : SymbolRef → Bool
  | .classOrModule ref => (gs.classAndModules ref).package = some P
  | .field ref => (gs.fields ref).isStaticField && (gs.classAndModules (gs.fields ref).owner).package = some P
  | _ => false

def children : SymbolRef → List SymbolRef
  | .classOrModule ref => ((gs.classAndModules ref).members.filter fun member => member.1 ≠ Names.attached).map Prod.snd
  | _ => []

-- Reached through members without crossing a package boundary.
abbrev Reaches (s t : SymbolRef) : Prop := Reach (belongs gs P) (children gs) s t

def Attached (c a : ClassOrModuleRef) : Prop := (Names.attached,.classOrModule a) ∈ (gs.classAndModules c).members

instance (c a : ClassOrModuleRef) : Decidable (Attached gs c a) := inferInstanceAs (Decidable (_ ∈ _))

-- How entering symbols and singletonClass link the classes and fields of the package.
structure Linked : Prop where
  owners : ∀ c, root < c → c < gs.classAndModulesUsed →
    root ≤ (gs.classAndModules c).owner ∧ (gs.classAndModules c).owner < c
  packaged : ∀ c, (gs.classAndModules c).package = some P → root < c ∧ c < gs.classAndModulesUsed
  entered : root < P ∧ P < gs.classAndModulesUsed
  keys : ∀ c, ((gs.classAndModules c).members.map Prod.fst).Nodup
  classes : ∀ k name c, (gs.classAndModules k).package = some P → (gs.classAndModules c).package = some P →
    (name,.classOrModule c) ∈ (gs.classAndModules k).members → name ≠ Names.attached →
    name = (gs.classAndModules c).name ∧ (gs.classAndModules c).owner = k ∨ name = Names.singleton ∧ Attached gs c k
  fields : ∀ k name f, (gs.classAndModules k).package = some P → (name,.field f) ∈ (gs.classAndModules k).members →
    name = (gs.fields f).name ∧ (gs.fields f).owner = k
  ownNames : ∀ c, (gs.classAndModules c).package = some P →
    ((gs.classAndModules c).name,.classOrModule c) ∈ (gs.classAndModules (gs.classAndModules c).owner).members ∧
    (gs.classAndModules c).name ≠ Names.attached ∧ (gs.classAndModules c).name ≠ Names.singleton
  singletons : ∀ c, (gs.classAndModules c).package = some P →
    ((gs.classAndModules c).isSingletonClass = true ↔ ∃ a, Attached gs c a)
  attached : ∀ c a, (gs.classAndModules c).package = some P → Attached gs c a →
    a < c ∧ (gs.classAndModules c).owner = (gs.classAndModules a).owner ∧
    (Names.singleton,.classOrModule c) ∈ (gs.classAndModules a).members

def Scope (package : PackageInfo) (scope : ClassOrModuleRef) : Prop :=
  scope ≠ noClassOrModule ∧ ∃ fuel scopes, getScopesForPackage gs package fuel = some scopes ∧ (scope = scopes.1 ∨ scope = scopes.2)

def Scoped (package : PackageInfo) : Prop :=
  ∀ s, belongs gs package.mangledName s = true →
    ∃ scope, Scope gs package scope ∧ Reaches gs package.mangledName (.classOrModule scope) s

-- An owner in the package that does not define behavior.
def Implicit (owner : ClassOrModuleRef) : Prop :=
  (gs.classAndModules owner).isBehaviorDefining = false ∧ (gs.classAndModules owner).package = some P

-- The consecutive such owners from the given one on.
inductive ParentNamespace (owner : ClassOrModuleRef) : ClassOrModuleRef → Prop where
  | first : Implicit gs P owner → ParentNamespace owner owner
  | next {o : ClassOrModuleRef} : ParentNamespace owner o → Implicit gs P (gs.classAndModules o).owner →
      ParentNamespace owner (gs.classAndModules o).owner

def ownerOf : SymbolRef → Option ClassOrModuleRef
  | .classOrModule ref => some (gs.classAndModules ref).owner
  | .field ref => some (gs.fields ref).owner
  | _ => none

def ExportedBy (top s : SymbolRef) : Prop :=
  Reaches gs P top s ∨ ∃ owner o, ownerOf gs top = some owner ∧ ParentNamespace gs P owner o ∧ s = .classOrModule o

def Exported (sends : List ExportLine) (s : SymbolRef) : Prop := ∃ send ∈ sends, ExportedBy gs P send.symbol s

def rank : SymbolRef → Nat
  | .classOrModule ref => ref
  | _ => gs.classAndModulesUsed

-- The same table with another order of the members.
def GlobalState.reorder (members : ClassOrModuleRef → List (NameRef × SymbolRef)) : GlobalState :=
  {gs with classAndModules := fun c => {gs.classAndModules c with members := members c}}

end Meaning

section Walking
variable {gs : GlobalState} {package : PackageInfo} {P : ClassOrModuleRef} {setExportedTo : Bool} {line s : SymbolRef}
  {loc : LocOffsets}

@[simp] theorem checkDuplicateExport_isExported (alreadyExported : Bool) (st : State) :
    (checkDuplicateExport gs line loc s alreadyExported st).isExported = st.isExported := by
  unfold checkDuplicateExport
  cases st.explicitlyExported s with
  | none =>
    dsimp only
    split <;> rfl
  | some blame =>
    dsimp only
    split <;> split <;> rfl

@[simp] theorem visit_isExported (st : State) :
    (visit gs setExportedTo line loc st s).isExported = Function.update st.isExported s setExportedTo := by
  cases setExportedTo <;> simp [visit,State.setIsExported]

theorem foldl_visit_isExported (visited : List SymbolRef) (st : State) :
    (visited.foldl (visit gs setExportedTo line loc) st).isExported s =
      if s ∈ visited then setExportedTo else st.isExported s := by
  induction visited generalizing st with
  | nil => rfl
  | cons t visited ih =>
    rw [List.foldl_cons,ih,visit_isExported]
    by_cases later : s ∈ visited
    · simp [later]
    · by_cases same : s = t
      · simp [same]
      · simp [later,same]

theorem foldlM_children (step : SymbolRef → State → Option State) (members : List (NameRef × SymbolRef)) (st : State) :
    members.foldlM (fun st member => if member.1 = Names.attached then some st else step member.2 st) st =
      ((members.filter fun member => member.1 ≠ Names.attached).map Prod.snd).foldlM (fun st s => step s st) st := by
  induction members generalizing st with
  | nil => rfl
  | cons member members ih =>
    by_cases attached : member.1 = Names.attached
    · simp [List.foldlM_cons,attached,ih]
    · simp [List.foldlM_cons,attached,ih]

-- The recursion as a walk that does its work at each visit.
theorem recursiveSetIsExported_eq (fuel : Nat) (s : SymbolRef) (st : State) :
    recursiveSetIsExported gs package setExportedTo line loc fuel s st =
      (visits (belongs gs package.mangledName) (children gs) fuel s).map fun visited =>
        visited.foldl (visit gs setExportedTo line loc) st := by
  induction fuel generalizing s st with
  | zero => rfl
  | succ fuel ih =>
    cases s with
    | classOrModule ref =>
      rw [recursiveSetIsExported,visits,enclosingClass]
      by_cases inside : (gs.classAndModules ref).package = some package.mangledName
      · have kept : belongs gs package.mangledName (.classOrModule ref) = true := decide_eq_true inside
        rw [if_neg (not_not.mpr inside),if_pos kept,foldlM_children,Option.map_map]
        simp only [ih]
        exact foldlM_visitAll _ _ _
      · have skipped : belongs gs package.mangledName (.classOrModule ref) ≠ true := fun kept => inside (of_decide_eq_true kept)
        rw [if_pos inside,if_neg skipped]
        rfl
    | field ref =>
      rw [recursiveSetIsExported,visits,enclosingClass]
      by_cases inside : (gs.classAndModules (gs.fields ref).owner).package = some package.mangledName
      · rw [if_neg (not_not.mpr inside)]
        by_cases static : (gs.fields ref).isStaticField = true
        · have kept : belongs gs package.mangledName (.field ref) = true := by simp [belongs,static,inside]
          rw [if_pos static,if_pos kept]
          rfl
        · rw [if_neg static,if_neg (by simp [belongs,static])]
          rfl
      · rw [if_pos inside,if_neg (by simp [belongs,inside])]
        rfl
    | _ =>
      simp [recursiveSetIsExported,visits,belongs]

end Walking

section Links
variable {gs : GlobalState} {P k c o owner : ClassOrModuleRef} {s t : SymbolRef}

theorem belongs_class : belongs gs P (.classOrModule c) = true ↔ (gs.classAndModules c).package = some P := by
  simp [belongs]

-- The members that the walk goes on to.
theorem Linked.child_cases (linked : Linked gs P) (child : Child (belongs gs P) (children gs) s t) :
    ∃ k, s = .classOrModule k ∧ (gs.classAndModules k).package = some P ∧
      ((∃ c, t = .classOrModule c ∧ (gs.classAndModules c).package = some P ∧
        ((gs.classAndModules c).owner = k ∨ Attached gs c k)) ∨
      ∃ f, t = .field f ∧ (gs.fields f).owner = k) := by
  obtain ⟨kept,keptChild,member⟩ := child
  cases s with
  | classOrModule k =>
    have package := belongs_class.mp kept
    refine ⟨k,rfl,package,?_⟩
    obtain ⟨⟨name,t⟩,listed,rfl⟩ := List.mem_map.mp member
    obtain ⟨listed,other⟩ := List.mem_filter.mp listed
    cases t with
    | classOrModule c =>
      have inside := belongs_class.mp keptChild
      refine .inl ⟨c,rfl,inside,?_⟩
      exact (linked.classes k name c package inside listed (of_decide_eq_true other)).imp And.right And.right
    | field f => exact .inr ⟨f,rfl,(linked.fields k name f package listed).2⟩
    | _ => cases keptChild
  | _ => cases member

theorem Linked.owner_lt (linked : Linked gs P) (package : (gs.classAndModules c).package = some P) :
    (gs.classAndModules c).owner < c :=
  (linked.owners c (linked.packaged c package).1 (linked.packaged c package).2).2

theorem Linked.deeper (linked : Linked gs P) (s t : SymbolRef) (child : Child (belongs gs P) (children gs) s t) :
    rank gs s < rank gs t := by
  obtain ⟨k,rfl,package,⟨c,rfl,inside,owner | attached⟩ | ⟨f,rfl,_⟩⟩ := linked.child_cases child
  · exact owner ▸ linked.owner_lt inside
  · exact (linked.attached c k inside attached).1
  · exact (linked.packaged k package).2

theorem Linked.bounded (linked : Linked gs P) (s : SymbolRef) (kept : belongs gs P s = true) :
    rank gs s < gs.classAndModulesUsed + 1 := by
  cases s with
  | classOrModule ref => exact Nat.lt_succ_of_lt (linked.packaged ref (belongs_class.mp kept)).2
  | _ => exact Nat.lt_succ_self _

theorem Linked.walks (linked : Linked gs P) {fuel : Nat} (enough : gs.classAndModulesUsed + 2 ≤ fuel) (s : SymbolRef) :
    ∃ visited, visits (belongs gs P) (children gs) fuel s = some visited := by
  apply Option.isSome_iff_exists.mp
  exact visits_isSome linked.deeper linked.bounded (by omega) fun _ => by omega

theorem ParentNamespace.implicit (above : ParentNamespace gs P owner o) : Implicit gs P o := by
  cases above with
  | first implicit => exact implicit
  | next _ implicit => exact implicit

theorem ParentNamespace.start (above : ParentNamespace gs P owner o) : Implicit gs P owner := by
  induction above with
  | first implicit => exact implicit
  | next _ _ ih => exact ih

theorem ParentNamespace.head (implicit : Implicit gs P owner)
    (above : ParentNamespace gs P (gs.classAndModules owner).owner o) : ParentNamespace gs P owner o := by
  induction above with
  | first implicit' => exact .next (.first implicit) implicit'
  | next _ implicit' ih => exact .next ih implicit'

theorem ParentNamespace.cases_head (above : ParentNamespace gs P owner o) :
    o = owner ∨ ParentNamespace gs P (gs.classAndModules owner).owner o := by
  induction above with
  | first _ => exact .inl rfl
  | next _ implicit ih =>
    rcases ih with rfl | above
    · exact .inr (.first implicit)
    · exact .inr (.next above implicit)

theorem ParentNamespace.le (linked : Linked gs P) (above : ParentNamespace gs P owner o) : o ≤ owner := by
  induction above with
  | first _ => exact Nat.le_refl _
  | next above _ ih => exact Nat.le_trans (Nat.le_of_lt (linked.owner_lt above.implicit.2)) ih

-- A chain above a symbol of the package stays outside of what is below the symbol.
theorem Linked.above_outside (linked : Linked gs P) (start : ownerOf gs t = some owner) (above : ParentNamespace gs P owner o) :
    ¬Reaches gs P t (.classOrModule o) := by
  intro reach
  have low := rank_le linked.deeper reach
  have up := above.le linked
  cases t with
  | classOrModule ref =>
    cases start
    have less := linked.owner_lt (belongs_class.mp reach.1)
    exact absurd (Nat.lt_of_le_of_lt up less) (Nat.not_lt.mpr low)
  | field ref => exact absurd (linked.packaged o above.implicit.2).2 (Nat.not_lt.mpr low)
  | _ => cases start

-- Where a symbol below the line has its owner outside of the line, it is the owner of the line.
theorem Linked.reach_owner (linked : Linked gs P) (reach : Reaches gs P t (.classOrModule c))
    (implicit : Implicit gs P (gs.classAndModules c).owner) : ExportedBy gs P t (.classOrModule (gs.classAndModules c).owner) := by
  generalize same : SymbolRef.classOrModule c = s at reach
  obtain ⟨kept,path⟩ := reach
  induction path generalizing c with
  | refl =>
    subst same
    exact .inr ⟨_,_,rfl,.first implicit,rfl⟩
  | @tail p s path child ih =>
    subst same
    obtain ⟨k,rfl,_,⟨c',same,inside,owner | attached⟩ | ⟨f,same,_⟩⟩ := linked.child_cases child
    · cases same
      exact .inl (owner ▸ ⟨kept,path⟩)
    · cases same
      have owner := (linked.attached c k inside attached).2.1
      rw [owner] at implicit ⊢
      exact ih implicit rfl
    · cases same

theorem Linked.exported_owner (linked : Linked gs P) {sends : List ExportLine} (exported : Exported gs P sends (.classOrModule c))
    (implicit : Implicit gs P (gs.classAndModules c).owner) : Exported gs P sends (.classOrModule (gs.classAndModules c).owner) := by
  obtain ⟨send,member,reach | ⟨owner,o,start,above,same⟩⟩ := exported
  · exact ⟨send,member,linked.reach_owner reach implicit⟩
  · cases same
    exact ⟨send,member,.inr ⟨owner,_,start,above.next implicit,rfl⟩⟩

theorem exported_belongs {sends : List ExportLine} (exported : Exported gs P sends s) : belongs gs P s = true := by
  obtain ⟨_,_,reach | ⟨_,_,_,above,rfl⟩⟩ := exported
  · exact reach.kept
  · exact belongs_class.mpr above.implicit.2

end Links

section Running
variable {gs : GlobalState} {package : PackageInfo} {owner : ClassOrModuleRef} {fuel : Nat} {st : State}

-- The maps stay as they are, and the flags change as told.
structure Changes (st st' : State) (exported : SymbolRef → Prop) : Prop where
  explicitlyExported : st'.explicitlyExported = st.explicitlyExported
  duplicateExports : st'.duplicateExports = st.duplicateExports
  isExported : ∀ s, st'.isExported s = true ↔ exported s

theorem implicitlyExported_iff (linked : Linked gs package.mangledName) :
    implicitlyExported gs package st owner = true ↔
      Implicit gs package.mangledName owner ∧ st.isExported (.classOrModule owner) = false := by
  unfold implicitlyExported Implicit
  by_cases inside : (gs.classAndModules owner).package = some package.mangledName
  · have present : owner ≠ noClassOrModule := Nat.ne_of_gt (Nat.lt_trans (by decide) (linked.packaged owner inside).1)
    simp [inside,present,and_comm]
  · simp [inside]

theorem exportParentNamespace_changes (linked : Linked gs package.mangledName)
    (closed : ∀ o, ParentNamespace gs package.mangledName owner o → st.isExported (.classOrModule o) = true →
      Implicit gs package.mangledName (gs.classAndModules o).owner →
      st.isExported (.classOrModule (gs.classAndModules o).owner) = true)
    (some_ : 0 < fuel) (enough : Implicit gs package.mangledName owner → owner < fuel) :
    ∃ st', exportParentNamespace gs package fuel owner st = some st' ∧ Changes st st' fun s =>
      st.isExported s = true ∨ ∃ o, ParentNamespace gs package.mangledName owner o ∧ s = .classOrModule o := by
  induction fuel generalizing owner st with
  | zero => exact absurd some_ (Nat.lt_irrefl 0)
  | succ fuel ih =>
    rw [exportParentNamespace]
    by_cases goes : implicitlyExported gs package st owner = true
    · rw [if_pos goes]
      obtain ⟨implicit,fresh⟩ := (implicitlyExported_iff linked).mp goes
      have less := linked.owner_lt implicit.2
      have room := Nat.lt_of_lt_of_le less (Nat.le_of_lt_succ (enough implicit))
      have apart : ∀ o, o < owner → (st.setIsExported (.classOrModule owner) true).isExported (.classOrModule o) =
          st.isExported (.classOrModule o) := by
        intro o less
        apply Function.update_of_ne
        intro same
        cases same
        exact Nat.lt_irrefl _ less
      obtain ⟨st',run,changes⟩ := @ih (gs.classAndModules owner).owner (st.setIsExported (.classOrModule owner) true)
        (by
          intro o above exported implicit'
          have below : o < owner := Nat.lt_of_le_of_lt (above.le linked) less
          have below' := Nat.lt_trans (linked.owner_lt above.implicit.2) below
          rw [apart o below] at exported
          rw [apart _ below']
          exact closed o (above.head implicit) exported implicit')
        (Nat.zero_lt_of_lt room) fun _ => room
      refine ⟨st',run,changes.explicitlyExported,changes.duplicateExports,?_⟩
      intro s
      rw [changes.isExported]
      by_cases same : s = .classOrModule owner
      · subst same
        apply iff_of_true
        · exact .inl (Function.update_self _ _ _)
        · exact .inr ⟨owner,.first implicit,rfl⟩
      · have kept : (st.setIsExported (.classOrModule owner) true).isExported s = st.isExported s := Function.update_of_ne same _ _
        rw [kept]
        apply or_congr_right
        constructor
        · rintro ⟨o,above,rfl⟩
          exact ⟨o,above.head implicit,rfl⟩
        · rintro ⟨o,above,rfl⟩
          rcases above.cases_head with rfl | above
          · exact absurd rfl same
          · exact ⟨o,above,rfl⟩
    · rw [if_neg goes]
      refine ⟨st,rfl,rfl,rfl,?_⟩
      intro s
      apply Iff.symm
      apply or_iff_left_of_imp
      rintro ⟨o,above,rfl⟩
      have exported : st.isExported (.classOrModule owner) = true := by
        by_contra fresh
        exact goes ((implicitlyExported_iff linked).mpr ⟨above.start,Bool.eq_false_iff.mpr fresh⟩)
      -- The loop stops at an owner that is exported, as are the ones above it.
      induction above with
      | first _ => exact exported
      | next above implicit ih => exact closed _ above ih implicit

-- The flags after some lines, where before holds what they were outside of the package.
def Flagged (gs : GlobalState) (P : ClassOrModuleRef) (before : SymbolRef → Bool) (sends : List ExportLine) (s : SymbolRef) : Prop :=
  belongs gs P s = false ∧ before s = true ∨ Exported gs P sends s

theorem postTransformSend_owner {send : ExportLine} (start : ownerOf gs send.symbol = some owner) :
    postTransformSend gs package fuel st send =
      (recursiveSetIsExported gs package true send.symbol send.loc fuel send.symbol st).bind
        (exportParentNamespace gs package fuel owner) := by
  unfold postTransformSend
  cases same : send.symbol with
  | classOrModule ref =>
    rw [same] at start
    cases start
    rfl
  | field ref =>
    rw [same] at start
    cases start
    rfl
  | _ =>
    rw [same] at start
    cases start

theorem postTransformSend_other {send : ExportLine} (none_ : ownerOf gs send.symbol = none) :
    postTransformSend gs package fuel st send = some st ∧ belongs gs package.mangledName send.symbol = false := by
  unfold postTransformSend
  cases same : send.symbol with
  | classOrModule ref =>
    rw [same] at none_
    cases none_
  | field ref =>
    rw [same] at none_
    cases none_
  | _ => exact ⟨rfl,rfl⟩

theorem exported_snoc {P : ClassOrModuleRef} {sends : List ExportLine} {send : ExportLine} {s : SymbolRef} :
    Exported gs P (sends ++ [send]) s ↔ Exported gs P sends s ∨ ExportedBy gs P send.symbol s := by
  unfold Exported
  constructor
  · rintro ⟨other,member,exported⟩
    rcases List.mem_append.mp member with earlier | last
    · exact .inl ⟨other,earlier,exported⟩
    · exact .inr (List.mem_singleton.mp last ▸ exported)
  · rintro (⟨other,earlier,exported⟩ | exported)
    · exact ⟨other,List.mem_append_left _ earlier,exported⟩
    · exact ⟨send,List.mem_append_right _ List.mem_cons_self,exported⟩

-- One line. The maps change with the visits alone.
theorem postTransformSend_changes (linked : Linked gs package.mangledName) (enough : gs.classAndModulesUsed + 2 ≤ fuel)
    {before : SymbolRef → Bool} {sends : List ExportLine}
    (flags : ∀ s, st.isExported s = true ↔ Flagged gs package.mangledName before sends s) (send : ExportLine) :
    ∃ visited st', visits (belongs gs package.mangledName) (children gs) fuel send.symbol = some visited ∧
      postTransformSend gs package fuel st send = some st' ∧
      Changes (visited.foldl (visit gs true send.symbol send.loc) st) st'
        (Flagged gs package.mangledName before (sends ++ [send])) := by
  obtain ⟨visited,run⟩ := linked.walks enough send.symbol
  have marked : ∀ s, (visited.foldl (visit gs true send.symbol send.loc) st).isExported s = true ↔
      Flagged gs package.mangledName before sends s ∨ Reaches gs package.mangledName send.symbol s := by
    intro s
    have inside : s ∈ visited ↔ Reaches gs package.mangledName send.symbol s := mem_visits run
    rw [foldl_visit_isExported,← flags,← inside]
    by_cases member : s ∈ visited
    · simp [member]
    · simp [member]
  cases start : ownerOf gs send.symbol with
  | none =>
    obtain ⟨same,outside⟩ := @postTransformSend_other gs package fuel st send start
    have nothing : visited = [] := by
      cases visited with
      | nil => rfl
      | cons s visited => cases outside.symm.trans (kept_of_visits run List.mem_cons_self)
    subst nothing
    refine ⟨[],st,run,same,rfl,rfl,?_⟩
    intro s
    rw [flags,Flagged,Flagged,exported_snoc]
    apply or_congr_right
    apply Iff.symm
    apply or_iff_left_of_imp
    rintro (reach | ⟨_,_,start',_⟩)
    · cases outside.symm.trans reach.1
    · cases start.symm.trans start'
  | some owner =>
    rw [postTransformSend_owner start,recursiveSetIsExported_eq,run,Option.map_some,Option.bind_some]
    obtain ⟨st',loop,changes⟩ := @exportParentNamespace_changes gs package owner fuel
      (visited.foldl (visit gs true send.symbol send.loc) st) linked
      (by
        intro o above exported implicit
        -- The line has not marked o, so an earlier one has, and with it the owner of o.
        rcases (marked _).mp exported with (⟨outside,_⟩ | earlier) | reach
        · cases outside.symm.trans (belongs_class.mpr above.implicit.2)
        · exact (marked _).mpr (.inl (.inr (linked.exported_owner earlier implicit)))
        · exact absurd reach (linked.above_outside start above))
      (by omega) fun implicit => Nat.lt_of_lt_of_le (linked.packaged owner implicit.2).2 (by omega)
    refine ⟨visited,st',rfl,loop,changes.explicitlyExported,changes.duplicateExports,?_⟩
    intro s
    rw [changes.isExported,marked,Flagged,Flagged,exported_snoc,or_assoc,or_assoc,ExportedBy]
    apply or_congr_right
    apply or_congr_right
    apply or_congr_right
    constructor
    · rintro ⟨o,above,same⟩
      exact ⟨owner,o,start,above,same⟩
    · rintro ⟨owner',o,start',above,same⟩
      cases start.symm.trans start'
      exact ⟨o,above,same⟩

theorem postTransformSends_flags (linked : Linked gs package.mangledName) (enough : gs.classAndModulesUsed + 2 ≤ fuel)
    {before : SymbolRef → Bool} {sends : List ExportLine} (later : List ExportLine)
    (flags : ∀ s, st.isExported s = true ↔ Flagged gs package.mangledName before sends s) :
    ∃ st', later.foldlM (postTransformSend gs package fuel) st = some st' ∧
      ∀ s, st'.isExported s = true ↔ Flagged gs package.mangledName before (sends ++ later) s := by
  induction later generalizing st sends with
  | nil => exact ⟨st,rfl,(List.append_nil sends).symm ▸ flags⟩
  | cons send later ih =>
    obtain ⟨_,st',_,run,changes⟩ := postTransformSend_changes linked enough flags send
    obtain ⟨st'',runs,flags'⟩ := ih changes.isExported
    refine ⟨st'',?_,?_⟩
    · rw [List.foldlM_cons,run]
      exact runs
    · rw [List.append_assoc] at flags'
      exact flags'

end Running

section Unsetting
variable {gs : GlobalState} {package : PackageInfo} {fuel : Nat} {c scope : ClassOrModuleRef} {parts : List NameRef}

theorem packageParts_isSome {P : ClassOrModuleRef} (linked : Linked gs P) (low : root ≤ c) (used : c < gs.classAndModulesUsed)
    (enough : c < fuel) : (packageParts gs fuel c).isSome := by
  induction fuel generalizing c with
  | zero => exact absurd enough (Nat.not_lt_zero c)
  | succ fuel ih =>
    rw [packageParts]
    by_cases stops : c = root ∨ c = packageSpecRegistry
    · rw [if_pos stops]
      rfl
    · rw [if_neg stops,Option.isSome_map]
      obtain ⟨above,less⟩ := linked.owners c (Nat.lt_of_le_of_ne low fun same => stops (.inl same.symm)) used
      exact ih above (Nat.lt_trans less used) (Nat.lt_of_lt_of_le less (Nat.le_of_lt_succ enough))

theorem packageParts_mono {more : Nat} (run : packageParts gs fuel c = some parts) (le : fuel ≤ more) :
    packageParts gs more c = some parts := by
  induction fuel generalizing c parts more with
  | zero => cases run
  | succ fuel ih =>
    cases more with
    | zero => cases le
    | succ more =>
      rw [packageParts] at run ⊢
      by_cases stops : c = root ∨ c = packageSpecRegistry
      · rwa [if_pos stops] at run ⊢
      · rw [if_neg stops] at run ⊢
        obtain ⟨others,rest,rfl⟩ := Option.map_eq_some_iff.mp run
        rw [ih rest (Nat.le_of_succ_le_succ le)]
        rfl

theorem getScopesForPackage_unique {fuel' : Nat} {scopes scopes' : ClassOrModuleRef × ClassOrModuleRef}
    (first : getScopesForPackage gs package fuel = some scopes) (second : getScopesForPackage gs package fuel' = some scopes') :
    scopes = scopes' := by
  obtain ⟨parts,run,rfl⟩ := Option.map_eq_some_iff.mp first
  obtain ⟨parts',run',rfl⟩ := Option.map_eq_some_iff.mp second
  have same : parts = parts' := by
    rcases Nat.le_total fuel fuel' with le | le
    · exact Option.some.inj ((packageParts_mono run le).symm.trans run')
    · exact Option.some.inj (run.symm.trans (packageParts_mono run' le))
  rw [same]

theorem foldl_unset (line : SymbolRef) (loc : LocOffsets) (visited : List SymbolRef) (st : State) :
    (visited.foldl (visit gs false line loc) st).explicitlyExported = st.explicitlyExported ∧
      (visited.foldl (visit gs false line loc) st).duplicateExports = st.duplicateExports := by
  induction visited generalizing st with
  | nil => exact ⟨rfl,rfl⟩
  | cons s visited ih => exact ih _

theorem unsetScope_changes (linked : Linked gs package.mangledName) (enough : gs.classAndModulesUsed + 2 ≤ fuel) (st : State) :
    ∃ st', unsetScope gs package fuel scope st = some st' ∧ Changes st st' fun s =>
      st.isExported s = true ∧ ¬(scope ≠ noClassOrModule ∧ Reaches gs package.mangledName (.classOrModule scope) s) := by
  unfold unsetScope
  by_cases none_ : scope = noClassOrModule
  · rw [if_pos none_]
    refine ⟨st,rfl,rfl,rfl,fun s => ?_⟩
    simp [none_]
  · rw [if_neg none_,recursiveSetIsExported_eq]
    obtain ⟨visited,run⟩ := linked.walks enough (.classOrModule scope)
    obtain ⟨explicitlyExported,duplicateExports⟩ := @foldl_unset gs (.classOrModule scope) .none visited st
    refine ⟨_,by rw [run]; rfl,explicitlyExported,duplicateExports,fun s => ?_⟩
    have inside : s ∈ visited ↔ Reaches gs package.mangledName (.classOrModule scope) s := mem_visits run
    rw [foldl_visit_isExported,← inside]
    by_cases member : s ∈ visited
    · simp [member,none_]
    · simp [member]

theorem unsetAllExportedInPackage_changes (linked : Linked gs package.mangledName) (inScope : Scoped gs package)
    (enough : gs.classAndModulesUsed + 2 ≤ fuel) (st : State) :
    ∃ st', unsetAllExportedInPackage gs package fuel st = some st' ∧ (st'.explicitlyExported = fun _ => none) ∧
      st'.duplicateExports = st.duplicateExports ∧
      ∀ s, st'.isExported s = true ↔ Flagged gs package.mangledName st.isExported [] s := by
  have entered := linked.entered
  obtain ⟨parts,names⟩ := Option.isSome_iff_exists.mp
    (packageParts_isSome linked (Nat.le_of_lt entered.1) entered.2 (Nat.lt_of_lt_of_le entered.2 (Nat.le_of_add_right_le enough)))
  obtain ⟨⟨nonTestScope,testScope⟩,found⟩ : ∃ scopes, getScopesForPackage gs package fuel = some scopes := by
    rw [getScopesForPackage,names]
    exact ⟨_,rfl⟩
  obtain ⟨st₁,first,changes₁⟩ := @unsetScope_changes gs package fuel nonTestScope linked enough st
  obtain ⟨st₂,second,changes₂⟩ := @unsetScope_changes gs package fuel testScope linked enough st₁
  refine ⟨{st₂ with explicitlyExported := fun _ => none},?_,rfl,
    changes₂.duplicateExports.trans changes₁.duplicateExports,?_⟩
  · rw [unsetAllExportedInPackage,found,Option.bind_some]
    dsimp only
    rw [first,Option.bind_some,second]
    rfl
  · intro s
    have flags : st₂.isExported s = true ↔ _ := changes₂.isExported s
    rw [changes₁.isExported] at flags
    rw [flags,Flagged]
    have nothing : ¬Exported gs package.mangledName [] s := fun ⟨_,member,_⟩ => absurd member List.not_mem_nil
    constructor
    · rintro ⟨⟨exported,outside⟩,outside'⟩
      refine .inl ⟨?_,exported⟩
      by_contra kept
      obtain ⟨scope,⟨present,fuel',scopes,found',same⟩,reach⟩ := inScope s (by simpa using kept)
      cases getScopesForPackage_unique found found'
      rcases same with rfl | rfl
      · exact outside ⟨present,reach⟩
      · exact outside' ⟨present,reach⟩
    · rintro (⟨outside,exported⟩ | exported)
      · refine ⟨⟨exported,?_⟩,?_⟩
        · rintro ⟨_,reach⟩
          cases outside.symm.trans reach.kept
        · rintro ⟨_,reach⟩
          cases outside.symm.trans reach.kept
      · exact absurd exported nothing

theorem run_flagged (linked : Linked gs package.mangledName) (inScope : Scoped gs package)
    (enough : gs.classAndModulesUsed + 2 ≤ fuel) (isExported : SymbolRef → Bool) (sends : List ExportLine) :
    ∃ st, run gs package fuel isExported sends = some st ∧
      ∀ s, st.isExported s = true ↔ Flagged gs package.mangledName isExported sends s := by
  obtain ⟨st,unset,_,_,flags⟩ := unsetAllExportedInPackage_changes linked inScope enough ⟨isExported,fun _ => none,fun _ => none⟩
  obtain ⟨st',runs,flags'⟩ := postTransformSends_flags linked enough sends flags
  refine ⟨st',?_,flags'⟩
  rw [run,unset]
  exact runs

end Unsetting

section Reordering
variable {gs : GlobalState} {package : PackageInfo} {P c : ClassOrModuleRef} {fuel : Nat}
  {members : ClassOrModuleRef → List (NameRef × SymbolRef)}

@[simp] theorem belongs_reorder : belongs (gs.reorder members) P = belongs gs P := by
  funext s
  cases s <;> rfl

@[simp] theorem ownerOf_reorder (s : SymbolRef) : ownerOf (gs.reorder members) s = ownerOf gs s := by
  cases s <;> rfl

theorem reaches_reorder (perm : ∀ c, (members c).Perm (gs.classAndModules c).members) :
    Reaches (gs.reorder members) P = Reaches gs P := by
  have child : Child (belongs (gs.reorder members) P) (children (gs.reorder members)) = Child (belongs gs P) (children gs) := by
    funext s t
    unfold Child
    rw [belongs_reorder]
    cases s with
    | classOrModule ref =>
      have same : t ∈ children (gs.reorder members) (.classOrModule ref) ↔ t ∈ children gs (.classOrModule ref) :=
        (((perm ref).filter _).map Prod.snd).mem_iff
      exact congrArg _ (congrArg _ (propext same))
    | _ => rfl
  funext s t
  unfold Reaches Reach
  rw [child,belongs_reorder]

theorem parentNamespace_reorder {owner o : ClassOrModuleRef} :
    ParentNamespace (gs.reorder members) P owner o ↔ ParentNamespace gs P owner o := by
  constructor
  · intro above
    induction above with
    | first implicit => exact .first implicit
    | next _ implicit ih => exact .next ih implicit
  · intro above
    induction above with
    | first implicit => exact .first implicit
    | next _ implicit ih => exact @ParentNamespace.next (gs.reorder members) P owner _ ih implicit

theorem exported_reorder (perm : ∀ c, (members c).Perm (gs.classAndModules c).members) {sends sends' : List ExportLine}
    (same : sends.Perm sends') (s : SymbolRef) :
    Exported (gs.reorder members) P sends' s ↔ Exported gs P sends s := by
  unfold Exported ExportedBy
  simp only [ownerOf_reorder,parentNamespace_reorder,same.mem_iff]
  rw [reaches_reorder perm]

theorem Linked.reorder (linked : Linked gs P) (perm : ∀ c, (members c).Perm (gs.classAndModules c).members) :
    Linked (gs.reorder members) P where
  owners := linked.owners
  packaged := linked.packaged
  entered := linked.entered
  keys c := ((perm c).map Prod.fst).nodup_iff.mpr (linked.keys c)
  classes k name c package inside listed other :=
    (linked.classes k name c package inside ((perm k).mem_iff.mp listed) other).imp_right (And.imp_right (perm c).mem_iff.mpr)
  fields k name f package listed := linked.fields k name f package ((perm k).mem_iff.mp listed)
  ownNames c package := (linked.ownNames c package).imp_left (perm _).mem_iff.mpr
  singletons c package := (linked.singletons c package).trans (exists_congr fun _ => (perm c).mem_iff.symm)
  attached c a package attached := by
    obtain ⟨less,owner,listed⟩ := linked.attached c a package ((perm c).mem_iff.mp attached)
    exact ⟨less,owner,(perm a).mem_iff.mpr listed⟩

theorem lookup_iff {list : List (NameRef × SymbolRef)} (keys : (list.map Prod.fst).Nodup) (name : NameRef) (s : SymbolRef) :
    list.lookup name = some s ↔ (name,s) ∈ list := by
  induction list with
  | nil => simp
  | cons member list ih =>
    obtain ⟨key,t⟩ := member
    obtain ⟨apart,keys⟩ := List.nodup_cons.mp keys
    rw [List.lookup_cons,List.mem_cons]
    by_cases same : name = key
    · subst same
      have absent : (name,s) ∉ list := fun listed => apart (List.mem_map.mpr ⟨_,listed,rfl⟩)
      simp [absent,eq_comm]
    · have other : (name == key) = false := beq_false_of_ne same
      simp only [other]
      rw [ih keys]
      simp [same]

theorem lookup_reorder (linked : Linked gs P) (perm : ∀ c, (members c).Perm (gs.classAndModules c).members)
    (name : NameRef) : (members c).lookup name = (gs.classAndModules c).members.lookup name := by
  apply Option.ext
  intro s
  have keys' := (linked.reorder perm).keys c
  exact (lookup_iff keys' name s).trans ((perm c).mem_iff.trans (lookup_iff (linked.keys c) name s).symm)

theorem findMember_reorder (linked : Linked gs P) (perm : ∀ c, (members c).Perm (gs.classAndModules c).members)
    (name : NameRef) : findMember (gs.reorder members) c name = findMember gs c name :=
  congrArg (Option.map (dealias gs)) (lookup_reorder linked perm name)

theorem getScopeForPackage_reorder (linked : Linked gs P) (perm : ∀ c, (members c).Perm (gs.classAndModules c).members)
    (parts : List NameRef) (result : ClassOrModuleRef) :
    getScopeForPackage (gs.reorder members) parts result = getScopeForPackage gs parts result := by
  induction parts generalizing result with
  | nil => rfl
  | cons part parts ih =>
    rw [getScopeForPackage,getScopeForPackage,findMember_reorder linked perm]
    cases findMember gs result part with
    | none => rfl
    | some s =>
      cases s with
      | classOrModule ref => simp only [ih]
      | _ => rfl

theorem packageParts_reorder : packageParts (gs.reorder members) fuel c = packageParts gs fuel c := by
  induction fuel generalizing c with
  | zero => rfl
  | succ fuel ih =>
    rw [packageParts,packageParts,ih]
    rfl

theorem Scoped.reorder (inScope : Scoped gs package) (linked : Linked gs package.mangledName)
    (perm : ∀ c, (members c).Perm (gs.classAndModules c).members) : Scoped (gs.reorder members) package := by
  have scopes : ∀ fuel, getScopesForPackage (gs.reorder members) package fuel = getScopesForPackage gs package fuel := by
    intro fuel
    unfold getScopesForPackage
    rw [packageParts_reorder,findMember_reorder linked perm]
    simp only [getScopeForPackage_reorder linked perm]
  intro s kept
  rw [belongs_reorder] at kept
  obtain ⟨scope,⟨present,fuel,found,run,same⟩,reach⟩ := inScope s kept
  refine ⟨scope,⟨present,fuel,found,(scopes fuel).trans run,same⟩,?_⟩
  rw [reaches_reorder perm]
  exact reach

end Reordering

-- The flags of the package are those of the exported symbols, of what lies below them, and of
-- the namespaces above the lines; no order matters.
theorem run_flags {gs : GlobalState} {package : PackageInfo} (linked : Linked gs package.mangledName)
    (inScope : Scoped gs package) (isExported : SymbolRef → Bool) (sends : List ExportLine) (fuel : Nat)
    (enough : gs.classAndModulesUsed + 2 ≤ fuel) :
    ∃ st, run gs package fuel isExported sends = some st ∧
      (∀ s, belongs gs package.mangledName s = true →
        (st.isExported s = true ↔ Exported gs package.mangledName sends s)) ∧
      (∀ s, belongs gs package.mangledName s = false → st.isExported s = isExported s) ∧
      ∀ members, (∀ c, (members c).Perm (gs.classAndModules c).members) → ∀ sends', sends.Perm sends' →
        ∃ st', run (gs.reorder members) package fuel isExported sends' = some st' ∧ st'.isExported = st.isExported := by
  obtain ⟨st,runs,flags⟩ := run_flagged linked inScope enough isExported sends
  refine ⟨st,runs,?_,?_,?_⟩
  · intro s kept
    rw [flags,Flagged]
    simp [kept]
  · intro s outside
    have none_ : ¬Exported gs package.mangledName sends s := fun exported => by
      cases outside.symm.trans (exported_belongs exported)
    rw [Bool.eq_iff_iff,flags,Flagged]
    simp [outside,none_]
  · intro members perm sends' same
    obtain ⟨st',runs',flags'⟩ := run_flagged (linked.reorder perm) (inScope.reorder linked perm) enough isExported sends'
    refine ⟨st',runs',?_⟩
    funext s
    rw [Bool.eq_iff_iff,flags,flags',Flagged,Flagged,exported_reorder perm same,belongs_reorder]

section Samples

-- The package 82 has the class 83, in which the class 84 is nested with its singleton class 85
-- and the static field 1.
def nestedTable : GlobalState where
  classAndModules := fun c =>
    if c = 3 then ⟨10,3,[(11,.classOrModule 83)],none,false,false⟩
    else if c = 82 then ⟨11,81,[],none,false,false⟩
    else if c = 83 then ⟨11,3,[(12,.classOrModule 84),(13,.classOrModule 85)],some 82,false,false⟩
    else if c = 84 then ⟨12,83,[(Names.singleton,.classOrModule 85),(14,.field 1)],some 82,false,false⟩
    else if c = 85 then ⟨13,83,[(Names.attached,.classOrModule 84)],some 82,true,false⟩
    else ⟨10,3,[],none,false,false⟩
  alias_ := fun _ => none
  classAndModulesUsed := 86
  fields := fun f => if f = 1 then ⟨14,84,true⟩ else ⟨15,3,false⟩
  methodOwner := fun _ => 3
  typeParameterOwner := fun _ => 0
  typeMemberOwner := fun _ => 3

def nestedPackage : PackageInfo := ⟨82,false⟩

theorem nestedTable_packaged {c : ClassOrModuleRef} (package : (nestedTable.classAndModules c).package = some 82) :
    c = 83 ∨ c = 84 ∨ c = 85 := by
  by_contra other
  simp only [not_or] at other
  simp only [nestedTable,other] at package
  split at package
  · cases package
  · split at package <;> cases package

theorem nestedTable_members {c : ClassOrModuleRef} {member : NameRef × SymbolRef}
    (listed : member ∈ (nestedTable.classAndModules c).members) :
    (c = 3 ∧ member = (11,.classOrModule 83)) ∨ (c = 83 ∧ member = (12,.classOrModule 84)) ∨
      (c = 83 ∧ member = (13,.classOrModule 85)) ∨ (c = 84 ∧ member = (Names.singleton,.classOrModule 85)) ∨
      (c = 84 ∧ member = (14,.field 1)) ∨ (c = 85 ∧ member = (Names.attached,.classOrModule 84)) := by
  unfold nestedTable at listed
  dsimp only at listed
  split at listed
  · simp_all
  · split at listed
    · cases listed
    · split at listed
      · simp_all
      · split at listed
        · simp_all
        · split at listed
          · simp_all
          · cases listed

theorem nestedTable_linked : Linked nestedTable 82 where
  owners c low used := by
    have all : ∀ c < 86, root < c → root ≤ (nestedTable.classAndModules c).owner ∧ (nestedTable.classAndModules c).owner < c := by decide
    exact all c used low
  packaged c package := by
    rcases nestedTable_packaged package with rfl | rfl | rfl <;> decide
  entered := by decide
  keys c := by
    unfold nestedTable
    dsimp only
    repeat' split
    all_goals decide
  classes k name c package inside listed other := by
    rcases nestedTable_members listed with ⟨rfl,same⟩ | ⟨rfl,same⟩ | ⟨rfl,same⟩ | ⟨rfl,same⟩ | ⟨rfl,same⟩ | ⟨rfl,same⟩
    all_goals cases same
    all_goals first | exact absurd rfl other | exact .inl ⟨rfl,rfl⟩ | exact .inr ⟨rfl,by decide⟩
  fields k name f package listed := by
    rcases nestedTable_members listed with ⟨rfl,same⟩ | ⟨rfl,same⟩ | ⟨rfl,same⟩ | ⟨rfl,same⟩ | ⟨rfl,same⟩ | ⟨rfl,same⟩
    all_goals cases same
    exact ⟨rfl,rfl⟩
  ownNames c package := by
    rcases nestedTable_packaged package with rfl | rfl | rfl <;> decide
  singletons c package := by
    constructor
    · intro single
      rcases nestedTable_packaged package with rfl | rfl | rfl
      · cases single
      · cases single
      · exact ⟨84,List.mem_cons_self⟩
    · rintro ⟨a,attached⟩
      rcases nestedTable_members attached with ⟨rfl,same⟩ | ⟨rfl,same⟩ | ⟨rfl,same⟩ | ⟨rfl,same⟩ | ⟨rfl,same⟩ | ⟨rfl,same⟩
      all_goals cases same
      rfl
  attached c a package attached := by
    rcases nestedTable_members attached with ⟨rfl,same⟩ | ⟨rfl,same⟩ | ⟨rfl,same⟩ | ⟨rfl,same⟩ | ⟨rfl,same⟩ | ⟨rfl,same⟩
    all_goals cases same
    decide

theorem nestedTable_scoped : Scoped nestedTable nestedPackage := by
  have outer : Reaches nestedTable 82 (.classOrModule 83) (.classOrModule 83) := .self (by decide)
  have inner : Reaches nestedTable 82 (.classOrModule 83) (.classOrModule 84) := outer.step (by decide)
  have scope : Scope nestedTable nestedPackage 83 := ⟨by decide,2,(83,noClassOrModule),by decide,.inl rfl⟩
  intro s kept
  refine ⟨83,scope,?_⟩
  cases s with
  | classOrModule c =>
    rcases nestedTable_packaged (belongs_class.mp kept) with rfl | rfl | rfl
    · exact outer
    · exact inner
    · exact inner.step (by decide)
  | field f =>
    by_cases first : f = 1
    · subst first
      exact inner.step (by decide)
    · simp [belongs,nestedTable,first] at kept
  | _ => cases kept

theorem run_flags_nested : ∃ st,
    run nestedTable nestedPackage 88 (fun _ => false) [⟨.classOrModule 84,⟨0,1⟩⟩] = some st ∧
      st.isExported (.field 1) = true ∧ st.isExported (.classOrModule 83) = true := by
  obtain ⟨st,runs,flags,_⟩ := @run_flags nestedTable nestedPackage nestedTable_linked nestedTable_scoped (fun _ => false)
    [⟨.classOrModule 84,⟨0,1⟩⟩] 88 (by decide)
  refine ⟨st,runs,(flags _ (by decide)).mpr ?_,(flags _ (by decide)).mpr ?_⟩
  · exact ⟨_,List.mem_cons_self,.inl (Reach.step (.self (by decide)) (by decide))⟩
  · exact ⟨_,List.mem_cons_self,.inr ⟨83,83,rfl,.first ⟨rfl,rfl⟩,rfl⟩⟩

end Samples

end Packager.Visibility
