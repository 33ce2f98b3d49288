import ScipRuby.Packager.ExportedFlags

namespace Packager.Visibility
open Preorder

-- A singleton class above the symbol is reached from its owner and from its attached class.
def Twice (gs : GlobalState) (P : ClassOrModuleRef) (top s : SymbolRef) : Prop :=
  ∃ a c, Attached gs c a ∧ Reaches gs P top (.classOrModule a) ∧
    Reaches gs P top (.classOrModule (gs.classAndModules c).owner) ∧ Reaches gs P (.classOrModule c) s

section Routes
variable {gs : GlobalState} {P k c a : ClassOrModuleRef} {s t : SymbolRef}

theorem Linked.attached_unique (linked : Linked gs P) {a' : ClassOrModuleRef} (first : Attached gs c a)
    (second : Attached gs c a') : a = a' := by
  have one := (lookup_iff (linked.keys c) _ _).mpr first
  have two := (lookup_iff (linked.keys c) _ _).mpr second
  cases one.symm.trans two
  rfl

-- The classes of the package are members of their owners.
theorem Linked.child_of_owner (linked : Linked gs P) (package : (gs.classAndModules c).package = some P)
    (owner : (gs.classAndModules (gs.classAndModules c).owner).package = some P) :
    Child (belongs gs P) (children gs) (.classOrModule (gs.classAndModules c).owner) (.classOrModule c) := by
  obtain ⟨listed,other,_⟩ := linked.ownNames c package
  refine ⟨belongs_class.mpr owner,belongs_class.mpr package,?_⟩
  exact List.mem_map.mpr ⟨_,List.mem_filter.mpr ⟨listed,decide_eq_true other⟩,rfl⟩

theorem Linked.apart (linked : Linked gs P) (s : SymbolRef) (kept : belongs gs P s = true) :
    (children gs s).Pairwise fun t u => belongs gs P t = true → t ≠ u := by
  cases s with
  | classOrModule k =>
    have package := belongs_class.mp kept
    apply List.pairwise_map.mpr
    have keys := (List.pairwise_map.mp (linked.keys k)).filter fun member => decide (member.1 ≠ Names.attached)
    apply keys.imp_of_mem
    intro m m' inside inside' different keptChild same
    obtain ⟨listed,other⟩ := List.mem_filter.mp inside
    obtain ⟨listed',other'⟩ := List.mem_filter.mp inside'
    obtain ⟨name,t⟩ := m
    obtain ⟨name',t'⟩ := m'
    cases same
    apply different
    cases t with
    | classOrModule c =>
      have child := belongs_class.mp keptChild
      have less := linked.owner_lt child
      rcases linked.classes k name c package child listed (of_decide_eq_true other) with ⟨own,owner⟩ | ⟨single,attached⟩
      · rcases linked.classes k name' c package child listed' (of_decide_eq_true other') with ⟨own',_⟩ | ⟨_,attached⟩
        · exact own.trans own'.symm
        · -- An owner is not the attached class, which has the same owner.
          have beside := (linked.attached c k child attached).2.1
          have above := linked.owner_lt package
          rw [← beside,owner] at above
          exact absurd above (Nat.lt_irrefl k)
      · rcases linked.classes k name' c package child listed' (of_decide_eq_true other') with ⟨_,owner⟩ | ⟨single',_⟩
        · have beside := (linked.attached c k child attached).2.1
          have above := linked.owner_lt package
          rw [← beside,owner] at above
          exact absurd above (Nat.lt_irrefl k)
        · exact single.trans single'.symm
    | field f => exact (linked.fields k name f package listed).1.trans (linked.fields k name' f package listed').1.symm
    | _ => cases keptChild
  | _ => exact List.Pairwise.nil

-- Two parents of a node are the owner and the attached class of a singleton class.
theorem Linked.two_parents (linked : Linked gs P) {p q u : SymbolRef} (childP : Child (belongs gs P) (children gs) p u)
    (childQ : Child (belongs gs P) (children gs) q u) (other : p ≠ q) :
    ∃ a c, u = .classOrModule c ∧ (gs.classAndModules c).package = some P ∧ Attached gs c a ∧
      (p = .classOrModule (gs.classAndModules c).owner ∧ q = .classOrModule a ∨
        p = .classOrModule a ∧ q = .classOrModule (gs.classAndModules c).owner) := by
  obtain ⟨k,rfl,_,⟨c,rfl,package,up⟩ | ⟨f,rfl,up⟩⟩ := linked.child_cases childP
  · obtain ⟨k',rfl,_,⟨c',same,_,up'⟩ | ⟨f,same,_⟩⟩ := linked.child_cases childQ
    · cases same
      rcases up with owner | attached
      · rcases up' with owner' | attached'
        · exact absurd (by rw [← owner,← owner']) other
        · exact ⟨k',c,rfl,package,attached',.inl ⟨owner ▸ rfl,rfl⟩⟩
      · rcases up' with owner' | attached'
        · exact ⟨k,c,rfl,package,attached,.inr ⟨rfl,owner' ▸ rfl⟩⟩
        · exact absurd (by rw [linked.attached_unique attached attached']) other
    · cases same
  · obtain ⟨k',rfl,_,⟨c',same,_⟩ | ⟨f',same,up'⟩⟩ := linked.child_cases childQ
    · cases same
    · cases same
      exact absurd (by rw [← up,← up']) other

theorem Linked.parents (linked : Linked gs P) {p q u : SymbolRef} (childP : Child (belongs gs P) (children gs) p u)
    (childQ : Child (belongs gs P) (children gs) q u) :
    p = q ∨ Child (belongs gs P) (children gs) p q ∨ Child (belongs gs P) (children gs) q p := by
  by_cases same : p = q
  · exact .inl same
  obtain ⟨a,c,rfl,package,attached,crossing⟩ := linked.two_parents childP childQ same
  have beside := (linked.attached c a package attached).2.1
  -- The attached class has the same owner.
  have child : ∀ x y, x = SymbolRef.classOrModule (gs.classAndModules c).owner → y = .classOrModule a →
      belongs gs P x = true → belongs gs P y = true → Child (belongs gs P) (children gs) x y := by
    rintro _ _ rfl rfl keptX keptY
    rw [beside] at keptX ⊢
    exact linked.child_of_owner (belongs_class.mp keptY) (belongs_class.mp keptX)
  rcases crossing with ⟨atP,atQ⟩ | ⟨atP,atQ⟩
  · exact .inr (.inl (child p q atP atQ childP.1 childQ.1))
  · exact .inr (.inr (child q p atQ atP childQ.1 childP.1))

theorem Linked.crossed (linked : Linked gs P) {p q u top : SymbolRef} (other : p ≠ q) (downP : Reaches gs P top p)
    (downQ : Reaches gs P top q) (childP : Child (belongs gs P) (children gs) p u)
    (childQ : Child (belongs gs P) (children gs) q u) (below : Reaches gs P u s) : Twice gs P top s := by
  obtain ⟨a,c,rfl,_,attached,⟨rfl,rfl⟩ | ⟨rfl,rfl⟩⟩ := linked.two_parents childP childQ other
  · exact ⟨a,c,attached,downQ,downP,below⟩
  · exact ⟨a,c,attached,downP,downQ,below⟩

-- Of two nodes above the same symbol one is above the other.
theorem Linked.comparable (linked : Linked gs P) {u : SymbolRef} (one : Reaches gs P s u) (two : Reaches gs P t u) :
    Reaches gs P s t ∨ Reaches gs P t s := by
  generalize same : rank gs u = n
  induction n using Nat.strongRecOn generalizing s t u with
  | ind n ih =>
    subst same
    by_cases here : u = s
    · exact .inr (here ▸ two)
    by_cases there : u = t
    · exact .inl (there ▸ one)
    obtain ⟨p,downP,childP⟩ := one.parent here
    obtain ⟨q,downQ,childQ⟩ := two.parent there
    rcases linked.parents childP childQ with rfl | child | child
    · exact ih _ (linked.deeper p u childP) downP downQ rfl
    · exact ih _ (linked.deeper q u childQ) (downP.step child) downQ rfl
    · exact ih _ (linked.deeper p u childP) downP (downQ.step child) rfl

-- Where a symbol is visited once, the nodes above it have one parent each.
theorem Linked.forest (linked : Linked gs P) (once : ¬Twice gs P t s) :
    Forest (belongs gs P) (children gs) fun u => Reaches gs P t u ∧ Reaches gs P u s where
  between := by
    rintro u v w ⟨above,_⟩ down on_ ⟨_,below⟩
    exact ⟨above.trans down,on_.trans below⟩
  unique := by
    rintro p q u ⟨downP,_⟩ ⟨downQ,_⟩ ⟨_,below⟩ childP childQ
    by_contra other
    exact once (linked.crossed other downP downQ childP childQ below)

theorem Linked.twice_iff (linked : Linked gs P) {fuel : Nat} {visited : List SymbolRef}
    (run : visits (belongs gs P) (children gs) fuel t = some visited) : [s,s].Sublist visited ↔ Twice gs P t s := by
  constructor
  · intro twice
    by_contra once
    obtain ⟨before,after,rfl,front,back⟩ := List.cons_sublist_iff.mp twice
    obtain ⟨middle,later,rfl⟩ := List.append_of_mem (List.singleton_sublist.mp back)
    rw [← List.append_assoc] at run
    have reach := (mem_visits run).mp (List.mem_append_right _ List.mem_cons_self)
    exact visits_fresh (linked.forest once) linked.deeper linked.apart ⟨.self reach.1,reach⟩ ⟨reach,.self reach.kept⟩ run
      (List.mem_append_left middle front)
  · rintro ⟨a,c,attached,toA,toOwner,below⟩
    have package := belongs_class.mp below.1
    obtain ⟨less,beside,listed⟩ := linked.attached c a package attached
    have fromOwner := linked.child_of_owner package (belongs_class.mp toOwner.kept)
    have fromA : Child (belongs gs P) (children gs) (.classOrModule a) (.classOrModule c) :=
      ⟨toA.kept,below.1,List.mem_map.mpr ⟨_,List.mem_filter.mpr ⟨listed,rfl⟩,rfl⟩⟩
    have other : SymbolRef.classOrModule a ≠ .classOrModule (gs.classAndModules c).owner := by
      intro same
      cases same
      have above := linked.owner_lt (belongs_class.mp toA.kept)
      rw [← beside] at above
      exact absurd above (Nat.lt_irrefl _)
    exact visits_twice linked.deeper other toA toOwner fromA fromOwner below run

end Routes

end Packager.Visibility

namespace Packager.Visibility
open Preorder

section Meaning
variable (gs : GlobalState) (P : ClassOrModuleRef)

-- Export lines of the package at distinct locations.
structure Lines (sends : List ExportLine) : Prop where
  symbols : ∀ send ∈ sends, belongs gs P send.symbol = true ∧ isSingletonClass gs send.symbol = false
  locs : (sends.map ExportLine.loc).Nodup
  existing : ∀ send ∈ sends, send.loc.Existing

-- Why a line should have an error: an earlier line exported its symbol, or another line
-- exports something that its symbol is strictly below.
def Justified (before : List ExportLine) (send : ExportLine) (after : List ExportLine) : Prop :=
  (∃ first ∈ before, Reaches gs P first.symbol send.symbol) ∨
    ∃ other ∈ before ++ after, other.symbol ≠ send.symbol ∧ Reaches gs P other.symbol send.symbol

def Exact (sends : List ExportLine) (st : State) : Prop :=
  ∀ before send after, sends = before ++ send :: after →
    (st.duplicateExports send.loc ≠ none ↔ Justified gs P before send after)

-- What a line is the first to export, it visits once, and no later line below it visits it
-- again on the way down. Lines that should have an error are excepted.
def Harmless (sends : List ExportLine) : Prop :=
  ∀ before send after, sends = before ++ send :: after → ¬Justified gs P before send after →
    ∀ s, isSingletonClass gs s = false → Reaches gs P send.symbol s → (∀ first ∈ before, ¬Reaches gs P first.symbol s) →
      ¬Twice gs P send.symbol s ∧ ∀ other ∈ after, Reaches gs P send.symbol other.symbol → Reaches gs P other.symbol s →
        s = other.symbol

-- Why a line has an error in the end.
def Reported (before : List ExportLine) (send : ExportLine) (after : List ExportLine) : Prop :=
  (∃ first ∈ before, Reaches gs P first.symbol send.symbol) ∨
    ∃ s, isSingletonClass gs s = false ∧ Reaches gs P send.symbol s ∧ (∀ first ∈ before, ¬Reaches gs P first.symbol s) ∧
      (Twice gs P send.symbol s ∨ ∃ other ∈ after, s ≠ other.symbol ∧ Reaches gs P other.symbol s)

open Classical in
noncomputable def firstExport (sends : List ExportLine) (s : SymbolRef) : Option ExportLine :=
  sends.find? fun send => Reaches gs P send.symbol s

-- What the map of the blames holds after the given lines.
def Explicit (sends : List ExportLine) (explicitly : SymbolRef → Option ExportBlame) : Prop :=
  ∀ s, explicitly s =
    if isSingletonClass gs s then none else (firstExport gs P sends s).map fun send => ⟨send.symbol,send.loc⟩

-- What a line changes in the error map, and what is in it after the given lines.
structure Told (sends : List ExportLine) (st : State) : Prop where
  explicitlyExported : Explicit gs P sends st.explicitlyExported
  reported : ∀ before send after, sends = before ++ send :: after →
    (st.duplicateExports send.loc ≠ none ↔ Reported gs P before send after)
  others : ∀ loc, loc ∉ sends.map ExportLine.loc → st.duplicateExports loc = none

end Meaning

-- What a visit records for the location, where explicitly holds what earlier lines exported.
def blame (explicitly : SymbolRef → Option ExportBlame) (line : ExportLine) (loc : LocOffsets) (s : SymbolRef) :
    Option DuplicateExportError :=
  (explicitly s).bind fun earlier =>
    if (if s = line.symbol then line.loc else earlier.firstExportedAt) = loc then
      some ⟨s,line.symbol,if s = line.symbol then earlier.firstExportedAt else line.loc⟩
    else none

section Visiting
variable {gs : GlobalState} {line : ExportLine} {st : State} {s t : SymbolRef} {loc : LocOffsets}

theorem visit_explicitlyExported (existing : line.loc.Existing) :
    (visit gs true line.symbol line.loc st s).explicitlyExported t =
      (st.explicitlyExported t).or (if t = s ∧ isSingletonClass gs t = false then some ⟨line.symbol,line.loc⟩ else none) := by
  simp only [visit,State.setIsExported,if_true,checkDuplicateExport]
  by_cases same : t = s
  · subst same
    cases known : st.explicitlyExported t with
    | some earlier =>
      dsimp only
      split <;> split <;> simp [known]
    | none =>
      by_cases single : isSingletonClass gs t = true
      · simp [single,known]
      · simp [single,existing]
  · cases known : st.explicitlyExported s with
    | some earlier =>
      dsimp only
      split <;> split <;> simp [same]
    | none =>
      dsimp only
      split
      · simp [same]
      · simp [same]

theorem visit_duplicateExports (exported : st.explicitlyExported s ≠ none → st.isExported s = true) :
    (visit gs true line.symbol line.loc st s).duplicateExports loc =
      (st.duplicateExports loc).or (blame st.explicitlyExported line loc s) := by
  simp only [visit,State.setIsExported,if_true,checkDuplicateExport,blame]
  cases known : st.explicitlyExported s with
  | none =>
    dsimp only
    split <;> simp
  | some earlier =>
    have already := exported (by simp [known])
    simp only [already,true_and,Option.bind_some,decide_eq_true_eq]
    generalize (if s = line.symbol then line.loc else earlier.firstExportedAt) = errLoc
    generalize (if s = line.symbol then earlier.firstExportedAt else line.loc) = firstExportedAt
    by_cases here : errLoc = loc
    · subst here
      cases found : st.duplicateExports errLoc with
      | none => simp
      | some error => simp [found]
    · rw [if_neg here,Option.or_none]
      split
      · exact Function.update_of_ne (Ne.symm here) _ _
      · rfl

-- What is known to be exported stays so.
theorem visit_exported (existing : line.loc.Existing)
    (exported : ∀ s, st.explicitlyExported s ≠ none → isSingletonClass gs s = false ∧ st.isExported s = true) (t : SymbolRef)
    (known : (visit gs true line.symbol line.loc st s).explicitlyExported t ≠ none) :
    isSingletonClass gs t = false ∧ (visit gs true line.symbol line.loc st s).isExported t = true := by
  rw [visit_explicitlyExported existing] at known
  rw [visit_isExported]
  by_cases here : t = s
  · subst here
    refine ⟨?_,Function.update_self _ _ _⟩
    by_contra single
    apply known
    rw [if_neg fun both => single both.2,Option.or_none]
    by_contra known
    exact single (exported t known).1
  · rw [if_neg fun both => here both.1,Option.or_none] at known
    rw [Function.update_of_ne here]
    exact exported t known

theorem foldl_visit_explicitlyExported (existing : line.loc.Existing) (visited : List SymbolRef) (st : State) :
    (visited.foldl (visit gs true line.symbol line.loc) st).explicitlyExported t =
      (st.explicitlyExported t).or (if t ∈ visited ∧ isSingletonClass gs t = false then some ⟨line.symbol,line.loc⟩ else none) := by
  induction visited generalizing st with
  | nil => simp
  | cons s visited ih =>
    rw [List.foldl_cons,ih,visit_explicitlyExported existing,Option.or_assoc]
    by_cases same : t = s
    · by_cases single : isSingletonClass gs t = true
      · simp [single]
      · simp [same ▸ single,same]
    · simp [same]

theorem blame_iff {explicitly : SymbolRef → Option ExportBlame} : blame explicitly line loc s ≠ none ↔
    ∃ earlier, explicitly s = some earlier ∧ (if s = line.symbol then line.loc else earlier.firstExportedAt) = loc := by
  unfold blame
  cases explicitly s with
  | none => simp
  | some earlier => simp

-- A visit leads to an error at the location, as the walk goes.
def Blames (gs : GlobalState) (explicitly : SymbolRef → Option ExportBlame) (line : ExportLine) (visited : List SymbolRef)
    (loc : LocOffsets) (s : SymbolRef) : Prop :=
  (∃ earlier, explicitly s = some earlier ∧ (if s = line.symbol then line.loc else earlier.firstExportedAt) = loc) ∨
    explicitly s = none ∧ isSingletonClass gs s = false ∧ [s,s].Sublist visited ∧ line.loc = loc

theorem foldl_visit_reported (existing : line.loc.Existing) (visited : List SymbolRef) (st : State)
    (exported : ∀ s, st.explicitlyExported s ≠ none → isSingletonClass gs s = false ∧ st.isExported s = true) :
    (visited.foldl (visit gs true line.symbol line.loc) st).duplicateExports loc ≠ none ↔
      st.duplicateExports loc ≠ none ∨ ∃ s ∈ visited, Blames gs st.explicitlyExported line visited loc s := by
  induction visited generalizing st with
  | nil => simp
  | cons s visited ih =>
    rw [List.foldl_cons,ih _ (visit_exported existing exported),visit_duplicateExports fun known => (exported s known).2,
      ne_eq,Option.or_eq_none_iff,not_and_or,← ne_eq,← ne_eq,blame_iff,or_assoc]
    apply or_congr_right
    constructor
    · rintro (now | ⟨t,member,later⟩)
      · exact ⟨s,List.mem_cons_self,.inl now⟩
      · refine ⟨t,List.mem_cons_of_mem s member,?_⟩
        rcases later with ⟨earlier,known,at_⟩ | ⟨unknown,single,twice,at_⟩
        · rw [visit_explicitlyExported existing] at known
          cases before : st.explicitlyExported t with
          | some earlier' =>
            rw [before,Option.some_or] at known
            cases known
            exact .inl ⟨earlier,before,at_⟩
          | none =>
            rw [before,Option.none_or] at known
            by_cases here : t = s ∧ isSingletonClass gs t = false
            · rw [if_pos here] at known
              cases known
              rw [ite_self] at at_
              refine .inr ⟨before,here.2,?_,at_⟩
              rw [here.1] at member ⊢
              exact (List.singleton_sublist.mpr member).cons_cons s
            · rw [if_neg here] at known
              cases known
        · rw [visit_explicitlyExported existing] at unknown
          exact .inr ⟨(Option.or_eq_none_iff.mp unknown).1,single,twice.cons s,at_⟩
    · rintro ⟨t,member,⟨earlier,known,at_⟩ | ⟨unknown,single,twice,at_⟩⟩
      · rcases List.mem_cons.mp member with rfl | later
        · exact .inl ⟨earlier,known,at_⟩
        · refine .inr ⟨t,later,.inl ⟨earlier,?_,at_⟩⟩
          rw [visit_explicitlyExported existing,known,Option.some_or]
      · have known := @visit_explicitlyExported gs line st s t existing
        rw [unknown,Option.none_or] at known
        apply Or.inr
        rcases List.sublist_cons_iff.mp twice with later | ⟨rest,same,later⟩
        · have inside := later.mem List.mem_cons_self
          by_cases here : t = s
          · rw [if_pos ⟨here,single⟩] at known
            exact ⟨t,inside,.inl ⟨_,known,(ite_self _).trans at_⟩⟩
          · rw [if_neg fun both => here both.1] at known
            exact ⟨t,inside,.inr ⟨known,single,later,at_⟩⟩
        · obtain ⟨here,rfl⟩ := List.cons_eq_cons.mp same
          rw [if_pos ⟨here,single⟩] at known
          exact ⟨t,List.singleton_sublist.mp later,.inl ⟨_,known,(ite_self _).trans at_⟩⟩

end Visiting

section Firsts
variable {gs : GlobalState} {P : ClassOrModuleRef} {sends before after : List ExportLine} {send first : ExportLine} {s : SymbolRef}

theorem firstExport_reaches (found : firstExport gs P sends s = some first) : first ∈ sends ∧ Reaches gs P first.symbol s := by
  refine ⟨List.mem_of_find?_eq_some found,?_⟩
  unfold firstExport at found
  simpa using List.find?_some found

theorem firstExport_none : firstExport gs P sends s = none ↔ ∀ send ∈ sends, ¬Reaches gs P send.symbol s := by
  simp [firstExport]

open Classical in
theorem firstExport_append : firstExport gs P (before ++ after) s = (firstExport gs P before s).or (firstExport gs P after s) :=
  List.find?_append

open Classical in
theorem firstExport_single : firstExport gs P [send] s = if Reaches gs P send.symbol s then some send else none := by
  simp [firstExport,List.find?_cons]
  split <;> simp_all

-- The line itself, where no earlier line reaches its symbol.
theorem firstExport_self (fresh : firstExport gs P before send.symbol = none) (kept : belongs gs P send.symbol = true) :
    firstExport gs P (before ++ send :: after) send.symbol = some send := by
  rw [firstExport_append,fresh,Option.none_or]
  simp [firstExport,Reach.self kept]

end Firsts

section Explicitly
variable {gs : GlobalState} {P : ClassOrModuleRef} {sends before after : List ExportLine} {send other : ExportLine}
  {s : SymbolRef} {loc : LocOffsets} {visited : List SymbolRef} {fuel : Nat} {explicitly : SymbolRef → Option ExportBlame}

theorem Explicit.known (explicit : Explicit gs P sends explicitly) {earlier : ExportBlame} (known : explicitly s = some earlier) :
    isSingletonClass gs s = false ∧ ∃ first, firstExport gs P sends s = some first ∧ earlier.firstExportedAt = first.loc := by
  rw [explicit s] at known
  by_cases single : isSingletonClass gs s = true
  · rw [if_pos single] at known
    cases known
  · rw [if_neg single] at known
    obtain ⟨first,found,rfl⟩ := Option.map_eq_some_iff.mp known
    exact ⟨Bool.eq_false_iff.mpr single,first,found,rfl⟩

theorem Lines.front (lines : Lines gs P (sends ++ after)) : Lines gs P sends where
  symbols other member := lines.symbols other (List.mem_append_left _ member)
  locs := by
    have locs := lines.locs
    rw [List.map_append] at locs
    exact (List.nodup_append.mp locs).1
  existing other member := lines.existing other (List.mem_append_left _ member)

theorem Lines.fresh (lines : Lines gs P (sends ++ [send])) (member : other ∈ sends) : other.loc ≠ send.loc := by
  have locs := lines.locs
  rw [List.map_append] at locs
  exact (List.nodup_append.mp locs).2.2 _ (List.mem_map_of_mem member) _ List.mem_cons_self

theorem Lines.loc_inj (lines : Lines gs P sends) {first : ExportLine} (inFirst : first ∈ sends) (inOther : other ∈ sends)
    (same : first.loc = other.loc) : first = other := List.inj_on_of_nodup_map lines.locs inFirst inOther same

theorem Explicit.exported {st : State} (explicit : Explicit gs P sends st.explicitlyExported)
    (flags : ∀ s, Exported gs P sends s → st.isExported s = true) (s : SymbolRef) (known : st.explicitlyExported s ≠ none) :
    isSingletonClass gs s = false ∧ st.isExported s = true := by
  obtain ⟨earlier,known⟩ := Option.ne_none_iff_exists'.mp known
  obtain ⟨single,first,found,_⟩ := explicit.known known
  obtain ⟨member,reach⟩ := firstExport_reaches found
  exact ⟨single,flags s ⟨first,member,.inl reach⟩⟩

open Classical in
theorem Explicit.step {st : State} (explicit : Explicit gs P sends st.explicitlyExported) (existing : send.loc.Existing)
    (run : visits (belongs gs P) (children gs) fuel send.symbol = some visited) :
    Explicit gs P (sends ++ [send]) (visited.foldl (visit gs true send.symbol send.loc) st).explicitlyExported := by
  intro s
  have inside : s ∈ visited ↔ Reaches gs P send.symbol s := mem_visits run
  rw [foldl_visit_explicitlyExported existing,explicit s,firstExport_append,firstExport_single]
  by_cases single : isSingletonClass gs s = true
  · simp [single]
  · cases firstExport gs P sends s with
    | some first => simp [single]
    | none =>
      by_cases reach : Reaches gs P send.symbol s
      · simp [single,reach,inside.mpr reach]
      · simp [reach,mt inside.mp reach]

theorem Explicit.none_iff (explicit : Explicit gs P sends explicitly) (single : isSingletonClass gs s = false) :
    explicitly s = none ↔ ∀ send ∈ sends, ¬Reaches gs P send.symbol s := by
  rw [explicit s,if_neg (by simp [single]),Option.map_eq_none_iff,firstExport_none]

-- The symbols that a line was the first to export.
theorem Explicit.at_iff (lines : Lines gs P sends) (explicit : Explicit gs P sends explicitly)
    (split : sends = before ++ other :: after) :
    (∃ earlier, explicitly s = some earlier ∧ earlier.firstExportedAt = other.loc) ↔
      isSingletonClass gs s = false ∧ Reaches gs P other.symbol s ∧ ∀ first ∈ before, ¬Reaches gs P first.symbol s := by
  have member : other ∈ sends := split ▸ List.mem_append_right before List.mem_cons_self
  constructor
  · rintro ⟨earlier,known,at_⟩
    obtain ⟨single,first,found,at'⟩ := explicit.known known
    cases lines.loc_inj (firstExport_reaches found).1 member (at'.symm.trans at_)
    refine ⟨single,(firstExport_reaches found).2,?_⟩
    apply firstExport_none.mp
    by_contra known'
    obtain ⟨first,found'⟩ := Option.ne_none_iff_exists'.mp known'
    rw [split,firstExport_append,found',Option.some_or] at found
    cases found
    -- The line would be among those before it.
    have locs := lines.locs
    rw [split,List.map_append] at locs
    exact (List.nodup_append.mp locs).2.2 _ (List.mem_map_of_mem (firstExport_reaches found').1) _ List.mem_cons_self rfl
  · rintro ⟨single,reach,fresh⟩
    have found : firstExport gs P sends s = some other := by
      rw [split,firstExport_append,firstExport_none.mpr fresh,Option.none_or]
      simp [firstExport,reach]
    refine ⟨⟨other.symbol,other.loc⟩,?_,rfl⟩
    rw [explicit s,if_neg (by simp [single]),found]
    rfl

theorem split_snoc (split : sends ++ [send] = before ++ other :: after) :
    (before = sends ∧ other = send ∧ after = []) ∨ ∃ rest, after = rest ++ [send] ∧ sends = before ++ other :: rest := by
  rcases List.eq_nil_or_concat after with rfl | ⟨rest,last,rfl⟩
  · obtain ⟨rfl,same⟩ := List.append_inj' split rfl
    cases same
    exact .inl ⟨rfl,rfl,rfl⟩
  · rw [List.concat_eq_append,← List.cons_append,← List.append_assoc] at split
    obtain ⟨rfl,same⟩ := List.append_inj' split rfl
    cases same
    exact .inr ⟨rest,List.concat_eq_append,rfl⟩

end Explicitly

section Telling
variable {gs : GlobalState} {P : ClassOrModuleRef} {sends before after : List ExportLine} {send other : ExportLine}
  {st st' : State} {s : SymbolRef} {visited : List SymbolRef} {fuel : Nat}

theorem Reported.more (reported : Reported gs P before send after) : Reported gs P before send (after ++ [other]) := by
  rcases reported with earlier | ⟨s,single,reach,fresh,twice | ⟨later,member,below⟩⟩
  · exact .inl earlier
  · exact .inr ⟨s,single,reach,fresh,.inl twice⟩
  · exact .inr ⟨s,single,reach,fresh,.inr ⟨later,List.mem_append_left [other] member,below⟩⟩

-- The visits of the last line that lead to an error there.
theorem blames_here (linked : Linked gs P) (lines : Lines gs P (sends ++ [send]))
    (explicit : Explicit gs P sends st.explicitlyExported)
    (run : visits (belongs gs P) (children gs) fuel send.symbol = some visited) :
    (∃ s ∈ visited, Blames gs st.explicitlyExported send visited send.loc s) ↔ Reported gs P sends send [] := by
  obtain ⟨kept,singleTop⟩ := lines.symbols send (List.mem_append_right sends List.mem_cons_self)
  constructor
  · rintro ⟨s,inside,⟨earlier,known,at_⟩ | ⟨unknown,single,twice,_⟩⟩
    · obtain ⟨_,first,found,at'⟩ := explicit.known known
      obtain ⟨member,reach⟩ := firstExport_reaches found
      by_cases top : s = send.symbol
      · exact .inl ⟨first,member,top ▸ reach⟩
      · rw [if_neg top,at'] at at_
        exact absurd at_ (lines.fresh member)
    · refine .inr ⟨s,single,(mem_visits run).mp inside,(explicit.none_iff single).mp unknown,.inl ?_⟩
      exact (linked.twice_iff run).mp twice
  · rintro (⟨first,member,reach⟩ | ⟨s,single,reach,fresh,twice | ⟨_,member,_⟩⟩)
    · have known : st.explicitlyExported send.symbol ≠ none := fun unknown =>
        (explicit.none_iff singleTop).mp unknown first member reach
      obtain ⟨earlier,known⟩ := Option.ne_none_iff_exists'.mp known
      exact ⟨send.symbol,(mem_visits run).mpr (.self kept),.inl ⟨earlier,known,if_pos rfl⟩⟩
    · exact ⟨s,(mem_visits run).mpr reach,
        .inr ⟨(explicit.none_iff single).mpr fresh,single,(linked.twice_iff run).mpr twice,rfl⟩⟩
    · cases member

-- Those that lead to an error at an earlier line.
theorem blames_there (lines : Lines gs P (sends ++ [send])) (explicit : Explicit gs P sends st.explicitlyExported)
    (run : visits (belongs gs P) (children gs) fuel send.symbol = some visited) (split : sends = before ++ other :: after) :
    (∃ s ∈ visited, Blames gs st.explicitlyExported send visited other.loc s) ↔
      ∃ s, isSingletonClass gs s = false ∧ Reaches gs P other.symbol s ∧ (∀ first ∈ before, ¬Reaches gs P first.symbol s) ∧
        s ≠ send.symbol ∧ Reaches gs P send.symbol s := by
  have member : other ∈ sends := split ▸ List.mem_append_right before List.mem_cons_self
  have apart := lines.fresh member
  constructor
  · rintro ⟨s,inside,⟨earlier,known,at_⟩ | ⟨_,_,_,at_⟩⟩
    · by_cases top : s = send.symbol
      · rw [if_pos top] at at_
        exact absurd at_.symm apart
      · rw [if_neg top] at at_
        obtain ⟨single,reach,fresh⟩ := (explicit.at_iff lines.front split).mp ⟨earlier,known,at_⟩
        exact ⟨s,single,reach,fresh,top,(mem_visits run).mp inside⟩
    · exact absurd at_.symm apart
  · rintro ⟨s,single,reach,fresh,top,below⟩
    obtain ⟨earlier,known,at_⟩ := (explicit.at_iff lines.front split).mpr ⟨single,reach,fresh⟩
    exact ⟨s,(mem_visits run).mpr below,.inl ⟨earlier,known,(if_neg top).trans at_⟩⟩

theorem Told.step (linked : Linked gs P) (lines : Lines gs P (sends ++ [send])) (told : Told gs P sends st)
    (flags : ∀ s, Exported gs P sends s → st.isExported s = true)
    (run : visits (belongs gs P) (children gs) fuel send.symbol = some visited)
    (explicitlyExported : st'.explicitlyExported = (visited.foldl (visit gs true send.symbol send.loc) st).explicitlyExported)
    (duplicateExports : st'.duplicateExports = (visited.foldl (visit gs true send.symbol send.loc) st).duplicateExports) :
    Told gs P (sends ++ [send]) st' := by
  have existing := lines.existing send (List.mem_append_right sends List.mem_cons_self)
  have reported : ∀ loc, st'.duplicateExports loc ≠ none ↔ _ := fun loc => duplicateExports ▸
    @foldl_visit_reported gs send loc existing visited st (told.explicitlyExported.exported flags)
  constructor
  · rw [explicitlyExported]
    exact told.explicitlyExported.step existing run
  · intro before other after split
    rw [reported]
    rcases split_snoc split with ⟨rfl,rfl,rfl⟩ | ⟨rest,rfl,rfl⟩
    · have unknown : other.loc ∉ before.map ExportLine.loc := by
        intro listed
        obtain ⟨first,member,same⟩ := List.mem_map.mp listed
        exact lines.fresh member same
      rw [blames_here linked lines told.explicitlyExported run]
      exact or_iff_right (not_not.mpr (told.others _ unknown))
    · rw [told.reported before other rest rfl,blames_there lines told.explicitlyExported run rfl]
      constructor
      · rintro (now | ⟨s,single,reach,fresh,top,below⟩)
        · exact now.more
        · exact .inr ⟨s,single,reach,fresh,.inr ⟨send,List.mem_append_right rest List.mem_cons_self,top,below⟩⟩
      · rintro (earlier | ⟨s,single,reach,fresh,twice | ⟨later,member,top,below⟩⟩)
        · exact .inl (.inl earlier)
        · exact .inl (.inr ⟨s,single,reach,fresh,.inl twice⟩)
        · rcases List.mem_append.mp member with inside | last
          · exact .inl (.inr ⟨s,single,reach,fresh,.inr ⟨later,inside,top,below⟩⟩)
          · cases List.mem_singleton.mp last
            exact .inr ⟨s,single,reach,fresh,top,below⟩
  · intro loc unlisted
    rw [List.map_append,List.mem_append,not_or] at unlisted
    by_contra known
    rcases (reported loc).mp known with before | ⟨s,_,⟨earlier,known,at_⟩ | ⟨_,_,_,at_⟩⟩
    · exact before (told.others loc unlisted.1)
    · obtain ⟨_,first,found,at'⟩ := told.explicitlyExported.known known
      split at at_
      · exact unlisted.2 (at_ ▸ List.mem_singleton_self _)
      · apply unlisted.1
        rw [← at_,at']
        exact List.mem_map_of_mem (firstExport_reaches found).1
    · exact unlisted.2 (at_ ▸ List.mem_singleton_self _)

-- What the code reports is right exactly where nothing harmful is visited.
theorem Told.exact_iff (linked : Linked gs P) (lines : Lines gs P sends) (told : Told gs P sends st) :
    Exact gs P sends st ↔ Harmless gs P sends := by
  constructor
  · intro exactly before send after split unjustified s single reach fresh
    have silent : ¬Reported gs P before send after := fun reported =>
      unjustified ((exactly before send after split).mp ((told.reported before send after split).mpr reported))
    refine ⟨fun twice => silent (.inr ⟨s,single,reach,fresh,.inl twice⟩),?_⟩
    intro other member _ below
    by_contra top
    exact silent (.inr ⟨s,single,reach,fresh,.inr ⟨other,member,top,below⟩⟩)
  · intro harmless before send after split
    obtain ⟨kept,singleTop⟩ := lines.symbols send (split ▸ List.mem_append_right before List.mem_cons_self)
    rw [told.reported before send after split]
    constructor
    · intro reported
      by_contra unjustified
      rcases reported with earlier | ⟨s,single,reach,fresh,spurious⟩
      · exact unjustified (.inl earlier)
      · obtain ⟨once,passed⟩ := harmless before send after split unjustified s single reach fresh
        rcases spurious with twice | ⟨other,member,top,below⟩
        · exact once twice
        · -- The other line lies below this one, or above it with good reason.
          have notBelow : ¬Reaches gs P send.symbol other.symbol := fun down => top (passed other member down below)
          rcases linked.comparable reach below with down | up
          · exact notBelow down
          · apply unjustified
            refine .inr ⟨other,List.mem_append_right before member,?_,up⟩
            intro same
            apply notBelow
            rw [same]
            exact .self kept
    · rintro (earlier | ⟨other,member,top,up⟩)
      · exact .inl earlier
      · by_cases earlier : ∃ first ∈ before, Reaches gs P first.symbol send.symbol
        · exact .inl earlier
        · rcases List.mem_append.mp member with inside | later
          · exact absurd ⟨other,inside,up⟩ earlier
          · refine .inr ⟨send.symbol,singleTop,.self kept,fun first inside reach => earlier ⟨first,inside,reach⟩,.inr ?_⟩
            exact ⟨other,later,Ne.symm top,up⟩

end Telling

section Running
variable {gs : GlobalState} {package : PackageInfo} {fuel : Nat}

-- What each line keeps holds after all of them.
theorem run_invariant (linked : Linked gs package.mangledName) (inScope : Scoped gs package)
    (enough : gs.classAndModulesUsed + 2 ≤ fuel) (isExported : SymbolRef → Bool) (sends : List ExportLine)
    (holds : List ExportLine → State → Prop)
    (start : ∀ st, (st.explicitlyExported = fun _ => none) → (st.duplicateExports = fun _ => none) → holds [] st)
    (step : ∀ done send later st st' visited, sends = done ++ send :: later → holds done st →
      (∀ s, Exported gs package.mangledName done s → st.isExported s = true) →
      visits (belongs gs package.mangledName) (children gs) fuel send.symbol = some visited →
      st'.explicitlyExported = (visited.foldl (visit gs true send.symbol send.loc) st).explicitlyExported →
      st'.duplicateExports = (visited.foldl (visit gs true send.symbol send.loc) st).duplicateExports →
      holds (done ++ [send]) st') :
    ∃ st, run gs package fuel isExported sends = some st ∧ holds sends st := by
  have lines : ∀ later done st, sends = done ++ later →
      (∀ s, st.isExported s = true ↔ Flagged gs package.mangledName isExported done s) → holds done st →
      ∃ st', later.foldlM (postTransformSend gs package fuel) st = some st' ∧ holds sends st' := by
    intro later
    induction later with
    | nil =>
      intro done st split _ held
      exact ⟨st,rfl,(split.trans (List.append_nil done)) ▸ held⟩
    | cons send later ih =>
      intro done st split flags held
      obtain ⟨visited,st',run,sent,changes⟩ := postTransformSend_changes linked enough flags send
      have held' := step done send later st st' visited split held (fun s exported => (flags s).mpr (.inr exported)) run
        changes.explicitlyExported changes.duplicateExports
      obtain ⟨st'',runs,held''⟩ := ih (done ++ [send]) st' (split.trans (List.append_cons done send later)) changes.isExported held'
      refine ⟨st'',?_,held''⟩
      rw [List.foldlM_cons,sent]
      exact runs
  obtain ⟨st,unset,explicitlyExported,duplicateExports,flags⟩ :=
    unsetAllExportedInPackage_changes linked inScope enough ⟨isExported,fun _ => none,fun _ => none⟩
  obtain ⟨st',runs,held⟩ := lines sends [] st rfl flags (start st explicitlyExported duplicateExports)
  refine ⟨st',?_,held⟩
  rw [run,unset]
  exact runs

theorem run_told (linked : Linked gs package.mangledName) (inScope : Scoped gs package)
    (enough : gs.classAndModulesUsed + 2 ≤ fuel) (isExported : SymbolRef → Bool) (sends : List ExportLine)
    (lines : Lines gs package.mangledName sends) :
    ∃ st, run gs package fuel isExported sends = some st ∧ Told gs package.mangledName sends st := by
  apply run_invariant linked inScope enough isExported sends (Told gs package.mangledName)
  · intro st explicitlyExported duplicateExports
    constructor
    · intro s
      rw [explicitlyExported]
      simp [firstExport]
    · intro before send after split
      simp at split
    · intro loc _
      rw [duplicateExports]
  · intro done send later st st' visited split told flags run explicitlyExported duplicateExports
    rw [List.append_cons] at split
    rw [split] at lines
    exact told.step linked lines.front flags run explicitlyExported duplicateExports

end Running

end Packager.Visibility
