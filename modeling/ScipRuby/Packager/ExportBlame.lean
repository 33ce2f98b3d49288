import ScipRuby.Packager.DuplicateExports

namespace Packager.Visibility
open Preorder

section Meaning
variable (gs : GlobalState) (P : ClassOrModuleRef)

-- No line visits what could be blamed twice, or again on the way down.
structure Untangled (sends : List ExportLine) : Prop where
  once : ∀ send ∈ sends, ∀ s, Twice gs P send.symbol s → isSingletonClass gs s = true
  repeated : sends.Pairwise fun first send => Reaches gs P first.symbol send.symbol →
    ∀ s, Reaches gs P send.symbol s → s ≠ send.symbol → isSingletonClass gs s = true

open Classical in
noncomputable def firstAbove (sends : List ExportLine) (s : SymbolRef) : Option ExportLine :=
  sends.find? fun send => send.symbol ≠ s ∧ Reaches gs P send.symbol s

-- The entry for a line between the given ones.
noncomputable def recorded (before : List ExportLine) (send : ExportLine) (after : List ExportLine) :
    Option DuplicateExportError :=
  ((firstExport gs P before send.symbol).map fun first => ⟨send.symbol,send.symbol,first.loc⟩).or
    ((firstAbove gs P after send.symbol).map fun other => ⟨send.symbol,other.symbol,other.loc⟩)

-- What both maps hold after the given lines.
structure Blamed (sends : List ExportLine) (st : State) : Prop where
  explicitlyExported : Explicit gs P sends st.explicitlyExported
  duplicateExports : ∀ before send after, sends = before ++ send :: after →
    st.duplicateExports send.loc = recorded gs P before send after
  others : ∀ loc, loc ∉ sends.map ExportLine.loc → st.duplicateExports loc = none

end Meaning

section Visiting
variable {gs : GlobalState} {line : ExportLine} {st : State} {s t : SymbolRef} {loc : LocOffsets}

-- Where a symbol that can be blamed is visited once, its blame is that of the state before.
theorem foldl_visit_duplicateExports (existing : line.loc.Existing) {explicitly : SymbolRef → Option ExportBlame}
    (visited : List SymbolRef) (st : State)
    (apart : visited.Pairwise fun s t => isSingletonClass gs t = false → s ≠ t)
    (same : ∀ s ∈ visited, st.explicitlyExported s = explicitly s)
    (exported : ∀ s, st.explicitlyExported s ≠ none → isSingletonClass gs s = false ∧ st.isExported s = true) :
    (visited.foldl (visit gs true line.symbol line.loc) st).duplicateExports loc =
      (st.duplicateExports loc).or (visited.findSome? (blame explicitly line loc)) := by
  induction visited generalizing st with
  | nil => simp
  | cons s visited ih =>
    obtain ⟨ahead,apart⟩ := List.pairwise_cons.mp apart
    have first : blame st.explicitlyExported line loc s = blame explicitly line loc s := by
      unfold blame
      rw [same s List.mem_cons_self]
    rw [List.foldl_cons,ih (visit gs true line.symbol line.loc st s) apart,visit_duplicateExports fun known => (exported s known).2,
      first,List.findSome?_cons]
    · cases blame explicitly line loc s with
      | none => simp
      | some error => cases st.duplicateExports loc <;> rfl
    · intro t member
      rw [visit_explicitlyExported existing,if_neg,Option.or_none]
      · exact same t (List.mem_cons_of_mem s member)
      · rintro ⟨rfl,single⟩
        exact ahead t member single rfl
    · exact visit_exported existing exported

end Visiting

section OneLine
variable {gs : GlobalState} {P : ClassOrModuleRef} {sends before after : List ExportLine} {send other : ExportLine}
  {s : SymbolRef} {loc : LocOffsets} {visited : List SymbolRef} {fuel : Nat} {explicitly : SymbolRef → Option ExportBlame}

theorem Untangled.forest (linked : Linked gs P) (untangled : Untangled gs P sends) (member : send ∈ sends)
    (single : isSingletonClass gs s = false) :
    Forest (belongs gs P) (children gs) fun u => Reaches gs P send.symbol u ∧ Reaches gs P u s := by
  apply linked.forest
  intro twice
  cases single.symm.trans (untangled.once send member s twice)

theorem Untangled.fresh (linked : Linked gs P) (untangled : Untangled gs P sends) (member : send ∈ sends)
    (single : isSingletonClass gs s = false) {fuel : Nat} {before after : List SymbolRef}
    (run : visits (belongs gs P) (children gs) fuel send.symbol = some (before ++ s :: after)) : s ∉ before := by
  have reach := (mem_visits run).mp (List.mem_append_right before List.mem_cons_self)
  exact visits_fresh (untangled.forest linked member single) linked.deeper linked.apart ⟨.self reach.1,reach⟩
    ⟨reach,.self reach.kept⟩ run

theorem firstAbove_none :
    firstAbove gs P sends s = none ↔ ∀ send ∈ sends, ¬(send.symbol ≠ s ∧ Reaches gs P send.symbol s) := by
  simp [firstAbove]

-- At the location of the line itself only the symbol of the line is blamed.
theorem blame_here (lines : Lines gs P (sends ++ [send])) (explicit : Explicit gs P sends explicitly)
    (run : visits (belongs gs P) (children gs) fuel send.symbol = some visited) :
    visited.findSome? (blame explicitly send send.loc) =
      (firstExport gs P sends send.symbol).map fun first => ⟨send.symbol,send.symbol,first.loc⟩ := by
  obtain ⟨kept,single⟩ := lines.symbols send (List.mem_append_right _ List.mem_cons_self)
  obtain ⟨rest,rfl⟩ : ∃ rest, visited = send.symbol :: rest := by
    cases fuel with
    | zero => cases run
    | succ fuel =>
      obtain ⟨rest,_,same⟩ := visits_cases run kept
      exact ⟨rest,same⟩
  have top := explicit send.symbol
  rw [if_neg (by simp [single])] at top
  rw [List.findSome?_cons]
  cases found : firstExport gs P sends send.symbol with
  | some first =>
    rw [found] at top
    simp [blame,top]
  | none =>
    rw [found] at top
    have nothing : blame explicitly send send.loc send.symbol = none := by simp [blame,top]
    rw [nothing,List.findSome?_eq_none_iff.mpr]
    · rfl
    · intro s _
      unfold blame
      cases known : explicitly s with
      | none => rfl
      | some earlier =>
        obtain ⟨_,first,found',at_⟩ := explicit.known known
        have notTop : s ≠ send.symbol := by
          rintro rfl
          cases found.symm.trans found'
        rw [Option.bind_some,if_neg notTop,if_neg]
        rw [at_]
        exact lines.fresh (firstExport_reaches found').1

-- A symbol that is blamed for an earlier line, which was the first to export it.
theorem blame_there (lines : Lines gs P (sends ++ [send])) (explicit : Explicit gs P sends explicitly) (member : other ∈ sends)
    {error : DuplicateExportError} (blamed : blame explicitly send other.loc s = some error) :
    s ≠ send.symbol ∧ isSingletonClass gs s = false ∧ firstExport gs P sends s = some other ∧
      error = ⟨s,send.symbol,send.loc⟩ := by
  obtain ⟨earlier,known,chosen⟩ := Option.bind_eq_some_iff.mp blamed
  obtain ⟨single,first,found,at_⟩ := explicit.known known
  by_cases top : s = send.symbol
  · rw [if_pos top,if_neg (Ne.symm (lines.fresh member))] at chosen
    cases chosen
  · rw [if_neg top,if_neg top] at chosen
    by_cases here : earlier.firstExportedAt = other.loc
    · rw [if_pos here] at chosen
      cases lines.front.loc_inj (firstExport_reaches found).1 member (at_.symm.trans here)
      exact ⟨top,single,found,(Option.some.inj chosen).symm⟩
    · rw [if_neg here] at chosen
      cases chosen

theorem blame_of_first (explicit : Explicit gs P sends explicitly) (top : s ≠ send.symbol) (single : isSingletonClass gs s = false)
    (found : firstExport gs P sends s = some other) :
    blame explicitly send other.loc s = some ⟨s,send.symbol,send.loc⟩ := by
  have known := explicit s
  rw [if_neg (by simp [single]),found] at known
  simp [blame,known,top]

open Classical in
-- An earlier line whose symbol nothing exported before is blamed by the first line above it.
theorem blame_earlier (linked : Linked gs P) (lines : Lines gs P (sends ++ [send])) (untangled : Untangled gs P (sends ++ [send]))
    (explicit : Explicit gs P sends explicitly) (run : visits (belongs gs P) (children gs) fuel send.symbol = some visited)
    (split : sends = before ++ other :: after) (fresh : firstExport gs P before other.symbol = none) :
    visited.findSome? (blame explicitly send other.loc) =
      (firstAbove gs P [send] other.symbol).map fun above => ⟨other.symbol,above.symbol,above.loc⟩ := by
  have member : other ∈ sends := split ▸ List.mem_append_right before List.mem_cons_self
  have inSends : send ∈ sends ++ [send] := List.mem_append_right sends List.mem_cons_self
  obtain ⟨kept,single⟩ := lines.symbols other (List.mem_append_left [send] member)
  by_cases above : send.symbol ≠ other.symbol ∧ Reaches gs P send.symbol other.symbol
  · have found : firstAbove gs P [send] other.symbol = some send := by simp [firstAbove,above]
    obtain ⟨earlier,later,rfl⟩ := List.append_of_mem ((mem_visits run).mpr above.2)
    have absent := untangled.fresh linked inSends single run
    have own := blame_of_first explicit (Ne.symm above.1) single (split ▸ firstExport_self fresh kept)
    have nothing : earlier.findSome? (blame explicitly send other.loc) = none := by
      apply List.findSome?_eq_none_iff.mpr
      intro s front
      by_contra blamed
      obtain ⟨error,blamed⟩ := Option.ne_none_iff_exists'.mp blamed
      obtain ⟨_,single',first,_⟩ := blame_there lines explicit member blamed
      have below := (firstExport_reaches first).2
      have reach := (mem_visits run).mp (List.mem_append_left (other.symbol :: later) front)
      have different : other.symbol ≠ s := fun same => absent (same ▸ front)
      -- The symbol of the earlier line comes first among those below it.
      obtain ⟨ahead,behind,rfl⟩ := List.append_of_mem front
      rw [List.append_assoc,List.cons_append] at run
      have before := visits_before (untangled.forest linked inSends single') linked.deeper ⟨.self reach.1,reach⟩
        ⟨reach,.self reach.kept⟩ run above.2 below different
      exact absent (List.mem_append_left _ before)
    rw [List.findSome?_append,nothing,Option.none_or,List.findSome?_cons,own,found]
    rfl
  · have found : firstAbove gs P [send] other.symbol = none :=
      firstAbove_none.mpr fun line at_ => List.mem_singleton.mp at_ ▸ above
    rw [found,List.findSome?_eq_none_iff.mpr]
    · rfl
    intro s inside
    by_contra blamed
    obtain ⟨error,blamed⟩ := Option.ne_none_iff_exists'.mp blamed
    obtain ⟨top,single',first,_⟩ := blame_there lines explicit member blamed
    have below := (firstExport_reaches first).2
    have reach := (mem_visits run).mp inside
    have again : ¬Reaches gs P other.symbol send.symbol := by
      intro exported
      have repeated := (List.pairwise_append.mp untangled.repeated).2.2 other member send List.mem_cons_self
      cases single'.symm.trans (repeated exported s reach top)
    rcases linked.comparable below reach with down | up
    · exact again down
    · apply above
      refine ⟨?_,up⟩
      intro same
      exact again (same ▸ up)

end OneLine

section Lines
variable {gs : GlobalState} {P : ClassOrModuleRef} {sends before after : List ExportLine} {send other : ExportLine}
  {st st' : State} {visited : List SymbolRef} {fuel : Nat}

theorem recorded_append (more : List ExportLine) :
    recorded gs P before send (after ++ more) =
      (recorded gs P before send after).or
        ((firstAbove gs P more send.symbol).map fun other => ⟨send.symbol,other.symbol,other.loc⟩) := by
  unfold recorded firstAbove
  rw [List.find?_append,Option.map_or,Option.or_assoc]

theorem recorded_of_first (found : firstExport gs P before send.symbol ≠ none) :
    recorded gs P before send after = recorded gs P before send [] := by
  obtain ⟨first,found⟩ := Option.ne_none_iff_exists'.mp found
  simp [recorded,found]

-- What one line does to the maps.
theorem Blamed.step (linked : Linked gs P) (lines : Lines gs P (sends ++ [send])) (untangled : Untangled gs P (sends ++ [send]))
    (blamed : Blamed gs P sends st) (flags : ∀ s, Exported gs P sends s → st.isExported s = true)
    (run : visits (belongs gs P) (children gs) fuel send.symbol = some visited)
    (explicitlyExported : st'.explicitlyExported = (visited.foldl (visit gs true send.symbol send.loc) st).explicitlyExported)
    (duplicateExports : st'.duplicateExports = (visited.foldl (visit gs true send.symbol send.loc) st).duplicateExports) :
    Blamed gs P (sends ++ [send]) st' := by
  have inSends : send ∈ sends ++ [send] := List.mem_append_right sends List.mem_cons_self
  have existing := lines.existing send inSends
  have once : visited.Pairwise fun s t => isSingletonClass gs t = false → s ≠ t := by
    apply List.pairwise_iff_getElem.mpr
    intro i j low high less single same
    have split : visited = visited.take j ++ visited[j] :: visited.drop (j + 1) := by
      rw [List.getElem_cons_drop,List.take_append_drop]
    apply untangled.fresh linked inSends single (run.trans (congrArg some split))
    rw [← same]
    exact List.mem_take_iff_getElem.mpr ⟨i,by omega,rfl⟩
  have recordedAt : ∀ loc, st'.duplicateExports loc = (st.duplicateExports loc).or
      (visited.findSome? (blame st.explicitlyExported send loc)) := by
    intro loc
    rw [duplicateExports]
    exact foldl_visit_duplicateExports existing visited st once (fun _ _ => rfl) (blamed.explicitlyExported.exported flags)
  constructor
  · rw [explicitlyExported]
    exact blamed.explicitlyExported.step existing run
  · intro before other after split
    rw [recordedAt]
    rcases split_snoc split with ⟨rfl,rfl,rfl⟩ | ⟨rest,rfl,rfl⟩
    · have unknown : other.loc ∉ before.map ExportLine.loc := by
        intro listed
        obtain ⟨first,member,same⟩ := List.mem_map.mp listed
        exact lines.fresh member same
      rw [blamed.others _ unknown,Option.none_or,blame_here lines blamed.explicitlyExported run]
      simp [recorded,firstAbove]
    · rw [blamed.duplicateExports before other rest rfl]
      cases found : firstExport gs P before other.symbol with
      | none => rw [blame_earlier linked lines untangled blamed.explicitlyExported run rfl found,recorded_append]
      | some first =>
        have some_ : firstExport gs P before other.symbol ≠ none := by simp [found]
        rw [recorded_of_first some_,@recorded_of_first gs P before (rest ++ [send]) other some_]
        simp [recorded,found]
  · intro loc unlisted
    rw [List.map_append,List.mem_append,not_or] at unlisted
    rw [recordedAt,blamed.others loc unlisted.1,Option.none_or]
    apply List.findSome?_eq_none_iff.mpr
    intro s _
    unfold blame
    cases known : st.explicitlyExported s with
    | none => rfl
    | some earlier =>
      obtain ⟨_,first,found,at_⟩ := blamed.explicitlyExported.known known
      rw [Option.bind_some,if_neg]
      split
      · intro same
        exact unlisted.2 (same ▸ List.mem_singleton_self _)
      · intro same
        apply unlisted.1
        rw [← same,at_]
        exact List.mem_map_of_mem (firstExport_reaches found).1

theorem Untangled.front (untangled : Untangled gs P (sends ++ after)) : Untangled gs P sends where
  once other member := untangled.once other (List.mem_append_left _ member)
  repeated := (List.pairwise_append.mp untangled.repeated).1

end Lines

section Running
variable {gs : GlobalState} {package : PackageInfo} {fuel : Nat}

theorem run_blamed (linked : Linked gs package.mangledName) (inScope : Scoped gs package)
    (enough : gs.classAndModulesUsed + 2 ≤ fuel) (isExported : SymbolRef → Bool) (sends : List ExportLine)
    (lines : Lines gs package.mangledName sends) (untangled : Untangled gs package.mangledName sends) :
    ∃ st, run gs package fuel isExported sends = some st ∧ Blamed gs package.mangledName sends st := by
  apply run_invariant linked inScope enough isExported sends (Blamed gs package.mangledName)
  · intro st explicitlyExported duplicateExports
    constructor
    · intro s
      rw [explicitlyExported]
      simp [firstExport]
    · intro before send after split
      simp at split
    · intro loc _
      rw [duplicateExports]
  · intro done send later st st' visited split blamed flags run explicitlyExported duplicateExports
    rw [List.append_cons] at split
    rw [split] at lines untangled
    exact blamed.step linked lines.front untangled.front flags run explicitlyExported duplicateExports

theorem Untangled.harmless {P : ClassOrModuleRef} {sends : List ExportLine} (untangled : Untangled gs P sends) :
    Harmless gs P sends := by
  intro before send after split _ s single reach _
  constructor
  · intro twice
    cases single.symm.trans (untangled.once send (split ▸ List.mem_append_right before List.mem_cons_self) s twice)
  · intro other member down below
    by_contra top
    have repeated := untangled.repeated
    rw [split] at repeated
    have later := (List.pairwise_cons.mp (List.pairwise_append.mp repeated).2.1).1 other member
    cases single.symm.trans (later down s below top)

theorem Untangled.reorder {P : ClassOrModuleRef} {sends : List ExportLine} (untangled : Untangled gs P sends)
    {members : ClassOrModuleRef → List (NameRef × SymbolRef)} (perm : ∀ c, (members c).Perm (gs.classAndModules c).members) :
    Untangled (gs.reorder members) P sends where
  once send member s := by
    unfold Twice
    rw [reaches_reorder perm]
    rintro ⟨a,c,attached,twice⟩
    exact untangled.once send member s ⟨a,c,(perm c).mem_iff.mp attached,twice⟩
  repeated := by
    rw [reaches_reorder perm]
    exact untangled.repeated

end Running

-- The errors are exact just where the lines are harmless. Where they are untangled, which is
-- more, the errors do not depend on the order of the members either.
theorem run_duplicateExports {gs : GlobalState} {package : PackageInfo} (linked : Linked gs package.mangledName)
    (inScope : Scoped gs package) (isExported : SymbolRef → Bool) (sends : List ExportLine)
    (lines : Lines gs package.mangledName sends) (fuel : Nat) (enough : gs.classAndModulesUsed + 2 ≤ fuel) :
    ∃ st, run gs package fuel isExported sends = some st ∧
      (Exact gs package.mangledName sends st ↔ Harmless gs package.mangledName sends) ∧
      (Untangled gs package.mangledName sends → Exact gs package.mangledName sends st ∧
        ∀ members, (∀ c, (members c).Perm (gs.classAndModules c).members) →
          ∃ st', run (gs.reorder members) package fuel isExported sends = some st' ∧ st'.duplicateExports = st.duplicateExports) := by
  obtain ⟨st,runs,told⟩ := run_told linked inScope enough isExported sends lines
  have exactly := told.exact_iff linked lines
  refine ⟨st,runs,exactly,fun untangled => ⟨exactly.mpr untangled.harmless,?_⟩⟩
  intro members perm
  obtain ⟨st₁,runs₁,blamed⟩ := run_blamed linked inScope enough isExported sends lines untangled
  cases runs.symm.trans runs₁
  have lines' : Lines (gs.reorder members) package.mangledName sends :=
    ⟨fun send member => by rw [belongs_reorder]; exact lines.symbols send member,lines.locs,lines.existing⟩
  obtain ⟨st',runs',blamed'⟩ := run_blamed (linked.reorder perm) (inScope.reorder linked perm) enough isExported sends lines'
    (untangled.reorder perm)
  refine ⟨st',runs',?_⟩
  funext loc
  by_cases listed : loc ∈ sends.map ExportLine.loc
  · obtain ⟨send,member,rfl⟩ := List.mem_map.mp listed
    obtain ⟨before,after,split⟩ := List.append_of_mem member
    rw [blamed'.duplicateExports before send after split,blamed.duplicateExports before send after split]
    unfold recorded firstExport firstAbove
    rw [reaches_reorder perm]
  · rw [blamed'.others loc listed,blamed.others loc listed]

section Samples

-- The outer class is exported before the class nested in it.
def repeatedLines : List ExportLine := [⟨.classOrModule 83,⟨0,1⟩⟩,⟨.classOrModule 84,⟨2,3⟩⟩]

theorem nestedTable_strict : ¬Reaches nestedTable 82 (.classOrModule 84) (.classOrModule 83) :=
  fun reach => absurd (rank_le nestedTable_linked.deeper reach) (by decide)

-- The first line gets an error because of the constant in the nested class.
theorem run_duplicateExports_blames : Linked nestedTable 82 ∧ Scoped nestedTable nestedPackage ∧ Lines nestedTable 82 repeatedLines ∧
    ∃ st, run nestedTable nestedPackage 88 (fun _ => false) repeatedLines = some st ∧ ¬Exact nestedTable 82 repeatedLines st := by
  have lines : Lines nestedTable 82 repeatedLines := ⟨by decide,by decide,by decide⟩
  have found : (run nestedTable nestedPackage 88 (fun _ => false) repeatedLines).map (fun st => st.duplicateExports ⟨0,1⟩) =
      some (some ⟨.field 1,.classOrModule 84,⟨2,3⟩⟩) := by decide
  obtain ⟨st,runs,entry⟩ := Option.map_eq_some_iff.mp found
  refine ⟨nestedTable_linked,nestedTable_scoped,lines,st,runs,?_⟩
  intro exactly
  have some_ : st.duplicateExports ⟨0,1⟩ ≠ none := by
    rw [entry]
    exact Option.some_ne_none _
  rcases (exactly [] _ _ rfl).mp some_ with ⟨_,member,_⟩ | ⟨other,member,_,reach⟩
  · cases member
  · cases List.mem_singleton.mp member
    exact nestedTable_strict reach

theorem run_duplicateExports_nested : ∃ st,
    run nestedTable nestedPackage 88 (fun _ => false) repeatedLines.reverse = some st ∧
      st.duplicateExports ⟨2,3⟩ ≠ none ∧ st.duplicateExports ⟨0,1⟩ = none := by
  have lines : Lines nestedTable 82 repeatedLines.reverse := ⟨by decide,by decide,by decide⟩
  have untangled : Untangled nestedTable 82 repeatedLines.reverse := by
    constructor
    · rintro send _ s ⟨a,c,attached,_,_,reach⟩
      rcases nestedTable_members attached with ⟨rfl,same⟩ | ⟨rfl,same⟩ | ⟨rfl,same⟩ | ⟨rfl,same⟩ | ⟨rfl,same⟩ | ⟨rfl,same⟩
      all_goals cases same
      rcases reach.2.cases_head with rfl | ⟨t,child,_⟩
      · rfl
      · exact absurd child.2.2 List.not_mem_nil
    · apply List.pairwise_pair.mpr
      intro reach
      exact absurd reach nestedTable_strict
  obtain ⟨st,runs,_,right⟩ := @run_duplicateExports nestedTable nestedPackage nestedTable_linked nestedTable_scoped
    (fun _ => false) repeatedLines.reverse lines 88 (by decide)
  obtain ⟨exactly,_⟩ := right untangled
  refine ⟨st,runs,?_,?_⟩
  · apply (exactly [] _ _ rfl).mpr
    refine .inr ⟨_,List.mem_cons_self,by decide,?_⟩
    exact Reach.step (.self (by decide)) (by decide)
  · by_contra known
    rcases (exactly [_] _ [] rfl).mp known with ⟨first,member,reach⟩ | ⟨other,member,_,reach⟩
    · cases List.mem_singleton.mp member
      exact nestedTable_strict reach
    · cases List.mem_singleton.mp member
      exact nestedTable_strict reach

end Samples

end Packager.Visibility
