import ScipRuby.Packages.Counters

namespace Packages
open TraversalBuilder Stratify
variable {Name : Type} {nodes : Condensation Name} {b : TraversalBuilder Name} {next done roots : List Nat} {n m : Nat}
variable {order : List (List Nat)} {floor : Nat}

-- What the builder has emitted for the recorded nodes.
structure Emits (nodes : Condensation Name) (b : TraversalBuilder Name) (sccs : List Nat) : Prop where
  isTest : b.isTest = sccs.map nodes.isTest
  packages : b.packages = (sccs.map nodes.members).flatten
  sccLengths : b.sccLengths = sccs.map fun i => (nodes.members i).length

section Record
variable (linked : Linked nodes)
include linked

theorem Emits.recordScc {preludeStratum : Bool} (emits : Emits nodes b done) :
    Emits nodes (recordScc nodes preludeStratum (b,next) m).1 (done ++ [m]) := by
  simp only [TraversalBuilder.recordScc]
  rw [satisfyAll_eq (linked.backDistinct m)]
  constructor
  · simp [emits.isTest]
  · simp [emits.packages]
  · simp [emits.sccLengths]

theorem recordScc_stratumLengths {preludeStratum : Bool} :
    (recordScc nodes preludeStratum (b,next) m).1.stratumLengths = b.stratumLengths := by
  simp only [TraversalBuilder.recordScc]
  rw [satisfyAll_eq (linked.backDistinct m)]

theorem recordScc_next {preludeStratum : Bool} : (recordScc nodes preludeStratum (b,next) m).2 = next ++
    (nodes.backEdges m).filter fun n => affects nodes preludeStratum n && decrement (b.remainingImports n) == 0 := by
  simp only [TraversalBuilder.recordScc]
  rw [satisfyAll_eq (linked.backDistinct m)]

-- What recording a stratum does to the builder and the next stratum.
structure Records (nodes : Condensation Name) (b b' : TraversalBuilder Name) (done stratum next next' : List Nat) : Prop where
  tracks : Tracks nodes b' (done ++ stratum)
  emits : Emits nodes b' (done ++ stratum)
  lengths : b'.stratumLengths = b.stratumLengths
  next : ∃ new, next' = next ++ new ∧ new.Nodup ∧ ∀ n, n ∈ new ↔ n < nodes.length ∧
    Ready nodes.imports (nodes.isPrelude ·) (done ++ stratum) n ∧ ¬ Ready nodes.imports (nodes.isPrelude ·) done n

theorem recordSccs_records {preludeStratum : Bool} {stratum : List Nat} (tracks : Tracks nodes b done)
    (emits : Emits nodes b done) (distinct : (done ++ stratum).Nodup) (inside : ∀ m ∈ stratum, m < nodes.length)
    (kind : ∀ m ∈ stratum, nodes.isPrelude m = preludeStratum) :
    let result := stratum.foldl (recordScc nodes preludeStratum) (b,next)
    Records nodes b result.1 done stratum next result.2 := by
  induction stratum generalizing b next done with
  | nil =>
    simp only [List.foldl_nil]
    refine ⟨by rwa [List.append_nil],by rwa [List.append_nil],rfl,[],by rw [List.append_nil],.nil,?_⟩
    intro n
    rw [List.append_nil]
    exact ⟨fun impossible => (by cases impossible),fun both => absurd both.2.1 both.2.2⟩
  | cons m stratum ih =>
    have present := inside m List.mem_cons_self
    obtain rfl := kind m List.mem_cons_self
    have split : done ++ m :: stratum = (done ++ [m]) ++ stratum := by simp
    rw [split] at distinct
    have shorter := (List.nodup_append.mp distinct).1
    have fresh : m ∉ done := by
      intro here
      exact (List.nodup_append.mp shorter).2.2 m here m (List.mem_singleton_self m) rfl
    have early := (List.nodup_append.mp shorter).1
    have rest := @ih (recordScc nodes (nodes.isPrelude m) (b,next) m).1 (recordScc nodes (nodes.isPrelude m) (b,next) m).2 _
      (tracks.recordScc linked early fresh present) (emits.recordScc linked) distinct
      (fun x member => inside x (List.mem_cons_of_mem _ member)) (fun x member => kind x (List.mem_cons_of_mem _ member))
    rw [List.foldl_cons]
    obtain ⟨tracks',emits',lengths,new,nextEq,newDistinct,newMem⟩ := rest
    rw [← split] at tracks' emits'
    have nextEq' := nextEq.trans (congrArg (· ++ new) (recordScc_next linked))
    simp only [List.append_assoc] at nextEq'
    refine ⟨tracks',emits',lengths.trans (recordScc_stratumLengths linked),_,nextEq',?_,?_⟩
    · rw [List.nodup_append]
      refine ⟨(linked.backDistinct m).filter _,newDistinct,?_⟩
      rintro x here y later rfl
      exact ((newMem x).mp later).2.2 ((tracks.becomes_ready linked early fresh present).mp here).2.1
    · intro n
      rw [List.mem_append,tracks.becomes_ready linked early fresh present,newMem,split]
      have more : ∀ x ∈ done ++ [m], x ∈ done ++ [m] ++ stratum := fun x => List.mem_append_left _
      have less : ∀ x ∈ done, x ∈ done ++ [m] := fun x => List.mem_append_left _
      constructor
      · rintro (⟨here,ready,late⟩ | ⟨here,ready,late⟩)
        · exact ⟨here,ready.mono more,late⟩
        · exact ⟨here,ready,fun sooner => late (sooner.mono less)⟩
      · rintro ⟨here,ready,late⟩
        by_cases sooner : Ready nodes.imports (nodes.isPrelude ·) (done ++ [m]) n
        · exact .inl ⟨here,sooner,late⟩
        · exact .inr ⟨here,ready,sooner⟩

end Record

section Seed

theorem seedAll_found (l : Condensation Name) (b : TraversalBuilder Name) (found : Roots) :
    (l.foldl (fun acc node => seed acc.1 acc.2 node) (b,found)).2 =
    ⟨found.prelude ++ (l.filter Node.isPrelude).map Node.id,
      found.roots ++ (l.filter fun node => !node.isPrelude && node.imports.isEmpty).map Node.id⟩ := by
  induction l generalizing b found with
  | nil => simp
  | cons node l ih =>
    rw [List.foldl_cons,seed]
    cases prelude : node.isPrelude with
    | true =>
      simp only [if_true,ih]
      simp [prelude]
    | false =>
      simp only [Bool.false_eq_true,if_false,ih]
      cases empty : node.imports with
      | nil => simp [prelude,empty]
      | cons imp imports => simp [prelude,empty]

-- Where the counter of a node begins.
def seedValue (node : Node Name) : Nat := if node.isPrelude then 0 else node.imports.length % 2 ^ 32

-- Only the counters are set.
theorem seedAll_builder (l : Condensation Name) (b : TraversalBuilder Name) (found : Roots) :
    ∃ remaining, (l.foldl (fun acc node => seed acc.1 acc.2 node) (b,found)).1 = {b with remainingImports := remaining} ∧
    (∀ n, n ∉ l.map Node.id → remaining n = b.remainingImports n) ∧
    ((l.map Node.id).Nodup → ∀ node ∈ l, remaining node.id = seedValue node) := by
  induction l generalizing b found with
  | nil => exact ⟨b.remainingImports,rfl,fun _ _ => rfl,fun _ _ impossible => (by cases impossible)⟩
  | cons node l ih =>
    -- Both branches of seed set one counter.
    have first : (seed b found node).1 =
        {b with remainingImports := Function.update b.remainingImports node.id (seedValue node)} := by
      unfold seed seedValue
      cases node.isPrelude <;> rfl
    obtain ⟨remaining,same,elsewhere,here⟩ := ih (seed b found node).1 (seed b found node).2
    rw [List.foldl_cons]
    refine ⟨remaining,?_,?_,?_⟩
    · rw [same,first]
    · intro n absent
      rw [List.map_cons,List.mem_cons,not_or] at absent
      rw [elsewhere n absent.2,first]
      exact Function.update_of_ne absent.1 ..
    · intro distinct other member
      rw [List.map_cons,List.nodup_cons] at distinct
      rcases List.mem_cons.mp member with rfl | member
      · rw [elsewhere _ distinct.1,first]
        exact Function.update_self ..
      · exact here distinct.2 other member

variable (linked : Linked nodes)
include linked

theorem Linked.roots_found : (TraversalBuilder.roots nodes start).2.prelude.Nodup ∧
    (TraversalBuilder.roots nodes start).2.roots.Nodup ∧
    (∀ n, n ∈ (TraversalBuilder.roots nodes start).2.prelude ↔ n < nodes.length ∧ nodes.isPrelude n = true) ∧
    ∀ n, n ∈ (TraversalBuilder.roots nodes start).2.roots ↔ n < nodes.length ∧ Ready nodes.imports (nodes.isPrelude ·) [] n := by
  rw [TraversalBuilder.roots,seedAll_found]
  refine ⟨filter_ids_nodup linked.ids _,filter_ids_nodup linked.ids _,?_,?_⟩
  · intro n
    change n ∈ [] ++ _ ↔ _
    rw [List.nil_append,mem_filter_ids linked.ids,Condensation.isPrelude]
    by_cases inside : n < nodes.length
    · simp [inside]
    · simp [inside]
  · intro n
    change n ∈ [] ++ _ ↔ _
    rw [List.nil_append,mem_filter_ids linked.ids,Ready,Condensation.isPrelude,Condensation.imports]
    by_cases inside : n < nodes.length
    · simp [inside,List.isEmpty_iff,List.eq_nil_iff_forall_not_mem]
    · simp [inside]

theorem Linked.roots_tracks : Tracks nodes (TraversalBuilder.roots nodes start).1 [] ∧
    Emits nodes (TraversalBuilder.roots nodes start).1 [] ∧
    (TraversalBuilder.roots nodes start).1.stratumLengths = [] := by
  obtain ⟨remaining,same,_,here⟩ := seedAll_builder nodes start ⟨[],[]⟩
  rw [TraversalBuilder.roots,same]
  refine ⟨⟨?_,?_⟩,⟨rfl,rfl,rfl⟩,rfl⟩
  · intro n inside
    have at_ := List.getElem?_eq_getElem inside
    have distinct : (nodes.map Node.id).Nodup := ids_eq_range linked.ids ▸ List.nodup_range
    have value := here distinct _ (List.getElem_mem inside)
    have few := @Linked.imports_le _ _ n linked
    rw [linked.ids n _ at_] at value
    simp only [Condensation.imports,at_,Option.elim_some] at few
    simp only [initial,counted,List.countP_nil,Condensation.isPrelude,Condensation.imports,at_,Option.elim_some,value,seedValue]
    split <;> omega
  · simp [start,counted]

end Seed

section Loop

-- The state of the loop: the strata recorded so far and the next one.
structure Recorded (nodes : Condensation Name) (floor : Nat) (b : TraversalBuilder Name) (order : List (List Nat))
    (roots : List Nat) : Prop where
  tracks : Tracks nodes b order.flatten
  emits : Emits nodes b order.flatten
  lengths : b.stratumLengths = order.map List.length
  strata : Strata nodes.imports (nodes.isPrelude ·) (· < nodes.length) floor order
  distinct : roots.Nodup
  frontier : ∀ n, n ∈ roots ↔ Frontier nodes.imports (nodes.isPrelude ·) (· < nodes.length) order.flatten n

theorem flatten_push : (order ++ [roots]).flatten = order.flatten ++ roots := by
  rw [List.flatten_append,List.flatten_singleton]

-- The length of the stratum is noted before it is recorded.
theorem Tracks.noted {lengths : List Nat} (tracks : Tracks nodes b done) :
    Tracks nodes {b with stratumLengths := lengths} done := ⟨tracks.remaining,tracks.underflow⟩

theorem Emits.noted {lengths : List Nat} (emits : Emits nodes b done) :
    Emits nodes {b with stratumLengths := lengths} done := ⟨emits.isTest,emits.packages,emits.sccLengths⟩

variable (linked : Linked nodes)
include linked

theorem recordStratum_records {preludeStratum : Bool} {stratum : List Nat} (tracks : Tracks nodes b done)
    (emits : Emits nodes b done) (distinct : (done ++ stratum).Nodup) (inside : ∀ m ∈ stratum, m < nodes.length)
    (kind : ∀ m ∈ stratum, nodes.isPrelude m = preludeStratum) :
    Records nodes {b with stratumLengths := b.stratumLengths ++ [stratum.length]}
      (recordStratum nodes preludeStratum b stratum next).1 done stratum next
      (recordStratum nodes preludeStratum b stratum next).2 :=
  recordSccs_records linked tracks.noted emits.noted distinct inside kind

theorem Recorded.recordStratum (recorded : Recorded nodes floor b order roots) :
    Recorded nodes floor (recordStratum nodes false b roots []).1 (order ++ [roots]) (recordStratum nodes false b roots []).2 := by
  have strata := recorded.strata.push recorded.distinct recorded.frontier
  have distinct := strata.once
  rw [flatten_push] at distinct
  have records := @recordStratum_records _ _ _ [] _ linked false roots recorded.tracks recorded.emits distinct (fun m member => ((recorded.frontier m).mp member).1)
    (fun m member => Bool.eq_false_iff.mpr ((recorded.frontier m).mp member).2.1.1)
  obtain ⟨tracks,emits,lengths,new,nextEq,newDistinct,newMem⟩ := records
  rw [List.nil_append] at nextEq
  refine ⟨?_,?_,?_,strata,?_,?_⟩
  · rw [flatten_push]
    exact tracks
  · rw [flatten_push]
    exact emits
  · rw [List.map_append,List.map_singleton,← recorded.lengths]
    exact lengths
  · exact nextEq ▸ newDistinct
  · intro n
    rw [flatten_push,recorded.strata.frontier_push recorded.frontier,← newMem]
    exact nextEq ▸ Iff.rfl

omit linked in
theorem Recorded.few (recorded : Recorded nodes floor b order roots) : order.flatten.length ≤ nodes.length := by
  have within : order.flatten.Subperm (List.range nodes.length) := by
    refine List.Nodup.subperm recorded.strata.once ?_
    intro n here
    exact List.mem_range.mpr (recorded.strata.listed here)
  have := within.length_le
  rwa [List.length_range] at this

theorem Recorded.terminates (recorded : Recorded nodes floor b order roots) :
    ∃ fuel b' order', recordRest nodes fuel b roots = some b' ∧ Recorded nodes floor b' order' [] := by
  induction left : nodes.length - order.flatten.length using Nat.strong_induction_on generalizing b order roots with
  | h size ih =>
    cases roots with
    | nil => exact ⟨1,b,order,rfl,recorded⟩
    | cons n rest =>
      have next := recorded.recordStratum linked
      have few := next.few
      rw [flatten_push,List.length_append,List.length_cons] at few
      have less : nodes.length - (order ++ [n :: rest]).flatten.length < size := by
        rw [flatten_push,List.length_append,List.length_cons]
        omega
      obtain ⟨fuel,b',order',run,last⟩ := ih _ less next rfl
      exact ⟨fuel + 1,b',order',run,last⟩

-- The number of strata that are left to the prelude.
def preludeStrata (nodes : Condensation Name) : Nat := if nodes.any Node.isPrelude then 1 else 0

omit linked in
theorem any_isPrelude_iff : nodes.any Node.isPrelude = true ↔ ∃ n < nodes.length, nodes.isPrelude n = true := by
  rw [List.any_eq_true]
  constructor
  · rintro ⟨node,member,prelude⟩
    obtain ⟨i,at_⟩ := List.mem_iff_getElem?.mp member
    exact ⟨i,(List.getElem?_eq_some_iff.mp at_).1,by rw [Condensation.isPrelude,at_,Option.elim_some,prelude]⟩
  · rintro ⟨n,inside,prelude⟩
    rw [Condensation.isPrelude,List.getElem?_eq_getElem inside,Option.elim_some] at prelude
    exact ⟨nodes[n],List.getElem_mem inside,prelude⟩

theorem Linked.begins : ∃ b order roots, Recorded nodes (preludeStrata nodes) b order roots ∧
    ∀ fuel, recordAll fuel nodes = recordRest nodes fuel b roots := by
  obtain ⟨preludeDistinct,rootsDistinct,preludeMem,rootsMem⟩ := linked.roots_found
  obtain ⟨tracks,emits,lengths⟩ := linked.roots_tracks
  unfold recordAll
  generalize TraversalBuilder.roots nodes start = seeded at *
  obtain ⟨b,prelude,roots⟩ := seeded
  dsimp only at *
  cases prelude with
  | nil =>
    have none : ∀ n, ¬ (n < nodes.length ∧ nodes.isPrelude n = true) := by
      intro n both
      cases (preludeMem n).mpr both
    have floor : preludeStrata nodes = 0 := by
      refine if_neg fun some => ?_
      obtain ⟨n,both⟩ := any_isPrelude_iff.mp some
      exact none n both
    refine ⟨b,[],roots,⟨tracks,emits,lengths,?_,rootsDistinct,?_⟩,fun _ => rfl⟩
    · rw [floor]
      refine ⟨.nil,?_,Nat.le_refl 0,?_⟩
      · intro n
        exact ⟨fun impossible => (by cases impossible),fun both => absurd both (none n)⟩
      · intro i stratum _ at_
        cases at_
    · intro n
      rw [rootsMem,Frontier,List.flatten_nil]
      exact ⟨fun both => ⟨both.1,both.2,List.not_mem_nil⟩,fun all => ⟨all.1,all.2.1⟩⟩
  | cons first rest =>
    have floor : preludeStrata nodes = 1 :=
      if_pos (any_isPrelude_iff.mpr ⟨first,(preludeMem first).mp List.mem_cons_self⟩)
    have records := @recordStratum_records _ _ _ roots _ linked true (first :: rest) tracks emits preludeDistinct
      (fun m member => ((preludeMem m).mp member).1) (fun m member => ((preludeMem m).mp member).2)
    obtain ⟨tracks',emits',lengths',new,nextEq,newDistinct,newMem⟩ := records
    rw [List.nil_append] at tracks' emits' newMem
    have alone : [first :: rest].flatten = first :: rest := List.flatten_singleton
    refine ⟨(TraversalBuilder.recordStratum nodes true b (first :: rest) roots).1,[first :: rest],
      (TraversalBuilder.recordStratum nodes true b (first :: rest) roots).2,⟨by rwa [alone],by rwa [alone],?_,?_,?_,?_⟩,
      fun _ => rfl⟩
    · rw [lengths',lengths]
      rfl
    · rw [floor]
      refine ⟨by rwa [alone],?_,Nat.le_refl 1,?_⟩
      · intro n
        rw [List.take_of_length_le (Nat.le_refl 1),alone]
        exact preludeMem n
      · intro i stratum late at_
        have beyond : [first :: rest][i]? = none := List.getElem?_eq_none late
        rw [beyond] at at_
        cases at_
    · rw [nextEq,List.nodup_append]
      refine ⟨rootsDistinct,newDistinct,?_⟩
      rintro x early y late rfl
      exact ((newMem x).mp late).2.2 ((rootsMem x).mp early).2
    · intro n
      rw [nextEq,List.mem_append,rootsMem,newMem,alone,Frontier]
      constructor
      · rintro (⟨inside,ready⟩ | ⟨inside,ready,_⟩)
        · refine ⟨inside,ready.mono (fun _ impossible => (by cases impossible)),fun here => ?_⟩
          exact ready.1 ((preludeMem n).mp here).2
        · exact ⟨inside,ready,fun here => ready.1 ((preludeMem n).mp here).2⟩
      · rintro ⟨inside,ready,_⟩
        by_cases early : Ready nodes.imports (nodes.isPrelude ·) [] n
        · exact .inl ⟨inside,early⟩
        · exact .inr ⟨inside,ready,early⟩

theorem Linked.recordAll_terminates : ∃ fuel b order, recordAll fuel nodes = some b ∧
    Recorded nodes (preludeStrata nodes) b order [] := by
  obtain ⟨b,order,roots,recorded,same⟩ := linked.begins
  obtain ⟨fuel,b',order',run,last⟩ := recorded.terminates linked
  exact ⟨fuel,b',order',(same fuel).trans run,last⟩

end Loop
end Packages
