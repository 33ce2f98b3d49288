import ScipRuby.Cfg.ArgumentSolutions

namespace Cfg
open Sweeping
variable {Loc : Type}

-- The blocks left behind on a path from the entry, and the block that it has come to. Nothing leaves the dead
-- block, and the code in it is not executed.
inductive Walk (cfg : CFG (Binding Loc) Loc) : List BlockId → BlockId → Prop where
  | start : Walk cfg [] cfg.entry
  | step {past b c} : Walk cfg past b → b ≠ cfg.deadBlock → c = cfg.thenb b ∨ c = cfg.elseb b → Walk cfg (past ++ [b]) c

-- An assignment on a path: the block it is in, that block's place on the path and its own place in the block.
structure Assignment (Loc : Type) where
  visit : Nat
  block : BlockId
  index : Nat
  binding : Binding Loc

def Assignment.local_ (assignment : Assignment Loc) : LocalRef := assignment.binding.bind.variable_

def CFG.code (cfg : CFG (Binding Loc) Loc) (visit : Nat) (b : BlockId) : List (Assignment Loc) :=
  (cfg.exprs b).mapIdx fun index binding => ⟨visit,b,index,binding⟩

def CFG.history (cfg : CFG (Binding Loc) Loc) (past : List BlockId) : List (Assignment Loc) :=
  (past.mapIdx fun visit b => cfg.code visit b).flatten

-- The last assignment to a local.
def reaching (x : LocalRef) (history : List (Assignment Loc)) : Option (Assignment Loc) :=
  (history.filter fun assignment => assignment.local_ = x).getLast?

def CFG.survives (cfg : CFG (Binding Loc) Loc) (lspQueryIsEmpty : Bool) (RnW : ReadsAndWrites)
    (blockArgs : Bounds BlockId LocalRef) (assignment : Assignment Loc) : Bool :=
  !(lspQueryIsEmpty && decide (assignment.block ∈ cfg.basicBlocks) &&
    cfg.isDeadAssign RnW blockArgs assignment.block assignment.binding)

variable {cfg : CFG (Binding Loc) Loc} {RnW : ReadsAndWrites} {b c d p : BlockId} {x : LocalRef}
variable {fuel : Nat} {blockArgs : Bounds BlockId LocalRef} {past : List BlockId}

section Histories

theorem reaching_append (x : LocalRef) (first second : List (Assignment Loc)) :
    reaching x (first ++ second) = (reaching x second).or (reaching x first) := by
  simp only [reaching,List.filter_append,List.getLast?_append]

theorem reaching_none {history : List (Assignment Loc)} :
    reaching x history = none ↔ ∀ assignment ∈ history, assignment.local_ ≠ x := by
  simp [reaching]

theorem reaching_some {history : List (Assignment Loc)} {assignment : Assignment Loc}
    (reaches : reaching x history = some assignment) : assignment ∈ history ∧ assignment.local_ = x := by
  have member := List.mem_of_getLast? reaches
  simpa using member

-- Deleting other assignments leaves the last one the last one.
theorem reaching_filter {keep : Assignment Loc → Bool} (history : List (Assignment Loc))
    (kept : ∀ assignment, reaching x history = some assignment → keep assignment = true) :
    reaching x (history.filter keep) = reaching x history := by
  induction history using List.reverseRecOn with
  | nil => rfl
  | append_singleton history last ih =>
    rw [List.filter_append,reaching_append,reaching_append]
    by_cases here : last.local_ = x
    · have reaches : reaching x [last] = some last := by simp [reaching,here]
      have stays : keep last = true := kept last (by rw [reaching_append,reaches]; rfl)
      simp [stays,reaches]
    · have absent : reaching x [last] = none := by simp [reaching,here]
      have absent' : reaching x ([last].filter keep) = none := by
        refine reaching_none.mpr fun assignment member => ?_
        obtain rfl := List.mem_singleton.mp (List.mem_of_mem_filter member)
        exact here
      rw [absent,absent',Option.none_or,Option.none_or]
      refine ih fun assignment reaches => kept assignment ?_
      rw [reaching_append,absent,Option.none_or,reaches]

theorem history_concat : cfg.history (past ++ [d]) = cfg.history past ++ cfg.code past.length d := by
  simp [CFG.history,List.mapIdx_append]

theorem code_block {visit : Nat} {assignment : Assignment Loc} (member : assignment ∈ cfg.code visit b) :
    assignment.block = b ∧ assignment.binding ∈ cfg.exprs b := by
  obtain ⟨index,inside,rfl⟩ := List.mem_mapIdx.mp member
  exact ⟨rfl,List.getElem_mem _⟩

theorem code_bindings (visit : Nat) (b : BlockId) : (cfg.code visit b).map (·.binding) = cfg.exprs b := by
  refine List.ext_getElem (by simp [CFG.code]) ?_
  intro index _ _
  simp [CFG.code]

-- What is left of a path's code is the code of the path once the assignments are gone.
theorem history_survives {lspQueryIsEmpty : Bool} (past : List BlockId) :
    ((cfg.history past).filter (cfg.survives lspQueryIsEmpty RnW blockArgs)).map (·.binding) =
      past.flatMap (cfg.removeDeadAssigns lspQueryIsEmpty RnW blockArgs).exprs := by
  have block : ∀ visit b, ((cfg.code visit b).filter (cfg.survives lspQueryIsEmpty RnW blockArgs)).map (·.binding) =
      (cfg.removeDeadAssigns lspQueryIsEmpty RnW blockArgs).exprs b := by
    intro visit b
    have same : ∀ assignment ∈ cfg.code visit b, cfg.survives lspQueryIsEmpty RnW blockArgs assignment =
        !(lspQueryIsEmpty && decide (b ∈ cfg.basicBlocks) && cfg.isDeadAssign RnW blockArgs b assignment.binding) := by
      intro assignment member
      rw [CFG.survives,(code_block member).1]
    rw [List.filter_congr same]
    have pulled := (List.filter_map (f := (·.binding)) (l := cfg.code visit b) (p := fun binding =>
      !(lspQueryIsEmpty && decide (b ∈ cfg.basicBlocks) && cfg.isDeadAssign RnW blockArgs b binding))).symm
    refine pulled.trans ?_
    rw [code_bindings]
    unfold CFG.removeDeadAssigns CFG.exprs
    cases lspQueryIsEmpty
    · simp
    · by_cases listed : b ∈ cfg.basicBlocks <;> simp [listed]
  induction past using List.reverseRecOn with
  | nil => rfl
  | append_singleton past d ih => rw [history_concat,List.filter_append,List.map_append,ih,block]; simp

end Histories

section Sets
variable {bind : Binding Loc} {before after : List (Binding Loc)}

theorem operand_read (operand : x ∈ bind.value.operands) : x ∈ cfg.readsOf bind := by
  unfold CFG.readsOf
  split
  · exact List.mem_cons_of_mem _ operand
  · exact operand

theorem record_reads (list : List (Binding Loc)) (sets : BlockSets) :
    x ∈ (list.foldl cfg.record sets).reads ↔ x ∈ sets.reads ∨ ∃ bind ∈ list, x ∈ cfg.readsOf bind := by
  induction list generalizing sets with
  | nil => simp
  | cons bind list ih =>
    rw [List.foldl_cons,ih]
    simp [CFG.record,or_assoc]

theorem record_writes (list : List (Binding Loc)) (sets : BlockSets) :
    x ∈ (list.foldl cfg.record sets).writes ↔ x ∈ sets.writes ∨ ∃ bind ∈ list, bind.bind.variable_ = x := by
  induction list generalizing sets with
  | nil => simp
  | cons bind list ih =>
    rw [List.foldl_cons,ih]
    simp only [CFG.record,Finset.mem_insert,List.mem_cons,exists_eq_or_imp,eq_comm (a := x)]
    tauto

-- A local that has been read does not become dead, and only an assigned one does.
theorem record_dead (list : List (Binding Loc)) (sets : BlockSets) (alive : x ∉ sets.dead)
    (quiet : x ∈ sets.reads ∨ ∀ bind ∈ list, bind.bind.variable_ ≠ x) : x ∉ (list.foldl cfg.record sets).dead := by
  induction list generalizing sets with
  | nil => exact alive
  | cons bind list ih =>
    rw [List.foldl_cons]
    refine ih _ ?_ ?_
    · obtain read | quiet := quiet
      · unfold CFG.record
        dsimp only
        split
        · exact alive
        · rename_i unread
          rw [Finset.mem_insert,not_or]
          refine ⟨fun same => unread ?_,alive⟩
          exact Finset.mem_union_left _ (same ▸ read)
      · have apart := quiet bind List.mem_cons_self
        unfold CFG.record
        dsimp only
        split
        · exact alive
        · rw [Finset.mem_insert,not_or]
          exact ⟨fun same => apart same.symm,alive⟩
    · obtain read | quiet := quiet
      · exact .inl (Finset.mem_union_left _ read)
      · exact .inr fun other member => quiet other (List.mem_cons_of_mem _ member)

theorem blockSets_dead : (cfg.blockSets b).dead = ((cfg.exprs b).foldl cfg.record ⟨∅,∅,∅⟩).dead := by
  unfold CFG.blockSets
  dsimp only
  split <;> rfl

theorem blockSets_writes : x ∈ (cfg.blockSets b).writes ↔ ∃ bind ∈ cfg.exprs b, bind.bind.variable_ = x := by
  have fold := @record_writes _ cfg x (cfg.exprs b) ⟨∅,∅,∅⟩
  unfold CFG.blockSets
  dsimp only
  split <;> simpa using fold

theorem blockSets_reads : x ∈ (cfg.blockSets b).reads ↔
    (∃ bind ∈ cfg.exprs b, x ∈ cfg.readsOf bind) ∨ (cfg.cond b ≠ LocalRef.unconditional ∧ x = cfg.cond b) := by
  have fold := @record_reads _ cfg x (cfg.exprs b) ⟨∅,∅,∅⟩
  unfold CFG.blockSets
  dsimp only
  split
  · rename_i conditional
    rw [Finset.mem_insert,fold]
    simp [conditional,or_comm]
  · rename_i unconditional
    rw [fold]
    simp [unconditional]

theorem quiet_not_dead (quiet : ∀ bind ∈ cfg.exprs b, bind.bind.variable_ ≠ x) : x ∉ (cfg.blockSets b).dead := by
  rw [blockSets_dead]
  exact record_dead _ _ (Finset.notMem_empty x) (.inr quiet)

theorem read_first_not_dead (split : cfg.exprs b = before ++ bind :: after) (operand : x ∈ bind.value.operands)
    (quiet : ∀ bind ∈ before, bind.bind.variable_ ≠ x) : x ∉ (cfg.blockSets b).dead := by
  rw [blockSets_dead,split,List.foldl_append,List.foldl_cons]
  have alive := @record_dead _ cfg x before ⟨∅,∅,∅⟩ (Finset.notMem_empty x) (.inr quiet)
  have read : x ∈ (cfg.record (before.foldl cfg.record ⟨∅,∅,∅⟩) bind).reads :=
    Finset.mem_union_right _ (List.mem_toFinset.mpr (operand_read operand))
  refine record_dead after _ ?_ (.inl read)
  unfold CFG.record at read ⊢
  dsimp only at read ⊢
  split
  · exact alive
  · rename_i unread
    rw [Finset.mem_insert,not_or]
    exact ⟨fun same => unread (same ▸ read),alive⟩

end Sets

-- At a block on a path, each operand of an instruction that is kept and the branch condition have the assignment
-- that they had when all assignments were there.
structure SameReaching (cfg : CFG (Binding Loc) Loc) (keep : Assignment Loc → Bool) (past : List BlockId) (b : BlockId) :
    Prop where
  operands : ∀ before assignment after, cfg.code past.length b = before ++ assignment :: after →
    keep assignment = true → ∀ x ∈ assignment.binding.value.operands,
      reaching x ((cfg.history past ++ before).filter keep) = reaching x (cfg.history past ++ before)
  condition : cfg.cond b ≠ LocalRef.unconditional →
    reaching (cfg.cond b) ((cfg.history past ++ cfg.code past.length b).filter keep) =
      reaching (cfg.cond b) (cfg.history past ++ cfg.code past.length b)

-- The block list of the traversal, with every jump known at its target.
structure Linked (cfg : CFG (Binding Loc) Loc) : Prop extends Listed cfg where
  ids : ∀ b ∈ cfg.basicBlocks, b < cfg.maxBasicBlockId
  entry : cfg.entry ∈ cfg.basicBlocks
  linked : ∀ b ∈ cfg.basicBlocks, b ≠ cfg.deadBlock → b ∈ cfg.backEdges (cfg.thenb b) ∧ b ∈ cfg.backEdges (cfg.elseb b)

section Walks

theorem walk_concat (walk : Walk cfg (past ++ [d]) b) :
    Walk cfg past d ∧ d ≠ cfg.deadBlock ∧ (b = cfg.thenb d ∨ b = cfg.elseb d) := by
  generalize all : past ++ [d] = blocks at walk
  cases walk with
  | start => simp at all
  | step walk alive edge =>
    obtain ⟨rfl,same⟩ := List.append_inj' all rfl
    cases same
    exact ⟨walk,alive,edge⟩

theorem Linked.walk (linked : Linked cfg) (walk : Walk cfg past b) : b ∈ cfg.basicBlocks := by
  induction walk with
  | start => exact linked.entry
  | step _ _ edge ih =>
    have exits := linked.exits _ ((linked.blocks _).mp ih)
    obtain rfl | rfl := edge
    · exact (linked.blocks _).mpr exits.1
    · exact (linked.blocks _).mpr exits.2

-- What a block wants, its predecessor wants unless it kills it.
theorem wanted_step {start : BlockId → Set LocalRef} (wanted : Flows (readsEquations cfg RnW) start b x)
    (alive : b ≠ cfg.deadBlock) (edge : b = cfg.thenb d ∨ b = cfg.elseb d) (kept : x ∉ cfg.toRemove RnW d) :
    Flows (readsEquations cfg RnW) start d x := by
  refine .step (List.mem_filter.mpr ⟨?_,decide_eq_true alive⟩) wanted kept
  obtain rfl | rfl := edge
  · exact List.mem_cons_self
  · exact List.mem_cons_of_mem _ List.mem_cons_self

theorem not_removed (listed : b ∈ cfg.basicBlocks) (alive : x ∉ (cfg.blockSets b).dead) :
    x ∉ cfg.toRemove cfg.findAllReadsAndWrites b := by
  intro removed
  have dead := (Finset.mem_filter.mp removed).1
  simp only [CFG.findAllReadsAndWrites,CFG.foundSets,listed,if_true] at dead
  exact alive dead

-- Only a local that no other block uses is left out of the writes.
theorem written_elsewhere (linked : Linked cfg) {reader : BlockId} (there : reader ∈ cfg.basicBlocks)
    (read : x ∈ (cfg.blockSets reader).reads) (listed : d ∈ cfg.basicBlocks) (apart : reader ≠ d)
    (assigned : ∃ bind ∈ cfg.exprs d, bind.bind.variable_ = x) : x ∈ cfg.findAllReadsAndWrites.writes d := by
  refine Finset.mem_filter.mpr ⟨?_,?_⟩
  · simp only [CFG.foundSets,listed,if_true]
    exact blockSets_writes.mpr assigned
  · intro only
    have used : reader ∈ cfg.usages x := by
      refine List.mem_filter.mpr ⟨List.mem_range.mpr (linked.ids _ there),?_⟩
      simp only [CFG.foundSets,there,if_true,decide_eq_true_eq]
      exact Finset.mem_union_left _ read
    rw [only] at used
    exact apart (List.mem_singleton.mp used)

theorem survives_of_read {lspQueryIsEmpty : Bool} {assignment : Assignment Loc}
    (read : assignment.local_ ∈ RnW.reads assignment.block ∨
      assignment.local_ ∈ blockArgs (cfg.thenb assignment.block) ∨
      assignment.local_ ∈ blockArgs (cfg.elseb assignment.block)) :
    cfg.survives lspQueryIsEmpty RnW blockArgs assignment = true := by
  unfold Assignment.local_ at read
  unfold CFG.survives CFG.isDeadAssign
  obtain read | read | read := read <;> simp [read]

end Walks

section Safety
variable {lspQueryIsEmpty : Bool}
variable (linked : Linked cfg)
  (late : ¬ StopsEarly cfg cfg.findAllReadsAndWrites ∨ StaleFree cfg cfg.findAllReadsAndWrites)
  (filled : cfg.fillInBlockArguments fuel cfg.findAllReadsAndWrites = some blockArgs)
include linked late filled

-- The last assignment to a local on the way to a block that wants it. The induction is along the path, backwards
-- from that block.
theorem survives_of_wanted {reader : BlockId} (there : reader ∈ cfg.basicBlocks)
    (read : x ∈ (cfg.blockSets reader).reads) (walk : Walk cfg past b) (alive : b ≠ cfg.deadBlock)
    (wanted : Flows (readsEquations cfg cfg.findAllReadsAndWrites) (fun b => ↑(cfg.findAllReadsAndWrites.reads b)) b x)
    {assignment : Assignment Loc} (reaches : reaching x (cfg.history past) = some assignment) :
    cfg.survives lspQueryIsEmpty cfg.findAllReadsAndWrites blockArgs assignment = true := by
  induction past using List.reverseRecOn generalizing b with
  | nil => cases reaches
  | append_singleton past d ih =>
    obtain ⟨before,alive',edge⟩ := walk_concat walk
    have listed := linked.walk before
    rw [history_concat,reaching_append] at reaches
    cases here : reaching x (cfg.code past.length d) with
    | none =>
      rw [here,Option.none_or] at reaches
      have quiet : ∀ bind ∈ cfg.exprs d, bind.bind.variable_ ≠ x := by
        intro bind member
        obtain ⟨index,inside,rfl⟩ := List.mem_iff_getElem.mp member
        exact reaching_none.mp here ⟨_,_,index,_⟩ (List.mem_mapIdx.mpr ⟨index,inside,rfl⟩)
      exact ih before alive' (wanted_step wanted alive edge (not_removed listed (quiet_not_dead quiet))) reaches
    | some found =>
      rw [here,Option.some_or] at reaches
      cases Option.some.inj reaches
      obtain ⟨member,same⟩ := reaching_some here
      obtain ⟨block,binding⟩ := code_block member
      refine survives_of_read ?_
      rw [same,block]
      by_cases own : reader = d
      · subst own
        refine .inl ?_
        simp only [CFG.findAllReadsAndWrites,CFG.foundSets,listed,if_true]
        exact read
      · have written := written_elsewhere linked there read listed own ⟨_,binding,same⟩
        have argument : x ∈ blockArgs b := by
          rw [fillInBlockArguments_mem linked.toListed late filled (linked.walk walk)]
          refine ⟨.inl wanted,.extra (List.mem_filter.mpr ⟨?_,decide_eq_true alive'⟩) written (Finset.notMem_empty _)⟩
          have edges := linked.linked d listed alive'
          obtain rfl | rfl := edge
          · exact edges.1
          · exact edges.2
        obtain rfl | rfl := edge
        · exact .inr (.inl argument)
        · exact .inr (.inr argument)

-- A read of x in block b, after the given part of its code.
theorem reaching_same (walk : Walk cfg past b) (alive : b ≠ cfg.deadBlock) {before : List (Assignment Loc)}
    (part : before <+: cfg.code past.length b) (read : x ∈ (cfg.blockSets b).reads)
    (first : (∀ assignment ∈ before, assignment.local_ ≠ x) → x ∉ (cfg.blockSets b).dead) :
    reaching x ((cfg.history past ++ before).filter
        (cfg.survives lspQueryIsEmpty cfg.findAllReadsAndWrites blockArgs)) =
      reaching x (cfg.history past ++ before) := by
  have listed := linked.walk walk
  have reads : x ∈ cfg.findAllReadsAndWrites.reads b := by
    simp only [CFG.findAllReadsAndWrites,CFG.foundSets,listed,if_true]
    exact read
  refine reaching_filter _ fun assignment reaches => ?_
  rw [reaching_append] at reaches
  cases here : reaching x before with
  | none =>
    rw [here,Option.none_or] at reaches
    have kept := not_removed listed (first (reaching_none.mp here))
    exact survives_of_wanted linked late filled listed read walk alive (.own reads kept) reaches
  | some found =>
    rw [here,Option.some_or] at reaches
    cases Option.some.inj reaches
    obtain ⟨member,same⟩ := reaching_some here
    refine survives_of_read (.inl ?_)
    rw [same,(code_block (part.subset member)).1]
    exact reads

theorem removeDeadAssigns_keeps (walk : Walk cfg past b) (alive : b ≠ cfg.deadBlock) :
    SameReaching cfg (cfg.survives lspQueryIsEmpty cfg.findAllReadsAndWrites blockArgs) past b where
  operands := by
    intro before assignment after split _ x operand
    have part : before <+: cfg.code past.length b := ⟨_,split.symm⟩
    have exprs : cfg.exprs b = before.map (·.binding) ++ assignment.binding :: after.map (·.binding) := by
      rw [← code_bindings past.length b,split,List.map_append,List.map_cons]
    have read : x ∈ (cfg.blockSets b).reads :=
      blockSets_reads.mpr (.inl ⟨_,exprs ▸ by simp,operand_read operand⟩)
    refine reaching_same linked late filled walk alive part read fun quiet => ?_
    refine read_first_not_dead exprs operand fun bind member => ?_
    obtain ⟨earlier,inside,rfl⟩ := List.mem_map.mp member
    exact quiet earlier inside
  condition := by
    intro conditional
    have read : cfg.cond b ∈ (cfg.blockSets b).reads := blockSets_reads.mpr (.inr ⟨conditional,rfl⟩)
    refine reaching_same linked late filled walk alive List.prefix_rfl read fun quiet => ?_
    refine quiet_not_dead fun bind member => ?_
    rw [← code_bindings past.length b] at member
    obtain ⟨assignment,inside,rfl⟩ := List.mem_map.mp member
    exact quiet assignment inside

end Safety

-- On every path the kept instructions read what they read before, and they are the code of the result.
theorem removeDeadAssigns_safe {start : CFG (Binding Loc) Loc} {fuel : Nat} {blockArgs : Bounds BlockId LocalRef}
    (linked : Linked start)
    (late : ¬ StopsEarly (start.computeMinMaxLoops start.findAllReadsAndWrites) start.findAllReadsAndWrites ∨
      StaleFree (start.computeMinMaxLoops start.findAllReadsAndWrites) start.findAllReadsAndWrites)
    (filled : (start.computeMinMaxLoops start.findAllReadsAndWrites).fillInBlockArguments fuel
      start.findAllReadsAndWrites = some blockArgs) (lspQueryIsEmpty : Bool) :
    let cfg := start.computeMinMaxLoops start.findAllReadsAndWrites
    let keep := cfg.survives lspQueryIsEmpty start.findAllReadsAndWrites blockArgs
    let out := cfg.removeDeadAssigns lspQueryIsEmpty start.findAllReadsAndWrites blockArgs
    (∀ past b, Walk cfg past b → b ≠ cfg.deadBlock → SameReaching cfg keep past b) ∧
      ∀ past, ((cfg.history past).filter keep).map (·.binding) = past.flatMap out.exprs := by
  refine ⟨?_,history_survives⟩
  intro past b walk alive
  have linked' : Linked (start.computeMinMaxLoops start.findAllReadsAndWrites) :=
    ⟨⟨linked.once,linked.blocks,linked.exits,linked.backEdges⟩,linked.ids,linked.entry,linked.linked⟩
  exact removeDeadAssigns_keeps linked' late filled walk alive

theorem exchange_linked (last : List (Binding Unit)) : Linked (exchangeStart last) where
  once := (exchange_listed last).once
  blocks := (exchange_listed last).blocks
  exits := (exchange_listed last).exits
  backEdges := (exchange_listed last).backEdges
  ids := by simp [exchangeStart]
  entry := List.mem_cons_self
  linked := by
    simp only [exchangeStart,List.forall_mem_cons]
    simp [CFG.thenb,CFG.elseb,CFG.bexit,CFG.backEdges,CFG.deadBlock,exchangeBlock,jumping]

-- Once through the loop, then out of it.
theorem exchange_walk (last : List (Binding Unit)) : Walk (exchangeCfg last) [0,2,3,4,2] 5 := by
  have alive : (exchangeCfg last).deadBlock = 1 := rfl
  have first : Walk (exchangeCfg last) [0] 2 := .step .start (alive ▸ Nat.zero_ne_one) (.inl rfl)
  have second : Walk (exchangeCfg last) [0,2] 3 := .step first (by simp [alive]) (.inl rfl)
  have third : Walk (exchangeCfg last) [0,2,3] 4 := .step second (by simp [alive]) (.inl rfl)
  have fourth : Walk (exchangeCfg last) [0,2,3,4] 2 := .step third (by simp [alive]) (.inl rfl)
  exact .step fourth (by simp [alive]) (.inr rfl)

-- The assignment y = 2 in the loop is removed, and the return reads y = 1.
theorem removeDeadAssigns_unsafe : Linked (exchangeStart returnDirectly) ∧ ∃ fuel blockArgs,
    (exchangeCfg returnDirectly).fillInBlockArguments fuel (exchangeSets returnDirectly) = some blockArgs ∧
    Walk (exchangeCfg returnDirectly) [0,2,3,4,2] 5 ∧ 5 ≠ (exchangeCfg returnDirectly).deadBlock ∧
    ¬ SameReaching (exchangeCfg returnDirectly)
      ((exchangeCfg returnDirectly).survives true (exchangeSets returnDirectly) blockArgs) [0,2,3,4,2] 5 := by
  obtain ⟨blockArgs,filled⟩ := Option.isSome_iff_exists.mp (show
    ((exchangeCfg returnDirectly).fillInBlockArguments 3 (exchangeSets returnDirectly)).isSome = true by decide +kernel)
  refine ⟨exchange_linked _,3,blockArgs,filled,exchange_walk _,by decide,fun same => ?_⟩
  have kept : (exchangeCfg returnDirectly).survives true (exchangeSets returnDirectly) blockArgs
      ⟨5,5,0,assign 4 (.return_ ⟨6,()⟩)⟩ = true := by
    simp [CFG.survives,CFG.isDeadAssign,assign]
  have equal := same.operands [] ⟨5,5,0,assign 4 (.return_ ⟨6,()⟩)⟩ [] rfl kept 6 (List.mem_singleton_self _)
  have now : ((exchangeCfg returnDirectly).fillInBlockArguments 3 (exchangeSets returnDirectly)).map (fun blockArgs =>
      (reaching 6 (((exchangeCfg returnDirectly).history [0,2,3,4,2] ++ []).filter
        ((exchangeCfg returnDirectly).survives true (exchangeSets returnDirectly) blockArgs))).map (·.visit)) =
      some (some 0) := by decide +kernel
  have original : (reaching 6 ((exchangeCfg returnDirectly).history [0,2,3,4,2] ++ [])).map (·.visit) = some 2 := by
    decide +kernel
  rw [filled,Option.map_some,Option.some_inj,equal,original] at now
  cases now

-- With the temporary the iteration goes on, and the last assignment to y is kept.
theorem removeDeadAssigns_safe_returning : ∃ fuel blockArgs,
    (exchangeCfg returnTemporary).fillInBlockArguments fuel (exchangeSets returnTemporary) = some blockArgs ∧
    SameReaching (exchangeCfg returnTemporary)
      ((exchangeCfg returnTemporary).survives true (exchangeSets returnTemporary) blockArgs) [0,2,3,4,2] 5 := by
  have late : ¬ StopsEarly (exchangeCfg returnTemporary) (exchangeSets returnTemporary) := by
    intro early
    exact absurd (early 5 (by decide)) (by decide +kernel)
  obtain ⟨fuel,blockArgs,filled⟩ := @fillInBlockArguments_terminates _ _ (exchangeSets returnTemporary)
    (exchange_listed returnTemporary)
  have safe := removeDeadAssigns_safe (exchange_linked returnTemporary) (.inl late) filled true
  exact ⟨fuel,blockArgs,filled,safe.1 _ 5 (exchange_walk _) (by decide)⟩

end Cfg
