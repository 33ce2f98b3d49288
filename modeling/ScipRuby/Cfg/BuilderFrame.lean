import ScipRuby.Cfg.BuilderWalk
import ScipRuby.Cfg.TreeMeaning
import ScipRuby.Lib.StateRuns

namespace CFGBuilder
open FlowGraphs TotalRuns
open Serialize (LocOffsets TypePtr ParamFlags ExpressionPtr noLoc)

section Views
variable (ctx : Context)

-- The event of an instruction, if it has one.
def visible (b : Binding) : Option Event :=
  if b.isSynthetic then none
  else match b.value with
    | .ident what => readEvent ctx what.name b.loc
    | .alias what _ => some (.constant what b.loc)
    | .solveConstraint _ _ => some (.callDone b.loc)
    | .send snd =>
      some (.call snd.fun_ b.loc snd.funLoc snd.receiverLoc snd.argLocs snd.numPosArgs snd.isPrivateOk (snd.link ≠ 0))
    | .return_ _ whatLoc => some (.return_ b.loc whatLoc)
    | .blockReturn _ what => some (.blockReturn b.loc what.loc)
    | .loadSelf _ _ => some (.blockSelf b.loc)
    | .literal value => some (.literal value b.loc)
    | .loadYieldParams _ => some (.blockParams b.loc)
    | .yieldLoadArg argId flags _ => some (.blockParam argId flags b.loc)
    | .cast _ valueLoc type cast => castEvent ctx cast type b.loc valueLoc
    | .tAbsurd _ => some (.absurd b.loc)
    | .getCurrentException | .loadArg _ _ | .argPresent _ _ | .yieldParamPresent _ | .keepAlive _ => none

-- What is written into the dead block is not run.
def eventsOf (s : State) (b : BlockId) : List Event :=
  if b = deadBlock then [] else ((s.basicBlocks[b]?).map fun block => block.exprs.filterMap (visible ctx)).getD []

def exitsOf (s : State) (b : BlockId) : Option (BlockId × BlockId) :=
  ((s.basicBlocks[b]?).bind (·.bexit)).map fun exit => (exit.thenb,exit.elseb)

def flow (s : State) : Flow Event := ⟨eventsOf ctx s,exitsOf s⟩

-- Where code can be added.
def Open (s : State) (b : BlockId) : Prop := b = deadBlock ∨ ∃ block, s.basicBlocks[b]? = some block ∧ block.bexit = none

def Unlinked (s : State) (b : BlockId) : Prop :=
  b ≠ entry ∧ b ≠ deadBlock ∧ ∃ block, s.basicBlocks[b]? = some block ∧ block.wasJumpDestination = false

def JumpsTo (s : State) (b c : BlockId) : Prop := ∃ exit, exitsOf s b = some exit ∧ (exit.1 = c ∨ exit.2 = c)

-- What a jump with two ends may ask.
def Condition (cond : LocalRef) : Prop := cond.exists_ = true ∧ cond ≠ unconditional ctx

-- What sanityCheck asks of a block exit.
structure FairExit (s : State) (exit : BlockExit) : Prop where
  thenb : exit.thenb < s.basicBlocks.length ∧ exit.thenb ≠ entry
  elseb : exit.elseb < s.basicBlocks.length ∧ exit.elseb ≠ entry
  cond : exit.cond.variable_ = unconditional ctx ↔ exit.thenb = exit.elseb
  set : exit.cond.variable_.exists_ = true

-- Locals are kept for fields and type members.
structure AliasFits (x : SymbolRef × LocalOccurrence) : Prop where
  named : x.2.variable_.exists_ = true → x.2.variable_.name = ctx.symbolName x.1
  pinned : isPinned ctx x.1 = true

structure Sound (s : State) : Prop where
  two : 2 ≤ s.basicBlocks.length
  dead : exitsOf s deadBlock = some (deadBlock,deadBlock)
  exits : ∀ (b : BlockId) (block : BasicBlock) (exit : BlockExit), s.basicBlocks[b]? = some block → block.bexit = some exit → FairExit ctx s exit
  once : ∀ (b : BlockId) (block : BasicBlock), s.basicBlocks[b]? = some block → block.backEdges.Nodup
  backEdges : ∀ (c : BlockId) (block : BasicBlock), s.basicBlocks[c]? = some block → ∀ b, b ∈ block.backEdges ↔ b ≠ deadBlock ∧ JumpsTo s b c
  aliases : ∀ x ∈ s.aliases, AliasFits ctx x
  fields : ∀ x ∈ s.discoveredUndeclaredFields, x.2.variable_.name = x.1
  links : s.links ≠ []

end Views

variable {ctx : Context} {s s' s'' s₀ : State} {a b c cur : BlockId} {new : List Event} {l : LinkRef}

def Linked (s : State) (l : LinkRef) : Prop := s.links[l]?.any (·.isSome) = true

theorem Linked.mono (linked : Linked s l) (links : s.links <+: s'.links) : Linked s' l := by
  obtain ⟨rest,whole⟩ := links
  have inside : l < s.links.length := by
    by_contra outside
    rw [Linked,List.getElem?_eq_none (Nat.le_of_not_lt outside)] at linked
    cases linked
  rwa [Linked,←whole,List.getElem?_append_left inside]

section Steps

-- A step that leaves the edges alone. Names of the locals that stand for globals and fields are right before and after.
structure SameGraph (ctx : Context) (s s' : State) : Prop where
  length : s'.basicBlocks.length = s.basicBlocks.length
  block : ∀ (b : BlockId) (block' : BasicBlock), s'.basicBlocks[b]? = some block' → ∃ block, s.basicBlocks[b]? = some block ∧
    block'.bexit = block.bexit ∧ block'.backEdges = block.backEdges ∧
    (block.wasJumpDestination = true → block'.wasJumpDestination = true)
  links : s.links <+: s'.links
  names : Sound ctx s → (∀ x ∈ s'.aliases, AliasFits ctx x) ∧
    ∀ x ∈ s'.discoveredUndeclaredFields, x.2.variable_.name = x.1

theorem SameGraph.back (same : SameGraph ctx s s') {block : BasicBlock} (here : s.basicBlocks[b]? = some block) :
    ∃ block', s'.basicBlocks[b]? = some block' ∧ block'.bexit = block.bexit ∧ block'.backEdges = block.backEdges ∧
      (block.wasJumpDestination = true → block'.wasJumpDestination = true) := by
  obtain ⟨inside,_⟩ := List.getElem?_eq_some_iff.mp here
  rw [←same.length] at inside
  obtain ⟨block₀,here₀,rest⟩ := same.block b _ (List.getElem?_eq_getElem inside)
  obtain rfl := Option.some.inj (here.symm.trans here₀)
  exact ⟨_,List.getElem?_eq_getElem inside,rest⟩

theorem SameGraph.exits (same : SameGraph ctx s s') (b : BlockId) : exitsOf s' b = exitsOf s b := by
  unfold exitsOf
  cases here : s.basicBlocks[b]? with
  | none =>
    have outside := List.getElem?_eq_none_iff.mp here
    rw [←same.length] at outside
    rw [List.getElem?_eq_none outside]
  | some block =>
    obtain ⟨block',here',exit,_⟩ := same.back here
    rw [here']
    exact congrArg (Option.map _) exit

theorem SameGraph.jumpsTo (same : SameGraph ctx s s') : JumpsTo s' b c ↔ JumpsTo s b c := by
  unfold JumpsTo
  rw [same.exits]

theorem SameGraph.open_iff (same : SameGraph ctx s s') : Open s' b ↔ Open s b := by
  constructor
  · rintro (rfl | ⟨block',here,unset⟩)
    · exact .inl rfl
    · obtain ⟨block,here',exit,_⟩ := same.block b block' here
      exact .inr ⟨block,here',exit ▸ unset⟩
  · rintro (rfl | ⟨block,here,unset⟩)
    · exact .inl rfl
    · obtain ⟨block',here',exit,_⟩ := same.back here
      exact .inr ⟨block',here',exit.trans unset⟩

theorem SameGraph.unlinked (same : SameGraph ctx s s') (unlinked : Unlinked s' b) : Unlinked s b := by
  obtain ⟨alive,alive',block',here,unset⟩ := unlinked
  obtain ⟨block,here',_,_,flag⟩ := same.block b block' here
  refine ⟨alive,alive',block,here',?_⟩
  by_contra set
  rw [flag (Bool.not_eq_false _ ▸ set)] at unset
  cases unset

theorem SameGraph.sound (same : SameGraph ctx s s') (sound : Sound ctx s) : Sound ctx s' := by
  refine ⟨same.length ▸ sound.two,(same.exits _).trans sound.dead,?_,?_,?_,(same.names sound).1,(same.names sound).2,?_⟩
  · intro b block' exit here set
    obtain ⟨block,here',known,_⟩ := same.block b block' here
    have fair := sound.exits b block exit here' (known ▸ set)
    exact ⟨same.length ▸ fair.thenb,same.length ▸ fair.elseb,fair.cond,fair.set⟩
  · intro b block' here
    obtain ⟨block,here',_,edges,_⟩ := same.block b block' here
    exact edges ▸ sound.once b block here'
  · intro c block' here b
    obtain ⟨block,here',_,edges,_⟩ := same.block c block' here
    rw [edges,same.jumpsTo]
    exact sound.backEdges c block here' b
  · exact fun none_ => sound.links (List.prefix_nil.mp (none_ ▸ same.links))

-- A block ends: it goes on in thenb or elseb, which know it.
structure Jumped (s : State) (from_ : BlockId) (exit : BlockExit) (s' : State) : Prop where
  length : s'.basicBlocks.length = s.basicBlocks.length
  block : ∀ (c : BlockId) (block : BasicBlock), s.basicBlocks[c]? = some block → ∃ block', s'.basicBlocks[c]? = some block' ∧
    block'.exprs = block.exprs ∧ block'.bexit = (if c = from_ then some exit else block.bexit) ∧
    block'.backEdges = block.backEdges ++ (if c = exit.thenb ∨ c = exit.elseb then [from_] else []) ∧
    (block.wasJumpDestination = true → block'.wasJumpDestination = true)
  links : s'.links = s.links
  aliases : s'.aliases = s.aliases
  fields : s'.discoveredUndeclaredFields = s.discoveredUndeclaredFields

theorem Jumped.back {from_ : BlockId} {exit : BlockExit} (jumped : Jumped s from_ exit s') {block' : BasicBlock}
    (here : s'.basicBlocks[c]? = some block') : ∃ block, s.basicBlocks[c]? = some block ∧
    block'.exprs = block.exprs ∧ block'.bexit = (if c = from_ then some exit else block.bexit) ∧
    block'.backEdges = block.backEdges ++ (if c = exit.thenb ∨ c = exit.elseb then [from_] else []) ∧
    (block.wasJumpDestination = true → block'.wasJumpDestination = true) := by
  obtain ⟨inside,_⟩ := List.getElem?_eq_some_iff.mp here
  rw [jumped.length] at inside
  obtain ⟨block₀,here₀,rest⟩ := jumped.block c _ (List.getElem?_eq_getElem inside)
  obtain rfl := Option.some.inj (here.symm.trans here₀)
  exact ⟨_,List.getElem?_eq_getElem inside,rest⟩

section Jumps
variable {from_ : BlockId} {exit : BlockExit} (jumped : Jumped s from_ exit s')
include jumped

theorem Jumped.events (c : BlockId) : eventsOf ctx s' c = eventsOf ctx s c := by
  unfold eventsOf
  split
  · rfl
  cases here : s.basicBlocks[c]? with
  | none =>
    have outside := List.getElem?_eq_none_iff.mp here
    rw [←jumped.length] at outside
    rw [List.getElem?_eq_none outside]
  | some block =>
    obtain ⟨block',here',exprs,_⟩ := jumped.block c block here
    rw [here']
    simp only [Option.map_some,exprs]

theorem Jumped.exits_other (other : c ≠ from_) : exitsOf s' c = exitsOf s c := by
  unfold exitsOf
  cases here : s.basicBlocks[c]? with
  | none =>
    have outside := List.getElem?_eq_none_iff.mp here
    rw [←jumped.length] at outside
    rw [List.getElem?_eq_none outside]
  | some block =>
    obtain ⟨block',here',_,exit,_⟩ := jumped.block c block here
    rw [if_neg other] at exit
    rw [here']
    exact congrArg (Option.map _) exit

theorem Jumped.exits_from (inside : from_ < s.basicBlocks.length) :
    exitsOf s' from_ = some (exit.thenb,exit.elseb) := by
  obtain ⟨block',here',_,known,_⟩ := jumped.block from_ _ (List.getElem?_eq_getElem inside)
  rw [if_pos rfl] at known
  simp [exitsOf,here',known]

theorem Jumped.open_iff (alive : from_ ≠ deadBlock) : Open s' c ↔ Open s c ∧ c ≠ from_ := by
  constructor
  · rintro (rfl | ⟨block',here,unset⟩)
    · exact ⟨.inl rfl,alive.symm⟩
    · obtain ⟨block,here',_,known,_⟩ := jumped.back here
      by_cases same : c = from_
      · rw [if_pos same,unset] at known
        cases known
      · rw [if_neg same] at known
        exact ⟨.inr ⟨block,here',known ▸ unset⟩,same⟩
  · rintro ⟨rfl | ⟨block,here,unset⟩,other⟩
    · exact .inl rfl
    · obtain ⟨block',here',_,known,_⟩ := jumped.block c block here
      rw [if_neg other] at known
      exact .inr ⟨block',here',known.trans unset⟩

theorem Jumped.unlinked (unlinked : Unlinked s' c) : Unlinked s c := by
  obtain ⟨alive,alive',block',here,unset⟩ := unlinked
  obtain ⟨block,here',_,_,_,flag⟩ := jumped.back here
  refine ⟨alive,alive',block,here',?_⟩
  by_contra set
  rw [flag (Bool.not_eq_false _ ▸ set)] at unset
  cases unset

theorem Jumped.extends_ (unset : exitsOf s from_ = none) : Extends (flow ctx s) (flow ctx s') := by
  refine ⟨fun b => ⟨[],(List.append_nil _).trans (jumped.events b).symm⟩,fun b exit known => ?_⟩
  refine ⟨?_,jumped.events b⟩
  by_cases same : b = from_
  · subst same
    rw [show exitsOf s b = some exit from known] at unset
    cases unset
  · exact (jumped.exits_other same).trans known

theorem Jumped.sound (sound : Sound ctx s) (inside : from_ < s.basicBlocks.length) (alive : from_ ≠ deadBlock)
    (unset : exitsOf s from_ = none) (fair : FairExit ctx s exit) : Sound ctx s' := by
  refine ⟨jumped.length ▸ sound.two,(jumped.exits_other alive.symm).trans sound.dead,?_,?_,?_,?_,?_,?_⟩
  · intro b block' exit' here set
    obtain ⟨block,here',_,known,_⟩ := jumped.back here
    have fair' : FairExit ctx s exit' := by
      by_cases same : b = from_
      · rw [if_pos same] at known
        exact Option.some.inj (known.symm.trans set) ▸ fair
      · rw [if_neg same] at known
        exact sound.exits b block exit' here' (known ▸ set)
    exact ⟨jumped.length ▸ fair'.thenb,jumped.length ▸ fair'.elseb,fair'.cond,fair'.set⟩
  · intro b block' here
    obtain ⟨block,here',_,_,edges,_⟩ := jumped.back here
    rw [edges]
    split
    · refine List.nodup_append.mpr ⟨sound.once b block here',List.pairwise_singleton _ _,?_⟩
      intro p known q last same
      obtain rfl := List.mem_singleton.mp last
      obtain ⟨_,exit',set,_⟩ := (sound.backEdges b block here' p).mp known
      rw [same,unset] at set
      cases set
    · exact (List.append_nil _).symm ▸ sound.once b block here'
  · intro c block' here b
    obtain ⟨block,here',_,_,edges,_⟩ := jumped.back here
    rw [edges,List.mem_append,sound.backEdges c block here' b]
    by_cases same : b = from_
    · subst same
      have before : ¬ JumpsTo s b c := by
        rintro ⟨exit',set,_⟩
        rw [unset] at set
        cases set
      have after : JumpsTo s' b c ↔ exit.thenb = c ∨ exit.elseb = c := by
        simp only [JumpsTo,jumped.exits_from inside,Option.some.injEq]
        constructor
        · rintro ⟨_,rfl,target⟩
          exact target
        · exact fun target => ⟨_,rfl,target⟩
      rw [after]
      simp only [before,and_false,false_or]
      split
      · rename_i target
        simp only [List.mem_singleton,true_iff]
        exact ⟨alive,target.imp Eq.symm Eq.symm⟩
      · rename_i target
        simp only [List.not_mem_nil,false_iff]
        rintro ⟨_,target'⟩
        exact target (target'.imp Eq.symm Eq.symm)
    · have same' : JumpsTo s' b c ↔ JumpsTo s b c := by simp only [JumpsTo,jumped.exits_other same]
      rw [same']
      constructor
      · rintro (known | last)
        · exact known
        · split at last
          · exact absurd (List.mem_singleton.mp last) same
          · cases last
      · exact .inl
  · rw [jumped.aliases]
    exact sound.aliases
  · rw [jumped.fields]
    exact sound.fields
  · rw [jumped.links]
    exact sound.links

end Jumps

end Steps

section Blocks

theorem getElem?_modify_block {blocks : List BasicBlock} {f : BasicBlock → BasicBlock} :
    (blocks.modify b f)[c]? = if b = c then blocks[c]?.map f else blocks[c]? := by
  rw [List.getElem?_modify]
  split
  · rfl
  · exact Option.map_id'

theorem Open.inside (open_ : Open s b) (alive : b ≠ deadBlock) : b < s.basicBlocks.length := by
  obtain rfl | ⟨block,here,_⟩ := open_
  · exact absurd rfl alive
  · exact (List.getElem?_eq_some_iff.mp here).1

theorem Open.below (open_ : Open s b) (sound : Sound ctx s) : b < s.basicBlocks.length := by
  by_cases alive : b = deadBlock
  · exact alive ▸ sound.two
  · exact open_.inside alive

theorem Open.unset (open_ : Open s b) (alive : b ≠ deadBlock) : exitsOf s b = none := by
  obtain rfl | ⟨block,here,unset⟩ := open_
  · exact absurd rfl alive
  · simp [exitsOf,here,unset]

theorem eventsOf_dead (s : State) : eventsOf ctx s deadBlock = [] := if_pos rfl

-- The block that freshBlock adds.
theorem getElem?_fresh {blocks : List BasicBlock} {block : BasicBlock} :
    (blocks ++ [block])[b]? = if b = blocks.length then some block else blocks[b]? := by
  rcases Nat.lt_trichotomy b blocks.length with less | rfl | more
  · rw [List.getElem?_append_left less,if_neg (Nat.ne_of_lt less)]
  · simp
  · rw [if_neg (Nat.ne_of_gt more),List.getElem?_eq_none (Nat.le_of_lt more),List.getElem?_eq_none]
    simp only [List.length_append,List.length_singleton]
    exact more

end Blocks

end CFGBuilder
