import ScipRuby.Cfg.Simplify

namespace Cfg
variable {Binding Loc : Type}

section Fields
variable (cfg : Graph Binding Loc) (b c bb : BlockId) (f : BasicBlock Binding Loc → BasicBlock Binding Loc)

@[simp] theorem update_entry : (cfg.update b f).entry = cfg.entry := rfl
@[simp] theorem update_deadBlock : (cfg.update b f).deadBlock = cfg.deadBlock := rfl
@[simp] theorem update_others : (cfg.update b f).others = cfg.others := rfl

theorem update_block : (cfg.update b f).block c = if c = b then f (cfg.block b) else cfg.block c :=
  Function.update_apply ..

end Fields

-- A change of the blocks alone.
structure SameList (cfg cfg' : Graph Binding Loc) : Prop where
  entry : cfg'.entry = cfg.entry
  deadBlock : cfg'.deadBlock = cfg.deadBlock
  others : cfg'.others = cfg.others

theorem SameList.basicBlocks {cfg cfg' : Graph Binding Loc} (same : SameList cfg cfg') :
    cfg'.basicBlocks = cfg.basicBlocks := by
  simp only [Graph.basicBlocks,same.entry,same.deadBlock,same.others]

-- What a block does before it jumps, and what it asks then.
def Graph.exprs (cfg : Graph Binding Loc) (b : BlockId) : List Binding := (cfg.block b).exprs
def Graph.cond (cfg : Graph Binding Loc) (b : BlockId) : LocalRef := (cfg.block b).bexit.cond.variable_

-- What a rewrite at bb does when it leaves the block t, which it went to, out.
structure Rewires (cfg cfg' : Graph Binding Loc) (bb t : BlockId) : Prop extends SameList cfg cfg' where
  elsewhere : ∀ b, b ≠ bb → cfg'.thenb b = cfg.thenb b ∧ cfg'.elseb b = cfg.elseb b
  kept : ∀ b, b ≠ bb → ∀ c, b ∈ cfg'.backEdges c ↔ b ∈ cfg.backEdges c
  linked : ∀ c ∈ cfg.basicBlocks, bb ∈ cfg'.backEdges c ↔ c = cfg'.thenb bb ∨ c = cfg'.elseb bb
  frame : ∀ b, b ≠ bb → cfg'.exprs b = cfg.exprs b ∧ cfg'.cond b = cfg.cond b
  distinct : bb ≠ t
  alive : t ≠ cfg.deadBlock

-- Both exits of bb went to t, and now go where those of t go.
structure Absorbs (cfg cfg' : Graph Binding Loc) (bb t : BlockId) : Prop extends Rewires cfg cfg' bb t where
  before : cfg.thenb bb = t ∧ cfg.elseb bb = t
  after : cfg'.thenb bb = cfg.thenb t ∧ cfg'.elseb bb = cfg.elseb t
  code : cfg'.exprs bb = cfg.exprs bb ++ cfg.exprs t ∧ cfg'.cond bb = cfg.cond t

-- t is a detour: the exits of bb that went to it go to its only successor.
structure Shortcuts (cfg cfg' : Graph Binding Loc) (bb t : BlockId) : Prop extends Rewires cfg cfg' bb t where
  before : cfg.thenb bb = t ∨ cfg.elseb bb = t
  detour : cfg.thenb t = cfg.elseb t ∧ cfg.thenb t ≠ t
  after : cfg'.thenb bb = (if cfg.thenb bb = t then cfg.thenb t else cfg.thenb bb) ∧
    cfg'.elseb bb = if cfg.elseb bb = t then cfg.thenb t else cfg.elseb bb
  silent : cfg.exprs t = []
  code : cfg'.exprs bb = cfg.exprs bb ∧ cfg'.cond bb = cfg.cond bb

section Rewrites
variable {cfg : Graph Binding Loc} {bb t : BlockId}

theorem mayAbsorb_iff {u : BlockId} : cfg.mayAbsorb bb t u = true ↔
    t = u ∧ t ≠ cfg.deadBlock ∧ t ≠ bb ∧ (cfg.block t).outerLoops = (cfg.block bb).outerLoops := by
  simp only [Graph.mayAbsorb,decide_eq_true_eq]

theorem isDetour_iff {onward : BlockId} : cfg.isDetour t onward = true ↔
    t ≠ cfg.deadBlock ∧ (cfg.block t).exprs = [] ∧ cfg.thenb t = cfg.elseb t ∧ t ≠ onward := by
  simp only [Graph.isDetour,decide_eq_true_eq,List.isEmpty_iff,BlockExit.isUnconditional,beq_iff_eq,Graph.thenb,Graph.elseb]

theorem addBackEdge_block (x b : BlockId) : (cfg.addBackEdge x bb).block b =
    {cfg.block b with backEdges := (cfg.block b).backEdges ++ if b = x then [bb] else []} := by
  by_cases same : b = x <;> simp [Graph.addBackEdge,update_block,same]

theorem eraseBackEdge_block (x b : BlockId) : (cfg.eraseBackEdge x bb).block b =
    {cfg.block b with backEdges := if b = x then (cfg.block b).backEdges.filter (· ≠ bb) else (cfg.block b).backEdges} := by
  by_cases same : b = x <;> simp [Graph.eraseBackEdge,update_block,same]

theorem setExit_block (f : BlockExit Loc → BlockExit Loc) (b : BlockId) : (cfg.setExit bb f).block b =
    {cfg.block b with bexit := if b = bb then f (cfg.block b).bexit else (cfg.block b).bexit} := by
  by_cases same : b = bb <;> simp [Graph.setExit,update_block,same]

theorem takeExit_block (b : BlockId) : (cfg.takeExit bb t).block b =
    {cfg.block b with bexit := if b = bb then {(cfg.block t).bexit with
      cond := {(cfg.block bb).bexit.cond with variable_ := (cfg.block t).bexit.cond.variable_}} else (cfg.block b).bexit} := by
  by_cases same : b = bb <;> simp [Graph.takeExit,setExit_block,same]

theorem linkExits_block (b : BlockId) : (cfg.linkExits bb).block b =
    {cfg.block b with backEdges := (cfg.block b).backEdges ++
      if b = cfg.thenb bb ∨ b = cfg.elseb bb then [bb] else []} := by
  simp only [Graph.linkExits,Graph.thenb,Graph.elseb,addBackEdge_block]
  by_cases both : (cfg.block bb).bexit.thenb = (cfg.block bb).bexit.elseb
  · simp [both,addBackEdge_block]
  · simp only [ne_eq,both,not_false_eq_true,if_true,addBackEdge_block,List.append_assoc]
    by_cases one : b = (cfg.block bb).bexit.thenb
    · have other : ¬ b = (cfg.block bb).bexit.elseb := fun same => both (one.symm.trans same)
      simp [one,both]
    · by_cases other : b = (cfg.block bb).bexit.elseb <;> simp [one,other,Ne.symm both]

theorem mem_marked {p : Prop} [Decidable p] {b : BlockId} : b ∈ (if p then [bb] else []) ↔ b = bb ∧ p := by
  split
  · rename_i holds
    simp [holds]
  · rename_i fails
    simp [fails]

-- The successors that bb is a back edge of are its exits.
def Owns (cfg : Graph Binding Loc) (bb : BlockId) : Prop :=
  ∀ c ∈ cfg.basicBlocks, bb ∈ cfg.backEdges c ↔ c = cfg.thenb bb ∨ c = cfg.elseb bb

theorem linkExits_list : SameList cfg (cfg.linkExits bb) := by
  simp only [Graph.linkExits]
  split
  · exact ⟨rfl,rfl,rfl⟩
  · exact ⟨rfl,rfl,rfl⟩

theorem inlineExit_absorbs (owns : Owns cfg bb) (exits : cfg.thenb bb = t ∧ cfg.elseb bb = t)
    (alive : t ≠ cfg.deadBlock) (apart : t ≠ bb) (silent : cfg.exprs t = []) : Absorbs cfg (cfg.inlineExit bb t) bb t := by
  have list := @linkExits_list _ _ ((cfg.takeExit bb t).eraseBackEdge t bb) bb
  have block : ∀ b, (cfg.inlineExit bb t).block b = _ := fun b => linkExits_block b
  simp only [Graph.thenb,Graph.elseb,eraseBackEdge_block,takeExit_block] at block
  obtain ⟨oneExit,otherExit⟩ := exits
  simp only [Graph.thenb,Graph.elseb] at oneExit otherExit
  refine {entry := list.entry,deadBlock := list.deadBlock,others := list.others,
          elsewhere := ?_,kept := ?_,linked := ?_,frame := ?_,distinct := apart.symm,alive := alive,
          before := ⟨oneExit,otherExit⟩,after := ?_,code := ?_}
  · intro b other
    simp [Graph.thenb,Graph.elseb,block,other]
  · intro b other c
    simp only [Graph.backEdges,block]
    by_cases here : c = t
    · subst here
      simp [other]
    · simp [here,other]
  · intro c listed
    have before := owns c listed
    simp only [Graph.thenb,Graph.elseb,Graph.backEdges,oneExit,otherExit,or_self] at before
    simp only [Graph.backEdges,block,List.mem_append,mem_marked]
    simp only [Graph.thenb,Graph.elseb,block]
    by_cases here : c = t
    · subst here
      simp
    · simp [here,before]
  · intro b other
    simp [Graph.exprs,Graph.cond,block,other]
  · simp [Graph.thenb,Graph.elseb,block]
  · rw [silent]
    simp [Graph.exprs,Graph.cond,block]

theorem clear_block (b : BlockId) : (cfg.update t fun block => {block with backEdges := []}).block b =
    {cfg.block b with backEdges := if b = t then [] else (cfg.block b).backEdges} := by
  by_cases same : b = t <;> simp [update_block,same]

theorem join_block (more : List Binding) (b : BlockId) :
    (cfg.update bb fun block => {block with exprs := block.exprs ++ more}).block b =
    {cfg.block b with exprs := (cfg.block b).exprs ++ if b = bb then more else []} := by
  by_cases same : b = bb <;> simp [update_block,same]

theorem squish_block (b : BlockId) (apart : t ≠ bb) : (cfg.squish bb t).block b =
    {cfg.block b with
      exprs := (cfg.block b).exprs ++ if b = bb then (cfg.block t).exprs else [],
      bexit := if b = bb then {(cfg.block t).bexit with
        cond := {(cfg.block bb).bexit.cond with variable_ := (cfg.block t).bexit.cond.variable_}} else (cfg.block b).bexit,
      backEdges := (if b = t then [] else (cfg.block b).backEdges) ++
        if b = cfg.thenb t ∨ b = cfg.elseb t then [bb] else []} := by
  simp only [Graph.squish,Graph.thenb,Graph.elseb,linkExits_block,takeExit_block,clear_block,join_block,apart,if_true,
    if_false]
  rfl

theorem squish_absorbs (owns : Owns cfg bb) (exits : cfg.thenb bb = t ∧ cfg.elseb bb = t) (listed : t ∈ cfg.basicBlocks)
    (alive : t ≠ cfg.deadBlock) (apart : t ≠ bb) (only : (cfg.backEdges t).length = 1) :
    Absorbs cfg (cfg.squish bb t) bb t := by
  have list : SameList cfg (cfg.squish bb t) := by
    have linked := @linkExits_list Binding Loc
    simp only [Graph.squish]
    exact ⟨linked.entry,linked.deadBlock,linked.others⟩
  have block := fun b => @squish_block _ _ cfg bb t b apart
  have alone : cfg.backEdges t = [bb] := by
    obtain ⟨x,single⟩ := List.length_eq_one_iff.mp only
    have member := (owns t listed).mpr (.inl exits.1.symm)
    rw [single,List.mem_singleton] at member
    rw [single,member]
  simp only [Graph.backEdges] at alone
  refine {toSameList := list,elsewhere := ?_,kept := ?_,linked := ?_,frame := ?_,distinct := apart.symm,alive := alive,
          before := exits,after := ?_,code := ?_}
  · intro b other
    simp [Graph.thenb,Graph.elseb,block,other]
  · intro b other c
    simp only [Graph.backEdges,block]
    by_cases here : c = t
    · subst here
      simp [other,alone]
    · simp [here,other]
  · intro c present
    have before := owns c present
    simp only [exits.1,exits.2,Graph.backEdges,or_self] at before
    simp only [Graph.backEdges,block,List.mem_append,mem_marked]
    simp only [Graph.thenb,Graph.elseb,block]
    by_cases here : c = t
    · subst here
      simp
    · simp [here,before]
  · intro b other
    simp [Graph.exprs,Graph.cond,block,other]
  · simp [Graph.thenb,Graph.elseb,block]
  · simp [Graph.exprs,Graph.cond,block]

-- Both shortcuts move every exit of bb that went to the detour.
theorem shortcuts_of_blocks {cfg' : Graph Binding Loc} (list : SameList cfg cfg') (owns : Owns cfg bb)
    (detour : cfg.isDetour t (cfg.thenb t) = true) (before : cfg.thenb bb = t ∨ cfg.elseb bb = t)
    (elsewhere : ∀ b, b ≠ bb → cfg'.thenb b = cfg.thenb b ∧ cfg'.elseb b = cfg.elseb b)
    (after : cfg'.thenb bb = (if cfg.thenb bb = t then cfg.thenb t else cfg.thenb bb) ∧
      cfg'.elseb bb = if cfg.elseb bb = t then cfg.thenb t else cfg.elseb bb)
    (edges : ∀ c b, b ∈ cfg'.backEdges c ↔ (b ∈ cfg.backEdges c ∨ b = bb ∧ c = cfg.thenb t) ∧ (c = t → b ≠ bb))
    (code : ∀ b, cfg'.exprs b = cfg.exprs b ∧ cfg'.cond b = cfg.cond b) : Shortcuts cfg cfg' bb t := by
  obtain ⟨alive,silent,same,apart⟩ := isDetour_iff.mp detour
  have distinct : bb ≠ t := by
    rintro rfl
    rcases before with loop | loop
    · exact apart loop.symm
    · exact apart (same.trans loop).symm
  refine {toSameList := list,elsewhere := elsewhere,kept := ?_,linked := ?_,frame := fun b _ => code b,
          distinct := distinct,alive := alive,before := before,detour := ⟨same,apart.symm⟩,after := after,
          silent := silent,code := code bb}
  · intro b other c
    rw [edges]
    simp [other]
  · intro c listed
    have redirected : ∀ x, c = (if x = t then cfg.thenb t else x) ↔ (c = x ∧ c ≠ t) ∨ (x = t ∧ c = cfg.thenb t) := by
      intro x
      by_cases at_ : x = t
      · subst at_
        simp
      · simp only [at_,if_false,false_and,or_false]
        exact ⟨fun same => ⟨same,fun here => at_ (same ▸ here)⟩,fun both => both.1⟩
    rw [edges,owns c listed,after.1,after.2,redirected,redirected]
    by_cases here : c = t
    · subst here
      simp [apart]
    · simp only [here,ne_eq,not_false_eq_true,and_true,true_and,false_implies]
      tauto

theorem mem_erased {l : List BlockId} {b : BlockId} {p : Prop} [Decidable p] :
    b ∈ (if p then l.filter (· ≠ bb) else l) ↔ b ∈ l ∧ (p → b ≠ bb) := by
  split
  · rename_i holds
    simp [holds]
  · rename_i fails
    simp [fails]

theorem shortcutThen_shortcuts {u : BlockId} (owns : Owns cfg bb) (exits : cfg.thenb bb = t ∧ cfg.elseb bb = u)
    (detour : cfg.isDetour t (cfg.thenb t) = true) : Shortcuts cfg (cfg.shortcutThen bb t u) bb t := by
  have block : ∀ b, (cfg.shortcutThen bb t u).block b =
      {cfg.block b with
        bexit := if b = bb then {(cfg.block bb).bexit with
          thenb := cfg.thenb t,elseb := if t = u then cfg.thenb t else cfg.elseb bb} else (cfg.block b).bexit,
        backEdges := if b = t then ((cfg.block b).backEdges ++ if b = cfg.thenb t then [bb] else []).filter (· ≠ bb)
          else (cfg.block b).backEdges ++ if b = cfg.thenb t then [bb] else []} := by
    intro b
    simp only [Graph.shortcutThen]
    by_cases both : t = u <;> by_cases here : b = bb <;>
      simp [both,here,setExit_block,eraseBackEdge_block,addBackEdge_block,Graph.elseb]
  have list : SameList cfg (cfg.shortcutThen bb t u) := by
    simp only [Graph.shortcutThen]
    split <;> exact ⟨rfl,rfl,rfl⟩
  have thenAfter : (cfg.shortcutThen bb t u).thenb bb = cfg.thenb t := by simp only [Graph.thenb,block,if_true]
  have elseAfter : (cfg.shortcutThen bb t u).elseb bb = if t = u then cfg.thenb t else cfg.elseb bb := by
    simp only [Graph.elseb,block,if_true]
  refine shortcuts_of_blocks list owns detour (.inl exits.1) ?_ ⟨?_,?_⟩ ?_ ?_
  · intro b other
    simp [Graph.thenb,Graph.elseb,block,other]
  · rw [thenAfter,if_pos exits.1]
  · rw [elseAfter,exits.2]
    simp only [eq_comm]
  · intro c b
    simp only [Graph.backEdges,block,mem_erased,List.mem_append,mem_marked]
  · intro b
    by_cases here : b = bb <;> simp [Graph.exprs,Graph.cond,block,here]

theorem shortcutElse_shortcuts {u : BlockId} (owns : Owns cfg bb) (exits : cfg.thenb bb = u ∧ cfg.elseb bb = t)
    (detour : cfg.isDetour t (cfg.elseb t) = true) : Shortcuts cfg (cfg.shortcutElse bb u t) bb t := by
  have onward : cfg.elseb t = cfg.thenb t := (isDetour_iff.mp detour).2.2.1.symm
  have block : ∀ b, (cfg.shortcutElse bb u t).block b =
      {cfg.block b with
        bexit := if b = bb then {(cfg.block bb).bexit with
          thenb := if u = t then cfg.thenb t else (cfg.block bb).bexit.thenb,elseb := cfg.thenb t} else (cfg.block b).bexit,
        backEdges := if b = t then ((cfg.block b).backEdges ++ if b = cfg.thenb t then [bb] else []).filter (· ≠ bb)
          else (cfg.block b).backEdges ++ if b = cfg.thenb t then [bb] else []} := by
    intro b
    simp only [Graph.shortcutElse,onward]
    by_cases both : u = t <;> by_cases here : b = bb <;>
      simp [both,here,setExit_block,eraseBackEdge_block,addBackEdge_block]
  have list : SameList cfg (cfg.shortcutElse bb u t) := by
    simp only [Graph.shortcutElse]
    split <;> exact ⟨rfl,rfl,rfl⟩
  have thenAfter : (cfg.shortcutElse bb u t).thenb bb = if u = t then cfg.thenb t else cfg.thenb bb := by
    simp only [Graph.thenb,block,if_true]
  have elseAfter : (cfg.shortcutElse bb u t).elseb bb = cfg.thenb t := by simp only [Graph.elseb,block,if_true]
  rw [onward] at detour
  refine shortcuts_of_blocks list owns detour (.inr exits.2) ?_ ⟨?_,?_⟩ ?_ ?_
  · intro b other
    simp [Graph.thenb,Graph.elseb,block,other]
  · rw [thenAfter,exits.1]
  · rw [elseAfter,if_pos exits.2]
  · intro c b
    simp only [Graph.backEdges,block,mem_erased,List.mem_append,mem_marked]
  · intro b
    by_cases here : b = bb <;> simp [Graph.exprs,Graph.cond,block,here]

end Rewrites
end Cfg
