import ScipRuby.Cfg.SimplifyLoop
import ScipRuby.Lib.Acceleration

namespace Cfg
open Acceleration Function
variable {Binding Loc : Type} {looped : Prop} {cfg cfg' : Graph Binding Loc} {b c bb t : BlockId}
variable {s s' : Loop Binding Loc}

-- The value of a variable after the given instructions.
abbrev Valuation (Binding : Type) := List Binding → LocalRef → Bool

-- A block about to be entered, and the instructions executed before it.
abbrev Config (Binding : Type) := BlockId × List Binding

variable (value : Valuation Binding)

def Graph.branch (cfg : Graph Binding Loc) (b : BlockId) (past : List Binding) : BlockId :=
  if value past (cfg.cond b) then cfg.thenb b else cfg.elseb b

-- Nothing leaves the dead block.
def Graph.move (cfg : Graph Binding Loc) (x : Config Binding) : Config Binding :=
  if x.1 = cfg.deadBlock then x else (cfg.branch value x.1 (x.2 ++ cfg.exprs x.1),x.2 ++ cfg.exprs x.1)

def Graph.execute (cfg : Graph Binding Loc) (n : Nat) : Config Binding := (cfg.move value)^[n] (cfg.entry,[])

-- The dead block is reached after exactly these instructions.
def Graph.Finishes (cfg : Graph Binding Loc) (instructions : List Binding) : Prop :=
  ∃ n, cfg.execute value n = (cfg.deadBlock,instructions)

-- The execution, which may go on for ever, begins with these instructions.
def Graph.Begins (cfg : Graph Binding Loc) (instructions : List Binding) : Prop :=
  ∃ n, instructions <+: (cfg.execute value n).2

-- An execution in cfg' is one in cfg that takes fewer jumps.
structure Speeds (cfg cfg' : Graph Binding Loc) : Prop where
  entry : cfg'.entry = cfg.entry
  deadBlock : cfg'.deadBlock = cfg.deadBlock
  faster : ∀ value, Accelerates (cfg.move value) (cfg'.move value)

theorem Speeds.refl (cfg : Graph Binding Loc) : Speeds cfg cfg := ⟨rfl,rfl,fun _ => .refl _⟩

theorem Speeds.trans {cfg'' : Graph Binding Loc} (first : Speeds cfg cfg') (second : Speeds cfg' cfg'') :
    Speeds cfg cfg'' where
  entry := second.entry.trans first.entry
  deadBlock := second.deadBlock.trans first.deadBlock
  faster := fun value => (first.faster value).trans (second.faster value)

section Effects
variable {value}

theorem move_dead {x : Config Binding} (dead : x.1 = cfg.deadBlock) : cfg.move value x = x := if_pos dead

theorem move_alive {x : Config Binding} (alive : x.1 ≠ cfg.deadBlock) :
    cfg.move value x = (cfg.branch value x.1 (x.2 ++ cfg.exprs x.1),x.2 ++ cfg.exprs x.1) := if_neg alive

theorem move_longer (x : Config Binding) : x.2 <+: (cfg.move value x).2 := by
  unfold Graph.move
  split
  · exact List.prefix_rfl
  · exact List.prefix_append ..

theorem branch_unconditional {past : List Binding} (both : cfg.thenb b = cfg.elseb b) :
    cfg.branch value b past = cfg.thenb b := by
  simp only [Graph.branch,← both,ite_self]

-- A block with the same code and the same way on at any value of its condition makes the same move.
theorem move_congr {x : Config Binding} (dead : cfg'.deadBlock = cfg.deadBlock) (code : cfg'.exprs x.1 = cfg.exprs x.1)
    (way : ∀ past, cfg'.branch value x.1 past = cfg.branch value x.1 past) : cfg'.move value x = cfg.move value x := by
  simp only [Graph.move,dead,code,way]

theorem branch_congr {past : List Binding} (cond : cfg'.cond b = cfg.cond b)
    (exits : cfg'.thenb b = cfg.thenb b ∧ cfg'.elseb b = cfg.elseb b) :
    cfg'.branch value b past = cfg.branch value b past := by
  simp only [Graph.branch,cond,exits.1,exits.2]

end Effects

theorem tidy_speeds : Speeds cfg (tidy cfg bb) where
  entry := tidy_same.toSameList.entry
  deadBlock := tidy_same.toSameList.deadBlock
  faster := by
    intro value x
    refine ⟨0,move_congr tidy_same.toSameList.deadBlock ?_ ?_⟩
    · simp only [Graph.exprs,tidy_block]
    · intro past
      have exits := (@tidy_same _ _ cfg bb).exits x.1
      by_cases both : cfg.thenb x.1 = cfg.elseb x.1
      · rw [branch_unconditional both,branch_unconditional (exits.1.trans (both.trans exits.2.symm)),exits.1]
      · refine branch_congr ?_ exits
        have untouched : ¬ (x.1 = bb ∧ cfg.thenb bb = cfg.elseb bb) := by
          rintro ⟨here,same⟩
          exact both (here ▸ same)
        simp only [Graph.cond,tidy_block,untouched,if_false]

theorem removeBlock_speeds : Speeds cfg (cfg.removeBlock bb) where
  entry := removeBlock_list.1
  deadBlock := removeBlock_list.2.1
  faster := by
    intro value x
    refine ⟨0,move_congr removeBlock_list.2.1 ?_ fun past => branch_congr ?_ (removeBlock_exits x.1)⟩
    · simp only [Graph.exprs,removeBlock_block]
    · simp only [Graph.cond,removeBlock_block]

theorem Rewires.move_elsewhere {value : Valuation Binding} (rewires : Rewires cfg cfg' bb t) {x : Config Binding}
    (apart : x.1 ≠ bb) : cfg'.move value x = cfg.move value x :=
  move_congr rewires.deadBlock (rewires.frame x.1 apart).1
    fun _ => branch_congr (rewires.frame x.1 apart).2 (rewires.elsewhere x.1 apart)

theorem Absorbs.speeds (absorbs : Absorbs cfg cfg' bb t) (alive : bb ≠ cfg.deadBlock) : Speeds cfg cfg' where
  entry := absorbs.entry
  deadBlock := absorbs.deadBlock
  faster := by
    intro value x
    by_cases apart : x.1 = bb
    · obtain ⟨b,past⟩ := x
      dsimp only at apart
      subst apart
      refine ⟨1,?_⟩
      -- The jump to t and the move of t come in one.
      have jump : cfg.move value (b,past) = (t,past ++ cfg.exprs b) := by
        rw [move_alive alive,branch_unconditional (absorbs.before.1.trans absorbs.before.2.symm),absorbs.before.1]
      have alive' : b ≠ cfg'.deadBlock := absorbs.deadBlock ▸ alive
      have target : t ≠ cfg.deadBlock := absorbs.alive
      rw [iterate_succ_apply,iterate_one,jump,move_alive alive',move_alive target]
      simp only [Graph.branch,absorbs.code.1,absorbs.code.2,absorbs.after.1,absorbs.after.2,List.append_assoc]
    · exact ⟨0,absorbs.move_elsewhere apart⟩

theorem Shortcuts.speeds (shortcuts : Shortcuts cfg cfg' bb t) (alive : bb ≠ cfg.deadBlock) : Speeds cfg cfg' where
  entry := shortcuts.entry
  deadBlock := shortcuts.deadBlock
  faster := by
    intro value x
    by_cases apart : x.1 = bb
    · obtain ⟨b,past⟩ := x
      dsimp only at apart
      subst apart
      have alive' : b ≠ cfg'.deadBlock := shortcuts.deadBlock ▸ alive
      have way : ∀ past, cfg'.branch value b past =
          if cfg.branch value b past = t then cfg.thenb t else cfg.branch value b past := by
        intro past
        simp only [Graph.branch,shortcuts.code.2,shortcuts.after.1,shortcuts.after.2]
        split <;> rfl
      by_cases detour : cfg.branch value b (past ++ cfg.exprs b) = t
      · refine ⟨1,?_⟩
        have target : t ≠ cfg.deadBlock := shortcuts.alive
        have jump : cfg.move value (b,past) = (t,past ++ cfg.exprs b) := by
          rw [move_alive alive,detour]
        rw [iterate_succ_apply,iterate_one,jump,move_alive alive',move_alive target]
        simp only [shortcuts.code.1,way,detour,if_true,shortcuts.silent,List.append_nil,
          branch_unconditional shortcuts.detour.1]
      · refine ⟨0,?_⟩
        change cfg'.move value (b,past) = cfg.move value (b,past)
        rw [@move_alive _ _ cfg value (b,past) alive,@move_alive _ _ cfg' value (b,past) alive']
        simp only [shortcuts.code.1,way,detour,if_false]
    · exact ⟨0,shortcuts.move_elsewhere apart⟩

theorem Stepped.speeds (step : Stepped s s') (sound : Sound looped s.cfg) : Speeds s.cfg s'.cfg := by
  cases step with
  | removed at_ done =>
    have turned := turned sound (List.mem_of_getElem? at_)
    rw [done] at turned
    cases turned with
    | removed => exact removeBlock_speeds
  | rewritten at_ done =>
    rename_i bb cfg'
    have turned := turned sound (List.mem_of_getElem? at_)
    rw [done] at turned
    have dead := (@tidy_same _ _ s.cfg bb).toSameList.deadBlock
    cases turned with
    | absorbed alive _ absorbs => exact tidy_speeds.trans (absorbs.speeds (dead ▸ alive))
    | shortened alive _ shortcuts => exact tidy_speeds.trans (shortcuts.speeds (dead ▸ alive))
  | kept at_ done =>
    obtain ⟨rfl,_⟩ := turn_kept sound (List.mem_of_getElem? at_) done
    exact tidy_speeds
  | again => exact .refl _

theorem simplify_speeds (formed : WellFormed looped cfg) {fuel : Nat} (run : simplify fuel cfg = some cfg') :
    Speeds cfg cfg' := by
  obtain ⟨s,reached,_,rfl⟩ := Loop.run_reached run
  refine (reached.keeps (fun s => Sound looped s.cfg ∧ Speeds cfg s.cfg) ⟨formed.sound,.refl cfg⟩ ?_).2
  intro s s' step both
  exact ⟨step.sound both.1,both.2.trans (step.speeds both.1)⟩

theorem Speeds.finishes_iff {value : Valuation Binding} (speeds : Speeds cfg cfg') (instructions : List Binding) :
    cfg.Finishes value instructions ↔ cfg'.Finishes value instructions := by
  simp only [Graph.Finishes,Graph.execute,speeds.entry,speeds.deadBlock]
  refine (speeds.faster value).eventually_iff (P := fun x => x = (cfg.deadBlock,instructions)) ?_
  rintro x rfl
  exact move_dead rfl

theorem Speeds.begins_iff {value : Valuation Binding} (speeds : Speeds cfg cfg') (instructions : List Binding) :
    cfg.Begins value instructions ↔ cfg'.Begins value instructions := by
  simp only [Graph.Begins,Graph.execute,speeds.entry]
  refine (speeds.faster value).eventually_iff (P := fun x => instructions <+: x.2) ?_
  intro x now
  exact now.trans (move_longer x)

theorem simplify_executes_same (formed : WellFormed looped cfg) :
    (∃ fuel out, simplify fuel cfg = some out) ∧
    ∀ fuel out, simplify fuel cfg = some out → ∀ value instructions,
      (cfg.Finishes value instructions ↔ out.Finishes value instructions) ∧
      (cfg.Begins value instructions ↔ out.Begins value instructions) := by
  refine ⟨Loop.run_terminates _ formed.sound,?_⟩
  intro fuel out run value instructions
  have speeds := simplify_speeds formed run
  exact ⟨speeds.finishes_iff instructions,speeds.begins_iff instructions⟩

-- Whatever the condition says, the sample executes its two instructions.
theorem simplify_executes_same_sample : WellFormed False sampleGraph ∧ sampleGraph.Finishes (fun _ _ => true) [10,11] ∧
    ∀ fuel out, simplify fuel sampleGraph = some out → out.Finishes (fun _ _ => true) [10,11] := by
  have finishes : sampleGraph.Finishes (fun _ _ => true) [10,11] := ⟨3,by decide⟩
  refine ⟨sampleGraph_formed,finishes,?_⟩
  intro fuel out run
  exact ((simplify_executes_same sampleGraph_formed).2 fuel out run _ _).1.mp finishes

end Cfg
