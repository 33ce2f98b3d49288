import Mathlib.Data.Finset.Prod
import Mathlib.Data.Prod.Lex
import ScipRuby.Cfg.Invariant

namespace Cfg
open Relation Bypass
variable {Binding Loc : Type} {looped : Prop} {cfg cfg' : Graph Binding Loc} {b c bb t : BlockId}

-- What one turn at bb can do.
inductive Turned (cfg : Graph Binding Loc) (bb : BlockId) : Turn Binding Loc → Prop where
  | removed : bb ≠ cfg.deadBlock → bb ≠ cfg.entry → cfg.backEdges bb = [] → Turned cfg bb (.removed (cfg.removeBlock bb))
  | absorbed {cfg' : Graph Binding Loc} {t : BlockId} : bb ≠ cfg.deadBlock → t ∈ cfg.basicBlocks →
    Absorbs (tidy cfg bb) cfg' bb t → Turned cfg bb (.rewritten cfg')
  | shortened {cfg' : Graph Binding Loc} {t : BlockId} : bb ≠ cfg.deadBlock → t ∈ cfg.basicBlocks →
    Shortcuts (tidy cfg bb) cfg' bb t → Turned cfg bb (.rewritten cfg')
  | kept : bb = cfg.deadBlock ∨ bb = cfg.entry ∨ cfg.backEdges bb ≠ [] → Turned cfg bb (.kept (tidy cfg bb))

theorem turned (sound : Sound looped cfg) (listed : bb ∈ cfg.basicBlocks) : Turned cfg bb (turn cfg bb) := by
  have same := @tidy_same _ _ cfg bb
  have sound' := same.sound sound
  have exits := same.exits bb
  have inside := sound.exits bb listed
  have dead := same.toSameList.deadBlock
  have list := same.toSameList.basicBlocks
  -- An exit to a block other than the dead one belongs to a block other than the dead one.
  have aliveThen : cfg.thenb bb ≠ cfg.deadBlock → bb ≠ cfg.deadBlock := by
    rintro apart rfl
    exact apart sound.deadLoop.1
  have aliveElse : cfg.elseb bb ≠ cfg.deadBlock → bb ≠ cfg.deadBlock := by
    rintro apart rfl
    exact apart sound.deadLoop.2
  have owns : bb ≠ cfg.deadBlock → Owns (tidy cfg bb) bb :=
    fun alive => sound'.owns (list ▸ listed) (dead ▸ alive)
  unfold turn
  split
  · rename_i unused
    exact .removed unused.1 unused.2.1 (List.isEmpty_iff.mp unused.2.2)
  rename_i used
  unfold rewrite
  split
  · rename_i absorb
    obtain ⟨both,alive,apart,_⟩ := mayAbsorb_iff.mp absorb.1
    rw [dead] at alive
    refine .absorbed (aliveThen alive) inside.1 (squish_absorbs (owns (aliveThen alive)) ⟨exits.1,?_⟩ ?_ ?_ apart absorb.2)
    · rw [exits.2,both]
    · exact list ▸ inside.1
    · rwa [dead]
  split
  · rename_i absorb
    obtain ⟨both,alive,apart,_⟩ := mayAbsorb_iff.mp absorb.1
    rw [dead] at alive
    refine .absorbed (aliveThen alive) inside.1 (inlineExit_absorbs (owns (aliveThen alive)) ⟨exits.1,?_⟩ ?_ apart ?_)
    · rw [exits.2,both]
    · rwa [dead]
    · exact List.isEmpty_iff.mp absorb.2.2
  split
  · rename_i detour
    have alive := (isDetour_iff.mp detour).1
    rw [dead] at alive
    exact .shortened (aliveThen alive) inside.1 (shortcutThen_shortcuts (owns (aliveThen alive)) exits detour)
  split
  · rename_i detour
    have alive := (isDetour_iff.mp detour).1
    rw [dead] at alive
    exact .shortened (aliveElse alive) inside.2 (shortcutElse_shortcuts (owns (aliveElse alive)) exits detour)
  · refine .kept ?_
    by_contra! unused
    exact used ⟨unused.1,unused.2.1,List.isEmpty_iff.mpr unused.2.2⟩

theorem Turned.sound_removed (turned : Turned cfg bb (.removed cfg')) (sound : Sound looped cfg)
    (listed : bb ∈ cfg.basicBlocks) : Sound looped cfg' := by
  cases turned with
  | removed alive inner unused => exact removeBlock_sound sound alive inner listed unused

theorem Turned.bypasses (turned : Turned cfg bb (.rewritten cfg')) (listed : bb ∈ cfg.basicBlocks) :
    bb ≠ cfg.deadBlock ∧ ∃ t ∈ cfg.basicBlocks, Rewires (tidy cfg bb) cfg' bb t ∧
      Bypasses (Edge (tidy cfg bb)) (Edge cfg') bb t := by
  have list := (@tidy_same _ _ cfg bb).toSameList.basicBlocks
  cases turned with
  | absorbed alive target absorbs =>
    exact ⟨alive,_,target,absorbs.toRewires,absorbs.bypasses (list ▸ listed) (list ▸ target)⟩
  | shortened alive target shortcuts =>
    exact ⟨alive,_,target,shortcuts.toRewires,shortcuts.bypasses (list ▸ listed) (list ▸ target)⟩

theorem Turned.sound_rewritten (turned : Turned cfg bb (.rewritten cfg')) (sound : Sound looped cfg)
    (listed : bb ∈ cfg.basicBlocks) : Sound looped cfg' := by
  have same := @tidy_same _ _ cfg bb
  obtain ⟨alive,t,target,rewires,bypasses⟩ := turned.bypasses listed
  exact rewires.sound bypasses (same.sound sound) (same.toSameList.basicBlocks ▸ listed)
    (same.toSameList.deadBlock ▸ alive)

section Measure

-- A way from b to the dead block that avoids x.
def Avoids (cfg : Graph Binding Loc) (x b : BlockId) : Prop :=
  b ≠ x ∧ ReflTransGen (Into (· ≠ x) (Edge cfg)) b cfg.deadBlock

open Classical in
-- The pairs of a block and a block that no way to the dead block through the given exit can miss.
noncomputable def unavoidable (cfg : Graph Binding Loc) (exit : BlockId → BlockId) : Finset (BlockId × BlockId) :=
  (cfg.basicBlocks.toFinset ×ˢ cfg.basicBlocks.toFinset).filter fun p => ¬ Avoids cfg p.2 (exit p.1)

theorem mem_unavoidable {exit : BlockId → BlockId} {x : BlockId} : (b,x) ∈ unavoidable cfg exit ↔
    (b ∈ cfg.basicBlocks ∧ x ∈ cfg.basicBlocks) ∧ ¬ Avoids cfg x (exit b) := by
  simp only [unavoidable,Finset.mem_filter,Finset.mem_product,List.mem_toFinset]

noncomputable def thenPart (cfg : Graph Binding Loc) : Finset (BlockId × BlockId) := unavoidable cfg cfg.thenb
noncomputable def elsePart (cfg : Graph Binding Loc) : Finset (BlockId × BlockId) := unavoidable cfg cfg.elseb

theorem mem_parts {x : BlockId} : (b,x) ∈ thenPart cfg ∩ elsePart cfg ↔ (b ∈ cfg.basicBlocks ∧ x ∈ cfg.basicBlocks) ∧
    ¬ Avoids cfg x (cfg.thenb b) ∧ ¬ Avoids cfg x (cfg.elseb b) := by
  simp only [thenPart,elsePart,Finset.mem_inter,mem_unavoidable]
  tauto

theorem Avoids.kept {x : BlockId} (rewires : Rewires cfg cfg' bb t) (bypasses : Bypasses (Edge cfg) (Edge cfg') bb t)
    (avoids : Avoids cfg x b) : Avoids cfg' x b := by
  refine ⟨avoids.1,?_⟩
  rw [rewires.toSameList.deadBlock]
  exact bypasses.reaches rewires.alive.symm avoids.2

theorem Avoids.onward {x : BlockId} (avoids : Avoids cfg x b) (alive : b ≠ cfg.deadBlock) :
    ∃ c, Edge cfg b c ∧ Avoids cfg x c := by
  rcases ReflTransGen.cases_head avoids.2 with same | ⟨c,edge,rest⟩
  · exact absurd same alive
  · exact ⟨c,edge.1,edge.2,rest⟩

theorem avoids_self (sound : Sound looped cfg) (listed : t ∈ cfg.basicBlocks) (alive : t ≠ cfg.deadBlock) :
    ∃ c, Edge cfg t c ∧ Avoids cfg t c := by
  obtain ⟨c,edge,apart,path⟩ := avoids_after (sound.toDead t listed) alive.symm
  exact ⟨c,edge,apart,path⟩

variable (sound : Sound looped cfg) (listed : bb ∈ cfg.basicBlocks) (target : t ∈ cfg.basicBlocks)
include sound listed target

theorem Absorbs.parts_ssubset (absorbs : Absorbs cfg cfg' bb t) :
    thenPart cfg' ∩ elsePart cfg' ⊂ thenPart cfg ∩ elsePart cfg := by
  have bypasses := absorbs.bypasses listed target
  have keep : ∀ {x b}, Avoids cfg x b → Avoids cfg' x b := fun avoids => avoids.kept absorbs.toRewires bypasses
  have list := absorbs.toSameList.basicBlocks
  -- A way on from t is a way on from bb now.
  have onward : ∀ x c, Edge cfg t c → Avoids cfg x c →
      Avoids cfg' x (cfg'.thenb bb) ∨ Avoids cfg' x (cfg'.elseb bb) := by
    rintro x c ⟨_,rfl | rfl⟩ avoids
    · exact .inl (absorbs.after.1 ▸ keep avoids)
    · exact .inr (absorbs.after.2 ▸ keep avoids)
  refine Finset.ssubset_iff_subset_ne.mpr ⟨?_,?_⟩
  · rintro ⟨b,x⟩ member
    rw [mem_parts,list] at member
    obtain ⟨present,noThen,noElse⟩ := member
    refine mem_parts.mpr ⟨present,?_⟩
    by_cases same : b = bb
    · subst same
      rw [absorbs.before.1,absorbs.before.2,and_self]
      intro avoids
      obtain ⟨c,edge,further⟩ := avoids.onward absorbs.alive
      rcases onward x c edge further with found | found
      · exact noThen found
      · exact noElse found
    · rw [(absorbs.elsewhere b same).1] at noThen
      rw [(absorbs.elsewhere b same).2] at noElse
      exact ⟨fun avoids => noThen (keep avoids),fun avoids => noElse (keep avoids)⟩
  · intro equal
    have before : (bb,t) ∈ thenPart cfg ∩ elsePart cfg :=
      mem_parts.mpr ⟨⟨listed,target⟩,fun avoids => avoids.1 absorbs.before.1,fun avoids => avoids.1 absorbs.before.2⟩
    rw [← equal,mem_parts] at before
    obtain ⟨c,edge,avoids⟩ := avoids_self sound target absorbs.alive
    rcases onward t c edge avoids with found | found
    · exact before.2.1 found
    · exact before.2.2 found

omit sound in
-- One of the two exits of bb after a shortcut.
theorem Shortcuts.exit_avoids {x exit exit' : BlockId} (shortcuts : Shortcuts cfg cfg' bb t)
    (after : exit' = if exit = t then cfg.thenb t else exit) (avoids : Avoids cfg x exit) : Avoids cfg' x exit' := by
  have bypasses := shortcuts.bypasses listed target
  subst after
  split
  · rename_i detour
    subst detour
    obtain ⟨c,⟨_,edge⟩,further⟩ := avoids.onward shortcuts.alive
    rw [← shortcuts.detour.1,or_self] at edge
    subst edge
    exact further.kept shortcuts.toRewires bypasses
  · exact avoids.kept shortcuts.toRewires bypasses

theorem Shortcuts.detour_avoided (shortcuts : Shortcuts cfg cfg' bb t) : Avoids cfg' t (cfg.thenb t) := by
  obtain ⟨c,⟨_,edge⟩,avoids⟩ := avoids_self sound target shortcuts.alive
  rw [← shortcuts.detour.1,or_self] at edge
  subst edge
  exact avoids.kept shortcuts.toRewires (shortcuts.bypasses listed target)

omit sound in
theorem Shortcuts.part_subset {exit exit' : BlockId → BlockId} (shortcuts : Shortcuts cfg cfg' bb t)
    (elsewhere : ∀ b, b ≠ bb → exit' b = exit b)
    (after : exit' bb = if exit bb = t then cfg.thenb t else exit bb) : unavoidable cfg' exit' ⊆ unavoidable cfg exit := by
  rintro ⟨b,x⟩ member
  rw [mem_unavoidable,shortcuts.toSameList.basicBlocks] at member
  refine mem_unavoidable.mpr ⟨member.1,fun avoids => member.2 ?_⟩
  by_cases same : b = bb
  · subst same
    exact shortcuts.exit_avoids listed target after avoids
  · rw [elsewhere b same]
    exact avoids.kept shortcuts.toRewires (shortcuts.bypasses listed target)

theorem Shortcuts.part_lt {exit exit' : BlockId → BlockId} (shortcuts : Shortcuts cfg cfg' bb t)
    (elsewhere : ∀ b, b ≠ bb → exit' b = exit b)
    (after : exit' bb = if exit bb = t then cfg.thenb t else exit bb) (before : exit bb = t) :
    (unavoidable cfg' exit').card < (unavoidable cfg exit).card := by
  refine Finset.card_lt_card (Finset.ssubset_iff_subset_ne.mpr ⟨shortcuts.part_subset listed target elsewhere after,?_⟩)
  intro equal
  have member : (bb,t) ∈ unavoidable cfg exit := mem_unavoidable.mpr ⟨⟨listed,target⟩,fun avoids => avoids.1 before⟩
  rw [← equal,mem_unavoidable,after,if_pos before] at member
  exact member.2 (shortcuts.detour_avoided sound listed target)

theorem Shortcuts.parts_lt (shortcuts : Shortcuts cfg cfg' bb t) :
    (thenPart cfg' ∩ elsePart cfg').card ≤ (thenPart cfg ∩ elsePart cfg).card ∧
    (thenPart cfg').card + (elsePart cfg').card < (thenPart cfg).card + (elsePart cfg).card := by
  have thenElsewhere := fun b other => (shortcuts.elsewhere b other).1
  have elseElsewhere := fun b other => (shortcuts.elsewhere b other).2
  have thenKept : thenPart cfg' ⊆ thenPart cfg := shortcuts.part_subset listed target thenElsewhere shortcuts.after.1
  have elseKept : elsePart cfg' ⊆ elsePart cfg := shortcuts.part_subset listed target elseElsewhere shortcuts.after.2
  refine ⟨Finset.card_le_card (Finset.inter_subset_inter thenKept elseKept),?_⟩
  rcases shortcuts.before with exit | exit
  · have less := shortcuts.part_lt sound listed target thenElsewhere shortcuts.after.1 exit
    exact Nat.add_lt_add_of_lt_of_le less (Finset.card_le_card elseKept)
  · have less := shortcuts.part_lt sound listed target elseElsewhere shortcuts.after.2 exit
    exact Nat.add_lt_add_of_le_of_lt (Finset.card_le_card thenKept) less

end Measure
end Cfg
