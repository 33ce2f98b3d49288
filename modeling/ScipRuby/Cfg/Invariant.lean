import Mathlib.Data.List.Nodup
import Mathlib.Data.List.Sort
import ScipRuby.Cfg.Rewiring
import ScipRuby.Lib.Bypass

namespace Cfg
open Relation Bypass
variable {Binding Loc : Type} {looped : Prop} {cfg cfg' : Graph Binding Loc} {b c bb t : BlockId}

def Edge (cfg : Graph Binding Loc) (b c : BlockId) : Prop :=
  b ∈ cfg.basicBlocks ∧ (c = cfg.thenb b ∨ c = cfg.elseb b)

def Reaches (cfg : Graph Binding Loc) : BlockId → BlockId → Prop := ReflTransGen (Edge cfg)

-- The dead block jumps to itself. Whether this edge is a back edge, which sanityCheck does not ask, is what
-- looped says.
structure EdgesDual (looped : Prop) (cfg : Graph Binding Loc) : Prop where
  exits : ∀ b ∈ cfg.basicBlocks, cfg.thenb b ∈ cfg.basicBlocks ∧ cfg.elseb b ∈ cfg.basicBlocks
  named : ∀ c ∈ cfg.basicBlocks, ∀ b ∈ cfg.backEdges c, b ∈ cfg.basicBlocks
  dual : ∀ b ∈ cfg.basicBlocks, ∀ c ∈ cfg.basicBlocks,
    b ∈ cfg.backEdges c ↔ (c = cfg.thenb b ∨ c = cfg.elseb b) ∧ (b = cfg.deadBlock → looped)

structure WellFormed (looped : Prop) (cfg : Graph Binding Loc) : Prop extends EdgesDual looped cfg where
  distinct : cfg.basicBlocks.Nodup
  deadLoop : cfg.thenb cfg.deadBlock = cfg.deadBlock ∧ cfg.elseb cfg.deadBlock = cfg.deadBlock
  noEntry : ∀ b ∈ cfg.basicBlocks, cfg.thenb b ≠ cfg.entry ∧ cfg.elseb b ≠ cfg.entry
  reachable : ∀ b ∈ cfg.basicBlocks, Reaches cfg cfg.entry b
  toDead : ∀ b ∈ cfg.basicBlocks, Reaches cfg b cfg.deadBlock

-- What every turn keeps. A block can become unreachable for a while, but no cycle of blocks does.
structure Sound (looped : Prop) (cfg : Graph Binding Loc) : Prop extends EdgesDual looped cfg where
  distinct : cfg.basicBlocks.Nodup
  deadLoop : cfg.thenb cfg.deadBlock = cfg.deadBlock ∧ cfg.elseb cfg.deadBlock = cfg.deadBlock
  noEntry : ∀ b ∈ cfg.basicBlocks, cfg.thenb b ≠ cfg.entry ∧ cfg.elseb b ≠ cfg.entry
  cycles : CyclesReached (Edge cfg) cfg.entry
  toDead : ∀ b ∈ cfg.basicBlocks, Reaches cfg b cfg.deadBlock

theorem WellFormed.sound (formed : WellFormed looped cfg) : Sound looped cfg where
  toEdgesDual := formed.toEdgesDual
  distinct := formed.distinct
  deadLoop := formed.deadLoop
  noEntry := formed.noEntry
  toDead := formed.toDead
  cycles := by
    intro b cycle
    obtain ⟨c,edge,_⟩ := TransGen.head'_iff.mp cycle
    exact formed.reachable b edge.1

section Facts

theorem entry_listed : cfg.entry ∈ cfg.basicBlocks := List.mem_cons_self
theorem EdgesDual.closed (dual : EdgesDual looped cfg) (edge : Edge cfg b c) : c ∈ cfg.basicBlocks := by
  obtain ⟨listed,rfl | rfl⟩ := edge
  · exact (dual.exits b listed).1
  · exact (dual.exits b listed).2

theorem EdgesDual.owns (dual : EdgesDual looped cfg) (listed : bb ∈ cfg.basicBlocks) (alive : bb ≠ cfg.deadBlock) :
    Owns cfg bb := by
  intro c present
  rw [dual.dual bb listed c present]
  exact ⟨fun both => both.1,fun exit => ⟨exit,fun dead => absurd dead alive⟩⟩

theorem Sound.not_entry (sound : Sound looped cfg) (edge : Edge cfg b c) : c ≠ cfg.entry := by
  obtain ⟨listed,rfl | rfl⟩ := edge
  · exact (sound.noEntry b listed).1
  · exact (sound.noEntry b listed).2

theorem Sound.apart (sound : Sound looped cfg) : cfg.entry ≠ cfg.deadBlock := by
  have distinct := sound.distinct
  simp only [Graph.basicBlocks,List.nodup_cons,List.mem_cons,not_or] at distinct
  exact distinct.1.1

end Facts

section Bypasses

theorem Absorbs.bypasses (absorbs : Absorbs cfg cfg' bb t) (listed : bb ∈ cfg.basicBlocks)
    (target : t ∈ cfg.basicBlocks) : Bypasses (Edge cfg) (Edge cfg') bb t where
  distinct := absorbs.distinct
  edge := ⟨listed,.inl absorbs.before.1.symm⟩
  elsewhere := by
    intro b other c
    simp only [Edge,absorbs.toSameList.basicBlocks,(absorbs.elsewhere b other).1,(absorbs.elsewhere b other).2]
  there := by
    intro c
    simp only [Edge,absorbs.toSameList.basicBlocks,absorbs.after.1,absorbs.after.2,absorbs.before.1,absorbs.before.2,
      listed,target,true_and,or_self,and_not_self,ne_eq,false_or]

theorem Shortcuts.bypasses (shortcuts : Shortcuts cfg cfg' bb t) (listed : bb ∈ cfg.basicBlocks)
    (target : t ∈ cfg.basicBlocks) : Bypasses (Edge cfg) (Edge cfg') bb t where
  distinct := shortcuts.distinct
  edge := by
    rcases shortcuts.before with exit | exit
    · exact ⟨listed,.inl exit.symm⟩
    · exact ⟨listed,.inr exit.symm⟩
  elsewhere := by
    intro b other c
    simp only [Edge,shortcuts.toSameList.basicBlocks,(shortcuts.elsewhere b other).1,(shortcuts.elsewhere b other).2]
  there := by
    intro c
    have before := shortcuts.before
    simp only [Edge,shortcuts.toSameList.basicBlocks,shortcuts.after.1,shortcuts.after.2,listed,target,true_and,
      ← shortcuts.detour.1,or_self]
    by_cases one : cfg.thenb bb = t <;> by_cases other : cfg.elseb bb = t <;> grind

end Bypasses

section Preservation

theorem Rewires.sound (rewires : Rewires cfg cfg' bb t) (bypasses : Bypasses (Edge cfg) (Edge cfg') bb t)
    (sound : Sound looped cfg) (listed : bb ∈ cfg.basicBlocks) (alive : bb ≠ cfg.deadBlock) : Sound looped cfg' := by
  have list := rewires.toSameList.basicBlocks
  have target : t ∈ cfg.basicBlocks := sound.closed bypasses.edge
  -- An edge of the new graph starts at the end of an edge of the old one.
  have old : ∀ b c, Edge cfg' b c → ∃ b', Edge cfg b' c := by
    intro b c edge
    obtain ⟨b',_,last⟩ := TransGen.tail'_iff.mp (bypasses.back edge)
    exact ⟨b',last⟩
  have thenEdge : ∀ b ∈ cfg.basicBlocks, Edge cfg' b (cfg'.thenb b) := fun b present => ⟨list ▸ present,.inl rfl⟩
  have elseEdge : ∀ b ∈ cfg.basicBlocks, Edge cfg' b (cfg'.elseb b) := fun b present => ⟨list ▸ present,.inr rfl⟩
  have deadKept := rewires.elsewhere cfg.deadBlock alive.symm
  refine {exits := ?_,named := ?_,dual := ?_,distinct := list ▸ sound.distinct,deadLoop := ?_,noEntry := ?_,cycles := ?_,
          toDead := ?_}
  · intro b present
    rw [list] at present ⊢
    obtain ⟨_,one⟩ := old _ _ (thenEdge b present)
    obtain ⟨_,other⟩ := old _ _ (elseEdge b present)
    exact ⟨sound.closed one,sound.closed other⟩
  · intro c present b member
    rw [list] at present ⊢
    by_cases same : b = bb
    · exact same ▸ listed
    · exact sound.named c present b ((rewires.kept b same c).mp member)
  · intro b present c present'
    rw [list] at present present'
    rw [rewires.toSameList.deadBlock]
    by_cases same : b = bb
    · subst same
      rw [rewires.linked c present']
      exact ⟨fun exit => ⟨exit,fun dead => absurd dead alive⟩,fun both => both.1⟩
    · rw [rewires.kept b same c,sound.dual b present c present',(rewires.elsewhere b same).1,(rewires.elsewhere b same).2]
  · rw [rewires.toSameList.deadBlock,deadKept.1,deadKept.2]
    exact sound.deadLoop
  · intro b present
    rw [list] at present
    rw [rewires.toSameList.entry]
    obtain ⟨_,one⟩ := old _ _ (thenEdge b present)
    obtain ⟨_,other⟩ := old _ _ (elseEdge b present)
    exact ⟨sound.not_entry one,sound.not_entry other⟩
  · rw [rewires.toSameList.entry]
    exact bypasses.cyclesReached (sound.not_entry bypasses.edge).symm sound.cycles
  · intro b present
    rw [list] at present
    rw [rewires.toSameList.deadBlock]
    have path := sound.toDead b present
    unfold Reaches at path ⊢
    rw [← into_all (Edge cfg)] at path
    rw [← into_all (Edge cfg')]
    exact bypasses.reaches rewires.alive.symm path

-- A turn that leaves every edge as it is.
structure SameEdges (cfg cfg' : Graph Binding Loc) : Prop extends SameList cfg cfg' where
  exits : ∀ b, cfg'.thenb b = cfg.thenb b ∧ cfg'.elseb b = cfg.elseb b
  back : ∀ b c, b ∈ cfg'.backEdges c ↔ b ∈ cfg.backEdges c

theorem SameEdges.edge (same : SameEdges cfg cfg') : Edge cfg' = Edge cfg := by
  funext b c
  simp only [Edge,same.toSameList.basicBlocks,(same.exits b).1,(same.exits b).2]

theorem SameEdges.sound (same : SameEdges cfg cfg') (sound : Sound looped cfg) : Sound looped cfg' where
  exits := by
    intro b present
    rw [same.toSameList.basicBlocks] at present ⊢
    rw [(same.exits b).1,(same.exits b).2]
    exact sound.exits b present
  named := by
    intro c present b member
    rw [same.toSameList.basicBlocks] at present ⊢
    exact sound.named c present b ((same.back b c).mp member)
  dual := by
    intro b present c present'
    rw [same.toSameList.basicBlocks] at present present'
    rw [same.back,(same.exits b).1,(same.exits b).2,same.toSameList.deadBlock]
    exact sound.dual b present c present'
  distinct := same.toSameList.basicBlocks ▸ sound.distinct
  deadLoop := by
    rw [same.toSameList.deadBlock,(same.exits _).1,(same.exits _).2]
    exact sound.deadLoop
  noEntry := by
    intro b present
    rw [same.toSameList.basicBlocks] at present
    rw [same.toSameList.entry,(same.exits b).1,(same.exits b).2]
    exact sound.noEntry b present
  cycles := by
    rw [same.edge,same.toSameList.entry]
    exact sound.cycles
  toDead := by
    intro b present
    rw [same.toSameList.basicBlocks] at present
    rw [Reaches,same.edge,same.toSameList.deadBlock]
    exact sound.toDead b present

section Dedupe
variable {l : List BlockId}

-- std::unique keeps every value.
theorem mem_destutter_ne : b ∈ l.destutter (· ≠ ·) ↔ b ∈ l := by
  have tail : ∀ (l : List BlockId) (a : BlockId), b ∈ l.destutter' (· ≠ ·) a ↔ b = a ∨ b ∈ l := by
    intro l
    induction l with
    | nil => simp
    | cons x l ih =>
      intro a
      by_cases same : a = x
      · subst same
        rw [List.destutter'_cons_neg _ (by simp),ih,List.mem_cons]
        tauto
      · rw [List.destutter'_cons_pos _ same,List.mem_cons,ih,List.mem_cons]
  cases l with
  | nil => simp
  | cons a l => rw [List.destutter_cons',tail,List.mem_cons]

theorem mem_dedupe : b ∈ (l.mergeSort (· ≤ ·)).destutter (· ≠ ·) ↔ b ∈ l := by
  rw [mem_destutter_ne,List.mem_mergeSort]

theorem nodup_dedupe : ((l.mergeSort (· ≤ ·)).destutter (· ≠ ·)).Nodup := by
  have sorted : (l.mergeSort (· ≤ ·)).Pairwise (· ≤ ·) := List.pairwise_mergeSort' (· ≤ ·) l
  have below := sorted.sublist (List.destutter_sublist (· ≠ ·) _)
  have apart := List.isChain_destutter (· ≠ ·) (l.mergeSort (· ≤ ·))
  generalize (l.mergeSort (· ≤ ·)).destutter (· ≠ ·) = kept at below apart
  induction kept with
  | nil => exact .nil
  | cons x kept ih =>
    obtain ⟨least,rest⟩ := List.pairwise_cons.mp below
    refine List.nodup_cons.mpr ⟨?_,ih rest apart.of_cons⟩
    intro again
    cases kept with
    | nil => cases again
    | cons y kept =>
      have first := (List.isChain_cons_cons.mp apart).1
      have one := least y List.mem_cons_self
      have other : y ≤ x := by
        rcases List.mem_cons.mp again with same | later
        · exact Nat.le_of_eq same.symm
        · exact (List.pairwise_cons.mp rest).1 x later
      exact first (Nat.le_antisymm one other)

end Dedupe

theorem tidy_block (b : BlockId) : (tidy cfg bb).block b =
    {cfg.block b with
      bexit := if b = bb ∧ cfg.thenb bb = cfg.elseb bb
        then {(cfg.block b).bexit with cond := ⟨LocalRef.unconditional,(cfg.block b).bexit.loc⟩} else (cfg.block b).bexit,
      backEdges := if b = bb then ((cfg.block b).backEdges.mergeSort (· ≤ ·)).destutter (· ≠ ·)
        else (cfg.block b).backEdges} := by
  simp only [tidy]
  by_cases here : b = bb <;> by_cases both : cfg.thenb bb = cfg.elseb bb <;>
    simp [here,both,Graph.dropCondition,Graph.dedupeBackEdges,setExit_block,update_block]

theorem tidy_same : SameEdges cfg (tidy cfg bb) := by
  have list : SameList cfg (tidy cfg bb) := by
    simp only [tidy]
    split <;> exact ⟨rfl,rfl,rfl⟩
  refine {toSameList := list,exits := ?_,back := ?_}
  · intro b
    change ((tidy cfg bb).block b).bexit.thenb = (cfg.block b).bexit.thenb ∧
      ((tidy cfg bb).block b).bexit.elseb = (cfg.block b).bexit.elseb
    simp only [tidy_block]
    split <;> exact ⟨rfl,rfl⟩
  · intro b c
    simp only [Graph.backEdges,tidy_block]
    split
    · exact mem_dedupe
    · exact Iff.rfl

section Remove

theorem removeBlock_block (c : BlockId) : (cfg.removeBlock bb).block c =
    {cfg.block c with backEdges := if c = cfg.thenb bb ∨ c = cfg.elseb bb then (cfg.block c).backEdges.filter (· ≠ bb)
      else (cfg.block c).backEdges} := by
  simp only [Graph.removeBlock]
  by_cases both : cfg.elseb bb = cfg.thenb bb
  · simp [both,eraseBackEdge_block]
  · simp only [ne_eq,both,not_false_eq_true,if_true,eraseBackEdge_block]
    by_cases one : c = cfg.thenb bb
    · simp [one,Ne.symm both]
    · by_cases other : c = cfg.elseb bb <;> simp [one,other,both]

theorem removeBlock_exits (b : BlockId) :
    (cfg.removeBlock bb).thenb b = cfg.thenb b ∧ (cfg.removeBlock bb).elseb b = cfg.elseb b := by
  simp only [Graph.thenb,Graph.elseb,removeBlock_block,and_self]

theorem removeBlock_list : (cfg.removeBlock bb).entry = cfg.entry ∧ (cfg.removeBlock bb).deadBlock = cfg.deadBlock ∧
    (cfg.removeBlock bb).others = cfg.others.erase bb := by
  simp only [Graph.removeBlock]
  split <;> exact ⟨rfl,rfl,rfl⟩

variable (sound : Sound looped cfg) (alive : bb ≠ cfg.deadBlock) (inner : bb ≠ cfg.entry)
include sound alive inner

theorem removeBlock_listed : b ∈ (cfg.removeBlock bb).basicBlocks ↔ b ∈ cfg.basicBlocks ∧ b ≠ bb := by
  have distinct := sound.distinct
  simp only [Graph.basicBlocks,List.nodup_cons] at distinct
  simp only [Graph.basicBlocks,removeBlock_list.1,removeBlock_list.2.1,removeBlock_list.2.2,List.mem_cons,
    distinct.2.2.mem_erase_iff]
  constructor
  · rintro (rfl | rfl | ⟨apart,member⟩)
    · exact ⟨.inl rfl,inner.symm⟩
    · exact ⟨.inr (.inl rfl),alive.symm⟩
    · exact ⟨.inr (.inr member),apart⟩
  · rintro ⟨rfl | rfl | member,apart⟩
    · exact .inl rfl
    · exact .inr (.inl rfl)
    · exact .inr (.inr ⟨apart,member⟩)

theorem removeBlock_edge : Edge (cfg.removeBlock bb) b c ↔ Edge cfg b c ∧ b ≠ bb := by
  simp only [Edge,removeBlock_listed sound alive inner,(removeBlock_exits b).1,(removeBlock_exits b).2]
  tauto

variable (listed : bb ∈ cfg.basicBlocks) (unused : cfg.backEdges bb = [])
include listed unused

omit inner in
theorem no_edge_into (edge : Edge cfg b bb) : False := by
  have member : b ∈ cfg.backEdges bb := by
    refine (sound.dual b edge.1 bb listed).mpr ⟨edge.2,?_⟩
    rintro rfl
    rcases edge.2 with exit | exit
    · exact absurd (exit.trans sound.deadLoop.1) alive
    · exact absurd (exit.trans sound.deadLoop.2) alive
  rw [unused] at member
  cases member

theorem removeBlock_reaches (path : Reaches cfg b c) (apart : b ≠ bb) : Reaches (cfg.removeBlock bb) b c := by
  induction path using ReflTransGen.head_induction_on with
  | refl => exact .refl
  | head edge further ih =>
    rename_i x y
    have next : y ≠ bb := fun same => no_edge_into sound alive listed unused (same ▸ edge)
    exact .head ((removeBlock_edge sound alive inner).mpr ⟨edge,apart⟩) (ih next)

theorem removeBlock_sound : Sound looped (cfg.removeBlock bb) := by
  have keeps : ∀ b, b ∈ (cfg.removeBlock bb).basicBlocks ↔ b ∈ cfg.basicBlocks ∧ b ≠ bb :=
    fun b => removeBlock_listed sound alive inner
  have exits := fun b => @removeBlock_exits _ _ cfg bb b
  obtain ⟨entry,dead,others⟩ := @removeBlock_list _ _ cfg bb
  have noEdge : ∀ b, ¬ Edge cfg b bb := fun b edge => no_edge_into sound alive listed unused edge
  -- A back edge of a block that stays is the same as before, without the removed block.
  have back : ∀ c ∈ cfg.basicBlocks, ∀ b, b ∈ (cfg.removeBlock bb).backEdges c ↔ b ∈ cfg.backEdges c ∧ b ≠ bb := by
    intro c present b
    simp only [Graph.backEdges,removeBlock_block,mem_erased]
    have owns := sound.owns listed alive c present
    simp only [Graph.backEdges] at owns
    constructor
    · rintro ⟨member,differs⟩
      refine ⟨member,?_⟩
      rintro rfl
      exact differs (owns.mp member) rfl
    · exact fun both => ⟨both.1,fun _ => both.2⟩
  refine {exits := ?_,named := ?_,dual := ?_,distinct := ?_,deadLoop := ?_,noEntry := ?_,cycles := ?_,toDead := ?_}
  · intro b present
    obtain ⟨present,_⟩ := (keeps b).mp present
    rw [(exits b).1,(exits b).2,keeps,keeps]
    have inside := sound.exits b present
    exact ⟨⟨inside.1,fun same => noEdge b ⟨present,.inl same.symm⟩⟩,inside.2,fun same => noEdge b ⟨present,.inr same.symm⟩⟩
  · intro c present b member
    obtain ⟨present,_⟩ := (keeps c).mp present
    obtain ⟨member,apart⟩ := (back c present b).mp member
    exact (keeps b).mpr ⟨sound.named c present b member,apart⟩
  · intro b present c present'
    obtain ⟨present,apart⟩ := (keeps b).mp present
    obtain ⟨present',_⟩ := (keeps c).mp present'
    rw [back c present' b,(exits b).1,(exits b).2,dead,sound.dual b present c present']
    exact ⟨fun both => both.1,fun both => ⟨both,apart⟩⟩
  · have distinct := sound.distinct
    simp only [Graph.basicBlocks,List.nodup_cons,List.mem_cons,not_or] at distinct
    simp only [Graph.basicBlocks,entry,dead,others,List.nodup_cons,List.mem_cons,not_or]
    refine ⟨⟨distinct.1.1,fun member => distinct.1.2 (List.mem_of_mem_erase member)⟩,?_,distinct.2.2.erase bb⟩
    exact fun member => distinct.2.1 (List.mem_of_mem_erase member)
  · rw [dead,(exits _).1,(exits _).2]
    exact sound.deadLoop
  · intro b present
    obtain ⟨present,_⟩ := (keeps b).mp present
    rw [entry,(exits b).1,(exits b).2]
    exact sound.noEntry b present
  · intro b cycle
    have old : TransGen (Edge cfg) b b :=
      TransGen.mono (fun _ _ edge => ((removeBlock_edge sound alive inner).mp edge).1) _ _ cycle
    rw [entry]
    exact removeBlock_reaches sound alive inner listed unused (sound.cycles b old) inner.symm
  · intro b present
    obtain ⟨present,apart⟩ := (keeps b).mp present
    rw [dead]
    exact removeBlock_reaches sound alive inner listed unused (sound.toDead b present) apart

end Remove

end Preservation
end Cfg
