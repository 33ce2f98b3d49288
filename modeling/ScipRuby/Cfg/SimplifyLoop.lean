import ScipRuby.Cfg.Termination

namespace Cfg
open Relation Bypass
variable {Binding Loc : Type} {looped : Prop} {cfg cfg' : Graph Binding Loc} {b c bb t : BlockId}
variable {s s' : Loop Binding Loc}

-- What one step of the loop can do.
inductive Stepped (s : Loop Binding Loc) : Loop Binding Loc → Prop where
  | removed {bb : BlockId} {cfg' : Graph Binding Loc} : s.cfg.basicBlocks[s.it]? = some bb →
    turn s.cfg bb = .removed cfg' → Stepped s ⟨cfg',s.it,true⟩
  | rewritten {bb : BlockId} {cfg' : Graph Binding Loc} : s.cfg.basicBlocks[s.it]? = some bb →
    turn s.cfg bb = .rewritten cfg' → Stepped s ⟨cfg',s.it,true⟩
  | kept {bb : BlockId} {cfg' : Graph Binding Loc} : s.cfg.basicBlocks[s.it]? = some bb →
    turn s.cfg bb = .kept cfg' → Stepped s ⟨cfg',s.it + 1,s.changed⟩
  | again : s.cfg.basicBlocks[s.it]? = none → s.changed = true → Stepped s ⟨s.cfg,0,false⟩

theorem stepped (next : s.next = some s') : Stepped s s' := by
  unfold Loop.next at next
  cases at_ : s.cfg.basicBlocks[s.it]? with
  | none =>
    simp only [at_] at next
    split at next
    · rename_i changed
      cases Option.some.inj next
      exact .again at_ changed
    · cases next
  | some bb =>
    simp only [at_] at next
    cases done : turn s.cfg bb with
    | removed cfg =>
      simp only [done] at next
      cases Option.some.inj next
      exact .removed at_ done
    | rewritten cfg =>
      simp only [done] at next
      cases Option.some.inj next
      exact .rewritten at_ done
    | kept cfg =>
      simp only [done] at next
      cases Option.some.inj next
      exact .kept at_ done

theorem stopped (last : s.next = none) : s.cfg.basicBlocks.length ≤ s.it ∧ s.changed = false := by
  unfold Loop.next at last
  cases at_ : s.cfg.basicBlocks[s.it]? with
  | none =>
    simp only [at_] at last
    refine ⟨List.getElem?_eq_none_iff.mp at_,?_⟩
    split at last
    · cases last
    · rename_i unchanged
      exact Bool.eq_false_iff.mpr unchanged
  | some bb =>
    simp only [at_] at last
    split at last <;> cases last

theorem turn_kept (sound : Sound looped cfg) (listed : bb ∈ cfg.basicBlocks) (kept : turn cfg bb = .kept cfg') :
    cfg' = tidy cfg bb ∧ (bb = cfg.deadBlock ∨ bb = cfg.entry ∨ cfg.backEdges bb ≠ []) := by
  have turned := turned sound listed
  rw [kept] at turned
  cases turned with
  | kept used => exact ⟨rfl,used⟩

theorem Stepped.sound (step : Stepped s s') (sound : Sound looped s.cfg) : Sound looped s'.cfg := by
  cases step with
  | removed at_ done =>
    have listed := List.mem_of_getElem? at_
    exact (done ▸ turned sound listed : Turned s.cfg _ _).sound_removed sound listed
  | rewritten at_ done =>
    have listed := List.mem_of_getElem? at_
    exact (done ▸ turned sound listed : Turned s.cfg _ _).sound_rewritten sound listed
  | kept at_ done =>
    obtain ⟨rfl,_⟩ := turn_kept sound (List.mem_of_getElem? at_) done
    exact tidy_same.sound sound
  | again => exact sound

section Rank

-- The parts of the rank that depend on the graph.
noncomputable def edgeRank (cfg : Graph Binding Loc) : ℕ ×ₗ ℕ :=
  toLex ((thenPart cfg ∩ elsePart cfg).card,(thenPart cfg).card + (elsePart cfg).card)

noncomputable def Loop.rank (s : Loop Binding Loc) : ℕ ×ₗ (ℕ ×ₗ ℕ) ×ₗ ℕ ×ₗ ℕ :=
  toLex (s.cfg.basicBlocks.length,toLex (edgeRank s.cfg,toLex (s.changed.toNat,s.cfg.basicBlocks.length - s.it)))

theorem SameEdges.unavoidable {exit : BlockId → BlockId} (same : SameEdges cfg cfg') :
    unavoidable cfg' exit = unavoidable cfg exit := by
  ext ⟨b,x⟩
  simp only [mem_unavoidable,Avoids,same.edge,same.toSameList.basicBlocks,same.toSameList.deadBlock]

theorem SameEdges.edgeRank (same : SameEdges cfg cfg') : edgeRank cfg' = edgeRank cfg := by
  have thenSame : cfg'.thenb = cfg.thenb := funext fun b => (same.exits b).1
  have elseSame : cfg'.elseb = cfg.elseb := funext fun b => (same.exits b).2
  simp only [Cfg.edgeRank,thenPart,elsePart,thenSame,elseSame,same.unavoidable]

theorem Turned.edgeRank_lt (turned : Turned cfg bb (.rewritten cfg')) (sound : Sound looped cfg)
    (listed : bb ∈ cfg.basicBlocks) : edgeRank cfg' < edgeRank cfg := by
  have same := @tidy_same _ _ cfg bb
  have list := same.toSameList.basicBlocks
  rw [← same.edgeRank,edgeRank,edgeRank,Prod.Lex.toLex_lt_toLex]
  cases turned with
  | absorbed alive target absorbs =>
    have smaller := absorbs.parts_ssubset (same.sound sound) (list ▸ listed) (list ▸ target)
    exact .inl (Finset.card_lt_card smaller)
  | shortened alive target shortcuts =>
    have smaller := shortcuts.parts_lt (same.sound sound) (list ▸ listed) (list ▸ target)
    rcases Nat.lt_or_eq_of_le smaller.1 with less | equal
    · exact .inl less
    · exact .inr ⟨equal,smaller.2⟩

theorem Turned.basicBlocks_lt (turned : Turned cfg bb (.removed cfg')) (listed : bb ∈ cfg.basicBlocks) :
    cfg'.basicBlocks.length < cfg.basicBlocks.length := by
  cases turned with
  | removed alive inner unused =>
    have member : bb ∈ cfg.others := by
      simpa only [Graph.basicBlocks,List.mem_cons,alive,inner,false_or] using listed
    have positive := List.length_pos_of_mem member
    simp only [Graph.basicBlocks,removeBlock_list.2.2,List.length_cons,List.length_erase_of_mem member]
    omega

theorem Stepped.rank_lt (step : Stepped s s') (sound : Sound looped s.cfg) : s'.rank < s.rank := by
  unfold Loop.rank
  cases step with
  | removed at_ done =>
    have listed := List.mem_of_getElem? at_
    have turned := turned sound listed
    rw [done] at turned
    exact Prod.Lex.toLex_lt_toLex.mpr (.inl (turned.basicBlocks_lt listed))
  | rewritten at_ done =>
    have listed := List.mem_of_getElem? at_
    have turned := turned sound listed
    rw [done] at turned
    obtain ⟨_,_,_,rewires,_⟩ := turned.bypasses listed
    have list := rewires.toSameList.basicBlocks.trans tidy_same.toSameList.basicBlocks
    rw [list,Prod.Lex.toLex_lt_toLex,Prod.Lex.toLex_lt_toLex]
    exact .inr ⟨rfl,.inl (turned.edgeRank_lt sound listed)⟩
  | kept at_ done =>
    obtain ⟨rfl,_⟩ := turn_kept sound (List.mem_of_getElem? at_) done
    have inside := (List.getElem?_eq_some_iff.mp at_).1
    rw [tidy_same.toSameList.basicBlocks,tidy_same.edgeRank]
    simp only [Prod.Lex.toLex_lt_toLex,lt_self_iff_false,false_or,true_and]
    omega
  | again at_ changed =>
    simp only [Prod.Lex.toLex_lt_toLex,lt_self_iff_false,false_or,true_and,changed]
    exact .inl Nat.zero_lt_one

end Rank

theorem Loop.run_terminates (s : Loop Binding Loc) (sound : Sound looped s.cfg) : ∃ fuel out, Loop.run fuel s = some out := by
  induction ranked : s.rank using WellFoundedLT.induction generalizing s with
  | ind r ih =>
    cases next : s.next with
    | none => exact ⟨1,s.cfg,by simp only [Loop.run,next]⟩
    | some s' =>
      have step := stepped next
      obtain ⟨fuel,out,run⟩ := ih s'.rank (ranked ▸ step.rank_lt sound) s' (step.sound sound) rfl
      exact ⟨fuel + 1,out,by simpa only [Loop.run,next] using run⟩

-- The states between two turns of CFGBuilder::simplify.
def Loop.Reached (s s' : Loop Binding Loc) : Prop := ReflTransGen (fun s s' => s.next = some s') s s'

theorem Loop.Reached.keeps (Inv : Loop Binding Loc → Prop) (reached : Loop.Reached s s') (init : Inv s)
    (step : ∀ s s', Stepped s s' → Inv s → Inv s') : Inv s' := by
  induction reached with
  | refl => exact init
  | tail before next ih => exact step _ _ (stepped next) ih

theorem Loop.run_reached {fuel : Nat} (run : Loop.run fuel s = some cfg') :
    ∃ s', Loop.Reached s s' ∧ s'.next = none ∧ s'.cfg = cfg' := by
  induction fuel generalizing s with
  | zero => cases run
  | succ fuel ih =>
    unfold Loop.run at run
    cases next : s.next with
    | none =>
      simp only [next,Option.some.injEq] at run
      exact ⟨s,.refl,next,run⟩
    | some s' =>
      simp only [next] at run
      obtain ⟨last,path,rest⟩ := ih run
      exact ⟨last,.head next path,rest⟩

section Settled

-- What a turn that changes nothing leaves behind.
structure Done (cfg : Graph Binding Loc) (b : BlockId) : Prop where
  once : (cfg.backEdges b).Nodup
  plain : cfg.thenb b = cfg.elseb b → cfg.cond b = LocalRef.unconditional
  used : b = cfg.deadBlock ∨ b = cfg.entry ∨ cfg.backEdges b ≠ []

-- A round without a change so far has done all the blocks it has seen.
def Settled (s : Loop Binding Loc) : Prop := s.changed = false → ∀ b ∈ s.cfg.basicBlocks.take s.it, Done s.cfg b

theorem tidy_done (used : bb = cfg.deadBlock ∨ bb = cfg.entry ∨ cfg.backEdges bb ≠ []) : Done (tidy cfg bb) bb where
  once := by
    simp only [Graph.backEdges,tidy_block,if_true]
    exact nodup_dedupe
  plain := by
    intro both
    rw [(tidy_same.exits bb).1,(tidy_same.exits bb).2] at both
    simp only [Graph.cond,tidy_block,both,and_self,if_true]
  used := by
    rw [tidy_same.toSameList.deadBlock,tidy_same.toSameList.entry]
    rcases used with dead | entry | used
    · exact .inl dead
    · exact .inr (.inl entry)
    · obtain ⟨b,member⟩ := List.exists_mem_of_ne_nil _ used
      exact .inr (.inr (List.ne_nil_of_mem ((tidy_same.back b bb).mpr member)))

theorem Done.tidy (done : Done cfg b) (apart : b ≠ bb) : Done (tidy cfg bb) b := by
  have block : (Cfg.tidy cfg bb).block b = cfg.block b := by
    rw [tidy_block]
    simp only [apart,false_and,if_false]
  have list := (@tidy_same _ _ cfg bb).toSameList
  constructor
  · simpa only [Graph.backEdges,block] using done.once
  · simpa only [Graph.thenb,Graph.elseb,Graph.cond,block] using done.plain
  · simpa only [Graph.backEdges,block,list.entry,list.deadBlock] using done.used

theorem Stepped.settled (step : Stepped s s') (sound : Sound looped s.cfg) (settled : Settled s) : Settled s' := by
  cases step with
  | removed => exact fun unchanged => absurd unchanged Bool.true_eq_false_eq_False
  | rewritten => exact fun unchanged => absurd unchanged Bool.true_eq_false_eq_False
  | kept at_ done =>
    rename_i bb cfg'
    obtain ⟨rfl,used⟩ := turn_kept sound (List.mem_of_getElem? at_) done
    intro unchanged b member
    by_cases same : b = bb
    · subst same
      exact tidy_done used
    · rw [tidy_same.toSameList.basicBlocks,List.take_add_one,at_,Option.toList_some,List.mem_append,
        List.mem_singleton] at member
      rcases member with before | here
      · exact (settled unchanged b before).tidy same
      · exact absurd here same
  | again =>
    intro unchanged b member
    cases member

end Settled

theorem reached_sound (formed : WellFormed looped cfg) (reached : Loop.Reached (Loop.start cfg) s) :
    Sound looped s.cfg ∧ Settled s := by
  refine reached.keeps (fun s => Sound looped s.cfg ∧ Settled s) ⟨formed.sound,?_⟩ ?_
  · intro _ b member
    cases member
  · intro s s' step both
    exact ⟨step.sound both.1,step.settled both.1 both.2⟩

theorem simplified (formed : WellFormed looped cfg) {fuel : Nat} (run : simplify fuel cfg = some cfg') :
    Sound looped cfg' ∧ ∀ b ∈ cfg'.basicBlocks, Done cfg' b := by
  obtain ⟨s,reached,last,rfl⟩ := Loop.run_reached run
  obtain ⟨sound,settled⟩ := reached_sound formed reached
  obtain ⟨beyond,unchanged⟩ := stopped last
  refine ⟨sound,fun b listed => settled unchanged b ?_⟩
  rwa [List.take_of_length_le beyond]

theorem all_reached (sound : Sound looped cfg) (done : ∀ b ∈ cfg.basicBlocks, Done cfg b) :
    ∀ b ∈ cfg.basicBlocks, Reaches cfg cfg.entry b := by
  apply exists_source sound.cycles
  intro b listed unreached
  rcases (done b listed).used with rfl | rfl | used
  · exact absurd (sound.toDead _ entry_listed) unreached
  · exact absurd .refl unreached
  · obtain ⟨p,member⟩ := List.exists_mem_of_ne_nil _ used
    have present := sound.named b listed p member
    exact ⟨p,present,present,((sound.dual p present b listed).mp member).1⟩

theorem simplify_terminates_edgesDual (formed : WellFormed looped cfg) :
    (∃ fuel out, simplify fuel cfg = some out) ∧
    (∀ s, Loop.Reached (Loop.start cfg) s → EdgesDual looped s.cfg) ∧
    ∀ fuel out, simplify fuel cfg = some out → EdgesDual looped out ∧
      (∀ b ∈ out.basicBlocks, ∀ c ∈ out.basicBlocks, b ∈ out.backEdges c → (out.backEdges c).count b = 1) ∧
      (∀ b ∈ out.basicBlocks, Reaches out out.entry b) ∧
      ∀ b ∈ out.basicBlocks, out.thenb b = out.elseb b → (out.block b).bexit.cond.variable_ = LocalRef.unconditional := by
  refine ⟨Loop.run_terminates _ formed.sound,?_,?_⟩
  · intro s reached
    exact (reached_sound formed reached).1.toEdgesDual
  · intro fuel out run
    obtain ⟨sound,done⟩ := simplified formed run
    refine ⟨sound.toEdgesDual,?_,all_reached sound done,?_⟩
    · intro b listed c present member
      exact List.count_eq_one_of_mem (done c present).once member
    · intro b listed both
      exact (done b listed).plain both

-- A condition whose first branch is an empty block.
def sampleGraph : Graph Nat Unit where
  entry := 0
  deadBlock := 1
  others := [2,3]
  block := fun b =>
    match b with
    | 0 => ⟨0,[10],⟨⟨5,()⟩,2,3,()⟩,[]⟩
    | 2 => ⟨0,[],⟨⟨3,()⟩,3,3,()⟩,[0]⟩
    | 3 => ⟨0,[11],⟨⟨3,()⟩,1,1,()⟩,[0,2]⟩
    | _ => ⟨0,[],⟨⟨3,()⟩,1,1,()⟩,[3]⟩
  forwardsTopoSort := [1,3,2,0]

theorem sampleGraph_formed : WellFormed False sampleGraph := by
  have first : Edge sampleGraph 0 3 := by simp [Edge,Graph.basicBlocks,Graph.elseb,sampleGraph]
  have detour : Edge sampleGraph 0 2 := by simp [Edge,Graph.basicBlocks,Graph.thenb,sampleGraph]
  have second : Edge sampleGraph 2 3 := by simp [Edge,Graph.basicBlocks,Graph.thenb,sampleGraph]
  have last : Edge sampleGraph 3 1 := by simp [Edge,Graph.basicBlocks,Graph.thenb,sampleGraph]
  refine {exits := by decide,named := by decide,dual := by decide,distinct := by decide,deadLoop := by decide,
          noEntry := by decide,reachable := ?_,toDead := ?_}
  · intro b listed
    simp only [Graph.basicBlocks,sampleGraph,List.mem_cons,List.not_mem_nil,or_false] at listed
    rcases listed with rfl | rfl | rfl | rfl
    · exact .refl
    · exact .tail (.single first) last
    · exact .single detour
    · exact .single first
  · intro b listed
    simp only [Graph.basicBlocks,sampleGraph,List.mem_cons,List.not_mem_nil,or_false] at listed
    rcases listed with rfl | rfl | rfl | rfl
    · exact .tail (.single first) last
    · exact .refl
    · exact .tail (.single second) last
    · exact .single last

theorem simplify_terminates_edgesDual_sample : WellFormed False sampleGraph ∧
    ∃ fuel out, simplify fuel sampleGraph = some out :=
  ⟨sampleGraph_formed,(simplify_terminates_edgesDual sampleGraph_formed).1⟩

end Cfg
