import ScipRuby.Scip.LocalTraversal

namespace Scip.Locals
open Cfg (BlockId LocalRef LocalName Walk walk_concat)
open CFGTraversal
variable {ctx : Context} {cfg : CFG} {b bb d p : BlockId} {x y : LocalRef} {s s' : CFGTraversal} {m : Mention}
variable {anonymous : LocalName → Option AnonymousParameter}

-- Whether a call gives a local its role: not a parameter that has its own symbol, with a location, and neither a
-- temporary nor an alias of a type.
def Classified (ctx : Context) (cfg : CFG) (anonymous : LocalName → Option AnonymousParameter) (m : Mention) : Prop :=
  ctx.keywordParameters (cfg.localVariables m.local_) = none ∧
  ((cfg.localVariables m.local_).unique = 0 → anonymous (cfg.localVariables m.local_).name = none) ∧
  usable m.occurrence.loc = true ∧
  match ctx.aliasMap m.local_ with
  | some symRef => symRef.kind ≠ .type
  | none => isTemporary (cfg.localVariables m.local_) = false

instance decidableClassified : DecidablePred (Classified ctx cfg anonymous) := fun m => by
  unfold Classified
  cases ctx.aliasMap m.local_ <;> infer_instance

-- Everything but the saved occurrences of parameters.
structure Same (s s' : CFGTraversal) : Prop where
  blockLocals : s'.blockLocals = s.blockLocals
  functionLocals : s'.functionLocals = s.functionLocals
  anonymousParameters : s'.anonymousParameters = s.anonymousParameters
  counter : s'.counter = s.counter
  roles : s'.roles = s.roles
  parameters : ∀ id loc, .parameter id loc ∈ s'.saved ↔ .parameter id loc ∈ s.saved

theorem Same.refl (s : CFGTraversal) : Same s s := ⟨rfl,rfl,rfl,rfl,rfl,fun _ _ => .rfl⟩

theorem Same.save {saved : Saved} (role : saved.role? = none) (parameter : ∀ id loc, saved ≠ .parameter id loc) :
    Same s (s.save saved) where
  blockLocals := rfl
  functionLocals := rfl
  anonymousParameters := rfl
  counter := rfl
  roles := by simp [CFGTraversal.roles,CFGTraversal.save,role]
  parameters := by
    intro id loc
    have other := parameter id loc
    simp [CFGTraversal.save,other.symm]

theorem Same.unless {skipped : Prop} [Decidable skipped] {saved : Saved} (role : saved.role? = none)
    (parameter : ∀ id loc, saved ≠ .parameter id loc) : Same s (if skipped then s else s.save saved) := by
  split
  · exact .refl s
  · exact .save role parameter

-- What a call does.
theorem emitLocalOccurrence_cases (ctx : Context) (cfg : CFG) (bb : BlockId) (s : CFGTraversal) (m : Mention) :
    (Classified ctx cfg s.anonymousParameters m ∧
      ∃ loc symRef, s.emitLocalOccurrence ctx cfg bb m = s.emitRole bb m loc symRef) ∨
    (¬ Classified ctx cfg s.anonymousParameters m ∧ Same s (s.emitLocalOccurrence ctx cfg bb m)) := by
  unfold emitLocalOccurrence
  dsimp only
  cases keyword : ctx.keywordParameters (cfg.localVariables m.local_) with
  | some declared =>
    exact .inr ⟨fun classified => by simp [classified.1] at keyword,.unless rfl (by simp)⟩
  | none =>
    dsimp only
    split
    · rename_i parameter found
      refine .inr ⟨fun classified => ?_,?_⟩
      · split at found
        · rename_i plain
          simp [classified.2.1 plain] at found
        · cases found
      · split
        · exact .refl s
        · exact .unless rfl (by simp)
    · rename_i unnamed
      have unnamed' : (cfg.localVariables m.local_).unique = 0 →
          s.anonymousParameters (cfg.localVariables m.local_).name = none := by
        intro plain
        simpa [plain] using unnamed
      split
      · rename_i missing
        refine .inr ⟨fun classified => ?_,.refl s⟩
        have there := classified.2.2.1
        simp only [usable,Bool.and_eq_true,Bool.not_eq_true'] at there
        simp [there.1,there.2] at missing
      · rename_i there
        have there' : usable m.occurrence.loc = true := by
          simp only [Bool.or_eq_true,Bool.not_eq_true',not_or,Bool.not_eq_false,Bool.not_eq_true] at there
          simp [usable,there.1,there.2]
        split
        · rename_i symRef aliased
          split
          · rename_i typed
            exact .inr ⟨fun classified => by simp [Classified,aliased,typed] at classified,.refl s⟩
          · rename_i untyped
            exact .inl ⟨⟨keyword,unnamed',there',by simp [aliased,untyped]⟩,_,_,rfl⟩
        · rename_i plain
          split
          · rename_i temporary
            exact .inr ⟨fun classified => by simp [Classified,plain,temporary] at classified,.refl s⟩
          · rename_i lasting
            exact .inl ⟨⟨keyword,unnamed',there',by simp [plain,lasting]⟩,_,_,rfl⟩

-- Ids count up from those of the anonymous parameters.
structure Numbered (first : Nat) (s : CFGTraversal) : Prop where
  apart : ∀ x y id, s.functionLocals x = some id → s.functionLocals y = some id → x = y
  bounds : ∀ x id, s.functionLocals x = some id → first < id ∧ id ≤ s.counter
  above : first ≤ s.counter
  parameters : ∀ id loc, .parameter id loc ∈ s.saved → id ≤ first
  roles : ∀ role ∈ s.roles, s.functionLocals role.local_ = some role.id
  known : ∀ b, ∀ x ∈ s.locals b, (s.functionLocals x).isSome

-- What a classified call adds.
structure Emits (bb : BlockId) (m : Mention) (s s' : CFGTraversal) : Prop where
  kept : ∀ y id, s.functionLocals y = some id → s'.functionLocals y = some id
  others : ∀ y, y ≠ m.local_ → s'.functionLocals y = s.functionLocals y
  fresh : s.functionLocals m.local_ = none → s'.counter = s.counter + 1 ∧ s'.functionLocals m.local_ = some s'.counter
  old : s.functionLocals m.local_ ≠ none → s'.counter = s.counter
  anonymousParameters : s'.anonymousParameters = s.anonymousParameters
  parameters : ∀ id loc, .parameter id loc ∈ s'.saved ↔ .parameter id loc ∈ s.saved
  here : s'.locals bb = insert m.local_ (s.locals bb)
  elsewhere : ∀ c, c ≠ bb → s'.blockLocals c = s.blockLocals c
  role : ∃ role, s'.roles = s.roles ++ [role] ∧ role.block = bb ∧ role.mention = m ∧
    s'.functionLocals m.local_ = some role.id ∧
    (role.isDefinition = true ↔ m.valueCategory = .lvalue ∧ (s.functionLocals m.local_ = none ∨ m.local_ ∉ s.locals bb))

theorem save_roles {role : Role} : (s.save (.role role)).roles = s.roles ++ [role] := by
  simp [CFGTraversal.roles,CFGTraversal.save,Saved.role?]

theorem emitRole_emits (bb : BlockId) (m : Mention) (loc : LocOffsets) (symRef : Option GenericSymbolRef) :
    Emits bb m s (s.emitRole bb m loc symRef) := by
  have saved : ∀ (t : CFGTraversal) role id loc, .parameter id loc ∈ (t.save (.role role)).saved ↔
      Saved.parameter id loc ∈ t.saved := by
    intro t role id loc
    simp [CFGTraversal.save]
  have insertion : ∀ (t : CFGTraversal), (t.insertLocal bb m.local_).locals bb = insert m.local_ (t.locals bb) := by
    intro t
    simp [CFGTraversal.insertLocal,CFGTraversal.locals]
  have frame : ∀ (t : CFGTraversal) c, c ≠ bb → (t.insertLocal bb m.local_).blockLocals c = t.blockLocals c :=
    fun t c other => Function.update_of_ne other ..
  cases found : s.functionLocals m.local_ with
  | none =>
    have grows : s.emitRole bb m loc symRef = (s.addLocal bb m.local_).save (.role ⟨bb,m,loc,s.counter + 1,symRef,
        decide (m.valueCategory = .lvalue)⟩) := by
      simp [CFGTraversal.emitRole,found,CFGTraversal.addLocal,CFGTraversal.insertLocal]
    have numbered : (s.addLocal bb m.local_).functionLocals m.local_ = some (s.counter + 1) := Function.update_self ..
    rw [grows]
    refine ⟨?_,?_,fun _ => ⟨rfl,numbered⟩,fun old => absurd found old,rfl,saved _ _,insertion _,frame _,?_⟩
    · intro y id known
      have other : y ≠ m.local_ := by
        intro same
        simp [same,found] at known
      exact (Function.update_of_ne other ..).trans known
    · exact fun y other => Function.update_of_ne other ..
    · exact ⟨_,save_roles,rfl,rfl,numbered,by simp [found]⟩
  | some id =>
    by_cases inside : m.local_ ∈ s.locals bb
    · have stays : s.emitRole bb m loc symRef = s.save (.role ⟨bb,m,loc,id,symRef,false⟩) := by
        simp [CFGTraversal.emitRole,found,inside]
      rw [stays]
      refine ⟨fun _ _ same => same,fun _ _ => rfl,?_,fun _ => rfl,rfl,saved _ _,?_,fun _ _ => rfl,?_⟩
      · simp [found]
      · exact (Finset.insert_eq_of_mem inside).symm
      · exact ⟨_,save_roles,rfl,rfl,found,by simp [found,inside]⟩
    · have grows : s.emitRole bb m loc symRef =
          (s.insertLocal bb m.local_).save (.role ⟨bb,m,loc,id,symRef,decide (m.valueCategory = .lvalue)⟩) := by
        simp [CFGTraversal.emitRole,found,inside,CFGTraversal.insertLocal]
      rw [grows]
      refine ⟨fun _ _ same => same,fun _ _ => rfl,?_,fun _ => rfl,rfl,saved _ _,insertion _,frame _,?_⟩
      · simp [found]
      · exact ⟨_,save_roles,rfl,rfl,found,by simp [inside]⟩

theorem Numbered.same {first : Nat} (numbered : Numbered first s) (same : Same s s') : Numbered first s' where
  apart := by
    rw [same.functionLocals]
    exact numbered.apart
  bounds := by
    rw [same.functionLocals,same.counter]
    exact numbered.bounds
  above := same.counter ▸ numbered.above
  parameters := fun id loc member => numbered.parameters id loc ((same.parameters id loc).mp member)
  roles := by
    rw [same.functionLocals,same.roles]
    exact numbered.roles
  known := by
    intro b x member
    rw [same.functionLocals]
    refine numbered.known b x ?_
    simpa only [CFGTraversal.locals,same.blockLocals] using member

theorem Numbered.emits {first : Nat} (numbered : Numbered first s) (emits : Emits bb m s s') : Numbered first s' := by
  obtain ⟨role,roles,_,mention,id,_⟩ := emits.role
  -- A local other than the one that is mentioned was there before, and the one that is mentioned has its old id or
  -- the next one.
  have cases_ : ∀ x id, s'.functionLocals x = some id →
      s.functionLocals x = some id ∨ (x = m.local_ ∧ id = s.counter + 1 ∧ s'.counter = s.counter + 1) := by
    intro x id found
    by_cases same : x = m.local_
    · subst same
      cases before : s.functionLocals m.local_ with
      | none =>
        have fresh := emits.fresh before
        rw [fresh.2,fresh.1] at found
        exact .inr ⟨rfl,(Option.some.inj found).symm,fresh.1⟩
      | some old =>
        rw [emits.kept _ _ before] at found
        exact .inl found
    · exact .inl (emits.others x same ▸ found)
  have counter : s.counter ≤ s'.counter := by
    by_cases before : s.functionLocals m.local_ = none
    · exact (emits.fresh before).1 ▸ Nat.le_succ _
    · exact (emits.old before).ge
  refine ⟨?_,?_,numbered.above.trans counter,?_,?_,?_⟩
  · intro x y id left right
    obtain old | ⟨rfl,rfl,_⟩ := cases_ x id left
    · obtain old' | ⟨rfl,rfl,_⟩ := cases_ y id right
      · exact numbered.apart x y id old old'
      · exact absurd (numbered.bounds x _ old).2 (by omega)
    · obtain old' | ⟨rfl,_,_⟩ := cases_ y _ right
      · exact absurd (numbered.bounds y _ old').2 (by omega)
      · rfl
  · intro x id found
    have above := numbered.above
    obtain old | ⟨rfl,rfl,next⟩ := cases_ x id found
    · have bounds := numbered.bounds x id old
      omega
    · omega
  · exact fun id loc member => numbered.parameters id loc ((emits.parameters id loc).mp member)
  · intro other member
    rw [roles] at member
    obtain old | new := List.mem_append.mp member
    · exact emits.kept _ _ (numbered.roles other old)
    · obtain rfl := List.mem_singleton.mp new
      rw [Role.local_,mention]
      exact id
  · intro c x member
    have known : x ∈ s.locals c ∨ x = m.local_ := by
      by_cases here : c = bb
      · rw [here,emits.here] at member
        exact here ▸ (Finset.mem_insert.mp member).symm
      · exact .inl (by simpa only [CFGTraversal.locals,emits.elsewhere c here] using member)
    obtain old | rfl := known
    · obtain ⟨id',found⟩ := Option.isSome_iff_exists.mp (numbered.known c x old)
      exact Option.isSome_iff_exists.mpr ⟨id',emits.kept _ _ found⟩
    · exact Option.isSome_iff_exists.mpr ⟨_,id⟩

-- The roles of a block's calls, given the locals that the block has taken over.
structure Assigns (ctx : Context) (cfg : CFG) (anonymous : LocalName → Option AnonymousParameter) (bb : BlockId)
    (Inherits : LocalRef → Prop) (calls : List Mention) (roles : List Role) : Prop where
  placed : ∀ role ∈ roles, role.block = bb
  complete : roles.map (·.mention) = calls.filter (Classified ctx cfg anonymous ·)
  definitions : ∀ before role after, roles = before ++ role :: after → role.mention.valueCategory = .lvalue →
    (role.isDefinition = true ↔ ¬ Inherits role.local_ ∧ ∀ earlier ∈ before, earlier.local_ ≠ role.local_)

-- How far the calls of one block have come.
structure Visiting (ctx : Context) (cfg : CFG) (bb : BlockId) (calls : List Mention) (s s' : CFGTraversal) : Prop where
  here : ∀ x, x ∈ s'.locals bb ↔
    x ∈ s.locals bb ∨ ∃ m ∈ calls, Classified ctx cfg s.anonymousParameters m ∧ m.local_ = x
  elsewhere : ∀ c, c ≠ bb → s'.blockLocals c = s.blockLocals c
  anonymousParameters : s'.anonymousParameters = s.anonymousParameters
  roles : ∃ new, s'.roles = s.roles ++ new ∧
    Assigns ctx cfg s.anonymousParameters bb (· ∈ s.locals bb) calls new

theorem Assigns.snoc {Inherits : LocalRef → Prop} {calls : List Mention} {roles : List Role} {role : Role}
    (assigns : Assigns ctx cfg anonymous bb Inherits calls roles) (placed : role.block = bb) (mention : role.mention = m)
    (classified : Classified ctx cfg anonymous m)
    (definition : m.valueCategory = .lvalue →
      (role.isDefinition = true ↔ ¬ (Inherits m.local_ ∨ ∃ m' ∈ calls, Classified ctx cfg anonymous m' ∧ m'.local_ = m.local_))) :
    Assigns ctx cfg anonymous bb Inherits (calls ++ [m]) (roles ++ [role]) := by
  refine ⟨?_,?_,?_⟩
  · intro other member
    obtain old | new := List.mem_append.mp member
    · exact assigns.placed other old
    · obtain rfl := List.mem_singleton.mp new
      exact placed
  · simp [assigns.complete,mention,classified]
  · intro before other after split category
    obtain rfl | ⟨after',last,rfl⟩ := List.eq_nil_or_concat after
    · obtain ⟨rfl,same⟩ := List.append_inj' split rfl
      cases same
      have members : ∀ x, (∃ m' ∈ calls, Classified ctx cfg anonymous m' ∧ m'.local_ = x) ↔
          ∃ earlier ∈ roles, earlier.local_ = x := by
        intro x
        have listed : ∀ m', m' ∈ calls ∧ Classified ctx cfg anonymous m' ↔ ∃ earlier ∈ roles, earlier.mention = m' := by
          intro m'
          rw [← List.mem_map (f := fun role : Role => role.mention),assigns.complete]
          simp
        constructor
        · rintro ⟨m',member,holds,same⟩
          obtain ⟨earlier,member',rfl⟩ := (listed m').mp ⟨member,holds⟩
          exact ⟨earlier,member',same⟩
        · rintro ⟨earlier,member,same⟩
          obtain ⟨member',holds⟩ := (listed _).mpr ⟨earlier,member,rfl⟩
          exact ⟨_,member',holds,same⟩
      rw [mention] at category
      rw [definition category,Role.local_,mention,members]
      simp only [not_or,not_exists,not_and]
    · have split' : roles ++ [role] = (before ++ other :: after') ++ [last] := by simpa using split
      obtain ⟨same,_⟩ := List.append_inj' split' rfl
      exact assigns.definitions before other after' same category

theorem visiting_emit {calls : List Mention} {first : Nat} (numbered : Numbered first s')
    (visiting : Visiting ctx cfg bb calls s s') :
    Visiting ctx cfg bb (calls ++ [m]) s (s'.emitLocalOccurrence ctx cfg bb m) := by
  obtain ⟨new,roles,assigns⟩ := visiting.roles
  obtain ⟨classified,loc,symRef,emitted⟩ | ⟨unclassified,same⟩ := emitLocalOccurrence_cases ctx cfg bb s' m
  · have emits := @emitRole_emits s' bb m loc symRef
    rw [← emitted] at emits
    rw [visiting.anonymousParameters] at classified
    obtain ⟨role,added,placed,mention,_,definition⟩ := emits.role
    refine ⟨?_,?_,emits.anonymousParameters.trans visiting.anonymousParameters,new ++ [role],?_,?_⟩
    · intro x
      rw [emits.here,Finset.mem_insert,visiting.here]
      simp only [List.mem_append,List.mem_singleton,or_and_right,exists_or,exists_eq_left,classified,true_and]
      rw [@eq_comm _ x,or_comm,or_assoc]
    · exact fun c other => (emits.elsewhere c other).trans (visiting.elsewhere c other)
    · rw [added,roles,List.append_assoc]
    · refine assigns.snoc placed mention classified fun category => ?_
      rw [definition,← visiting.here]
      have unknown : s'.functionLocals m.local_ = none → m.local_ ∉ s'.locals bb := by
        intro fresh member
        have known := numbered.known bb _ member
        simp [fresh] at known
      tauto
  · rw [visiting.anonymousParameters] at unclassified
    refine ⟨?_,?_,same.anonymousParameters.trans visiting.anonymousParameters,new,same.roles.trans roles,?_⟩
    · intro x
      rw [CFGTraversal.locals,same.blockLocals,← CFGTraversal.locals,visiting.here]
      simp only [List.mem_append,List.mem_singleton,or_and_right,exists_or,exists_eq_left,unclassified,false_and,or_false]
    · intro c other
      rw [same.blockLocals]
      exact visiting.elsewhere c other
    · exact ⟨assigns.placed,by simp [assigns.complete,unclassified],assigns.definitions⟩

theorem numbered_emit {first : Nat} (numbered : Numbered first s) :
    Numbered first (s.emitLocalOccurrence ctx cfg bb m) := by
  obtain ⟨_,loc,symRef,emitted⟩ | ⟨_,same⟩ := emitLocalOccurrence_cases ctx cfg bb s m
  · rw [emitted]
    exact numbered.emits (emitRole_emits ..)
  · exact numbered.same same

theorem visiting_calls {first : Nat} (numbered : Numbered first s) (calls : List Mention) :
    Visiting ctx cfg bb calls s (calls.foldl (emitLocalOccurrence ctx cfg bb) s) ∧
      Numbered first (calls.foldl (emitLocalOccurrence ctx cfg bb) s) := by
  induction calls using List.reverseRecOn with
  | nil => exact ⟨⟨by simp,fun _ _ => rfl,rfl,[],by simp,by simp,rfl,by simp⟩,numbered⟩
  | append_singleton calls m ih =>
    rw [List.foldl_concat]
    exact ⟨visiting_emit ih.2 ih.1,numbered_emit ih.2⟩

theorem visitBlock_eq : visitBlock ctx cfg s bb =
    (mentions ctx cfg bb).foldl (emitLocalOccurrence ctx cfg bb) (s.copyLocalsFromParents cfg bb) := by
  unfold visitBlock mentions
  rw [List.foldl_flatMap]

-- A block takes over what its predecessors have, as far as they have been visited.
theorem copyLocalsFromParents_locals :
    x ∈ (s.copyLocalsFromParents cfg bb).locals bb ↔ ∃ p ∈ cfg.backEdges bb, x ∈ s.locals p := by
  have union : ∀ (parents : List BlockId) (bbLocals : Finset LocalRef),
      x ∈ parents.foldl s.copyLocals bbLocals ↔ x ∈ bbLocals ∨ ∃ p ∈ parents, x ∈ s.locals p := by
    intro parents
    induction parents with
    | nil => simp
    | cons p parents ih =>
      intro bbLocals
      rw [List.foldl_cons,ih]
      cases known : s.blockLocals p with
      | none => simp [copyLocals,CFGTraversal.locals,known]
      | some parentLocals => simp [copyLocals,CFGTraversal.locals,known,or_assoc]
  have copied := union (cfg.backEdges bb) ∅
  simpa only [CFGTraversal.copyLocalsFromParents,CFGTraversal.locals,Function.update_self,Option.getD_some,
    Finset.notMem_empty,false_or] using copied

theorem numbered_copy {first : Nat} (numbered : Numbered first s) :
    Numbered first (s.copyLocalsFromParents cfg bb) where
  apart := numbered.apart
  bounds := numbered.bounds
  above := numbered.above
  parameters := numbered.parameters
  roles := numbered.roles
  known := by
    intro c x member
    by_cases here : c = bb
    · rw [here,copyLocalsFromParents_locals] at member
      obtain ⟨p,_,member'⟩ := member
      exact numbered.known p x member'
    · refine numbered.known c x ?_
      simpa [CFGTraversal.copyLocalsFromParents,CFGTraversal.locals,here] using member

-- The jumps are known at their targets and nowhere else, every listed block can be come to, and a block is
-- listed after all of its successors.
structure Ordered (cfg : CFG) : Prop where
  once : cfg.forwardsTopoSort.Nodup
  entry : cfg.entry ∈ cfg.forwardsTopoSort
  exits : ∀ b ∈ cfg.forwardsTopoSort, b ≠ cfg.deadBlock →
    cfg.thenb b ∈ cfg.forwardsTopoSort ∧ cfg.elseb b ∈ cfg.forwardsTopoSort
  linked : ∀ b ∈ cfg.forwardsTopoSort, b ≠ cfg.deadBlock →
    b ∈ cfg.backEdges (cfg.thenb b) ∧ b ∈ cfg.backEdges (cfg.elseb b)
  edges : ∀ b ∈ cfg.forwardsTopoSort, ∀ p ∈ cfg.backEdges b,
    p ≠ cfg.deadBlock ∧ (b = cfg.thenb p ∨ b = cfg.elseb p)
  reached : ∀ b ∈ cfg.forwardsTopoSort, ∃ past, Walk cfg past b
  parentsFirst : ∀ before b after, cfg.forwardsTopoSort.reverse = before ++ b :: after →
    ∀ p ∈ cfg.backEdges b, p ∈ before

def Mentioned (ctx : Context) (cfg : CFG) (anonymous : LocalName → Option AnonymousParameter) (b : BlockId)
    (x : LocalRef) : Prop :=
  ∃ m ∈ mentions ctx cfg b, Classified ctx cfg anonymous m ∧ m.local_ = x

-- Some path from the entry has come past the local before it comes to the block.
def Passes (ctx : Context) (cfg : CFG) (anonymous : LocalName → Option AnonymousParameter) (b : BlockId)
    (x : LocalRef) : Prop :=
  ∃ past, Walk cfg past b ∧ ∃ d ∈ past, Mentioned ctx cfg anonymous d x

theorem Ordered.walk {past : List BlockId} (ordered : Ordered cfg) (walk : Walk cfg past b) :
    b ∈ cfg.forwardsTopoSort := by
  induction walk with
  | start => exact ordered.entry
  | step _ alive edge ih =>
    have exits := ordered.exits _ ih alive
    obtain rfl | rfl := edge
    · exact exits.1
    · exact exits.2

-- A path comes to a block through one of its predecessors.
theorem passes_iff (ordered : Ordered cfg) (listed : b ∈ cfg.forwardsTopoSort) :
    Passes ctx cfg anonymous b x ↔
      ∃ p ∈ cfg.backEdges b, Mentioned ctx cfg anonymous p x ∨ Passes ctx cfg anonymous p x := by
  constructor
  · rintro ⟨past,walk,d,member,mentioned⟩
    obtain rfl | ⟨past',p,rfl⟩ := List.eq_nil_or_concat' past
    · cases member
    · obtain ⟨walk',alive,edge⟩ := walk_concat walk
      have linked := ordered.linked p (ordered.walk walk') alive
      have parent : p ∈ cfg.backEdges b := by
        obtain rfl | rfl := edge
        · exact linked.1
        · exact linked.2
      refine ⟨p,parent,?_⟩
      obtain earlier | last := List.mem_append.mp member
      · exact .inr ⟨past',walk',d,earlier,mentioned⟩
      · obtain rfl := List.mem_singleton.mp last
        exact .inl mentioned
  · rintro ⟨p,parent,found⟩
    obtain ⟨alive,edge⟩ := ordered.edges b listed p parent
    obtain mentioned | ⟨past,walk,d,member,mentioned⟩ := found
    · obtain ⟨before,after,split⟩ := List.append_of_mem (List.mem_reverse.mpr listed)
      have earlier := ordered.parentsFirst before b after split p parent
      have listed' : p ∈ cfg.forwardsTopoSort := by
        rw [← List.mem_reverse,split]
        exact List.mem_append_left _ earlier
      obtain ⟨past,walk⟩ := ordered.reached p listed'
      exact ⟨past ++ [p],walk.step alive edge,p,by simp,mentioned⟩
    · exact ⟨past ++ [p],walk.step alive edge,d,List.mem_append_left _ member,mentioned⟩

def CFGTraversal.rolesIn (s : CFGTraversal) (bb : BlockId) : List Role := s.roles.filter (·.block = bb)

structure Traversed (ctx : Context) (cfg : CFG) (anonymous : LocalName → Option AnonymousParameter)
    (done : List BlockId) (s : CFGTraversal) : Prop where
  anonymousParameters : s.anonymousParameters = anonymous
  placed : ∀ role ∈ s.roles, role.block ∈ done
  locals : ∀ b ∈ done, ∀ x, x ∈ s.locals b ↔ Mentioned ctx cfg anonymous b x ∨ Passes ctx cfg anonymous b x
  roles : ∀ b ∈ done, Assigns ctx cfg anonymous b (Passes ctx cfg anonymous b) (mentions ctx cfg b) (s.rolesIn b)

theorem visitBlock_traversed {done rest : List BlockId} {first : Nat} (ordered : Ordered cfg)
    (split : cfg.forwardsTopoSort.reverse = done ++ bb :: rest) (numbered : Numbered first s)
    (traversed : Traversed ctx cfg anonymous done s) :
    Traversed ctx cfg anonymous (done ++ [bb]) (visitBlock ctx cfg s bb) ∧ Numbered first (visitBlock ctx cfg s bb) := by
  have listed : bb ∈ cfg.forwardsTopoSort := by
    rw [← List.mem_reverse,split]
    simp
  have new : bb ∉ done := by
    have once := List.nodup_reverse.mpr ordered.once
    rw [split] at once
    exact fun twice => (List.nodup_append.mp once).2.2 bb twice bb List.mem_cons_self rfl
  have parents := ordered.parentsFirst done bb rest split
  obtain ⟨visiting,numbered'⟩ := @visiting_calls ctx cfg bb (s.copyLocalsFromParents cfg bb) first
    (numbered_copy numbered) (mentions ctx cfg bb)
  rw [← visitBlock_eq] at visiting numbered'
  have same : (s.copyLocalsFromParents cfg bb).anonymousParameters = anonymous := traversed.anonymousParameters
  have inherited : ∀ x, x ∈ (s.copyLocalsFromParents cfg bb).locals bb ↔ Passes ctx cfg anonymous bb x := by
    intro x
    rw [copyLocalsFromParents_locals,passes_iff ordered listed]
    constructor
    · rintro ⟨p,parent,member⟩
      exact ⟨p,parent,(traversed.locals p (parents p parent) x).mp member⟩
    · rintro ⟨p,parent,found⟩
      exact ⟨p,parent,(traversed.locals p (parents p parent) x).mpr found⟩
  obtain ⟨added,roles,assigns⟩ := visiting.roles
  have roles' : (visitBlock ctx cfg s bb).roles = s.roles ++ added := roles
  rw [same] at assigns
  have absent : s.rolesIn bb = [] := by
    refine List.filter_eq_nil_iff.mpr fun role member here => new ?_
    exact of_decide_eq_true here ▸ traversed.placed role member
  refine ⟨⟨visiting.anonymousParameters.trans same,?_,?_,?_⟩,numbered'⟩
  · intro role member
    rw [roles'] at member
    obtain old | fresh := List.mem_append.mp member
    · exact List.mem_append_left _ (traversed.placed role old)
    · simp [assigns.placed role fresh]
  · intro b member x
    by_cases here : b = bb
    · subst here
      rw [visiting.here,inherited,same]
      exact or_comm
    · have old : b ∈ done := by simpa [here] using member
      have kept : (visitBlock ctx cfg s bb).blockLocals b = s.blockLocals b :=
        (visiting.elsewhere b here).trans (Function.update_of_ne here ..)
      rw [CFGTraversal.locals,kept,← CFGTraversal.locals]
      exact traversed.locals b old x
  · intro b member
    by_cases here : b = bb
    · subst here
      have all : (visitBlock ctx cfg s b).rolesIn b = added := by
        rw [CFGTraversal.rolesIn,roles',List.filter_append,← CFGTraversal.rolesIn,absent,List.nil_append]
        exact List.filter_eq_self.mpr fun role fresh => decide_eq_true (assigns.placed role fresh)
      rw [all]
      refine ⟨assigns.placed,assigns.complete,?_⟩
      intro before role after split' category
      rw [assigns.definitions before role after split' category,inherited]
    · have old : b ∈ done := by simpa [here] using member
      have none_ : added.filter (·.block = b) = [] := by
        refine List.filter_eq_nil_iff.mpr fun role fresh there => here ?_
        rw [← of_decide_eq_true there]
        exact assigns.placed role fresh
      have kept : (visitBlock ctx cfg s bb).rolesIn b = s.rolesIn b := by
        rw [CFGTraversal.rolesIn,roles',List.filter_append,none_,List.append_nil]
        rfl
      rw [kept]
      exact traversed.roles b old

theorem visitBlocks_traversed {done todo : List BlockId} {first : Nat} (ordered : Ordered cfg)
    (split : cfg.forwardsTopoSort.reverse = done ++ todo) (numbered : Numbered first s)
    (traversed : Traversed ctx cfg anonymous done s) :
    Traversed ctx cfg anonymous cfg.forwardsTopoSort.reverse (todo.foldl (visitBlock ctx cfg) s) ∧
      Numbered first (todo.foldl (visitBlock ctx cfg) s) := by
  induction todo generalizing done s with
  | nil =>
    rw [split,List.append_nil]
    exact ⟨traversed,numbered⟩
  | cons bb rest ih =>
    obtain ⟨traversed',numbered'⟩ := visitBlock_traversed ordered split numbered traversed
    exact ih (by simp [split]) numbered' traversed'

-- The anonymous parameters come first.
structure Declared (s : CFGTraversal) : Prop where
  blockLocals : ∀ b, s.blockLocals b = none
  functionLocals : ∀ x, s.functionLocals x = none
  roles : s.roles = []
  parameters : ∀ id loc, .parameter id loc ∈ s.saved → id ≤ s.counter
  named : ∀ name parameter, s.anonymousParameters name = some parameter →
    .parameter parameter.id parameter.loc ∈ s.saved

theorem defineAnonymousParameter_declared {loc : LocOffsets} (declared : Declared s) :
    Declared (s.defineAnonymousParameter ctx loc) := by
  unfold defineAnonymousParameter
  dsimp only
  split
  · exact declared
  · split
    · exact declared
    · refine ⟨declared.blockLocals,declared.functionLocals,?_,?_,?_⟩
      · have empty := declared.roles
        simp only [CFGTraversal.roles] at empty ⊢
        simp [empty,Saved.role?]
      · intro id loc' member
        obtain old | new := List.mem_append.mp member
        · exact (declared.parameters id loc' old).trans (Nat.le_succ _)
        · cases List.mem_singleton.mp new
          exact Nat.le_refl _
      · intro name parameter found
        dsimp only at found
        split at found
        · cases Option.some.inj found
          simp
        · exact List.mem_append_left _ (declared.named name parameter found)

theorem defineAnonymousParameters_declared (params : List (Option LocOffsets)) (arity : Nat) :
    Declared (initial.defineAnonymousParameters ctx params arity) := by
  have fold : ∀ (locs : List LocOffsets) (s : CFGTraversal), Declared s →
      Declared (locs.foldl (defineAnonymousParameter ctx) s) := by
    intro locs
    induction locs with
    | nil => exact fun _ declared => declared
    | cons loc locs ih => exact fun s declared => ih _ (defineAnonymousParameter_declared declared)
  exact fold _ _ ⟨fun _ => rfl,fun _ => rfl,rfl,by simp [initial],by simp [initial]⟩

theorem Declared.numbered (declared : Declared s) : Numbered s.counter s where
  apart := by simp [declared.functionLocals]
  bounds := by simp [declared.functionLocals]
  above := Nat.le_refl _
  parameters := declared.parameters
  roles := by simp [declared.roles]
  known := by simp [CFGTraversal.locals,declared.blockLocals]

-- The anonymous parameters of a method.
def anonymousParameters (ctx : Context) (params : List (Option LocOffsets)) (arity : Nat) :
    LocalName → Option AnonymousParameter :=
  (initial.defineAnonymousParameters ctx params arity).anonymousParameters

theorem traverse_traversed (ordered : Ordered cfg) (params : List (Option LocOffsets)) (arity : Nat) :
    Traversed ctx cfg (anonymousParameters ctx params arity) cfg.forwardsTopoSort.reverse
      (traverse ctx cfg params arity) ∧
    Numbered (initial.defineAnonymousParameters ctx params arity).counter (traverse ctx cfg params arity) := by
  have declared := @defineAnonymousParameters_declared ctx params arity
  refine visitBlocks_traversed ordered (List.nil_append _).symm declared.numbered ?_
  exact ⟨rfl,by simp [declared.roles],by simp,by simp⟩

-- What the indexer says about the locals of a method.
structure Resolved (ctx : Context) (cfg : CFG) (params : List (Option LocOffsets)) (arity : Nat) : Prop where
  ids : ∀ left ∈ (traverse ctx cfg params arity).roles, ∀ right ∈ (traverse ctx cfg params arity).roles,
    left.id = right.id ↔ left.local_ = right.local_
  parameters : ∀ role ∈ (traverse ctx cfg params arity).roles, ∀ name parameter,
    anonymousParameters ctx params arity name = some parameter → role.id ≠ parameter.id
  roles : ∀ b ∈ cfg.forwardsTopoSort, ((traverse ctx cfg params arity).rolesIn b).map (·.mention) =
    (mentions ctx cfg b).filter (Classified ctx cfg (anonymousParameters ctx params arity) ·)
  definitions : ∀ b ∈ cfg.forwardsTopoSort, ∀ before role after,
    (traverse ctx cfg params arity).rolesIn b = before ++ role :: after → role.mention.valueCategory = .lvalue →
    (role.isDefinition = true ↔
      (¬ ∃ past, Walk cfg past b ∧
        ∃ d ∈ past, Mentioned ctx cfg (anonymousParameters ctx params arity) d role.local_) ∧
      ∀ earlier ∈ before, earlier.local_ ≠ role.local_)

-- An assignment with a location, to a local that is neither an alias nor a parameter with a symbol of its own.
def Indexed (ctx : Context) (cfg : CFG) (anonymous : LocalName → Option AnonymousParameter) (binding : Binding) : Prop :=
  ctx.aliasMap binding.bind.variable_ = none ∧
  ctx.keywordParameters (cfg.localVariables binding.bind.variable_) = none ∧
  anonymous (cfg.localVariables binding.bind.variable_).name = none ∧
  usable (lhsLocIfPresent binding) = true

def assignment (binding : Binding) : Mention := ⟨⟨binding.bind.variable_,lhsLocIfPresent binding⟩,.lvalue⟩

-- Unless it is to a temporary, such an assignment is one of the calls that are classified.
theorem assignment_classified {binding : Binding} (member : binding ∈ cfg.exprs b)
    (indexed : Indexed ctx cfg anonymous binding) (lasting : isTemporary (cfg.localVariables binding.bind.variable_) = false)
    (plain : lhsMentions binding ≠ []) :
    assignment binding ∈ (mentions ctx cfg b).filter (Classified ctx cfg anonymous ·) := by
  obtain ⟨unaliased,keyword,unnamed,there⟩ := indexed
  have processed : skipProcessing binding = false := by
    unfold lhsLocIfPresent at there
    unfold skipProcessing
    split at there <;> simp [there]
  have called : lhsMentions binding = [assignment binding] := by
    unfold lhsMentions at plain ⊢
    split
    · simp_all
    · simp_all
    · rfl
  refine List.mem_filter.mpr ⟨?_,?_⟩
  · refine List.mem_flatMap.mpr ⟨binding,member,?_⟩
    simp [bindingMentions,processed,called]
  · have classified : Classified ctx cfg anonymous (assignment binding) := by
      refine ⟨keyword,fun _ => unnamed,there,?_⟩
      simp only [Mention.local_,assignment,unaliased]
      exact lasting
    simpa using classified

theorem traverse_resolved (ordered : Ordered cfg) (params : List (Option LocOffsets)) (arity : Nat) :
    Resolved ctx cfg params arity ∧ ∀ b ∈ cfg.forwardsTopoSort, ∀ binding ∈ cfg.exprs b,
      Indexed ctx cfg (anonymousParameters ctx params arity) binding →
      isTemporary (cfg.localVariables binding.bind.variable_) = false → lhsMentions binding ≠ [] →
      ∃ role ∈ (traverse ctx cfg params arity).rolesIn b, role.mention = assignment binding := by
  obtain ⟨traversed,numbered⟩ := @traverse_traversed ctx cfg ordered params arity
  have declared := @defineAnonymousParameters_declared ctx params arity
  have listed : ∀ b ∈ cfg.forwardsTopoSort, b ∈ cfg.forwardsTopoSort.reverse := fun b => List.mem_reverse.mpr
  refine ⟨⟨?_,?_,?_,?_⟩,?_⟩
  · intro left member right member'
    have first := numbered.roles left member
    have second := numbered.roles right member'
    constructor
    · intro same
      exact numbered.apart _ _ _ first (same ▸ second)
    · intro same
      rw [same] at first
      exact Option.some.inj (first.symm.trans second)
  · intro role member name parameter found same
    have low := declared.parameters _ _ (declared.named name parameter found)
    have high := (numbered.bounds _ _ (numbered.roles role member)).1
    omega
  · exact fun b member => (traversed.roles b (listed b member)).complete
  · exact fun b member => (traversed.roles b (listed b member)).definitions
  · intro b member binding inside indexed lasting plain
    have called := assignment_classified inside indexed lasting plain
    rw [← (traversed.roles b (listed b member)).complete] at called
    exact List.mem_map.mp called

section Branching

def sampleLoc : LocOffsets := ⟨0,1,by decide⟩

-- An if whose branches both assign a local, after a temporary for its condition and before the dead block that
-- ends the method.
def branchingBlock : BlockId → Cfg.BasicBlock Binding LocOffsets
  | 0 => ⟨0,[⟨⟨7,sampleLoc⟩,sampleLoc,.literal,false⟩],⟨⟨7,sampleLoc⟩,2,3,sampleLoc⟩,[]⟩
  | 1 => ⟨0,[],⟨⟨3,sampleLoc⟩,1,1,sampleLoc⟩,[3,2]⟩
  | _ => ⟨0,[⟨⟨6,sampleLoc⟩,sampleLoc,.literal,false⟩],⟨⟨3,sampleLoc⟩,1,1,sampleLoc⟩,[0]⟩

def branchingCfg : CFG where
  basicBlocks := [0,1,2,3]
  maxBasicBlockId := 4
  block := branchingBlock
  forwardsTopoSort := [1,2,3,0]
  localVariables := fun local_ => if local_ = 6 then ⟨.other 0,0⟩ else ⟨.ifTemp,1⟩
  minLoops := fun _ => Cfg.INT_MAX
  maxLoopWrite := fun _ => 0

-- The method has a block parameter without a name.
def branchingContext : Context where
  files := fun _ => ⟨"a.rb".toList,"&".toList⟩
  file := 1
  shortName := fun _ => "x".toList
  isStaticInit := false
  keywordParameters := fun _ => none
  aliasMap := fun _ => none

theorem branchingCfg_ordered : Ordered branchingCfg where
  once := by decide
  entry := by decide
  exits := by decide
  linked := by decide
  edges := by decide
  reached := by
    have entry : Walk branchingCfg [] 0 := .start
    have left : Walk branchingCfg [0] 2 := .step entry (by decide) (.inl rfl)
    have right : Walk branchingCfg [0] 3 := .step entry (by decide) (.inr rfl)
    have last : Walk branchingCfg [0,2] 1 := .step left (by decide) (.inl rfl)
    simp only [branchingCfg,List.forall_mem_cons]
    exact ⟨⟨_,last⟩,⟨_,left⟩,⟨_,right⟩,⟨_,entry⟩,by simp⟩
  parentsFirst := by
    intro before b after split
    have order : branchingCfg.forwardsTopoSort.reverse = [0,3,2,1] := rfl
    rw [order] at split
    simp only [List.cons_eq_append_iff,List.nil_eq,List.append_eq_nil_iff] at split
    obtain ⟨rfl,same⟩ | ⟨_,rfl,⟨rfl,same⟩ | ⟨_,rfl,⟨rfl,same⟩ | ⟨_,rfl,⟨rfl,same⟩ | ⟨_,_,_,empty⟩⟩⟩⟩ := split
    · cases same
      decide
    · cases same
      decide
    · cases same
      decide
    · cases same
      decide
    · cases empty

theorem traverse_resolved_branching : Ordered branchingCfg ∧
    Resolved branchingContext branchingCfg [some sampleLoc] 1 ∧
    ∃ role ∈ (traverse branchingContext branchingCfg [some sampleLoc] 1).rolesIn 2,
      role.mention = ⟨⟨6,sampleLoc⟩,.lvalue⟩ := by
  obtain ⟨resolved,found⟩ := @traverse_resolved branchingContext branchingCfg branchingCfg_ordered [some sampleLoc] 1
  refine ⟨branchingCfg_ordered,resolved,?_⟩
  refine found 2 (by decide) _ List.mem_cons_self ⟨rfl,rfl,?_,?_⟩ ?_ ?_
  · decide
  · decide
  · decide
  · simp [lhsMentions]

-- The assignment to the temporary is the first on its path and has no role.
theorem temporary_unclassified : Ordered branchingCfg ∧ ∃ binding ∈ branchingCfg.exprs 0,
    Indexed branchingContext branchingCfg (anonymousParameters branchingContext [some sampleLoc] 1) binding ∧
    lhsMentions binding ≠ [] ∧
    (¬ ∃ past, Walk branchingCfg past 0 ∧ ∃ d ∈ past, Mentioned branchingContext branchingCfg
      (anonymousParameters branchingContext [some sampleLoc] 1) d binding.bind.variable_) ∧
    (traverse branchingContext branchingCfg [some sampleLoc] 1).rolesIn 0 = [] := by
  refine ⟨branchingCfg_ordered,_,List.mem_cons_self,⟨rfl,rfl,?_,?_⟩,?_,?_,?_⟩
  · decide
  · decide
  · simp [lhsMentions]
  · intro found
    obtain ⟨p,parent,_⟩ := (passes_iff branchingCfg_ordered (by decide)).mp found
    cases parent
  · decide

end Branching

end Scip.Locals
