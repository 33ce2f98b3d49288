import ScipRuby.Cfg.Dealias

namespace Cfg
variable {Loc Value : Type}

-- What an execution has done: assignments and jumps.
inductive Event (Loc : Type) where
  | assign (bind : Binding Loc)
  | jump (source target : BlockId)

-- Where an execution is: in a block, after some of its bindings and before the others, with the values of the locals.
structure Point (Loc Value : Type) where
  block : BlockId
  done : List (Binding Loc)
  rest : List (Binding Loc)
  store : LocalRef → Value

-- An Ident copies a value; any other instruction may give any value, and any exit may be taken. Nothing leaves the
-- dead block.
inductive Run (Value : Type) (cfg : CFG (Binding Loc) Loc) : List (Event Loc) → Point Loc Value → Prop where
  | start (store : LocalRef → Value) : Run Value cfg [] ⟨cfg.entry,[],cfg.exprs cfg.entry,store⟩
  | assign {trace b done bind rest store value} : Run Value cfg trace ⟨b,done,bind :: rest,store⟩ →
      (∀ what, bind.value = .ident what → value = store what) →
      Run Value cfg (trace ++ [.assign bind])
        ⟨b,done ++ [bind],rest,Function.update store bind.bind.variable_ value⟩
  | jump {trace b c done store} : Run Value cfg trace ⟨b,done,[],store⟩ → b ≠ cfg.deadBlock →
      c = cfg.thenb b ∨ c = cfg.elseb b → Run Value cfg (trace ++ [.jump b c]) ⟨c,[],cfg.exprs c,store⟩

-- No jump goes from a block to itself, and a temporary that an Ident has assigned is assigned by nothing else later.
structure Tame (cfg : CFG (Binding Loc) Loc) (trace : List (Event Loc)) : Prop where
  jumps : ∀ b, .jump b b ∉ trace
  temporaries : ∀ pre bind post, trace = pre ++ .assign bind :: post → bind.value.isIdent = false →
    cfg.isSyntheticTemporary bind.bind.variable_ = true →
    ∀ earlier, .assign earlier ∈ pre → earlier.value.isIdent = true →
      earlier.bind.variable_ ≠ bind.bind.variable_

-- The blocks are sorted with the entry last, and every jump is known at its target.
structure Sorted (cfg : CFG (Binding Loc) Loc) : Prop where
  once : cfg.forwardsTopoSort.Nodup
  entryLast : ∃ rest, cfg.forwardsTopoSort.reverse = cfg.entry :: rest
  linked : ∀ b ∈ cfg.forwardsTopoSort, b ≠ cfg.deadBlock →
    b ∈ cfg.backEdges (cfg.thenb b) ∧ b ∈ cfg.backEdges (cfg.elseb b)
  closed : ∀ b ∈ cfg.forwardsTopoSort, cfg.thenb b ∈ cfg.forwardsTopoSort ∧ cfg.elseb b ∈ cfg.forwardsTopoSort

-- Each synthetic alias holds the value of what it stands for.
def Holds (cfg : CFG (Binding Loc) Loc) (store : LocalRef → Value) (aliases : Aliases Loc) : Prop :=
  ∀ el ∈ aliases, cfg.isSyntheticTemporary el.1 = true → store el.1 = store el.2.variable_

-- Each alias was made on the way here.
def MadeBy (trace : List (Event Loc)) (aliases : Aliases Loc) : Prop :=
  ∀ el ∈ aliases, ∃ bind, .assign bind ∈ trace ∧ bind.value.isIdent = true ∧ bind.bind.variable_ = el.1

def Covered (s : Dealiasing Loc) : Prop := ∀ el ∈ s.current, el.2.variable_ ∈ s.mayHaveAlias

-- A map that says less.
def Below (less more : Aliases Loc) : Prop := ∀ el ∈ less, ∃ other ∈ more, other.1 = el.1 ∧ other.2.variable_ = el.2.variable_

variable {cfg : CFG (Binding Loc) Loc} {isSCIPRuby : Bool} {aliases other : Aliases Loc} {store : LocalRef → Value}
variable {s : Dealiasing Loc} {bind : Binding Loc} {trace : List (Event Loc)} {b c bb p : BlockId}

section Maps

theorem find_mem {local_ : LocalRef} {occurrence : LocalOccurrence Loc} (found : aliases.find local_ = some occurrence) :
    (local_,occurrence) ∈ aliases := by
  obtain ⟨el,at_,rfl⟩ := Option.map_eq_some_iff.mp found
  have key := List.find?_some at_
  rw [decide_eq_true_eq] at key
  subst key
  exact List.mem_of_find?_eq_some at_

theorem meet_subset : aliases.meet other ⊆ aliases := List.filter_subset_self _

theorem meet_below : Below (aliases.meet other) other := by
  intro el member
  have agrees := (List.mem_filter.mp member).2
  split at agrees
  · rename_i occurrence found
    exact ⟨_,find_mem found,rfl,of_decide_eq_true agrees⟩
  · cases agrees

theorem Below.mono {less : Aliases Loc} (below : Below aliases other) (fewer : less ⊆ aliases) : Below less other :=
  fun el member => below el (fewer member)

theorem Below.refl (aliases : Aliases Loc) : Below aliases aliases := fun el member => ⟨el,member,rfl,rfl⟩

theorem Below.holds {less : Aliases Loc} (below : Below less aliases) (holds : Holds cfg store aliases) :
    Holds cfg store less := by
  intro el member synthetic
  obtain ⟨other,there,key,target⟩ := below el member
  rw [← key,← target]
  exact holds other there (key ▸ synthetic)

theorem Below.madeBy {less : Aliases Loc} (below : Below less aliases) (made : MadeBy trace aliases) :
    MadeBy trace less := by
  intro el member
  obtain ⟨other,there,key,_⟩ := below el member
  rw [← key]
  exact made other there

theorem MadeBy.append {more : List (Event Loc)} (made : MadeBy trace aliases) : MadeBy (trace ++ more) aliases := by
  intro el member
  obtain ⟨bind,there,rest⟩ := made el member
  exact ⟨bind,List.mem_append_left _ there,rest⟩

end Maps

section Values

theorem maybeDealias_value (holds : Holds cfg store aliases) (what : LocalOccurrence Loc) :
    store (cfg.maybeDealias what aliases).variable_ = store what.variable_ := by
  unfold CFG.maybeDealias
  split
  · rename_i synthetic
    cases found : aliases.find what.variable_ with
    | none => rfl
    | some occurrence => exact (holds _ (find_mem found) synthetic).symm
  · rfl

theorem dealiasIdent_values (holds : Holds cfg store aliases) (loc : Loc) (value : Instruction Loc) :
    (cfg.dealiasIdent loc aliases value).operands.map store = value.operands.map store := by
  cases value with
  | ident what => exact congrArg (fun v => [v]) (maybeDealias_value holds ⟨what,loc⟩)
  | _ => rfl

theorem dealiasValue_values (holds : Holds cfg store aliases) (loc : Loc) (value : Instruction Loc) :
    (cfg.dealiasValue isSCIPRuby loc aliases value).operands.map store = value.operands.map store := by
  cases value with
  | ident what => exact congrArg (fun v => [v]) (maybeDealias_value holds ⟨what,loc⟩)
  | send recv args receiverLoc =>
    simp only [CFG.dealiasValue,Instruction.operands,List.map_cons,List.map_map,maybeDealias_value holds,
      List.cons.injEq,true_and]
    refine List.map_congr_left fun arg _ => ?_
    exact maybeDealias_value holds arg
  | tAbsurd what => exact congrArg (fun v => [v]) (maybeDealias_value holds what)
  | return_ what => exact congrArg (fun v => [v]) (maybeDealias_value holds what)
  | _ => rfl

theorem dealiasIdent_isIdent (loc : Loc) (value : Instruction Loc) :
    (cfg.dealiasIdent loc aliases value).isIdent = value.isIdent := by
  cases value <;> rfl

theorem dealiasValue_isIdent (loc : Loc) (value : Instruction Loc) :
    (cfg.dealiasValue isSCIPRuby loc aliases value).isIdent = value.isIdent := by
  cases value <;> rfl

end Values

section Bindings
variable (cfg isSCIPRuby s bind)

-- The map and the value between the steps of dealiasBinding.
def keptAliases (s : Dealiasing Loc) (bind : Binding Loc) : Aliases Loc :=
  if bind.bind.variable_ ∈ s.mayHaveAlias then s.current.filter (·.2.variable_ ≠ bind.bind.variable_) else s.current

def dealiasedValue (cfg : CFG (Binding Loc) Loc) (isSCIPRuby : Bool) (s : Dealiasing Loc) (bind : Binding Loc) :
    Instruction Loc :=
  let value := cfg.dealiasIdent bind.loc s.current bind.value
  if bind.isSynthetic then value else cfg.dealiasValue isSCIPRuby bind.loc (keptAliases s bind) value

theorem dealiasBinding_fst : (cfg.dealiasBinding isSCIPRuby s bind).1 =
    {bind with value := dealiasedValue cfg isSCIPRuby s bind} := by
  unfold CFG.dealiasBinding dealiasedValue keptAliases
  dsimp only
  split <;> rfl

theorem dealiasBinding_ident {what : LocalRef} (ident : dealiasedValue cfg isSCIPRuby s bind = .ident what) :
    (cfg.dealiasBinding isSCIPRuby s bind).2 =
      ⟨Aliases.set (keptAliases s bind) bind.bind.variable_ ⟨what,bind.loc⟩,insert what s.mayHaveAlias⟩ := by
  unfold CFG.dealiasBinding
  unfold dealiasedValue keptAliases at ident
  dsimp only at ident ⊢
  rw [ident]
  rfl

theorem dealiasBinding_other (other : (dealiasedValue cfg isSCIPRuby s bind).isIdent = false) :
    (cfg.dealiasBinding isSCIPRuby s bind).2 = ⟨keptAliases s bind,s.mayHaveAlias⟩ := by
  unfold CFG.dealiasBinding
  unfold dealiasedValue keptAliases at other
  dsimp only at other ⊢
  split
  · rename_i value
    rw [value] at other
    cases other
  · rfl

variable {cfg isSCIPRuby s bind}

theorem dealiasedValue_isIdent : (dealiasedValue cfg isSCIPRuby s bind).isIdent = bind.value.isIdent := by
  unfold dealiasedValue
  dsimp only
  split
  · exact dealiasIdent_isIdent _ _
  · exact (dealiasValue_isIdent _ _).trans (dealiasIdent_isIdent _ _)

theorem keptAliases_subset : keptAliases s bind ⊆ s.current := by
  unfold keptAliases
  split
  · exact List.filter_subset_self _
  · exact List.Subset.refl _

theorem Covered.kept (covered : Covered s) {el : LocalRef × LocalOccurrence Loc} (member : el ∈ keptAliases s bind) :
    el.2.variable_ ≠ bind.bind.variable_ := by
  unfold keptAliases at member
  split at member
  · exact of_decide_eq_true (List.mem_filter.mp member).2
  · rename_i absent
    exact fun same => absent (same ▸ covered el member)

theorem Holds.mono {less : Aliases Loc} (holds : Holds cfg store aliases) (fewer : less ⊆ aliases) :
    Holds cfg store less := fun el member => holds el (fewer member)

theorem dealiasedValue_values (holds : Holds cfg store s.current) :
    (dealiasedValue cfg isSCIPRuby s bind).operands.map store = bind.value.operands.map store := by
  unfold dealiasedValue
  dsimp only
  split
  · exact dealiasIdent_values holds _ _
  · exact (dealiasValue_values (holds.mono keptAliases_subset) _ _).trans (dealiasIdent_values holds _ _)

theorem ident_of_isIdent {value : Instruction Loc} (ident : value.isIdent = true) : ∃ what, value = .ident what := by
  cases value with
  | ident what => exact ⟨what,rfl⟩
  | _ => cases ident

theorem dealiasBinding_covered (covered : Covered s) : Covered (cfg.dealiasBinding isSCIPRuby s bind).2 := by
  have kept : ∀ el ∈ keptAliases s bind, el.2.variable_ ∈ s.mayHaveAlias :=
    fun el member => covered el (keptAliases_subset member)
  cases ident : (dealiasedValue cfg isSCIPRuby s bind).isIdent with
  | false =>
    rw [dealiasBinding_other _ _ _ _ ident]
    exact kept
  | true =>
    obtain ⟨what,value⟩ := ident_of_isIdent ident
    rw [dealiasBinding_ident _ _ _ _ value]
    intro el member
    obtain rfl | member := List.mem_cons.mp member
    · exact Finset.mem_insert_self _ _
    · exact Finset.mem_insert_of_mem (kept el (List.mem_of_mem_filter member))

theorem dealiasBinding_madeBy (made : MadeBy trace s.current) :
    MadeBy (trace ++ [.assign bind]) (cfg.dealiasBinding isSCIPRuby s bind).2.current := by
  have kept : MadeBy (trace ++ [.assign bind]) (keptAliases s bind) :=
    fun el member => made.append el (keptAliases_subset member)
  cases ident : (dealiasedValue cfg isSCIPRuby s bind).isIdent with
  | false =>
    rw [dealiasBinding_other _ _ _ _ ident]
    exact kept
  | true =>
    obtain ⟨what,value⟩ := ident_of_isIdent ident
    rw [dealiasBinding_ident _ _ _ _ value]
    intro el member
    obtain rfl | member := List.mem_cons.mp member
    · exact ⟨bind,by simp,dealiasedValue_isIdent.symm.trans ident,rfl⟩
    · exact kept el (List.mem_of_mem_filter member)

-- What an assignment does to the values, and the invalidation and the new record to the map.
theorem dealiasBinding_holds {value : Value} (covered : Covered s) (holds : Holds cfg store s.current)
    (copies : ∀ what, bind.value = .ident what → value = store what)
    (tame : bind.value.isIdent = false → cfg.isSyntheticTemporary bind.bind.variable_ = true →
      ∀ el ∈ s.current, el.1 ≠ bind.bind.variable_) :
    Holds cfg (Function.update store bind.bind.variable_ value) (cfg.dealiasBinding isSCIPRuby s bind).2.current := by
  have kept : ∀ el ∈ keptAliases s bind, el.1 ≠ bind.bind.variable_ → cfg.isSyntheticTemporary el.1 = true →
      Function.update store bind.bind.variable_ value el.1 =
        Function.update store bind.bind.variable_ value el.2.variable_ := by
    intro el member apart synthetic
    rw [Function.update_of_ne apart,Function.update_of_ne (covered.kept member)]
    exact holds el (keptAliases_subset member) synthetic
  cases ident : (dealiasedValue cfg isSCIPRuby s bind).isIdent with
  | false =>
    rw [dealiasBinding_other _ _ _ _ ident]
    intro el member synthetic
    refine kept el member (fun same => ?_) synthetic
    have other := dealiasedValue_isIdent.symm.trans ident
    exact tame other (same ▸ synthetic) el (keptAliases_subset member) same
  | true =>
    obtain ⟨what,dealiased⟩ := ident_of_isIdent ident
    obtain ⟨original,written⟩ := ident_of_isIdent (dealiasedValue_isIdent.symm.trans ident)
    rw [dealiasBinding_ident _ _ _ _ dealiased]
    intro el member synthetic
    obtain rfl | member := List.mem_cons.mp member
    · have values := @dealiasedValue_values _ _ cfg isSCIPRuby store s bind holds
      rw [dealiased,written] at values
      have same : store what = store original := (List.cons.inj values).1
      dsimp only
      rw [Function.update_self,copies original written,Function.update_apply,same,ite_self]
    · obtain ⟨member,apart⟩ := List.mem_filter.mp member
      exact kept el member (of_decide_eq_true apart) synthetic

end Bindings

section Blocks

theorem dealiasExprs_append (first second : List (Binding Loc)) (s : Dealiasing Loc) :
    cfg.dealiasExprs isSCIPRuby (first ++ second) s =
      ((cfg.dealiasExprs isSCIPRuby first s).1 ++
          (cfg.dealiasExprs isSCIPRuby second (cfg.dealiasExprs isSCIPRuby first s).2).1,
        (cfg.dealiasExprs isSCIPRuby second (cfg.dealiasExprs isSCIPRuby first s).2).2) := by
  induction first generalizing s with
  | nil => rfl
  | cons bind first ih => simp only [List.cons_append,CFG.dealiasExprs,ih]

theorem dealiasExprs_length (exprs : List (Binding Loc)) (s : Dealiasing Loc) :
    (cfg.dealiasExprs isSCIPRuby exprs s).1.length = exprs.length := by
  induction exprs generalizing s with
  | nil => rfl
  | cons bind exprs ih => simp only [CFG.dealiasExprs,List.length_cons,ih]

-- The map that a block starts from says no more than the map of any other block that jumps to it.
theorem meetBackEdges_other (outAliases : BlockId → Aliases Loc) (apart : b ≠ bb) :
    cfg.meetBackEdges outAliases bb b = outAliases b := by
  cases edges : cfg.backEdges bb with
  | nil => simp only [CFG.meetBackEdges,edges]
  | cons first rest =>
    simp only [CFG.meetBackEdges,edges]
    have fold : ∀ (list : List BlockId) (maps : BlockId → Aliases Loc),
        list.foldl (fun maps parent => Function.update maps bb ((maps bb).meet (maps parent))) maps b = maps b := by
      intro list
      induction list with
      | nil => exact fun _ => rfl
      | cons parent list ih => exact fun maps => (ih _).trans (Function.update_of_ne apart ..)
    exact (fold rest _).trans (Function.update_of_ne apart ..)

theorem foldl_meet_below (list : List BlockId) (maps : BlockId → Aliases Loc) :
    let result := list.foldl (fun maps parent => Function.update maps bb ((maps bb).meet (maps parent))) maps
    result bb ⊆ maps bb ∧ ∀ p ∈ list, p ≠ bb → Below (result bb) (maps p) := by
  induction list generalizing maps with
  | nil => exact ⟨List.Subset.refl _,fun _ member => by cases member⟩
  | cons parent list ih =>
    obtain ⟨fewer,below⟩ := ih (Function.update maps bb ((maps bb).meet (maps parent)))
    rw [Function.update_self] at fewer
    refine ⟨List.Subset.trans fewer meet_subset,?_⟩
    intro p member apart
    obtain rfl | later := List.mem_cons.mp member
    · exact meet_below.mono fewer
    · have there := below p later apart
      rw [Function.update_of_ne apart] at there
      exact there

theorem meetBackEdges_below (outAliases : BlockId → Aliases Loc) :
    ∀ p ∈ cfg.backEdges bb, p ≠ bb → Below (cfg.meetBackEdges outAliases bb bb) (outAliases p) := by
  intro p member apart
  cases edges : cfg.backEdges bb with
  | nil =>
    rw [edges] at member
    cases member
  | cons first rest =>
    rw [edges] at member
    simp only [CFG.meetBackEdges,edges]
    obtain ⟨fewer,below⟩ := foldl_meet_below rest (Function.update outAliases bb (outAliases first))
    rw [Function.update_self] at fewer
    obtain rfl | later := List.mem_cons.mp member
    · exact (Below.refl _).mono fewer
    · have there := below p later apart
      rw [Function.update_of_ne apart] at there
      exact there

theorem meetBackEdges_nil (outAliases : BlockId → Aliases Loc) (empty : ∀ b, outAliases b = []) :
    cfg.meetBackEdges outAliases bb bb = [] := by
  cases edges : cfg.backEdges bb with
  | nil => simpa only [CFG.meetBackEdges,edges] using empty bb
  | cons first rest =>
    simp only [CFG.meetBackEdges,edges]
    have fewer := (@foldl_meet_below _ bb rest (Function.update outAliases bb (outAliases first))).1
    rw [Function.update_self] at fewer
    exact List.subset_nil.mp (List.Subset.trans fewer (List.subset_nil.mpr (empty first)))

end Blocks

-- What the pass has made of a block that it has been through.
structure Analysed (cfg out : CFG (Binding Loc) Loc) (isSCIPRuby : Bool) (outAliases : BlockId → Aliases Loc)
    (b : BlockId) (inn : Aliases Loc) : Prop where
  below : ∀ p ∈ cfg.backEdges b, p ≠ b → Below inn (outAliases p)
  exprs : out.exprs b = (cfg.dealiasExprs isSCIPRuby (cfg.exprs b) ⟨inn,inn.targets⟩).1
  aliases : outAliases b = (cfg.dealiasExprs isSCIPRuby (cfg.exprs b) ⟨inn,inn.targets⟩).2.current
  cond : out.cond b = if cfg.cond b ≠ LocalRef.unconditional then
    (cfg.maybeDealias (cfg.bexit b).cond (cfg.dealiasExprs isSCIPRuby (cfg.exprs b) ⟨inn,inn.targets⟩).2.current).variable_
    else cfg.cond b

-- The state of the pass after the given blocks. A block that it is yet to come to has no aliases.
structure Passed (cfg : CFG (Binding Loc) Loc) (isSCIPRuby : Bool) (visited : List BlockId)
    (s : CFG (Binding Loc) Loc × (BlockId → Aliases Loc)) : Prop where
  basicBlocks : s.1.basicBlocks = cfg.basicBlocks
  localVariables : s.1.localVariables = cfg.localVariables
  ids : s.1.maxBasicBlockId = cfg.maxBasicBlockId
  order : s.1.forwardsTopoSort = cfg.forwardsTopoSort
  backEdges : ∀ b, s.1.backEdges b = cfg.backEdges b
  exits : ∀ b, s.1.thenb b = cfg.thenb b ∧ s.1.elseb b = cfg.elseb b
  untouched : ∀ b, b ∉ visited ∨ b = cfg.deadBlock → s.1.block b = cfg.block b ∧ s.2 b = []
  analysed : ∀ b ∈ visited, b ≠ cfg.deadBlock → ∃ inn, Analysed cfg s.1 isSCIPRuby s.2 b inn ∧
    (visited.head? = some b → inn = [])

theorem start_passed : Passed cfg isSCIPRuby [] (cfg,fun _ => []) where
  basicBlocks := rfl
  localVariables := rfl
  ids := rfl
  order := rfl
  backEdges := fun _ => rfl
  exits := fun _ => ⟨rfl,rfl⟩
  untouched := fun _ _ => ⟨rfl,rfl⟩
  analysed := fun _ member => by cases member

section Pass
variable {cfg' : CFG (Binding Loc) Loc} {visited : List BlockId} {t : CFG (Binding Loc) Loc × (BlockId → Aliases Loc)}

theorem maybeDealias_congr (locals : cfg'.localVariables = cfg.localVariables) : cfg'.maybeDealias = cfg.maybeDealias := by
  funext what aliases
  unfold CFG.maybeDealias CFG.isSyntheticTemporary
  rw [locals]

theorem dealiasExprs_congr (locals : cfg'.localVariables = cfg.localVariables) (exprs : List (Binding Loc))
    (s : Dealiasing Loc) : cfg'.dealiasExprs isSCIPRuby exprs s = cfg.dealiasExprs isSCIPRuby exprs s := by
  have maybe := maybeDealias_congr locals
  have ident : cfg'.dealiasIdent = cfg.dealiasIdent := by
    funext loc aliases value
    cases value with
    | ident what => simp only [CFG.dealiasIdent,maybe]
    | _ => rfl
  have values : cfg'.dealiasValue = cfg.dealiasValue := by
    funext isSCIPRuby loc aliases value
    have arg : cfg'.dealiasArg = cfg.dealiasArg := by
      funext isSCIPRuby aliases arg
      simp only [CFG.dealiasArg,maybe]
    cases value with
    | ident what => simp only [CFG.dealiasValue,maybe]
    | send recv args receiverLoc => simp only [CFG.dealiasValue,maybe,arg]
    | tAbsurd what => simp only [CFG.dealiasValue,maybe]
    | return_ what => simp only [CFG.dealiasValue,maybe]
    | _ => rfl
  have binding : cfg'.dealiasBinding = cfg.dealiasBinding := by
    funext isSCIPRuby s bind
    simp only [CFG.dealiasBinding,ident,values]
  induction exprs generalizing s with
  | nil => rfl
  | cons bind exprs ih => simp only [CFG.dealiasExprs,binding,ih]

theorem Passed.deadBlock (passed : Passed cfg isSCIPRuby visited t) : t.1.deadBlock = cfg.deadBlock := by
  simp only [CFG.deadBlock,passed.basicBlocks]

-- The dead block is passed over.
theorem Passed.skip (passed : Passed cfg isSCIPRuby visited t) : Passed cfg isSCIPRuby (visited ++ [cfg.deadBlock]) t where
  basicBlocks := passed.basicBlocks
  localVariables := passed.localVariables
  ids := passed.ids
  order := passed.order
  backEdges := passed.backEdges
  exits := passed.exits
  untouched := by
    intro b either
    refine passed.untouched b ?_
    obtain absent | dead := either
    · exact .inl fun member => absent (List.mem_append_left _ member)
    · exact .inr dead
  analysed := by
    intro b member alive
    obtain before | here := List.mem_append.mp member
    · obtain ⟨inn,analysed,first⟩ := passed.analysed b before alive
      refine ⟨inn,analysed,fun head => first ?_⟩
      cases visited with
      | nil => cases before
      | cons _ _ => exact head
    · exact absurd (List.mem_singleton.mp here) alive

theorem setCode_other {exprs : List (Binding Loc)} {cond : LocalOccurrence Loc} (apart : b ≠ bb) :
    (cfg.setCode bb exprs cond).block b = cfg.block b := Function.update_of_ne apart ..

theorem setCode_self (exprs : List (Binding Loc)) (cond : LocalOccurrence Loc) :
    (cfg.setCode bb exprs cond).exprs bb = exprs ∧ (cfg.setCode bb exprs cond).cond bb = cond.variable_ := by
  simp only [CFG.setCode,CFG.exprs,CFG.cond,CFG.bexit,Function.update_self,and_self]

theorem setCode_backEdges (exprs : List (Binding Loc)) (cond : LocalOccurrence Loc) :
    (cfg.setCode bb exprs cond).backEdges b = cfg.backEdges b := by
  simp only [CFG.setCode,CFG.backEdges,Function.update_apply]
  split
  · rename_i same
    rw [same]
  · rfl

theorem setCode_exits (exprs : List (Binding Loc)) (cond : LocalOccurrence Loc) :
    (cfg.setCode bb exprs cond).thenb b = cfg.thenb b ∧ (cfg.setCode bb exprs cond).elseb b = cfg.elseb b := by
  simp only [CFG.setCode,CFG.thenb,CFG.elseb,CFG.bexit,Function.update_apply]
  split
  · rename_i same
    rw [same]
    exact ⟨rfl,rfl⟩
  · exact ⟨rfl,rfl⟩

theorem Passed.visit (passed : Passed cfg isSCIPRuby visited t) (fresh : bb ∉ visited) (alive : bb ≠ cfg.deadBlock) :
    Passed cfg isSCIPRuby (visited ++ [bb]) (CFG.dealiasBlock isSCIPRuby t bb) := by
  obtain ⟨now,outAliases⟩ := t
  have block := (passed.untouched bb (.inl fresh)).1
  have none_ : outAliases bb = [] := (passed.untouched bb (.inl fresh)).2
  have edges : now.meetBackEdges outAliases bb = cfg.meetBackEdges outAliases bb := by
    simp only [CFG.meetBackEdges,passed.backEdges]
  have exprs : now.exprs bb = cfg.exprs bb := congrArg (·.exprs) block
  have exit : now.bexit bb = cfg.bexit bb := congrArg (·.bexit) block
  let inn := cfg.meetBackEdges outAliases bb bb
  let done := cfg.dealiasExprs isSCIPRuby (cfg.exprs bb) ⟨inn,inn.targets⟩
  let cond := if (cfg.bexit bb).cond.variable_ ≠ LocalRef.unconditional then
    cfg.maybeDealias (cfg.bexit bb).cond done.2.current else (cfg.bexit bb).cond
  have step : CFG.dealiasBlock isSCIPRuby (now,outAliases) bb =
      (now.setCode bb done.1 cond,Function.update (cfg.meetBackEdges outAliases bb) bb done.2.current) := by
    have alive' : bb ≠ now.deadBlock := passed.deadBlock ▸ alive
    unfold CFG.dealiasBlock
    simp only [alive',if_false,edges,exprs,exit,dealiasExprs_congr passed.localVariables,
      maybeDealias_congr passed.localVariables]
    rfl
  rw [step]
  have maps : ∀ b, b ≠ bb → Function.update (cfg.meetBackEdges outAliases bb) bb done.2.current b = outAliases b :=
    fun b apart => (Function.update_of_ne apart ..).trans (meetBackEdges_other outAliases apart)
  refine ⟨passed.basicBlocks,passed.localVariables,passed.ids,passed.order,?_,?_,?_,?_⟩
  · exact fun b => (setCode_backEdges ..).trans (passed.backEdges b)
  · intro b
    have same := @setCode_exits _ now b bb done.1 cond
    exact ⟨same.1.trans (passed.exits b).1,same.2.trans (passed.exits b).2⟩
  · intro b either
    have apart : b ≠ bb := by
      rintro rfl
      obtain absent | dead := either
      · exact absent (List.mem_append_right _ (List.mem_singleton_self _))
      · exact alive dead
    have before := passed.untouched b (either.imp (fun absent member => absent (List.mem_append_left _ member)) id)
    exact ⟨(setCode_other apart).trans before.1,(maps b apart).trans before.2⟩
  · intro b member alive'
    obtain before | here := List.mem_append.mp member
    · have apart : b ≠ bb := fun same => fresh (same ▸ before)
      obtain ⟨inn',analysed,first⟩ := passed.analysed b before alive'
      have same : (now.setCode bb done.1 cond).block b = now.block b := setCode_other apart
      refine ⟨inn',⟨?_,?_,?_,?_⟩,fun head => first ?_⟩
      · intro p edge other
        by_cases here : p = bb
        · -- The map of bb was empty when b was met with it.
          have below := analysed.below p edge other
          subst here
          intro el member
          obtain ⟨_,there,_⟩ := below el member
          dsimp only at there
          rw [none_] at there
          cases there
        · dsimp only
          rw [maps p here]
          exact analysed.below p edge other
      · exact (congrArg (·.exprs) same).trans analysed.exprs
      · exact (maps b apart).trans analysed.aliases
      · exact (congrArg (fun block => block.bexit.cond.variable_) same).trans analysed.cond
      · cases visited with
        | nil => cases before
        | cons _ _ => exact head
    · obtain rfl := List.mem_singleton.mp here
      refine ⟨inn,⟨?_,?_,?_,?_⟩,?_⟩
      · intro p edge other
        dsimp only
        rw [maps p other]
        exact meetBackEdges_below outAliases p edge other
      · exact (setCode_self ..).1
      · exact Function.update_self ..
      · refine (setCode_self ..).2.trans ?_
        exact apply_ite LocalOccurrence.variable_ ..
      · intro head
        cases visited with
        | nil => exact meetBackEdges_nil outAliases fun b => (passed.untouched b (.inl (List.not_mem_nil))).2
        | cons first _ =>
          cases Option.some.inj head
          exact absurd List.mem_cons_self fresh

theorem foldl_passed (order : List BlockId) (once : (visited ++ order).Nodup) (passed : Passed cfg isSCIPRuby visited t) :
    Passed cfg isSCIPRuby (visited ++ order) (order.foldl (CFG.dealiasBlock isSCIPRuby) t) := by
  induction order generalizing visited t with
  | nil => simpa using passed
  | cons bb order ih =>
    have fresh : bb ∉ visited := fun early => (List.nodup_append.mp once).2.2 bb early bb List.mem_cons_self rfl
    rw [← List.singleton_append,← List.append_assoc] at once ⊢
    refine ih once ?_
    by_cases dead : bb = cfg.deadBlock
    · have skipped : CFG.dealiasBlock isSCIPRuby t bb = t := if_pos (dead.trans passed.deadBlock.symm)
      rw [skipped,dead]
      exact passed.skip
    · exact passed.visit fresh dead

-- The pass as a whole.
theorem dealias_passed (once : cfg.forwardsTopoSort.Nodup) : ∃ outAliases,
    Passed cfg isSCIPRuby cfg.forwardsTopoSort.reverse (cfg.dealias isSCIPRuby,outAliases) := by
  have once' : ([] ++ cfg.forwardsTopoSort.reverse).Nodup := List.nodup_reverse.mpr once
  exact ⟨_,foldl_passed cfg.forwardsTopoSort.reverse once' start_passed⟩

end Pass

section Runs
variable {outAliases : BlockId → Aliases Loc} {out : CFG (Binding Loc) Loc} {point : Point Loc Value}

theorem run_split (run : Run Value cfg trace point) : cfg.exprs point.block = point.done ++ point.rest := by
  induction run with
  | start => rfl
  | assign _ _ ih => simpa using ih
  | jump => rfl

theorem run_listed (sorted : Sorted cfg) (run : Run Value cfg trace point) : point.block ∈ cfg.forwardsTopoSort := by
  induction run with
  | start =>
    obtain ⟨rest,last⟩ := sorted.entryLast
    rw [← List.mem_reverse,last]
    exact List.mem_cons_self
  | assign _ _ ih => exact ih
  | jump _ _ edge ih =>
    obtain rfl | rfl := edge
    · exact (sorted.closed _ ih).1
    · exact (sorted.closed _ ih).2

theorem Tame.before {event : Event Loc} (tame : Tame cfg (trace ++ [event])) : Tame cfg trace where
  jumps := fun b member => tame.jumps b (List.mem_append_left _ member)
  temporaries := by
    intro pre bind post split
    exact tame.temporaries pre bind (post ++ [event]) (by simp [split])

-- What the pass knows at a point of an execution is so.
def Informed (cfg : CFG (Binding Loc) Loc) (isSCIPRuby : Bool) (inn : Aliases Loc) (trace : List (Event Loc))
    (point : Point Loc Value) : Prop :=
  let s := (cfg.dealiasExprs isSCIPRuby point.done ⟨inn,inn.targets⟩).2
  Covered s ∧ Holds cfg point.store s.current ∧ MadeBy trace s.current

theorem start_covered (inn : Aliases Loc) : Covered ⟨inn,inn.targets⟩ := by
  intro el member
  exact List.mem_toFinset.mpr (List.mem_map_of_mem member)

theorem Informed.assign {inn : Aliases Loc} {done rest : List (Binding Loc)} {value : Value}
    (informed : Informed cfg isSCIPRuby inn trace ⟨b,done,bind :: rest,store⟩)
    (copies : ∀ what, bind.value = .ident what → value = store what) (tame : Tame cfg (trace ++ [.assign bind])) :
    Informed cfg isSCIPRuby inn (trace ++ [.assign bind])
      ⟨b,done ++ [bind],rest,Function.update store bind.bind.variable_ value⟩ := by
  obtain ⟨covered,holds,made⟩ := informed
  unfold Informed
  dsimp only at covered holds made ⊢
  rw [dealiasExprs_append]
  refine ⟨dealiasBinding_covered covered,?_,dealiasBinding_madeBy made⟩
  refine dealiasBinding_holds covered holds copies fun other synthetic el member same => ?_
  obtain ⟨earlier,before,ident,key⟩ := made el member
  exact tame.temporaries trace bind [] rfl other synthetic earlier before ident (key.trans same)

-- A jump brings no more than the pass took over along it.
theorem Informed.jump {inn inn' : Aliases Loc} {done : List (Binding Loc)} {event : Event Loc}
    (informed : Informed cfg isSCIPRuby inn trace ⟨b,done,[],store⟩)
    (below : Below inn' (cfg.dealiasExprs isSCIPRuby done ⟨inn,inn.targets⟩).2.current) :
    Informed cfg isSCIPRuby inn' (trace ++ [event]) ⟨c,[],cfg.exprs c,store⟩ :=
  ⟨start_covered inn',below.holds informed.2.1,(below.madeBy informed.2.2).append⟩

theorem informed_nil (isSCIPRuby : Bool) (rest : List (Binding Loc)) (store : LocalRef → Value) :
    Informed cfg isSCIPRuby [] trace ⟨b,[],rest,store⟩ := by
  refine ⟨start_covered [],?_,?_⟩
  · intro el member
    cases member
  · intro el member
    cases member

-- At every point of a tame execution, in every block that the pass has been through.
theorem run_informed (sorted : Sorted cfg)
    (passed : Passed cfg isSCIPRuby cfg.forwardsTopoSort.reverse (out,outAliases))
    (run : Run Value cfg trace point) (tame : Tame cfg trace) (alive : point.block ≠ cfg.deadBlock) :
    ∃ inn, Analysed cfg out isSCIPRuby outAliases point.block inn ∧ Informed cfg isSCIPRuby inn trace point := by
  induction run with
  | start store =>
    obtain ⟨rest,last⟩ := sorted.entryLast
    obtain ⟨inn,analysed,first⟩ := passed.analysed cfg.entry (by rw [last]; exact List.mem_cons_self) alive
    have empty := first (by rw [last]; rfl)
    subst empty
    exact ⟨[],analysed,informed_nil isSCIPRuby _ store⟩
  | assign _ copies ih =>
    obtain ⟨inn,analysed,informed⟩ := ih tame.before alive
    exact ⟨inn,analysed,informed.assign copies tame⟩
  | @jump trace b c done store run alive' edge ih =>
    obtain ⟨inn,analysed,informed⟩ := ih tame.before alive'
    have apart : b ≠ c := fun same => tame.jumps b (by simp [same])
    have there := run_listed sorted (Run.jump run alive' edge)
    obtain ⟨inn',analysed',_⟩ := passed.analysed c (List.mem_reverse.mpr there) alive
    refine ⟨inn',analysed',informed.jump ?_⟩
    have edges := sorted.linked b (run_listed sorted run) alive'
    have known : b ∈ cfg.backEdges c := by
      obtain rfl | rfl := edge
      · exact edges.1
      · exact edges.2
    have below := analysed'.below b known apart
    dsimp only at below
    rw [analysed.aliases] at below
    have all : cfg.exprs b = done := by simpa using run_split run
    rw [all] at below
    exact below

end Runs

-- The rewritten instruction reads the values that the original one reads, and so does the rewritten condition.
def ReadsSame (cfg : CFG (Binding Loc) Loc) (isSCIPRuby : Bool) (point : Point Loc Value) : Prop :=
  (∀ bind rest, point.rest = bind :: rest → ∃ bind',
    ((cfg.dealias isSCIPRuby).exprs point.block)[point.done.length]? = some bind' ∧
    bind'.bind = bind.bind ∧ bind'.value.operands.map point.store = bind.value.operands.map point.store) ∧
  (point.rest = [] → point.store ((cfg.dealias isSCIPRuby).cond point.block) = point.store (cfg.cond point.block))

theorem dealias_reads_same (sorted : Sorted cfg) (isSCIPRuby : Bool) {point : Point Loc Value}
    (run : Run Value cfg trace point) (tame : Tame cfg trace) : ReadsSame cfg isSCIPRuby point := by
  obtain ⟨outAliases,passed⟩ := @dealias_passed _ cfg isSCIPRuby sorted.once
  have split := run_split run
  by_cases dead : point.block = cfg.deadBlock
  · have block := (passed.untouched point.block (.inr dead)).1
    dsimp only at block
    constructor
    · intro bind rest next
      refine ⟨bind,?_,rfl,rfl⟩
      have exprs : (cfg.dealias isSCIPRuby).exprs point.block = cfg.exprs point.block := congrArg (·.exprs) block
      rw [exprs,split,next]
      simp
    · intro _
      exact congrArg (fun block => point.store block.bexit.cond.variable_) block
  · obtain ⟨inn,analysed,informed⟩ := run_informed sorted passed run tame dead
    obtain ⟨_,holds,_⟩ := informed
    constructor
    · intro bind rest next
      refine ⟨(cfg.dealiasBinding isSCIPRuby (cfg.dealiasExprs isSCIPRuby point.done ⟨inn,inn.targets⟩).2 bind).1,?_,?_,?_⟩
      · rw [analysed.exprs,split,next,dealiasExprs_append]
        have size := @dealiasExprs_length _ cfg isSCIPRuby point.done ⟨inn,inn.targets⟩
        rw [← size,List.getElem?_append_right (Nat.le_refl _),Nat.sub_self]
        rfl
      · rw [dealiasBinding_fst]
      · rw [dealiasBinding_fst]
        exact dealiasedValue_values holds
    · intro last
      have all : cfg.exprs point.block = point.done := by simpa [last] using split
      rw [analysed.cond,all]
      split_ifs
      · exact maybeDealias_value holds _
      · rfl

section Samples

def written (variable_ : LocalRef) (value : Instruction Unit) : Binding Unit := ⟨⟨variable_,()⟩,(),value,false⟩

-- The locals 5 and 7 are the program's, 6 is a temporary.
def sampleLocals (local_ : LocalRef) : LocalVariable := if local_ = 6 then ⟨.statTemp,1⟩ else ⟨.other local_,0⟩

-- a = 1; t = a; t = 2; return t
def reassignedExprs : List (Binding Unit) :=
  [written 5 .literal,written 6 (.ident 5),written 6 .literal,written 4 (.return_ ⟨6,()⟩)]

def straightCfg (exprs : List (Binding Unit)) : CFG (Binding Unit) Unit where
  basicBlocks := [0,1]
  maxBasicBlockId := 2
  block := fun b => if b = 0 then ⟨0,exprs,⟨⟨LocalRef.unconditional,()⟩,1,1,()⟩,[]⟩ else
    ⟨0,[],⟨⟨LocalRef.unconditional,()⟩,1,1,()⟩,[0]⟩
  forwardsTopoSort := [1,0]
  localVariables := sampleLocals
  minLoops := fun _ => INT_MAX
  maxLoopWrite := fun _ => 0

theorem straightCfg_sorted (exprs : List (Binding Unit)) : Sorted (straightCfg exprs) where
  once := by simp [straightCfg]
  entryLast := ⟨[1],rfl⟩
  linked := by simp [straightCfg,CFG.deadBlock,CFG.backEdges,CFG.thenb,CFG.elseb,CFG.bexit]
  closed := by simp [straightCfg,CFG.thenb,CFG.elseb,CFG.bexit]

-- a = 1; t = a; begin u = f(t); a = 2 end while u, with the loop in one block.
def selfLoopCfg : CFG (Binding Unit) Unit where
  basicBlocks := [0,1,2]
  maxBasicBlockId := 3
  block := fun b =>
    match b with
    | 0 => ⟨0,[written 5 .literal,written 6 (.ident 5)],⟨⟨LocalRef.unconditional,()⟩,2,2,()⟩,[]⟩
    | 2 => ⟨1,[written 7 (.send ⟨6,()⟩ [] ()),written 5 .literal],⟨⟨7,()⟩,2,1,()⟩,[0,2]⟩
    | _ => ⟨0,[],⟨⟨LocalRef.unconditional,()⟩,1,1,()⟩,[2]⟩
  forwardsTopoSort := [1,2,0]
  localVariables := sampleLocals
  minLoops := fun _ => INT_MAX
  maxLoopWrite := fun _ => 0

theorem selfLoopCfg_sorted : Sorted selfLoopCfg where
  once := by decide
  entryLast := ⟨[2,1],rfl⟩
  linked := by decide
  closed := by decide

theorem Run.literal {cfg : CFG (Binding Unit) Unit} {trace : List (Event Unit)} {b : BlockId} {bind : Binding Unit}
    {done rest : List (Binding Unit)} {store : LocalRef → Nat} (run : Run Nat cfg trace ⟨b,done,bind :: rest,store⟩)
    (value : Nat) (other : bind.value.isIdent = false) : Run Nat cfg (trace ++ [.assign bind])
      ⟨b,done ++ [bind],rest,Function.update store bind.bind.variable_ value⟩ := by
  refine run.assign fun what same => ?_
  rw [same] at other
  cases other

theorem Run.copy {cfg : CFG (Binding Unit) Unit} {trace : List (Event Unit)} {b : BlockId} {bind : Binding Unit}
    {done rest : List (Binding Unit)} {store : LocalRef → Nat} {what : LocalRef}
    (run : Run Nat cfg trace ⟨b,done,bind :: rest,store⟩) (ident : bind.value = .ident what) :
    Run Nat cfg (trace ++ [.assign bind])
      ⟨b,done ++ [bind],rest,Function.update store bind.bind.variable_ (store what)⟩ := by
  refine run.assign fun other same => ?_
  cases ident.symm.trans same
  rfl

-- A rewritten operand with another value.
theorem not_readsSame {cfg : CFG (Binding Unit) Unit} {point : Point Unit Nat} {bind : Binding Unit}
    {rest : List (Binding Unit)} (operands : List LocalRef) (next : point.rest = bind :: rest)
    (rewritten : ((cfg.dealias true).exprs point.block)[point.done.length]?.map (·.value.operands) = some operands)
    (differ : operands.map point.store ≠ bind.value.operands.map point.store) : ¬ ReadsSame cfg true point := by
  intro same
  obtain ⟨bind',there,_,values⟩ := same.1 bind rest next
  rw [there] at rewritten
  cases Option.some.inj rewritten
  exact differ values

-- The second value of the temporary, and the second round of the loop, are read from a.
theorem dealias_reads_other :
    (Sorted (straightCfg reassignedExprs) ∧ ∃ trace point, Run Nat (straightCfg reassignedExprs) trace point ∧
      ¬ ReadsSame (straightCfg reassignedExprs) true point) ∧
    Sorted selfLoopCfg ∧ ∃ trace point, Run Nat selfLoopCfg trace point ∧ ¬ ReadsSame selfLoopCfg true point := by
  constructor
  · have first : Run Nat (straightCfg reassignedExprs) [] _ := .start fun _ => 0
    have second := first.literal 1 rfl
    have third := second.copy rfl
    have fourth := third.literal 2 rfl
    exact ⟨straightCfg_sorted _,_,_,fourth,not_readsSame [5] rfl (by decide) (by decide)⟩
  · have first : Run Nat selfLoopCfg [] _ := .start fun _ => 0
    have second := first.literal 1 rfl
    have third := second.copy rfl
    have inside := third.jump (c := 2) (by decide) (.inl rfl)
    have called := inside.literal 3 rfl
    have last := called.literal 2 rfl
    have again := last.jump (c := 2) (by decide) (.inl rfl)
    exact ⟨selfLoopCfg_sorted,_,_,again,not_readsSame [5] rfl (by decide) (by decide)⟩

-- a = 1; t = a; return t
def returnedExprs : List (Binding Unit) := [written 5 .literal,written 6 (.ident 5),written 4 (.return_ ⟨6,()⟩)]

theorem returned_tame : Tame (straightCfg returnedExprs) [.assign (written 5 .literal),.assign (written 6 (.ident 5))] where
  jumps := by simp
  temporaries := by
    intro pre bind post split other synthetic
    have member : Event.assign bind ∈ [.assign (written 5 .literal),.assign (written 6 (.ident 5))] := by simp [split]
    simp only [List.mem_cons,List.not_mem_nil,or_false,Event.assign.injEq] at member
    obtain rfl | rfl := member
    · exact absurd synthetic (by decide)
    · cases other

theorem dealias_reads_same_returned : ∃ trace point, Run Nat (straightCfg returnedExprs) trace point ∧
    Tame (straightCfg returnedExprs) trace ∧ point.rest ≠ [] ∧ ReadsSame (straightCfg returnedExprs) true point := by
  have first : Run Nat (straightCfg returnedExprs) [] _ := .start fun _ => 0
  have third := (first.literal 1 rfl).copy rfl
  exact ⟨_,_,third,returned_tame,List.cons_ne_nil _ _,dealias_reads_same (straightCfg_sorted _) true third returned_tame⟩

end Samples

end Cfg
