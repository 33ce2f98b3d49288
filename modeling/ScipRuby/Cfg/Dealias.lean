import ScipRuby.Cfg.BlockArguments

namespace Cfg
variable {Loc : Type}

-- The map from a local to the occurrence it is an alias of.
abbrev Aliases (Loc : Type) := List (LocalRef × LocalOccurrence Loc)

namespace Aliases

def find (aliases : Aliases Loc) (local_ : LocalRef) : Option (LocalOccurrence Loc) :=
  (aliases.find? (·.1 = local_)).map (·.2)

def set (aliases : Aliases Loc) (local_ : LocalRef) (occurrence : LocalOccurrence Loc) : Aliases Loc :=
  (local_,occurrence) :: aliases.filter (·.1 ≠ local_)

-- The entries on which another map agrees.
def meet (aliases other : Aliases Loc) : Aliases Loc :=
  aliases.filter fun el =>
    match other.find el.1 with
    | some occurrence => occurrence.variable_ = el.2.variable_
    | none => false

def targets (aliases : Aliases Loc) : Finset LocalRef := (aliases.map (·.2.variable_)).toFinset

end Aliases

namespace CFG
variable (cfg : CFG (Binding Loc) Loc)

def maybeDealias (what : LocalOccurrence Loc) (aliases : Aliases Loc) : LocalOccurrence Loc :=
  if cfg.isSyntheticTemporary what.variable_ then (aliases.find what.variable_).getD what else what

-- Of an Ident the place is not kept, so that any one will do for it.
def dealiasIdent (loc : Loc) (aliases : Aliases Loc) : Instruction Loc → Instruction Loc
  | .ident what => .ident (cfg.maybeDealias ⟨what,loc⟩ aliases).variable_
  | value => value

def dealiasArg (isSCIPRuby : Bool) (aliases : Aliases Loc) (arg : LocalOccurrence Loc) : LocalOccurrence Loc :=
  let occurrence := cfg.maybeDealias arg aliases
  ⟨occurrence.variable_,if isSCIPRuby then occurrence.loc else arg.loc⟩

def dealiasValue (isSCIPRuby : Bool) (loc : Loc) (aliases : Aliases Loc) : Instruction Loc → Instruction Loc
  | .ident what => .ident (cfg.maybeDealias ⟨what,loc⟩ aliases).variable_
  | .send recv args receiverLoc =>
    .send (cfg.maybeDealias recv aliases) (args.map (cfg.dealiasArg isSCIPRuby aliases)) receiverLoc
  | .tAbsurd what => .tAbsurd (cfg.maybeDealias what aliases)
  | .return_ what => .return_ (cfg.maybeDealias what aliases)
  | value => value

end CFG

-- Where the pass is in a block: mayHaveAlias holds the targets of all aliases, and perhaps more.
structure Dealiasing (Loc : Type) where
  current : Aliases Loc
  mayHaveAlias : Finset LocalRef

namespace CFG
variable (cfg : CFG (Binding Loc) Loc)

def dealiasBinding (isSCIPRuby : Bool) (s : Dealiasing Loc) (bind : Binding Loc) : Binding Loc × Dealiasing Loc :=
  let value := cfg.dealiasIdent bind.loc s.current bind.value
  let current :=
    if bind.bind.variable_ ∈ s.mayHaveAlias then s.current.filter (·.2.variable_ ≠ bind.bind.variable_) else s.current
  -- Values are not dealiased into synthetic instructions, as that would fool the dead code analysis.
  let value := if bind.isSynthetic then value else cfg.dealiasValue isSCIPRuby bind.loc current value
  match value with
  | .ident what =>
    ({bind with value := value},⟨Aliases.set current bind.bind.variable_ ⟨what,bind.loc⟩,insert what s.mayHaveAlias⟩)
  | _ => ({bind with value := value},⟨current,s.mayHaveAlias⟩)

def dealiasExprs (isSCIPRuby : Bool) : List (Binding Loc) → Dealiasing Loc → List (Binding Loc) × Dealiasing Loc
  | [],s => ([],s)
  | bind :: exprs,s =>
    let first := cfg.dealiasBinding isSCIPRuby s bind
    let rest := dealiasExprs isSCIPRuby exprs first.2
    (first.1 :: rest.1,rest.2)

-- The map of the block that is being filled is one of outAliases, so that a block that jumps to itself meets its
-- own half-made map.
def meetBackEdges (outAliases : BlockId → Aliases Loc) (bb : BlockId) : BlockId → Aliases Loc :=
  match cfg.backEdges bb with
  | [] => outAliases
  | first :: rest =>
    rest.foldl (fun outAliases parent =>
      Function.update outAliases bb ((outAliases bb).meet (outAliases parent)))
      (Function.update outAliases bb (outAliases first))

def setCode (b : BlockId) (exprs : List (Binding Loc)) (cond : LocalOccurrence Loc) : CFG (Binding Loc) Loc :=
  let block := cfg.block b
  {cfg with block := Function.update cfg.block b {block with exprs := exprs,bexit := {block.bexit with cond := cond}}}

def dealiasBlock (isSCIPRuby : Bool) (s : CFG (Binding Loc) Loc × (BlockId → Aliases Loc)) (bb : BlockId) :
    CFG (Binding Loc) Loc × (BlockId → Aliases Loc) :=
  let cfg := s.1
  if bb = cfg.deadBlock then s
  else
    let outAliases := cfg.meetBackEdges s.2 bb
    let done := cfg.dealiasExprs isSCIPRuby (cfg.exprs bb) ⟨outAliases bb,(outAliases bb).targets⟩
    let cond := (cfg.bexit bb).cond
    let cond := if cond.variable_ ≠ LocalRef.unconditional then cfg.maybeDealias cond done.2.current else cond
    (cfg.setCode bb done.1 cond,Function.update outAliases bb done.2.current)

def dealias (isSCIPRuby : Bool) : CFG (Binding Loc) Loc :=
  (cfg.forwardsTopoSort.reverse.foldl (dealiasBlock isSCIPRuby) (cfg,fun _ => [])).1

end CFG

end Cfg
