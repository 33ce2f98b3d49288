import ScipRuby.Cfg.DeadAssigns
import ScipRuby.Scip.SymbolRef

namespace Scip.Locals
open Cfg (BlockId LocalRef LocalName LocalVariable LocalOccurrence Instruction)

abbrev Binding := Cfg.Binding LocOffsets
abbrev CFG := Cfg.CFG Binding LocOffsets

def usable (loc : LocOffsets) : Bool := loc.exists && !loc.empty

-- The constructor of LocOffsets refuses other ends.
def between (beginPos endPos : Nat) : LocOffsets :=
  if ordered : beginPos ≤ endPos then ⟨beginPos,endPos,ordered⟩ else .none

def isTemporary (var : LocalVariable) : Bool :=
  var.isSyntheticTemporary ||
  match var.name with
  | .blockPreCallTemp | .blockTemp | .blockPassTemp | .blkArg | .implicitYield | .keepForIde | .blockCall
  | .blockBreakAssign | .argPresent | .forTemp | .keepForCfgTemp | .finalReturn | .noName | .selfLocal
  | .unconditional => true
  | _ => false

-- What one traversal looks things up in: the file, the names, the keyword parameters of the method with the places
-- where they are declared, and the symbols that locals are aliases of.
structure Context where
  files : Files
  file : FileRef
  shortName : LocalName → Str
  isStaticInit : Bool
  keywordParameters : LocalVariable → Option LocOffsets
  aliasMap : LocalRef → Option GenericSymbolRef

namespace Context
variable (ctx : Context)

def source (loc : LocOffsets) : Option Str := Loc.source ctx.files ⟨ctx.file,loc⟩

def adjustLen (loc : LocOffsets) (beginAdjust : Int) (len : Nat) : LocOffsets :=
  let newBegin : Int := loc.beginLoc + beginAdjust
  if !(Loc.exists ⟨ctx.file,loc⟩) || newBegin < 0 || newBegin + len > (ctx.files ctx.file).source.length then .none
  else between newBegin.toNat (newBegin.toNat + len)

def keywordNameLoc (loc : LocOffsets) (name : LocalName) : LocOffsets :=
  if !loc.exists || loc.empty then .none
  else
    match ctx.source loc with
    | none => .none
    | some text =>
      let (text,beginPos,endPos) :=
        if text.getLast? = some ':' then (text.dropLast,loc.beginLoc,loc.endLoc - 1)
        else if text.head? = some ':' then (text.tail,loc.beginLoc + 1,loc.endLoc)
        else (text,loc.beginLoc,loc.endLoc)
      let quoted := decide (text.length ≥ 2) && (text.head? = some '\'' || text.head? = some '"') &&
        text.getLast? = text.head?
      let (text,beginPos,endPos) :=
        if quoted then (text.tail.dropLast,beginPos + 1,endPos - 1) else (text,beginPos,endPos)
      if text = ctx.shortName name then between beginPos endPos else .none

-- Just the name, where the location has a trailing colon.
def nameLoc (loc : LocOffsets) (name : LocalName) : LocOffsets :=
  match ctx.source loc with
  | some text =>
    if text.getLast? = some ':' && text.dropLast = ctx.shortName name then between loc.beginLoc (loc.endLoc - 1) else loc
  | none => loc

end Context

inductive ValueCategory where
  | lvalue
  | rvalue
  deriving DecidableEq,Repr

-- One call of emitLocalOccurrence; the types of the occurrences are left out.
structure Mention where
  occurrence : LocalOccurrence LocOffsets
  valueCategory : ValueCategory

def Mention.local_ (mention : Mention) : LocalRef := mention.occurrence.variable_

-- An occurrence with its role: the block and the call it comes from, the location and the symbol it is saved
-- with, and whether as a definition.
structure Role where
  block : BlockId
  mention : Mention
  loc : LocOffsets
  id : Nat
  symRef : Option GenericSymbolRef
  isDefinition : Bool

def Role.local_ (role : Role) : LocalRef := role.mention.local_

inductive Saved where
  | parameter (id : Nat) (loc : LocOffsets)
  | keyword (local_ : LocalVariable) (loc : LocOffsets) (valueCategory : ValueCategory)
  | anonymous (id : Nat) (loc : LocOffsets)
  | role (role : Role)

def Saved.role? : Saved → Option Role
  | .role found => some found
  | _ => none

structure AnonymousParameter where
  id : Nat
  loc : LocOffsets

-- A method has fewer locals than LocalRef has values, so that counter does not wrap.
structure CFGTraversal where
  blockLocals : BlockId → Option (Finset LocalRef)
  functionLocals : LocalRef → Option Nat
  anonymousParameters : LocalName → Option AnonymousParameter
  counter : Nat
  saved : List Saved

namespace CFGTraversal

def initial : CFGTraversal := ⟨fun _ => none,fun _ => none,fun _ => none,0,[]⟩

variable (s : CFGTraversal)

-- The occurrences of locals, those of parameters apart.
def roles : List Role := s.saved.filterMap Saved.role?

def locals (bb : BlockId) : Finset LocalRef := (s.blockLocals bb).getD ∅

def insertLocal (bb : BlockId) (localRef : LocalRef) : CFGTraversal :=
  {s with blockLocals := Function.update s.blockLocals bb (some (insert localRef (s.locals bb)))}

def addLocal (bb : BlockId) (localRef : LocalRef) : CFGTraversal :=
  let s := {s with counter := s.counter + 1}
  let s := s.insertLocal bb localRef
  {s with functionLocals := Function.update s.functionLocals localRef (some s.counter)}

def save (saved : Saved) : CFGTraversal := {s with saved := s.saved ++ [saved]}

-- The names that an anonymous parameter goes by, after its token.
def anonymousNames (source : Option Str) : List LocalName :=
  if source = some "&".toList then [.ampersand]
  else if source = some "*".toList then [.star,.fwdArgs]
  else if source = some "**".toList then [.starStar,.fwdKwargs]
  else if source = some "...".toList then [.fwdArgs,.fwdKwargs,.fwdBlock]
  else []

def defineAnonymousParameter (ctx : Context) (s : CFGTraversal) (loc : LocOffsets) : CFGTraversal :=
  let source := ctx.source loc
  let names := anonymousNames source
  if names = [] then s
  else if source = some "...".toList ∧ (s.anonymousParameters .fwdArgs).isSome then s
  else
    let parameter : AnonymousParameter := ⟨s.counter + 1,loc⟩
    {s with
      counter := s.counter + 1
      anonymousParameters := fun name => if name ∈ names then some parameter else s.anonymousParameters name
      saved := s.saved ++ [.parameter parameter.id loc]}

-- The parameters of the tree, those that are plain locals with their locations, as far as the method's own
-- list of parameters goes.
def defineAnonymousParameters (ctx : Context) (params : List (Option LocOffsets)) (arity : Nat)
    (s : CFGTraversal) : CFGTraversal :=
  ((params.take arity).filterMap id).foldl (defineAnonymousParameter ctx) s

-- A parent that has not been visited has nothing to give, e.g. in a loop.
def copyLocals (bbLocals : Finset LocalRef) (parentBB : BlockId) : Finset LocalRef :=
  match s.blockLocals parentBB with
  | none => bbLocals
  | some parentLocals => bbLocals ∪ parentLocals

def copyLocalsFromParents (cfg : CFG) (bb : BlockId) : CFGTraversal :=
  let bbLocals := (cfg.backEdges bb).foldl s.copyLocals ∅
  {s with blockLocals := Function.update s.blockLocals bb (some bbLocals)}

-- The part of emitLocalOccurrence that gives a local its id and its role.
def emitRole (bb : BlockId) (mention : Mention) (loc : LocOffsets) (symRef : Option GenericSymbolRef) : CFGTraversal :=
  let localRef := mention.local_
  let s' :=
    if (s.functionLocals localRef).isNone then s.addLocal bb localRef
    else if localRef ∉ s.locals bb then s.insertLocal bb localRef
    else s
  let isDefinition := decide (mention.valueCategory = .lvalue) &&
    ((s.functionLocals localRef).isNone || decide (localRef ∉ s.locals bb))
  s'.save (.role ⟨bb,mention,loc,(s'.functionLocals localRef).getD 0,symRef,isDefinition⟩)

def emitLocalOccurrence (ctx : Context) (cfg : CFG) (bb : BlockId) (s : CFGTraversal) (mention : Mention) :
    CFGTraversal :=
  let loc := mention.occurrence.loc
  let localRef := mention.local_
  let localVar := cfg.localVariables localRef
  match ctx.keywordParameters localVar with
  | some declared =>
    let loc := ctx.keywordNameLoc loc localVar.name
    if !loc.exists || (mention.valueCategory = .lvalue && loc = declared) then s
    else s.save (.keyword localVar loc mention.valueCategory)
  | none =>
    match (if localVar.unique = 0 then s.anonymousParameters localVar.name else none) with
    | some parameter =>
      if mention.valueCategory = .lvalue then s
      else
        let loc :=
          if loc.exists && loc.empty && decide (loc.beginLoc > 0) && localVar.name = .ampersand then
            ctx.adjustLen loc (-1) 1
          else loc
        if !loc.exists || loc.empty || ctx.source loc ≠ ctx.source parameter.loc then s
        else s.save (.anonymous parameter.id loc)
    | none =>
      if !loc.exists || loc.empty then s
      else
        match ctx.aliasMap localRef with
        | some symRef => if symRef.kind = .type then s else s.emitRole bb mention loc (some symRef)
        | none =>
          if isTemporary localVar then s else s.emitRole bb mention (ctx.nameLoc loc localVar.name) none

end CFGTraversal

section Bindings
variable (ctx : Context) (cfg : CFG)

def finalReturn : LocalRef := 4

def lhsLocIfPresent (binding : Binding) : LocOffsets :=
  if binding.bind.loc.exists then binding.bind.loc else binding.loc

def skipProcessing (binding : Binding) : Bool := !(usable binding.loc || usable binding.bind.loc)

def lhsMentions (binding : Binding) : List Mention :=
  match binding.value with
  | .alias | .argPresent => []
  | _ => [⟨⟨binding.bind.variable_,lhsLocIfPresent binding⟩,.lvalue⟩]

def rhsMentions (binding : Binding) : List Mention :=
  match binding.value with
  | .ident what =>
    if ctx.isStaticInit ∧ (cfg.localVariables binding.bind.variable_).name = .returnMethodTemp then []
    else [⟨⟨what,binding.loc⟩,.rvalue⟩]
  | .send recv args receiverLoc =>
    (if usable recv.loc then [⟨recv,.rvalue⟩] else []) ++
      (args.filter (·.loc ≠ receiverLoc)).map fun arg => ⟨arg,.rvalue⟩
  | .return_ what =>
    if ctx.isStaticInit ∧ binding.bind.variable_ = finalReturn then [] else [⟨what,.rvalue⟩]
  | .blockReturn what => [⟨⟨what.variable_,if what.loc.exists then what.loc else binding.loc⟩,.rvalue⟩]
  | .cast value => [⟨⟨value.variable_,binding.loc⟩,.rvalue⟩]
  | .alias | .literal | .keepAlive _ | .solveConstraint _ | .tAbsurd _ | .loadSelf _ | .yieldLoadArg _
  | .getCurrentException | .loadArg | .argPresent | .loadYieldParams | .yieldParamPresent => []

-- The calls for a binding in their order: what it assigns first, then what it reads.
def bindingMentions (binding : Binding) : List Mention :=
  if skipProcessing binding then [] else lhsMentions binding ++ rhsMentions ctx cfg binding

def mentions (bb : BlockId) : List Mention := (cfg.exprs bb).flatMap (bindingMentions ctx cfg)

def visitBlock (s : CFGTraversal) (bb : BlockId) : CFGTraversal :=
  (cfg.exprs bb).foldl
    (fun s binding => (bindingMentions ctx cfg binding).foldl (CFGTraversal.emitLocalOccurrence ctx cfg bb) s)
    (s.copyLocalsFromParents cfg bb)

-- Without a method definition there are no parameters. The aliases that no occurrence has used are saved
-- afterwards and are left out.
def traverse (params : List (Option LocOffsets)) (arity : Nat) : CFGTraversal :=
  cfg.forwardsTopoSort.reverse.foldl (visitBlock ctx cfg)
    (CFGTraversal.initial.defineAnonymousParameters ctx params arity)

end Bindings

end Scip.Locals
