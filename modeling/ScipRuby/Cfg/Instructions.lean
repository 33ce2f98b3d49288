import ScipRuby.Cfg.Simplify

namespace Cfg

-- The names of locals that the program tells apart: those of isSyntheticTemporary, those that the indexer takes
-- for temporaries too, and those of anonymous parameters. The others are the source's own.
inductive LocalName where
  | unique (id : Nat)
  | whileTemp
  | ifTemp
  | returnTemp
  | statTemp
  | assignTemp
  | returnMethodTemp
  | blockReturnTemp
  | nextTemp
  | selfMethodTemp
  | selfLocal
  | selfRestore
  | hashTemp
  | arrayTemp
  | rescueTemp
  | exceptionValue
  | exceptionClassTemp
  | gotoDeadTemp
  | isaCheckTemp
  | throwAwayTemp
  | castTemp
  | finalReturn
  | cfgAlias
  | magic
  | blockPreCallTemp
  | blockTemp
  | blockPassTemp
  | blkArg
  | implicitYield
  | keepForIde
  | blockCall
  | blockBreakAssign
  | argPresent
  | forTemp
  | keepForCfgTemp
  | noName
  | unconditional
  | ampersand
  | star
  | starStar
  | fwdArgs
  | fwdKwargs
  | fwdBlock
  | other (id : Nat)
  deriving DecidableEq, Repr

structure LocalVariable where
  name : LocalName
  unique : Nat
  deriving DecidableEq, Repr

namespace LocalVariable

def isSyntheticTemporary (variable_ : LocalVariable) : Bool :=
  match variable_.name with
  | .unique _ => true
  | .whileTemp | .ifTemp | .returnTemp | .statTemp | .assignTemp | .returnMethodTemp | .blockReturnTemp | .nextTemp
  | .selfMethodTemp | .selfLocal | .selfRestore | .hashTemp | .arrayTemp | .rescueTemp | .exceptionValue
  | .exceptionClassTemp | .gotoDeadTemp | .isaCheckTemp | .throwAwayTemp | .castTemp | .finalReturn | .cfgAlias
  | .magic => variable_.unique ≠ 0
  | _ => false

def isAliasForGlobal (variable_ : LocalVariable) : Bool := variable_.name = .cfgAlias

end LocalVariable

-- The locals of each instruction and where they stand; names, types, symbols and links are left out.
inductive Instruction (Loc : Type) where
  | ident (what : LocalRef)
  | alias
  | solveConstraint (send : LocalRef)
  | send (recv : LocalOccurrence Loc) (args : List (LocalOccurrence Loc)) (receiverLoc : Loc)
  | return_ (what : LocalOccurrence Loc)
  | blockReturn (what : LocalOccurrence Loc)
  | loadSelf (fallback : LocalRef)
  | literal
  | getCurrentException
  | loadArg
  | argPresent
  | loadYieldParams
  | yieldParamPresent
  | yieldLoadArg (yieldParam : LocalOccurrence Loc)
  | cast (value : LocalOccurrence Loc)
  | tAbsurd (what : LocalOccurrence Loc)
  | keepAlive (what : LocalRef)

structure Binding (Loc : Type) where
  bind : LocalOccurrence Loc
  loc : Loc
  value : Instruction Loc
  isSynthetic : Bool

variable {Loc : Type}

namespace Instruction

-- The locals that an instruction reads, as findAllReadsAndWrites adds them.
def operands : Instruction Loc → List LocalRef
  | .ident what => [what]
  | .send recv args _ => recv.variable_ :: args.map (·.variable_)
  | .tAbsurd what => [what.variable_]
  | .return_ what => [what.variable_]
  | .blockReturn what => [what.variable_]
  | .cast value => [value.variable_]
  | .loadSelf fallback => [fallback]
  | .solveConstraint sent => [sent]
  | .yieldLoadArg yieldParam => [yieldParam.variable_]
  | .keepAlive what => [what]
  | .alias | .literal | .getCurrentException | .loadArg | .argPresent | .loadYieldParams | .yieldParamPresent => []

def isIdent : Instruction Loc → Bool
  | .ident _ => true
  | _ => false

def isAlias : Instruction Loc → Bool
  | .alias => true
  | _ => false

end Instruction

end Cfg
