import ScipRuby.Scip.SymbolString

namespace Scip

-- A file is named by its index; index 0 is the file that does not exist.
abbrev FileRef := Nat

def FileRef.exists (file : FileRef) : Bool := file != 0

def invalidPosLoc : Nat := 4294967295

-- core::LocOffsets. Its constructor asks for ordered ends.
structure LocOffsets where
  beginLoc : Nat
  endLoc : Nat
  ordered : beginLoc ≤ endLoc := by decide
  deriving DecidableEq

def LocOffsets.none : LocOffsets := ⟨invalidPosLoc,invalidPosLoc,Nat.le_refl _⟩

def LocOffsets.exists (offsets : LocOffsets) : Bool :=
  offsets.endLoc != invalidPosLoc && offsets.beginLoc != invalidPosLoc

def LocOffsets.empty (offsets : LocOffsets) : Bool := offsets.beginLoc == offsets.endLoc

-- core::Loc, the offsets together with their file.
structure Loc where
  file : FileRef
  offsets : LocOffsets
  deriving DecidableEq

def Loc.none : Loc := ⟨0,.none⟩

def Loc.exists (loc : Loc) : Bool := loc.file.exists && loc.offsets.exists

def Loc.empty (loc : Loc) : Bool := loc.offsets.empty

-- The test that guards every definition.
def Loc.usable (loc : Loc) : Bool := loc.exists && !loc.empty

-- One Char stands for one byte, so that positions are byte offsets.
structure File where
  path : Str
  source : Str

abbrev Files := FileRef → File

-- The slice of string_view::substr; a begin past the end would throw there.
def Loc.source (files : Files) (loc : Loc) : Option Str :=
  if loc.exists then
    some (((files loc.file).source.drop loc.offsets.beginLoc).take (loc.offsets.endLoc - loc.offsets.beginLoc))
  else Option.none

def newlines : Nat → Str → List Nat
  | _,[] => []
  | pos,c :: rest => if c = '\n' then pos :: newlines (pos + 1) rest else newlines (pos + 1) rest

def findLineBreaks (text : Str) : List Nat := newlines 0 text ++ [text.length]

-- Both counted from 1.
structure Detail where
  line : Nat
  column : Nat
  deriving DecidableEq,Repr

-- std::lower_bound on the sorted breaks is the length of the run below off.
def pos2Detail (source : Str) (off : Nat) : Detail :=
  let below := (findLineBreaks source).takeWhile (· < off)
  match below.getLast? with
  | none => ⟨1,off + 1⟩
  | some last => ⟨below.length + 1,off - last⟩

def Loc.toDetails (files : Files) (loc : Loc) : Detail × Detail :=
  (pos2Detail (files loc.file).source loc.offsets.beginLoc,pos2Detail (files loc.file).source loc.offsets.endLoc)

-- Three numbers for a range inside one line, four for a longer one.
def fromSorbetLoc (files : Files) (loc : Loc) : List Nat :=
  let (start,stop) := loc.toDetails files
  [start.line - 1,start.column - 1] ++ (if start.line ≠ stop.line then [stop.line - 1] else []) ++ [stop.column - 1]

-- string_view::rfind, the last place where the needle starts.
def rfind (needle : Str) : Str → Option Nat
  | [] => if needle = [] then some 0 else none
  | c :: rest =>
    match rfind needle rest with
    | some at' => some (at' + 1)
    | none => if needle.isPrefixOf (c :: rest) then some 0 else none

def trimColonColonPrefix (files : Files) (baseLoc : Loc) : Loc :=
  match baseLoc.source files with
  | none => baseLoc
  | some source =>
    match rfind [':',':'] source with
    | none => baseLoc
    | some offset =>
      let occLen := source.length - (offset + 2)
      ⟨baseLoc.file,⟨baseLoc.offsets.endLoc - occLen,baseLoc.offsets.endLoc,Nat.sub_le _ _⟩⟩

@[simp] theorem trimColonColonPrefix_file (files : Files) (loc : Loc) :
    (trimColonColonPrefix files loc).file = loc.file := by
  unfold trimColonColonPrefix
  split
  · rfl
  · split <;> rfl

-- The range that an occurrence at this location gets, if it gets one: ranges
-- over several lines are not emitted.
def occurrenceRange (files : Files) (loc : Loc) : Option (List Nat) :=
  let range := fromSorbetLoc files (trimColonColonPrefix files loc)
  if range.length = 4 then none else some range

end Scip
