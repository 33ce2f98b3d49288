import ScipRuby.Names.Reachable
import ScipRuby.Serialize.Codec

namespace Serialize
open Names GlobalState

def version : UInt32 := 7

section Names

def uniqueNameKinds : List UniqueNameKind :=
  [.desugar,.namer,.mangleRename,.singleton,.overload,.typeVarName,.positionalArg,.mangledKeywordArg,
    .resolverMissingClass,.tEnum,.struct,.packager,.desugarCsend]

-- The enumerator as a byte, and the cast back.
def uniqueNameKindByte (kind : UniqueNameKind) : UInt8 := UInt8.ofNat kind.ctorIdx
def uniqueNameKindOfByte (byte : UInt8) : Option UniqueNameKind := uniqueNameKinds[byte.toNat]?

def pickleUTF8Name (what : UTF8Name) : List Put := [.str what.utf8]
def pickleConstantName (what : ConstantName) : List Put := [.u4 what.original.rawId]
def pickleUniqueName (what : UniqueName) : List Put :=
  [.u4 what.original.rawId,.u4 what.num,.u1 (uniqueNameKindByte what.uniqueNameKind)]

def unpickleUTF8Name : Reader UTF8Name := do
  let utf8 ← .str
  pure ⟨utf8⟩

def unpickleConstantName : Reader ConstantName := do
  let original ← .u4
  pure ⟨⟨original⟩⟩

def unpickleUniqueName : Reader UniqueName := do
  let original ← .u4
  let num ← .u4
  let byte ← .u1
  let uniqueNameKind ← .ofOption (uniqueNameKindOfByte byte)
  pure ⟨⟨original⟩,num,uniqueNameKind⟩

def pickleName : Name → List Put
  | .utf8 name => pickleUTF8Name name
  | .unique name => pickleUniqueName name
  | .constant name => pickleConstantName name

def unpickleName : NameKind → Reader Name
  | .utf8 => do
    let name ← unpickleUTF8Name
    pure (.utf8 name)
  | .unique => do
    let name ← unpickleUniqueName
    pure (.unique name)
  | .constant => do
    let name ← unpickleConstantName
    pure (.constant name)

end Names

section Tables
variable (xxh32 : List UInt8 → UInt32)

-- utf8NamesWritten_, constantNamesWritten_ and uniqueNamesWritten_.
abbrev Written := NameKind → Nat

def nothingWritten : Written := fun _ => 0
def markNameTableAsCached (gs : GlobalState) : Written := gs.size

def wasNameTableModified (gs : GlobalState) (written : Written) : Prop :=
  gs.size .utf8 > written .utf8 ∨ gs.size .constant > written .constant ∨ gs.size .unique > written .unique

-- One entry of a table: its hash, then the name.
def pickleEntry (content : Name) : List Put := .u4 (hashMix xxh32 content) :: pickleName content

def pickleTable (gs : GlobalState) (kind : NameKind) : List Put :=
  .u4 (UInt32.ofNat (gs.size kind)) :: (gs.contents kind).flatMap (pickleEntry xxh32)

def pickleNameTable (gs : GlobalState) : List Put :=
  .u4 (UInt32.ofNat gs.namesByHash.length) ::
    (pickleTable xxh32 gs .utf8 ++ (pickleTable xxh32 gs .constant ++ pickleTable xxh32 gs .unique))

def pickleTableDiff (gs : GlobalState) (written : Written) (kind : NameKind) : List Put :=
  .u4 (UInt32.ofNat (written kind)) :: .u4 (UInt32.ofNat (gs.size kind - written kind)) ::
    ((gs.contents kind).drop (written kind)).flatMap (pickleEntry xxh32)

def pickleNameTableDiff (gs : GlobalState) (written : Written) : List Put :=
  pickleTableDiff xxh32 gs written .utf8 ++
    (pickleTableDiff xxh32 gs written .constant ++ pickleTableDiff xxh32 gs written .unique)

-- The body of the six loops: the entry goes into its table, its bucket gets the
-- loop's index.
def appendName (gs : GlobalState) (kind : NameKind) (i : Nat) : Reader GlobalState := do
  let hash ← .u4
  let content ← unpickleName kind
  let bucketId ← .ofOption (NameHash.lookupBucket gs.namesByHash hash NameHash.isEmpty).toOption
  pure {gs.emplaceBack content with namesByHash := gs.namesByHash.set bucketId ⟨hash,(NameRef.make kind i).rawId⟩}

def appendNames (kind : NameKind) : GlobalState → (i count : Nat) → Reader GlobalState
  | gs,_,0 => pure gs
  | gs,i,count+1 => do
    let gs ← appendName gs kind i
    appendNames kind gs (i + 1) count

def clearNames (gs : GlobalState) (namesByHashSize : Nat) : GlobalState where
  utf8Names := .empty gs.utf8Names.capacity
  constantNames := .empty gs.constantNames.capacity
  uniqueNames := .empty gs.uniqueNames.capacity
  namesByHash := List.replicate namesByHashSize ⟨0,0⟩

def reserveNames (gs : GlobalState) (n : Nat) : NameKind → GlobalState
  | .utf8 => {gs with utf8Names := gs.utf8Names.reserve n}
  | .unique => {gs with uniqueNames := gs.uniqueNames.reserve n}
  | .constant => {gs with constantNames := gs.constantNames.reserve n}

-- The size is an int here, so a negative one reads nothing.
def unpickleTable (gs : GlobalState) (kind : NameKind) : Reader GlobalState := do
  let namesSize ← .u4
  appendNames kind (reserveNames gs (nextPowerOfTwo namesSize).toNat kind) 0
    (if namesSize.toNat < 2 ^ 31 then namesSize.toNat else 0)

def unpickleNameTable (gs : GlobalState) : Reader GlobalState := do
  let namesByHashSize ← .u4
  let gs ← unpickleTable (clearNames gs namesByHashSize.toNat) .utf8
  let gs ← unpickleTable gs .constant
  unpickleTable gs .unique

-- That the table ends where the diff starts is checked in debug builds only.
def unpickleTableDiff (gs : GlobalState) (kind : NameKind) : Reader GlobalState := do
  let start ← .u4
  let numNew ← .u4
  appendNames kind gs start.toNat ((start + numNew).toNat - start.toNat)

def unpickleNameTableDiff (gs : GlobalState) : Reader GlobalState := do
  let gs ← unpickleTableDiff gs .utf8
  let gs ← unpickleTableDiff gs .constant
  unpickleTableDiff gs .unique

def storeNameTableDiff (gs : GlobalState) (written : Written) : List Put :=
  .u4 version :: pickleNameTableDiff xxh32 gs written

def loadAndAppendNameTableDiff (gs : GlobalState) : Reader GlobalState := do
  let stored ← .u4
  if stored = version then unpickleNameTableDiff gs else .fail

def storeNameTableDiffCountAndHashSize (count : Nat) (gs : GlobalState) : List Put :=
  [.u4 version,.u4 (UInt32.ofNat count),.u4 (UInt32.ofNat gs.namesByHash.length),.u4 (UInt32.ofNat (gs.size .utf8)),
    .u4 (UInt32.ofNat (gs.size .constant)),.u4 (UInt32.ofNat (gs.size .unique))]

def loadNameTableDiffCountAndResizeNamesHash (gs : GlobalState) : Reader (Nat × GlobalState) := do
  let stored ← .u4
  if stored = version then
    let diffCount ← .u4
    let namesByHashSize ← .u4
    let utf8NamesSize ← .u4
    let constantNamesSize ← .u4
    let uniqueNamesSize ← .u4
    let gs := reserveNames (clearNames gs namesByHashSize.toNat) (nextPowerOfTwo utf8NamesSize).toNat .utf8
    let gs := reserveNames gs (nextPowerOfTwo constantNamesSize).toNat .constant
    let gs := reserveNames gs (nextPowerOfTwo uniqueNamesSize).toNat .unique
    pure (diffCount.toNat,gs)
  else .fail

end Tables

section Cache
variable (lz4 : Lz4) (xxh32 : List UInt8 → UInt32)

-- The entries of the cache for the name table: NameTableDiff:0, NameTableDiff:1
-- and so on, and NameTableDiffCountAndHashSize.
structure StoredNameTable where
  diffs : List (List UInt8)
  countAndHashSize : List UInt8

-- What retainGlobalState writes as the table grows from state to state: each
-- diff starts at the lengths of the state before.
def storeDiffs : Written → List GlobalState → Option (List (List UInt8))
  | _,[] => some []
  | written,gs :: states => do
    let diff ← store lz4 (storeNameTableDiff xxh32 gs written)
    let diffs ← storeDiffs (markNameTableAsCached gs) states
    some (diff :: diffs)

-- The base goes in whole, as a diff against nothing.
def storeChain (base : GlobalState) (extensions : List GlobalState) : Option StoredNameTable := do
  let diffs ← storeDiffs lz4 xxh32 nothingWritten (base :: extensions)
  let countAndHashSize ← store lz4 (storeNameTableDiffCountAndHashSize diffs.length (extensions.getLastD base))
  some ⟨diffs,countAndHashSize⟩

-- The loop of createInitialGlobalState.
def loadDiffs (stored : StoredNameTable) : GlobalState → List Nat → Option GlobalState
  | gs,[] => some gs
  | gs,i :: rest => do
    let data ← stored.diffs[i]?
    let gs ← load lz4 (loadAndAppendNameTableDiff gs) data
    loadDiffs stored gs rest

def loadChain (gs : GlobalState) (stored : StoredNameTable) : Option GlobalState := do
  let (diffCount,gs) ← load lz4 (loadNameTableDiffCountAndResizeNamesHash gs) stored.countAndHashSize
  loadDiffs lz4 stored gs (List.range diffCount)

end Cache

end Serialize
