import ScipRuby.Lib.Probing
import ScipRuby.Names.NextPowerOfTwo

namespace Names

inductive NameKind where
  | utf8
  | unique
  | constant
  deriving DecidableEq,Repr

def NameKind.tag : NameKind → UInt32
  | .utf8 => 1
  | .unique => 2
  | .constant => 3

inductive UniqueNameKind where
  | desugar
  | namer
  | mangleRename
  | singleton
  | overload
  | typeVarName
  | positionalArg
  | mangledKeywordArg
  | resolverMissingClass
  | tEnum
  | struct
  | packager
  | desugarCsend
  deriving DecidableEq,Repr

def UniqueNameKind.tag (kind : UniqueNameKind) : UInt32 := UInt32.ofNat kind.ctorIdx

structure NameRef where
  rawId : UInt32
  deriving DecidableEq,Repr

namespace NameRef

-- No kind has the tag 0.
def noName : NameRef := ⟨0⟩

def make (kind : NameKind) (id : Nat) : NameRef := ⟨(UInt32.ofNat id <<< 2) ||| kind.tag⟩

def unsafeTableIndex (ref : NameRef) : Nat := (ref.rawId >>> 2).toNat

def kind (ref : NameRef) : Option NameKind :=
  if ref.rawId &&& 3 = 1 then some .utf8
  else if ref.rawId &&& 3 = 2 then some .unique
  else if ref.rawId &&& 3 = 3 then some .constant
  else none

end NameRef

structure UTF8Name where
  utf8 : List UInt8
  deriving DecidableEq,Repr

structure UniqueName where
  original : NameRef
  num : UInt32
  uniqueNameKind : UniqueNameKind
  deriving DecidableEq,Repr

structure ConstantName where
  original : NameRef
  deriving DecidableEq,Repr

-- What a name of each kind is entered with.
inductive Name where
  | utf8 (name : UTF8Name)
  | unique (name : UniqueName)
  | constant (name : ConstantName)
  deriving DecidableEq,Repr

def Name.kind : Name → NameKind
  | .utf8 _ => .utf8
  | .unique _ => .unique
  | .constant _ => .constant

-- A std::vector: a full one doubles its capacity before it takes another entry.
structure Vec (α : Type) where
  entries : List α
  capacity : Nat
  fits : entries.length ≤ capacity

namespace Vec
variable {α : Type}

def size (v : Vec α) : Nat := v.entries.length

-- A no-op when the capacity suffices.
def reserve (v : Vec α) (n : Nat) : Vec α := ⟨v.entries,max v.capacity n,Nat.le_trans v.fits (Nat.le_max_left _ _)⟩

def emplaceBack (v : Vec α) (a : α) : Vec α where
  entries := v.entries ++ [a]
  capacity := if v.size = v.capacity then max 1 (v.capacity * 2) else v.capacity
  fits := by
    have := v.fits
    rw [List.length_append,List.length_singleton]
    by_cases full : v.size = v.capacity
    · rw [if_pos full]
      omega
    · rw [if_neg full]
      simp only [size] at full
      omega

def empty (capacity : Nat) : Vec α := ⟨[],capacity,Nat.zero_le _⟩

end Vec

structure Bucket where
  hash : UInt32
  rawId : UInt32
  deriving DecidableEq,Repr

def Bucket.present (b : Bucket) : Bool := b.rawId != 0

-- A loop that never ends, and the exception "Full table?".
inductive Failure where
  | diverges
  | fullTable
  deriving DecidableEq,Repr

def mix (acc nw : UInt32) : UInt32 := nw + (acc <<< 6) + (acc <<< 16) - acc

namespace NameHash

def isEmpty : NameRef → Bool := fun _ => false

def stops (buckets : List Bucket) (hash : UInt32) (pred : NameRef → Bool) (i : Nat) : Bool :=
  match buckets[i]? with
  | some b => !b.present || (b.hash == hash && pred ⟨b.rawId⟩)
  | none => true

-- The probe loop of lookupBucket and, with a predicate that never holds, of
-- moveNames. One probe for each bucket is enough fuel: after them every bucket
-- has been seen and the loop goes on forever.
def probe (buckets : List Bucket) (hash : UInt32) (pred : NameRef → Bool) : Except Failure (Nat × Nat) :=
  match Probing.walk (stops buckets hash pred) (buckets.length - 1) buckets.length
      (hash.toNat &&& (buckets.length - 1)) 1 with
  | none => .error .diverges
  | some found => .ok found

def lookupBucket (buckets : List Bucket) (hash : UInt32) (pred : NameRef → Bool) : Except Failure Nat := do
  let (bucketId,probeCount) ← probe buckets hash pred
  if probeCount = buckets.length then .error .fullTable else .ok bucketId

def moveName (to_ : List Bucket) (b : Bucket) : Except Failure (List Bucket) :=
  if b.present then do
    let (bucketId,_) ← probe to_ b.hash isEmpty
    .ok (to_.set bucketId b)
  else .ok to_

def moveNames (from_ : List Bucket) (szTo : Nat) : Except Failure (List Bucket) :=
  from_.foldlM moveName (List.replicate szTo ⟨0,0⟩)

def expandNames (buckets : List Bucket) (utf8NameSize constantNameSize uniqueNameSize : UInt32) :
    Except Failure (List Bucket) :=
  let hashTableSize := 2 * nextPowerOfTwo (utf8NameSize + constantNameSize + uniqueNameSize)
  if hashTableSize.toNat > buckets.length then moveNames buckets hashTableSize.toNat else .ok buckets

end NameHash

structure GlobalState where
  utf8Names : Vec UTF8Name
  constantNames : Vec ConstantName
  uniqueNames : Vec UniqueName
  namesByHash : List Bucket

namespace GlobalState

-- The tables of the constructor; the hash table has
-- nextPowerOfTwo (2 * (16384 + 4096 + 4096)) buckets.
def initial : GlobalState where
  utf8Names := .empty 16384
  constantNames := .empty 4096
  uniqueNames := .empty 4096
  namesByHash := List.replicate 65536 ⟨0,0⟩

def size (gs : GlobalState) : NameKind → Nat
  | .utf8 => gs.utf8Names.size
  | .unique => gs.uniqueNames.size
  | .constant => gs.constantNames.size

def capacity (gs : GlobalState) : NameKind → Nat
  | .utf8 => gs.utf8Names.capacity
  | .unique => gs.uniqueNames.capacity
  | .constant => gs.constantNames.capacity

def namesUsedTotal (gs : GlobalState) : Nat := gs.utf8Names.size + gs.constantNames.size + gs.uniqueNames.size

-- dataUtf8, dataCnst and dataUnique by the kind of the reference; none is a
-- read outside the table.
def name (gs : GlobalState) (ref : NameRef) : Option Name :=
  match ref.kind with
  | some .utf8 => gs.utf8Names.entries[ref.unsafeTableIndex]?.map .utf8
  | some .unique => gs.uniqueNames.entries[ref.unsafeTableIndex]?.map .unique
  | some .constant => gs.constantNames.entries[ref.unsafeTableIndex]?.map .constant
  | none => none

-- isUtf8, isConstant and isUnique: the bucket holds a name of this kind with
-- these contents.
def holds (gs : GlobalState) (content : Name) (ref : NameRef) : Bool := gs.name ref = some content

def emplaceBack (gs : GlobalState) : Name → GlobalState
  | .utf8 name => {gs with utf8Names := gs.utf8Names.emplaceBack name}
  | .unique name => {gs with uniqueNames := gs.uniqueNames.emplaceBack name}
  | .constant name => {gs with constantNames := gs.constantNames.emplaceBack name}

-- reserve sees the sizes of the call, and so does the hash table; the sanity
-- checks before it are for debug builds.
def expandNames (gs : GlobalState) (utf8NameSize constantNameSize uniqueNameSize : UInt32) : Except Failure GlobalState := do
  let namesByHash ← NameHash.expandNames gs.namesByHash utf8NameSize constantNameSize uniqueNameSize
  .ok ⟨gs.utf8Names.reserve utf8NameSize.toNat,gs.constantNames.reserve constantNameSize.toNat,
    gs.uniqueNames.reserve uniqueNameSize.toNat,namesByHash⟩

-- The capacities with one doubled, cut to 32 bits as arguments of expandNames.
def request (gs : GlobalState) (full kind : NameKind) : UInt32 :=
  UInt32.ofNat (if kind = full then gs.capacity kind * 2 else gs.capacity kind)

def expandFor (gs : GlobalState) (full : NameKind) : Except Failure GlobalState :=
  gs.expandNames (gs.request full .utf8) (gs.request full .constant) (gs.request full .unique)

def store (gs : GlobalState) (bucketId : Nat) (hash : UInt32) (content : Name) : NameRef × GlobalState :=
  let name := NameRef.make content.kind (gs.size content.kind)
  (name,{gs.emplaceBack content with namesByHash := gs.namesByHash.set bucketId ⟨hash,name.rawId⟩})

section Hashing
-- XXH32 with seed 0, of a library outside the repository.
variable (xxh32 : List UInt8 → UInt32)

-- hashMixUTF8, hashMixUnique and hashMixConstant.
def hashMix : Name → UInt32
  | .utf8 name => xxh32 name.utf8
  | .unique name => mix (mix name.num name.uniqueNameKind.tag) name.original.rawId * 31 + NameKind.unique.tag
  | .constant name => name.original.rawId * 31 + NameKind.constant.tag

-- The three lookup functions are this one at their kind of name, and so are the
-- three that enter a name.
def lookupName (gs : GlobalState) (content : Name) : Except Failure NameRef := do
  let bucketId ← NameHash.lookupBucket gs.namesByHash (hashMix xxh32 content) (gs.holds content)
  match gs.namesByHash[bucketId]? with
  | some b => if b.present then .ok ⟨b.rawId⟩ else .ok .noName
  | none => .ok .noName

def lookupNameUTF8 (gs : GlobalState) (nm : List UInt8) : Except Failure NameRef := gs.lookupName xxh32 (.utf8 ⟨nm⟩)

def lookupNameConstant (gs : GlobalState) (original : NameRef) : Except Failure NameRef :=
  gs.lookupName xxh32 (.constant ⟨original⟩)

def lookupNameUnique (gs : GlobalState) (uniqueNameKind : UniqueNameKind) (original : NameRef) (num : UInt32) :
    Except Failure NameRef :=
  gs.lookupName xxh32 (.unique ⟨original,num,uniqueNameKind⟩)

def insertName (gs : GlobalState) (bucketId : Nat) (content : Name) : Except Failure (NameRef × GlobalState) := do
  if gs.size content.kind = gs.capacity content.kind then
    let gs ← gs.expandFor content.kind
    let bucketId ← NameHash.lookupBucket gs.namesByHash (hashMix xxh32 content) NameHash.isEmpty
    .ok (gs.store bucketId (hashMix xxh32 content) content)
  else .ok (gs.store bucketId (hashMix xxh32 content) content)

def enterName (gs : GlobalState) (content : Name) : Except Failure (NameRef × GlobalState) := do
  let bucketId ← NameHash.lookupBucket gs.namesByHash (hashMix xxh32 content) (gs.holds content)
  match gs.namesByHash[bucketId]? with
  | some b => if b.present then .ok (⟨b.rawId⟩,gs) else gs.insertName xxh32 bucketId content
  | none => gs.insertName xxh32 bucketId content

def enterNameUTF8 (gs : GlobalState) (nm : List UInt8) : Except Failure (NameRef × GlobalState) :=
  gs.enterName xxh32 (.utf8 ⟨nm⟩)

def enterNameConstant (gs : GlobalState) (original : NameRef) : Except Failure (NameRef × GlobalState) :=
  gs.enterName xxh32 (.constant ⟨original⟩)

def freshNameUnique (gs : GlobalState) (uniqueNameKind : UniqueNameKind) (original : NameRef) (num : UInt32) :
    Except Failure (NameRef × GlobalState) :=
  gs.enterName xxh32 (.unique ⟨original,num,uniqueNameKind⟩)

end Hashing

end GlobalState

end Names
