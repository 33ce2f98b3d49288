import ScipRuby.Lib.Varint

namespace Serialize

-- The writer of core/serialize. `zeroCounter` is the length of a run of zero
-- words whose marker byte is in `data` already and whose count byte is not.
structure Pickler where
  data : List UInt8 := []
  zeroCounter : UInt8 := 0
  deriving DecidableEq,Repr

namespace Pickler

-- The four places of the source that close an open run before going on.
def flush (p : Pickler) : Pickler :=
  if p.zeroCounter ≠ 0 then ⟨p.data ++ [p.zeroCounter],0⟩ else p

def emplace (p : Pickler) (b : UInt8) : Pickler := {p with data := p.data ++ [b]}

def putU1 (p : Pickler) (u : UInt8) : Pickler := p.flush.emplace u

def openRun (p : Pickler) : Pickler := ⟨p.data ++ [0],1⟩

-- A run of 255 is closed and the word is put again; that inner call finds no
-- open run, so it is `openRun`.
def putU4 (p : Pickler) (u : UInt32) : Pickler :=
  if u = 0 then
    if p.zeroCounter ≠ 0 then
      if p.zeroCounter = 255 then openRun ⟨p.data ++ [255],0⟩
      else {p with zeroCounter := p.zeroCounter + 1}
    else p.openRun
  else {p.flush with data := p.flush.data ++ Varint.encode u.toNat}

-- Unlike putU4, every group goes through putU1.
def putU8Loop (p : Pickler) (u : Nat) : Pickler :=
  if u > 127 then (p.putU1 (UInt8.ofNat ((u &&& 127) ||| 128))).putU8Loop (u >>> 7)
  else p.putU1 (UInt8.ofNat (u &&& 127))
termination_by u
decreasing_by simp only [Nat.shiftRight_eq_div_pow]; omega

def putU8 (p : Pickler) (i : UInt64) : Pickler := p.putU8Loop i.toNat
def putS8 (p : Pickler) (i : Int64) : Pickler := p.putU8 i.toUInt64

-- putStr and putBytes: the length as a 32-bit word, then the bytes one by one.
def putStr (p : Pickler) (s : List UInt8) : Pickler :=
  s.foldl putU1 (p.putU4 (UInt32.ofNat s.length))

end Pickler

-- Reads past the end of `data` are undefined in the source and `none` here, and
-- so is the ENFORCE of getU1.
structure UnPickler where
  data : List UInt8
  pos : Nat := 0
  zeroCounter : UInt8 := 0
  deriving DecidableEq,Repr

namespace UnPickler

def next (u : UnPickler) : Option (UInt8 × UnPickler) :=
  u.data[u.pos]?.map (·,{u with pos := u.pos + 1})

def getU1 (u : UnPickler) : Option (UInt8 × UnPickler) :=
  if u.zeroCounter = 0 then u.next else none

-- The unrolled tail of getU4: one byte for each shift while the previous byte
-- carried the continuation bit.
def getU4Tail (u : UnPickler) (res : UInt32) (vle : UInt8) : List UInt32 → Option (UInt32 × UnPickler)
  | [] => some (res,u)
  | shift :: shifts =>
    if vle.toNat &&& 128 = 0 then some (res,u)
    else do
      let (vle,u) ← u.next
      getU4Tail u (res ||| ((UInt32.ofNat (vle.toNat &&& 127)) <<< shift)) vle shifts

def getU4 (u : UnPickler) : Option (UInt32 × UnPickler) :=
  if u.zeroCounter ≠ 0 then some (0,{u with zeroCounter := u.zeroCounter - 1})
  else do
    let (r,u) ← u.next
    if r = 0 then
      let (count,u) ← u.next
      return (0,{u with zeroCounter := count - 1})
    else u.getU4Tail (UInt32.ofNat (r.toNat &&& 127)) r [7,14,21,28]

-- `fuel` bounds the bytes left; the loop of the source has no other bound.
def getU8Loop (u : UnPickler) (res : UInt64) (i : Nat) : Nat → Option (UInt64 × UnPickler)
  | 0 => none
  | fuel+1 => do
    let (vle,u) ← u.getU1
    let res := res ||| ((UInt64.ofNat (vle.toNat &&& 127)) <<< UInt64.ofNat (i*7))
    if vle.toNat &&& 128 ≠ 0 then u.getU8Loop res (i+1) fuel else some (res,u)

def getU8 (u : UnPickler) : Option (UInt64 × UnPickler) := u.getU8Loop 0 0 (u.data.length - u.pos)
def getS8 (u : UnPickler) : Option (Int64 × UnPickler) := u.getU8.map (fun (i,u) => (i.toInt64,u))

-- The view getStr returns must lie inside `data`; its size is a signed int.
def getStr (u : UnPickler) : Option (List UInt8 × UnPickler) := do
  let (sz,u) ← u.getU4
  if sz.toNat < 2^31 ∧ u.pos + sz.toNat ≤ u.data.length then
    some ((u.data.drop u.pos).take sz.toNat,{u with pos := u.pos + sz.toNat})
  else none

end UnPickler

-- LZ4 is not part of the repository. `compress` is LZ4_compress_fast with its
-- destination capacity (none for the return code 0), `decompress` is
-- LZ4_decompress_safe with its destination capacity.
structure Lz4 where
  compress : List UInt8 → Nat → Option (List UInt8)
  decompress : List UInt8 → Nat → Option (List UInt8)

def lz4MaxInputSize : Nat := 0x7E000000
def lz4CompressBound (size : Nat) : Nat :=
  if size > lz4MaxInputSize then 0 else size + size / 255 + 16

-- What lz4.h promises: a destination of the bound's size is enough, the
-- destination is respected, and decompression inverts compression.
structure Lz4.Documented (lz4 : Lz4) : Prop where
  succeeds : ∀ src cap, src.length ≤ lz4MaxInputSize → lz4CompressBound src.length ≤ cap →
    (lz4.compress src cap).isSome
  bounded : ∀ src cap out, lz4.compress src cap = some out → out.length ≤ cap
  inverse : ∀ src cap out, lz4.compress src cap = some out → lz4.decompress out src.length = some src

-- A non-negative int copied byte by byte with memcpy.
def intBytes (n : Nat) : List UInt8 :=
  [UInt8.ofNat n,UInt8.ofNat (n >>> 8),UInt8.ofNat (n >>> 16),UInt8.ofNat (n >>> 24)]

-- A negative int is none: no size of the format is negative.
def readInt : List UInt8 → Option (Nat × List UInt8)
  | a :: b :: c :: d :: rest =>
    let n := a.toNat + b.toNat * 2^8 + c.toNat * 2^16 + d.toNat * 2^24
    if n < 2^31 then some (n,rest) else none
  | _ => none

-- none is the exception "incompressible pickler?".
def Pickler.result (lz4 : Lz4) (p : Pickler) : Option (List UInt8) :=
  (lz4.compress p.flush.data (2048 + lz4CompressBound p.flush.data.length - 8)).map
    (fun out => intBytes out.length ++ intBytes p.flush.data.length ++ out)

-- none is a negative size or the exception "incomplete decompression".
def UnPickler.make (lz4 : Lz4) (compressed : List UInt8) : Option UnPickler := do
  let (compressedSize,rest) ← readInt compressed
  let (uncompressedSize,body) ← readInt rest
  let data ← lz4.decompress (body.take compressedSize) uncompressedSize
  if data.length = uncompressedSize then some ⟨data,0,0⟩ else none

-- One operation of a writer with its value, and its kind for a reader.
inductive Put where
  | u1 (v : UInt8)
  | u4 (v : UInt32)
  | s8 (v : Int64)
  | str (v : List UInt8)
  deriving DecidableEq,Repr

inductive Get where
  | u1
  | u4
  | s8
  | str
  deriving DecidableEq,Repr

def Put.get : Put → Get
  | .u1 _ => .u1
  | .u4 _ => .u4
  | .s8 _ => .s8
  | .str _ => .str

def Pickler.put (p : Pickler) : Put → Pickler
  | .u1 v => p.putU1 v
  | .u4 v => p.putU4 v
  | .s8 v => p.putS8 v
  | .str v => p.putStr v

def Pickler.putAll (p : Pickler) (ops : List Put) : Pickler := ops.foldl Pickler.put p

def UnPickler.get (u : UnPickler) : Get → Option (Put × UnPickler)
  | .u1 => u.getU1.map (fun (v,u) => (.u1 v,u))
  | .u4 => u.getU4.map (fun (v,u) => (.u4 v,u))
  | .s8 => u.getS8.map (fun (v,u) => (.s8 v,u))
  | .str => u.getStr.map (fun (v,u) => (.str v,u))

def UnPickler.getAll (u : UnPickler) : List Get → Option (List Put × UnPickler)
  | [] => some ([],u)
  | op :: ops => do
    let (v,u) ← u.get op
    let (vs,u) ← u.getAll ops
    return (v :: vs,u)

end Serialize
