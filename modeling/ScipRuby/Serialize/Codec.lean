import ScipRuby.Serialize.PicklerRoundTrip

namespace Serialize

-- The functions of the source that take an UnPickler. none stands for a read
-- past the end, an exception, or a value that the type does not have.
abbrev Reader (α : Type) := StateT UnPickler Option α

namespace Reader
variable {α : Type}

def u1 : Reader UInt8 := UnPickler.getU1
def u4 : Reader UInt32 := UnPickler.getU4
def s8 : Reader Int64 := UnPickler.getS8
def str : Reader (List UInt8) := UnPickler.getStr
def fail : Reader α := fun _ => none
def ofOption (a : Option α) : Reader α := fun u => a.map (·,u)

-- A loop that reads one entry in each round.
def times (r : Reader α) : Nat → Reader (List α)
  | 0 => pure []
  | n+1 => do
    let a ← r
    let as ← times r n
    pure (a :: as)

end Reader

-- Wherever the operations were written in a finished buffer, reading there
-- gives the value and leaves the reader right behind them.
def Decodes {α : Type} (r : Reader α) (ops : List Put) (a : α) : Prop :=
  ∀ (p : Pickler) (final : List UInt8), final.length < 2^31 → Fits (p.putAll ops) final →
    r (cursor p final) = some (a,cursor (p.putAll ops) final)

section Rules
variable {α β : Type} {r : Reader α} {k : α → Reader β} {ops ops' : List Put} {a : α} {b : β}

theorem putAll_append (p : Pickler) (ops ops' : List Put) : p.putAll (ops ++ ops') = (p.putAll ops).putAll ops' :=
  List.foldl_append

theorem decodes_u1 (v : UInt8) : Decodes .u1 [.u1 v] v := fun _ _ _ fits => (getU1_putU1 fits).2

theorem decodes_u4 (v : UInt32) : Decodes .u4 [.u4 v] v := fun _ _ _ fits => (getU4_putU4 fits).2

theorem decodes_s8 (v : Int64) : Decodes .s8 [.s8 v] v := fun _ _ _ fits => (getS8_putS8 fits).2

theorem decodes_str (s : List UInt8) : Decodes .str [.str s] s := by
  intro p final small fits
  have read := (get_put (.str s) small fits).2
  simp only [UnPickler.get,Put.get,Option.map_eq_some_iff,Prod.mk.injEq,Put.str.injEq] at read
  obtain ⟨⟨v,u⟩,read,value,behind⟩ := read
  dsimp only at value behind
  rw [value,behind] at read
  exact read

theorem decodes_pure (a : α) : Decodes (pure a) [] a := fun _ _ _ _ => rfl

theorem decodes_ofOption {o : Option α} (known : o = some a) : Decodes (.ofOption o) [] a := by
  intro p final _ _
  rw [Reader.ofOption,known]
  rfl

theorem Decodes.bind (first : Decodes r ops a) (next : Decodes (k a) ops' b) : Decodes (r >>= k) (ops ++ ops') b := by
  intro p final small fits
  rw [putAll_append] at fits ⊢
  have middle := (getAll_putAll ops' small fits).1
  have read := first p final small middle
  have rest := next (p.putAll ops) final small fits
  change (r (cursor p final) >>= fun result => k result.1 result.2) = _
  rw [read]
  exact rest

theorem Decodes.u1_bind {v : UInt8} {k : UInt8 → Reader β} (next : Decodes (k v) ops b) : Decodes (Reader.u1 >>= k) (.u1 v :: ops) b :=
  (decodes_u1 v).bind next

theorem Decodes.u4_bind {v : UInt32} {k : UInt32 → Reader β} (next : Decodes (k v) ops b) : Decodes (Reader.u4 >>= k) (.u4 v :: ops) b :=
  (decodes_u4 v).bind next

theorem Decodes.s8_bind {v : Int64} {k : Int64 → Reader β} (next : Decodes (k v) ops b) : Decodes (Reader.s8 >>= k) (.s8 v :: ops) b :=
  (decodes_s8 v).bind next

theorem Decodes.option_bind {o : Option α} (known : o = some a) (next : Decodes (k a) ops b) : Decodes (Reader.ofOption o >>= k) ops b :=
  (decodes_ofOption known).bind next

-- The last operations of a reader that only wraps what it has read.
theorem Decodes.map (first : Decodes r ops a) (f : α → β) : Decodes (r >>= fun a => pure (f a)) ops (f a) := by
  have wrapped := first.bind (k := fun a => pure (f a)) (decodes_pure (f a))
  rwa [List.append_nil] at wrapped

theorem decodes_times {write : α → List Put} (items : List α) (each : ∀ a ∈ items, Decodes r (write a) a) :
    Decodes (r.times items.length) (items.flatMap write) items := by
  induction items with
  | nil => exact decodes_pure []
  | cons a items ih =>
    have rest := ih fun b member => each b (List.mem_cons_of_mem _ member)
    exact (each a List.mem_cons_self).bind (rest.map (a :: ·))

end Rules

section Results
variable {α : Type} {r : Reader α} {ops : List Put} {a : α} {lz4 : Lz4} {bytes : List UInt8}

-- Serializer::store… and Serializer::load…: a pickler's result, and a reader on
-- what it unpacks to.
def store (lz4 : Lz4) (ops : List Put) : Option (List UInt8) := (({} : Pickler).putAll ops).result lz4

def load (lz4 : Lz4) (r : Reader α) (bytes : List UInt8) : Option α := do
  let u ← UnPickler.make lz4 bytes
  let (a,_) ← r u
  some a

-- LZ4_compress_fast gives 0 for a source longer than LZ4_MAX_INPUT_SIZE.
def Lz4.Bounded (lz4 : Lz4) : Prop := ∀ src cap, lz4MaxInputSize < src.length → lz4.compress src cap = none

theorem store_small (bounded : lz4.Bounded) (stored : store lz4 ops = some bytes) :
    (({} : Pickler).putAll ops).flush.data.length < 2^31 := by
  by_contra large
  have : lz4MaxInputSize < (({} : Pickler).putAll ops).flush.data.length := by
    unfold lz4MaxInputSize
    omega
  rw [store,Pickler.result,bounded _ _ this] at stored
  cases stored

theorem Decodes.load (decodes : Decodes r ops a) (documented : lz4.Documented) (bounded : lz4.Bounded)
    (stored : store lz4 ops = some bytes) : load lz4 r bytes = some a := by
  have small := store_small bounded stored
  have read := decodes {} _ small (flush_finishes _)
  rw [cursor_closed rfl] at read
  have read : r ⟨(({} : Pickler).putAll ops).flush.data,0,0⟩ = _ := read
  simp only [Serialize.load,make_result documented small stored,Option.bind_eq_bind,Option.bind_some,read]

end Results

section Blocks

theorem blockLz4_bounded : blockLz4.Bounded := by
  intro src cap large
  apply if_neg
  intro both
  omega

theorem blockLz4_stores {ops : List Put} (small : (({} : Pickler).putAll ops).flush.data.length ≤ 1000) :
    ∃ bytes, store blockLz4 ops = some bytes := by
  exact result_fits blockLz4_documented (by unfold lz4MaxInputSize; omega)

end Blocks

end Serialize
