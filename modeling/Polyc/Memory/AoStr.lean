import Polyc.Memory.Arena

/-!
# Strings in pooled buffers

The strings of `aostr.c` with the free lists that stand in front of the global arena.  The records of the
strings are kept next to the memory, their characters and the links of the free lists in it.  A write to a
buffer has no result unless it is below the capacity, nor has a read or a write outside of the blocks.
-/

namespace Polyc

open Bytes (Byte)

/-! ### Size classes -/

/-- `AOSTR_POOL_BUCKETS`. -/
def aoStrPoolBuckets : Nat := 12

/-- `aoStrPoolBucketSize`. -/
def aoStrPoolBucketSize (size : BitVec 32) : BitVec 32 :=
  if size ≤ 32 then 32
  else
    let v := size - 1
    let v := v ||| v >>> 1
    let v := v ||| v >>> 2
    let v := v ||| v >>> 4
    let v := v ||| v >>> 8
    let v := v ||| v >>> 16
    v + 1

/-- `aoStrPoolBucketIdx`, where the trailing zeros are those below the first one. -/
def aoStrPoolBucketIdx (bucketSize : BitVec 32) : Nat := (List.range 32).findIdx bucketSize.getLsbD - 5

/-- The global arena, with what it has returned, and the free lists in front of it. -/
structure AoStrPool where
  arena : ArenaState
  buckets : List Nat

/-- `AoStr`, with the address that it is at. -/
structure AoStr where
  self : Nat
  data : Nat
  len : BitVec 64
  capacity : BitVec 64

/-- `sizeof(AoStr)`. -/
def sizeofAoStr : BitVec 32 := 24

namespace AoStrPool

variable (pool : AoStrPool)

/-- The memory. -/
def mem : Bytes.Mem := pool.arena.heap.mem

/-- Bytes that are read; none can be read anywhere. -/
def load (off n : Nat) : Option (List Byte) :=
  if n = 0 ∨ pool.arena.heap.Holds off n then some (Heap.fetch pool.mem off n) else none

/-- Bytes that are written. -/
def store (off : Nat) (bytes : List Byte) : Option AoStrPool :=
  (pool.arena.heap.store off bytes).map fun heap => { pool with arena := { pool.arena with heap } }

/-- Bytes that are written to a buffer at an index, below its capacity. -/
def put (data capacity idx : Nat) (bytes : List Byte) : Option AoStrPool :=
  if idx + bytes.length ≤ capacity then pool.store (data + idx) bytes else none

/-! ### The pool -/

/-- `globalArenaAllocate`. -/
def globalArenaAllocate (a : BlockAnswers) (size : BitVec 32) : Option (AoStrPool × Nat) :=
  (pool.arena.step (.alloc size a)).map fun (arena, p) => ({ pool with arena }, p)

/-- `aoStrPoolAlloc`: the buffer, and the size that it writes to `_actual`. -/
def aoStrPoolAlloc (a : BlockAnswers) (requested : BitVec 32) : Option (AoStrPool × Nat × BitVec 32) :=
  if requested > 65536 then do
    let (pool, buf) ← pool.globalArenaAllocate a requested
    return (pool, buf, requested)
  else do
    let bucket := aoStrPoolBucketSize requested
    let idx := aoStrPoolBucketIdx bucket
    let node ← pool.buckets[idx]?
    if node ≠ 0 then
      let next ← pool.arena.heap.load node 8
      return ({ pool with buckets := pool.buckets.set idx next.toNat }, node, bucket)
    else
      let (pool, buf) ← pool.globalArenaAllocate a bucket
      return (pool, buf, bucket)

/-- `aoStrPoolFree`. -/
def aoStrPoolFree (buf : Nat) (capacity : BitVec 32) : Option AoStrPool :=
  if buf = 0 then some pool
  else if capacity < 32 ∨ capacity > 65536 then some pool
  else if capacity ≠ aoStrPoolBucketSize capacity then some pool
  else do
    let idx := aoStrPoolBucketIdx capacity
    let next ← pool.buckets[idx]?
    let pool ← pool.store buf (Bytes.layout 8 (BitVec.ofNat 64 next))
    return { pool with buckets := pool.buckets.set idx buf }

/-- `aoStrBufferAlloc`. -/
def aoStrBufferAlloc (a : BlockAnswers) (requested : BitVec 64) : Option (AoStrPool × Nat × BitVec 32) :=
  pool.aoStrPoolAlloc a (requested.setWidth 32)

/-! ### Strings -/

/-- `aoStrAlloc`. -/
def aoStrAlloc (a : BlockAnswers × BlockAnswers) (capacity : BitVec 64) : Option (AoStrPool × AoStr) := do
  let (pool, self) ← pool.globalArenaAllocate a.1 sizeofAoStr
  let (pool, data, actual) ← pool.aoStrBufferAlloc a.2 capacity
  return (pool, ⟨self, data, 0, actual.setWidth 64⟩)

/-- `aoStrNew`. -/
def aoStrNew (a : BlockAnswers × BlockAnswers) : Option (AoStrPool × AoStr) := pool.aoStrAlloc a 32

/-- `aoStrRelease`. -/
def aoStrRelease (buf : AoStr) : Option (AoStrPool × AoStr) := do
  let pool ← pool.aoStrPoolFree buf.data (buf.capacity.setWidth 32)
  return (pool, { buf with data := 0, capacity := 0, len := 0 })

/-- `aoStrExtendBuffer`, which aborts unless more is desired than there is. -/
def aoStrExtendBuffer (a : BlockAnswers) (buf : AoStr) (additional : BitVec 64) : Option (AoStrPool × AoStr) :=
  let desired := buf.capacity * 2 + additional
  if desired > buf.capacity then do
    let (pool, tmp, actual) ← pool.aoStrBufferAlloc a desired
    if tmp = 0 then return (pool, buf)
    else
      let bytes ← pool.load buf.data buf.len.toNat
      let pool ← pool.put tmp actual.toNat 0 bytes
      let pool ← pool.aoStrPoolFree buf.data (buf.capacity.setWidth 32)
      return (pool, { buf with data := tmp, capacity := actual.setWidth 64 })
  else none

/-- `aoStrExtendBufferIfNeeded`. -/
def aoStrExtendBufferIfNeeded (a : BlockAnswers) (buf : AoStr) (additional : BitVec 64) :
    Option (AoStrPool × AoStr) :=
  if buf.len + additional + 1 ≥ buf.capacity then pool.aoStrExtendBuffer a buf (additional + 1)
  else some (pool, buf)

/-- `buf->data[buf->len] = '\0';` -/
def terminate (buf : AoStr) : Option AoStrPool := pool.put buf.data buf.capacity.toNat buf.len.toNat [0]

/-- `aoStrPutChar`. -/
def aoStrPutChar (a : BlockAnswers) (buf : AoStr) (ch : Byte) : Option (AoStrPool × AoStr) := do
  let (pool, buf) ← pool.aoStrExtendBufferIfNeeded a buf 10
  let pool ← pool.put buf.data buf.capacity.toNat buf.len.toNat [ch]
  let buf := { buf with len := buf.len + 1 }
  let pool ← pool.terminate buf
  return (pool, buf)

/-- `aoStrCatLen`. -/
def aoStrCatLen (a : BlockAnswers) (buf : AoStr) (d : Nat) (len : BitVec 64) : Option (AoStrPool × AoStr) := do
  let (pool, buf) ← pool.aoStrExtendBufferIfNeeded a buf len
  let bytes ← pool.load d len.toNat
  let pool ← pool.put buf.data buf.capacity.toNat buf.len.toNat bytes
  let buf := { buf with len := buf.len + len }
  let pool ← pool.terminate buf
  return (pool, buf)

/-- The loop of `strlen`. -/
def strlenLoop (heap : Heap) : Nat → Nat → Option Nat
  | 0, _ => none
  | n + 1, d =>
    if heap.Holds d 1 then
      if heap.mem d = 0 then some 0 else (strlenLoop heap n (d + 1)).map (· + 1)
    else none

/-- `strlen`. -/
def strlen (d : Nat) : Option Nat := strlenLoop pool.arena.heap (2 ^ 64) d

/-- `aoStrCat`. -/
def aoStrCat (a : BlockAnswers) (buf : AoStr) (d : Nat) : Option (AoStrPool × AoStr) := do
  let len ← pool.strlen d
  pool.aoStrCatLen a buf d (BitVec.ofNat 64 len)

/-- The string that `aoStrDup` and `aoStrDupRaw` make of some bytes. -/
def dupBytes (a : BlockAnswers × BlockAnswers) (s : Nat) (len : BitVec 64) : Option (AoStrPool × AoStr) := do
  let (pool, dupe) ← pool.aoStrAlloc a (len + 1)
  let bytes ← pool.load s len.toNat
  let pool ← pool.put dupe.data dupe.capacity.toNat 0 bytes
  let dupe := { dupe with len }
  let pool ← pool.terminate dupe
  return (pool, dupe)

/-- `aoStrDupRaw`. -/
def aoStrDupRaw (a : BlockAnswers × BlockAnswers) (s : Nat) (len : BitVec 64) : Option (AoStrPool × AoStr) :=
  pool.dupBytes a s len

/-- `aoStrDup`. -/
def aoStrDup (a : BlockAnswers × BlockAnswers) (buf : AoStr) : Option (AoStrPool × AoStr) :=
  pool.dupBytes a buf.data buf.len

end AoStrPool

/-! ### Runs -/

/-- The calls of a run: strings are named in the order in which they are made. -/
inductive AoStrCall where
  | new (a : BlockAnswers × BlockAnswers)
  | alloc (capacity : BitVec 64) (a : BlockAnswers × BlockAnswers)
  | putChar (i : Nat) (ch : Byte) (a : BlockAnswers)
  | catLen (i d : Nat) (len : BitVec 64) (a : BlockAnswers)
  | cat (i d : Nat) (a : BlockAnswers)
  | dup (i : Nat) (a : BlockAnswers × BlockAnswers)
  | dupRaw (s : Nat) (len : BitVec 64) (a : BlockAnswers × BlockAnswers)
  | extendBuffer (i : Nat) (additional : BitVec 64) (a : BlockAnswers)
  | release (i : Nat)

/-- The pool and the strings that were made. -/
structure AoStrState where
  pool : AoStrPool
  strs : List AoStr

/-- The state behind `globalArenaInit(4096*10)`. -/
def AoStrState.init (h : Heap) (a : BlockAnswers) : Option AoStrState :=
  (ArenaState.init h a 40960).map fun arena => ⟨⟨arena, List.replicate aoStrPoolBuckets 0⟩, []⟩

/-- A call that makes a string. -/
def AoStrState.made (s : AoStrState) (r : Option (AoStrPool × AoStr)) : Option (AoStrState × Unit) :=
  r.map fun (pool, b) => (⟨pool, s.strs ++ [b]⟩, ())

/-- A call on a string. -/
def AoStrState.changed (s : AoStrState) (i : Nat) (f : AoStr → Option (AoStrPool × AoStr)) :
    Option (AoStrState × Unit) := do
  let b ← s.strs[i]?
  let (pool, b) ← f b
  return (⟨pool, s.strs.set i b⟩, ())

/-- The state behind a call. -/
def AoStrState.step (s : AoStrState) : AoStrCall → Option (AoStrState × Unit)
  | .new a => s.made (s.pool.aoStrNew a)
  | .alloc capacity a => s.made (s.pool.aoStrAlloc a capacity)
  | .putChar i ch a => s.changed i fun b => s.pool.aoStrPutChar a b ch
  | .catLen i d len a => s.changed i fun b => s.pool.aoStrCatLen a b d len
  | .cat i d a => s.changed i fun b => s.pool.aoStrCat a b d
  | .dup i a => do
    let b ← s.strs[i]?
    s.made (s.pool.aoStrDup a b)
  | .dupRaw d len a => s.made (s.pool.aoStrDupRaw a d len)
  | .extendBuffer i additional a => s.changed i fun b => s.pool.aoStrExtendBuffer a b additional
  | .release i => s.changed i fun b => s.pool.aoStrRelease b

/-- What a string is to have: its characters, and whether there is a 0 behind them. -/
structure AoStrContent where
  bytes : List Byte
  ended : Bool

/-- More characters, with a 0 behind them. -/
def AoStrContent.append (c : AoStrContent) (bytes : List Byte) : AoStrContent := ⟨c.bytes ++ bytes, true⟩

/-- What the strings are to have behind a call. -/
def AoStrState.contents (s : AoStrState) (cs : List AoStrContent) : AoStrCall → List AoStrContent
  | .new _ => cs ++ [⟨[], false⟩]
  | .alloc _ _ => cs ++ [⟨[], false⟩]
  | .putChar i ch _ => cs.modify i fun c => c.append [ch]
  | .catLen i d len _ => cs.modify i fun c => c.append (Heap.fetch s.pool.mem d len.toNat)
  | .cat i d _ => cs.modify i fun c => c.append (Heap.fetch s.pool.mem d ((s.pool.strlen d).getD 0))
  | .dup i _ => cs ++ (cs[i]?.map fun c => ⟨c.bytes, true⟩).toList
  | .dupRaw d len _ => cs ++ [⟨Heap.fetch s.pool.mem d len.toNat, true⟩]
  | .extendBuffer i _ _ => cs.modify i fun c => ⟨c.bytes, false⟩
  | .release i => cs.modify i fun _ => ⟨[], false⟩

/-- A step of a run together with what the strings are to have. -/
def aoStrRunStep (x : AoStrState × List AoStrContent) (c : AoStrCall) :
    Option ((AoStrState × List AoStrContent) × Unit) :=
  (x.1.step c).map fun r => ((r.1, x.1.contents x.2 c), ())

/-! ### What is promised -/

/-- A string in memory has what it is to have: a released one nothing, any other one its characters and the 0 below
its capacity. -/
structure AoStr.Has (m : Bytes.Mem) (b : AoStr) (c : AoStrContent) : Prop where
  len : b.len.toNat = c.bytes.length
  bytes : Heap.fetch m b.data b.len.toNat = c.bytes
  ended : c.ended → m (b.data + b.len.toNat) = 0
  lt : b.data ≠ 0 → b.len < b.capacity
  released : b.data = 0 → b.len = 0 ∧ b.capacity = 0 ∧ c.ended = false

/-- The record of a string, and its buffer with the capacity that it records. -/
def AoStr.cells (b : AoStr) : List (Nat × Nat) :=
  (b.self, sizeofAoStr.toNat) :: if b.data = 0 then [] else [(b.data, b.capacity.toNat)]

/-- What the strings promise: each has what it is to have, and their records and buffers, which do not overlap, were
returned by the arena for as many bytes as they say. -/
structure AoStrState.Sound (before : List (Nat × Nat)) (s : AoStrState) (cs : List AoStrContent) : Prop where
  arena : s.pool.arena.Sound before
  count : s.strs.length = cs.length
  has : ∀ (i : Nat) b c, s.strs[i]? = some b → cs[i]? = some c → b.Has s.pool.mem c
  handed : ∀ r ∈ s.strs.flatMap AoStr.cells, r ∈ s.pool.arena.regions
  unshared : (s.strs.flatMap AoStr.cells).Pairwise Heap.Apart

/-! ### Calls -/

/-- The size that `aoStrPoolAlloc` asks the arena for, if it does. -/
def AoStrPool.asks (pool : AoStrPool) (requested : BitVec 32) : Option (BitVec 32) :=
  if requested > 65536 then some requested
  else
    let bucket := aoStrPoolBucketSize requested
    if pool.buckets[aoStrPoolBucketIdx bucket]? = some 0 then some bucket else none

/-- `malloc` gives what `aoStrBufferAlloc` needs. -/
def AoStrPool.Gives (pool : AoStrPool) (requested : BitVec 64) (a : BlockAnswers) : Prop :=
  ∀ size ∈ pool.asks (requested.setWidth 32), pool.arena.Allowed (.alloc size a)

/-- `malloc` gives what `aoStrAlloc` needs. -/
def AoStrPool.GivesString (pool : AoStrPool) (capacity : BitVec 64) (a : BlockAnswers × BlockAnswers) : Prop :=
  pool.arena.Allowed (.alloc sizeofAoStr a.1)
    ∧ ∀ pool' p, pool.globalArenaAllocate a.1 sizeofAoStr = some (pool', p) → pool'.Gives capacity a.2

/-- The buffer of a string grows for some more characters. -/
def AoStr.Grows (b : AoStr) (additional : BitVec 64) : Prop := b.len + additional + 1 ≥ b.capacity

instance (b : AoStr) (additional : BitVec 64) : Decidable (b.Grows additional) :=
  inferInstanceAs (Decidable (b.len + additional + 1 ≥ b.capacity))

/-- Some bytes can be read: they are in a block that was there before, or characters of a string. -/
def AoStrState.Readable (before : List (Nat × Nat)) (s : AoStrState) (d n : Nat) : Prop :=
  n = 0 ∨ (∃ b ∈ before, Heap.Within (d, n) b)
    ∨ ∃ b ∈ s.strs, b.data ≠ 0 ∧ Heap.Within (d, n) (b.data, b.len.toNat)

/-- Some bytes may be appended to a string. -/
structure AoStrState.Appends (before : List (Nat × Nat)) (s : AoStrState) (i d : Nat) (len : BitVec 64)
    (a : BlockAnswers) (b : AoStr) : Prop where
  str : s.strs[i]? = some b
  length : b.len.toNat + len.toNat < 2 ^ 31
  readable : s.Readable before d len.toNat
  gives : b.Grows len → s.pool.Gives (b.capacity * 2 + (len + 1)) a

/-- The calls that are promised: on strings that were made, of lengths below 2^31, with bytes that can be read, and with
what `malloc` is asked for. -/
def AoStrState.Allowed (before : List (Nat × Nat)) (s : AoStrState) : AoStrCall → Prop
  | .new a => s.pool.GivesString 32 a
  | .alloc capacity a => s.pool.GivesString capacity a
  | .putChar i _ a => ∃ b, s.strs[i]? = some b ∧ b.len.toNat + 1 < 2 ^ 31
    ∧ (b.Grows 10 → s.pool.Gives (b.capacity * 2 + (10 + 1)) a)
  | .catLen i d len a => ∃ b, s.Appends before i d len a b
  | .cat i d a => ∃ b n, s.pool.strlen d = some n ∧ n < 2 ^ 31 ∧ s.Appends before i d (BitVec.ofNat 64 n) a b
  | .dup i a => ∃ b, s.strs[i]? = some b ∧ b.len.toNat < 2 ^ 31 ∧ s.pool.GivesString (b.len + 1) a
  | .dupRaw d len a => len.toNat < 2 ^ 31 ∧ s.Readable before d len.toNat ∧ s.pool.GivesString (len + 1) a
  | .extendBuffer i additional a => ∃ b, s.strs[i]? = some b
    ∧ s.pool.Gives (b.capacity * 2 + additional) a
  | .release i => ∃ b, s.strs[i]? = some b

/-- A capacity with as much again and some more is rounded in 32 bits. -/
def AoStr.Fits (b : AoStr) (additional : Nat) : Prop := b.capacity.toNat * 2 + additional ≤ 2 ^ 32 - 8

/-- Some bytes are not those in which the link is put when the buffer of a string goes to a free list. -/
def AoStr.Spares (b : AoStr) (d n : Nat) : Prop := 0 < n → b.capacity.toNat ≤ 65536 → Heap.Apart (d, n) (b.data, 8)

/-- A string may grow while bytes are appended to it. -/
def AoStr.MeetsCat (b : AoStr) (d : Nat) (len : BitVec 64) : Prop :=
  b.Grows len → b.Fits (len.toNat + 1) ∧ b.Spares d len.toNat

/-- The condition on a call. -/
def AoStrState.Meets (s : AoStrState) : AoStrCall → Prop
  | .new _ => True
  | .alloc capacity _ => (capacity.setWidth 32).toNat ≤ 2 ^ 32 - 8
  | .putChar i _ _ => ∀ b ∈ s.strs[i]?, b.Grows 10 → b.Fits 11
  | .catLen i d len _ => ∀ b ∈ s.strs[i]?, b.MeetsCat d len
  | .cat i d _ => ∀ b ∈ s.strs[i]?, ∀ n ∈ s.pool.strlen d, b.MeetsCat d (BitVec.ofNat 64 n)
  | .dup _ _ => True
  | .dupRaw _ _ _ => True
  | .extendBuffer i additional _ => ∀ b ∈ s.strs[i]?, b.capacity.toNat < b.capacity.toNat * 2 + additional.toNat
    ∧ b.Fits additional.toNat
  | .release _ => True

end Polyc
