import Polyc.Lib.Regions
import Polyc.Memory.Arena

/-!
# Memory pools

`mempool.c` without the lock and without a function for `deallocate`.  A chunk is a record with the address that it
is at, and the list of a segment is a list of records.  Where the header of a chunk would be written over another one
or behind its segment there is no result, nor where a null pointer is written through or a slot of the segments array
is read or written that is not there.
-/

namespace Polyc

/-- `MemPoolError`. -/
inductive MemPoolError where
  | ok
  | allocationGreaterThanCapacityErr
  | allocationSplitBlockErr
  | allocationSegmentArrayErr
  | allocationSegmentAllocErr
  deriving DecidableEq

/-- `MemChunk`, with the address that it is at. -/
structure MemChunk where
  self : Nat
  segmentId : BitVec 32
  size : BitVec 32
  free : Bool

/-- `sizeof(MemChunk)`. -/
def sizeofMemChunk : BitVec 32 := 24

/-- `MemSegment`, with the address that it is at and the chunks of its list. -/
structure MemSegment where
  self : Nat
  id : BitVec 32
  list : List MemChunk
  buffer : Nat
  allocated : BitVec 32

/-- `sizeof(MemSegment)`. -/
def sizeofMemSegment : Nat := 32

/-- `sizeof(MemSegment *)`. -/
def sizeofMemSegmentPtr : Nat := 8

/-- `MemPool`: the segments of the array, which is at an address. -/
structure MemPool where
  segments : List MemSegment
  array : Nat
  segmentsArrayCapacity : BitVec 32
  segmentCapacity : BitVec 32
  error : MemPoolError

/-- What `malloc` answers to the requests for a segment and for an array of segments. -/
structure PoolAnswers where
  segment : Heap.Answer
  buffer : Heap.Answer
  array : Heap.Answer

/-- `_memAlign`. -/
def memAlign (size : BitVec 32) : BitVec 32 := (size + (8 - 1)) &&& ~~~(8 - 1)

/-- `memSegmentAlloc`. -/
def memSegmentAlloc (h : Heap) (a : PoolAnswers) (capacity segmentId : BitVec 32) : Option (Heap × MemSegment) :=
  let h := h.malloc sizeofMemSegment a.segment
  if a.segment.base = 0 then none
  else
    let h := h.malloc capacity.toNat a.buffer
    if a.buffer.base = 0 ∨ capacity < sizeofMemChunk then none
    else some (h, ⟨a.segment.base, segmentId, [⟨a.buffer.base, segmentId, capacity, true⟩], a.buffer.base, 0⟩)

/-- `memPoolInit` of a pool whose `segment_count` was something before. -/
def memPoolInit (h : Heap) (a : PoolAnswers) (segmentCount bytes : BitVec 32) : Option (Heap × MemPool) :=
  let segmentsArrayCapacity : BitVec 32 := 4
  let h := h.malloc (sizeofMemSegmentPtr * segmentsArrayCapacity.toNat) a.array
  if a.array.base = 0 then none
  else do
    let (h, segment) ← memSegmentAlloc h a bytes segmentCount
    return (h, { segments := [segment], array := a.array.base, segmentsArrayCapacity, segmentCapacity := bytes,
                 error := .ok })

/-! ### Allocation -/

/-- `MIN_SPLIT_SIZE`. -/
def minSplitSize : Nat := sizeofMemChunk.toNat + 8

/-- `memPoolSplitBlock` of a chunk with those behind it. -/
def memPoolSplitBlock (chunk : MemChunk) (next : List MemChunk) (allocSize : BitVec 32) :
    Option (MemChunk × List MemChunk) :=
  let totalNeeded := allocSize + sizeofMemChunk
  if chunk.size.toNat < totalNeeded.toNat + minSplitSize then some (chunk, next)
  else if totalNeeded < sizeofMemChunk then none
  else
    let newChunk : MemChunk :=
      { self := chunk.self + totalNeeded.toNat, segmentId := chunk.segmentId, size := chunk.size - totalNeeded,
        free := true }
    some ({ chunk with size := allocSize + sizeofMemChunk }, newChunk :: next)

/-- The chunk that `memPoolAlloc` takes, which is split when it is larger. -/
def memPoolTake (cur : MemChunk) (next : List MemChunk) (size totalSize : BitVec 32) :
    Option (MemChunk × List MemChunk) :=
  if cur.size > totalSize then memPoolSplitBlock cur next size else some (cur, next)

/-- The loop of `memPoolAlloc`: the list behind it, and the chunk that is taken. -/
def memPoolAllocLoop (segmentId size totalSize : BitVec 32) : List MemChunk →
    Option (List MemChunk × Option MemChunk)
  | [] => some ([], none)
  | cur :: next =>
    if cur.free ∧ cur.size ≥ totalSize then do
      let (cur, next) ← memPoolTake cur next size totalSize
      let cur := { cur with segmentId, free := false }
      return (cur :: next, some cur)
    else do
      let (next, taken) ← memPoolAllocLoop segmentId size totalSize next
      return (cur :: next, taken)

/-- The address behind the header of a chunk. -/
def MemChunk.ptr (chunk : MemChunk) : Nat := chunk.self + sizeofMemChunk.toNat

/-- The loop of `memPoolGetSegment`: the place of the first segment that has the space. -/
def memPoolFindSegment (pool : MemPool) (totalSize : BitVec 32) : Option Nat :=
  pool.segments.findIdx? fun segment => segment.allocated + totalSize ≤ pool.segmentCapacity

/-- The array of segments that `memPoolGetSegment` expands for a new segment, and whether it could be. -/
def memPoolExpand (h : Heap) (pool : MemPool) (a : PoolAnswers) (segment : MemSegment) :
    Option (Heap × MemPool × Bool) :=
  if BitVec.ofNat 32 pool.segments.length + 1 ≥ pool.segmentsArrayCapacity then
    let newCapacity := pool.segmentsArrayCapacity * 2
    let h := h.malloc (sizeofMemSegmentPtr * newCapacity.toNat) a.array
    if a.array.base = 0 then do
      let h ← freePtr h segment.buffer
      let h ← freePtr h segment.self
      return (h, { pool with error := .allocationSegmentArrayErr }, false)
    else if pool.segments.length ≤ newCapacity.toNat then do
      let h ← freePtr h pool.array
      return (h, { pool with array := a.array.base, segmentsArrayCapacity := newCapacity }, true)
    else none
  else some (h, pool, true)

/-- A segment that is put behind the others. -/
def memPoolAddSegment (pool : MemPool) (segment : MemSegment) : Option MemPool :=
  if pool.segments.length < pool.segmentsArrayCapacity.toNat then
    some { pool with segments := pool.segments ++ [segment] }
  else none

/-- `memPoolGetSegment`: the place of the segment, if there is one. -/
def memPoolGetSegment (h : Heap) (pool : MemPool) (a : PoolAnswers) (allocSize : BitVec 32) :
    Option (Heap × MemPool × Option Nat) :=
  let totalSize := allocSize + sizeofMemChunk
  match memPoolFindSegment pool totalSize with
  | some i => some (h, pool, some i)
  | none => do
    let newSegmentId := BitVec.ofNat 32 pool.segments.length
    let (h, segment) ← memSegmentAlloc h a pool.segmentCapacity newSegmentId
    let (h, expanded, fine) ← memPoolExpand h pool a segment
    if fine then
      let added ← memPoolAddSegment expanded segment
      return (h, added, some pool.segments.length)
    else return (h, expanded, none)

/-- What `memPoolAlloc` does with a segment. -/
def memPoolAllocFrom (pool : MemPool) (i : Nat) (size : BitVec 32) : Option (MemPool × Nat) := do
  let segment ← pool.segments[i]?
  let (list, taken) ← memPoolAllocLoop segment.id size (size + sizeofMemChunk) segment.list
  match taken with
  | none => return (pool, 0)
  | some cur =>
    let segment := { segment with list, allocated := segment.allocated + cur.size }
    return ({ pool with segments := pool.segments.set i segment }, cur.ptr)

/-- `memPoolAlloc`. -/
def memPoolAlloc (h : Heap) (pool : MemPool) (a : PoolAnswers) (size : BitVec 32) : Option (Heap × MemPool × Nat) :=
  if size = 0 then some (h, pool, 0)
  else
    let size := memAlign size
    if size > pool.segmentCapacity then some (h, { pool with error := .allocationGreaterThanCapacityErr }, 0)
    else
      (memPoolGetSegment h pool a size).bind fun (h, pool, found) =>
        match found with
        | none => some (h, pool, 0)
        | some i => (memPoolAllocFrom pool i size).map fun (pool, p) => (h, pool, p)

/-! ### Freeing -/

/-- The loop of `memSegmentMerge` at a chunk with those behind it. -/
def memSegmentMergeLoop (cur : MemChunk) : List MemChunk → List MemChunk
  | [] => [cur]
  | next :: rest =>
    if cur.free ∧ next.free ∧ next.self = cur.self + sizeofMemChunk.toNat + cur.size.toNat then
      memSegmentMergeLoop { cur with size := cur.size + (sizeofMemChunk + next.size) } rest
    else cur :: memSegmentMergeLoop next rest

/-- `memSegmentMerge`. -/
def memSegmentMerge : List MemChunk → List MemChunk
  | [] => []
  | cur :: next => memSegmentMergeLoop cur next

/-- The chunk at an address. -/
def MemPool.chunk (pool : MemPool) (p : Nat) : Option MemChunk :=
  (pool.segments.flatMap MemSegment.list).find? fun c => c.self = p

/-- `chunk->free = 1;` for the chunk at an address. -/
def MemSegment.setFree (segment : MemSegment) (p : Nat) : MemSegment :=
  { segment with list := segment.list.map fun c => if c.self = p then { c with free := true } else c }

/-- `memPoolFree`. -/
def memPoolFree (pool : MemPool) (ptr : Nat) : Option MemPool :=
  if ptr = 0 then some pool
  else do
    let chunk ← pool.chunk (ptr - sizeofMemChunk.toNat)
    let segments := pool.segments.map fun segment => segment.setFree chunk.self
    let segment ← segments[chunk.segmentId.toNat]?
    let segment := { segment with allocated := segment.allocated - chunk.size, list := memSegmentMerge segment.list }
    return { pool with segments := segments.set chunk.segmentId.toNat segment }

/-! ### Iteration -/

/-- `MemPoolIterator`, with the chunks from `chunk` on. -/
structure MemPoolIterator where
  chunk : List MemChunk
  segmentId : BitVec 32

/-- `memPoolIteratorNew`. -/
def memPoolIteratorNew (pool : MemPool) : Option MemPoolIterator :=
  pool.segments[0]?.map fun segment => ⟨segment.list, 0⟩

/-- The end of `memPoolNext`. -/
def memPoolNextChunk (it : MemPoolIterator) : Option (Nat × MemPoolIterator) :=
  match it.chunk with
  | [] => none
  | cur :: next => some (cur.ptr, { it with chunk := next })

/-- `it->chunk == NULL || it->chunk->free`. -/
def MemPoolIterator.leaves (it : MemPoolIterator) : Bool := it.chunk.head?.all MemChunk.free

/-- `memPoolNext`, which returns 0 at the end. -/
def memPoolNext (pool : MemPool) (it : MemPoolIterator) : Option (Nat × MemPoolIterator) :=
  if it.leaves then
    let segmentId := it.segmentId + 1
    if segmentId ≥ BitVec.ofNat 32 pool.segments.length then some (0, { it with segmentId })
    else pool.segments[segmentId.toNat]?.bind fun segment => memPoolNextChunk ⟨segment.list, segmentId⟩
  else memPoolNextChunk it

/-- What `memPoolNext` returns from an iterator on, up to the end. -/
def memPoolReturns (pool : MemPool) (it : MemPoolIterator) : List Nat → Prop
  | [] => ∃ it', memPoolNext pool it = some (0, it')
  | p :: ps => p ≠ 0 ∧ ∃ it', memPoolNext pool it = some (p, it') ∧ memPoolReturns pool it' ps

/-! ### Runs -/

/-- The calls of a run. -/
inductive MemPoolCall where
  | alloc (size : BitVec 32) (a : PoolAnswers)
  | free (ptr : Nat)

/-- A requested size, rounded. -/
def roundedSize (size : BitVec 32) : Nat := (size.toNat + 7) / 8 * 8

/-- A pool in a heap, with the addresses and rounded sizes of the blocks that are live. -/
structure MemPoolState where
  heap : Heap
  pool : MemPool
  live : List (Nat × Nat)

/-- The state behind `memPoolInit`. -/
def MemPoolState.init (h : Heap) (a : PoolAnswers) (segmentCount bytes : BitVec 32) : Option MemPoolState :=
  (memPoolInit h a segmentCount bytes).map fun r => ⟨r.1, r.2, []⟩

/-- The state behind a call, with the pointer that it returns. -/
def MemPoolState.step (s : MemPoolState) : MemPoolCall → Option (MemPoolState × Nat)
  | .alloc size a => (memPoolAlloc s.heap s.pool a size).map fun (heap, pool, p) =>
    (⟨heap, pool, if p = 0 then s.live else (p, roundedSize size) :: s.live⟩, p)
  | .free ptr => (memPoolFree s.pool ptr).map fun pool => (⟨s.heap, pool, s.live.filter (·.1 ≠ ptr)⟩, 0)

/-! ### What is promised -/

/-- A chunk as a region. -/
def MemChunk.cell (chunk : MemChunk) : Nat × Nat := (chunk.self, chunk.size.toNat)

/-- The region behind the header of a chunk. -/
def MemChunk.region (chunk : MemChunk) : Nat × Nat := (chunk.ptr, chunk.size.toNat - sizeofMemChunk.toNat)

/-- The used chunks of a segment. -/
def MemSegment.used (segment : MemSegment) : List MemChunk := segment.list.filter fun c => !c.free

/-- The used chunks. -/
def MemPool.used (pool : MemPool) : List MemChunk := pool.segments.flatMap MemSegment.used

/-- What a pool promises of its chunks and regions: the chunks of a segment tile it, what is allocated of it is the sum
of its used chunks, and the live blocks have regions that do not overlap, lie in a segment and are large enough. -/
structure MemPoolState.Safe (s : MemPoolState) : Prop where
  blocks : ∀ seg ∈ s.pool.segments, (seg.buffer, s.pool.segmentCapacity.toNat) ∈ s.heap.blocks
  tiles : ∀ seg ∈ s.pool.segments,
    Heap.Tiles seg.buffer (seg.list.map MemChunk.cell) (seg.buffer + s.pool.segmentCapacity.toNat)
  allocated : ∀ seg ∈ s.pool.segments, seg.allocated.toNat = (seg.used.map fun c => c.size.toNat).sum
  inside : ∀ seg ∈ s.pool.segments, ∀ c ∈ seg.used, Heap.Within c.region (seg.buffer, s.pool.segmentCapacity.toNat)
  apart : (s.pool.used.map MemChunk.region).Pairwise Heap.Apart
  live : (s.pool.used.map MemChunk.ptr).Perm (s.live.map Prod.fst)
  holds : ∀ r ∈ s.live, ∃ c ∈ s.pool.used, c.region.1 = r.1 ∧ r.2 ≤ c.region.2

/-- What a pool promises: also that adjacent free chunks are merged and that `memPoolNext` returns the live blocks. -/
structure MemPoolState.Sound (s : MemPoolState) : Prop extends s.Safe where
  merged : ∀ seg ∈ s.pool.segments, seg.list.IsChain fun c d => ¬(c.free ∧ d.free)
  next : ∃ it ps, memPoolIteratorNew s.pool = some it ∧ memPoolReturns s.pool it ps ∧ ps.Perm (s.live.map Prod.fst)

/-- A request that fits an empty segment is served. -/
def MemPoolCall.Served (capacity : BitVec 32) : MemPoolCall → Nat → Prop
  | .alloc size _, p => size ≠ 0 → roundedSize size + sizeofMemChunk.toNat ≤ capacity.toNat → p ≠ 0
  | .free _, _ => True

/-! ### Calls -/

/-- `memPoolGetSegment` is called, and there is no segment that has the space. -/
def MemPool.Adds (pool : MemPool) (size : BitVec 32) : Prop :=
  size ≠ 0 ∧ memAlign size ≤ pool.segmentCapacity ∧ memPoolFindSegment pool (memAlign size + sizeofMemChunk) = none

/-- The array of segments is expanded for another one. -/
def MemPool.Expands (pool : MemPool) : Prop := BitVec.ofNat 32 pool.segments.length + 1 ≥ pool.segmentsArrayCapacity

instance (pool : MemPool) : Decidable pool.Expands := inferInstanceAs (Decidable (_ ≥ _))

/-- The answers to the requests for a segment are right, and not null. -/
structure PoolAnswers.RightSegment (h : Heap) (capacity : BitVec 32) (a : PoolAnswers) : Prop where
  segment : h.Right (2 ^ 64) 16 sizeofMemSegment a.segment
  segment_ne : a.segment.base ≠ 0
  buffer : (h.malloc sizeofMemSegment a.segment).Right (2 ^ 64) 16 capacity.toNat a.buffer
  buffer_ne : a.buffer.base ≠ 0

/-- The answer to the request for an array of segments is right, and not null. -/
structure PoolAnswers.RightArray (h : Heap) (capacity : BitVec 32) (a : PoolAnswers) : Prop where
  array : h.Right (2 ^ 64) 16 (sizeofMemSegmentPtr * capacity.toNat) a.array
  array_ne : a.array.base ≠ 0

/-- What `malloc` is asked for in a call it gives, and what is freed is live. -/
def MemPoolState.Allowed (s : MemPoolState) : MemPoolCall → Prop
  | .alloc size a => s.pool.Adds size → a.RightSegment s.heap s.pool.segmentCapacity
    ∧ (s.pool.Expands → a.RightArray ((s.heap.malloc sizeofMemSegment a.segment).malloc
      s.pool.segmentCapacity.toNat a.buffer) (s.pool.segmentsArrayCapacity * 2))
  | .free ptr => ∃ n, (ptr, n) ∈ s.live

/-- The part of the condition that is about numbers of 32 bits: neither the size nor what is needed with a header is
over 2^32, no segment is added to 2^31 - 1 of them, and the first segment has the id 0 when a chunk of it is freed. -/
def MemPoolState.Bounded (s : MemPoolState) : MemPoolCall → Prop
  | .alloc size _ => size ≠ 0 → size.toNat ≤ 2 ^ 32 - 8
    ∧ (memAlign size ≤ s.pool.segmentCapacity → (memAlign size).toNat + sizeofMemChunk.toNat < 2 ^ 32)
    ∧ (s.pool.Adds size → s.pool.segments.length + 1 < 2 ^ 31)
  | .free ptr => ∀ seg, s.pool.segments[0]? = some seg → ∀ c ∈ seg.used, c.ptr = ptr → seg.id = 0

/-- The condition on a call: a size with its header fits a segment or is refused, the sum that the segment is found by
is below 2^32, and only the last chunk of a segment is freed, which is not its first one unless it is the first
segment. -/
def MemPoolState.Meets (s : MemPoolState) (c : MemPoolCall) : Prop :=
  s.Bounded c ∧ match c with
  | .alloc size _ => size ≠ 0 → memAlign size ≤ s.pool.segmentCapacity →
    (memAlign size).toNat + sizeofMemChunk.toNat ≤ s.pool.segmentCapacity.toNat
      ∧ ∀ i ∈ memPoolFindSegment s.pool (memAlign size + sizeofMemChunk), ∀ seg ∈ s.pool.segments[i]?,
        seg.allocated.toNat + (memAlign size).toNat + sizeofMemChunk.toNat < 2 ^ 32
  | .free ptr => ∀ (i : Nat) seg, s.pool.segments[i]? = some seg → ∀ pre c post, seg.list = pre ++ c :: post →
    c.free = false → c.ptr = ptr → post = [] ∧ (i ≠ 0 → pre ≠ [])

end Polyc
