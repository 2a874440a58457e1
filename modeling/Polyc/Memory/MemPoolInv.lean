import Polyc.Memory.MemPoolChunks

/-!
# What holds of a pool

The heap has the array, the segments and their buffers next to the blocks that were there before.  The chunks of
all segments are at different addresses, so that a pointer says which one is freed.  `memPoolGetSegment`, the loop of
`memPoolAlloc` and `memPoolFree` keep what holds of a pool.
-/

namespace Polyc

open Heap (Packed Tiles Within)

/-! ### Chunks of all segments -/

/-- What a segment has of the heap. -/
def MemSegment.owns (capacity : BitVec 32) (seg : MemSegment) : List (Nat × Nat) :=
  [(seg.buffer, capacity.toNat), (seg.self, sizeofMemSegment)]

/-- What a pool has of the heap. -/
def MemPool.owns (pool : MemPool) : List (Nat × Nat) :=
  (pool.array, sizeofMemSegmentPtr * pool.segmentsArrayCapacity.toNat)
    :: pool.segments.flatMap (MemSegment.owns pool.segmentCapacity)

/-- The chunks of all segments. -/
def MemPool.chunks (pool : MemPool) : List MemChunk := pool.segments.flatMap MemSegment.list

/-- A pool in a heap, next to blocks that were there before it, with the blocks that are live. -/
structure MemPoolInv (before : List (Nat × Nat)) (s : MemPoolState) : Prop where
  has : s.heap.Has (s.pool.owns ++ before)
  array_ne : s.pool.array ≠ 0
  capacity : sizeofMemChunk ≤ s.pool.segmentCapacity
  segs : ∀ seg ∈ s.pool.segments, seg.Inv s.pool.segmentCapacity
  lt : s.pool.segments.length < s.pool.segmentsArrayCapacity.toNat
  ids : ∀ (i : Nat) seg, s.pool.segments[i]? = some seg → i ≠ 0 → seg.id.toNat = i
  live : (s.pool.used.map MemChunk.ptr).Perm (s.live.map Prod.fst)
  holds : ∀ r ∈ s.live, ∃ c ∈ s.pool.used, c.region.1 = r.1 ∧ r.2 ≤ c.region.2

section

variable {before : List (Nat × Nat)} {s : MemPoolState} {h : Heap} {pool : MemPool} {live : List (Nat × Nat)} {i k : Nat}
  {seg seg' : MemSegment} {c d : MemChunk}

/-- The used chunks are some of all chunks. -/
theorem MemPool.used_sublist (pool : MemPool) :
  pool.used.Sublist pool.chunks
  := by
  have heq : pool.used = pool.chunks.filter fun c => !c.free := List.filter_flatMap.symm
  rw [heq]
  apply List.filter_sublist

/-- A buffer is allocated. -/
theorem MemPoolInv.buffer_mem (hinv : MemPoolInv before s) (hseg : seg ∈ s.pool.segments) :
  (seg.buffer, s.pool.segmentCapacity.toNat) ∈ s.heap.blocks
  := by
  apply hinv.has.mem (List.mem_append_left _ (List.mem_cons_of_mem _ _))
  apply List.mem_flatMap.mpr
  use seg, hseg
  apply List.mem_cons_self

/-- The chunks do not overlap. -/
theorem MemPoolInv.cells_packed (hinv : MemPoolInv before s) :
  Packed (s.pool.chunks.map MemChunk.cell)
  := by
  have hbuffers : s.pool.segments.Pairwise fun a b =>
      Heap.Apart (a.buffer, s.pool.segmentCapacity.toNat) (b.buffer, s.pool.segmentCapacity.toNat) := by
    have happ := (List.pairwise_append.mp hinv.has.packed.apart).1
    have hflat := (List.pairwise_cons.mp happ).2
    apply (List.pairwise_flatMap.mp hflat).2.imp
    exact fun h => h _ List.mem_cons_self _ List.mem_cons_self
  constructor
  · rw [MemPool.chunks, List.map_flatMap]
    apply List.pairwise_flatMap.mpr
    constructor
    · intro seg hseg
      apply (hinv.segs seg hseg).tiles.apart
    · apply hbuffers.imp_of_mem
      intro a b ha hb hab x hx y hy
      obtain ⟨c, hc, rfl⟩ := List.mem_map.mp hx
      obtain ⟨d, hd, rfl⟩ := List.mem_map.mp hy
      apply hab.within ((hinv.segs a ha).region_within hc).2 ((hinv.segs b hb).region_within hd).2
  · intro x hx
    obtain ⟨c, hc, rfl⟩ := List.mem_map.mp hx
    obtain ⟨seg, hseg, hc⟩ := List.mem_flatMap.mp hc
    apply lt_of_lt_of_le (show 0 < sizeofMemChunk.toNat by decide) ((hinv.segs seg hseg).header c hc)

/-- The chunks are at different addresses. -/
theorem MemPoolInv.nodup (hinv : MemPoolInv before s) :
  (s.pool.chunks.map MemChunk.self).Nodup
  := by
  have h := hinv.cells_packed.nodup_base
  rwa [List.map_map] at h

/-- The used chunks are at different addresses. -/
theorem MemPoolInv.used_nodup (hinv : MemPoolInv before s) :
  (s.pool.used.map MemChunk.ptr).Nodup
  := by
  have h := hinv.nodup.sublist (s.pool.used_sublist.map MemChunk.self)
  have hadd := h.map fun _ _ heq => Nat.add_right_cancel (m := sizeofMemChunk.toNat) heq
  rwa [List.map_map] at hadd

/-- The regions of the used chunks do not overlap. -/
theorem MemPoolInv.regions_apart (hinv : MemPoolInv before s) :
  (s.pool.used.map MemChunk.region).Pairwise Heap.Apart
  := by
  have hcells := List.pairwise_map.mp hinv.cells_packed.apart
  have hused := s.pool.used_sublist
  apply List.pairwise_map.mpr
  apply (hcells.sublist hused).imp_of_mem
  intro c d hc hd hcd
  obtain ⟨a, ha, hc⟩ := List.mem_flatMap.mp (hused.subset hc)
  obtain ⟨b, hb, hd⟩ := List.mem_flatMap.mp (hused.subset hd)
  apply hcd.within ((hinv.segs a ha).region_within hc).1 ((hinv.segs b hb).region_within hd).1

/-- A pool promises what it does of its chunks and regions. -/
theorem MemPoolInv.safe (hinv : MemPoolInv before s) :
  s.Safe
  where
  blocks _ hseg := hinv.buffer_mem hseg
  tiles seg hseg := (hinv.segs seg hseg).tiles
  allocated seg hseg := (hinv.segs seg hseg).allocated
  inside seg hseg c hc := by
    have hin := (hinv.segs seg hseg).region_within (MemSegment.mem_list_of_used hc).1
    exact ⟨hin.2.1.trans hin.1.1, hin.1.2.trans hin.2.2⟩
  apart := hinv.regions_apart
  live := hinv.live
  holds := hinv.holds

/-! ### One segment in place of another one -/

/-- The used chunks of a segment and those of the others. -/
theorem MemPool.used_perm (hi : pool.segments[i]? = some seg) :
  pool.used.Perm (seg.used ++ (pool.segments.eraseIdx i).flatMap MemSegment.used)
  := Heap.flatMap_perm_eraseIdx hi _

/-- The used chunks behind a change of a segment. -/
theorem MemPool.used_set_perm (hi : i < pool.segments.length) (seg' : MemSegment) :
  ({ pool with segments := pool.segments.set i seg' } : MemPool).used.Perm
    (seg'.used ++ (pool.segments.eraseIdx i).flatMap MemSegment.used)
  := (List.set_perm_cons_eraseIdx hi seg').flatMap_right _

/-- A segment is changed. -/
theorem MemPoolInv.replace (hinv : MemPoolInv before ⟨h, pool, live⟩) (hi : pool.segments[i]? = some seg)
    (hseg' : seg'.Inv pool.segmentCapacity) (hself : seg'.self = seg.self) (hbuffer : seg'.buffer = seg.buffer)
    (hid : seg'.id = seg.id) {live' : List (Nat × Nat)}
    (hlive : (({ pool with segments := pool.segments.set i seg' } : MemPool).used.map MemChunk.ptr).Perm
      (live'.map Prod.fst))
    (hholds : ∀ r ∈ live', ∃ c ∈ ({ pool with segments := pool.segments.set i seg' } : MemPool).used,
      c.region.1 = r.1 ∧ r.2 ≤ c.region.2) :
  MemPoolInv before ⟨h, { pool with segments := pool.segments.set i seg' }, live'⟩
  := by
  have hlt := (List.getElem?_eq_some_iff.mp hi).1
  -- the segment has the same of the heap
  have howns : (pool.segments.flatMap (MemSegment.owns pool.segmentCapacity)).Perm
      ((pool.segments.set i seg').flatMap (MemSegment.owns pool.segmentCapacity)) := by
    have hset := (List.set_perm_cons_eraseIdx hlt seg').flatMap_right (MemSegment.owns pool.segmentCapacity)
    rw [List.flatMap_cons, MemSegment.owns, hself, hbuffer] at hset
    apply (Heap.flatMap_perm_eraseIdx hi _).trans hset.symm
  refine ⟨?_, hinv.array_ne, hinv.capacity, ?_, ?_, ?_, hlive, hholds⟩
  · show h.Has ((pool.array, _) :: (pool.segments.set i seg').flatMap (MemSegment.owns pool.segmentCapacity) ++ before)
    apply hinv.has.of_perm
    apply (howns.cons _).append_right
  · intro a ha
    rcases List.mem_or_eq_of_mem_set ha with ha | rfl
    · apply hinv.segs a ha
    · apply hseg'
  · show (pool.segments.set i seg').length < _
    rw [List.length_set]
    apply hinv.lt
  · intro j a ha hj
    change (pool.segments.set i seg')[j]? = some a at ha
    rcases eq_or_ne i j with rfl | hne
    · rw [List.getElem?_set_self hlt] at ha
      cases ha
      rw [hid]
      apply hinv.ids i seg hi hj
    · rw [List.getElem?_set_ne hne] at ha
      apply hinv.ids j a ha hj

end

section

variable {before : List (Nat × Nat)} {h : Heap} {pool : MemPool} {live : List (Nat × Nat)} {i : Nat}
  {seg : MemSegment} {c : MemChunk} {a : PoolAnswers} {size capacity id : BitVec 32} {l : List (Nat × Nat)}

/-! ### Segments -/

/-- A segment that is one free chunk. -/
def MemSegment.Whole (capacity : BitVec 32) (seg : MemSegment) : Prop :=
  seg.list = [⟨seg.buffer, seg.id, capacity, true⟩]

/-- A new segment is one free chunk. -/
theorem memSegmentAlloc_eq (hh : h.Has l) (ha : a.RightSegment h capacity) (hcap : sizeofMemChunk ≤ capacity)
    (id : BitVec 32) :
  ∃ seg, memSegmentAlloc h a capacity id
      = some ((h.malloc sizeofMemSegment a.segment).malloc capacity.toNat a.buffer, seg)
    ∧ ((h.malloc sizeofMemSegment a.segment).malloc capacity.toNat a.buffer).Has (seg.owns capacity ++ l)
    ∧ seg.Inv capacity ∧ seg.Whole capacity ∧ seg.id = id ∧ seg.used = []
  := by
  have hpos : 0 < capacity.toNat := lt_of_lt_of_le (by decide) hcap
  have hsegment := hh.malloc ha.segment ha.segment_ne (by decide)
  have hbuffer := hsegment.malloc ha.buffer ha.buffer_ne hpos
  have hnot : ¬(a.buffer.base = 0 ∨ capacity < sizeofMemChunk) := by
    rintro (hzero | hlt)
    · apply ha.buffer_ne hzero
    · apply BitVec.not_lt.mpr hcap hlt
  refine ⟨⟨a.segment.base, id, [⟨a.buffer.base, id, capacity, true⟩], a.buffer.base, 0⟩, ?_, hbuffer,
    ⟨⟨rfl, rfl⟩, ?_, rfl, ?_⟩, rfl, rfl, rfl⟩
  · rw [memSegmentAlloc]
    simp only [if_neg ha.segment_ne, if_neg hnot]
  · intro c hc
    rw [List.mem_singleton.mp hc]
    apply hcap
  · intro c hc
    rw [List.mem_singleton.mp hc]

/-- A pool with room in its array takes another segment. -/
theorem MemPoolInv.add (hinv : MemPoolInv before ⟨h, pool, live⟩) {h' : Heap} {pool' : MemPool}
    (hsegments : pool'.segments = pool.segments) (hcap : pool'.segmentCapacity = pool.segmentCapacity)
    (harray : pool'.array ≠ 0) (hhas : h'.Has (pool'.owns ++ (seg.owns pool.segmentCapacity ++ before)))
    (hlt : pool.segments.length + 1 < pool'.segmentsArrayCapacity.toNat)
    (hseg : seg.Inv pool.segmentCapacity) (hid : seg.id.toNat = pool.segments.length) (hused : seg.used = []) :
  memPoolAddSegment pool' seg = some { pool' with segments := pool'.segments ++ [seg] }
    ∧ MemPoolInv before ⟨h', { pool' with segments := pool'.segments ++ [seg] }, live⟩
  := by
  have hsame : ({ pool' with segments := pool'.segments ++ [seg] } : MemPool).used = pool.used := by
    show (pool'.segments ++ [seg]).flatMap MemSegment.used = pool.segments.flatMap MemSegment.used
    rw [hsegments, List.flatMap_append, List.flatMap_singleton, hused, List.append_nil]
  constructor
  · apply if_pos
    rw [hsegments]
    omega
  refine ⟨?_, harray, ?_, ?_, ?_, ?_, ?_, ?_⟩
  · apply hhas.of_perm
    show (_ :: pool'.segments.flatMap _ ++ (seg.owns pool.segmentCapacity ++ before)).Perm
      (_ :: (pool'.segments ++ [seg]).flatMap (MemSegment.owns pool'.segmentCapacity) ++ before)
    rw [List.flatMap_append, List.flatMap_singleton, hcap, ← List.append_assoc, List.cons_append]
  · rw [hcap]
    apply hinv.capacity
  · intro a ha
    rw [hcap]
    rcases List.mem_append.mp ha with ha | ha
    · rw [hsegments] at ha
      apply hinv.segs a ha
    · rw [List.mem_singleton.mp ha]
      apply hseg
  · show (pool'.segments ++ [seg]).length < _
    rw [List.length_append, hsegments]
    apply hlt
  · intro j a ha hj
    change (pool'.segments ++ [seg])[j]? = some a at ha
    rw [hsegments] at ha
    rcases lt_or_ge j pool.segments.length with hlt | hge
    · rw [List.getElem?_append_left hlt] at ha
      apply hinv.ids j a ha hj
    · rw [List.getElem?_append_right hge] at ha
      obtain ⟨hlast, rfl⟩ := List.getElem?_eq_some_iff.mp ha
      have hlen : j - pool.segments.length < 1 := hlast
      rw [List.getElem_singleton, hid]
      omega
  · rw [hsame]
    apply hinv.live
  · intro r hr
    rw [hsame]
    apply hinv.holds r hr

/-- The number of segments and one more, as a number of 32 bits. -/
theorem segmentCount_succ (hlen : pool.segments.length + 1 < 2 ^ 31) :
  (BitVec.ofNat 32 pool.segments.length).toNat = pool.segments.length
    ∧ (BitVec.ofNat 32 pool.segments.length + 1).toNat = pool.segments.length + 1
  := by
  have hone : (1 : BitVec 32).toNat = 1 := rfl
  have hcount : (BitVec.ofNat 32 pool.segments.length).toNat = pool.segments.length := by
    rw [BitVec.toNat_ofNat, Nat.mod_eq_of_lt]
    omega
  use hcount
  rw [BitVec.toNat_add_of_lt, hcount, hone]
  omega

/-- The array has a slot for another segment, expanded or not. -/
theorem MemPoolInv.expand (hinv : MemPoolInv before ⟨h, pool, live⟩) {h₂ : Heap}
    (hhas : h₂.Has (seg.owns pool.segmentCapacity ++ (pool.owns ++ before)))
    (ha : pool.Expands → a.RightArray h₂ (pool.segmentsArrayCapacity * 2)) (hlen : pool.segments.length + 1 < 2 ^ 31) :
  ∃ h' pool', memPoolExpand h₂ pool a seg = some (h', pool', true) ∧ pool'.segments = pool.segments
    ∧ pool'.segmentCapacity = pool.segmentCapacity ∧ pool'.array ≠ 0
    ∧ h'.Has (pool'.owns ++ (seg.owns pool.segmentCapacity ++ before))
    ∧ pool.segments.length + 1 < pool'.segmentsArrayCapacity.toNat
  := by
  have hlt : pool.segments.length < pool.segmentsArrayCapacity.toNat := hinv.lt
  have hnext := (segmentCount_succ hlen).2
  rw [memPoolExpand]
  rcases em (BitVec.ofNat 32 pool.segments.length + 1 ≥ pool.segmentsArrayCapacity) with hfull | hroom
  · have hle : pool.segmentsArrayCapacity.toNat ≤ pool.segments.length + 1 := by
      rw [← hnext]
      apply hfull
    have hdouble : (pool.segmentsArrayCapacity * 2).toNat = pool.segmentsArrayCapacity.toNat * 2 := by
      apply BitVec.toNat_mul_of_lt
      show pool.segmentsArrayCapacity.toNat * 2 < 2 ^ 32
      omega
    have hright := ha hfull
    have hpos : 0 < sizeofMemSegmentPtr * (pool.segmentsArrayCapacity * 2).toNat := by
      apply Nat.mul_pos (by decide)
      omega
    -- the old array comes first, and is freed
    have hall : (h₂.malloc (sizeofMemSegmentPtr * (pool.segmentsArrayCapacity * 2).toNat) a.array).Has
        ((pool.array, sizeofMemSegmentPtr * pool.segmentsArrayCapacity.toNat)
          :: (a.array.base, sizeofMemSegmentPtr * (pool.segmentsArrayCapacity * 2).toNat)
          :: (seg.owns pool.segmentCapacity
            ++ (pool.segments.flatMap (MemSegment.owns pool.segmentCapacity) ++ before))) := by
      apply (hhas.malloc hright.array hright.array_ne hpos).of_perm
      rw [MemPool.owns, List.cons_append]
      apply (List.perm_middle.cons _).trans (List.Perm.swap _ _ _)
    obtain ⟨h₃, hfree, hhas₃⟩ := freePtr_eq hall hinv.array_ne
    have hfits : pool.segments.length ≤ (pool.segmentsArrayCapacity * 2).toNat := by
      omega
    refine ⟨h₃, { pool with array := a.array.base, segmentsArrayCapacity := pool.segmentsArrayCapacity * 2 }, ?_, rfl,
      rfl, hright.array_ne, hhas₃.of_perm ((List.perm_append_comm_assoc _ _ _).cons _), ?_⟩
    · simp only [if_pos hfull, if_neg hright.array_ne, if_pos hfits]
      change freePtr _ pool.array = some h₃ at hfree
      rw [hfree]
      rfl
    · show pool.segments.length + 1 < (pool.segmentsArrayCapacity * 2).toNat
      omega
  · have hlt' : pool.segments.length + 1 < pool.segmentsArrayCapacity.toNat := by
      rw [← hnext]
      apply Nat.lt_of_not_le hroom
    exact ⟨h₂, pool, if_neg hroom, rfl, rfl, hinv.array_ne, hhas.of_perm (List.perm_append_comm_assoc _ _ _), hlt'⟩

variable (size) in
/-- `memPoolGetSegment` finds a segment or adds one. -/
theorem MemPoolInv.getSegment (hinv : MemPoolInv before ⟨h, pool, live⟩)
    (ha : memPoolFindSegment pool (size + sizeofMemChunk) = none → a.RightSegment h pool.segmentCapacity
      ∧ (pool.Expands → a.RightArray ((h.malloc sizeofMemSegment a.segment).malloc pool.segmentCapacity.toNat a.buffer)
        (pool.segmentsArrayCapacity * 2)))
    (hcount : memPoolFindSegment pool (size + sizeofMemChunk) = none → pool.segments.length + 1 < 2 ^ 31) :
  ∃ h' pool' i, memPoolGetSegment h pool a size = some (h', pool', some i) ∧ MemPoolInv before ⟨h', pool', live⟩
    ∧ i < pool'.segments.length ∧ pool'.segmentCapacity = pool.segmentCapacity
    ∧ (pool' = pool ∧ memPoolFindSegment pool (size + sizeofMemChunk) = some i
      ∨ ∃ seg, i = pool.segments.length ∧ pool'.segments = pool.segments ++ [seg] ∧ seg.Whole pool.segmentCapacity)
  := by
  rw [memPoolGetSegment]
  cases hfind : memPoolFindSegment pool (size + sizeofMemChunk) with
  | some i =>
    have hlt : i < pool.segments.length := (List.findIdx?_eq_some_iff_findIdx_eq.mp hfind).1
    exact ⟨h, pool, i, rfl, hinv, hlt, rfl, .inl ⟨rfl, rfl⟩⟩
  | none =>
    obtain ⟨hright, harray⟩ := ha hfind
    have hlen := hcount hfind
    obtain ⟨seg, hnew, hhas, hseg, hwhole, hid, hused⟩ :=
      memSegmentAlloc_eq hinv.has hright hinv.capacity (BitVec.ofNat 32 pool.segments.length)
    have hplace : seg.id.toNat = pool.segments.length := by
      rw [hid]
      apply (segmentCount_succ hlen).1
    obtain ⟨h', pool', hexpand, hsegments, hcap, harray', hhas', hlt'⟩ := hinv.expand hhas harray hlen
    obtain ⟨hadd, hinv'⟩ := hinv.add hsegments hcap harray' hhas' hlt' hseg hplace hused
    refine ⟨h', { pool' with segments := pool'.segments ++ [seg] }, pool.segments.length, ?_, hinv', ?_, hcap,
      .inr ⟨seg, rfl, ?_, hwhole⟩⟩
    · change memSegmentAlloc h a _ _ = _ at hnew
      simp only [hnew, hexpand, hadd, Option.bind_eq_bind, Option.bind_some, if_true]
      rfl
    · show pool.segments.length < (pool'.segments ++ [seg]).length
      rw [hsegments, List.length_append]
      apply Nat.lt_succ_self
    · show pool'.segments ++ [seg] = _
      rw [hsegments]

/-! ### Allocation -/

/-- A chunk is taken in a segment of a pool. -/
theorem MemPoolInv.taking (hinv : MemPoolInv before ⟨h, pool, live⟩) (hi : pool.segments[i]? = some seg)
    {cur taken : MemChunk} {pre post left : List MemChunk} {n m : Nat} (hlist : seg.list = pre ++ cur :: post)
    (hfree : cur.free = true) (htakes : ChunkTaken seg.id n cur taken left) (hm : m ≤ n) :
  MemPoolInv before ⟨h, { pool with segments := pool.segments.set i (seg.taking pre taken left post) },
    (taken.ptr, m) :: live⟩
  := by
  have hlt := (List.getElem?_eq_some_iff.mp hi).1
  obtain ⟨hseg', hperm⟩ := (hinv.segs seg (List.mem_of_getElem? hi)).taking hlist hfree htakes
  have hused : ({ pool with segments := pool.segments.set i (seg.taking pre taken left post) } : MemPool).used.Perm
      (taken :: pool.used) :=
    ((MemPool.used_set_perm hlt _).trans (hperm.append_right _)).trans ((MemPool.used_perm hi).cons taken).symm
  apply hinv.replace hi hseg' rfl rfl rfl
  · apply (hused.map _).trans (hinv.live.cons _)
  · intro r hr
    rcases List.mem_cons.mp hr with rfl | hr
    · use taken, hused.mem_iff.mpr List.mem_cons_self, rfl
      have hroom := htakes.room
      show m ≤ taken.size.toNat - sizeofMemChunk.toNat
      omega
    · obtain ⟨c, hc, heq⟩ := hinv.holds r hr
      use c, hused.mem_iff.mpr (List.mem_cons_of_mem _ hc)

/-- `memPoolAlloc` takes a chunk of a segment, if there is one with room. -/
theorem MemPoolInv.allocFrom (hinv : MemPoolInv before ⟨h, pool, live⟩) (hi : i < pool.segments.length)
    (hsize : size.toNat + sizeofMemChunk.toNat < 2 ^ 32) :
  ∃ seg, pool.segments[i]? = some seg
    ∧ ((∀ c ∈ seg.list, ¬c.Room size.toNat) ∧ memPoolAllocFrom pool i size = some (pool, 0)
      ∨ ∃ pre cur post taken left, seg.list = pre ++ cur :: post ∧ cur.free = true
        ∧ ChunkTaken seg.id size.toNat cur taken left
        ∧ memPoolAllocFrom pool i size
          = some ({ pool with segments := pool.segments.set i (seg.taking pre taken left post) }, taken.ptr)
        ∧ MemPoolInv before ⟨h, { pool with segments := pool.segments.set i (seg.taking pre taken left post) },
          (taken.ptr, size.toNat) :: live⟩)
  := by
  have hseg : pool.segments[i]? = some pool.segments[i] := List.getElem?_eq_getElem hi
  use pool.segments[i], hseg
  rw [memPoolAllocFrom, hseg]
  rcases memPoolAllocLoop_eq pool.segments[i].id rfl hsize pool.segments[i].list with
    ⟨hnone, hloop⟩ | ⟨pre, cur, post, taken, left, hlist, hfree, hloop, htakes⟩
  · left
    use hnone
    simp only [hloop, Option.bind_eq_bind, Option.bind_some]
    rfl
  · right
    refine ⟨pre, cur, post, taken, left, hlist, hfree, htakes, ?_, hinv.taking hseg hlist hfree htakes (le_refl _)⟩
    simp only [hloop, Option.bind_eq_bind, Option.bind_some]
    rfl

/-! ### Freeing -/

/-- The chunk of a live pointer, and where it is. -/
theorem MemPoolInv.exists_chunk (hinv : MemPoolInv before ⟨h, pool, live⟩) {ptr m : Nat} (hp : (ptr, m) ∈ live) :
  ∃ (i : Nat) (seg : MemSegment) (pre : List MemChunk) (c : MemChunk) (post : List MemChunk),
    pool.segments[i]? = some seg ∧ seg.list = pre ++ c :: post ∧ c.free = false ∧ c.ptr = ptr
  := by
  obtain ⟨c, hc, hptr, -⟩ := hinv.holds _ hp
  obtain ⟨seg, hseg, hc⟩ := List.mem_flatMap.mp hc
  obtain ⟨hmem, hfree⟩ := MemSegment.mem_list_of_used hc
  obtain ⟨i, hi⟩ := List.mem_iff_getElem?.mp hseg
  obtain ⟨pre, post, hlist⟩ := List.append_of_mem hmem
  exact ⟨i, seg, pre, c, post, hi, hlist, hfree, hptr⟩

/-- A chunk is found at its address. -/
theorem MemPoolInv.chunk_eq (hinv : MemPoolInv before ⟨h, pool, live⟩) (hc : c ∈ pool.chunks) :
  pool.chunk c.self = some c
  := by
  have hsome : (pool.chunks.find? fun d => d.self = c.self).isSome :=
    List.find?_isSome.mpr ⟨c, hc, decide_eq_true rfl⟩
  obtain ⟨d, hd⟩ := Option.isSome_iff_exists.mp hsome
  have hself := List.find?_some hd
  have heq := List.inj_on_of_nodup_map hinv.nodup (List.mem_of_find?_eq_some hd) hc (of_decide_eq_true hself)
  rw [← heq] at hd ⊢
  apply hd

/-- The other chunks are at other addresses. -/
theorem MemPoolInv.self_ne (hinv : MemPoolInv before ⟨h, pool, live⟩) (hi : pool.segments[i]? = some seg)
    {pre post : List MemChunk} (hlist : seg.list = pre ++ c :: post) :
  (∀ d ∈ pre, d.self ≠ c.self) ∧ (∀ d ∈ post, d.self ≠ c.self)
    ∧ ∀ (k : Nat) b, k ≠ i → pool.segments[k]? = some b → ∀ d ∈ b.list, d.self ≠ c.self
  := by
  have hperm := Heap.flatMap_perm_eraseIdx hi MemSegment.list
  have hnodup := (hperm.map MemChunk.self).nodup_iff.mp hinv.nodup
  rw [hlist, List.append_assoc, List.map_append, List.cons_append, List.map_cons] at hnodup
  have hnot := (List.nodup_cons.mp (List.nodup_middle.mp hnodup)).1
  rw [← List.map_append] at hnot
  have hne : ∀ d ∈ pre ++ (post ++ (pool.segments.eraseIdx i).flatMap MemSegment.list), d.self ≠ c.self := by
    intro d hd heq
    apply hnot
    rw [← heq]
    apply List.mem_map_of_mem hd
  refine ⟨fun d hd => ?_, fun d hd => ?_, fun k b hk hb d hd => ?_⟩
  · apply hne d (List.mem_append_left _ hd)
  · apply hne d (List.mem_append_right _ (List.mem_append_left _ hd))
  · apply hne d (List.mem_append_right _ (List.mem_append_right _ (List.mem_flatMap.mpr ⟨b, ?_, hd⟩)))
    exact List.mem_eraseIdx_iff_getElem?.mpr ⟨k, hk, hb⟩

/-- Where there is no chunk at an address nothing is set. -/
theorem map_setFree_eq {p : Nat} {list : List MemChunk} (hne : ∀ d ∈ list, d.self ≠ p) :
  (list.map fun d => if d.self = p then { d with free := true } else d) = list
  := (List.map_congr_left fun d hd => if_neg (hne d hd)).trans (List.map_id' _)

/-- The header of one chunk is set. -/
theorem MemPoolInv.setFree_eq (hinv : MemPoolInv before ⟨h, pool, live⟩) (hi : pool.segments[i]? = some seg)
    {pre post : List MemChunk} (hlist : seg.list = pre ++ c :: post) :
  (pool.segments.map fun b => b.setFree c.self)
    = pool.segments.set i { seg with list := pre ++ { c with free := true } :: post }
  := by
  obtain ⟨hpre, hpost, hothers⟩ := hinv.self_ne hi hlist
  have hlt := (List.getElem?_eq_some_iff.mp hi).1
  apply List.ext_getElem?
  intro k
  rw [List.getElem?_map]
  rcases eq_or_ne i k with rfl | hne
  · rw [hi, List.getElem?_set_self hlt, Option.map_some, MemSegment.setFree, hlist, List.map_append, List.map_cons,
      map_setFree_eq hpre, map_setFree_eq hpost, if_pos rfl]
  · rw [List.getElem?_set_ne hne]
    cases hk : pool.segments[k]? with
    | none => rfl
    | some b => rw [Option.map_some, MemSegment.setFree, map_setFree_eq (hothers k b hne.symm hk)]

/-- `memPoolFree` of a used chunk whose segment has its place as its id. -/
theorem MemPoolInv.memPoolFree_eq (hinv : MemPoolInv before ⟨h, pool, live⟩) (hi : pool.segments[i]? = some seg)
    {pre post : List MemChunk} (hlist : seg.list = pre ++ c :: post) (hfree : c.free = false) (hid : seg.id.toNat = i) :
  memPoolFree pool c.ptr = some { pool with segments := pool.segments.set i (seg.releasing pre c post) }
  := by
  have hlt := (List.getElem?_eq_some_iff.mp hi).1
  have hseg := hinv.segs seg (List.mem_of_getElem? hi)
  have hmem : c ∈ seg.list := by
    rw [hlist]
    apply List.mem_append_right _ List.mem_cons_self
  have hself : c.ptr - sizeofMemChunk.toNat = c.self := Nat.add_sub_cancel _ _
  have hplace : c.segmentId.toNat = i := by
    rw [hseg.ids c hmem, hid]
  have hchunk := hinv.chunk_eq (List.mem_flatMap.mpr ⟨seg, List.mem_of_getElem? hi, hmem⟩)
  have hmerge : memSegmentMerge (pre ++ { c with free := true } :: post) = pre ++ { c with free := true } :: post :=
    memSegmentMerge_eq (hseg.releasing hlist hfree).1.tiles
  rw [memPoolFree, if_neg c.ptr_ne, hself, hchunk]
  simp only [Option.bind_eq_bind, Option.bind_some, hinv.setFree_eq hi hlist, hplace, List.getElem?_set_self hlt,
    List.set_set, hmerge]
  rfl

/-- A used chunk of a pool is freed. -/
theorem MemPoolInv.releasing (hinv : MemPoolInv before ⟨h, pool, live⟩) (hi : pool.segments[i]? = some seg)
    {pre post : List MemChunk} (hlist : seg.list = pre ++ c :: post) (hfree : c.free = false) :
  MemPoolInv before ⟨h, { pool with segments := pool.segments.set i (seg.releasing pre c post) },
    live.filter (·.1 ≠ c.ptr)⟩
  := by
  have hlt := (List.getElem?_eq_some_iff.mp hi).1
  obtain ⟨hseg', hperm⟩ := (hinv.segs seg (List.mem_of_getElem? hi)).releasing hlist hfree
  have hused : pool.used.Perm
      (c :: ({ pool with segments := pool.segments.set i (seg.releasing pre c post) } : MemPool).used) :=
    ((MemPool.used_perm hi).trans (hperm.append_right _)).trans ((MemPool.used_set_perm hlt _).symm.cons c)
  have hnodup := (hused.map MemChunk.ptr).nodup_iff.mp hinv.used_nodup
  apply hinv.replace hi hseg' rfl rfl rfl
  · have hfilter := (((hused.map MemChunk.ptr).symm.trans hinv.live).filter (· ≠ c.ptr))
    rw [List.map_cons, List.filter_cons_of_neg (by simp), List.filter_map] at hfilter
    have hkeep : ({ pool with segments := pool.segments.set i (seg.releasing pre c post) } : MemPool).used.filter
        ((fun x => decide (x ≠ c.ptr)) ∘ MemChunk.ptr)
          = ({ pool with segments := pool.segments.set i (seg.releasing pre c post) } : MemPool).used := by
      apply List.filter_eq_self.mpr
      intro d hd
      apply decide_eq_true
      intro heq
      apply (List.nodup_cons.mp hnodup).1
      rw [← heq]
      apply List.mem_map_of_mem hd
    rw [hkeep, List.filter_map] at hfilter
    apply hfilter
  · intro r hr
    obtain ⟨hr, hother⟩ := List.mem_filter.mp hr
    obtain ⟨d, hd, hptr, hle⟩ := hinv.holds r hr
    rcases List.mem_cons.mp (hused.mem_iff.mp hd) with rfl | hd
    · exact absurd hptr.symm (of_decide_eq_true hother)
    · exact ⟨d, hd, hptr, hle⟩

end

end Polyc
