import Polyc.Lib.Refinement
import Polyc.Memory.MemPoolCompact

/-!
# Memory pools are allocators

Every call keeps what holds of the chunks and regions.  Adjacent free chunks are never merged, and `memPoolNext`
leaves a segment at its first free chunk; both do no harm as long as the free chunks come last, one in a segment.
-/

namespace Polyc

open Heap (Packed)

section

variable {before : List (Nat × Nat)} {h : Heap} {pool : MemPool} {live : List (Nat × Nat)} {i : Nat}
  {seg : MemSegment} {c : MemChunk} {a : PoolAnswers} {size capacity : BitVec 32} {s : MemPoolState}

/-! ### Every run -/

/-- `memPoolAlloc` of a size that is not over the capacity. -/
theorem MemPoolInv.memPoolAlloc_eq (hinv : MemPoolInv before ⟨h, pool, live⟩) (hne : size ≠ 0)
    (hle : memAlign size ≤ pool.segmentCapacity)
    (hallowed : MemPoolState.Allowed ⟨h, pool, live⟩ (.alloc size a))
    (hbounded : MemPoolState.Bounded ⟨h, pool, live⟩ (.alloc size a)) :
  ∃ h₁ pool₁ i seg, MemPoolInv before ⟨h₁, pool₁, live⟩ ∧ pool₁.segments[i]? = some seg
    ∧ pool₁.segmentCapacity = pool.segmentCapacity
    ∧ (pool₁ = pool ∧ memPoolFindSegment pool (memAlign size + sizeofMemChunk) = some i
      ∨ i = pool.segments.length ∧ pool₁.segments = pool.segments ++ [seg] ∧ seg.Whole pool.segmentCapacity)
    ∧ ((∀ c ∈ seg.list, ¬c.Room (memAlign size).toNat) ∧ memPoolAlloc h pool a size = some (h₁, pool₁, 0)
      ∨ ∃ pre cur post taken left, seg.list = pre ++ cur :: post ∧ cur.free = true
        ∧ ChunkTaken seg.id (memAlign size).toNat cur taken left
        ∧ memPoolAlloc h pool a size = some (h₁,
          { pool₁ with segments := pool₁.segments.set i (seg.taking pre taken left post) }, taken.ptr)
        ∧ MemPoolInv before ⟨h₁, { pool₁ with segments := pool₁.segments.set i (seg.taking pre taken left post) },
          (taken.ptr, roundedSize size) :: live⟩)
  := by
  obtain ⟨hsize, hfits, hcount⟩ := hbounded hne
  have hsum := hfits hle
  obtain ⟨h₁, pool₁, i, hget, hinv₁, hi, hcap, hfound⟩ := hinv.getSegment (memAlign size) (a := a)
    (fun hnone => hallowed ⟨hne, hle, hnone⟩) fun hnone => hcount ⟨hne, hle, hnone⟩
  obtain ⟨seg, hseg, hfrom⟩ := hinv₁.allocFrom hi hsum
  have halloc : memPoolAlloc h pool a size
      = (memPoolAllocFrom pool₁ i (memAlign size)).map fun r => (h₁, r.1, r.2) := by
    rw [memPoolAlloc, if_neg hne]
    simp only [if_neg (BitVec.not_lt.mpr hle), hget, Option.bind_some]
  refine ⟨h₁, pool₁, i, seg, hinv₁, hseg, hcap, ?_, ?_⟩
  · rcases hfound with hfound | ⟨seg', rfl, hsegments, hwhole⟩
    · exact .inl hfound
    · right
      rw [hsegments, List.getElem?_concat_length] at hseg
      cases hseg
      exact ⟨rfl, hsegments, hwhole⟩
  · rw [halloc]
    rcases hfrom with ⟨hnone, hfrom⟩ | ⟨pre, cur, post, taken, left, hlist, hfree, htakes, hfrom, hinv'⟩
    · left
      use hnone
      rw [hfrom]
      rfl
    · right
      rw [memAlign_toNat hsize] at hinv'
      refine ⟨pre, cur, post, taken, left, hlist, hfree, htakes, ?_, hinv'⟩
      rw [hfrom]
      rfl

/-- Another code for an error. -/
theorem MemPoolInv.setError (hinv : MemPoolInv before ⟨h, pool, live⟩) (error : MemPoolError) :
  MemPoolInv before ⟨h, { pool with error }, live⟩
  := ⟨hinv.has, hinv.array_ne, hinv.capacity, hinv.segs, hinv.lt, hinv.ids, hinv.live, hinv.holds⟩

/-- The id of the segment of a live pointer is its place. -/
theorem MemPoolInv.id_eq (hinv : MemPoolInv before s) (hi : s.pool.segments[i]? = some seg) (hc : c ∈ seg.used)
    (hbounded : s.Bounded (.free c.ptr)) :
  seg.id.toNat = i
  := by
  rcases eq_or_ne i 0 with rfl | hne
  · rw [hbounded seg hi c hc rfl]
    rfl
  · apply hinv.ids i seg hi hne

/-- The state behind `memPoolAlloc`. -/
theorem MemPoolState.step_alloc {h' : Heap} {pool' : MemPool} {p : Nat}
    (halloc : memPoolAlloc h pool a size = some (h', pool', p)) :
  MemPoolState.step ⟨h, pool, live⟩ (.alloc size a)
    = some (⟨h', pool', if p = 0 then live else (p, roundedSize size) :: live⟩, p)
  := by
  rw [MemPoolState.step, halloc]
  rfl

/-- Every call keeps what holds of a pool. -/
theorem MemPoolInv.step (hinv : MemPoolInv before s) {c : MemPoolCall} (hallowed : s.Allowed c)
    (hbounded : s.Bounded c) :
  ∃ s' p, s.step c = some (s', p) ∧ MemPoolInv before s'
  := by
  obtain ⟨h, pool, live⟩ := s
  cases c with
  | alloc size a =>
    rcases eq_or_ne size 0 with rfl | hne
    · exact ⟨⟨h, pool, live⟩, 0, rfl, hinv⟩
    rcases em (memAlign size > pool.segmentCapacity) with hgt | hle
    · refine ⟨⟨h, { pool with error := .allocationGreaterThanCapacityErr }, live⟩, 0, ?_, hinv.setError _⟩
      rw [MemPoolState.step, memPoolAlloc, if_neg hne]
      simp only [if_pos hgt]
      rfl
    · obtain ⟨h₁, pool₁, i, seg, hinv₁, -, -, -, ⟨-, halloc⟩ | ⟨pre, cur, post, taken, left, -, -, -, halloc, hinv'⟩⟩ :=
        hinv.memPoolAlloc_eq hne (BitVec.not_lt.mp hle) hallowed hbounded
      · exact ⟨⟨h₁, pool₁, live⟩, 0, MemPoolState.step_alloc halloc, hinv₁⟩
      · refine ⟨_, taken.ptr, ?_, hinv'⟩
        rw [MemPoolState.step_alloc halloc, if_neg taken.ptr_ne]
  | free ptr =>
    obtain ⟨m, hlive⟩ := hallowed
    obtain ⟨i, seg, pre, c, post, hi, hlist, hfree, rfl⟩ := hinv.exists_chunk hlive
    have hused : c ∈ seg.used := by
      apply List.mem_filter.mpr
      rw [hlist, hfree]
      exact ⟨List.mem_append_right _ List.mem_cons_self, rfl⟩
    refine ⟨_, 0, ?_, hinv.releasing hi hlist hfree⟩
    rw [MemPoolState.step, hinv.memPoolFree_eq hi hlist hfree (hinv.id_eq hi hused hbounded)]
    rfl

/-- A pool has one segment at first, which is one free chunk. -/
theorem memPoolInv_init {before : Heap} {segmentCount bytes : BitVec 32} (hbefore : Packed before.blocks)
    (hbytes : sizeofMemChunk < bytes) (harray : a.RightArray before 4)
    (hsegment : a.RightSegment (before.malloc (sizeofMemSegmentPtr * (4 : BitVec 32).toNat) a.array) bytes)
    (hinit : MemPoolState.init before a segmentCount bytes = some s) :
  MemPoolInv before.blocks s ∧ ∃ seg, s.pool.segments = [seg] ∧ seg.Whole bytes ∧ s.pool.segmentCapacity = bytes
  := by
  have hhas : before.Has before.blocks := ⟨.refl _, hbefore⟩
  have hle : sizeofMemChunk ≤ bytes := BitVec.le_of_lt hbytes
  obtain ⟨seg, hnew, hhas', hseg, hwhole, -, hused⟩ :=
    memSegmentAlloc_eq (hhas.malloc harray.array harray.array_ne (by decide)) hsegment hle segmentCount
  obtain ⟨⟨h, pool⟩, hpool, rfl⟩ := Option.map_eq_some_iff.mp hinit
  rw [memPoolInit] at hpool
  simp only [if_neg harray.array_ne, hnew, Option.bind_eq_bind, Option.bind_some] at hpool
  cases hpool
  have hnone : ([seg] : List MemSegment).flatMap MemSegment.used = [] := by
    rw [List.flatMap_singleton, hused]
  refine ⟨⟨?_, harray.array_ne, hle, ?_, show 1 < (4 : BitVec 32).toNat by decide, ?_, ?_, ?_⟩, seg, rfl, hwhole, rfl⟩
  · apply hhas'.of_perm
    show (seg.owns bytes ++ (a.array.base, sizeofMemSegmentPtr * (4 : BitVec 32).toNat) :: before.blocks).Perm
      ((a.array.base, sizeofMemSegmentPtr * (4 : BitVec 32).toNat)
        :: ([seg] : List MemSegment).flatMap (MemSegment.owns bytes) ++ before.blocks)
    rw [List.flatMap_singleton]
    apply List.perm_middle
  · intro a ha
    rw [List.mem_singleton.mp ha]
    apply hseg
  · intro j a ha hj
    obtain ⟨hlt, -⟩ := List.getElem?_eq_some_iff.mp ha
    exact absurd (Nat.lt_one_iff.mp hlt) hj
  · show (List.map MemChunk.ptr (([seg] : List MemSegment).flatMap MemSegment.used)).Perm []
    rw [hnone]
    apply List.Perm.nil
  · intro r hr
    cases hr

/-! ### Runs in which the free chunks come last -/

/-- A pool whose free chunks come last promises everything. -/
theorem MemPoolInv.sound (hinv : MemPoolInv before s) (hcompact : s.pool.Compact 0) (hpos : 0 < s.pool.segments.length) :
  s.Sound
  := by
  have hlt : s.pool.segments.length < 2 ^ 32 := lt_trans hinv.lt s.pool.segmentsArrayCapacity.isLt
  obtain ⟨it, hit, hreturns⟩ := hcompact.returns hlt hpos
  refine ⟨hinv.safe, ?_, it, _, hit, hreturns, hinv.live⟩
  intro seg hseg
  obtain ⟨us, tl, hlist⟩ := hcompact.lists seg hseg
  apply hlist.isChain

/-- The chunk of a segment that is one free chunk comes last. -/
theorem MemSegment.Whole.compactList (hwhole : seg.Whole capacity) :
  CompactList [] [⟨seg.buffer, seg.id, capacity, true⟩] seg.list
  := by
  refine ⟨hwhole, fun c hc => absurd hc List.not_mem_nil, ?_, Nat.le_refl _⟩
  intro c hc
  rw [List.mem_singleton.mp hc]

/-- A segment that was added is one free chunk at the end. -/
theorem MemPool.Compact.add (hcompact : pool.Compact 0) (hwhole : seg.Whole capacity) {pool' : MemPool}
    (hsegments : pool'.segments = pool.segments ++ [seg]) :
  pool'.Compact pool.segments.length
  := by
  constructor
  · intro b hb
    rw [hsegments] at hb
    rcases List.mem_append.mp hb with hb | hb
    · apply hcompact.lists b hb
    · obtain rfl := List.mem_singleton.mp hb
      exact ⟨_, _, hwhole.compactList⟩
  · intro k b hb hk hne
    rw [hsegments] at hb
    rcases Nat.lt_or_gt_of_ne hne with hlt | hgt
    · rw [List.getElem?_append_left hlt] at hb
      apply hcompact.first k b hb hk hk
    · rw [List.getElem?_eq_none] at hb
      · cases hb
      · rw [List.length_append]
        apply hgt

/-- The segment that `memPoolAlloc` allocates from has a chunk with room. -/
theorem MemPoolInv.exists_room (hinv : MemPoolInv before ⟨h, pool, live⟩) (hcompact : pool.Compact 0)
    (hne : size ≠ 0) (hle : memAlign size ≤ pool.segmentCapacity)
    (hmeets : MemPoolState.Meets ⟨h, pool, live⟩ (.alloc size a))
    (hfound : memPoolFindSegment pool (memAlign size + sizeofMemChunk) = some i) (hi : pool.segments[i]? = some seg) :
  ∃ c ∈ seg.list, c.Room (memAlign size).toNat
  := by
  obtain ⟨hfits, hsum⟩ := hmeets.2 hne hle
  have hlt := hsum i hfound seg hi
  obtain ⟨us, tl, hlist⟩ := hcompact.lists seg (List.mem_of_getElem? hi)
  apply hlist.exists_room (hinv.segs seg (List.mem_of_getElem? hi))
  obtain ⟨hlen, htest, -⟩ := List.findIdx?_eq_some_iff_getElem.mp hfound
  obtain ⟨_, hget⟩ := List.getElem?_eq_some_iff.mp hi
  rw [hget] at htest
  have hle' : (seg.allocated + (memAlign size + sizeofMemChunk)).toNat ≤ pool.segmentCapacity.toNat :=
    of_decide_eq_true htest
  rw [BitVec.toNat_add_of_lt, BitVec.toNat_add_of_lt] at hle'
  · show _ ≤ pool.segmentCapacity.toNat
    omega
  · omega
  · rw [BitVec.toNat_add_of_lt]
    · omega
    · omega

/-- Every call that meets the condition keeps the free chunks last, and is served. -/
theorem MemPoolInv.step_compact (hinv : MemPoolInv before s) (hcompact : s.pool.Compact 0)
    (hpos : 0 < s.pool.segments.length) {c : MemPoolCall} (hallowed : s.Allowed c) (hmeets : s.Meets c) :
  ∃ s' p, s.step c = some (s', p) ∧ MemPoolInv before s' ∧ s'.pool.Compact 0 ∧ 0 < s'.pool.segments.length
    ∧ s'.pool.segmentCapacity = s.pool.segmentCapacity ∧ c.Served s.pool.segmentCapacity p
  := by
  obtain ⟨h, pool, live⟩ := s
  cases c with
  | alloc size a =>
    rcases eq_or_ne size 0 with rfl | hne
    · exact ⟨⟨h, pool, live⟩, 0, rfl, hinv, hcompact, hpos, rfl, fun hne => absurd rfl hne⟩
    have hround : (memAlign size).toNat = roundedSize size := memAlign_toNat (hmeets.1 hne).1
    rcases em (memAlign size > pool.segmentCapacity) with hgt | hnot
    · refine ⟨⟨h, { pool with error := .allocationGreaterThanCapacityErr }, live⟩, 0, ?_, hinv.setError _,
        ⟨hcompact.lists, hcompact.first⟩, hpos, rfl, fun _ hfits => ?_⟩
      · rw [MemPoolState.step, memPoolAlloc, if_neg hne]
        simp only [if_pos hgt]
        rfl
      · have hlt : pool.segmentCapacity.toNat < (memAlign size).toNat := hgt
        change roundedSize size + _ ≤ pool.segmentCapacity.toNat at hfits
        omega
    · have hle := BitVec.not_lt.mp hnot
      obtain ⟨h₁, pool₁, i, seg, hinv₁, hi, hcap, hfound, hcases⟩ :=
        hinv.memPoolAlloc_eq hne hle hallowed hmeets.1
      obtain ⟨but, hcompact₁, hbut, hroom⟩ : ∃ but, pool₁.Compact but ∧ (but = 0 ∨ but = i)
          ∧ ∃ c ∈ seg.list, c.Room (memAlign size).toNat := by
        rcases hfound with ⟨rfl, hfound⟩ | ⟨rfl, hsegments, hwhole⟩
        · exact ⟨0, hcompact, .inl rfl, hinv.exists_room hcompact hne hle hmeets hfound hi⟩
        · refine ⟨pool.segments.length, hcompact.add hwhole hsegments, .inr rfl,
            ⟨⟨seg.buffer, seg.id, pool.segmentCapacity, true⟩, ?_, rfl, (hmeets.2 hne hle).1⟩⟩
          rw [hwhole]
          apply List.mem_cons_self
      rcases hcases with ⟨hnone, -⟩ | ⟨pre, cur, post, taken, left, hlist, hfree, htakes, halloc, hinv'⟩
      · obtain ⟨c, hc, hroom⟩ := hroom
        exact absurd hroom (hnone c hc)
      · refine ⟨_, taken.ptr, ?_, hinv', hcompact₁.taking hbut hi hlist hfree htakes, ?_, hcap,
          fun _ _ => taken.ptr_ne⟩
        · rw [MemPoolState.step_alloc halloc, if_neg taken.ptr_ne]
        · show 0 < (pool₁.segments.set i _).length
          rw [List.length_set]
          apply Nat.zero_lt_of_lt (List.getElem?_eq_some_iff.mp hi).1
  | free ptr =>
    obtain ⟨m, hlive⟩ := hallowed
    obtain ⟨i, seg, pre, c, post, hi, hlist, hfree, rfl⟩ := hinv.exists_chunk hlive
    have hused : c ∈ seg.used := by
      apply List.mem_filter.mpr
      rw [hlist, hfree]
      exact ⟨List.mem_append_right _ List.mem_cons_self, rfl⟩
    obtain ⟨rfl, hpre⟩ := hmeets.2 i seg hi pre c post hlist hfree rfl
    refine ⟨_, 0, ?_, hinv.releasing hi hlist hfree, hcompact.releasing hi hlist hfree hpre, ?_, rfl, trivial⟩
    · rw [MemPoolState.step, hinv.memPoolFree_eq hi hlist hfree (hinv.id_eq hi hused hmeets.1)]
      rfl
    · show 0 < (pool.segments.set i _).length
      rw [List.length_set]
      apply hpos

/-- In every run without numbers over 2^32 the regions and chunks are what is promised of them, also where chunks are
freed in any order. -/
theorem memPool_safe (before : Heap) (segmentCount bytes : BitVec 32) (a : PoolAnswers) (calls : List MemPoolCall)
    (s : MemPoolState) (hbefore : Packed before.blocks) (hbytes : sizeofMemChunk < bytes)
    (harray : a.RightArray before 4)
    (hsegment : a.RightSegment (before.malloc (sizeofMemSegmentPtr * (4 : BitVec 32).toNat) a.array) bytes)
    (hinit : MemPoolState.init before a segmentCount bytes = some s)
    (hallowed : Refinement.Guarded MemPoolState.step MemPoolState.Allowed s calls)
    (hbounded : Refinement.Guarded MemPoolState.step MemPoolState.Bounded s calls) :
  s.Safe ∧ Refinement.Steps MemPoolState.step (fun _ _ s' _ => s'.Safe) s calls
  := by
  obtain ⟨hinv, -⟩ := memPoolInv_init hbefore hbytes harray hsegment hinit
  use hinv.safe
  apply Refinement.steps_of_invariant (MemPoolInv before.blocks) _ hinv (hallowed.and hbounded)
  intro s c hinv hguard
  obtain ⟨s', p, hstep, hinv'⟩ := hinv.step hguard.1 hguard.2
  exact ⟨s', p, hstep, hinv'.safe, hinv'⟩

/-- In every run in which only last chunks are freed and no number is over 2^32, the pool keeps what it promises. -/
theorem memPool_sound (before : Heap) (segmentCount bytes : BitVec 32) (a : PoolAnswers) (calls : List MemPoolCall)
    (s : MemPoolState) (hbefore : Packed before.blocks) (hbytes : sizeofMemChunk < bytes)
    (harray : a.RightArray before 4)
    (hsegment : a.RightSegment (before.malloc (sizeofMemSegmentPtr * (4 : BitVec 32).toNat) a.array) bytes)
    (hinit : MemPoolState.init before a segmentCount bytes = some s)
    (hallowed : Refinement.Guarded MemPoolState.step MemPoolState.Allowed s calls)
    (hmeets : Refinement.Guarded MemPoolState.step MemPoolState.Meets s calls) :
  s.Sound
    ∧ Refinement.Steps MemPoolState.step (fun _ c s' p => s'.Sound ∧ c.Served bytes p) s calls
  := by
  obtain ⟨hinv, seg, hsegments, hwhole, hcap⟩ := memPoolInv_init hbefore hbytes harray hsegment hinit
  have hpos : 0 < s.pool.segments.length := by
    rw [hsegments]
    apply Nat.one_pos
  have hcompact : s.pool.Compact 0 := by
    constructor
    · intro b hb
      rw [hsegments] at hb
      obtain rfl := List.mem_singleton.mp hb
      exact ⟨_, _, hwhole.compactList⟩
    · intro k b hb hk
      rw [hsegments, List.getElem?_eq_none (Nat.one_le_iff_ne_zero.mpr hk)] at hb
      cases hb
  use hinv.sound hcompact hpos
  apply Refinement.steps_of_invariant (fun s => MemPoolInv before.blocks s ∧ s.pool.Compact 0
    ∧ 0 < s.pool.segments.length ∧ s.pool.segmentCapacity = bytes) _ ⟨hinv, hcompact, hpos, hcap⟩ (hallowed.and hmeets)
  rintro s c ⟨hinv, hcompact, hpos, rfl⟩ hguard
  obtain ⟨s', p, hstep, hinv', hcompact', hpos', hcap', hserved⟩ :=
    hinv.step_compact hcompact hpos hguard.1 hguard.2
  exact ⟨s', p, hstep, ⟨hinv'.sound hcompact' hpos', hserved⟩, hinv', hcompact', hpos', hcap'⟩

end

/-- What `malloc` answers below: for a pool of segments with 64 bytes, and for another segment. -/
def poolAnswers : PoolAnswers × PoolAnswers :=
  (⟨⟨48, fun _ => 0⟩, ⟨80, fun _ => 0⟩, ⟨16, fun _ => 0⟩⟩, ⟨⟨144, fun _ => 0⟩, ⟨176, fun _ => 0⟩, ⟨0, fun _ => 0⟩⟩)

/-- The first answers are right. -/
theorem poolAnswers_right :
  poolAnswers.1.RightArray noBlocks 4
    ∧ poolAnswers.1.RightSegment (noBlocks.malloc (sizeofMemSegmentPtr * (4 : BitVec 32).toNat) poolAnswers.1.array) 64
  := by
  exact ⟨⟨⟨by decide, by decide, by decide, fun _ _ _ _ _ => rfl⟩, by decide⟩,
    ⟨⟨by decide, by decide, by decide, fun _ _ _ _ _ => rfl⟩, by decide,
      ⟨by decide, by decide, by decide, fun _ _ _ _ _ => rfl⟩, by decide⟩⟩

/-- The first chunk of a segment is freed before the second one. -/
theorem memPool_safe_first :
  ∃ s, MemPoolState.init noBlocks poolAnswers.1 0 64 = some s ∧ s.Safe
    ∧ Refinement.Steps MemPoolState.step (fun _ _ s' _ => s'.Safe) s
      [.alloc 8 poolAnswers.2, .alloc 8 poolAnswers.2, .free 104]
  := by
  refine ⟨_, rfl, ?_⟩
  apply memPool_safe noBlocks 0 64 poolAnswers.1 _ _ Packed.nil (by decide) poolAnswers_right.1 poolAnswers_right.2 rfl
  · constructor
    · rintro ⟨-, -, ⟨⟩⟩
    rintro _ ⟨⟩
    constructor
    · rintro ⟨-, -, ⟨⟩⟩
    rintro _ ⟨⟩
    exact ⟨⟨8, by decide⟩, fun _ _ => trivial⟩
  · refine ⟨fun _ => ⟨by decide, fun _ => by decide, fun _ => by decide⟩, ?_⟩
    rintro _ ⟨⟩
    refine ⟨fun _ => ⟨by decide, fun _ => by decide, fun _ => by decide⟩, ?_⟩
    rintro _ ⟨⟩
    refine ⟨?_, fun _ _ => trivial⟩
    rintro _ ⟨⟩ _ _ _
    rfl

/-- Two segments are filled, and the first one is freed. -/
theorem memPool_sound_three :
  ∃ s, MemPoolState.init noBlocks poolAnswers.1 0 64 = some s ∧ s.Sound
    ∧ Refinement.Steps MemPoolState.step (fun _ c s' p => s'.Sound ∧ c.Served 64 p) s
      [.alloc 40 poolAnswers.1, .alloc 33 poolAnswers.2, .free 104]
  := by
  refine ⟨_, rfl, ?_⟩
  apply memPool_sound noBlocks 0 64 poolAnswers.1 _ _ Packed.nil (by decide) poolAnswers_right.1 poolAnswers_right.2 rfl
  · refine ⟨?_, ?_⟩
    · rintro ⟨-, -, ⟨⟩⟩
    rintro _ ⟨⟩
    refine ⟨fun _ => ⟨⟨⟨by decide, by decide, by decide, fun _ _ _ _ _ => rfl⟩, by decide,
      ⟨by decide, by decide, by decide, fun _ _ _ _ _ => rfl⟩, by decide⟩, ?_⟩, ?_⟩
    · intro hexpands
      exact absurd hexpands (by decide)
    rintro _ ⟨⟩
    exact ⟨⟨40, by decide⟩, fun _ _ => trivial⟩
  · refine ⟨⟨fun _ => ⟨by decide, fun _ => by decide, fun _ => by decide⟩, fun _ _ => ⟨by decide, ?_⟩⟩, ?_⟩
    · rintro _ ⟨⟩ _ ⟨⟩
      decide
    rintro _ ⟨⟩
    refine ⟨⟨fun _ => ⟨by decide, fun _ => by decide, fun _ => by decide⟩, fun _ _ => ⟨by decide, ?_⟩⟩, ?_⟩
    · rintro _ ⟨⟩
    rintro _ ⟨⟩
    refine ⟨⟨?_, ?_⟩, fun _ _ => trivial⟩
    · rintro _ ⟨⟩ _ _ _
      rfl
    · rintro (_ | _ | i) _ ⟨⟩ pre c post hlist - hptr
      · rcases List.append_eq_singleton_iff.mp hlist.symm with ⟨rfl, hc⟩ | ⟨-, hc⟩
        · cases hc
          exact ⟨rfl, fun hne => absurd rfl hne⟩
        · cases hc
      · -- the chunk of the second segment is at another address
        rcases List.append_eq_singleton_iff.mp hlist.symm with ⟨rfl, hc⟩ | ⟨-, hc⟩
        · cases hc
          revert hptr
          decide
        · cases hc

/-- A chunk that is freed is not merged with the free one behind it. -/
theorem not_memPool_sound :
  ∃ s, MemPoolState.init noBlocks poolAnswers.1 0 64 = some s
    ∧ Refinement.Guarded MemPoolState.step MemPoolState.Allowed s [.alloc 8 poolAnswers.1, .free 104]
    ∧ ¬Refinement.Steps MemPoolState.step (fun _ c s' p => s'.Sound ∧ c.Served 64 p) s
      [.alloc 8 poolAnswers.1, .free 104]
  := by
  refine ⟨_, rfl, ⟨?_, ?_⟩, ?_⟩
  · rintro ⟨-, -, ⟨⟩⟩
  · rintro _ ⟨⟩
    exact ⟨⟨8, by decide⟩, fun _ _ => trivial⟩
  · rintro ⟨_, _, halloc, -, _, _, hfree, ⟨hsound, -⟩, -⟩
    cases halloc
    cases hfree
    have hmerged := hsound.merged _ List.mem_cons_self
    exact (List.isChain_cons_cons.mp hmerged).1 ⟨rfl, rfl⟩

end Polyc
