import Mathlib.Algebra.Order.BigOperators.Group.List
import Polyc.Memory.Arena
import Polyc.Memory.MemPool

/-!
# The chunks of a segment

The chunks of a segment tile its buffer.  A chunk that is allocated is split in two that tile it, and chunks that
tile are never merged: `memSegmentMerge` looks for the next one behind another header.
-/

namespace Polyc

open Heap (Tiles Within)

/-- The rounding is that of the arena. -/
theorem memAlign_eq (size : BitVec 32) :
  memAlign size = arenaAlignMemorySize size
  := rfl

/-- A size that is rounded below 2^32. -/
theorem memAlign_toNat {size : BitVec 32} (h : size.toNat ≤ 2 ^ 32 - 8) :
  (memAlign size).toNat = roundedSize size
  := by
  rw [memAlign_eq, arenaAlignMemorySize_toNat, Nat.mod_eq_of_lt]
  · rfl
  · omega

/-- A pointer behind a header is not null. -/
theorem MemChunk.ptr_ne (c : MemChunk) :
  c.ptr ≠ 0
  := Nat.ne_of_gt (Nat.lt_of_lt_of_le (by decide) (Nat.le_add_left sizeofMemChunk.toNat c.self))

/-! ### Taking a chunk -/

/-- A chunk has room for a size and a header. -/
def MemChunk.Room (n : Nat) (c : MemChunk) : Prop := c.free = true ∧ n + sizeofMemChunk.toNat ≤ c.size.toNat

/-- A chunk is taken of another one, with what is left of that. -/
structure ChunkTaken (segmentId : BitVec 32) (n : Nat) (cur taken : MemChunk) (left : List MemChunk) : Prop where
  self : taken.self = cur.self
  id : taken.segmentId = segmentId
  used : taken.free = false
  room : n + sizeofMemChunk.toNat ≤ taken.size.toNat
  free : ∀ c ∈ left, c.free = true
  ids : ∀ c ∈ left, c.segmentId = cur.segmentId
  header : ∀ c ∈ left, sizeofMemChunk.toNat ≤ c.size.toNat
  length : left.length ≤ 1
  tiles : Tiles cur.self ((taken :: left).map MemChunk.cell) (cur.self + cur.size.toNat)

section

variable {segmentId size totalSize : BitVec 32} {cur : MemChunk} {list : List MemChunk} {lo hi : Nat}

variable (segmentId) in
/-- What `memPoolAlloc` takes of a chunk with room. -/
theorem memPoolTake_eq (htotal : totalSize = size + sizeofMemChunk)
    (hsize : size.toNat + sizeofMemChunk.toNat < 2 ^ 32) (hroom : cur.Room size.toNat) (next : List MemChunk) :
  ∃ taken left, memPoolTake cur next size totalSize = some (taken, left ++ next)
    ∧ ChunkTaken segmentId size.toNat cur { taken with segmentId, free := false } left
  := by
  subst htotal
  have hsum : (size + sizeofMemChunk).toNat = size.toNat + sizeofMemChunk.toNat := BitVec.toNat_add_of_lt hsize
  have hle := hroom.2
  have hwhole : ChunkTaken segmentId size.toNat cur { cur with segmentId, free := false } [] :=
    ⟨rfl, rfl, rfl, hle, fun _ h => absurd h List.not_mem_nil, fun _ h => absurd h List.not_mem_nil,
      fun _ h => absurd h List.not_mem_nil, Nat.zero_le _, rfl, rfl⟩
  rcases em (cur.size > size + sizeofMemChunk) with hgt | hnot
  · rw [memPoolTake, if_pos hgt, memPoolSplitBlock]
    dsimp only
    rcases em (cur.size.toNat < (size + sizeofMemChunk).toNat + minSplitSize) with hsmall | hlarge
    · exact ⟨cur, [], if_pos hsmall, hwhole⟩
    · have hnotlt : ¬size + sizeofMemChunk < sizeofMemChunk := by
        rw [BitVec.not_lt, BitVec.le_def, hsum]
        apply Nat.le_add_left
      rw [if_neg hlarge, if_neg hnotlt]
      have hmin : minSplitSize = sizeofMemChunk.toNat + 8 := rfl
      have hrest : (cur.size - (size + sizeofMemChunk)).toNat = cur.size.toNat - (size + sizeofMemChunk).toNat :=
        BitVec.toNat_sub_of_le (BitVec.le_of_lt hgt)
      refine ⟨_, [_], rfl, ⟨rfl, rfl, rfl, ?_, ?_, ?_, ?_, Nat.le_refl _, rfl, rfl, ?_⟩⟩
      · apply Nat.le_of_eq hsum.symm
      · intro c hc
        rw [List.mem_singleton.mp hc]
      · intro c hc
        rw [List.mem_singleton.mp hc]
      · intro c hc
        rw [List.mem_singleton.mp hc]
        show _ ≤ (cur.size - (size + sizeofMemChunk)).toNat
        omega
      · show cur.self + (size + sizeofMemChunk).toNat + (cur.size - (size + sizeofMemChunk)).toNat
          = cur.self + cur.size.toNat
        omega
  · exact ⟨cur, [], if_neg hnot, hwhole⟩

variable (segmentId) in
/-- The loop of `memPoolAlloc` takes the first chunk with room, if there is one. -/
theorem memPoolAllocLoop_eq (htotal : totalSize = size + sizeofMemChunk)
    (hsize : size.toNat + sizeofMemChunk.toNat < 2 ^ 32) (list : List MemChunk) :
  (∀ c ∈ list, ¬c.Room size.toNat) ∧ memPoolAllocLoop segmentId size totalSize list = some (list, none)
    ∨ ∃ pre cur post taken left, list = pre ++ cur :: post ∧ cur.free = true
      ∧ memPoolAllocLoop segmentId size totalSize list = some (pre ++ taken :: (left ++ post), some taken)
      ∧ ChunkTaken segmentId size.toNat cur taken left
  := by
  have hsum : (size + sizeofMemChunk).toNat = size.toNat + sizeofMemChunk.toNat := BitVec.toNat_add_of_lt hsize
  induction list with
  | nil =>
    left
    exact ⟨fun _ h => absurd h List.not_mem_nil, rfl⟩
  | cons cur next ih =>
    have hiff : (cur.free = true ∧ cur.size ≥ totalSize) ↔ cur.Room size.toNat := by
      rw [MemChunk.Room, ← hsum, ← htotal]
      rfl
    rcases em (cur.Room size.toNat) with hroom | hnone
    · right
      obtain ⟨taken, left, htake, htakes⟩ := memPoolTake_eq segmentId htotal hsize hroom next
      refine ⟨[], cur, next, _, left, rfl, hroom.1, ?_, htakes⟩
      rw [memPoolAllocLoop, if_pos (hiff.mpr hroom), htake]
      rfl
    · rw [memPoolAllocLoop, if_neg fun h => hnone (hiff.mp h)]
      rcases ih with ⟨hall, hloop⟩ | ⟨pre, cur', post, taken, left, hlist, hfree, hloop, htakes⟩
      · left
        constructor
        · intro c hc
          rcases List.mem_cons.mp hc with rfl | hc
          · apply hnone
          · apply hall c hc
        · rw [hloop]
          rfl
      · right
        refine ⟨cur :: pre, cur', post, taken, left, ?_, hfree, ?_, htakes⟩
        · rw [hlist]
          rfl
        · rw [hloop]
          rfl

/-! ### Merging -/

/-- Chunks that tile are not merged. -/
theorem memSegmentMergeLoop_eq (h : Tiles lo ((cur :: list).map MemChunk.cell) hi) :
  memSegmentMergeLoop cur list = cur :: list
  := by
  induction list generalizing cur lo with
  | nil => rfl
  | cons next rest ih =>
    have hself : cur.self = lo := h.1
    have hnext : next.self = lo + cur.size.toNat := h.2.1
    rw [memSegmentMergeLoop, if_neg, ih h.2]
    rintro ⟨-, -, heq⟩
    have hheader : sizeofMemChunk.toNat = 24 := rfl
    omega

/-- `memSegmentMerge` does nothing with chunks that tile. -/
theorem memSegmentMerge_eq (h : Tiles lo (list.map MemChunk.cell) hi) :
  memSegmentMerge list = list
  := by
  cases list with
  | nil => rfl
  | cons cur next => apply memSegmentMergeLoop_eq h

end

/-! ### What holds of a segment -/

/-- The chunks of a segment tile it with their headers, know it, and what is allocated is the sum of the used ones. -/
structure MemSegment.Inv (capacity : BitVec 32) (seg : MemSegment) : Prop where
  tiles : Tiles seg.buffer (seg.list.map MemChunk.cell) (seg.buffer + capacity.toNat)
  header : ∀ c ∈ seg.list, sizeofMemChunk.toNat ≤ c.size.toNat
  allocated : seg.allocated.toNat = (seg.used.map fun c => c.size.toNat).sum
  ids : ∀ c ∈ seg.list, c.segmentId = seg.id

section

variable {capacity : BitVec 32} {seg : MemSegment} {cur taken c : MemChunk} {pre post left : List MemChunk} {n : Nat}

/-- A used chunk is one of the list. -/
theorem MemSegment.mem_list_of_used (hc : c ∈ seg.used) :
  c ∈ seg.list ∧ c.free = false
  := by
  obtain ⟨hmem, hfree⟩ := List.mem_filter.mp hc
  exact ⟨hmem, (Bool.not_eq_true' _).mp hfree⟩

/-- The sizes of the chunks are the capacity. -/
theorem MemSegment.Inv.sum (hseg : seg.Inv capacity) :
  (seg.list.map fun c => c.size.toNat).sum = capacity.toNat
  := by
  have hsum := hseg.tiles.sum
  rw [List.map_map] at hsum
  apply Nat.add_left_cancel hsum

/-- The region of a chunk is in its segment. -/
theorem MemSegment.Inv.region_within (hseg : seg.Inv capacity) (hc : c ∈ seg.list) :
  Within c.region c.cell ∧ Within c.cell (seg.buffer, capacity.toNat)
  := by
  have hheader := hseg.header c hc
  refine ⟨⟨Nat.le_add_right _ _, ?_⟩, hseg.tiles.within (List.mem_map_of_mem hc)⟩
  show c.self + sizeofMemChunk.toNat + (c.size.toNat - sizeofMemChunk.toNat) ≤ c.self + c.size.toNat
  omega

variable (cur) in
/-- The chunks of a list in which one is taken. -/
theorem mem_of_take (hc : c ∈ pre ++ taken :: (left ++ post)) :
  c ∈ pre ++ cur :: post ∨ c = taken ∨ c ∈ left
  := by
  simp only [List.mem_append, List.mem_cons] at hc ⊢
  rcases hc with h | h | h | h
  · exact .inl (.inl h)
  · exact .inr (.inl h)
  · exact .inr (.inr h)
  · exact .inl (.inr (.inr h))

/-- The segment behind the loop of `memPoolAlloc`. -/
def MemSegment.taking (seg : MemSegment) (pre : List MemChunk) (taken : MemChunk) (left post : List MemChunk) :
    MemSegment :=
  { seg with list := pre ++ taken :: (left ++ post), allocated := seg.allocated + taken.size }

/-- A chunk is taken in a segment. -/
theorem MemSegment.Inv.taking (hseg : seg.Inv capacity) (hlist : seg.list = pre ++ cur :: post)
    (hfree : cur.free = true) (htakes : ChunkTaken seg.id n cur taken left) :
  (seg.taking pre taken left post).Inv capacity
    ∧ (seg.taking pre taken left post).used.Perm (taken :: seg.used)
  := by
  have hcur : cur ∈ seg.list := by
    rw [hlist]
    apply List.mem_append_right _ List.mem_cons_self
  have hleft : left.filter (fun c => !c.free) = [] := by
    apply List.filter_eq_nil_iff.mpr
    intro c hc
    rw [htakes.free c hc]
    decide
  have hused : seg.used = pre.filter (fun c => !c.free) ++ post.filter fun c => !c.free := by
    rw [MemSegment.used, hlist, List.filter_append, List.filter_cons_of_neg]
    rw [hfree]
    decide
  have hused' : ((pre ++ taken :: (left ++ post)).filter fun c => !c.free).Perm (taken :: seg.used) := by
    rw [hused, List.filter_append, List.filter_cons_of_pos (by rw [htakes.used]; rfl), List.filter_append, hleft]
    apply List.perm_middle
  have htiles : Tiles seg.buffer ((pre ++ taken :: (left ++ post)).map MemChunk.cell)
      (seg.buffer + capacity.toNat) := by
    have h := hseg.tiles
    rw [hlist, List.map_append, List.map_cons] at h
    rw [List.map_append, ← List.cons_append, List.map_append]
    apply h.replace htakes.tiles
  have hsum : seg.allocated.toNat + taken.size.toNat
      = (((pre ++ taken :: (left ++ post)).filter fun c => !c.free).map fun c => c.size.toNat).sum := by
    rw [(hused'.map _).sum_eq, List.map_cons, List.sum_cons, ← hseg.allocated, Nat.add_comm]
  refine ⟨⟨htiles, ?_, ?_, ?_⟩, hused'⟩
  · intro c hc
    rcases mem_of_take cur hc with hc | rfl | hc
    · apply hseg.header c
      rwa [hlist]
    · apply Nat.le_trans (Nat.le_add_left _ _) htakes.room
    · apply htakes.header c hc
  · -- what is allocated is at most the capacity
    have hle := ((List.filter_sublist (p := fun c => !c.free) (l := pre ++ taken :: (left ++ post))).map
      fun c => c.size.toNat).sum_le_sum fun _ _ => Nat.zero_le _
    have hcap := htiles.sum
    rw [List.map_map] at hcap
    have hlt := capacity.isLt
    have htotal : ((pre ++ taken :: (left ++ post)).map fun c => c.size.toNat).sum = capacity.toNat :=
      Nat.add_left_cancel hcap
    show (seg.allocated + taken.size).toNat = _
    rw [BitVec.toNat_add_of_lt, hsum]
    · rfl
    · rw [hsum]
      omega
  · intro c hc
    rcases mem_of_take cur hc with hc | rfl | hc
    · apply hseg.ids c
      rwa [hlist]
    · apply htakes.id
    · rw [htakes.ids c hc]
      apply hseg.ids cur hcur

/-- The segment behind `memPoolFree`. -/
def MemSegment.releasing (seg : MemSegment) (pre : List MemChunk) (c : MemChunk) (post : List MemChunk) : MemSegment :=
  { seg with list := pre ++ { c with free := true } :: post, allocated := seg.allocated - c.size }

/-- A used chunk of a segment is freed. -/
theorem MemSegment.Inv.releasing (hseg : seg.Inv capacity) (hlist : seg.list = pre ++ c :: post)
    (hfree : c.free = false) :
  (seg.releasing pre c post).Inv capacity ∧ seg.used.Perm (c :: (seg.releasing pre c post).used)
  := by
  have hused : seg.used.Perm (c :: (pre ++ { c with free := true } :: post).filter fun c => !c.free) := by
    rw [MemSegment.used, hlist, List.filter_append, List.filter_cons_of_pos (by rw [hfree]; rfl), List.filter_append,
      List.filter_cons_of_neg (by simp)]
    apply List.perm_middle
  have hsum : seg.allocated.toNat = c.size.toNat
      + (((pre ++ { c with free := true } :: post).filter fun c => !c.free).map fun c => c.size.toNat).sum := by
    rw [hseg.allocated, (hused.map _).sum_eq, List.map_cons, List.sum_cons]
  have hmem : ∀ d ∈ pre ++ { c with free := true } :: post, ∃ d' ∈ seg.list, d'.size = d.size
      ∧ d'.segmentId = d.segmentId := by
    intro d hd
    rw [hlist]
    rcases List.mem_append.mp hd with hd | hd
    · exact ⟨d, List.mem_append_left _ hd, rfl, rfl⟩
    · rcases List.mem_cons.mp hd with rfl | hd
      · exact ⟨c, List.mem_append_right _ List.mem_cons_self, rfl, rfl⟩
      · exact ⟨d, List.mem_append_right _ (List.mem_cons_of_mem _ hd), rfl, rfl⟩
  refine ⟨⟨?_, ?_, ?_, ?_⟩, hused⟩
  · have h := hseg.tiles
    rw [hlist, List.map_append, List.map_cons] at h
    show Tiles seg.buffer ((pre ++ { c with free := true } :: post).map MemChunk.cell) _
    rw [List.map_append, List.map_cons]
    apply h
  · intro d hd
    obtain ⟨d', hd', hsize, -⟩ := hmem d hd
    rw [← hsize]
    apply hseg.header d' hd'
  · show (seg.allocated - c.size).toNat = _
    rw [BitVec.toNat_sub_of_le, hsum, Nat.add_sub_cancel_left]
    · rfl
    · rw [BitVec.le_def, hsum]
      apply Nat.le_add_right
  · intro d hd
    obtain ⟨d', hd', -, hid⟩ := hmem d hd
    rw [← hid]
    apply hseg.ids d' hd'

end

end Polyc
