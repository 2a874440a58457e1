import Polyc.Memsafe.LiveMap
import Polyc.Lib.RingWindow

/-!
# The invariant of the tracking allocator

The blocks that a program holds, as told by what the calls returned to it, are those of the map;
their headers hold their sizes, and the ring has the last ones that were freed.
-/

namespace Polyc

/-! ### What the program holds -/

/-- The blocks that were returned and not yet freed, with their sizes, and those that were freed,
the last one first. -/
structure HeldBlocks where
  live : Word → Option Word
  retired : List Word

namespace HeldBlocks

/-- No block. -/
def none : HeldBlocks := ⟨fun _ => .none, []⟩

/-- A block is returned. -/
def add (A : HeldBlocks) (p size : Word) : HeldBlocks :=
  { A with live := Function.update A.live p (some size) }

/-- A block is freed. -/
def retire (A : HeldBlocks) (p : Word) : HeldBlocks :=
  ⟨Function.update A.live p .none, p :: A.retired⟩

/-- The blocks after a call that returned a pointer. -/
def after (A : HeldBlocks) : MemsafeCall → Word → HeldBlocks
  | .mAlloc size _, r => if r = 0 then A else A.add r size
  | .cAlloc size _, r => if r = 0 then A else A.add r size
  | .reAlloc p size _, r =>
    if r = 0 then A
    else if (A.live p).isSome then (A.add r size).retire p
    else A.add r size
  | .free p, _ => if (A.live p).isSome then A.retire p else A
  | .setRound _, _ => A
  | .store _, _ => A

/-- A pointer was freed not long ago and not returned since. -/
def Again (A : HeldBlocks) (p : Word) : Prop :=
  p ≠ 0 ∧ A.live p = .none ∧ p ∈ A.retired.take memsafeRingSize

instance (A : HeldBlocks) (p : Word) : Decidable (A.Again p) :=
  inferInstanceAs (Decidable (_ ∧ _ ∧ _))

/-- The blocks after one is returned. -/
theorem live_add (A : HeldBlocks) (p size q : Word) :
  (A.add p size).live q = if q = p then some size else A.live q
  := Function.update_apply _ _ _ _

/-- The blocks after one is freed. -/
theorem live_retire (A : HeldBlocks) (p q : Word) :
  (A.retire p).live q = if q = p then .none else A.live q
  := Function.update_apply _ _ _ _

end HeldBlocks

/-! ### The ring -/

/-- The ring has the pointers that were freed last. -/
structure RingHolds (s : Memsafe) (retired : List Word) : Prop where
  length : s.ring.length = memsafeRingSize
  next : s.ringNext < memsafeRingSize
  window : (Ring.window s.ring memsafeNoEntry memsafeRingSize s.ringNext memsafeRingSize).map
      MemsafeEntry.ptr
    = ((retired ++ List.replicate memsafeRingSize 0).take memsafeRingSize).reverse

/-- A pointer is found in the ring when it is one of the last that were freed. -/
theorem RingHolds.find_iff {s : Memsafe} {retired : List Word} (h : RingHolds s retired)
    {p : Word} (hp : p ≠ 0) :
  (memsafeRingFind s p).isSome ↔ p ∈ retired.take memsafeRingSize
  := by
  have hmem : p ∈ s.ring.map MemsafeEntry.ptr ↔
      p ∈ (retired ++ List.replicate memsafeRingSize 0).take memsafeRingSize := by
    apply Iff.trans _ List.mem_reverse
    rw [← h.window, List.mem_map, List.mem_map]
    simp only [Ring.mem_window_iff memsafeNoEntry s.ringNext h.length]
  rw [memsafeRingFind, List.find?_isSome]
  simp only [decide_eq_true_eq]
  rw [← List.mem_map, hmem, List.take_append, List.mem_append, or_iff_left]
  intro hzero
  exact hp (List.eq_of_mem_replicate (List.mem_of_mem_take hzero))

/-- An entry that is written to the ring is the last one. -/
theorem RingHolds.push {s : Memsafe} {retired : List Word} (h : RingHolds s retired)
    (entry : MemsafeEntry) {s' : Memsafe} (hring : s'.ring = s.ring.set s.ringNext entry)
    (hnext : s'.ringNext = (s.ringNext + 1) % memsafeRingSize) :
  RingHolds s' (entry.ptr :: retired)
  := by
  constructor
  · rw [hring, List.length_set, h.length]
  · rw [hnext]
    apply Nat.mod_lt
    decide
  · obtain ⟨L, hL⟩ : ∃ L, L = retired ++ List.replicate memsafeRingSize 0 := ⟨_, rfl⟩
    have hlen : memsafeRingSize ≤ L.length := by
      rw [hL, List.length_append, List.length_replicate]
      omega
    have htake : (L.take memsafeRingSize).reverse.tail = (L.take 255).reverse := by
      rw [List.tail_reverse, List.dropLast_eq_take, List.take_take, List.length_take,
        Nat.min_eq_left hlen]
      rfl
    rw [hring, hnext, Ring.window_push memsafeNoEntry h.length h.next, List.map_append,
      List.map_tail, h.window, ← hL, htake, List.cons_append, ← hL]
    show _ = (entry.ptr :: L.take 255).reverse
    rw [List.reverse_cons]
    rfl

/-! ### The blocks in the heap -/

/-- A block of a size is in the heap behind its header. -/
structure LiveBlock (h : Heap) (p n : Word) : Prop where
  aligned : 8 ∣ p.toNat
  header : 8 < p.toNat
  fits : p.toNat + n.toNat ≤ 2 ^ 64
  block : (p.toNat - 8, n.toNat + 8) ∈ h.blocks
  size : Bytes.read h.mem (p.toNat - 8) 8 = n

/-- The address of the header. -/
theorem LiveBlock.sub_eight {h : Heap} {p n : Word} (hp : LiveBlock h p n) :
  (p - 8).toNat = p.toNat - 8
  := by
  have hheader := hp.header
  bv_omega

/-- A block is not at the null pointer. -/
theorem LiveBlock.ne_zero {h : Heap} {p n : Word} (hp : LiveBlock h p n) :
  p ≠ 0
  := by
  rintro rfl
  have hheader := hp.header
  contradiction

/-- A block is not where the cache of the map is reset to. -/
theorem ne_ulongMax {p : Word} (hp : 8 ∣ p.toNat) :
  p ≠ BitVec.ofNat 64 ulongMax
  := by
  rintro rfl
  revert hp
  decide

/-- A block stays in a heap that keeps it and its header. -/
theorem LiveBlock.of_kept {h h' : Heap} {p n : Word} (hp : LiveBlock h p n)
    (hblock : (p.toNat - 8, n.toNat + 8) ∈ h'.blocks)
    (hmem : ∀ i, p.toNat - 8 ≤ i → i < p.toNat → h'.mem i = h.mem i) :
  LiveBlock h' p n
  where
  aligned := hp.aligned
  header := hp.header
  fits := hp.fits
  block := hblock
  size := by
    have hheader := hp.header
    rw [← hp.size]
    apply Bytes.read_congr
    intro i hlo hhi
    apply hmem i hlo
    omega

/-- Two blocks do not overlap, headers included. -/
theorem LiveBlock.apart {h : Heap} (hw : h.WellFormed) {p n q m : Word} (hp : LiveBlock h p n)
    (hq : LiveBlock h q m) (hne : p ≠ q) :
  p.toNat + n.toNat ≤ q.toNat - 8 ∨ q.toNat + m.toNat ≤ p.toNat - 8
  := by
  have hhp := hp.header
  have hhq := hq.header
  have hbase : (p.toNat - 8, n.toNat + 8) ≠ (q.toNat - 8, m.toNat + 8) := by
    intro heq
    rw [Prod.mk.injEq] at heq
    apply hne
    apply BitVec.eq_of_toNat_eq
    omega
  have hapart := hw.apart _ hp.block _ hq.block hbase
  rw [Heap.Apart] at hapart
  omega

/-- A block stays when something is written to another one or to itself. -/
theorem LiveBlock.write {h : Heap} (hw : h.WellFormed) {p n q m : Word} (hp : LiveBlock h p n)
    (hq : LiveBlock h q m) {bytes : List Bytes.Byte} (hlen : bytes.length ≤ m.toNat) :
  LiveBlock (h.write q.toNat bytes) p n
  := by
  refine hp.of_kept hp.block fun i hlo hhi => ?_
  rcases eq_or_ne p q with rfl | hne
  · apply Bytes.write_of_lt hhi
  · rcases hp.apart hw hq hne with h | h
    · apply Bytes.write_of_lt
      omega
    · apply Bytes.write_of_ge
      omega

/-! ### The invariant -/

/-- The map has the blocks with their sizes. -/
def TracksBlocks (s : Memsafe) (A : HeldBlocks) : Prop :=
  ∀ p n, A.live p = some n ↔ ∃ e, s.live.Binds memsafeMap p e ∧ (s.entries e).size = n

/-- The invariant of the tracker and of the blocks that the program holds. -/
structure MemsafeInv (s : Memsafe) (A : HeldBlocks) : Prop where
  kept : s.live.Kept
  tracks : TracksBlocks s A
  entry : ∀ p e, s.live.Binds memsafeMap p e → e ≠ 0 ∧ (s.entries e).ptr = p
  heap : s.heap.WellFormed
  block : ∀ p n, A.live p = some n → LiveBlock s.heap p n
  ring : RingHolds s A.retired
  aligned : ∀ p ∈ A.retired, 8 ∣ p.toNat

namespace MemsafeInv

variable {s : Memsafe} {A : HeldBlocks}

/-- A pointer that is not that of a block is not bound in the map. -/
theorem unbound (h : MemsafeInv s A) {p : Word} (hp : A.live p = none) :
  s.live.Unbound p
  := by
  rintro ⟨e, he⟩
  have hlive := (h.tracks p _).2 ⟨e, he, rfl⟩
  rw [hp] at hlive
  cases hlive

/-- Another heap and other reports keep the invariant when the blocks stay. -/
theorem of_heap (h : MemsafeInv s A) {s' : Memsafe} (hlive : s'.live = s.live)
    (hentries : s'.entries = s.entries) (hring : s'.ring = s.ring)
    (hnext : s'.ringNext = s.ringNext) (hw : s'.heap.WellFormed)
    (hblock : ∀ p n, A.live p = some n → LiveBlock s.heap p n → LiveBlock s'.heap p n) :
  MemsafeInv s' A
  where
  kept := hlive ▸ h.kept
  tracks := by
    intro p n
    rw [hlive, hentries]
    apply h.tracks
  entry := by
    rw [hlive, hentries]
    apply h.entry
  heap := hw
  block p n hp := hblock p n hp (h.block p n hp)
  ring := by
    obtain ⟨hlength, hnext', hwindow⟩ := h.ring
    constructor
    · rw [hring, hlength]
    · rw [hnext]
      apply hnext'
    · rw [hring, hnext, hwindow]
  aligned := h.aligned

/-- Writing inside a block keeps the invariant. -/
theorem write (h : MemsafeInv s A) {q m : Word} (hq : A.live q = some m)
    {bytes : List Bytes.Byte} (hlen : bytes.length ≤ m.toNat) :
  MemsafeInv { s with heap := s.heap.write q.toNat bytes } A
  := by
  refine h.of_heap rfl rfl rfl rfl (h.heap.write _ _) fun p n hp hblock => ?_
  apply hblock.write h.heap (h.block q m hq) hlen

end MemsafeInv

end Polyc
