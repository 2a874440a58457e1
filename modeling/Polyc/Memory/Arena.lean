import Mathlib.Algebra.Ring.Divisibility.Basic
import Polyc.Lib.BitField
import Polyc.Lib.FreeLists
import Polyc.Lib.Refinement

/-!
# Arenas

`arena.c`.  A block is a record with the address that it is at, and the list of used blocks is a list of
records.  Every call comes with what `malloc` answers if it is asked; where a null pointer is written
through there is no result.
-/

namespace Polyc

/-- `ArenaBlock`, with the address that it is at. -/
structure ArenaBlock where
  self : Nat
  capacity : BitVec 32
  used : BitVec 32
  mem : Nat

/-- `sizeof(ArenaBlock)`. -/
def sizeofArenaBlock : Nat := 24

/-- `Arena`, where `tail` has the blocks from `tail` on. -/
structure Arena where
  blockCapacity : BitVec 32
  used : BitVec 32
  head : ArenaBlock
  tail : List ArenaBlock

/-- What `malloc` answers to the two requests for a block. -/
structure BlockAnswers where
  block : Heap.Answer
  mem : Heap.Answer

/-- `free`, which does nothing with a null pointer. -/
def freePtr (h : Heap) (p : Nat) : Option Heap := if p = 0 then some h else h.free p

/-- `arenaBlockNew`. -/
def arenaBlockNew (h : Heap) (a : BlockAnswers) (capacity : BitVec 32) : Option (Heap × ArenaBlock) :=
  let h := h.malloc sizeofArenaBlock a.block
  if a.block.base = 0 then none
  else some (h.malloc capacity.toNat a.mem, ⟨a.block.base, capacity, 0, a.mem.base⟩)

/-- The start address to which `arenaBlockRelease` goes back. -/
def ArenaBlock.start (block : ArenaBlock) : Nat := block.mem - block.used.toNat

/-- `arenaBlockRelease` of a block that is not `NULL`. -/
def arenaBlockRelease (h : Heap) (block : ArenaBlock) : Option Heap := do
  let h ← freePtr h block.start
  freePtr h block.self

/-- `arenaAlignMemorySize`. -/
def arenaAlignMemorySize (size : BitVec 32) : BitVec 32 := (size + 7) &&& ~~~7

/-- The alignment rounds up to eights, in 32 bits. -/
theorem arenaAlignMemorySize_toNat (size : BitVec 32) :
  (arenaAlignMemorySize size).toNat = (size.toNat + 7) % 2 ^ 32 / 8 * 8
  := by
  have hmask : BitField.mask 32 3 = 7 := by decide
  have hseven : (size + 7).toNat = (size.toNat + 7) % 2 ^ 32 := BitVec.toNat_add _ _
  have h := BitField.toNat_and_not_mask (size + 7) (show 3 ≤ 32 by decide)
  rw [hmask] at h
  rw [arenaAlignMemorySize, h, hseven]
  omega

/-- `arenaInit`, which aborts without a capacity. -/
def arenaInit (h : Heap) (a : BlockAnswers) (capacity : BitVec 32) : Option (Heap × Arena) := do
  let blockCapacity := arenaAlignMemorySize capacity
  if blockCapacity > 0 then
    let (h, head) ← arenaBlockNew h a blockCapacity
    return (h, { blockCapacity, used := 0, head, tail := [] })
  else none

/-- The head block that `arenaAlloc` takes when there is no room in the old one. -/
def arenaNewHead (h : Heap) (arena : Arena) (a : BlockAnswers) : Option (Heap × Arena) := do
  let (h, head) ← arenaBlockNew h a arena.blockCapacity
  return (h, { arena with head, tail := arena.head :: arena.tail })

/-- The block that `arenaAlloc` allocates from. -/
def arenaRoom (h : Heap) (arena : Arena) (a : BlockAnswers) (allocationSize : BitVec 32) :
    Option (Heap × Arena) :=
  if arena.head.used + allocationSize ≥ arena.head.capacity then arenaNewHead h arena a else some (h, arena)

/-- A block of which some more is used. -/
def ArenaBlock.bump (block : ArenaBlock) (allocationSize : BitVec 32) : ArenaBlock :=
  { block with used := block.used + allocationSize, mem := block.mem + allocationSize.toNat }

/-- `arenaAlloc`. -/
def arenaAlloc (h : Heap) (arena : Arena) (a : BlockAnswers) (size : BitVec 32) :
    Option (Heap × Arena × Nat) := do
  let allocationSize := arenaAlignMemorySize size
  let arena := { arena with used := arena.used + allocationSize }
  if allocationSize > arena.blockCapacity then
    let (h, block) ← arenaBlockNew h a allocationSize
    return (h, { arena with tail := block :: arena.tail }, block.mem)
  else
    let (h, arena) ← arenaRoom h arena a allocationSize
    return (h, { arena with head := arena.head.bump allocationSize }, arena.head.mem)

/-- The loop of `arenaClear` and of `arenaReset` over the used blocks. -/
def arenaReleaseTail (h : Heap) : List ArenaBlock → Option Heap
  | [] => some h
  | block :: tail => do
    let h ← arenaBlockRelease h block
    arenaReleaseTail h tail

/-- `arenaClear`. -/
def arenaClear (h : Heap) (arena : Arena) : Option Heap := do
  let h ← arenaBlockRelease h arena.head
  arenaReleaseTail h arena.tail

/-- `arenaReset`. -/
def arenaReset (h : Heap) (arena : Arena) : Option (Heap × Arena) := do
  let h ← arenaReleaseTail h arena.tail
  let head := { arena.head with mem := arena.head.start, used := 0 }
  return (h, { arena with tail := [], head, used := 0 })

/-! ### Runs -/

/-- The calls of a run. -/
inductive ArenaCall where
  | alloc (size : BitVec 32) (a : BlockAnswers)
  | reset

/-- An arena in a heap, with the addresses and sizes of what it has returned since it was reset. -/
structure ArenaState where
  heap : Heap
  arena : Arena
  regions : List (Nat × Nat)

/-- The state behind `arenaInit`. -/
def ArenaState.init (h : Heap) (a : BlockAnswers) (capacity : BitVec 32) : Option ArenaState :=
  (arenaInit h a capacity).map fun r => ⟨r.1, r.2, []⟩

/-- The state behind a call, with the pointer that it returns. -/
def ArenaState.step (s : ArenaState) : ArenaCall → Option (ArenaState × Nat)
  | .alloc size a => (arenaAlloc s.heap s.arena a size).map fun (h, arena, p) =>
    (⟨h, arena, (p, size.toNat) :: s.regions⟩, p)
  | .reset => (arenaReset s.heap s.arena).map fun (h, arena) => (⟨h, arena, []⟩, 0)

/-- The blocks of an arena. -/
def Arena.blocks (arena : Arena) : List ArenaBlock := arena.head :: arena.tail

/-- The capacity of the block that `arenaAlloc` asks for, if it does. -/
def Arena.asks (arena : Arena) (size : BitVec 32) : Option (BitVec 32) :=
  let allocationSize := arenaAlignMemorySize size
  if allocationSize > arena.blockCapacity then some allocationSize
  else if arena.head.used + allocationSize ≥ arena.head.capacity then some arena.blockCapacity
  else none

/-- The answers to the requests for a block are right, and not null. -/
structure BlockAnswers.Right (h : Heap) (capacity : BitVec 32) (a : BlockAnswers) : Prop where
  block : h.Right (2 ^ 64) 16 sizeofArenaBlock a.block
  block_ne : a.block.base ≠ 0
  mem : (h.malloc sizeofArenaBlock a.block).Right (2 ^ 64) 16 capacity.toNat a.mem
  mem_ne : a.mem.base ≠ 0

/-- What `malloc` is asked for in a call it gives. -/
def ArenaState.Allowed (s : ArenaState) : ArenaCall → Prop
  | .alloc size a => ∀ capacity ∈ s.arena.asks size, a.Right s.heap capacity
  | .reset => True

/-- The condition on a call: the size is not rounded over 2^32, nor is the sum with what is used of the head block, if
it is asked. -/
def ArenaState.Meets (s : ArenaState) : ArenaCall → Prop
  | .alloc size _ => size.toNat ≤ 2 ^ 32 - 8
    ∧ (arenaAlignMemorySize size ≤ s.arena.blockCapacity →
      s.arena.head.used.toNat + (arenaAlignMemorySize size).toNat < 2 ^ 32)
  | .reset => True

/-- What an arena promises: what it has returned is aligned and inside its blocks and does not overlap, and its blocks
are freed at the addresses at which they are allocated, so that the blocks are left that were there before it. -/
structure ArenaState.Sound (before : List (Nat × Nat)) (s : ArenaState) : Prop where
  inside : ∀ r ∈ s.regions, ∃ b ∈ s.arena.blocks, (b.start, b.capacity.toNat) ∈ s.heap.blocks
    ∧ Heap.Within r (b.start, b.capacity.toNat) ∧ 8 ∣ r.1 - b.start
  apart : s.regions.Pairwise Heap.Apart
  freed : ∃ h, arenaClear s.heap s.arena = some h ∧ h.blocks.Perm before

/-!
## Arenas keep what they promise

The blocks of the heap are those of the arena and those that were there before it.  What has been returned lies in
blocks of the arena, and apart from what is left of the head block.
-/

open Heap (Packed)

/-! ### Sizes -/

/-- A size that is not rounded over 2^32. -/
theorem arenaAlignMemorySize_of_le {size : BitVec 32} (h : size.toNat ≤ 2 ^ 32 - 8) :
  size.toNat ≤ (arenaAlignMemorySize size).toNat ∧ (arenaAlignMemorySize size).toNat < size.toNat + 8
    ∧ 8 ∣ (arenaAlignMemorySize size).toNat
  := by
  rw [arenaAlignMemorySize_toNat]
  omega

/-! ### Blocks -/

/-- A block of the heap is not at a null pointer, and ends in the address space. -/
def Addressed (o : Nat × Nat) : Prop := o.1 ≠ 0 ∧ o.1 + o.2 ≤ 2 ^ 64

/-- What a block has of the heap: its memory and its record. -/
def ArenaBlock.owns (block : ArenaBlock) : List (Nat × Nat) :=
  [(block.start, block.capacity.toNat), (block.self, sizeofArenaBlock)]

/-- What some blocks have of the heap. -/
def blocksOwn (blocks : List ArenaBlock) : List (Nat × Nat) := blocks.flatMap ArenaBlock.owns

theorem blocksOwn_cons (b : ArenaBlock) (blocks : List ArenaBlock) :
  blocksOwn (b :: blocks) = b.owns ++ blocksOwn blocks
  := List.flatMap_cons

/-- Which of two blocks comes first does not matter. -/
theorem blocksOwn_swap (b c : ArenaBlock) (blocks : List ArenaBlock) (l : List (Nat × Nat)) :
  (b.owns ++ (blocksOwn (c :: blocks) ++ l)).Perm (blocksOwn (c :: b :: blocks) ++ l)
  := by
  rw [blocksOwn_cons, blocksOwn_cons, blocksOwn_cons, List.append_assoc, List.append_assoc, List.append_assoc]
  apply List.perm_append_comm_assoc

/-- The memory of a block is one of the things that it has. -/
theorem mem_blocksOwn {b : ArenaBlock} {blocks : List ArenaBlock} (hb : b ∈ blocks) :
  (b.start, b.capacity.toNat) ∈ blocksOwn blocks
  := by
  apply List.mem_flatMap.mpr
  use b, hb
  apply List.mem_cons_self

section

variable {h : Heap} {a : BlockAnswers} {capacity : BitVec 32} {l : List (Nat × Nat)}

/-- A new block. -/
theorem arenaBlockNew_eq (hh : h.Has l) (ha : a.Right h capacity) (hpos : 0 < capacity.toNat) :
  ∃ h' block, arenaBlockNew h a capacity = some (h', block) ∧ h'.Has (block.owns ++ l)
    ∧ (∀ o ∈ block.owns, Addressed o) ∧ block.capacity = capacity ∧ block.used = 0 ∧ block.start = block.mem
    ∧ Heap.Same l h.mem h'.mem
  := by
  have hself := hh.malloc ha.block ha.block_ne (by decide)
  have hmem := hself.malloc ha.mem ha.mem_ne hpos
  refine ⟨_, _, if_neg ha.block_ne, hmem, ?_, rfl, rfl, rfl, ?_⟩
  · intro o ho
    rcases List.mem_cons.mp ho with rfl | ho
    · exact ⟨ha.mem_ne, ha.mem.fits ha.mem_ne⟩
    · obtain rfl := List.mem_singleton.mp ho
      exact ⟨ha.block_ne, ha.block.fits ha.block_ne⟩
  · intro b hb i hlo hhi
    show a.mem.mem i = h.mem i
    rw [ha.mem.kept b (hself.mem (List.mem_cons_of_mem _ hb)) i hlo hhi]
    apply ha.block.kept b (hh.mem hb) i hlo hhi

/-- A block of the heap is freed. -/
theorem freePtr_eq {b : Nat × Nat} (hh : h.Has (b :: l)) (hb : b.1 ≠ 0) :
  ∃ h', freePtr h b.1 = some h' ∧ h'.Has l
  := by
  obtain ⟨h', hfree, hh', -⟩ := hh.free
  use h', (if_neg hb).trans hfree

theorem arenaBlockRelease_eq {block : ArenaBlock} (hh : h.Has (block.owns ++ l))
    (hnull : ∀ o ∈ block.owns, Addressed o) :
  ∃ h', arenaBlockRelease h block = some h' ∧ h'.Has l
  := by
  obtain ⟨h₁, hmem, hh₁⟩ := freePtr_eq hh (hnull _ List.mem_cons_self).1
  obtain ⟨h₂, hself, hh₂⟩ := freePtr_eq hh₁ (hnull _ (List.mem_cons_of_mem _ List.mem_cons_self)).1
  refine ⟨h₂, ?_, hh₂⟩
  rw [arenaBlockRelease, hmem]
  apply hself

/-- Blocks are freed one after the other. -/
theorem arenaReleaseTail_eq {blocks : List ArenaBlock} (hh : h.Has (blocksOwn blocks ++ l))
    (hnull : ∀ o ∈ blocksOwn blocks, Addressed o) :
  ∃ h', arenaReleaseTail h blocks = some h' ∧ h'.Has l
  := by
  induction blocks generalizing h with
  | nil => exact ⟨h, rfl, hh⟩
  | cons block blocks ih =>
    rw [blocksOwn_cons] at hnull
    rw [blocksOwn_cons, List.append_assoc] at hh
    obtain ⟨h₁, hblock, hh₁⟩ := arenaBlockRelease_eq hh fun o ho => hnull o (List.mem_append_left _ ho)
    obtain ⟨h₂, hrest, hh₂⟩ := ih hh₁ fun o ho => hnull o (List.mem_append_right _ ho)
    refine ⟨h₂, ?_, hh₂⟩
    rw [arenaReleaseTail, hblock]
    apply hrest

end

/-! ### What holds of an arena -/

/-- What is left of a block. -/
def ArenaBlock.rest (block : ArenaBlock) : Nat × Nat := (block.mem, block.capacity.toNat - block.used.toNat)

/-- The part of a block that is used ends where what is left begins, in eights. -/
structure ArenaBlock.Valid (block : ArenaBlock) : Prop where
  used_le_mem : block.used.toNat ≤ block.mem
  used_le : block.used.toNat ≤ block.capacity.toNat
  dvd : 8 ∣ block.used.toNat

/-- An arena in a heap, with what it has returned, next to blocks that were there before. -/
structure ArenaInv (before : List (Nat × Nat)) (h : Heap) (arena : Arena) (regions : List (Nat × Nat)) : Prop where
  has : h.Has (blocksOwn arena.blocks ++ before)
  addressed : ∀ o ∈ blocksOwn arena.blocks, Addressed o
  head : arena.head.Valid
  capacity_pos : 0 < arena.blockCapacity.toNat
  head_capacity : arena.head.capacity = arena.blockCapacity
  inside : ∀ r ∈ regions, ∃ b ∈ arena.blocks, Heap.Within r (b.start, b.capacity.toNat) ∧ 8 ∣ r.1 - b.start
  apart : regions.Pairwise Heap.Apart
  rest : ∀ r ∈ regions, Heap.Apart r arena.head.rest

section

variable {before regions : List (Nat × Nat)} {h : Heap} {arena : Arena} {block : ArenaBlock}

/-- What is left of a block is in the block. -/
theorem ArenaBlock.Valid.rest_within (hb : block.Valid) :
  Heap.Within block.rest (block.start, block.capacity.toNat)
  := by
  have hmem := hb.used_le_mem
  have hused := hb.used_le
  constructor
  · apply Nat.sub_le
  · show block.mem + (block.capacity.toNat - block.used.toNat)
      ≤ block.mem - block.used.toNat + block.capacity.toNat
    omega

/-- An arena promises what it does. -/
theorem ArenaInv.sound (hinv : ArenaInv before h arena regions) :
  ArenaState.Sound before ⟨h, arena, regions⟩
  := by
  constructor
  · intro r hr
    obtain ⟨b, hb, hin, hdvd⟩ := hinv.inside r hr
    exact ⟨b, hb, hinv.has.mem (List.mem_append_left _ (mem_blocksOwn hb)), hin, hdvd⟩
  · apply hinv.apart
  · have hrelease := arenaReleaseTail_eq hinv.has hinv.addressed
    obtain ⟨h', hclear, hh'⟩ := hrelease
    exact ⟨h', hclear, hh'.perm⟩

/-- What has been returned is apart from a block that was not there. -/
theorem ArenaInv.apart_new (hinv : ArenaInv before h arena regions) {l : List (Nat × Nat)}
    (hnew : Packed (block.owns ++ (blocksOwn arena.blocks ++ l))) :
  ∀ r ∈ regions, Heap.Apart r (block.start, block.capacity.toNat)
  := by
  intro r hr
  obtain ⟨b, hb, hin, -⟩ := hinv.inside r hr
  have hapart := (Heap.packed_cons_iff.mp hnew).1 (b.start, b.capacity.toNat)
    (List.mem_append_right [(block.self, sizeofArenaBlock)] (List.mem_append_left _ (mem_blocksOwn hb)))
  apply (hapart.within (Heap.Within.refl _) hin).symm

/-! ### What has been returned -/

section

variable {r b : Nat × Nat}

/-- What has been returned is in the memory of a block that is allocated. -/
theorem ArenaInv.exists_block (hinv : ArenaInv before h arena regions) (hr : r ∈ regions) :
  ∃ o ∈ blocksOwn arena.blocks, Heap.Within r o
  := by
  obtain ⟨b, hb, hin, -⟩ := hinv.inside r hr
  exact ⟨_, mem_blocksOwn hb, hin⟩

/-- What has been returned is not at a null pointer. -/
theorem ArenaInv.addressed_of_mem (hinv : ArenaInv before h arena regions) (hr : r ∈ regions) :
  Addressed r
  := by
  obtain ⟨o, ho, hlo, hhi⟩ := hinv.exists_block hr
  obtain ⟨hne, hle⟩ := hinv.addressed o ho
  constructor <;> omega

/-- What has been returned is apart from the blocks that were there before. -/
theorem ArenaInv.apart_before (hinv : ArenaInv before h arena regions) (hr : r ∈ regions) (hb : b ∈ before) :
  Heap.Apart r b
  := by
  obtain ⟨o, ho, hin⟩ := hinv.exists_block hr
  have happ := List.pairwise_append.mp hinv.has.packed.apart
  apply (happ.2.2 o ho b hb).within hin (Heap.Within.refl b)

/-- Bytes in what has been returned, or in a block that was there before, are allocated. -/
theorem ArenaInv.holds (hinv : ArenaInv before h arena regions) (hr : r ∈ regions ++ before) {off n : Nat}
    (hin : Heap.Within (off, n) r) :
  h.Holds off n = true
  := by
  rcases List.mem_append.mp hr with hr | hr
  · obtain ⟨o, ho, hro⟩ := hinv.exists_block hr
    apply Heap.holds_of_mem (hinv.has.mem (List.mem_append_left _ ho)) (hro.1.trans hin.1) (hin.2.trans hro.2)
  · apply Heap.holds_of_mem (hinv.has.mem (List.mem_append_right _ hr)) hin.1 hin.2

/-- What the blocks keep, what has been returned keeps. -/
theorem ArenaInv.same (hinv : ArenaInv before h arena regions) {m m' : Bytes.Mem}
    (hsame : Heap.Same (blocksOwn arena.blocks ++ before) m m') :
  Heap.Same (regions ++ before) m m'
  := by
  intro r hr i hlo hhi
  rcases List.mem_append.mp hr with hr | hr
  · obtain ⟨o, ho, hin⟩ := hinv.exists_block hr
    apply hsame.byte (List.mem_append_left _ ho) hin hlo hhi
  · apply hsame r (List.mem_append_right _ hr) i hlo hhi

/-- An arena does not depend on what is written. -/
theorem ArenaInv.write (hinv : ArenaInv before h arena regions) (off : Nat) (bytes : List Bytes.Byte) :
  ArenaInv before (h.write off bytes) arena regions
  where
  has := ⟨hinv.has.perm, hinv.has.packed⟩
  addressed := hinv.addressed
  head := hinv.head
  capacity_pos := hinv.capacity_pos
  head_capacity := hinv.head_capacity
  inside := hinv.inside
  apart := hinv.apart
  rest := hinv.rest

end

/-! ### The calls -/

variable {a : BlockAnswers} {size : BitVec 32} {n : BitVec 32}

/-- A request that is larger than the blocks has a block for itself. -/
theorem ArenaInv.big (hinv : ArenaInv before h arena regions) (ha : a.Right h n)
    (hn : size.toNat ≤ n.toNat) (hpos : 0 < n.toNat) :
  ∃ h' b, arenaBlockNew h a n = some (h', b)
    ∧ ArenaInv before h' { arena with tail := b :: arena.tail } ((b.mem, size.toNat) :: regions)
    ∧ Heap.Same (blocksOwn arena.blocks ++ before) h.mem h'.mem
  := by
  obtain ⟨h', b, hnew, hhas, hnull, hcap, -, hstart, hkept⟩ := arenaBlockNew_eq hinv.has ha hpos
  have hapart := hinv.apart_new hhas.packed
  have hregion : Heap.Within (b.mem, size.toNat) (b.start, b.capacity.toNat) := by
    rw [hstart, hcap]
    exact ⟨le_refl _, Nat.add_le_add_left hn _⟩
  have hblocks : ∀ b' ∈ arena.blocks, b' ∈ arena.head :: b :: arena.tail := by
    intro b' hb'
    rcases List.mem_cons.mp hb' with rfl | hb'
    · apply List.mem_cons_self
    · apply List.mem_cons_of_mem _ (List.mem_cons_of_mem _ hb')
  refine ⟨h', b, hnew, ⟨?_, ?_, hinv.head, hinv.capacity_pos, hinv.head_capacity, ?_, ?_, ?_⟩, hkept⟩
  · apply hhas.of_perm (blocksOwn_swap b arena.head arena.tail before)
  · intro o ho
    have hswap := (blocksOwn_swap b arena.head arena.tail []).mem_iff (a := o)
    rw [List.append_nil, List.append_nil] at hswap
    rcases List.mem_append.mp (hswap.mpr ho) with ho | ho
    · apply hnull o ho
    · apply hinv.addressed o ho
  · rintro r hr
    rcases List.mem_cons.mp hr with rfl | hr
    · use b, List.mem_cons_of_mem _ List.mem_cons_self, hregion
      rw [hstart, Nat.sub_self]
      apply dvd_zero
    · obtain ⟨b', hb', hin⟩ := hinv.inside r hr
      exact ⟨b', hblocks b' hb', hin⟩
  · apply List.pairwise_cons.mpr ⟨_, hinv.apart⟩
    intro r hr
    apply ((hapart r hr).within (Heap.Within.refl r) hregion).symm
  · intro r hr
    rcases List.mem_cons.mp hr with rfl | hr
    · have hhead := (Heap.packed_cons_iff.mp hhas.packed).1 (arena.head.start, arena.head.capacity.toNat)
        (List.mem_append_right [(b.self, sizeofArenaBlock)]
          (List.mem_append_left _ (mem_blocksOwn List.mem_cons_self)))
      apply hhead.within hregion hinv.head.rest_within
    · apply hinv.rest r hr

/-- A new head block. -/
theorem ArenaInv.newHead (hinv : ArenaInv before h arena regions) (ha : a.Right h arena.blockCapacity) :
  ∃ h' arena', arenaNewHead h arena a = some (h', arena') ∧ ArenaInv before h' arena' regions
    ∧ arena'.blockCapacity = arena.blockCapacity ∧ arena'.head.used = 0
    ∧ arena'.head.capacity = arena.blockCapacity ∧ Heap.Same (blocksOwn arena.blocks ++ before) h.mem h'.mem
  := by
  obtain ⟨h', b, hnew, hhas, hnull, hcap, hused, hstart, hkept⟩ := arenaBlockNew_eq hinv.has ha hinv.capacity_pos
  have hrest : b.rest = (b.start, b.capacity.toNat) := by
    rw [ArenaBlock.rest, hused, hstart]
    rfl
  refine ⟨h', { arena with head := b, tail := arena.head :: arena.tail }, ?_, ⟨?_, ?_, ?_, hinv.capacity_pos, hcap,
    ?_, hinv.apart, ?_⟩, rfl, hused, hcap, hkept⟩
  · rw [arenaNewHead, hnew]
    rfl
  · show h'.Has (b.owns ++ blocksOwn arena.blocks ++ before)
    rw [List.append_assoc]
    apply hhas
  · intro o ho
    rcases List.mem_append.mp ho with ho | ho
    · apply hnull o ho
    · apply hinv.addressed o ho
  · show b.Valid
    constructor
    · rw [hused]
      apply Nat.zero_le
    · rw [hused]
      apply Nat.zero_le
    · rw [hused]
      apply dvd_zero
  · intro r hr
    obtain ⟨b', hb', hin⟩ := hinv.inside r hr
    exact ⟨b', List.mem_cons_of_mem _ hb', hin⟩
  · intro r hr
    show Heap.Apart r b.rest
    rw [hrest]
    apply hinv.apart_new hhas.packed r hr

/-- A block of which more is used is at the same place. -/
theorem ArenaBlock.Valid.bump (hb : block.Valid) (hdvd : 8 ∣ n.toNat)
    (hroom : block.used.toNat + n.toNat ≤ block.capacity.toNat) :
  (block.bump n).Valid ∧ (block.bump n).start = block.start
    ∧ (block.bump n).used.toNat = block.used.toNat + n.toNat
  := by
  have hcap := block.capacity.isLt
  have hused : (block.bump n).used.toNat = block.used.toNat + n.toNat := by
    apply BitVec.toNat_add_of_lt
    omega
  have hle := hb.used_le_mem
  refine ⟨⟨?_, ?_, ?_⟩, ?_, hused⟩
  · rw [hused]
    apply Nat.add_le_add_right hle
  · rw [hused]
    apply hroom
  · rw [hused]
    apply dvd_add hb.dvd hdvd
  · rw [ArenaBlock.start, hused]
    apply Nat.add_sub_add_right

/-- What is returned of the head block, where there is room. -/
theorem ArenaInv.bump (hinv : ArenaInv before h arena regions) (hn : size.toNat ≤ n.toNat) (hdvd : 8 ∣ n.toNat)
    (hroom : arena.head.used.toNat + n.toNat ≤ arena.head.capacity.toNat) :
  ArenaInv before h { arena with head := arena.head.bump n } ((arena.head.mem, size.toNat) :: regions)
  := by
  obtain ⟨hvalid, hstart, hused⟩ := hinv.head.bump hdvd hroom
  have howns : (arena.head.bump n).owns = arena.head.owns := by
    rw [ArenaBlock.owns, hstart]
    rfl
  have hblocks : blocksOwn ((arena.head.bump n) :: arena.tail) = blocksOwn arena.blocks := by
    rw [Arena.blocks, blocksOwn_cons, blocksOwn_cons, howns]
  -- the new region comes first of what was left, and what is left comes behind it
  have hregion : Heap.Within (arena.head.mem, size.toNat) arena.head.rest := by
    constructor
    · apply le_refl
    · show arena.head.mem + size.toNat ≤ arena.head.mem + (arena.head.capacity.toNat - arena.head.used.toNat)
      omega
  have hrest : Heap.Within (arena.head.bump n).rest arena.head.rest := by
    constructor
    · apply Nat.le_add_right
    · show arena.head.mem + n.toNat + (arena.head.capacity.toNat - (arena.head.bump n).used.toNat)
        ≤ arena.head.mem + (arena.head.capacity.toNat - arena.head.used.toNat)
      omega
  constructor
  · show h.Has (blocksOwn ((arena.head.bump n) :: arena.tail) ++ before)
    rw [hblocks]
    apply hinv.has
  · show ∀ o ∈ blocksOwn ((arena.head.bump n) :: arena.tail), Addressed o
    rw [hblocks]
    apply hinv.addressed
  · apply hvalid
  · apply hinv.capacity_pos
  · apply hinv.head_capacity
  · intro r hr
    rcases List.mem_cons.mp hr with rfl | hr
    · use arena.head.bump n, List.mem_cons_self
      have hin := hinv.head.rest_within
      have hle := hinv.head.used_le_mem
      rw [hstart]
      constructor
      · exact ⟨hin.1.trans hregion.1, hregion.2.trans hin.2⟩
      · rw [ArenaBlock.start, Nat.sub_sub_self hle]
        apply hinv.head.dvd
    · obtain ⟨b, hb, hin⟩ := hinv.inside r hr
      rcases List.mem_cons.mp hb with rfl | hb
      · use arena.head.bump n, List.mem_cons_self
        rw [hstart]
        apply hin
      · exact ⟨b, List.mem_cons_of_mem _ hb, hin⟩
  · apply List.pairwise_cons.mpr ⟨_, hinv.apart⟩
    intro r hr
    apply ((hinv.rest r hr).within (Heap.Within.refl r) hregion).symm
  · intro r hr
    rcases List.mem_cons.mp hr with rfl | hr
    · left
      apply Nat.add_le_add_left hn
    · apply (hinv.rest r hr).within (Heap.Within.refl r) hrest

/-- `arenaAlloc` of a size that meets the condition. -/
theorem ArenaInv.alloc (hinv : ArenaInv before h arena regions)
    (ha : ∀ capacity ∈ arena.asks size, a.Right h capacity) (hsize : size.toNat ≤ 2 ^ 32 - 8)
    (hsum : arenaAlignMemorySize size ≤ arena.blockCapacity →
      arena.head.used.toNat + (arenaAlignMemorySize size).toNat < 2 ^ 32) :
  ∃ h' arena' p, arenaAlloc h arena a size = some (h', arena', p)
    ∧ ArenaInv before h' arena' ((p, size.toNat) :: regions) ∧ arena'.blockCapacity = arena.blockCapacity
    ∧ Heap.Same (blocksOwn arena.blocks ++ before) h.mem h'.mem
  := by
  let n := arenaAlignMemorySize size
  obtain ⟨hn, -, hdvd⟩ := arenaAlignMemorySize_of_le hsize
  let arena₁ := { arena with used := arena.used + n }
  have hinv₁ : ArenaInv before h arena₁ regions := ⟨hinv.has, hinv.addressed, hinv.head, hinv.capacity_pos,
    hinv.head_capacity, hinv.inside, hinv.apart, hinv.rest⟩
  rw [arenaAlloc]
  rcases em (n > arena.blockCapacity) with hbig | hsmall
  · have hask : arena.asks size = some n := if_pos hbig
    have hpos : 0 < n.toNat := Nat.zero_lt_of_lt hbig
    obtain ⟨h', b, hnew, hinv', hkept⟩ := hinv₁.big (ha n hask) hn hpos
    refine ⟨h', _, b.mem, ?_, hinv', rfl, hkept⟩
    rw [if_pos hbig, hnew]
    rfl
  · have hle : n ≤ arena.blockCapacity := BitVec.not_lt.mp hsmall
    have hlt := hsum hle
    have htotal : (arena.head.used + n).toNat = arena.head.used.toNat + n.toNat :=
      BitVec.toNat_add_of_lt hlt
    rcases em (arena.head.used + n ≥ arena.head.capacity) with hfull | hroom
    · have hask : arena.asks size = some arena.blockCapacity := by
        rw [Arena.asks, if_neg hsmall, if_pos hfull]
      obtain ⟨h', arena', hhead, hinv', hcap', hused, hcapacity, hkept⟩ := hinv₁.newHead (ha _ hask)
      refine ⟨h', _, arena'.head.mem, ?_, hinv'.bump hn hdvd ?_, hcap', hkept⟩
      · rw [if_neg hsmall, arenaRoom, if_pos hfull, hhead]
        rfl
      · rw [hused, hcapacity]
        apply (Nat.zero_add _).trans_le hle
    · have hin : arena.head.used.toNat + n.toNat ≤ arena.head.capacity.toNat := by
        rw [← htotal]
        apply le_of_lt (BitVec.not_le.mp hroom)
      refine ⟨h, _, arena.head.mem, ?_, hinv₁.bump hn hdvd hin, rfl, fun _ _ _ _ _ => rfl⟩
      rw [if_neg hsmall, arenaRoom, if_neg hroom]
      rfl

/-- `arenaReset` leaves the head block. -/
theorem ArenaInv.reset (hinv : ArenaInv before h arena regions) :
  ∃ h' arena', arenaReset h arena = some (h', arena') ∧ ArenaInv before h' arena' []
  := by
  have hsplit : h.Has (blocksOwn arena.tail ++ (arena.head.owns ++ before)) := by
    apply hinv.has.of_perm
    show (arena.head.owns ++ blocksOwn arena.tail ++ before).Perm _
    rw [List.append_assoc]
    apply List.perm_append_comm_assoc
  obtain ⟨h', hrelease, hh'⟩ := arenaReleaseTail_eq hsplit fun o ho =>
    hinv.addressed o (List.mem_append_right _ ho)
  let head := { arena.head with mem := arena.head.start, used := 0 }
  have hblocks : blocksOwn [head] = arena.head.owns := rfl
  refine ⟨h', { arena with tail := [], head, used := 0 }, ?_, ⟨?_, ?_, ?_, hinv.capacity_pos,
    hinv.head_capacity, ?_, .nil, ?_⟩⟩
  · rw [arenaReset, hrelease]
    rfl
  · show h'.Has (blocksOwn [head] ++ before)
    rw [hblocks]
    apply hh'
  · show ∀ o ∈ blocksOwn [head], Addressed o
    rw [hblocks]
    exact fun o ho => hinv.addressed o (List.mem_append_left _ ho)
  · exact ⟨Nat.zero_le _, Nat.zero_le _, dvd_zero 8⟩
  · intro r hr
    cases hr
  · intro r hr
    cases hr

/-- `arenaInit` begins with one block. -/
theorem arenaInv_init {l : List (Nat × Nat)} (hh : h.Has l) {capacity : BitVec 32}
    (ha : a.Right h (arenaAlignMemorySize capacity)) {h' : Heap} (hinit : arenaInit h a capacity = some (h', arena)) :
  ArenaInv l h' arena [] ∧ arena.blockCapacity = arenaAlignMemorySize capacity
    ∧ Heap.Same l h.mem h'.mem
  := by
  rw [arenaInit] at hinit
  dsimp only at hinit
  split at hinit
  case isFalse => cases hinit
  case isTrue hpos =>
    obtain ⟨h₁, b, hnew, hhas, hnull, hcap, hused, hstart, hkept⟩ := arenaBlockNew_eq hh ha hpos
    rw [hnew] at hinit
    cases hinit
    refine ⟨⟨?_, hnull, ⟨?_, ?_, ?_⟩, hpos, hcap, ?_, .nil, ?_⟩, rfl, hkept⟩
    · apply hhas
    · rw [hused]
      apply Nat.zero_le
    · rw [hused]
      apply Nat.zero_le
    · rw [hused]
      apply dvd_zero
    · intro r hr
      cases hr
    · intro r hr
      cases hr

end

/-! ### Runs -/

/-- Every call keeps what holds of an arena, and with it what it promises. -/
theorem ArenaInv.step {before : List (Nat × Nat)} {s : ArenaState} {c : ArenaCall}
    (hinv : ArenaInv before s.heap s.arena s.regions) (hallowed : s.Allowed c) (hmeets : s.Meets c) :
  ∃ s' p, s.step c = some (s', p) ∧ s'.Sound before ∧ ArenaInv before s'.heap s'.arena s'.regions
  := by
  cases c with
  | alloc size a =>
    obtain ⟨h', arena', p, halloc, hinv', -⟩ := hinv.alloc hallowed hmeets.1 hmeets.2
    refine ⟨⟨h', arena', (p, size.toNat) :: s.regions⟩, p, ?_, hinv'.sound, hinv'⟩
    rw [ArenaState.step, halloc]
    rfl
  | reset =>
    obtain ⟨h', arena', hreset, hinv'⟩ := hinv.reset
    refine ⟨⟨h', arena', []⟩, 0, ?_, hinv'.sound, hinv'⟩
    rw [ArenaState.step, hreset]
    rfl

/-- In every run in which no size is rounded over 2^32 and no head block is used up to 2^32, an arena keeps what it
promises. -/
theorem arena_sound (before : Heap) (capacity : BitVec 32) (a : BlockAnswers) (calls : List ArenaCall) (s : ArenaState)
    (hbefore : Packed before.blocks) (ha : a.Right before (arenaAlignMemorySize capacity))
    (hinit : ArenaState.init before a capacity = some s)
    (hallowed : Refinement.Guarded ArenaState.step ArenaState.Allowed s calls)
    (hmeets : Refinement.Guarded ArenaState.step ArenaState.Meets s calls) :
  s.Sound before.blocks
    ∧ Refinement.Steps ArenaState.step (fun _ _ s' _ => s'.Sound before.blocks) s calls
  := by
  obtain ⟨⟨h, arena⟩, harena, rfl⟩ := Option.map_eq_some_iff.mp hinit
  obtain ⟨hinv, -⟩ := arenaInv_init ⟨.refl _, hbefore⟩ ha harena
  use hinv.sound
  apply Refinement.steps_of_invariant (fun s => ArenaInv before.blocks s.heap s.arena s.regions) _ hinv
    (hallowed.and hmeets)
  intro s c hinv hguard
  apply hinv.step hguard.1 hguard.2

/-- What `malloc` answers below: a block with 64 bytes, and one with 104 bytes. -/
def arenaAnswers : BlockAnswers × BlockAnswers :=
  (⟨⟨16, fun _ => 0⟩, ⟨64, fun _ => 0⟩⟩, ⟨⟨256, fun _ => 0⟩, ⟨512, fun _ => 0⟩⟩)

/-- The heap without a block. -/
def noBlocks : Heap := ⟨fun _ => 0, []⟩

/-- The first block is right in it. -/
theorem arenaAnswers_right :
  arenaAnswers.1.Right noBlocks 64
  := by
  exact ⟨⟨by decide, by decide, by decide, fun _ _ _ _ _ => rfl⟩, by decide,
    ⟨by decide, by decide, by decide, fun _ _ _ _ _ => rfl⟩, by decide⟩

/-- A small request, a large one and a reset. -/
theorem arena_sound_three :
  ∃ s, ArenaState.init noBlocks arenaAnswers.1 60 = some s ∧ s.Sound []
    ∧ Refinement.Steps ArenaState.step (fun _ _ s' _ => s'.Sound []) s
      [.alloc 13 arenaAnswers.2, .alloc 100 arenaAnswers.2, .reset]
  := by
  refine ⟨_, rfl, ?_⟩
  apply arena_sound noBlocks 60 arenaAnswers.1 _ _ Packed.nil arenaAnswers_right rfl
  · refine ⟨?_, ?_⟩
    · rintro _ ⟨⟩
    · intro r hr
      cases hr
      refine ⟨?_, fun _ _ => ⟨trivial, fun _ _ => trivial⟩⟩
      rintro _ ⟨⟩
      exact ⟨⟨by decide, by decide, by decide, fun _ _ _ _ _ => rfl⟩, by decide,
        ⟨by decide, by decide, by decide, fun _ _ _ _ _ => rfl⟩, by decide⟩
  · refine ⟨⟨by decide, fun _ => by decide⟩, fun r hr => ?_⟩
    cases hr
    exact ⟨⟨by decide, fun _ => by decide⟩, fun _ _ => ⟨trivial, fun _ _ => trivial⟩⟩

/-- A request that is rounded over 2^32 gives a region that is in no block. -/
theorem not_arena_sound :
  ∃ s, ArenaState.init noBlocks arenaAnswers.1 60 = some s
    ∧ Refinement.Guarded ArenaState.step ArenaState.Allowed s [.alloc 0xFFFFFFFF arenaAnswers.2]
    ∧ ¬Refinement.Steps ArenaState.step (fun _ _ s' _ => s'.Sound []) s [.alloc 0xFFFFFFFF arenaAnswers.2]
  := by
  refine ⟨_, rfl, ⟨?_, fun _ _ => trivial⟩, ?_⟩
  · rintro _ ⟨⟩
  · rintro ⟨s', p, hstep, hsound, -⟩
    cases hstep
    obtain ⟨b, hb, -, hin, -⟩ := hsound.inside _ List.mem_cons_self
    rw [Arena.blocks, List.mem_singleton] at hb
    subst hb
    have hend := hin.2
    revert hend
    decide

end Polyc
