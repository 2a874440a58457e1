import Polyc.Lib.Bytes
import Mathlib.Tactic.ByContra
import Mathlib.Tactic.Use

/-!
# Heaps

A heap is a memory with the blocks that are allocated in it.  An allocator that is not known
answers each request with an address and a memory; an answer is right when the block is apart
from those that are allocated and these keep their bytes.
-/

/-- A memory and the blocks that are allocated, with their addresses and lengths. -/
structure Heap where
  mem : Bytes.Mem
  blocks : List (Nat × Nat)

namespace Heap

/-- What an allocator answers: an address, which is 0 when it fails, and the memory it leaves. -/
structure Answer where
  base : Nat
  mem : Bytes.Mem

/-- Two blocks do not overlap. -/
def Apart (b c : Nat × Nat) : Prop := b.1 + b.2 ≤ c.1 ∨ c.1 + c.2 ≤ b.1

/-- The blocks of a heap do not overlap, and none is empty. -/
structure WellFormed (h : Heap) : Prop where
  apart : ∀ b ∈ h.blocks, ∀ c ∈ h.blocks, b ≠ c → Apart b c
  pos : ∀ b ∈ h.blocks, 0 < b.2

/-- An answer to a request for `n` bytes is right, in an address space of `space` bytes with
blocks aligned to `align`. -/
structure Right (h : Heap) (space align n : Nat) (a : Answer) : Prop where
  /-- Blocks are aligned. -/
  aligned : align ∣ a.base
  /-- A block lies in the address space. -/
  fits : a.base ≠ 0 → a.base + n ≤ space
  /-- A block is apart from those that are allocated. -/
  apart : a.base ≠ 0 → ∀ b ∈ h.blocks, Apart (a.base, n) b
  /-- The bytes that are allocated are kept. -/
  kept : ∀ b ∈ h.blocks, ∀ i, b.1 ≤ i → i < b.1 + b.2 → a.mem i = h.mem i

/-- The heap after an answer. -/
def malloc (h : Heap) (n : Nat) (a : Answer) : Heap where
  mem := a.mem
  blocks := if a.base = 0 then h.blocks else (a.base, n) :: h.blocks

/-- The heap without a block; freeing another address is undefined. -/
def free (h : Heap) (base : Nat) : Option Heap :=
  if h.blocks.any (·.1 = base) then
    some { h with blocks := h.blocks.filter (·.1 ≠ base) }
  else
    none

/-- The heap with bytes written. -/
def write (h : Heap) (off : Nat) (bytes : List Bytes.Byte) : Heap :=
  { h with mem := Bytes.write h.mem off bytes }

/-- Some bytes are in a block that is allocated. -/
def Holds (h : Heap) (off n : Nat) : Bool :=
  h.blocks.any fun b => decide (b.1 ≤ off) && decide (off + n ≤ b.1 + b.2)

/-- Bytes stored in a block. -/
def store (h : Heap) (off : Nat) (bytes : List Bytes.Byte) : Option Heap :=
  if h.Holds off bytes.length then some (h.write off bytes) else none

/-- Bytes loaded from a block. -/
def load (h : Heap) (off n : Nat) : Option (BitVec (8 * n)) :=
  if h.Holds off n then some (Bytes.read h.mem off n) else none

variable {h : Heap} {space align n : Nat} {a : Answer}

/-- The block of an answer is allocated. -/
theorem mem_malloc (hbase : a.base ≠ 0) (b : Nat × Nat) :
  b ∈ (h.malloc n a).blocks ↔ b = (a.base, n) ∨ b ∈ h.blocks
  := by
  rw [malloc, if_neg hbase, List.mem_cons]

/-- A right answer keeps the heap well formed. -/
theorem WellFormed.malloc (hw : h.WellFormed) (hr : h.Right space align n a) (hn : 0 < n) :
  (h.malloc n a).WellFormed
  := by
  rcases em (a.base = 0) with hzero | hbase
  · have heq : (h.malloc n a).blocks = h.blocks := if_pos hzero
    constructor
    · rw [heq]
      apply hw.apart
    · rw [heq]
      apply hw.pos
  · have hnew := hr.apart hbase
    constructor
    · intro b hb c hc hne
      rw [mem_malloc hbase] at hb hc
      rcases hb with rfl | hb
      · rcases hc with rfl | hc
        · exact absurd rfl hne
        · apply hnew c hc
      · rcases hc with rfl | hc
        · apply (hnew b hb).symm
        · apply hw.apart b hb c hc hne
    · intro b hb
      rw [mem_malloc hbase] at hb
      rcases hb with rfl | hb
      · apply hn
      · apply hw.pos b hb

/-- A block that is allocated can be freed. -/
theorem free_eq {b : Nat × Nat} (hb : b ∈ h.blocks) :
  h.free b.1 = some { h with blocks := h.blocks.filter (·.1 ≠ b.1) }
  := by
  apply if_pos
  rw [List.any_eq_true]
  use b, hb
  apply decide_eq_true rfl

/-- Two blocks at one address are the same. -/
theorem WellFormed.eq_of_base (hw : h.WellFormed) {b c : Nat × Nat} (hb : b ∈ h.blocks)
    (hc : c ∈ h.blocks) (heq : b.1 = c.1) :
  b = c
  := by
  by_contra hne
  have hbpos := hw.pos b hb
  have hcpos := hw.pos c hc
  have hapart := hw.apart b hb c hc hne
  rw [Apart] at hapart
  omega

/-- Freeing a block keeps the heap well formed. -/
theorem WellFormed.free (hw : h.WellFormed) {base : Nat} {h' : Heap} (hf : h.free base = some h') :
  h'.WellFormed
  := by
  rw [Heap.free] at hf
  split at hf
  · cases hf
    constructor
    · intro b hb c hc
      apply hw.apart b (List.mem_filter.1 hb).1 c (List.mem_filter.1 hc).1
    · intro b hb
      apply hw.pos b (List.mem_filter.1 hb).1
  · cases hf

/-- Writing to a heap allocates nothing. -/
theorem WellFormed.write (hw : h.WellFormed) (off : Nat) (bytes : List Bytes.Byte) :
  (h.write off bytes).WellFormed
  := ⟨hw.apart, hw.pos⟩

/-- Bytes of a block are allocated. -/
theorem holds_of_mem {b : Nat × Nat} {off m : Nat} (hb : b ∈ h.blocks) (hlo : b.1 ≤ off)
    (hhi : off + m ≤ b.1 + b.2) :
  h.Holds off m = true
  := by
  rw [Holds, List.any_eq_true]
  use b, hb
  rw [decide_eq_true hlo, decide_eq_true hhi]
  rfl

end Heap
