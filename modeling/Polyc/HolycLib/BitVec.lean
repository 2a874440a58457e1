import Mathlib.Algebra.Group.Nat.Defs
import Mathlib.Data.Fintype.Basic
import Polyc.Lib.Refinement

/-!
# Bit vectors

`BitVec`, a set of indexes in the bits of 32-bit words, and the finite set that it stands for.  A
block of memory is its size in bytes and the words from its start on, of which those outside the
block are not accessed.  Shifts take their count modulo 64, as both targets do.
-/

namespace Polyc

/-! ### Blocks of words -/

/-- A block of memory. -/
structure U32Block where
  /-- Its size in bytes. -/
  size : Nat
  /-- The words from its start on. -/
  word : Nat → BitVec 32

namespace U32Block

/-- The word at an index, in the block. -/
def read (b : U32Block) (k : Nat) : Option (BitVec 32) :=
  if 4 * k + 4 ≤ b.size then some (b.word k) else none

/-- A write of the word at an index, in the block. -/
def write (b : U32Block) (k : Nat) (v : BitVec 32) : Option U32Block :=
  if 4 * k + 4 ≤ b.size then some { b with word := Function.update b.word k v } else none

/-- `for (i = 0; i < n; ++i) b[i] = 0`. -/
def zero (b : U32Block) : Nat → Option U32Block
  | 0 => some b
  | n + 1 => (b.zero n).bind (·.write n 0)

/-- `MemCpy` of the first words of a block. -/
def memCpy (dst src : U32Block) : Nat → Option U32Block
  | 0 => some dst
  | n + 1 => (dst.memCpy src n).bind fun dst => (src.read n).bind (dst.write n)

end U32Block

/-- `MAlloc`, which leaves what the memory held. -/
def u32MAlloc (fresh : Nat → BitVec 32) (size : Nat) : U32Block := ⟨size, fresh⟩

/-! ### The operations -/

/-- The class `BitVec`. -/
structure BitVecClass where
  /-- The number of words. -/
  blocks : Nat
  /-- The words. -/
  entries : U32Block

/-- An index below 2^37, for which the index of its word fits an `U32`. -/
abbrev BitIndex := Fin (2 ^ 37)

/-- `BitVecNew`. -/
def bitVecNew (fresh : Nat → BitVec 32) : Option BitVecClass :=
  ((u32MAlloc fresh 4).write 0 0).map fun entries => ⟨1, entries⟩

/-- The growth of `BitVecSet`. -/
def bitVecGrow (fresh : Nat → BitVec 32) (bv : BitVecClass) (blockIdx : Nat) :
    Option BitVecClass :=
  ((u32MAlloc fresh (4 * blockIdx + 1)).zero blockIdx).bind fun new =>
    (new.memCpy bv.entries bv.blocks).map fun new => ⟨blockIdx + 1, new⟩

/-- `BitVecSet`, with what memory that it allocates holds. -/
def bitVecSet (fresh : Nat → BitVec 32) (bv : BitVecClass) (idx : BitIndex) :
    Option BitVecClass :=
  let blockIdx := idx.val / 32
  (if blockIdx ≥ bv.blocks then bitVecGrow fresh bv blockIdx else some bv).bind fun bv =>
    (bv.entries.read blockIdx).bind fun v =>
      (bv.entries.write blockIdx (v ||| (1 : BitVec 32) <<< (idx.val % 32))).map fun entries =>
        { bv with entries := entries }

/-- The mask of `BitVecUnSet`: the shift binds before the `&`. -/
def unSetMask (idx : BitIndex) : BitVec 64 := ~~~(((1 : BitVec 64) <<< (idx.val % 64)) &&& 31)

/-- `BitVecUnSet`. -/
def bitVecUnSet (bv : BitVecClass) (idx : BitIndex) : Option BitVecClass :=
  let blockIdx := idx.val / 32
  if blockIdx < bv.blocks then
    (bv.entries.read blockIdx).bind fun v =>
      (bv.entries.write blockIdx ((v.setWidth 64 &&& unSetMask idx).setWidth 32)).map
        fun entries => { bv with entries := entries }
  else some bv

/-- `BitVecTest`: the count of the shift is the lowest bit of the index, and the value becomes a
`Bool` of one byte. -/
def bitVecTest (bv : BitVecClass) (idx : BitIndex) : Option (BitVec 8) :=
  let blockIdx := idx.val / 32
  if blockIdx < bv.blocks then
    (bv.entries.read blockIdx).map fun v : BitVec 32 => (v >>> (idx.val % 32 % 2)).setWidth 8
  else some 0

/-- `BitVecClear`. -/
def bitVecClear (bv : BitVecClass) : Option BitVecClass :=
  (bv.entries.zero bv.blocks).map fun entries => { bv with entries := entries }

/-! ### Runs -/

/-- A call on a bit vector, with what fresh memory holds. -/
inductive BitVecOp where
  | set (idx : BitIndex) (fresh : Nat → BitVec 32)
  | unSet (idx : BitIndex)
  | test (idx : BitIndex)
  | clear

/-- A call, which answers whether a tested bit is nonzero. -/
def bitVecStep (bv : BitVecClass) : BitVecOp → Option (BitVecClass × Option Bool)
  | .set idx fresh => (bitVecSet fresh bv idx).map (·, none)
  | .unSet idx => (bitVecUnSet bv idx).map (·, none)
  | .test idx => (bitVecTest bv idx).map fun b => (bv, some (b ≠ 0))
  | .clear => (bitVecClear bv).map (·, none)

/-- The same call on a finite set. -/
def finsetStep (S : Finset BitIndex) : BitVecOp → Finset BitIndex × Option Bool
  | .set idx _ => (insert idx S, none)
  | .unSet idx => (S.erase idx, none)
  | .test idx => (S, some (idx ∈ S))
  | .clear => (∅, none)

/-- The bit of an index is set. -/
def BitVecClass.has (bv : BitVecClass) (i : Nat) : Bool :=
  decide (i / 32 < bv.blocks) && (bv.entries.word (i / 32)).getLsbD (i % 32)

/-- What a call needs: the word of a set index is there; a cleared index is among the first five
of its 64 or not set; and a tested one is set when one of the eight bits is that the shift leaves
in a byte. -/
def BitVecClass.Meets (bv : BitVecClass) : BitVecOp → Prop
  | .set idx _ => idx.val / 32 < bv.blocks
  | .unSet idx => idx.val % 64 < 5 ∨ bv.has idx = false
  | .test idx =>
    bv.has idx = true ↔ ∃ k < 8, bv.has (idx.val / 32 * 32 + (idx.val % 2 + k)) = true
  | .clear => True

instance BitVecClass.decidableMeets (bv : BitVecClass) (op : BitVecOp) :
    Decidable (bv.Meets op) := by
  cases op <;> unfold BitVecClass.Meets <;> infer_instance

/-- All calls of a run succeed with the answers of the finite set, and in the end the bits set are
its indexes. -/
def BitVecRefines (fresh : Nat → BitVec 32) (ops : List BitVecOp) : Prop :=
  ∃ bv bv', bitVecNew fresh = some bv ∧
    Refinement.run bitVecStep bv ops = some (bv', (Refinement.specRun finsetStep ∅ ops).2) ∧
    ∀ i : BitIndex, bv'.has i = true ↔ i ∈ (Refinement.specRun finsetStep ∅ ops).1

/-! ### Steps -/

/-- The words of the bit vector are in its block, and their bits stand for a set. -/
structure BitVecClass.Represents (bv : BitVecClass) (S : Finset BitIndex) : Prop where
  /-- The words are in the block. -/
  inBlock : 4 * bv.blocks ≤ bv.entries.size
  /-- The bits set are those of the set. -/
  mem : ∀ i : BitIndex, bv.has i = true ↔ i ∈ S

section Steps

variable {bv : BitVecClass} {S : Finset BitIndex}

/-- A word of the bit vector is read. -/
theorem BitVecClass.Represents.read (h : bv.Represents S) {k : Nat} (hk : k < bv.blocks) :
  bv.entries.read k = some (bv.entries.word k)
  := by
  rw [U32Block.read, if_pos]
  have := h.inBlock
  omega

/-- The bit vector with one word written. -/
def BitVecClass.put (bv : BitVecClass) (k : Nat) (v : BitVec 32) : BitVecClass :=
  ⟨bv.blocks, ⟨bv.entries.size, Function.update bv.entries.word k v⟩⟩

/-- A word of the bit vector is written. -/
theorem BitVecClass.Represents.write (h : bv.Represents S) {k : Nat} (hk : k < bv.blocks)
    (v : BitVec 32) :
  bv.entries.write k v = some (bv.put k v).entries
  := by
  have := h.inBlock
  rw [U32Block.write, if_pos (by omega)]
  rfl

/-- The bits after a word is written stand for a set when those of the word do. -/
theorem BitVecClass.Represents.put (h : bv.Represents S) {k : Nat} (hk : k < bv.blocks)
    {v : BitVec 32} {S' : Finset BitIndex}
    (hword : ∀ i : BitIndex, i.val / 32 = k → (v.getLsbD (i.val % 32) = true ↔ i ∈ S'))
    (hother : ∀ i : BitIndex, i.val / 32 ≠ k → (i ∈ S ↔ i ∈ S')) :
  (bv.put k v).Represents S'
  := by
  constructor
  case inBlock => exact h.inBlock
  case mem =>
    intro i
    rw [BitVecClass.has, BitVecClass.put]
    dsimp only
    by_cases hi : i.val / 32 = k
    · rw [hi, Function.update_self, ← hword i hi]
      simp [hk]
    · rw [Function.update_of_ne hi, ← hother i hi, ← h.mem i, BitVecClass.has]

/-- The bits of a word that is there stand for the set. -/
theorem BitVecClass.Represents.word (h : bv.Represents S) {i : BitIndex}
    (hi : i.val / 32 < bv.blocks) :
  (bv.entries.word (i.val / 32)).getLsbD (i.val % 32) = true ↔ i ∈ S
  := by
  rw [← h.mem i, BitVecClass.has]
  simp [hi]

/-- The bit that is set. -/
theorem getLsbD_one_shift {n i : Nat} (hn : n < 32) :
  ((1 : BitVec 32) <<< n).getLsbD i = true ↔ i = n
  := by
  rw [BitVec.getLsbD_shiftLeft]
  constructor
  · intro h
    rw [Bool.and_eq_true, Bool.and_eq_true] at h
    have hone : ((1#32).getLsbD (i - n)) = true := h.2
    rw [BitVec.getLsbD_one] at hone
    simp at h hone
    omega
  · rintro rfl
    simp [hn]

/-- `BitVecSet` in a word that is there. -/
theorem bitVecSet_represents (h : bv.Represents S) {fresh : Nat → BitVec 32} {idx : BitIndex}
    (hidx : idx.val / 32 < bv.blocks) :
  ∃ bv', bitVecSet fresh bv idx = some bv' ∧ bv'.Represents (insert idx S)
  := by
  use bv.put (idx.val / 32)
    (bv.entries.word (idx.val / 32) ||| (1 : BitVec 32) <<< (idx.val % 32))
  constructor
  · rw [bitVecSet, if_neg (not_le.mpr hidx), Option.bind_some, h.read hidx, Option.bind_some,
      h.write hidx]
    rfl
  · apply h.put hidx
    · intro i hi
      rw [BitVec.getLsbD_or, Bool.or_eq_true, ← hi, h.word (hi ▸ hidx),
        getLsbD_one_shift (Nat.mod_lt _ (by decide)), Finset.mem_insert, Fin.ext_iff, or_comm]
      apply or_congr_left
      omega
    · intro i hi
      rw [Finset.mem_insert]
      constructor
      · exact Or.inr
      · rintro (rfl | hmem)
        · exact absurd rfl hi
        · exact hmem

/-- The mask keeps the bits from the sixth on, and of the others all but that of the index. -/
theorem getLsbD_unSetMask (idx : BitIndex) {i : Nat} (hi : i < 32) :
  (unSetMask idx).getLsbD i = true ↔ ¬ (i = idx.val % 64 ∧ i < 5)
  := by
  have hlow : ∀ i < 32, (31 : BitVec 64).getLsbD i = decide (i < 5) := by decide
  have hbit : ((1 : BitVec 64) <<< (idx.val % 64)).getLsbD i = decide (i = idx.val % 64) := by
    rw [BitVec.getLsbD_shiftLeft, Bool.eq_iff_iff]
    have hone : (1#64).getLsbD (i - idx.val % 64) = decide (i - idx.val % 64 = 0) := by
      rw [BitVec.getLsbD_one]
      simp
    change (_ && (1#64).getLsbD (i - idx.val % 64)) = true ↔ _
    rw [hone]
    simp only [Bool.and_eq_true, Bool.not_eq_true', decide_eq_true_eq, decide_eq_false_iff_not]
    omega
  rw [unSetMask, BitVec.getLsbD_not, BitVec.getLsbD_and, hlow i hi, hbit]
  have : i < 64 := by omega
  simp only [this, decide_true, Bool.true_and, Bool.not_eq_true', Bool.and_eq_false_imp,
    decide_eq_true_eq, decide_eq_false_iff_not, not_and]

/-- `BitVecUnSet` of an index that the mask clears or that is not set. -/
theorem bitVecUnSet_represents (h : bv.Represents S) {idx : BitIndex}
    (hidx : idx.val % 64 < 5 ∨ bv.has idx = false) :
  ∃ bv', bitVecUnSet bv idx = some bv' ∧ bv'.Represents (S.erase idx)
  := by
  rw [bitVecUnSet]
  split
  case isTrue hblock =>
    rw [h.read hblock, Option.bind_some, h.write hblock]
    refine ⟨_, rfl, h.put hblock ?_ ?_⟩
    · intro i hi
      have hlt : i.val % 32 < 32 := Nat.mod_lt _ (by decide)
      have hmask := getLsbD_unSetMask idx hlt
      have hword := h.word (i := i) (hi ▸ hblock)
      rw [hi] at hword
      have hsplit : i.val = i.val / 32 * 32 + i.val % 32 := by omega
      rw [BitVec.getLsbD_setWidth, BitVec.getLsbD_and, BitVec.getLsbD_setWidth]
      simp only [hlt, show i.val % 32 < 64 by omega, decide_true, Bool.true_and,
        Bool.and_eq_true]
      rw [hword, hmask, Finset.mem_erase, and_comm]
      apply and_congr_left
      intro hmem
      rw [not_iff_not, Fin.ext_iff]
      rcases hidx with hlow | hclear
      · omega
      · have hne : i ≠ idx := by
          rintro rfl
          rw [← h.mem i, hclear] at hmem
          cases hmem
        have : i.val ≠ idx.val := fun heq => hne (Fin.ext heq)
        omega
    · intro i hi
      rw [Finset.mem_erase]
      constructor
      · intro hmem
        refine ⟨?_, hmem⟩
        rintro rfl
        exact hi rfl
      · exact And.right
  case isFalse hblock =>
    refine ⟨bv, rfl, h.inBlock, ?_⟩
    intro i
    rw [h.mem i, Finset.mem_erase]
    constructor
    · intro hmem
      refine ⟨?_, hmem⟩
      rintro rfl
      rw [← h.mem i, BitVecClass.has, decide_eq_false hblock] at hmem
      cases hmem
    · exact And.right

/-- A byte is nonzero when one of its bits is set. -/
theorem byte_ne_zero (b : BitVec 8) :
  b ≠ 0 ↔ ∃ k < 8, b.getLsbD k = true
  := by
  rw [Ne, BitVec.eq_of_getLsbD_eq_iff, not_forall]
  apply exists_congr
  intro k
  rw [Classical.not_imp]
  simp

/-- What `BitVecTest` answers, of an index whose word is there. -/
theorem bitVecTest_ne_zero (v : BitVec 32) (n : Nat) :
  (v >>> n).setWidth 8 ≠ 0 ↔ ∃ k < 8, v.getLsbD (n + k) = true
  := by
  rw [byte_ne_zero]
  apply exists_congr
  intro k
  apply and_congr_right
  intro hk
  rw [BitVec.getLsbD_setWidth, BitVec.getLsbD_ushiftRight]
  simp [hk]

/-- `BitVecTest` of an index for which the byte tells its bit. -/
theorem bitVecTest_represents (h : bv.Represents S) {idx : BitIndex}
    (hidx : bv.has idx = true ↔
      ∃ k < 8, bv.has (idx.val / 32 * 32 + (idx.val % 2 + k)) = true) :
  ∃ b, bitVecTest bv idx = some b ∧ (b ≠ 0 ↔ idx ∈ S)
  := by
  rw [bitVecTest]
  split
  case isTrue hblock =>
    refine ⟨_, by rw [h.read hblock]; rfl, ?_⟩
    rw [bitVecTest_ne_zero, ← h.mem idx, hidx]
    apply exists_congr
    intro k
    apply and_congr_right
    intro hk
    have hdiv : (idx.val / 32 * 32 + (idx.val % 2 + k)) / 32 = idx.val / 32 := by omega
    have hmod : (idx.val / 32 * 32 + (idx.val % 2 + k)) % 32 = idx.val % 32 % 2 + k := by omega
    rw [BitVecClass.has, hdiv, hmod, decide_eq_true hblock, Bool.true_and]
  case isFalse hblock =>
    refine ⟨0, rfl, ?_⟩
    rw [← h.mem idx, BitVecClass.has, decide_eq_false hblock]
    simp

/-- Words set to zero in a block. -/
theorem U32Block.zero_eq {b : U32Block} {n : Nat} (hn : 4 * n ≤ b.size) :
  b.zero n = some ⟨b.size, fun k => if k < n then 0 else b.word k⟩
  := by
  induction n with
  | zero =>
    rw [U32Block.zero]
    simp
  | succ n ih =>
    have hle : 4 * n + 4 ≤ b.size := by omega
    rw [U32Block.zero, ih (by omega), Option.bind_some, U32Block.write]
    dsimp only
    rw [if_pos hle]
    congr 2
    funext k
    rcases Nat.lt_trichotomy k n with hk | rfl | hk
    · rw [Function.update_of_ne (by omega), if_pos hk, if_pos (by omega)]
    · rw [Function.update_self, if_pos (by omega)]
    · rw [Function.update_of_ne (by omega), if_neg (by omega), if_neg (by omega)]

/-- `BitVecClear`. -/
theorem bitVecClear_represents (h : bv.Represents S) :
  ∃ bv', bitVecClear bv = some bv' ∧ bv'.Represents ∅
  := by
  rw [bitVecClear, U32Block.zero_eq h.inBlock]
  refine ⟨_, rfl, h.inBlock, ?_⟩
  intro i
  rw [BitVecClass.has]
  dsimp only
  split
  case isTrue => simp
  case isFalse hi => simp [hi]

/-- The bit vector that `BitVecNew` gives. -/
theorem bitVecNew_represents (fresh : Nat → BitVec 32) :
  ∃ bv, bitVecNew fresh = some bv ∧ bv.Represents ∅
  := by
  refine ⟨_, rfl, le_rfl, ?_⟩
  intro i
  rw [BitVecClass.has]
  dsimp only [u32MAlloc]
  by_cases hi : i.val / 32 = 0
  · rw [hi, Function.update_self]
    simp
  · have : ¬ i.val / 32 < 1 := by omega
    simp [this]

/-- A call on a bit vector of what the call needs. -/
theorem bitVecStep_represents
    (bv : BitVecClass) (S : Finset BitIndex) (op : BitVecOp)
    (h : bv.Represents S) (hop : bv.Meets op) :
  ∃ bv', bitVecStep bv op = some (bv', (finsetStep S op).2)
    ∧ bv'.Represents (finsetStep S op).1
  := by
  cases op with
  | set idx fresh =>
    obtain ⟨bv', hset, h'⟩ : ∃ bv', bitVecSet fresh bv idx = some bv'
        ∧ bv'.Represents (insert idx S) := bitVecSet_represents h hop
    refine ⟨bv', ?_, h'⟩
    rw [bitVecStep, hset]
    rfl
  | unSet idx =>
    obtain ⟨bv', hunset, h'⟩ := bitVecUnSet_represents h hop
    refine ⟨bv', ?_, h'⟩
    rw [bitVecStep, hunset]
    rfl
  | test idx =>
    obtain ⟨b, htest, hb⟩ := bitVecTest_represents h hop
    refine ⟨bv, ?_, h⟩
    rw [bitVecStep, htest, Option.map_some, finsetStep]
    simp only [decide_eq_decide.mpr hb]
  | clear =>
    obtain ⟨bv', hclear, h'⟩ := bitVecClear_represents h
    refine ⟨bv', ?_, h'⟩
    rw [bitVecStep, hclear]
    rfl

end Steps

/-! ### Runs of the operations -/

/-- A bit vector on which every call is made where it works is a set of indexes. -/
theorem bitVec_refines (fresh : Nat → BitVec 32) (ops : List BitVecOp)
    (hops : ∀ bv, bitVecNew fresh = some bv →
      Refinement.Guarded bitVecStep BitVecClass.Meets bv ops) :
  BitVecRefines fresh ops
  := by
  obtain ⟨bv, hnew, h⟩ := bitVecNew_represents fresh
  obtain ⟨bv', hrun, h'⟩ :=
    Refinement.run_refines BitVecClass.Represents bitVecStep_represents h (hops bv hnew)
  exact ⟨bv, bv', hnew, hrun, h'.mem⟩

/-- A bit that is set, tested, cleared and tested again. -/
theorem bitVec_refines_three :
  BitVecRefines (fun _ => 0) [.set 3 fun _ => 0, .test 3, .unSet 3, .test 3, .clear]
  := by
  apply bitVec_refines
  intro bv hnew
  cases hnew
  decide

/-- The answers of a run that stands for a set. -/
theorem BitVecRefines.answers {fresh : Nat → BitVec 32} {ops : List BitVecOp}
    (h : BitVecRefines fresh ops) :
  ((bitVecNew fresh).bind fun bv => (Refinement.run bitVecStep bv ops).map Prod.snd)
    = some (Refinement.specRun finsetStep ∅ ops).2
  := by
  obtain ⟨bv, bv', hnew, hrun, -⟩ := h
  rw [hnew, Option.bind_some, hrun]
  rfl

/-- A growth writes behind its block, a bit is tested that is not set, and one from the sixth on
is not cleared. -/
theorem not_bitVecRefines :
  ¬ BitVecRefines (fun _ => 0) [.set 32 fun _ => 0]
    ∧ ¬ BitVecRefines (fun _ => 0) [.set 2 fun _ => 0, .test 3]
    ∧ ¬ BitVecRefines (fun _ => 0) [.set 5 fun _ => 0, .unSet 5, .test 5]
  := by
  refine ⟨?_, ?_, ?_⟩
  all_goals
    intro h
    exact absurd h.answers (by decide)

end Polyc
