import Polyc.Ir.SSA
import Polyc.Ir.SlotRanges

/-!
# Positions in layout order

Every point of a function has a position: the number of instructions before it in layout
order, not counting `IR_NOP`.  Only a jump to a block that is not later in the list leads
back; all other steps go forward.
-/

namespace Polyc

/-- The index of a block in the list. -/
def IrFunction.layoutIndex (fn : IrFunction) (id : Nat) : Nat :=
  fn.blocks.findIdx (·.id = id)

/-- The number of positions in a list of instructions. -/
def width (l : List IrInstr) : Nat := (emitted l).length

/-- The instructions of the first blocks. -/
def IrFunction.before (fn : IrFunction) (k : Nat) : List IrInstr :=
  (fn.blocks.take k).flatMap IrBlock.instructions

/-- The position of a point. -/
def IrFunction.pos (fn : IrFunction) (p : Point) : Nat :=
  width (fn.before (fn.layoutIndex p.1))
    + width (((fn.findBlock p.1).elim [] IrBlock.instructions).take p.2)

/-- A step back in layout order: a jump to a block that is not later in the list. -/
def IrFunction.Backward (fn : IrFunction) (p q : Point) : Prop :=
  ∃ I, fn.instrAt p = some I ∧ I.op.isJump ∧ fn.layoutIndex q.1 ≤ fn.layoutIndex p.1

@[simp]
theorem width_append (l l' : List IrInstr) :
  width (l ++ l') = width l + width l'
  := by
  unfold width emitted
  rw [List.filter_append, List.length_append]

theorem width_singleton {I : IrInstr} (h : I.op ≠ .nop) :
  width [I] = 1
  := by
  simp [width, emitted, h]

/-- The block of an id is at its index. -/
theorem IrFunction.getElem?_layoutIndex
    {fn : IrFunction} {id : Nat} {b : IrBlock} (h : fn.findBlock id = some b) :
  fn.blocks[fn.layoutIndex id]? = some b
  := by
  unfold IrFunction.findBlock at h
  unfold IrFunction.layoutIndex
  rw [← h, List.find?_eq_getElem?_findIdx]

/-- More blocks have no fewer positions. -/
theorem IrFunction.width_before_mono (fn : IrFunction) {j k : Nat} (h : j ≤ k) :
  width (fn.before j) ≤ width (fn.before k)
  := by
  obtain ⟨d, rfl⟩ := Nat.exists_eq_add_of_le h
  unfold IrFunction.before
  rw [List.take_add, List.flatMap_append, width_append]
  apply Nat.le_add_right

/-- The positions up to and with a block. -/
theorem IrFunction.width_before_succ
    {fn : IrFunction} {id : Nat} {b : IrBlock} (h : fn.findBlock id = some b) :
  width (fn.before (fn.layoutIndex id + 1))
    = width (fn.before (fn.layoutIndex id)) + width b.instructions
  := by
  unfold IrFunction.before
  rw [List.take_add_one, fn.getElem?_layoutIndex h, List.flatMap_append, width_append]
  simp

/-- The instruction at a point is emitted at the position of the point. -/
theorem IrFunction.emitted_pos
    {fn : IrFunction} {p : Point} {I : IrInstr} (h : fn.instrAt p = some I)
    (hop : I.op ≠ .nop) :
  (emitted fn.instrs)[fn.pos p]? = some I
  := by
  obtain ⟨b, hb, hI⟩ := Option.bind_eq_some_iff.mp h
  have hsplit : fn.instrs = fn.before (fn.layoutIndex p.1)
      ++ (b.instructions.take p.2 ++ I :: (b.instructions.drop (p.2 + 1)
        ++ (fn.blocks.drop (fn.layoutIndex p.1 + 1)).flatMap IrBlock.instructions)) := by
    obtain ⟨hlt, hget⟩ := List.getElem?_eq_some_iff.mp hI
    obtain ⟨hlt', hget'⟩ := List.getElem?_eq_some_iff.mp (fn.getElem?_layoutIndex hb)
    have hblock : b.instructions
        = b.instructions.take p.2 ++ I :: b.instructions.drop (p.2 + 1) := by
      rw [← hget, List.getElem_cons_drop, List.take_append_drop]
    have hblocks : fn.blocks = fn.blocks.take (fn.layoutIndex p.1)
        ++ b :: fn.blocks.drop (fn.layoutIndex p.1 + 1) := by
      rw [← hget', List.getElem_cons_drop, List.take_append_drop]
    unfold IrFunction.instrs IrFunction.before
    conv_lhs => rw [hblocks]
    rw [List.flatMap_append, List.flatMap_cons]
    conv_lhs => rw [hblock]
    simp only [List.append_assoc, List.cons_append]
  have hcons : emitted (I :: (b.instructions.drop (p.2 + 1)
      ++ (fn.blocks.drop (fn.layoutIndex p.1 + 1)).flatMap IrBlock.instructions))
        = I :: emitted (b.instructions.drop (p.2 + 1)
      ++ (fn.blocks.drop (fn.layoutIndex p.1 + 1)).flatMap IrBlock.instructions) := by
    simp [emitted, hop]
  unfold IrFunction.pos width
  rw [hb, hsplit]
  dsimp only [Option.elim]
  unfold emitted at hcons ⊢
  rw [List.filter_append, List.filter_append, hcons, ← List.append_assoc, ← List.length_append,
    List.getElem?_append_right (Nat.le_refl _), Nat.sub_self]
  rfl

/-- The position after an instruction. -/
theorem IrFunction.pos_succ
    {fn : IrFunction} {b k : Nat} {I : IrInstr} (h : fn.instrAt (b, k) = some I) :
  fn.pos (b, k + 1) = fn.pos (b, k) + width [I]
  := by
  obtain ⟨blk, hb, hI⟩ := Option.bind_eq_some_iff.mp h
  unfold IrFunction.pos
  dsimp only at hb hI ⊢
  rw [hb]
  dsimp only [Option.elim]
  rw [List.take_add_one, hI, width_append, Nat.add_assoc]
  rfl

/-- A point in a block is not after the end of the block. -/
theorem IrFunction.pos_le_before_succ
    {fn : IrFunction} {b k : Nat} {blk : IrBlock} (h : fn.findBlock b = some blk) :
  fn.pos (b, k) ≤ width (fn.before (fn.layoutIndex b + 1))
  := by
  rw [fn.width_before_succ h]
  unfold IrFunction.pos
  rw [h]
  dsimp only [Option.elim]
  apply Nat.add_le_add_left
  conv_rhs => rw [← List.take_append_drop k blk.instructions, width_append]
  apply Nat.le_add_right

/-- An instruction of a block comes before all later blocks. -/
theorem IrFunction.pos_lt_of_layoutIndex_lt
    {fn : IrFunction} {p q : Point} {I : IrInstr} (h : fn.instrAt p = some I)
    (hop : I.op ≠ .nop) (hlt : fn.layoutIndex p.1 < fn.layoutIndex q.1) :
  fn.pos p < fn.pos q
  := by
  obtain ⟨b, hb, -⟩ := Option.bind_eq_some_iff.mp h
  have hsucc := fn.pos_succ (b := p.1) (k := p.2) h
  rw [width_singleton hop] at hsucc
  have hend := fn.pos_le_before_succ (k := p.2 + 1) hb
  have hle : fn.layoutIndex p.1 + 1 ≤ fn.layoutIndex q.1 := hlt
  have hmono := fn.width_before_mono hle
  have hq : width (fn.before (fn.layoutIndex q.1)) ≤ fn.pos q := by
    apply Nat.le_add_right
  have hp : fn.pos p = fn.pos (p.1, p.2) := rfl
  omega

/-- A step that does not lead back goes forward, and a jump strictly so. -/
theorem IrFunction.pos_step
    {fn : IrFunction} {p q : Point} {I : IrInstr} (hI : fn.instrAt p = some I)
    (hq : q ∈ I.nexts p) (hb : ¬ fn.Backward p q) :
  fn.pos p ≤ fn.pos q ∧ (I.op.isJump → fn.pos p < fn.pos q)
  := by
  by_cases hjump : I.op.isJump
  · have hop : I.op ≠ .nop := by
      intro e
      rw [e] at hjump
      cases hjump
    have hlt : fn.layoutIndex p.1 < fn.layoutIndex q.1 := by
      by_contra hge
      apply hb
      exact ⟨I, hI, hjump, by omega⟩
    have hpos := fn.pos_lt_of_layoutIndex_lt hI hop hlt
    exact ⟨hpos.le, fun _ => hpos⟩
  · constructor
    · have hnext : q = (p.1, p.2 + 1) := by
        unfold IrInstr.nexts at hq
        split at hq
        all_goals simp_all [IrOp.isJump]
      rw [hnext, fn.pos_succ hI]
      apply Nat.le_add_right
    · intro h
      contradiction

end Polyc
