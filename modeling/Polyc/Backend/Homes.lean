import Polyc.Ast.Types
import Polyc.Ir.Frames
import Polyc.Lib.Bytes
import Polyc.Lib.Widths

/-!
# Homes and memory on x86-64

What the back end for x86-64 does with the homes of variables and with memory.  A home is a slot of
eight bytes or a pinned register.  Moves between registers and slots take the width of a value:
loads of one and two bytes are extended by zeros, loads of four by the sign, and stores leave the
other bytes of a slot alone.  Floating-point values take `movss` and `movsd`.
-/

namespace Polyc

open Widths

/-! ### Moves -/

/-- The bytes that `x86_64GetSizedMov` moves. -/
def x86_64GetSizedMov (size : Nat) : Nat :=
  match size with
  | 1 => 1
  | 2 => 2
  | 4 => 4
  | _ => 8

/-- The bytes that `x86_64FpMov` moves. -/
def x86_64FpMov (size : Nat) : Nat := if size = 4 then 4 else 8

/-- `x86_64Load`: the register after a load from a slot. -/
def x86_64Load (size : Nat) (slot : Word) : Word :=
  match size with
  | 1 => (slot.setWidth 8).setWidth 64
  | 2 => (slot.setWidth 16).setWidth 64
  | 4 => (slot.setWidth 32).signExtend 64
  | _ => slot

/-- `x86_64FrameStoreWidth`: the slot after a store. -/
def x86_64FrameStoreWidth (size : Nat) (w slot : Word) : Word :=
  splice (8 * x86_64GetSizedMov size) w slot

/-- The word of the `n` bytes at an address. -/
def readWord (mem : Bytes.Mem) (a : Word) (n : Nat) : Word := (Bytes.read mem a.toNat n).setWidth 64

/-- The memory after the lowest `n` bytes of a word are written to an address. -/
def writeWord (mem : Bytes.Mem) (a : Word) (n : Nat) (w : Word) : Bytes.Mem :=
  Bytes.write mem a.toNat (Bytes.layout n w)

/-- `x86_64DerefLoadWidth`: the register after a load from memory. -/
def x86_64DerefLoadWidth (size : Nat) (mem : Bytes.Mem) (a : Word) : Word :=
  x86_64Load size (readWord mem a (x86_64GetSizedMov size))

/-- `x86_64DerefStoreWidth`: the memory after a store. -/
def x86_64DerefStoreWidth (size : Nat) (w : Word) (mem : Bytes.Mem) (a : Word) : Bytes.Mem :=
  writeWord mem a (x86_64GetSizedMov size) w

/-! ### Bits that are moved -/

theorem x86_64GetSizedMov_le (size : Nat) :
  x86_64GetSizedMov size ≤ 8
  := by
  rw [x86_64GetSizedMov.eq_def]
  split
  all_goals decide

theorem x86_64FpMov_le (size : Nat) :
  x86_64FpMov size ≤ 8
  := by
  rw [x86_64FpMov]
  split
  all_goals decide

/-- The register agrees with the slot as far as the load goes. -/
theorem agree_x86_64Load (size : Nat) (slot : Word) :
  Agree (8 * x86_64GetSizedMov size) (x86_64Load size slot) slot
  := by
  intro i hi
  rw [x86_64GetSizedMov.eq_def] at hi
  rw [x86_64Load.eq_def]
  split
  · change i < 8 at hi
    rw [BitVec.getLsbD_setWidth, BitVec.getLsbD_setWidth, decide_eq_true hi,
      decide_eq_true (by omega), Bool.true_and, Bool.true_and]
  · change i < 16 at hi
    rw [BitVec.getLsbD_setWidth, BitVec.getLsbD_setWidth, decide_eq_true hi,
      decide_eq_true (by omega), Bool.true_and, Bool.true_and]
  · change i < 32 at hi
    rw [BitVec.getLsbD_signExtend, if_pos hi, BitVec.getLsbD_setWidth, decide_eq_true hi,
      decide_eq_true (by omega), Bool.true_and, Bool.true_and]
  · rfl

/-- The register depends on the bits that are loaded. -/
theorem x86_64Load_congr {size : Nat} {a b : Word}
    (h : Agree (8 * x86_64GetSizedMov size) a b) :
  x86_64Load size a = x86_64Load size b
  := by
  rw [x86_64GetSizedMov.eq_def] at h
  rw [x86_64Load.eq_def, x86_64Load.eq_def]
  split at h
  · rw [agree_iff_setWidth.mp h]
  · rw [agree_iff_setWidth.mp h]
  · rw [agree_iff_setWidth.mp h]
  · exact h.eq

/-- A bit of a word in memory. -/
theorem getLsbD_readWord {mem : Bytes.Mem} {a : Word} {n i : Nat} (hi : i < 8 * n) (hn : n ≤ 8) :
  (readWord mem a n).getLsbD i = (mem (a.toNat + i / 8)).getLsbD (i % 8)
  := by
  have hword : i < 64 := Nat.lt_of_lt_of_le hi (Nat.mul_le_mul_left 8 hn)
  rw [readWord, BitVec.getLsbD_setWidth, Bytes.getLsbD_read, decide_eq_true hword,
    decide_eq_true hi, Bool.true_and, Bool.true_and]

/-- A narrow load agrees with a wide one. -/
theorem agree_readWord (mem : Bytes.Mem) (a : Word) {n : Nat} (hn : n ≤ 8) :
  Agree (8 * n) (readWord mem a n) (readWord mem a 8)
  := by
  intro i hi
  rw [getLsbD_readWord hi hn, getLsbD_readWord (by omega) (Nat.le_refl 8)]

/-- A byte of a word that is written. -/
theorem writeWord_at (mem : Bytes.Mem) (a w : Word) {n k : Nat} (hk : k < n) :
  writeWord mem a n w (a.toNat + k) = w.extractLsb' (8 * k) 8
  := by
  have hlt : k < (Bytes.layout n w).length := by rwa [Bytes.length_layout]
  rw [writeWord, Bytes.write_of_mem hlt, Bytes.layout, List.getD_eq_getElem?_getD,
    List.getElem?_map, List.getElem?_range hk]
  rfl

/-- A byte that is not written. -/
theorem writeWord_outside (mem : Bytes.Mem) (a w : Word) {n x : Nat}
    (hx : x < a.toNat ∨ a.toNat + n ≤ x) :
  writeWord mem a n w x = mem x
  := by
  rcases hx with hlt | hge
  · exact Bytes.write_of_lt hlt
  · apply Bytes.write_of_ge
    rwa [Bytes.length_layout]

/-- What is written depends on the bits that are written. -/
theorem writeWord_congr {mem : Bytes.Mem} {a : Word} {n : Nat} {w w' : Word}
    (h : Agree (8 * n) w w') :
  writeWord mem a n w = writeWord mem a n w'
  := by
  rw [writeWord, writeWord]
  congr 1
  apply List.map_congr_left
  intro k hk
  have hlt := List.mem_range.mp hk
  apply BitVec.eq_of_getLsbD_eq
  intro i hi
  rw [BitVec.getLsbD_extractLsb', BitVec.getLsbD_extractLsb', h (8 * k + i) (by omega)]

/-- The word at an address after some of its bytes are written. -/
theorem readWord_writeWord (mem : Bytes.Mem) (a w : Word) (n : Nat) :
  readWord (writeWord mem a n w) a 8 = splice (8 * n) w (readWord mem a 8)
  := by
  apply BitVec.eq_of_getLsbD_eq
  intro i hi
  rw [getLsbD_splice, getLsbD_readWord hi (Nat.le_refl 8), getLsbD_readWord hi (Nat.le_refl 8)]
  split
  case isTrue hlt =>
    rw [writeWord_at mem a w (by omega : i / 8 < n), BitVec.getLsbD_extractLsb',
      decide_eq_true (by omega), Bool.true_and, Nat.div_add_mod]
  case isFalse hge => rw [writeWord_outside mem a w (.inr (by omega))]

/-- Memories with the same word at an address and the same bytes elsewhere are the same. -/
theorem mem_eq_of_readWord {mem mem' : Bytes.Mem} {a : Word}
    (hword : readWord mem a 8 = readWord mem' a 8)
    (houtside : ∀ x, x < a.toNat ∨ a.toNat + 8 ≤ x → mem x = mem' x) :
  mem = mem'
  := by
  funext x
  by_cases hx : x < a.toNat ∨ a.toNat + 8 ≤ x
  · exact houtside x hx
  · obtain ⟨hge, hlt⟩ := not_or.mp hx
    obtain ⟨k, rfl⟩ : ∃ k, x = a.toNat + k := ⟨x - a.toNat, by omega⟩
    apply BitVec.eq_of_getLsbD_eq
    intro i hi
    have hbit := congrArg (·.getLsbD (8 * k + i)) hword
    rw [getLsbD_readWord (by omega) (Nat.le_refl 8), getLsbD_readWord (by omega) (Nat.le_refl 8),
      show (8 * k + i) / 8 = k by omega, show (8 * k + i) % 8 = i by omega] at hbit
    exact hbit

/-- Two writes at an address leave the same memory when they leave the same word. -/
theorem writeWord_eq_iff {mem : Bytes.Mem} {a w w' : Word} {n n' : Nat} (hn : n ≤ 8)
    (hn' : n' ≤ 8) :
  writeWord mem a n w = writeWord mem a n' w'
    ↔ splice (8 * n) w (readWord mem a 8) = splice (8 * n') w' (readWord mem a 8)
  := by
  rw [← readWord_writeWord mem a w n, ← readWord_writeWord mem a w' n']
  constructor
  · intro h
    rw [h]
  · intro h
    apply mem_eq_of_readWord h
    intro x hx
    rw [writeWord_outside mem a w (by omega), writeWord_outside mem a w' (by omega)]

/-- Every word is at an address of some memory. -/
theorem exists_readWord (a w : Word) :
  ∃ mem, readWord mem a 8 = w
  := by
  use writeWord (fun _ => 0) a 8 w
  rw [readWord_writeWord]
  exact splice_of_le (Nat.le_refl 64) _ _

/-! ### Homes -/

/-- `x86_64LoadToReg`. -/
def x86_64LoadToReg (outside : IrValue → Word) (φ : IrFrame) (v : IrValue) : Word :=
  match v.kind with
  | .constInt => v.as.toI64
  | .tmp | .local | .param =>
    match v.place with
    | .reg _ => φ v.place
    | .slot _ => x86_64Load (irValueByteSize v) (φ v.place)
  | _ => outside v

/-- `x86_64LoadToFpr`. -/
def x86_64LoadToFpr (outside : IrValue → Word) (φ : IrFrame) (v : IrValue) : Word :=
  match v.kind with
  | .tmp | .local | .param => splice (8 * x86_64FpMov (irValueByteSize v)) (φ v.place) 0
  | _ => outside v

/-- `x86_64StoreReg`. -/
def x86_64StoreReg (d : IrValue) (w : Word) (φ : IrFrame) : IrFrame :=
  Function.update φ d.place
    (match d.place with
    | .reg _ => w
    | .slot _ => x86_64FrameStoreWidth (irValueByteSize d) w (φ d.place))

/-- The name of a register of the vector file. -/
def isXmm (name : String) : Bool := name.front = 'x' ∨ name.front = 'X'

/-- `x86_64StoreFprSized`; a move to a general register clears what it does not write. -/
def x86_64StoreFprSized (d : IrValue) (w : Word) (size : Nat) (φ : IrFrame) : IrFrame :=
  Function.update φ d.place
    (match d.place with
    | .reg name => splice (8 * x86_64FpMov size) w (if isXmm name then φ d.place else 0)
    | .slot _ => splice (8 * x86_64FpMov size) w (φ d.place))

/-- `x86_64StoreFpr`. -/
def x86_64StoreFpr (d : IrValue) (w : Word) (φ : IrFrame) : IrFrame :=
  x86_64StoreFprSized d w (irValueByteSize d) φ

/-! ### Arithmetic -/

/-- `x86_64IsImm32`. -/
def x86_64IsImm32 (v : IrValue) : Option Int :=
  if v.kind = .constInt ∧ -2 ^ 31 ≤ v.as.toI64.toInt ∧ v.as.toI64.toInt < 2 ^ 31 then
    some v.as.toI64.toInt
  else none

/-- The word of an integer operation on two words. -/
def aluWord (op : IrOp) (x y : Word) : Word :=
  match op with
  | .iadd => x + y
  | .isub => x - y
  | .and => x &&& y
  | .or => x ||| y
  | .xor => x ^^^ y
  | _ => x

/-- An integer operation on a word and an operand: `inc` and `dec`, an immediate or a register. -/
def x86_64Alu (op : IrOp) (x : Word) (v : IrValue) (w : Word) : Word :=
  match x86_64IsImm32 v with
  | some imm =>
    if (op = .iadd ∧ imm = 1) ∨ (op = .isub ∧ imm = -1) then x + 1
    else if (op = .iadd ∧ imm = -1) ∨ (op = .isub ∧ imm = 1) then x - 1
    else aluWord op x (BitVec.ofInt 64 imm)
  | none => aluWord op x w

/-! ### Instructions -/

/-- The homes of variables and the memory. -/
structure ByteState where
  frame : IrFrame
  mem : Bytes.Mem

/-- The address of a memory operand: that of a global is its symbol, a missing one is null. -/
def x86_64MemOperand (outside : IrValue → Word) (φ : IrFrame) (I : IrInstr)
    (base : Option IrValue) : Word :=
  match base with
  | none => 0
  | some base =>
    if base.kind = .global then outside base
    else x86_64LoadToReg outside φ base + BitVec.ofInt 64 I.disp
      + if I.scale = 0 then 0
        else (I.idx.map fun v => BitVec.ofNat 64 I.scale * x86_64LoadToReg outside φ v).getD 0

/-- `IR_LOAD`. -/
def x86_64EmitLoad (d v : IrValue) (φ : IrFrame) : IrFrame :=
  match v.place with
  | .reg _ => x86_64StoreReg d (φ v.place) φ
  | .slot _ =>
    if irIsFloat d.type then
      x86_64StoreFpr d (splice (8 * x86_64FpMov (irValueByteSize d)) (φ v.place) 0) φ
    else x86_64StoreReg d (x86_64Load d.as.varSize (φ v.place)) φ

/-- `IR_STORE`: the width is that of the operand. -/
def x86_64EmitStore (outside : IrValue → Word) (d v : IrValue) (φ : IrFrame) : IrFrame :=
  if irIsFloat v.type then
    x86_64StoreFprSized d (x86_64LoadToFpr outside φ v) (irValueByteSize v) φ
  else
    Function.update φ d.place
      (match d.place with
      | .reg _ => x86_64LoadToReg outside φ v
      | .slot _ =>
        x86_64FrameStoreWidth (irValueByteSize v) (x86_64LoadToReg outside φ v) (φ d.place))

/-- `IR_LOAD_DEREF`: a global is read by `movq`. -/
def x86_64EmitLoadDeref (outside : IrValue → Word) (I : IrInstr) (d : IrValue) (s : ByteState) :
    IrFrame :=
  let a := x86_64MemOperand outside s.frame I I.r1
  if irIsFloat d.type then
    x86_64StoreFpr d (readWord s.mem a (x86_64FpMov (irValueByteSize d))) s.frame
  else if I.r1.any (·.kind = .global) then x86_64StoreReg d (readWord s.mem a 8) s.frame
  else x86_64StoreReg d (x86_64DerefLoadWidth d.as.varSize s.mem a) s.frame

/-- `IR_STORE_DEREF`. -/
def x86_64EmitStoreDeref (outside : IrValue → Word) (I : IrInstr) (v : IrValue) (s : ByteState) :
    Bytes.Mem :=
  let a := x86_64MemOperand outside s.frame I I.dst
  if irIsFloat v.type then
    writeWord s.mem a (x86_64FpMov (irValueByteSize v)) (x86_64LoadToFpr outside s.frame v)
  else x86_64DerefStoreWidth (irValueByteSize v) (x86_64LoadToReg outside s.frame v) s.mem a

/-- `IR_RMW_DEREF`: the width is that of the operand. -/
def x86_64EmitRmwDeref (outside : IrValue → Word) (I : IrInstr) (v : IrValue) (s : ByteState) :
    Bytes.Mem :=
  let a := x86_64MemOperand outside s.frame I I.dst
  let n := x86_64GetSizedMov (irValueByteSize v)
  writeWord s.mem a n
    (x86_64Alu I.rmwOp (readWord s.mem a n) v (x86_64LoadToReg outside s.frame v))

/-- `IR_IADD`, `IR_ISUB`, `IR_AND`, `IR_OR` and `IR_XOR`. -/
def x86_64EmitAlu (outside : IrValue → Word) (op : IrOp) (d v v' : IrValue) (φ : IrFrame) :
    IrFrame :=
  x86_64StoreReg d
    (x86_64Alu op (x86_64LoadToReg outside φ v) v' (x86_64LoadToReg outside φ v')) φ

/-- `x86_64EmitInstr`, of the opcodes that move words and the integer operations; `none` where an
operand is missing, and for other opcodes. -/
def x86_64EmitInstr (outside : IrValue → Word) (I : IrInstr) (s : ByteState) : Option ByteState :=
  match I.op with
  | .nop | .alloca | .phi | .gep | .label => some s
  | .load => I.dst.bind fun d => I.r1.map fun v =>
    { s with frame := x86_64EmitLoad d v s.frame }
  | .store => I.dst.bind fun d => I.r1.map fun v =>
    { s with frame := x86_64EmitStore outside d v s.frame }
  | .loadDeref => I.dst.map fun d => { s with frame := x86_64EmitLoadDeref outside I d s }
  | .storeDeref => I.r1.map fun v => { s with mem := x86_64EmitStoreDeref outside I v s }
  | .rmwDeref => I.r1.map fun v => { s with mem := x86_64EmitRmwDeref outside I v s }
  | .iadd | .isub | .and | .or | .xor => I.dst.bind fun d => I.r1.bind fun v => I.r2.map fun v' =>
    { s with frame := x86_64EmitAlu outside I.op d v v' s.frame }
  | _ => none

/-- The state after some instructions. -/
def x86_64EmitInstrs (outside : IrValue → Word) (l : List IrInstr) (s : ByteState) :
    Option ByteState :=
  l.foldlM (fun s I => x86_64EmitInstr outside I s) s

/-! ### Bytes that are touched -/

/-- The bytes that moves of a value to and from its slot move. -/
def IrValue.moveWidth (v : IrValue) : Nat :=
  if irIsFloat v.type then x86_64FpMov (irValueByteSize (some v))
  else x86_64GetSizedMov (irValueByteSize (some v))

/-- The bytes that `IR_LOAD_DEREF` reads. -/
def x86_64LoadWidth (I : IrInstr) (d : IrValue) : Nat :=
  if irIsFloat d.type then x86_64FpMov (irValueByteSize (some d))
  else if I.r1.any (·.kind = .global) then 8
  else x86_64GetSizedMov d.as.varSize

/-- The addresses of some bytes. -/
def wordBytes (a : Word) (n : Nat) : Set Nat := {x | a.toNat ≤ x ∧ x < a.toNat + n}

/-- The bytes of memory that an instruction reads. -/
def x86_64Reads (outside : IrValue → Word) (I : IrInstr) (s : ByteState) : Set Nat :=
  match I.op, I.dst, I.r1 with
  | .loadDeref, some d, _ =>
    wordBytes (x86_64MemOperand outside s.frame I I.r1) (x86_64LoadWidth I d)
  | .rmwDeref, _, some v =>
    wordBytes (x86_64MemOperand outside s.frame I I.dst) (x86_64GetSizedMov (irValueByteSize (some v)))
  | _, _, _ => ∅

/-- The bytes of memory that an instruction writes. -/
def x86_64Writes (outside : IrValue → Word) (I : IrInstr) (s : ByteState) : Set Nat :=
  match I.op, I.r1 with
  | .storeDeref, some v => wordBytes (x86_64MemOperand outside s.frame I I.dst) v.moveWidth
  | .rmwDeref, some v =>
    wordBytes (x86_64MemOperand outside s.frame I I.dst) (x86_64GetSizedMov (irValueByteSize (some v)))
  | _, _ => ∅

/-- The bytes that instructions touch, each in the state in which it is executed. -/
def x86_64Touched (outside : IrValue → Word) (touches : IrInstr → ByteState → Set Nat) :
    List IrInstr → ByteState → Set Nat
  | [], _ => ∅
  | I :: l, s =>
    touches I s ∪ (x86_64EmitInstr outside I s).elim ∅ (x86_64Touched outside touches l)

section Touched

variable {outside : IrValue → Word} {touches : IrInstr → ByteState → Set Nat}

/-- The first of some instructions, and the others. -/
theorem touched_cons {I : IrInstr} {l : List IrInstr} {s s' : ByteState}
    (h : x86_64EmitInstr outside I s = some s') :
  x86_64Touched outside touches (I :: l) s = touches I s ∪ x86_64Touched outside touches l s'
  := by
  rw [x86_64Touched, h, Option.elim_some]

/-- One instruction. -/
theorem touched_singleton (I : IrInstr) (s : ByteState) :
  x86_64Touched outside touches [I] s = touches I s
  := by
  rw [x86_64Touched]
  cases x86_64EmitInstr outside I s with
  | none => rw [Option.elim_none, Set.union_empty]
  | some s' => rw [Option.elim_some, x86_64Touched, Set.union_empty]

end Touched

/-- One range of bytes is in another from the same address on. -/
theorem wordBytes_subset {a : Word} {n m : Nat} :
  wordBytes a n ⊆ wordBytes a m ↔ n ≤ m
  := by
  constructor
  · intro h
    by_contra hlt
    have hmem : a.toNat + m ∈ wordBytes a n := ⟨Nat.le_add_right _ _, by omega⟩
    exact absurd (h hmem).2 (Nat.lt_irrefl _)
  · intro h x hx
    exact ⟨hx.1, Nat.lt_of_lt_of_le hx.2 (Nat.add_le_add_left h _)⟩

/-! ### What instructions do -/

theorem IrValue.moveWidth_le (v : IrValue) :
  v.moveWidth ≤ 8
  := by
  rw [moveWidth]
  split
  · apply x86_64FpMov_le
  · apply x86_64GetSizedMov_le

/-- A temporary moves as many bytes as its record says, where it says so. -/
theorem x86_64GetSizedMov_le_varSize {v : IrValue} (h : v.kind = .tmp) :
  x86_64GetSizedMov (irValueByteSize (some v)) ≤ x86_64GetSizedMov v.as.varSize
  := by
  rw [irValueByteSize]
  split
  case isTrue => exact Nat.le_refl _
  case isFalse hsize =>
    have hzero : v.as.varSize = 0 := by
      by_contra hpos
      exact hsize ⟨.inl h, Nat.pos_of_ne_zero hpos⟩
    rw [hzero]
    apply x86_64GetSizedMov_le

/-- A value in another place is not changed by a write. -/
theorem x86_64LoadToReg_update {outside : IrValue → Word} {φ : IrFrame} {v : IrValue} {p : Place}
    (h : v.place ≠ p) (w : Word) :
  x86_64LoadToReg outside (Function.update φ p w) v = x86_64LoadToReg outside φ v
  := by
  rw [x86_64LoadToReg, x86_64LoadToReg, Function.update_of_ne h]

/-- An address whose operands are in other places is not changed by a write. -/
theorem x86_64MemOperand_update {outside : IrValue → Word} {φ : IrFrame} {I : IrInstr}
    {base : Option IrValue} {p : Place} (hbase : ∀ v ∈ base, v.place ≠ p)
    (hidx : ∀ v ∈ I.idx, v.place ≠ p) (w : Word) :
  x86_64MemOperand outside (Function.update φ p w) I base = x86_64MemOperand outside φ I base
  := by
  have hmap : I.idx.map (fun v => BitVec.ofNat 64 I.scale
        * x86_64LoadToReg outside (Function.update φ p w) v)
      = I.idx.map fun v => BitVec.ofNat 64 I.scale * x86_64LoadToReg outside φ v := by
    apply Option.map_congr
    intro v hv
    rw [x86_64LoadToReg_update (hidx v hv)]
  cases base with
  | none => rfl
  | some v => rw [x86_64MemOperand, x86_64MemOperand, x86_64LoadToReg_update (hbase v rfl), hmap]

section Effects

variable {outside : IrValue → Word} {s : ByteState}

/-- A temporary that is read. -/
theorem x86_64LoadToReg_of_tmp {v : IrValue} (h : v.kind = .tmp) (φ : IrFrame) :
  x86_64LoadToReg outside φ v = x86_64Load (irValueByteSize (some v)) (φ v.place)
  := by
  rw [x86_64LoadToReg, h, IrValue.place_of_tmp h]

/-- A temporary that is written. -/
theorem x86_64StoreReg_of_tmp {d : IrValue} (h : d.kind = .tmp) (w : Word) (φ : IrFrame) :
  x86_64StoreReg d w φ = Function.update φ d.place
    (splice (8 * x86_64GetSizedMov (irValueByteSize (some d))) w (φ d.place))
  := by
  rw [x86_64StoreReg, IrValue.place_of_tmp h]
  rfl

/-- Immediates, `inc` and `dec` do what the operation does. -/
theorem x86_64Alu_eq {op : IrOp} {x : Word} {v : IrValue} {φ : IrFrame} :
  x86_64Alu op x v (x86_64LoadToReg outside φ v) = aluWord op x (x86_64LoadToReg outside φ v)
  := by
  rw [x86_64Alu, x86_64IsImm32]
  split
  case h_2 => rfl
  case h_1 imm himm =>
    split at himm
    case isFalse => cases himm
    case isTrue hconst =>
      obtain ⟨hkind, -, -⟩ := hconst
      have hword : x86_64LoadToReg outside φ v = v.as.toI64 := by rw [x86_64LoadToReg, hkind]
      have himm' := Option.some.inj himm
      have hw : x86_64LoadToReg outside φ v = BitVec.ofInt 64 imm := by
        rw [hword, ← himm', BitVec.ofInt_toInt]
      rw [hw]
      split
      case isTrue hinc =>
        rcases hinc with ⟨rfl, rfl⟩ | ⟨rfl, rfl⟩
        · rfl
        · rw [aluWord, BitVec.sub_eq_add_neg]
          rfl
      case isFalse =>
        split
        case isTrue hdec =>
          rcases hdec with ⟨rfl, rfl⟩ | ⟨rfl, rfl⟩
          · rw [aluWord, BitVec.sub_eq_add_neg]
            rfl
          · rfl
        case isFalse => rfl

/-- A load from memory to a temporary. -/
theorem x86_64EmitLoadDeref_of_tmp {I : IrInstr} {d : IrValue} (h : d.kind = .tmp) :
  x86_64EmitLoadDeref outside I d s = Function.update s.frame d.place
    (splice (8 * d.moveWidth) (readWord s.mem (x86_64MemOperand outside s.frame I I.r1) 8)
      (s.frame d.place))
  := by
  rw [x86_64EmitLoadDeref, IrValue.moveWidth]
  split
  · rw [x86_64StoreFpr, x86_64StoreFprSized]
    simp only [IrValue.place_of_tmp h]
    rw [splice_congr (agree_readWord _ _ (x86_64FpMov_le _))]
  · split
    · exact x86_64StoreReg_of_tmp h _ _
    · rw [x86_64StoreReg_of_tmp h, x86_64DerefLoadWidth]
      congr 1
      apply splice_congr
      have hwide := (agree_x86_64Load d.as.varSize (readWord s.mem
        (x86_64MemOperand outside s.frame I I.r1) (x86_64GetSizedMov d.as.varSize))).trans
        (agree_readWord _ _ (x86_64GetSizedMov_le _))
      exact hwide.mono (Nat.mul_le_mul_left 8 (x86_64GetSizedMov_le_varSize h))

/-- An operation on integers. -/
theorem x86_64EmitAlu_of_tmp {op : IrOp} {d v v' : IrValue} (h : d.kind = .tmp) (φ : IrFrame) :
  x86_64EmitAlu outside op d v v' φ = Function.update φ d.place
    (splice (8 * x86_64GetSizedMov (irValueByteSize (some d)))
      (aluWord op (x86_64LoadToReg outside φ v) (x86_64LoadToReg outside φ v')) (φ d.place))
  := by
  rw [x86_64EmitAlu, x86_64Alu_eq, x86_64StoreReg_of_tmp h]

/-- A store of a temporary to memory. -/
theorem x86_64EmitStoreDeref_of_tmp {I : IrInstr} {v : IrValue} (h : v.kind = .tmp) :
  x86_64EmitStoreDeref outside I v s
    = writeWord s.mem (x86_64MemOperand outside s.frame I I.dst) v.moveWidth (s.frame v.place)
  := by
  rw [x86_64EmitStoreDeref, IrValue.moveWidth]
  split
  · apply writeWord_congr
    rw [x86_64LoadToFpr, h]
    apply agree_splice
  · apply writeWord_congr
    rw [x86_64LoadToReg_of_tmp h]
    apply agree_x86_64Load

/-- A read-modify-write. -/
theorem x86_64EmitRmwDeref_eq {I : IrInstr} {v : IrValue} :
  x86_64EmitRmwDeref outside I v s
    = writeWord s.mem (x86_64MemOperand outside s.frame I I.dst)
      (x86_64GetSizedMov (irValueByteSize (some v)))
      (x86_64Alu I.rmwOp (readWord s.mem (x86_64MemOperand outside s.frame I I.dst)
        (x86_64GetSizedMov (irValueByteSize (some v)))) v (x86_64LoadToReg outside s.frame v))
  := rfl

end Effects

end Polyc
