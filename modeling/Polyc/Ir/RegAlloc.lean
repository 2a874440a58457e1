import Polyc.Ast.Types
import Polyc.Lib.LinearScan

/-!
# Stack slots of temporaries

`irCgAllocAllTmps` gives frame offsets in two passes.  The first binds the buffers of
`IR_ALLOCA` and the aliases of `IR_GEP`; the second shares slots of 8 bytes among all other
temporaries, by a linear scan over the ranges of positions at which they are mentioned.
-/

namespace Polyc

/-- The register-allocation context `IrRaCtx`: the map `id_to_loff` and the bytes below the
locals and parameters, and the offsets written to the locations of values, by address. -/
structure IrRaCtx where
  idToLoff : List (Nat × Int) := []
  extraStack : Nat := 0
  slotted : List (Nat × Int) := []
  deriving DecidableEq

namespace IrRaCtx

/-- `mapHasInt(ra->id_to_loff, id)`. -/
def has (ra : IrRaCtx) (id : Nat) : Bool := (ra.idToLoff.lookup id).isSome

/-- `irCgSetLoff`, which panics when the id has an offset. -/
def irCgSetLoff (ra : IrRaCtx) (id : Nat) (loff : Int) : Option IrRaCtx :=
  if ra.has id then none else some { ra with idToLoff := ra.idToLoff ++ [(id, loff)] }

/-- `irCgGetLoff`, which panics when the id has no offset. -/
def irCgGetLoff (ra : IrRaCtx) (v : IrValue) : Option Int := ra.idToLoff.lookup v.varId

/-- The bytes that a buffer of `size` bytes takes. -/
def allocaBytes (size : Int) : Nat := max 8 ((size + 7) / 8 * 8).toNat

/-- `irCgAllocTmpSized`. -/
def irCgAllocTmpSized (ra : IrRaCtx) (v : IrValue) (start : Nat) (size : Int) :
    Option IrRaCtx :=
  if v.kind = .tmp ∧ !ra.has v.varId then
    let extra := ra.extraStack + allocaBytes size
    { ra with extraStack := extra }.irCgSetLoff v.varId (-((start + extra : Nat) : Int))
  else some ra

end IrRaCtx

open IrRaCtx

/-- The conversion `(int)v->as._i64`. -/
def IrValue.toInt (v : IrValue) : Int := (v.as.toI64.setWidth 32).toInt

/-- The bytes that an `IR_ALLOCA` asks for. -/
def irAllocaSize (I : IrInstr) : Int :=
  match I.r1 with
  | some v => if v.kind = .constInt then v.toInt else 8
  | none => 8

/-- `irCgAllocOperandsForInstr` on the two opcodes of the first pass. -/
def irCgAllocOperandsForInstr (ra : IrRaCtx) (I : IrInstr) (start : Nat) : Option IrRaCtx :=
  match I.op, I.dst with
  | .alloca, some dst => ra.irCgAllocTmpSized dst start (irAllocaSize I)
  | .gep, some dst =>
    match I.r1, I.r2 with
    | some base, some off =>
      if dst.kind = .tmp ∧ off.kind = .constInt then
        (ra.irCgGetLoff base).bind fun baseLoff =>
          if ra.has dst.varId then some ra
          else ra.irCgSetLoff dst.varId (baseLoff + off.toInt)
      else some ra
    | _, _ => some ra
  | _, _ => some ra

/-- The first pass. -/
def irCgAllocBuffers (start : Nat) : IrRaCtx → List IrInstr → Option IrRaCtx
  | ra, [] => some ra
  | ra, I :: l =>
    (irCgAllocOperandsForInstr ra I start).bind fun ra => irCgAllocBuffers start ra l

/-! ### Ranges -/

/-- The record `IrCgRange`. -/
structure IrCgRange extends PosRange where
  varId : Nat
  val : IrValue

/-- The range with one more position. -/
def IrCgRange.extend (r : IrCgRange) (pos : Nat) : IrCgRange where
  first := min r.first pos
  last := max r.last pos
  le := by
    have h := r.le
    omega
  varId := r.varId
  val := r.val

/-- The values that have ranges: temporaries that are not void. -/
def IrValue.hasRange (v : IrValue) : Bool := v.kind = .tmp ∧ v.type ≠ .void

/-- `irCgRecordRef`, for a value that is not `NULL`. -/
def irCgRecordRef (ranges : List IrCgRange) (pos : Nat) (v : IrValue) : List IrCgRange :=
  if v.hasRange then
    if ranges.any (·.varId = v.varId) then
      ranges.map fun r => if r.varId = v.varId then r.extend pos else r
    else ranges ++ [{ varId := v.varId, first := pos, last := pos, le := le_refl pos, val := v }]
  else ranges

/-- The values that an instruction mentions, in the order in which they are recorded. -/
def IrInstr.refs (I : IrInstr) : List IrValue :=
  I.dst.toList ++ I.r1.toList ++ I.r2.toList ++ I.idx.toList
    ++ (if I.op = .call then I.args else [])
    ++ (if I.op = .phi then I.phiPairs.map IrPair.irValue else [])

/-- The ranges of the instructions from a position on. -/
def irCgRecordRefs : List IrCgRange → Nat → List IrInstr → List IrCgRange
  | ranges, _, [] => ranges
  | ranges, pos, I :: l =>
    if I.op = .nop then irCgRecordRefs ranges pos l
    else irCgRecordRefs (I.refs.foldl (irCgRecordRef · pos ·) ranges) (pos + 1) l

/-- The ranges that get slots: those of temporaries without an offset, and not in registers. -/
def irCgSlotRanges (ra : IrRaCtx) (ranges : List IrCgRange) : List IrCgRange :=
  ranges.filter fun r =>
    !ra.has r.varId && !(match r.val.loc with | .reg _ => true | _ => false)

/-! ### Slots -/

/-- The loop that hands out slots. -/
def irCgColour (start : Nat) :
    IrRaCtx → List (ScanSlot Int) → List IrCgRange → Option IrRaCtx
  | ra, _, [] => some ra
  | ra, slots, r :: rs =>
    let extra :=
      if slots.any (·.last < r.first) then ra.extraStack else ra.extraStack + 8
    let chosen := LinearScan.place (-((start + extra : Nat) : Int)) r.toPosRange slots
    ({ ra with
        extraStack := extra
        slotted := ra.slotted ++ [(r.val.addr, chosen.1)] }.irCgSetLoff r.varId chosen.1).bind
      fun ra => irCgColour start ra chosen.2 rs

/-- `irCgAllocAllTmps`; how `qsort` orders ranges that compare equal is not specified. -/
def irCgAllocAllTmps (qsort : List IrCgRange → List IrCgRange) (ra : IrRaCtx)
    (blocks : List IrBlock) (start : Nat) : Option IrRaCtx :=
  let instrs := blocks.flatMap IrBlock.instructions
  (irCgAllocBuffers start ra instrs).bind fun ra =>
    irCgColour start ra [] (qsort (irCgSlotRanges ra (irCgRecordRefs [] 0 instrs)))

/-- `irCgRangeCmp(a, b) <= 0`. -/
def irCgRangeLe (a b : IrCgRange) : Bool :=
  a.first < b.first || (a.first = b.first && a.last ≤ b.last)

/-- What is specified of `qsort`. -/
structure IsQsort (qsort : List IrCgRange → List IrCgRange) : Prop where
  perm : ∀ l, (qsort l).Perm l
  sorted : ∀ l, (qsort l).Pairwise fun a b => irCgRangeLe a b

end Polyc
