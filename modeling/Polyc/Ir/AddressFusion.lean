import Polyc.Backend.RegPool
import Polyc.Ir.Forward
import Polyc.Ir.Frames
import Polyc.Ir.InPlace

/-!
# Fusion of additions into addresses

`irFuseIaddIntoMemAddressing` folds the addition of a constant, or of a scaled index, into the memory
operand of the one instruction that uses the sum.  Uses and definitions of temporaries are counted
once, when the pass starts.
-/

namespace Polyc

/-! ### Uses and definitions of temporaries -/

/-- The opcodes whose destination `irBuildTmpUseCounts` takes for an operand. -/
def IrOp.usesDst (op : IrOp) : Bool :=
  op = .br ∨ op = .ret ∨ op = .store ∨ op = .storeDeref ∨ op = .rmwDeref

/-- The operands of an instruction that `irBuildTmpUseCounts` looks at. -/
def IrInstr.countedUses (I : IrInstr) : List IrValue :=
  I.r1.toList ++ I.r2.toList ++ I.idx.toList ++ (if I.op.usesDst then I.dst.toList else [])
    ++ (if I.op = .call then I.args else [])
    ++ (if I.op = .phi then I.phiPairs.map (·.irValue) else [])

/-- The values that an instruction reads are among its uses. -/
theorem inputs_subset {I : IrInstr} :
  I.inputs ⊆ I.countedUses
  := by
  intro v hv
  simp only [IrInstr.inputs, List.mem_append, List.mem_ite_nil_right,
    Option.mem_toList] at hv
  simp only [IrInstr.countedUses, List.mem_append, List.mem_ite_nil_right, Option.mem_toList]
  rcases hv with (((⟨hop, hdst⟩ | ⟨-, hr1⟩) | ⟨-, hr2⟩) | ⟨-, hidx⟩) | hargs
  · cases h : I.op <;> simp_all [IrOp.readsDst, IrOp.usesDst]
  · exact .inl (.inl (.inl (.inl (.inl hr1))))
  · exact .inl (.inl (.inl (.inl (.inr hr2))))
  · exact .inl (.inl (.inl (.inr hidx)))
  · exact .inl (.inr hargs)

/-- The number of times that an instruction uses a temporary. -/
def IrInstr.tmpUses (I : IrInstr) (id : Nat) : Nat :=
  if I.op = .nop then 0 else I.countedUses.countP fun v => v.kind = .tmp ∧ v.varId = id

/-- `irBuildTmpUseCounts`. -/
def irBuildTmpUseCounts (fn : IrFunction) (id : Nat) : Nat := (fn.instrs.map (·.tmpUses id)).sum

/-- `irTmpUseCount`. -/
def irTmpUseCount (uses : Nat → Nat) (v : IrValue) : Int :=
  if v.kind = .tmp then uses v.varId else -1

/-- An instruction that `irBuildTmpDefs` takes for the definition of a temporary. -/
def IrInstr.definesTmp (I : IrInstr) (id : Nat) : Bool :=
  I.op ≠ .nop ∧ ¬ I.op.usesDst ∧ I.dst.any fun d => d.kind = .tmp ∧ d.varId = id

/-- `irBuildTmpDefs`: the last definition in the list, by its indexes. -/
def irBuildTmpDefs (fn : IrFunction) (id : Nat) : Option (Nat × Nat) :=
  (fn.indexes.filter fun p => (fn.get p).any (·.definesTmp id)).getLast?

/-! ### The instructions of a fold -/

/-- `irMakeNop`. -/
def irMakeNop (I : IrInstr) : IrInstr :=
  { I with op := .nop, dst := none, r1 := none, r2 := none, idx := none, disp := 0, scale := 0 }

/-- The operand of a memory instruction that is its address. -/
def IrInstr.address (I : IrInstr) : Option IrValue :=
  match I.op with
  | .loadDeref => I.r1
  | .storeDeref | .rmwDeref => I.dst
  | _ => none

/-- A memory instruction with another address. -/
def IrInstr.withAddress (I : IrInstr) (base : IrValue) : IrInstr :=
  if I.op = .loadDeref then { I with r1 := some base } else { I with dst := some base }

/-- `irFindMemConsumer`: how many instructions on the one use of `dst` as an address is. -/
def irFindMemConsumer (dst : IrValue) : List IrInstr → Option Nat
  | [] => none
  | J :: l =>
    if J.op = .nop then (irFindMemConsumer dst l).map (· + 1)
    else if J.address = some dst then some 0
    else if J.r1 = some dst ∨ J.r2 = some dst ∨ J.dst = some dst ∨ J.idx = some dst then none
    else (irFindMemConsumer dst l).map (· + 1)

/-- `irRangeClobbersScratch`, on the instructions of the range. -/
def irRangeClobbersScratch (l : List IrInstr) : Bool := l.any fun J => !J.op.sparesScratch

/-- `irFindScalingProducer`: the indexes of the scaler, its operand and its scale. -/
def irFindScalingProducer (defs : Nat → Option (Nat × Nat)) (fn : IrFunction) (v : IrValue) :
    Option ((Nat × Nat) × Option IrValue × Nat) :=
  if v.kind = .tmp then
    (defs v.varId).bind fun p => (fn.get p).bind fun D => D.r2.bind fun r2 =>
      if r2.kind = .constInt then
        let k := r2.as.toI64.toInt
        match D.op with
        | .shl => if 0 ≤ k ∧ k ≤ 3 then some (p, D.r1, 2 ^ k.toNat) else none
        | .imul => if k = 1 ∨ k = 2 ∨ k = 4 ∨ k = 8 then some (p, D.r1, k.toNat) else none
        | _ => none
      else none
  else none

/-- The pointer and the displacement of an addition or a subtraction of a constant. -/
def dispOperands (I : IrInstr) (a b : IrValue) : Option (IrValue × Int) :=
  if b.kind = .constInt then
    some (a, if I.op = .iadd then b.as.toI64.toInt else -b.as.toI64.toInt)
  else if I.op = .iadd ∧ a.kind = .constInt then some (b, a.as.toI64.toInt)
  else none

/-- What is added to the base of an address: a displacement, or an operand that a scaler computes
from an index. -/
inductive FoldPart where
  | disp (k : Int)
  | index (scaler : Nat × Nat) (scaled : IrValue) (idx : Option IrValue) (scale : Nat)

/-- A fold: the indexes of the addition and of the memory instruction, the sum, and the base and the
rest of the address. -/
structure Fold where
  add : Nat × Nat
  use : Nat × Nat
  sum : IrValue
  base : IrValue
  part : FoldPart

/-- The memory instruction after a fold. -/
def Fold.instr (f : Fold) (J : IrInstr) : IrInstr :=
  match f.part with
  | .disp k => { J.withAddress f.base with disp := k }
  | .index _ _ idx scale => { J.withAddress f.base with idx := idx, scale := scale }

/-- The base would be lost before the memory instruction reads it. -/
def losesBase (pool : Option IrRegPool) (base : IrValue) (between : List IrInstr) (J : IrInstr) :
    Bool :=
  irLocIsScratchClobbered pool base &&
    (irRangeClobbersScratch between || irLocClobberedBy pool J base .beforeR1)

/-- The fold of a constant: its base and its displacement. -/
def dispFold (pool : Option IrRegPool) (I J : IrInstr) (a b : IrValue) (between : List IrInstr) :
    Option (IrValue × FoldPart) :=
  if J.disp = 0 then
    (dispOperands I a b).bind fun r =>
      if -2 ^ 31 ≤ r.2 ∧ r.2 < 2 ^ 31 ∧ ¬ losesBase pool r.1 between J then
        some (r.1, .disp r.2)
      else none
  else none

/-- An operand that is used once, with its scaler. -/
def scaledOperand (uses : Nat → Nat) (defs : Nat → Option (Nat × Nat)) (fn : IrFunction)
    (v : IrValue) : Option FoldPart :=
  (irFindScalingProducer defs fn v).bind fun r =>
    if irTmpUseCount uses v = 1 then some (.index r.1 v r.2.1 r.2.2) else none

/-- The fold of a scaled index: its base and the index. -/
def scaleFold (pool : Option IrRegPool) (uses : Nat → Nat) (defs : Nat → Option (Nat × Nat))
    (fn : IrFunction) (I J : IrInstr) (a b : IrValue) (between : List IrInstr) :
    Option (IrValue × FoldPart) :=
  if I.op = .iadd ∧ J.scale = 0 then
    (((scaledOperand uses defs fn b).map (a, ·)).or
      ((scaledOperand uses defs fn a).map (b, ·))).bind fun r =>
      if losesBase pool r.1 between J then none else some r
  else none

/-- The fold of the addition at some indexes. -/
def findFold (pool : Option IrRegPool) (uses : Nat → Nat) (defs : Nat → Option (Nat × Nat))
    (fn : IrFunction) (p : Nat × Nat) : Option Fold :=
  (fn.get p).bind fun I => I.dst.bind fun t => I.r1.bind fun a => I.r2.bind fun b =>
    if (I.op = .iadd ∨ I.op = .isub) ∧ t.kind = .tmp ∧ t.as.varSize = 8 ∧
        irTmpUseCount uses t = 1 then
      let rest := (fn.blocks[p.1]?.elim [] (·.instructions)).drop (p.2 + 1)
      (irFindMemConsumer t rest).bind fun n => rest[n]?.bind fun J =>
        ((dispFold pool I J a b (rest.take n)).or
          (scaleFold pool uses defs fn I J a b (rest.take n))).map fun r =>
            ⟨p, (p.1, p.2 + 1 + n), t, r.1, r.2⟩
    else none

/-- Turn the instruction at some indexes into no operation. -/
def IrFunction.makeNop (fn : IrFunction) (p : Nat × Nat) : IrFunction :=
  match fn.get p with
  | some I => fn.set p (irMakeNop I)
  | none => fn

/-- The function after the memory instruction of a fold is rewritten. -/
def IrFunction.rewriteUse (fn : IrFunction) (f : Fold) : IrFunction :=
  match fn.get f.use with
  | some J => fn.set f.use (f.instr J)
  | none => fn

/-- The function after a fold. -/
def Fold.apply (f : Fold) (fn : IrFunction) : IrFunction :=
  match f.part with
  | .disp _ => (fn.rewriteUse f).makeNop f.add
  | .index scaler _ _ _ => ((fn.rewriteUse f).makeNop scaler).makeNop f.add

/-- One round of the walk. -/
def fuseAt (pool : Option IrRegPool) (uses : Nat → Nat) (defs : Nat → Option (Nat × Nat))
    (fn : IrFunction) (p : Nat × Nat) : IrFunction :=
  match findFold pool uses defs fn p with
  | some f => f.apply fn
  | none => fn

/-- `irFuseIaddIntoMemAddressing`. -/
def irFuseIaddIntoMemAddressing (pool : Option IrRegPool) (fn : IrFunction) : IrFunction :=
  fn.indexes.foldl (fuseAt pool (irBuildTmpUseCounts fn) (irBuildTmpDefs fn)) fn

end Polyc
