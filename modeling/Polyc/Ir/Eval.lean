import Polyc.Ir.Semantics

/-!
# Constant folding

The pass `irEvalConstantExpressions` walks all blocks in list order with one map, the
resolver, from the ids of folded temporaries to the values that replace them.  The map is
only ever added to.  Constants are allocated at fresh addresses, handed out by a counter.
-/

namespace Polyc

/-! ### The resolver -/

/-- The map from the ids of temporaries to their replacements. -/
abbrev Resolver := List (Nat × IrValue)

/-- `mapAddIntOrErr` on the resolver: an id that is present keeps its value. -/
def Resolver.add (ρ : Resolver) (id : Nat) (v : IrValue) : Resolver :=
  if (ρ.lookup id).isSome then ρ else (id, v) :: ρ

/-- `irResolveTmp` on a value that is there. -/
def resolveTmp (ρ : Resolver) (v : IrValue) : IrValue :=
  if irIsTmp (some v) then (ρ.lookup v.varId).getD v else v

/-- `irResolveTmp`. -/
def irResolveTmp (ρ : Resolver) (v : Option IrValue) : Option IrValue := v.map (resolveTmp ρ)

/-- The rewriting of the operands at the head of the loop of `irEvalBlock`. -/
def resolveOperands (ρ : Resolver) (I : IrInstr) : IrInstr :=
  { I with
    r1 := irResolveTmp ρ I.r1
    r2 := irResolveTmp ρ I.r2
    dst := if I.op = .br ∨ I.op = .ret ∨ I.op = .storeDeref then irResolveTmp ρ I.dst else I.dst
    phiPairs :=
      if I.op = .phi then I.phiPairs.map fun p => { p with irValue := resolveTmp ρ p.irValue }
      else I.phiPairs
    args := if I.op = .call ∧ I.r1.isSome then I.args.map (resolveTmp ρ) else I.args }

/-! ### Evaluation -/

/-- `irEvalBinop`. -/
def irEvalBinop (op : IrOp) (a b : Word) : Option Word :=
  match op with
  | .iadd => some (a + b)
  | .isub => some (a - b)
  | .imul => some (a * b)
  | .and => some (a &&& b)
  | .or => some (a ||| b)
  | .xor => some (a ^^^ b)
  | .idiv =>
    if b = 0 then none
    else if a = BitVec.intMin 64 ∧ b = -1 then none
    else some (a.sdiv b)
  | .udiv => if b = 0 then none else some (a / b)
  | .irem =>
    if b = 0 then none
    else if a = BitVec.intMin 64 ∧ b = -1 then none
    else some (a.srem b)
  | .urem => if b = 0 then none else some (a % b)
  | .shl => if b.toInt < 0 ∨ 64 ≤ b.toInt then none else some (a <<< b.toNat)
  | .shr => if b.toInt < 0 ∨ 64 ≤ b.toInt then none else some (a >>> b.toNat)
  | .sar => if b.toInt < 0 ∨ 64 ≤ b.toInt then none else some (a.sshiftRight b.toNat)
  | _ => none

/-- `irEvalCmp`. -/
def irEvalCmp (kind : IrCmpKind) (a b : Word) : Option Word :=
  match kind with
  | .eq => some (Word.ofBool (a = b))
  | .ne => some (Word.ofBool (a ≠ b))
  | .lt => some (Word.ofBool (a.toInt < b.toInt))
  | .le => some (Word.ofBool (a.toInt ≤ b.toInt))
  | .gt => some (Word.ofBool (a.toInt > b.toInt))
  | .ge => some (Word.ofBool (a.toInt ≥ b.toInt))
  | .ult => some (Word.ofBool (a.toNat < b.toNat))
  | .ule => some (Word.ofBool (a.toNat ≤ b.toNat))
  | .ugt => some (Word.ofBool (a.toNat > b.toNat))
  | .uge => some (Word.ofBool (a.toNat ≥ b.toNat))
  | _ => none

/-- The number that `was_eval` and `result` hold after the evaluation. -/
def evalResult (I : IrInstr) : Option Word :=
  match I.r1, I.r2 with
  | some a, some b =>
    if irIsConstInt (some a) ∧ irIsConstInt (some b) then
      if I.op = .icmp then irEvalCmp I.cmpKind a.as.toI64 b.as.toI64
      else irEvalBinop I.op a.as.toI64 b.as.toI64
    else none
  | _, _ => none

/-- `irEvalCanFold`: the instruction is an identity in its operand other than `c`. -/
def irEvalCanFold (I : IrInstr) (c : IrValue) (k : Word) : Bool :=
  if I.dst.any (·.byvalStructType.isSome) then false
  else if (I.op = .imul ∨ I.op = .idiv ∨ I.op = .udiv) ∧ k = 1 ∧ some c = I.r2 then true
  else if (I.op = .iadd ∨ I.op = .isub ∨ I.op = .or ∨ I.op = .xor ∨ I.op = .shl ∨ I.op = .shr ∨
      I.op = .sar) ∧ k = 0 ∧ some c = I.r2 then true
  else if (I.op = .iadd ∨ I.op = .or ∨ I.op = .xor) ∧ k = 0 ∧ some c = I.r1 then true
  else if I.op = .imul ∧ k = 1 ∧ some c = I.r1 then true
  else if I.op = .and ∧ k = -1 then true
  else false

/-! ### The walk -/

/-- The resolver and the next free address. -/
structure EvalState where
  resolver : Resolver
  fresh : Nat
  deriving DecidableEq

/-- The rest of an instruction whose definition is folded away. -/
def IrInstr.toNop (I : IrInstr) : IrInstr := { I with op := .nop, r1 := none, r2 := none }

/-- The constant operand of an instruction, the right one if both are, and the other. -/
def constOperand (I : IrInstr) : Option (IrValue × IrValue) :=
  if irIsConstInt I.r2 then I.r2.bind fun c => I.r1.map (c, ·)
  else if irIsConstInt I.r1 then I.r1.bind fun c => I.r2.map (c, ·)
  else none

/-- A power of two that is more than one, as a signed number. -/
def isPow2 (k : Word) : Bool := 1 < k.toInt ∧ k &&& (k - 1) = 0

/-- The algebraic identities, for a temporary destination `d`, constant operand `c` and
other operand `x`. -/
def evalIdentity (st : EvalState) (I : IrInstr) (d c x : IrValue) : IrInstr × Nat × EvalState :=
  let k := c.as.toI64
  if irEvalCanFold I c k then
    (I.toNop, 1, { st with resolver := st.resolver.add d.varId x })
  else if (I.op = .imul ∨ I.op = .and) ∧ k = 0 then
    (I.toNop, 1, ⟨st.resolver.add d.varId (irConstInt st.fresh d.type 0), st.fresh + 1⟩)
  else if I.op = .imul ∧ some c = I.r2 ∧ isPow2 k then
    ({ I with op := .shl, r2 := irConstInt st.fresh c.type k.ctz }, 1,
      { st with fresh := st.fresh + 1 })
  else (I, 0, st)

/-- The body of the loop of `irEvalBlock` after the operands are resolved: the instruction,
the number of changes and the state. -/
def evalResolved (st : EvalState) (I : IrInstr) : IrInstr × Nat × EvalState :=
  match I.dst with
  | none => (I, 0, st)
  | some d =>
    match evalResult I with
    | some result =>
      if irIsTmp (some d) then
        (I.toNop, 1,
          ⟨st.resolver.add d.varId (irConstInt st.fresh d.type result), st.fresh + 1⟩)
      else if d.kind = .local ∧ d.byvalStructType.isNone then
        ({ I with op := .store, r1 := irConstInt st.fresh d.type result, r2 := none }, 1,
          { st with fresh := st.fresh + 1 })
      else (I, 0, st)
    | none =>
      if irIsTmp (some d) then
        match constOperand I with
        | some (c, x) => evalIdentity st I d c x
        | none => (I, 0, st)
      else (I, 0, st)

/-- The body of the loop of `irEvalBlock`. -/
def evalInstr (st : EvalState) (I : IrInstr) : IrInstr × Nat × EvalState :=
  evalResolved st (resolveOperands st.resolver I)

/-- The loop of `irEvalBlock`. -/
def evalInstrs : EvalState → List IrInstr → List IrInstr × Nat × EvalState
  | st, [] => ([], 0, st)
  | st, I :: l =>
    let r := evalInstr st I
    let rest := evalInstrs r.2.2 l
    (r.1 :: rest.1, r.2.1 + rest.2.1, rest.2.2)

/-- `irEvalBlock`. -/
def irEvalBlock (st : EvalState) (b : IrBlock) : IrBlock × Nat × EvalState :=
  let r := evalInstrs st b.instructions
  ({ b with instructions := r.1 }, r.2)

/-- The loop over the blocks. -/
def evalBlocks : EvalState → List IrBlock → List IrBlock × Nat × EvalState
  | st, [] => ([], 0, st)
  | st, b :: bs =>
    let r := irEvalBlock st b
    let rest := evalBlocks r.2.2 bs
    (r.1 :: rest.1, r.2.1 + rest.2.1, rest.2.2)

/-- `irEvalConstantExpressions`, from the next free address: the function, the number of
changes and the next free address. -/
def irEvalConstantExpressions (fresh : Nat) (fn : IrFunction) : IrFunction × Nat × Nat :=
  let r := evalBlocks ⟨[], fresh⟩ fn.blocks
  ({ fn with blocks := r.1 }, r.2.1, r.2.2.fresh)

/-! ### What one round does -/

/-- The rounds of the loop, on an instruction with resolved operands: nothing, a definition
folded to a constant, a constant stored to a local, a definition folded to its operand or to
zero, a multiplication turned into a shift. -/
inductive EvalCase (st : EvalState) (I : IrInstr) : IrInstr × Nat × EvalState → Prop where
  | same : EvalCase st I (I, 0, st)
  | const (d : IrValue) (w : Word) (hd : I.dst = some d) (ht : d.kind = .tmp)
      (hw : evalResult I = some w) :
      EvalCase st I (I.toNop, 1,
        ⟨st.resolver.add d.varId (irConstInt st.fresh d.type w), st.fresh + 1⟩)
  | store (d : IrValue) (w : Word) (hd : I.dst = some d) (hl : d.kind = .local)
      (hw : evalResult I = some w) :
      EvalCase st I
        ({ I with op := .store, r1 := irConstInt st.fresh d.type w, r2 := none }, 1,
          { st with fresh := st.fresh + 1 })
  | identity (d c x : IrValue) (hd : I.dst = some d) (ht : d.kind = .tmp)
      (hc : constOperand I = some (c, x)) (hf : irEvalCanFold I c c.as.toI64) :
      EvalCase st I (I.toNop, 1, { st with resolver := st.resolver.add d.varId x })
  | zero (d c x : IrValue) (hd : I.dst = some d) (ht : d.kind = .tmp)
      (hc : constOperand I = some (c, x)) (hop : I.op = .imul ∨ I.op = .and)
      (hk : c.as.toI64 = 0) :
      EvalCase st I (I.toNop, 1,
        ⟨st.resolver.add d.varId (irConstInt st.fresh d.type 0), st.fresh + 1⟩)
  | shift (d c x : IrValue) (hd : I.dst = some d) (ht : d.kind = .tmp)
      (hc : constOperand I = some (c, x)) (hop : I.op = .imul) (hr : I.r2 = some c)
      (hk : isPow2 c.as.toI64) :
      EvalCase st I
        ({ I with op := .shl, r2 := irConstInt st.fresh c.type c.as.toI64.ctz }, 1,
          { st with fresh := st.fresh + 1 })

/-- Every round is one of these. -/
theorem evalResolved_case (st : EvalState) (I : IrInstr) :
  EvalCase st I (evalResolved st I)
  := by
  simp only [evalResolved]
  split
  · apply EvalCase.same
  rename_i d hd
  have htmp : irIsTmp (some d) → d.kind = .tmp := by simp [irIsTmp]
  split
  · rename_i w hw
    split
    · rename_i ht
      apply EvalCase.const d w hd (htmp ht) hw
    split
    · rename_i hl
      apply EvalCase.store d w hd hl.1 hw
    · apply EvalCase.same
  split
  · rename_i ht
    split
    · rename_i c x hc
      simp only [evalIdentity]
      split
      · apply EvalCase.identity d c x hd (htmp ht) hc ‹_›
      split
      · rename_i h
        apply EvalCase.zero d c x hd (htmp ht) hc h.1 h.2
      split
      · rename_i h
        apply EvalCase.shift d c x hd (htmp ht) hc h.1 h.2.1.symm h.2.2
      · apply EvalCase.same
    · apply EvalCase.same
  · apply EvalCase.same

end Polyc
