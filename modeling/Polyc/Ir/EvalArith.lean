import Polyc.Ir.Eval

/-!
# The arithmetic of constant folding

What the evaluator computes is what the instruction means: on constants, on the algebraic
identities, and on the multiplications turned into shifts.
-/

namespace Polyc

/-! ### Evaluation on constants -/

/-- The opcodes that the evaluator knows. -/
def IrOp.isArith : IrOp → Bool
  | .iadd | .isub | .imul | .idiv | .udiv | .irem | .urem | .and | .or | .xor | .shl | .shr
  | .sar | .icmp => true
  | _ => false

/-- The signed guard on a shift amount is the unsigned one. -/
theorem shift_guard (b : Word) :
  ¬ (b.toInt < 0 ∨ 64 ≤ b.toInt) ↔ b.toNat < 64
  := by
  have hb := b.isLt
  rw [BitVec.toInt_eq_toNat_cond]
  split <;> omega

/-- `irEvalCmp` computes the comparison. -/
theorem irEvalCmp_eq (kind : IrCmpKind) (a b : Word) :
  irEvalCmp kind a b = intCmp kind a b
  := by
  cases kind <;> rfl

/-- `irEvalBinop` computes the operation, and only where it does not trap. -/
theorem irEvalBinop_sound
    {op : IrOp} {a b w : Word} (h : irEvalBinop op a b = some w) (m : Machine)
    (cmp : IrCmpKind) :
  op.isArith ∧ aluResult m op cmp (some a) (some b) = some w
  := by
  have hsigned : ¬ b = 0 → ¬ (a = BitVec.intMin 64 ∧ b = -1) → signedTraps a b = false := by
    intro h0 h1
    apply decide_eq_false (not_or.mpr ⟨h0, h1⟩)
  cases op <;> simp only [irEvalBinop, reduceCtorEq] at h <;> refine ⟨rfl, ?_⟩
  case idiv =>
    split at h
    · cases h
    split at h
    · cases h
    simpa [aluResult, hsigned ‹_› ‹_›] using h
  case irem =>
    split at h
    · cases h
    split at h
    · cases h
    simpa [aluResult, hsigned ‹_› ‹_›] using h
  case udiv =>
    split at h
    · cases h
    · rw [aluResult, if_neg ‹_›, h]
  case urem =>
    split at h
    · cases h
    · rw [aluResult, if_neg ‹_›, h]
  case shl =>
    split at h
    · cases h
    · simpa [aluResult, (shift_guard b).mp ‹_›] using h
  case shr =>
    split at h
    · cases h
    · simpa [aluResult, (shift_guard b).mp ‹_›] using h
  case sar =>
    split at h
    · cases h
    · simpa [aluResult, (shift_guard b).mp ‹_›] using h
  all_goals exact h

/-- A value that an instruction computes in every state, without any event. -/
def Computes (I : IrInstr) (v : IrValue) : Prop :=
  ∀ m tr σ, effect m tr I (I.operands m tr σ) = some (some (valueOf m tr σ v), [])

/-- An arithmetic instruction does what its opcode says. -/
theorem effect_of_isArith
    {m : Machine} {tr : List Event} {σ : Env} {I : IrInstr} (hop : I.op.isArith)
    {a b : IrValue} (ha : I.r1 = some a) (hb : I.r2 = some b) :
  effect m tr I (I.operands m tr σ)
    = (aluResult m I.op I.cmpKind (some (valueOf m tr σ a)) (some (valueOf m tr σ b))).map
        fun w => (some w, [])
  := by
  cases h : I.op <;> rw [h] at hop <;> first
    | apply absurd hop (by decide)
    | simp [effect, IrInstr.operands, IrOp.readsR1, IrOp.readsR2, h, ha, hb]

/-- The value of an allocated constant. -/
theorem valueOf_irConstInt
    (m : Machine) (tr : List Event) (σ : Env) (addr : Nat) (type : IrValueType) (w : Word) :
  valueOf m tr σ (irConstInt addr type w) = w
  := valueOf_of_constInt rfl

/-- The evaluated instruction computes the result. -/
theorem computes_of_evalResult
    {I : IrInstr} {w : Word} (h : evalResult I = some w) (addr : Nat) (type : IrValueType) :
  I.op.isArith ∧ Computes I (irConstInt addr type w)
  := by
  simp only [evalResult] at h
  split at h
  · rename_i a b ha hb
    split at h
    · rename_i hconst
      obtain ⟨hca, hcb⟩ := hconst
      have hwa : ∀ m tr σ, valueOf m tr σ a = a.as.toI64 :=
        fun m tr σ => valueOf_of_constInt (by simpa [irIsConstInt] using hca)
      have hwb : ∀ m tr σ, valueOf m tr σ b = b.as.toI64 :=
        fun m tr σ => valueOf_of_constInt (by simpa [irIsConstInt] using hcb)
      split at h
      · rename_i hop
        have harith : I.op.isArith := by rw [hop]; rfl
        refine ⟨harith, fun m tr σ => ?_⟩
        rw [effect_of_isArith harith ha hb, hwa, hwb, valueOf_irConstInt, hop]
        rw [irEvalCmp_eq] at h
        simp [aluResult, h]
      · have harith := (irEvalBinop_sound h zeroMachine I.cmpKind).1
        refine ⟨harith, fun m tr σ => ?_⟩
        rw [effect_of_isArith harith ha hb, hwa, hwb, valueOf_irConstInt,
          (irEvalBinop_sound h m I.cmpKind).2]
        rfl
    · cases h
  · cases h

/-! ### Identities -/

/-- The constant operand and the other one, left and right. -/
theorem constOperand_cases {I : IrInstr} {c x : IrValue} (h : constOperand I = some (c, x)) :
  c.kind = .constInt ∧
    ((I.r1 = some x ∧ I.r2 = some c) ∨ (I.r1 = some c ∧ I.r2 = some x ∧ x.kind ≠ .constInt))
  := by
  simp only [constOperand] at h
  split at h
  · rename_i hc
    cases h2 : I.r2 with
    | none => simp [h2] at h
    | some b =>
      cases h1 : I.r1 with
      | none => simp [h1] at h
      | some a =>
        simp only [h1, h2, Option.bind_some, Option.map_some, Option.some_inj,
          Prod.mk.injEq] at h
        obtain ⟨rfl, rfl⟩ := h
        exact ⟨by simpa [h2, irIsConstInt] using hc, .inl ⟨rfl, rfl⟩⟩
  · rename_i hn
    split at h
    · rename_i hc
      cases h1 : I.r1 with
      | none => simp [h1] at h
      | some a =>
        cases h2 : I.r2 with
        | none => simp [h2] at h
        | some b =>
          simp only [h1, h2, Option.bind_some, Option.map_some, Option.some_inj,
            Prod.mk.injEq] at h
          obtain ⟨rfl, rfl⟩ := h
          refine ⟨by simpa [h1, irIsConstInt] using hc, .inr ⟨rfl, rfl, ?_⟩⟩
          simpa [h2, irIsConstInt] using hn
    · cases h

/-- The identities that `irEvalCanFold` accepts with the constant on the right. -/
theorem aluResult_right
    {op : IrOp} {k : Word}
    (h : ((op = .imul ∨ op = .idiv ∨ op = .udiv) ∧ k = 1)
      ∨ ((op = .iadd ∨ op = .isub ∨ op = .or ∨ op = .xor ∨ op = .shl ∨ op = .shr ∨ op = .sar)
          ∧ k = 0)
      ∨ (op = .and ∧ k = -1)) (m : Machine) (cmp : IrCmpKind) (x : Word) :
  aluResult m op cmp (some x) (some k) = some x
  := by
  have hone : signedTraps x 1#64 = false := by simp [signedTraps]
  obtain ⟨rfl | rfl | rfl, rfl⟩ | ⟨rfl | rfl | rfl | rfl | rfl | rfl | rfl, rfl⟩ | ⟨rfl, rfl⟩ := h
    <;> simp [aluResult, hone]
  case inr.inr =>
    rw [show (18446744073709551615#64 : Word) = BitVec.allOnes 64 from rfl, BitVec.and_allOnes]

/-- The identities that `irEvalCanFold` accepts with the constant on the left. -/
theorem aluResult_left
    {op : IrOp} {k : Word}
    (h : ((op = .iadd ∨ op = .or ∨ op = .xor) ∧ k = 0) ∨ (op = .imul ∧ k = 1)
      ∨ (op = .and ∧ k = -1)) (m : Machine) (cmp : IrCmpKind) (x : Word) :
  aluResult m op cmp (some k) (some x) = some x
  := by
  obtain ⟨rfl | rfl | rfl, rfl⟩ | ⟨rfl, rfl⟩ | ⟨rfl, rfl⟩ := h <;> simp [aluResult]
  case inr.inr =>
    rw [show (18446744073709551615#64 : Word) = BitVec.allOnes 64 from rfl, BitVec.allOnes_and]

/-- What `irEvalCanFold` tests, where the constant stands. -/
theorem irEvalCanFold_cases {I : IrInstr} {c : IrValue} {k : Word} (h : irEvalCanFold I c k) :
  (some c = I.r2 ∧ ((I.op = .imul ∨ I.op = .idiv ∨ I.op = .udiv) ∧ k = 1
      ∨ (I.op = .iadd ∨ I.op = .isub ∨ I.op = .or ∨ I.op = .xor ∨ I.op = .shl ∨ I.op = .shr
          ∨ I.op = .sar) ∧ k = 0))
    ∨ (I.op = .iadd ∨ I.op = .or ∨ I.op = .xor) ∧ k = 0
    ∨ I.op = .imul ∧ k = 1
    ∨ I.op = .and ∧ k = -1
  := by
  simp only [irEvalCanFold] at h
  split at h
  · cases h
  split at h
  · rename_i hc
    exact .inl ⟨hc.2.2, .inl ⟨hc.1, hc.2.1⟩⟩
  split at h
  · rename_i hc
    exact .inl ⟨hc.2.2, .inr ⟨hc.1, hc.2.1⟩⟩
  split at h
  · rename_i hc
    exact .inr (.inl ⟨hc.1, hc.2.1⟩)
  split at h
  · rename_i hc
    exact .inr (.inr (.inl ⟨hc.1, hc.2.1⟩))
  split at h
  · rename_i hc
    exact .inr (.inr (.inr hc))
  · cases h

/-- An identity computes its other operand. -/
theorem computes_of_irEvalCanFold
    {I : IrInstr} {c x : IrValue} (hc : constOperand I = some (c, x))
    (h : irEvalCanFold I c c.as.toI64) :
  I.op.isArith ∧ Computes I x
  := by
  have harith : I.op.isArith := by
    obtain ⟨-, ⟨hop | hop | hop, -⟩ | ⟨hop | hop | hop | hop | hop | hop | hop, -⟩⟩
      | ⟨hop | hop | hop, -⟩ | ⟨hop, -⟩ | ⟨hop, -⟩ := irEvalCanFold_cases h <;> rw [hop] <;> rfl
  refine ⟨harith, fun m tr σ => ?_⟩
  obtain ⟨hconst, ⟨h1, h2⟩ | ⟨h1, h2, hx⟩⟩ := constOperand_cases hc
  · rw [effect_of_isArith harith h1 h2, valueOf_of_constInt hconst, aluResult_right]
    · rfl
    · obtain ⟨-, h | h⟩ | h | h | h := irEvalCanFold_cases h
      · exact .inl h
      · exact .inr (.inl h)
      · exact .inr (.inl ⟨by tauto, h.2⟩)
      · exact .inl ⟨.inl h.1, h.2⟩
      · exact .inr (.inr h)
  · rw [effect_of_isArith harith h1 h2, valueOf_of_constInt hconst, aluResult_left]
    · rfl
    · obtain ⟨hr, -⟩ | h := irEvalCanFold_cases h
      · rw [h2, Option.some_inj] at hr
        rw [hr] at hconst
        contradiction
      · apply h

/-- A product or conjunction with zero computes zero. -/
theorem computes_zero
    {I : IrInstr} {c x : IrValue} (hc : constOperand I = some (c, x))
    (hop : I.op = .imul ∨ I.op = .and) (hk : c.as.toI64 = 0) (addr : Nat)
    (type : IrValueType) :
  I.op.isArith ∧ Computes I (irConstInt addr type 0)
  := by
  have harith : I.op.isArith := by
    obtain hop | hop := hop <;> rw [hop] <;> rfl
  refine ⟨harith, fun m tr σ => ?_⟩
  rw [valueOf_irConstInt]
  obtain ⟨hconst, ⟨h1, h2⟩ | ⟨h1, h2, -⟩⟩ := constOperand_cases hc
  · rw [effect_of_isArith harith h1 h2, valueOf_of_constInt hconst, hk]
    obtain hop | hop := hop <;> simp [hop, aluResult]
  · rw [effect_of_isArith harith h1 h2, valueOf_of_constInt hconst, hk]
    obtain hop | hop := hop <;> simp [hop, aluResult]

/-! ### Powers of two -/

/-- A word that is a power of two has its only bit at the number of trailing zeros. -/
theorem eq_twoPow_of_isPow2 {k : Word} (h : isPow2 k) :
  k = BitVec.twoPow 64 k.ctz.toNat ∧ k.ctz.toNat < 64
  := by
  simp only [isPow2, decide_eq_true_eq] at h
  obtain ⟨hpos, hand⟩ := h
  have hne : k ≠ 0 := by
    rintro rfl
    revert hpos
    decide
  have hlt : k.ctz.toNat < 64 := by
    have hctz := BitVec.ctz_lt_iff_ne_zero.mpr hne
    simpa [BitVec.lt_def] using hctz
  have hbit := BitVec.getLsbD_true_ctz_of_ne_zero hne
  have hnat : k.toNat ≠ 0 := by
    intro e
    apply hne
    apply BitVec.eq_of_toNat_eq
    simpa using e
  have hpow : k.toNat.isPowerOfTwo := by
    rw [← Nat.and_sub_one_eq_zero_iff_isPowerOfTwo hnat]
    have h' := congrArg BitVec.toNat hand
    rw [BitVec.toNat_and, BitVec.toNat_sub] at h'
    have hk := k.isLt
    have hs : (2 ^ 64 - BitVec.toNat (1 : Word) + k.toNat) % 2 ^ 64 = k.toNat - 1 := by
      have h1 : BitVec.toNat (1 : Word) = 1 := rfl
      rw [h1]
      omega
    rw [hs] at h'
    simpa using h'
  obtain ⟨j, hj⟩ := hpow
  have hjc : k.ctz.toNat = j := by
    rw [BitVec.getLsbD, hj, Nat.testBit_two_pow] at hbit
    simpa [eq_comm] using hbit
  refine ⟨?_, hlt⟩
  apply BitVec.eq_of_toNat_eq
  rw [BitVec.toNat_twoPow, hjc, hj, Nat.mod_eq_of_lt]
  apply Nat.pow_lt_pow_right (by decide) (hjc ▸ hlt)

/-- A product with a power of two is a shift. -/
theorem effect_shift
    {I : IrInstr} {c x : IrValue} (hc : constOperand I = some (c, x)) (hop : I.op = .imul)
    (hr : I.r2 = some c) (hk : isPow2 c.as.toI64) (addr : Nat) (type : IrValueType)
    (m : Machine) (tr : List Event) (σ : Env) :
  let J := { I with op := .shl, r2 := some (irConstInt addr type c.as.toI64.ctz) }
  effect m tr J (J.operands m tr σ) = effect m tr I (I.operands m tr σ)
  := by
  intro J
  obtain ⟨hconst, hcases⟩ := constOperand_cases hc
  have h1 : I.r1 = some x := by
    obtain ⟨h1, -⟩ | ⟨-, h2, hx⟩ := hcases
    · apply h1
    · rw [h2, Option.some_inj] at hr
      rw [hr] at hx
      contradiction
  obtain ⟨hpow, hlt⟩ := eq_twoPow_of_isPow2 hk
  have hJ : J.op.isArith := rfl
  have hI : I.op.isArith := by
    rw [hop]
    rfl
  rw [effect_of_isArith hJ (show J.r1 = some x from h1) rfl, effect_of_isArith hI h1 hr,
    valueOf_irConstInt, valueOf_of_constInt hconst, hop]
  simp only [J, aluResult, hlt, if_true]
  conv => rhs; rw [hpow]
  rw [BitVec.mul_twoPow_eq_shiftLeft]

end Polyc
