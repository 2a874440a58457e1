import Polyc.Ir.AddressFusionFolds

/-!
# Fused addresses are the same

In the run of a block after a fold only the temporaries of the removed instructions differ.  Every
memory instruction accesses the same address as before when the sum, the base and the index are at
the access what they were at the addition.
-/

namespace Polyc

section Runs

variable {W : Type} (S : Surroundings W) (sight : Sight)

/-- The word of a value in a state. -/
def FrameState.word (s : FrameState W) (v : IrValue) : Word :=
  v.wordIn sight (S.machine s.world (sight.visible .nop s.frame)) s.trace s.frame

/-- The address that an instruction accesses. -/
def FrameState.access (s : FrameState W) (I : IrInstr) : Option Word :=
  let o := s.operands S sight I
  match I.op with
  | .loadDeref => effectiveAddress I o.r1 o.idx
  | .storeDeref | .rmwDeref => effectiveAddress I o.dst o.idx
  | _ => none

/-- The addresses that the instructions of a block access, as far as it is executed. -/
def accessesIn : List IrInstr → FrameState W → List (Option Word)
  | [], _ => []
  | I :: l, s => s.access S sight I :: ((execIn S sight I s).elim [] fun r => accessesIn l r.1)

/-- The state before an instruction of a block. -/
def stateAt : List IrInstr → FrameState W → Nat → Option (FrameState W)
  | _, s, 0 => some s
  | [], _, _ + 1 => none
  | I :: l, s, n + 1 => (execIn S sight I s).bind fun r => stateAt l r.1 n

/-- At the access of a fold the words that its address is computed from are what they were at the
addition. -/
structure Fold.Keeps (f : Fold) (l : List IrInstr) (s : FrameState W) : Prop where
  /-- The sum is no field of another slot. -/
  own : sight.field f.sum.key = false
  /-- The sum is what the addition computed. -/
  sum : ∀ s₁ s₂, stateAt S sight l s (f.add.2 + 1) = some s₁ →
    stateAt S sight l s f.use.2 = some s₂ → s₂.word S sight f.sum = s₁.word S sight f.sum
  /-- The base is what it was at the addition. -/
  base : ∀ s₁ s₂, stateAt S sight l s f.add.2 = some s₁ → stateAt S sight l s f.use.2 = some s₂ →
    s₂.word S sight f.base = s₁.word S sight f.base
  /-- The scaled operand of the addition is the index, scaled. -/
  index : ∀ scaler scaled idx scale, f.part = .index scaler scaled idx scale →
    ∀ s₁ s₂, stateAt S sight l s f.add.2 = some s₁ → stateAt S sight l s f.use.2 = some s₂ →
      s₁.word S sight scaled
        = BitVec.ofNat 64 scale * (idx.map (s₂.word S sight)).getD 0

end Runs

/-! ### Words, sums and addresses -/

section Words

variable {W : Type} {S : Surroundings W} {sight : Sight}

/-- Only inline assembly sees more. -/
theorem Sight.visible_eq_nop {op : IrOp} (h : op ≠ .asm) (φ : IrFrame) :
  sight.visible op φ = sight.visible .nop φ
  := by
  funext p
  cases p with
  | reg name => simp [visible, sees, h]
  | slot k => rfl

/-- The words of the operands of an instruction. -/
theorem FrameState.operands_eq {s : FrameState W} {I : IrInstr} (h : I.op ≠ .asm) :
  s.operands S sight I =
    { dst := if I.op.readsDst then I.dst.map (s.word S sight) else none
      r1 := if I.op.readsR1 then I.r1.map (s.word S sight) else none
      r2 := if I.op.readsR2 then I.r2.map (s.word S sight) else none
      idx := if I.op.readsIdx then I.idx.map (s.word S sight) else none
      args := if I.op = .call then I.args.map (s.word S sight) else [] }
  := by
  rw [operands, IrInstr.operandsIn, Sight.visible_eq_nop h]
  rfl

/-- The address of a memory instruction. -/
theorem FrameState.access_eq {s : FrameState W} {J : IrInstr} {t : IrValue}
    (h : J.address = some t) :
  s.access S sight J = some (s.word S sight t + BitVec.ofInt 64 J.disp
    + BitVec.ofNat 64 J.scale * (J.idx.map (s.word S sight)).getD 0)
  := by
  have hasm := (op_ne_of_address h).2.1
  rw [access, operands_eq hasm]
  rcases op_of_address h with ⟨hop, hr1⟩ | ⟨hop | hop, hdst⟩
  · simp [hop, hr1, IrOp.readsR1, IrOp.readsIdx, effectiveAddress]
  · simp [hop, hdst, IrOp.readsDst, IrOp.readsIdx, effectiveAddress]
  · simp [hop, hdst, IrOp.readsDst, IrOp.readsIdx, effectiveAddress]

/-- An addition, a subtraction or a scaler gives a word and has no event. -/
theorem effectIn_of_pure (sight : Sight) {I : IrInstr}
    (hop : I.op = .iadd ∨ I.op = .isub ∨ I.op = .shl ∨ I.op = .imul) (m : Machine)
    (tr : List Event) (o : Operands) :
  ∃ w, effectIn sight m tr I o = some (some w, []) ∧
    aluResult m I.op I.cmpKind o.r1 o.r2 = some w
  := by
  have hsome : ∃ w, aluResult m I.op I.cmpKind o.r1 o.r2 = some w := by
    rcases o.r1 with _ | a
    · exact ⟨_, rfl⟩
    · rcases o.r2 with _ | b
      · exact ⟨_, rfl⟩
      · rcases hop with hop | hop | hop | hop
        · exact ⟨a + b, by rw [hop, aluResult]⟩
        · exact ⟨a - b, by rw [hop, aluResult]⟩
        · rw [hop, aluResult]
          split
          · exact ⟨_, rfl⟩
          · exact ⟨_, rfl⟩
        · exact ⟨a * b, by rw [hop, aluResult]⟩
  obtain ⟨w, hw⟩ := hsome
  refine ⟨w, ?_, hw⟩
  rcases hop with hop | hop | hop | hop
  all_goals
    rw [hop] at hw
    simp [effectIn, effect, hop, hw]

/-- The state after an addition, a subtraction or a scaler. -/
theorem execIn_of_pure (sight : Sight) {I : IrInstr}
    (hop : I.op = .iadd ∨ I.op = .isub ∨ I.op = .shl ∨ I.op = .imul) (s : FrameState W) :
  ∃ w, aluResult (S.machine s.world (sight.visible I.op s.frame)) I.op I.cmpKind
      (s.operands S sight I).r1 (s.operands S sight I).r2 = some w ∧
    execIn S sight I s = some (⟨assignIn S I (some w) s.frame, s.trace,
      S.next s.world (sight.visible I.op s.frame) []⟩, [])
  := by
  obtain ⟨w, heffect, hw⟩ := effectIn_of_pure sight hop
    (S.machine s.world (sight.visible I.op s.frame)) s.trace (s.operands S sight I)
  exact ⟨w, hw, execIn_of_silent heffect⟩

/-- The word of a variable that is no field is in its place. -/
theorem FrameState.word_of_isVar {v : IrValue} (hvar : v.kind.isVar)
    (hfield : sight.field v.key = false) {s : FrameState W} :
  s.word S sight v = s.frame v.place
  := by
  have hne : v.kind ≠ .constInt := by
    intro hconst
    rw [hconst] at hvar
    cases hvar
  rw [word, IrValue.wordIn, if_neg hne,
    if_pos ⟨hvar, by rw [hfield]; exact Bool.false_ne_true⟩]

/-- The word of a temporary of eight bytes after an addition, a subtraction or a scaler. -/
theorem word_of_pure {I : IrInstr} (hop : I.op = .iadd ∨ I.op = .isub ∨ I.op = .shl ∨ I.op = .imul)
    {t : IrValue} (hdst : I.dst = some t) (htmp : t.kind = .tmp) (hsize : t.as.varSize = 8)
    (hown : sight.field t.key = false) {s : FrameState W} {r : FrameState W × List Event}
    (hexec : execIn S sight I s = some r) :
  aluResult (S.machine s.world (sight.visible I.op s.frame)) I.op I.cmpKind
    (s.operands S sight I).r1 (s.operands S sight I).r2 = some (r.1.word S sight t)
  := by
  obtain ⟨w, hw, hexec'⟩ := execIn_of_pure (S := S) sight hop s
  cases hexec.symm.trans hexec'
  have hne : I.op ≠ .store := by
    rcases hop with hop | hop | hop | hop
    all_goals
      rw [hop]
      simp only [ne_eq, reduceCtorEq, not_false_eq_true]
  have hhome : homeAfter S I t w (s.frame t.place) = w := by
    rw [homeAfter]
    split
    · contradiction
    · exact S.home_word t w hsize
  rw [hw, FrameState.word_of_isVar (by rw [htmp]; rfl) hown]
  dsimp only
  rw [assignIn.eq_def, hdst]
  dsimp only
  rw [Function.update_self, hhome]

/-- What a fold adds to its base in a state. -/
def Fold.offset (f : Fold) (S : Surroundings W) (sight : Sight) (s : FrameState W) : Word :=
  match f.part with
  | .disp k => BitVec.ofInt 64 k
  | .index _ scaled _ _ => s.word S sight scaled

/-- A constant is its number in every state. -/
theorem FrameState.word_of_constInt {s : FrameState W} {v : IrValue} (h : v.kind = .constInt) :
  s.word S sight v = BitVec.ofInt 64 v.as.toI64.toInt
  := by
  rw [word, IrValue.wordIn, if_pos h, BitVec.ofInt_toInt]

/-- What the addition of a fold computes. -/
theorem Fold.Ok.sum_eq {fn : IrFunction} {f : Fold} {I J : IrInstr} (h : f.Ok fn I J)
    (hown : sight.field f.sum.key = false) {s : FrameState W} {r : FrameState W × List Event}
    (hexec : execIn S sight I s = some r) :
  r.1.word S sight f.sum = s.word S sight f.base + f.offset S sight s
  := by
  have hw := word_of_pure (h.op.imp_right .inl) h.dst h.tmp h.size hown hexec
  rw [FrameState.operands_eq h.add_op_ne.2] at hw
  have hpart := h.part
  rw [Fold.PartOk] at hpart
  rw [Fold.offset]
  cases hf : f.part with
  | disp k =>
    rw [hf] at hpart
    obtain ⟨-, c, hc, ⟨hr1, hr2, hk⟩ | ⟨hop, hr1, hr2, hk⟩⟩ := hpart
    · rcases h.op with hop | hop
      · rw [hop, if_pos rfl] at hk
        simp [hop, hr1, hr2, IrOp.readsR1, IrOp.readsR2, aluResult] at hw
        rw [← hw, hk, FrameState.word_of_constInt hc]
      · rw [hop, if_neg (by simp only [reduceCtorEq, not_false_eq_true])] at hk
        simp [hop, hr1, hr2, IrOp.readsR1, IrOp.readsR2, aluResult] at hw
        rw [← hw, hk, FrameState.word_of_constInt hc, BitVec.sub_eq_add_neg, ← BitVec.ofInt_neg]
    · simp [hop, hr1, hr2, IrOp.readsR1, IrOp.readsR2, aluResult] at hw
      rw [← hw, hk, FrameState.word_of_constInt hc, BitVec.add_comm]
  | index scaler scaled idx scale =>
    rw [hf] at hpart
    obtain ⟨-, hop, ⟨hr1, hr2⟩ | ⟨hr1, hr2⟩, -⟩ := hpart
    · simp [hop, hr1, hr2, IrOp.readsR1, IrOp.readsR2, aluResult] at hw
      exact hw.symm
    · simp [hop, hr1, hr2, IrOp.readsR1, IrOp.readsR2, aluResult] at hw
      rw [← hw, BitVec.add_comm]

end Words

/-! ### The temporaries of removed instructions -/

/-- The slots of the sum and of the scaled operand of a fold. -/
def Fold.Dead (f : Fold) (p : Place) : Prop :=
  p = .slot f.sum.key ∨ ∃ scaler scaled idx scale,
    f.part = .index scaler scaled idx scale ∧ p = .slot scaled.key

section Temporaries

variable {fn : IrFunction} {f : Fold} {I J : IrInstr}

/-- The memory instruction uses the sum. -/
theorem Fold.Ok.use_sum (h : f.Ok fn I J) :
  1 ≤ J.tmpUses f.sum.varId
  := by
  rw [tmpUses_eq (op_ne_of_address h.address).1, countP_countedUses h.address]
  have hself : f.sum.isTmp f.sum.varId = true := decide_eq_true ⟨h.tmp, rfl⟩
  simp [hself]

/-- The memory instruction uses the sum as its address only. -/
theorem Fold.Ok.otherUses_sum (h : f.Ok fn I J) :
  ∀ v ∈ J.otherUses, v.isTmp f.sum.varId = false
  := by
  have hle : J.tmpUses f.sum.varId ≤ 1 := by
    have hsum := tmpUses_add_le h.use h.add h.add_ne_use f.sum.varId
    have honce := h.once
    omega
  have hself : f.sum.isTmp f.sum.varId = true := decide_eq_true ⟨h.tmp, rfl⟩
  rw [tmpUses_eq (op_ne_of_address h.address).1, countP_countedUses h.address] at hle
  have hzero : J.otherUses.countP (·.isTmp f.sum.varId) = 0 := by
    simp only [List.countP_cons, List.countP_nil, hself, if_true] at hle
    omega
  exact fun v hv => Bool.eq_false_iff.mpr (List.countP_eq_zero.mp hzero v hv)

/-- The facts about the scaled operand of a fold. -/
structure Fold.Scaled (f : Fold) (fn : IrFunction) (I : IrInstr) (scaler : Nat × Nat)
    (scaled : IrValue) (idx : Option IrValue) : Prop where
  tmp : scaled.kind = .tmp
  once : irBuildTmpUseCounts fn scaled.varId ≤ 1
  use : 1 ≤ I.tmpUses scaled.varId
  base : f.base.isTmp scaled.varId = false
  idx : ∀ v ∈ idx, v.isTmp scaled.varId = false ∧ v.isTmp f.sum.varId = false

/-- The scaled operand is used by the addition only. -/
theorem Fold.Ok.scaled (h : f.Ok fn I J) {scaler : Nat × Nat} {scaled : IrValue}
    {idx : Option IrValue} {scale : Nat} (hf : f.part = .index scaler scaled idx scale) :
  f.Scaled fn I scaler scaled idx
  := by
  have hpart := h.part
  rw [Fold.PartOk, hf] at hpart
  obtain ⟨-, hadd, horder, htmp, honce, D, d, hD, hop, hidx, -⟩ := hpart
  have hself : scaled.isTmp scaled.varId = true := decide_eq_true ⟨htmp, rfl⟩
  have hcount : I.tmpUses scaled.varId = [f.base].countP (·.isTmp scaled.varId) + 1
      + I.idx.toList.countP (·.isTmp scaled.varId) := by
    rw [tmpUses_eq h.add_op_ne.1, IrInstr.countedUses]
    rcases horder with ⟨hr1, hr2⟩ | ⟨hr1, hr2⟩
    · simp [hr1, hr2, hadd, IrOp.usesDst, List.countP_cons, hself]
      omega
    · simp [hr1, hr2, hadd, IrOp.usesDst, List.countP_cons, hself]
      omega
  have hle : I.tmpUses scaled.varId ≤ 1 := by
    have hsum := tmpUses_add_le h.add h.use h.add_ne_use.symm scaled.varId
    omega
  have hDop : D.op ≠ .nop := by
    rcases hop with hop | hop
    all_goals
      rw [hop]
      simp only [ne_eq, reduceCtorEq, not_false_eq_true]
  have hne := h.scaler_ne hD hop
  have hmem : ∀ v ∈ idx, v ∈ D.countedUses := by
    intro v hv
    rw [← hidx] at hv
    simp [IrInstr.countedUses, Option.mem_def.mp hv]
  constructor
  case tmp => exact htmp
  case once => exact honce
  case use => omega
  case base =>
    apply Bool.eq_false_iff.mpr
    intro hbase
    simp only [List.countP_cons, List.countP_nil, hbase, if_true] at hcount
    omega
  case idx =>
    intro v hv
    constructor
    · exact not_isTmp_of_once h.add (by omega) honce hD hne.2 hDop v (hmem v hv)
    · exact not_isTmp_of_once h.use h.use_sum h.once hD hne.1 hDop v (hmem v hv)

/-- A kept instruction uses no temporary of a removed one. -/
theorem Fold.Ok.not_dead_of_uses (h : f.Ok fn I J) {q : Nat × Nat} {K : IrInstr}
    (hK : fn.get q = some K) (huse : q ≠ f.use) (hadd : q ≠ f.add) (hop : K.op ≠ .nop) :
  ∀ v ∈ K.countedUses, ¬ f.Dead v.place
  := by
  rintro v hv (hsum | ⟨scaler, scaled, idx, scale, hf, hscaled⟩)
  · have hfalse := not_isTmp_of_once h.use h.use_sum h.once hK huse hop v hv
    rw [isTmp_of_place h.tmp hsum] at hfalse
    cases hfalse
  · have hs := h.scaled hf
    have hfalse := not_isTmp_of_once h.add hs.use hs.once hK hadd hop v hv
    rw [isTmp_of_place hs.tmp hscaled] at hfalse
    cases hfalse

/-- A kept instruction reads no temporary of a removed one. -/
theorem Fold.Ok.not_dead_of_kept (h : f.Ok fn I J) {q : Nat × Nat} {K : IrInstr}
    (hK : fn.get q = some K) (huse : q ≠ f.use) (hadd : q ≠ f.add) :
  ∀ v ∈ K.inputs, ¬ f.Dead v.place
  := by
  intro v hv
  have hop : K.op ≠ .nop := by
    intro hop
    simp [IrInstr.inputs, hop, IrOp.readsDst, IrOp.readsR1, IrOp.readsR2,
      IrOp.readsIdx] at hv
  exact h.not_dead_of_uses hK huse hadd hop v (inputs_subset hv)

/-- The base is no temporary of a removed instruction. -/
theorem Fold.Ok.not_dead_base (h : f.Ok fn I J) :
  ¬ f.Dead f.base.place
  := by
  rintro (hsum | ⟨scaler, scaled, idx, scale, hf, hscaled⟩)
  · have hfalse := not_isTmp_of_once h.use h.use_sum h.once h.add h.add_ne_use h.add_op_ne.1
      f.base h.base_mem
    rw [isTmp_of_place h.tmp hsum] at hfalse
    cases hfalse
  · have hs := h.scaled hf
    have hfalse := hs.base
    rw [isTmp_of_place hs.tmp hscaled] at hfalse
    cases hfalse

/-- Other operands of the memory instruction are no temporaries of removed ones. -/
theorem Fold.Ok.not_dead_other (h : f.Ok fn I J) :
  ∀ v ∈ J.otherUses, ¬ f.Dead v.place
  := by
  rintro v hv (hsum | ⟨scaler, scaled, idx, scale, hf, hscaled⟩)
  · have hfalse := h.otherUses_sum v hv
    rw [isTmp_of_place h.tmp hsum] at hfalse
    cases hfalse
  · have hs := h.scaled hf
    have hmem : v ∈ J.countedUses := by
      by_contra hnot
      have hcount := countP_countedUses h.address (· = v)
      rw [List.countP_eq_zero.mpr] at hcount
      · have hpos : 0 < J.otherUses.countP (· = v) := List.countP_pos_iff.mpr ⟨v, hv, by simp⟩
        omega
      · intro w hw heq
        exact hnot (of_decide_eq_true heq ▸ hw)
    have hfalse := not_isTmp_of_once h.add hs.use hs.once h.use h.add_ne_use.symm
      (op_ne_of_address h.address).1 v hmem
    rw [isTmp_of_place hs.tmp hscaled] at hfalse
    cases hfalse

/-- The new index is no temporary of a removed instruction. -/
theorem Fold.Ok.not_dead_newIdx (h : f.Ok fn I J) :
  ∀ v ∈ f.newIdx J, ¬ f.Dead v.place
  := by
  intro v hv
  rw [Fold.newIdx] at hv
  cases hf : f.part with
  | disp k =>
    rw [hf] at hv
    exact h.not_dead_other v (List.mem_append_right _ (Option.mem_toList.mpr hv))
  | index scaler scaled idx scale =>
    rw [hf] at hv
    have hs := h.scaled hf
    obtain ⟨hscaled, hsum⟩ := hs.idx v hv
    rintro (hplace | ⟨scaler', scaled', idx', scale', hf', hplace⟩)
    · rw [isTmp_of_place h.tmp hplace] at hsum
      cases hsum
    · cases hf.symm.trans hf'
      rw [isTmp_of_place hs.tmp hplace] at hscaled
      cases hscaled

/-- The outside sees no temporary of a removed instruction. -/
theorem Fold.Ok.not_sees (h : f.Ok fn I J) (op : IrOp) :
  ∀ p, fn.sight.sees op p → ¬ f.Dead p
  := by
  intro p hp hdead
  have hslot : ∃ t : IrValue, p = .slot t.key ∧ t.kind = .tmp := by
    rcases hdead with rfl | ⟨scaler, scaled, idx, scale, hf, rfl⟩
    · exact ⟨f.sum, rfl, h.tmp⟩
    · exact ⟨scaled, rfl, (h.scaled hf).tmp⟩
  obtain ⟨t, rfl, ht⟩ := hslot
  obtain ⟨K, hK, htakes⟩ := List.any_eq_true.mp hp
  obtain ⟨hop, hr1⟩ := of_decide_eq_true htakes
  obtain ⟨v, hv, hkey⟩ := (Option.any_eq_true _ _).mp hr1
  obtain ⟨-, hkey⟩ := of_decide_eq_true hkey
  obtain ⟨q, hq⟩ := IrFunction.mem_instrs_iff.mp hK
  have huse : q ≠ f.use := by
    rintro rfl
    cases hq.symm.trans h.use
    have hne := op_ne_of_address h.address
    rcases hop with hop | hop
    · exact hne.2.2.2.2.1 hop
    · exact hne.2.2.2.2.2 hop
  have hadd : q ≠ f.add := by
    rintro rfl
    cases hq.symm.trans h.add
    rcases h.op with hop' | hop'
    all_goals
      rw [hop'] at hop
      rcases hop with hop | hop
      all_goals cases hop
  have hnop : K.op ≠ .nop := by
    rcases hop with hop | hop
    all_goals
      rw [hop]
      simp only [ne_eq, reduceCtorEq, not_false_eq_true]
  apply h.not_dead_of_uses hq huse hadd hnop v
  · simp [IrInstr.countedUses, hv]
  · have hkind : v.kind = .tmp := (congrArg VarKey.kind hkey).trans ht
    rw [IrValue.place_of_tmp hkind, hkey]
    exact hdead

/-- The same variables are memory. -/
theorem Fold.Ok.sight_eq (h : f.Ok fn I J) :
  (f.apply fn).sight = fn.sight
  := by
  apply IrFunction.sight_congr
  intro q hq
  apply IrFunction.any_instrs_congr
  intro p
  have hfalse : ∀ K : IrInstr, K.op ≠ .lea → K.op ≠ .gep → q K = false := by
    intro K hlea hgep
    apply Bool.eq_false_iff.mpr
    exact fun hK => (hq K hK).elim hlea hgep
  by_cases huse : p = f.use
  · have hne := op_ne_of_address h.address
    rw [huse, h.get_apply_use, h.use, Option.any_some, Option.any_some,
      hfalse J hne.2.2.2.2.1 hne.2.2.2.2.2]
    apply hfalse
    · rw [f.instr_op]
      exact hne.2.2.2.2.1
    · rw [f.instr_op]
      exact hne.2.2.2.2.2
  · by_cases hp : f.Removes p
    · obtain ⟨-, D, hD, hop⟩ := h.removed hp
      have hnop : q (irMakeNop D) = false := hfalse _ (absurd · nofun) (absurd · nofun)
      rw [h.get_apply_removed hp hD, hD, Option.any_some, Option.any_some, hnop]
      symm
      apply hfalse
      all_goals
        rcases hop with hop | hop | hop | hop
        all_goals
          rw [hop]
          simp only [ne_eq, reduceCtorEq, not_false_eq_true]
    · rw [h.get_apply_of_ne huse hp]

end Temporaries

/-! ### States of the run of a block -/

section States

variable {W : Type} {S : Surroundings W} {sight : Sight} {l l' : List IrInstr}

/-- The state after an instruction of a block. -/
theorem stateAt_succ {s t : FrameState W} {n : Nat} {I : IrInstr}
    (ht : stateAt S sight l s n = some t) (hI : l[n]? = some I) :
  stateAt S sight l s (n + 1) = (execIn S sight I t).map (·.1)
  := by
  induction l generalizing s n with
  | nil => cases hI
  | cons K l ih =>
    cases n with
    | zero =>
      cases hI
      cases ht
      rw [stateAt]
      cases execIn S sight I t with
      | none => rfl
      | some r =>
        cases l with
        | nil => rfl
        | cons K l => rfl
    | succ n =>
      rw [stateAt] at ht ⊢
      obtain ⟨r, hr, ht⟩ := Option.bind_eq_some_iff.mp ht
      rw [hr, Option.bind_some]
      exact ih ht hI

/-- A run that gets to an instruction gets to every instruction before it. -/
theorem stateAt_of_le {s t : FrameState W} {m n : Nat} (hmn : m ≤ n)
    (ht : stateAt S sight l s n = some t) :
  ∃ u, stateAt S sight l s m = some u
  := by
  induction l generalizing s m n with
  | nil =>
    cases n with
    | zero =>
      rw [Nat.le_zero.mp hmn]
      exact ⟨t, ht⟩
    | succ n => cases ht
  | cons K l ih =>
    cases m with
    | zero => exact ⟨s, rfl⟩
    | succ m =>
      cases n with
      | zero => cases hmn
      | succ n =>
        rw [stateAt] at ht ⊢
        obtain ⟨r, hr, ht⟩ := Option.bind_eq_some_iff.mp ht
        rw [hr, Option.bind_some]
        exact ih (Nat.le_of_succ_le_succ hmn) ht

/-- Two blocks whose instructions, one by one, access the same address and keep the states the same
but for some places. -/
theorem accessesIn_congr {dead : Place → Prop} {s s' : FrameState W} (h : SameButFor dead s s')
    (hstep : ∀ n t t', stateAt S sight l s n = some t → SameButFor dead t t' →
      Option.Rel (fun I I' => t'.access S sight I' = t.access S sight I ∧
        Option.Rel (fun r r' => SameButFor dead r.1 r'.1) (execIn S sight I t)
          (execIn S sight I' t')) l[n]? l'[n]?) :
  accessesIn S sight l' s' = accessesIn S sight l s
  := by
  induction l generalizing l' s s' with
  | nil =>
    cases l' with
    | nil => rfl
    | cons I' l' => cases hstep 0 s s' rfl h
  | cons I l ih =>
    cases l' with
    | nil => cases hstep 0 s s' rfl h
    | cons I' l' =>
      cases hstep 0 s s' rfl h with
      | some hII =>
        obtain ⟨haccess, hexec⟩ := hII
        rw [accessesIn, accessesIn, haccess]
        congr 1
        revert hexec
        cases hr : execIn S sight I s with
        | none =>
          intro hexec
          generalize execIn S sight I' s' = o at hexec ⊢
          cases hexec with
          | none => rfl
        | some r =>
          intro hexec
          generalize execIn S sight I' s' = o at hexec ⊢
          cases hexec with
          | some hrr =>
            apply ih hrr
            intro n t t' ht htt
            apply hstep (n + 1) t t' _ htt
            rw [stateAt, hr]
            exact ht

end States

/-! ### One fold -/

section OneFold

variable {W : Type} {S : Surroundings W} {sight : Sight} {fn : IrFunction} {f : Fold}
  {I J : IrInstr}

/-- What a memory instruction does, by the address that it accesses. -/
theorem effectIn_of_address {t : IrValue} (h : J.address = some t) (s : FrameState W) (m : Machine)
    (tr : List Event) :
  effectIn sight m tr J (s.operands S sight J)
    = match J.op with
      | .loadDeref => some (some (m.loadDeref tr (s.access S sight J)), [])
      | .storeDeref => some (none, [.storeDeref (s.access S sight J) (J.r1.map (s.word S sight))])
      | _ => some (none, [.rmwDeref J.rmwOp (s.access S sight J) (J.r1.map (s.word S sight))])
  := by
  rw [FrameState.access, FrameState.operands_eq (op_ne_of_address h).2.1]
  rcases op_of_address h with ⟨hop, -⟩ | ⟨hop | hop, -⟩
  all_goals simp [effectIn, effect, hop, IrOp.readsR1, IrOp.readsDst]

/-- What a fold leaves alone in the memory instruction. -/
theorem Fold.instr_kept {t : IrValue} (h : J.address = some t) :
  (f.instr J).rmwOp = J.rmwOp ∧ (J.op = .loadDeref → (f.instr J).dst = J.dst) ∧
    (J.op ≠ .loadDeref → (f.instr J).r1 = J.r1)
  := by
  rcases op_of_address h with ⟨hop, -⟩ | ⟨hop | hop, -⟩
  all_goals
    rw [Fold.instr]
    cases f.part <;> simp [IrInstr.withAddress, hop]

/-- A memory instruction that accesses the same address as another and writes the same word does the
same. -/
theorem execIn_of_access_eq {dead : Place → Prop} {s s' : FrameState W} {J' : IrInstr}
    {t t' : IrValue} (h : SameButFor dead s s') (hJ : J.address = some t)
    (hJ' : J'.address = some t') (hop : J'.op = J.op) (hrmw : J'.rmwOp = J.rmwOp)
    (hdst : J.op = .loadDeref → J'.dst = J.dst) (hr1 : J.op ≠ .loadDeref → J'.r1 = J.r1)
    (hreads : ∀ v ∈ J.otherUses, ¬ dead v.place) (hsees : ∀ p, sight.sees J.op p → ¬ dead p)
    (haccess : s'.access S sight J' = s.access S sight J) :
  Option.Rel (fun r r' => SameButFor dead r.1 r'.1) (execIn S sight J s) (execIn S sight J' s')
  := by
  have hword : J.op ≠ .loadDeref →
      J'.r1.map (s'.word S sight) = J.r1.map (s.word S sight) := by
    intro hne
    rw [hr1 hne]
    apply Option.map_congr
    intro v hv
    have hmem : v ∈ J.otherUses := by
      rw [IrInstr.otherUses, if_neg hne]
      exact List.mem_append_left _ (List.mem_append_left _ (Option.mem_toList.mpr hv))
    have hnop : ∀ p, sight.sees .nop p → ¬ dead p := by
      intro p hp
      apply hsees p
      cases p with
      | reg name => cases hp
      | slot k => exact hp
    rw [FrameState.word, FrameState.word, h.visible_eq hnop, h.world, h.trace]
    exact IrValue.wordIn_congr (h.frame _ (hreads v hmem))
  have hassign : ∀ (w : Option Word) (φ φ' : IrFrame), (J.op ≠ .loadDeref → w = none) →
      (∀ p, ¬ dead p → φ' p = φ p) →
      ∀ p, ¬ dead p → assignIn S J' w φ' p = assignIn S J w φ p := by
    intro w φ φ' hw hφ p hp
    rcases op_of_address hJ with ⟨hload, -⟩ | hstore
    · have heq : assignIn S J' w φ' = assignIn S J w φ' := by
        rw [assignIn.eq_def, assignIn.eq_def, hdst hload]
        simp only [homeAfter, hop, hload]
      rw [heq]
      exact assignIn_congr (hφ p hp)
    · have hne : J.op ≠ .loadDeref := by
        rcases hstore.1 with hop | hop
        all_goals
          rw [hop]
          simp only [ne_eq, reduceCtorEq, not_false_eq_true]
      have hnone : ∀ (K : IrInstr) (ψ : IrFrame), assignIn S K none ψ = ψ := by
        intro K ψ
        rw [assignIn.eq_def]
        cases K.dst with
        | none => rfl
        | some d => rfl
      rw [hw hne, hnone, hnone, hφ p hp]
  rw [execIn, execIn]
  simp only [effectIn_of_address hJ, effectIn_of_address hJ', haccess, hop, hrmw, h.trace, h.world,
    h.visible_eq hsees]
  rcases op_of_address hJ with ⟨hload, -⟩ | ⟨hstore | hrmwop, -⟩
  · simp only [hload]
    apply Option.Rel.some
    refine ⟨rfl, rfl, ?_⟩
    exact hassign _ _ _ (fun hne => absurd hload hne) h.frame
  · have hne : J.op ≠ .loadDeref := by
      rw [hstore]
      simp only [ne_eq, reduceCtorEq, not_false_eq_true]
    simp only [hstore, hword hne]
    apply Option.Rel.some
    refine ⟨rfl, rfl, ?_⟩
    apply hassign _ _ _ fun _ => rfl
    intro p hp
    dsimp only
    split
    · rw [Sight.overlay, Sight.overlay, h.frame p hp]
    · exact h.frame p hp
  · have hne : J.op ≠ .loadDeref := by
      rw [hrmwop]
      simp only [ne_eq, reduceCtorEq, not_false_eq_true]
    simp only [hrmwop, hword hne]
    apply Option.Rel.some
    refine ⟨rfl, rfl, ?_⟩
    apply hassign _ _ _ fun _ => rfl
    intro p hp
    dsimp only
    split
    · rw [Sight.overlay, Sight.overlay, h.frame p hp]
    · exact h.frame p hp

/-- A removed instruction writes a temporary that no kept one reads. -/
theorem Fold.Ok.removed_dst (h : f.Ok fn I J) {q : Nat × Nat} {D : IrInstr} (hq : f.Removes q)
    (hD : fn.get q = some D) :
  ∃ d, D.dst = some d ∧ d.kind = .tmp ∧ f.Dead d.place
  := by
  have hadd : ∀ K, fn.get f.add = some K → ∃ d, K.dst = some d ∧ d.kind = .tmp ∧ f.Dead d.place := by
    intro K hK
    cases hK.symm.trans h.add
    exact ⟨f.sum, h.dst, h.tmp, .inl (IrValue.place_of_tmp h.tmp)⟩
  rw [Fold.Removes] at hq
  have hpart := h.part
  rw [Fold.PartOk] at hpart
  cases hf : f.part with
  | disp k =>
    rw [hf] at hq
    exact hadd D (hq ▸ hD)
  | index scaler scaled idx scale =>
    rw [hf] at hq hpart
    rcases hq with rfl | rfl
    · exact hadd D hD
    · obtain ⟨-, -, -, htmp, -, E, d, hE, -, -, hdst, hkind, hid, -⟩ := hpart
      cases hD.symm.trans hE
      use d, hdst, hkind
      right
      use q, scaled, idx, scale, hf
      rw [IrValue.place_of_tmp hkind, IrValue.key, IrValue.key, hkind, htmp, hid]

/-- A removed instruction changes nothing but a temporary that no kept one reads. -/
theorem Fold.Ok.execIn_removed (h : f.Ok fn I J) {q : Nat × Nat} {D : IrInstr} (hq : f.Removes q)
    (hD : fn.get q = some D) {s s' : FrameState W} (hs : SameButFor f.Dead s s') :
  s'.access S fn.sight (irMakeNop D) = s.access S fn.sight D ∧
    Option.Rel (fun r r' => SameButFor f.Dead r.1 r'.1) (execIn S fn.sight D s)
      (execIn S fn.sight (irMakeNop D) s')
  := by
  obtain ⟨-, E, hE, hop⟩ := h.removed hq
  cases hD.symm.trans hE
  obtain ⟨d, hdst, -, hdead⟩ := h.removed_dst hq hD
  obtain ⟨w, -, hexec⟩ := execIn_of_pure (S := S) fn.sight hop s
  have hasm : D.op ≠ .asm := by
    rcases hop with hop | hop | hop | hop
    all_goals
      rw [hop]
      simp only [ne_eq, reduceCtorEq, not_false_eq_true]
  have hnop : execIn S fn.sight (irMakeNop D) s' = some (⟨s'.frame, s'.trace,
      S.next s'.world (fn.sight.visible .nop s'.frame) []⟩, []) := execIn_of_silent rfl
  constructor
  · rw [FrameState.access, FrameState.access]
    rcases hop with hop | hop | hop | hop
    all_goals
      rw [hop]
      rfl
  · rw [hexec, hnop]
    apply Option.Rel.some
    constructor
    case trace => exact hs.trace
    case world =>
      dsimp only
      rw [hs.visible_eq (h.not_sees .nop), hs.world, Sight.visible_eq_nop hasm]
    case frame =>
      intro p hp
      have hne : p ≠ d.place := by
        rintro rfl
        exact hp hdead
      dsimp only
      rw [assignIn.eq_def, hdst]
      exact (hs.frame p hp).trans (Function.update_of_ne hne _ _).symm

/-- A kept instruction accesses the same address and changes the same. -/
theorem Fold.Ok.execIn_kept (h : f.Ok fn I J) {q : Nat × Nat} {K : IrInstr} (huse : q ≠ f.use)
    (hq : ¬ f.Removes q) (hK : fn.get q = some K) {s s' : FrameState W}
    (hs : SameButFor f.Dead s s') :
  s'.access S fn.sight K = s.access S fn.sight K ∧
    Option.Rel (fun r r' => SameButFor f.Dead r.1 r'.1) (execIn S fn.sight K s)
      (execIn S fn.sight K s')
  := by
  have hadd : q ≠ f.add := by
    rintro rfl
    apply hq
    rw [Fold.Removes]
    cases f.part with
    | disp k => rfl
    | index scaler scaled idx scale => exact .inl rfl
  have hreads := h.not_dead_of_kept hK huse hadd
  constructor
  · rw [FrameState.access, FrameState.access, hs.operands_eq hreads (h.not_sees K.op)]
  · exact rel_imp (fun _ _ hrr => hrr.2) (hs.execIn hreads (h.not_sees K.op))

/-- A value that is not of a removed instruction has the same word. -/
theorem Fold.Ok.word_eq (h : f.Ok fn I J) {s s' : FrameState W} (hs : SameButFor f.Dead s s')
    {v : IrValue} (hv : ¬ f.Dead v.place) :
  s'.word S fn.sight v = s.word S fn.sight v
  := by
  rw [FrameState.word, FrameState.word, hs.visible_eq (h.not_sees .nop), hs.world, hs.trace]
  exact IrValue.wordIn_congr (hs.frame _ hv)

/-- The sum at the access is the base there and what the addition added. -/
theorem Fold.Ok.sum_at_use (h : f.Ok fn I J) {l : List IrInstr} {s t : FrameState W}
    (hkeeps : f.Keeps S fn.sight l s) (hI : l[f.add.2]? = some I)
    (ht : stateAt S fn.sight l s f.use.2 = some t) :
  ∃ u, stateAt S fn.sight l s f.add.2 = some u ∧
    t.word S fn.sight f.sum = t.word S fn.sight f.base + f.offset S fn.sight u
  := by
  obtain ⟨u, hu⟩ := stateAt_of_le (Nat.le_of_lt h.later) ht
  obtain ⟨r, hr⟩ := stateAt_of_le h.later ht
  use u, hu
  rw [Nat.succ_eq_add_one, stateAt_succ hu hI] at hr
  obtain ⟨r, hexec, rfl⟩ := Option.map_eq_some_iff.mp hr
  rw [hkeeps.sum r.1 t (by rw [stateAt_succ hu hI, hexec]; rfl) ht, h.sum_eq hkeeps.own hexec,
    hkeeps.base u t hu ht]

/-- The memory instruction accesses the same address after a fold. -/
theorem Fold.Ok.access_use (h : f.Ok fn I J) {l : List IrInstr} {s t t' : FrameState W}
    (hkeeps : f.Keeps S fn.sight l s) (hI : l[f.add.2]? = some I)
    (ht : stateAt S fn.sight l s f.use.2 = some t) (hs : SameButFor f.Dead t t') :
  t'.access S fn.sight (f.instr J) = t.access S fn.sight J
  := by
  obtain ⟨u, hu, hsum⟩ := h.sum_at_use hkeeps hI ht
  have hbase := h.word_eq (S := S) hs h.not_dead_base
  have hidx : ((f.newIdx J).map (t'.word S fn.sight)) = (f.newIdx J).map (t.word S fn.sight) := by
    apply Option.map_congr
    exact fun v hv => h.word_eq hs (h.not_dead_newIdx v hv)
  rw [FrameState.access_eq (Fold.instr_address h.address), FrameState.access_eq h.address, hbase,
    hsum]
  have hpart := h.part
  rw [Fold.PartOk] at hpart
  cases hf : f.part with
  | disp k =>
    rw [hf] at hpart
    rw [Fold.newIdx, hf] at hidx
    have hinstr : (f.instr J).disp = k ∧ (f.instr J).scale = J.scale ∧ (f.instr J).idx = J.idx := by
      rw [Fold.instr, hf]
      dsimp only
      rw [IrInstr.withAddress]
      split
      all_goals exact ⟨rfl, rfl, rfl⟩
    dsimp only at hidx
    rw [hinstr.1, hinstr.2.1, hinstr.2.2, hidx, hpart.1, Fold.offset, hf]
    simp
  | index scaler scaled idx scale =>
    rw [hf] at hpart
    rw [Fold.newIdx, hf] at hidx
    have hinstr : (f.instr J).disp = J.disp ∧ (f.instr J).scale = scale ∧
        (f.instr J).idx = idx := by
      rw [Fold.instr, hf]
      dsimp only
      rw [IrInstr.withAddress]
      split
      all_goals exact ⟨rfl, rfl, rfl⟩
    dsimp only at hidx
    rw [hinstr.1, hinstr.2.1, hinstr.2.2, hidx, hpart.1, Fold.offset, hf]
    dsimp only
    rw [hkeeps.index scaler scaled idx scale hf u t hu ht]
    simp only [BitVec.ofNat_eq_ofNat, BitVec.zero_mul, BitVec.add_zero]
    ac_rfl

end OneFold

/-! ### The block after a fold -/

/-- The instructions of the block at an index. -/
def IrFunction.instructionsAt (fn : IrFunction) (i : Nat) : List IrInstr :=
  fn.blocks[i]?.elim [] (·.instructions)

/-- An instruction of a block. -/
theorem IrFunction.instructionsAt_getElem? (fn : IrFunction) (i n : Nat) :
  (fn.instructionsAt i)[n]? = fn.get (i, n)
  := by
  rw [instructionsAt, get]
  cases fn.blocks[i]? with
  | none => rfl
  | some b => rfl

section Block

variable {W : Type} (S : Surroundings W)

/-- The addresses that the block at an index accesses. -/
def IrFunction.accesses (fn : IrFunction) (i : Nat) (s : FrameState W) : List (Option Word) :=
  accessesIn S fn.sight (fn.instructionsAt i) s

/-- A fold in the run of the block at an index keeps the words of its address. -/
def Fold.KeepsAt (f : Fold) (fn : IrFunction) (i : Nat) (s : FrameState W) : Prop :=
  f.add.1 = i → f.Keeps S fn.sight (fn.instructionsAt i) s

/-- A fold whose words are kept computes the same addresses. -/
theorem Fold.Ok.accesses_eq {S : Surroundings W} {fn : IrFunction} {f : Fold} {I J : IrInstr}
    (h : f.Ok fn I J) {i : Nat} {s : FrameState W} (hkeeps : f.KeepsAt S fn i s) :
  (f.apply fn).accesses S i s = fn.accesses S i s
  := by
  rw [IrFunction.accesses, IrFunction.accesses, h.sight_eq]
  apply accessesIn_congr (.refl f.Dead s)
  intro n t t' ht hs
  rw [IrFunction.instructionsAt_getElem?, IrFunction.instructionsAt_getElem?]
  by_cases huse : (i, n) = f.use
  · have hi : f.add.1 = i := h.block.symm.trans (congrArg Prod.fst huse).symm
    have hI : (fn.instructionsAt i)[f.add.2]? = some I := by
      rw [IrFunction.instructionsAt_getElem?, ← hi]
      exact h.add
    have hn : f.use.2 = n := (congrArg Prod.snd huse).symm
    rw [huse, h.use, h.get_apply_use]
    apply Option.Rel.some
    have haccess := h.access_use (hkeeps hi) hI (by rw [hn]; exact ht) hs
    have hkept := Fold.instr_kept (f := f) h.address
    use haccess
    exact execIn_of_access_eq hs h.address (Fold.instr_address h.address) (f.instr_op J) hkept.1
      hkept.2.1 hkept.2.2 h.not_dead_other (h.not_sees J.op) haccess
  · by_cases hq : f.Removes (i, n)
    · obtain ⟨-, D, hD, -⟩ := h.removed hq
      rw [hD, h.get_apply_removed hq hD]
      exact .some (h.execIn_removed hq hD hs)
    · rw [h.get_apply_of_ne huse hq]
      cases hK : fn.get (i, n) with
      | none => exact .none
      | some K => exact .some (h.execIn_kept huse hq hK hs)

end Block

end Polyc
