import Polyc.Ir.AddressFusionCorrect

/-!
# Fused addresses are the same: the walk

In a block whose instructions do not change, between an addition and its memory instruction, what the
fold reads there, every fold of the walk is one that the block had before the walk, and every memory
instruction accesses the address that it accessed before.
-/

namespace Polyc

/-! ### Words that are not changed -/

/-- The instruction reaches the outside, which may change what it sees. -/
def IrInstr.reaches (sight : Sight) (I : IrInstr) : Bool :=
  match I.op with
  | .storeDeref | .rmwDeref | .call | .asm => true
  | .store => I.dst.any fun d => !d.kind.isVar || sight.field d.key
  | _ => false

/-- The instruction may change the word in a place. -/
def IrInstr.touches (sight : Sight) (I : IrInstr) (p : Place) : Bool :=
  (I.op.writesDst && I.dst.any (·.place = p)) || (I.reaches sight && sight.sees I.op p)

/-- A constant, or a variable that is no field and that no instruction of a range of a block may
change. -/
def IrFunction.Untouched (fn : IrFunction) (i m n : Nat) (v : IrValue) : Prop :=
  v.kind = .constInt ∨ v.kind.isVar ∧ fn.sight.field v.key = false ∧
    ∀ k K, m ≤ k → k < n → fn.get (i, k) = some K → K.touches fn.sight v.place = false

/-- What a fold reads is not changed: the sum and the base up to the memory instruction, and for a
scaled index, which is computed in the block, the scaled operand up to the addition and the index up
to the memory instruction. -/
structure Fold.Steady (f : Fold) (fn : IrFunction) : Prop where
  sum : fn.Untouched f.add.1 (f.add.2 + 1) f.use.2 f.sum
  base : fn.Untouched f.add.1 f.add.2 f.use.2 f.base
  index : ∀ scaler scaled idx scale, f.part = .index scaler scaled idx scale →
    scaler.1 = f.add.1 ∧ scaler.2 < f.add.2 ∧
    (fn.get scaler).any (fun D => D.dst.any fun d => d.as.varSize = 8) ∧
    fn.Untouched f.add.1 (scaler.2 + 1) f.add.2 scaled ∧
    ∃ x, idx = some x ∧ fn.Untouched f.add.1 scaler.2 f.use.2 x

section Words

variable {W : Type} {S : Surroundings W} {sight : Sight}

/-- The events that reach the outside are of instructions that do. -/
theorem reaches_of_effectIn {m : Machine} {tr : List Event} {I : IrInstr} {o : Operands}
    {r : Option Word × List Event} (h : effectIn sight m tr I o = some r)
    (hr : r.2.any Event.reaches = true) :
  I.reaches sight = true
  := by
  rw [effectIn] at h
  split at h
  case isTrue hfield =>
    obtain ⟨d, hd, hkey⟩ := (Option.any_eq_true _ _).mp hfield.2
    simp [IrInstr.reaches, hfield.1, hd, hkey]
  case isFalse =>
    unfold effect at h
    cases hop : I.op <;> simp only [hop, Option.some_inj] at h
    case store =>
      cases hd : I.dst with
      | none =>
        rw [hd] at h
        cases h
        cases hr
      | some d =>
        rw [hd] at h
        dsimp only at h
        split at h
        · cases h
          cases hr
        · rename_i hvar
          simp [IrInstr.reaches, hop, hd, hvar]
    case storeDeref | rmwDeref | call | asm => rw [IrInstr.reaches, hop]
    all_goals first
      | (subst h; cases hr)
      | (obtain ⟨w, -, rfl⟩ := Option.map_eq_some_iff.mp h; cases hr)

/-- A word is written by opcodes that write their destination. -/
theorem writesDst_of_effectIn {m : Machine} {tr : List Event} {I : IrInstr} {o : Operands}
    {r : Option Word × List Event} (h : effectIn sight m tr I o = some r) (hr : r.1 ≠ none) :
  I.op.writesDst = true
  := by
  rw [effectIn] at h
  split at h
  case isTrue hfield =>
    rw [hfield.1]
    rfl
  case isFalse =>
    by_contra hnot
    exact hr (effect_fst_of_not_writesDst h (Bool.eq_false_iff.mpr hnot))

/-- A place that an instruction does not touch keeps its word. -/
theorem frame_of_not_touches {I : IrInstr} {s : FrameState W} {r : FrameState W × List Event}
    (h : execIn S sight I s = some r) {p : Place} (hp : I.touches sight p = false) :
  r.1.frame p = s.frame p
  := by
  obtain ⟨e, he, rfl⟩ := Option.map_eq_some_iff.mp h
  rw [IrInstr.touches, Bool.or_eq_false_iff, Bool.and_eq_false_iff, Bool.and_eq_false_iff] at hp
  obtain ⟨hdst, hsees⟩ := hp
  have hassign : ∀ φ, assignIn S I e.1 φ p = φ p := by
    intro φ
    rw [assignIn.eq_def]
    cases hd : I.dst with
    | none => rfl
    | some d =>
      cases hw : e.1 with
      | none => rfl
      | some w =>
        have hwrites := writesDst_of_effectIn he (by rw [hw]; exact Option.some_ne_none w)
        have hne : d.place ≠ p := by
          rw [hwrites, hd] at hdst
          simpa using hdst
        exact Function.update_of_ne hne.symm _ _
  dsimp only
  rw [hassign]
  split
  case isTrue hreaches =>
    have hreach := reaches_of_effectIn he hreaches
    rw [hreach] at hsees
    rw [Sight.overlay, if_neg (by simpa using hsees)]
  case isFalse => rfl

/-- A run that gets past an instruction executes it. -/
theorem exec_of_stateAt_succ {l : List IrInstr} {s t : FrameState W} {n : Nat}
    (ht : stateAt S sight l s (n + 1) = some t) :
  ∃ u I r, stateAt S sight l s n = some u ∧ l[n]? = some I ∧ execIn S sight I u = some r ∧ r.1 = t
  := by
  obtain ⟨u, hu⟩ := stateAt_of_le (Nat.le_succ n) ht
  have hI : ∃ I, l[n]? = some I := by
    clear hu
    induction l generalizing s n with
    | nil => cases ht
    | cons K l ih =>
      cases n with
      | zero => exact ⟨K, rfl⟩
      | succ n =>
        rw [stateAt] at ht
        obtain ⟨r, -, ht⟩ := Option.bind_eq_some_iff.mp ht
        exact ih ht
  obtain ⟨I, hI⟩ := hI
  rw [stateAt_succ hu hI] at ht
  obtain ⟨r, hr, hrt⟩ := Option.map_eq_some_iff.mp ht
  exact ⟨u, I, r, hu, hI, hr, hrt⟩

/-- The word of a value that is not changed. -/
theorem IrFunction.Untouched.word_eq {fn : IrFunction} {i m n : Nat} {v : IrValue}
    (h : fn.Untouched i m n v) (hmn : m ≤ n) {s s₁ s₂ : FrameState W}
    (h₁ : stateAt S fn.sight (fn.instructionsAt i) s m = some s₁)
    (h₂ : stateAt S fn.sight (fn.instructionsAt i) s n = some s₂) :
  s₂.word S fn.sight v = s₁.word S fn.sight v
  := by
  rcases h with hconst | ⟨hvar, hfield, htouch⟩
  · rw [FrameState.word_of_constInt hconst, FrameState.word_of_constInt hconst]
  · rw [FrameState.word_of_isVar hvar hfield, FrameState.word_of_isVar hvar hfield]
    induction n, hmn using Nat.le_induction generalizing s₂ with
    | base =>
      cases h₁.symm.trans h₂
      rfl
    | succ n hmn ih =>
      obtain ⟨u, I, r, hu, hI, hexec, rfl⟩ := exec_of_stateAt_succ h₂
      rw [fn.instructionsAt_getElem?] at hI
      rw [frame_of_not_touches hexec (htouch n I hmn (Nat.lt_succ_self n) hI)]
      exact ih hu fun k K hk hk' => htouch k K hk (Nat.lt_succ_of_lt hk')

/-- What a scaler computes. -/
theorem IrInstr.Scales.word_eq {D : IrInstr} {scale : Nat} (h : D.Scales scale) {x d : IrValue}
    (hr1 : D.r1 = some x) (hdst : D.dst = some d) (htmp : d.kind = .tmp) (hsize : d.as.varSize = 8)
    (hown : sight.field d.key = false) {s : FrameState W} {r : FrameState W × List Event}
    (hexec : execIn S sight D s = some r) :
  r.1.word S sight d = BitVec.ofNat 64 scale * s.word S sight x
  := by
  obtain ⟨c, hr2, hconst, hscale⟩ := h
  have hop : D.op = .shl ∨ D.op = .imul := hscale.imp And.left And.left
  have hasm : D.op ≠ .asm := by
    rcases hop with hop | hop
    all_goals
      rw [hop]
      exact nofun
  have hw := word_of_pure (S := S) (.inr (.inr hop)) hdst htmp hsize hown hexec
  rw [FrameState.operands_eq hasm] at hw
  rcases hscale with ⟨hshl, k, hk, hnum, rfl⟩ | ⟨himul, hnum⟩
  · simp only [hshl, hr1, hr2, IrOp.readsR1, IrOp.readsR2, if_true, Option.map_some,
      FrameState.word_of_constInt hconst, hnum, BitVec.ofInt_natCast, aluResult] at hw
    have hsmall : (BitVec.ofNat 64 k).toNat = k := by
      rw [BitVec.toNat_ofNat, Nat.mod_eq_of_lt (by omega)]
    rw [hsmall, if_pos (by omega), Option.some_inj] at hw
    rw [← hw]
    apply BitVec.eq_of_toNat_eq
    simp [Nat.shiftLeft_eq, Nat.mul_comm]
  · simp only [himul, hr1, hr2, IrOp.readsR1, IrOp.readsR2, if_true, Option.map_some,
      FrameState.word_of_constInt hconst, hnum, BitVec.ofInt_natCast, aluResult,
      Option.some_inj] at hw
    rw [← hw, BitVec.mul_comm]

end Words

/-! ### Folds whose words are kept -/

section Steady

variable {fn fn₀ : IrFunction} {f : Fold} {I J : IrInstr}

/-- A temporary that is not changed is no field. -/
theorem IrFunction.Untouched.field {i m n : Nat} {v : IrValue} (h : fn.Untouched i m n v)
    (htmp : v.kind = .tmp) :
  fn.sight.field v.key = false
  := by
  rcases h with hconst | ⟨-, hfield, -⟩
  · rw [htmp] at hconst
    cases hconst
  · exact hfield

/-- The words of a fold whose operands are not changed are kept. -/
theorem Fold.Steady.keeps (h : f.Steady fn) (hok : f.Ok fn I J) {W : Type} (S : Surroundings W)
    (s : FrameState W) :
  f.Keeps S fn.sight (fn.instructionsAt f.add.1) s
  := by
  constructor
  case own => exact h.sum.field hok.tmp
  case sum => exact fun s₁ s₂ h₁ h₂ => h.sum.word_eq hok.later h₁ h₂
  case base => exact fun s₁ s₂ h₁ h₂ => h.base.word_eq (Nat.le_of_lt hok.later) h₁ h₂
  case index =>
    intro scaler scaled idx scale hf s₁ s₂ h₁ h₂
    obtain ⟨hblock, hbefore, hsize, hscaled, x, rfl, hx⟩ := h.index scaler scaled idx scale hf
    have hpart := hok.part
    rw [Fold.PartOk, hf] at hpart
    obtain ⟨-, -, -, htmp, -, D, d, hD, -, hr1, hdst, hkind, hid, hscales⟩ := hpart
    have hd : d.as.varSize = 8 := by
      rw [hD, Option.any_some, hdst, Option.any_some] at hsize
      exact of_decide_eq_true hsize
    have hkey : d.key = scaled.key := by
      rw [IrValue.key, IrValue.key, hkind, htmp, hid]
    have hown : fn.sight.field d.key = false := hkey ▸ hscaled.field htmp
    obtain ⟨r, hr⟩ := stateAt_of_le hbefore h₁
    obtain ⟨u, K, r, hu, hK, hexec, rfl⟩ := exec_of_stateAt_succ hr
    rw [fn.instructionsAt_getElem?, ← hblock] at hK
    cases hD.symm.trans hK
    have hsame : r.1.word S fn.sight scaled = r.1.word S fn.sight d := by
      rw [FrameState.word_of_isVar (by rw [htmp]; rfl) (hscaled.field htmp),
        FrameState.word_of_isVar (by rw [hkind]; rfl) hown, IrValue.place_of_tmp htmp,
        IrValue.place_of_tmp hkind, hkey]
    rw [hscaled.word_eq hbefore hr h₁, hsame, hscales.word_eq hr1 hdst hkind hd hown hexec,
      Option.map_some, Option.getD_some,
      hx.word_eq (Nat.le_of_lt (Nat.lt_trans hbefore hok.later)) hu h₂]

end Steady

/-! ### What the walk has done -/

/-- What the walk has made of the instruction at some indexes: nothing; no operation, where nothing
uses the temporary any more; or a memory instruction with another address. -/
inductive Walked (fn₀ fn : IrFunction) (q : Nat × Nat) : Prop where
  | kept (hget : fn.get q = fn₀.get q)
  | removed {D : IrInstr} {d : IrValue} (hD : fn₀.get q = some D) (hdst : D.dst = some d)
      (hdead : irBuildTmpUseCounts fn d.varId = 0) (hget : fn.get q = some (irMakeNop D))
  | rewritten {K K' : IrInstr} {t t' : IrValue} (hK : fn₀.get q = some K) (ht : K.address = some t)
      (hget : fn.get q = some K') (ht' : K'.address = some t') (hop : K'.op = K.op)
      (hdst : K.op = .loadDeref → K'.dst = K.dst)

section Walked

variable {fn fn₀ : IrFunction} {f : Fold} {I J : IrInstr} {q : Nat × Nat}

/-- An addition, a subtraction or a scaler is one that was there before. -/
theorem Walked.of_pure (h : Walked fn₀ fn q) {D : IrInstr} (hD : fn.get q = some D)
    (hop : D.op = .iadd ∨ D.op = .isub ∨ D.op = .shl ∨ D.op = .imul) :
  fn₀.get q = some D
  := by
  cases h with
  | kept hget => exact hget.symm.trans hD
  | removed _ _ _ hget =>
    cases hD.symm.trans hget
    rcases hop with hop | hop | hop | hop
    all_goals cases hop
  | rewritten _ _ hget ht' =>
    cases hD.symm.trans hget
    rcases op_of_address ht' with ⟨hK, -⟩ | ⟨hK | hK, -⟩
    all_goals
      rw [hK] at hop
      rcases hop with hop | hop | hop | hop
      all_goals cases hop

/-- The uses of one instruction. -/
theorem tmpUses_le {K : IrInstr} (hK : fn.get q = some K) (id : Nat) :
  K.tmpUses id ≤ irBuildTmpUseCounts fn id
  := by
  have hsum := IrFunction.uses_makeNop hK id
  omega

/-- After a fold nothing uses the temporaries of the removed instructions. -/
theorem Fold.Ok.uses_removed (h : f.Ok fn I J) (hq : f.Removes q) {D : IrInstr}
    (hD : fn.get q = some D) :
  ∃ d, D.dst = some d ∧ irBuildTmpUseCounts (f.apply fn) d.varId = 0
  := by
  obtain ⟨d, hdst, htmp, hdead⟩ := h.removed_dst hq hD
  use d, hdst
  have hkey : ∀ v : IrValue, v.isTmp d.varId = true → f.Dead v.place := by
    intro v hv
    obtain ⟨hkind, hid⟩ := of_decide_eq_true hv
    rw [IrValue.place_of_tmp hkind, IrValue.key, hkind, hid]
    rwa [IrValue.place_of_tmp htmp, IrValue.key, htmp] at hdead
  have hinstr : (f.instr J).tmpUses d.varId = 0 := by
    have hop : (f.instr J).op ≠ .nop := by
      rw [f.instr_op]
      exact (op_ne_of_address h.address).1
    rw [tmpUses_eq hop, countP_countedUses (Fold.instr_address h.address),
      Fold.instr_otherUses h.address, Nat.add_eq_zero_iff, List.countP_eq_zero, List.countP_eq_zero]
    constructor
    · intro v hv
      rw [List.mem_singleton.mp hv]
      exact fun hbase => h.not_dead_base (hkey _ hbase)
    · intro v hv hv'
      rcases List.mem_append.mp hv with hv | hv
      · have hother : v ∈ J.otherUses := List.mem_append_left _ hv
        exact h.not_dead_other v hother (hkey v hv')
      · exact h.not_dead_newIdx v (Option.mem_toList.mp hv) (hkey v hv')
  have honce : irBuildTmpUseCounts fn d.varId ≤ 1 ∧
      1 ≤ I.tmpUses d.varId + J.tmpUses d.varId := by
    rw [IrValue.place_of_tmp htmp] at hdead
    rcases hdead with hsum | ⟨scaler, scaled, idx, scale, hf, hscaled⟩
    · have hid : d.varId = f.sum.varId := congrArg VarKey.id (Place.slot.inj hsum)
      rw [hid]
      exact ⟨h.once, Nat.le_add_left_of_le h.use_sum⟩
    · have hid : d.varId = scaled.varId := congrArg VarKey.id (Place.slot.inj hscaled)
      have hs := h.scaled hf
      rw [hid]
      exact ⟨hs.once, Nat.le_add_right_of_le hs.use⟩
  obtain ⟨n, hsum, -⟩ := h.uses_apply d.varId
  omega

/-- A fold keeps what the walk has done. -/
theorem Fold.Ok.walked (h : f.Ok fn I J) (hw : ∀ q, Walked fn₀ fn q) (q : Nat × Nat) :
  Walked fn₀ (f.apply fn) q
  := by
  by_cases huse : q = f.use
  · subst huse
    have hkept := Fold.instr_kept (f := f) h.address
    cases hw f.use with
    | kept hget =>
      exact .rewritten (hget.symm.trans h.use) h.address h.get_apply_use
        (Fold.instr_address h.address) (f.instr_op J) hkept.2.1
    | removed _ _ _ hget =>
      cases h.use.symm.trans hget
      have haddress := h.address
      cases haddress
    | rewritten hK ht hget _ hop hdst =>
      cases h.use.symm.trans hget
      apply Walked.rewritten hK ht h.get_apply_use (Fold.instr_address h.address)
      · exact (f.instr_op J).trans hop
      · exact fun hload => (hkept.2.1 (hop.trans hload)).trans (hdst hload)
  · by_cases hq : f.Removes q
    · obtain ⟨-, D, hD, hop⟩ := h.removed hq
      obtain ⟨d, hd, hdead⟩ := h.uses_removed hq hD
      exact .removed ((hw q).of_pure hD hop) hd hdead (h.get_apply_removed hq hD)
    · have hsame := h.get_apply_of_ne huse hq
      cases hw q with
      | kept hget => exact .kept (hsame.trans hget)
      | removed hD hd hdead hget =>
        exact .removed hD hd (Nat.le_zero.mp (hdead ▸ h.uses_le _)) (hsame.trans hget)
      | rewritten hK ht hget ht' hop hdst =>
        exact .rewritten hK ht (hsame.trans hget) ht' hop hdst

/-- What the walk has made of an instruction touches no more than it did. -/
theorem Walked.touches (h : Walked fn₀ fn q) {K' : IrInstr} (hK' : fn.get q = some K')
    (hsight : fn.sight = fn₀.sight) {p : Place}
    (htouch : ∀ K, fn₀.get q = some K → K.touches fn₀.sight p = false) :
  K'.touches fn.sight p = false
  := by
  rw [hsight]
  cases h with
  | kept hget => exact htouch K' (hget.symm.trans hK')
  | removed _ _ _ hget =>
    cases hK'.symm.trans hget
    rfl
  | rewritten hK ht hget ht' hop hdst =>
    cases hK'.symm.trans hget
    have hbefore := htouch _ hK
    rw [IrInstr.touches] at hbefore ⊢
    rcases op_of_address ht with ⟨hload, -⟩ | ⟨hstore | hrmw, -⟩
    · simpa [IrInstr.reaches, hop, hload, hdst hload] using hbefore
    · simpa [IrInstr.reaches, hop, hstore, IrOp.writesDst] using hbefore
    · simpa [IrInstr.reaches, hop, hrmw, IrOp.writesDst] using hbefore

/-- What is not changed before the walk is not changed. -/
theorem IrFunction.Untouched.walked (hw : ∀ q, Walked fn₀ fn q) (hsight : fn.sight = fn₀.sight)
    {i m n : Nat} {v : IrValue} (h : fn₀.Untouched i m n v) :
  fn.Untouched i m n v
  := by
  apply h.imp_right
  rintro ⟨hvar, hfield, htouch⟩
  use hvar, hsight ▸ hfield
  exact fun k K hk hk' hK => (hw (i, k)).touches hK hsight fun K₀ => htouch k K₀ hk hk'

/-- What a fold reads is not changed when it was not before the walk. -/
theorem Fold.Steady.walked (hw : ∀ q, Walked fn₀ fn q) (hsight : fn.sight = fn₀.sight)
    (h : f.Steady fn₀) (hok : f.Ok fn I J) :
  f.Steady fn
  := by
  constructor
  case sum => exact h.sum.walked hw hsight
  case base => exact h.base.walked hw hsight
  case index =>
    intro scaler scaled idx scale hf
    obtain ⟨hblock, hbefore, hsize, hscaled, x, hx, hidx⟩ := h.index scaler scaled idx scale hf
    have hpart := hok.part
    rw [Fold.PartOk, hf] at hpart
    obtain ⟨-, -, -, -, -, D, d, hD, hop, -⟩ := hpart
    rw [(hw scaler).of_pure hD (.inr (.inr hop)), ← hD] at hsize
    exact ⟨hblock, hbefore, hsize, hscaled.walked hw hsight, x, hx, hidx.walked hw hsight⟩

/-- The scaler of an operand is found as it was before the walk. -/
theorem scaledOperand_walked (hw : ∀ q, Walked fn₀ fn q) {K : IrInstr} (hK : fn.get q = some K)
    (hop : K.op ≠ .nop) {v : IrValue} (hv : v ∈ K.countedUses) :
  scaledOperand (irBuildTmpUseCounts fn₀) (irBuildTmpDefs fn₀) fn v
    = scaledOperand (irBuildTmpUseCounts fn₀) (irBuildTmpDefs fn₀) fn₀ v
  := by
  have hproducer : irFindScalingProducer (irBuildTmpDefs fn₀) fn v
      = irFindScalingProducer (irBuildTmpDefs fn₀) fn₀ v := by
    rw [irFindScalingProducer, irFindScalingProducer]
    split
    case isFalse => rfl
    case isTrue htmp =>
      cases hdef : irBuildTmpDefs fn₀ v.varId with
      | none => rfl
      | some p =>
        rw [Option.bind_some, Option.bind_some]
        cases hw p with
        | kept hget => rw [hget]
        | removed hD hdst hdead _ =>
          -- an instruction that is not removed uses the operand
          obtain ⟨d, hd, -, hid⟩ := dst_of_irBuildTmpDefs hdef hD
          cases hdst.symm.trans hd
          have huse := (countP_le_tmpUses hop hv v.varId).trans (tmpUses_le hK v.varId)
          have hself : v.isTmp v.varId = true := decide_eq_true ⟨htmp, rfl⟩
          rw [hid] at hdead
          rw [hdead, List.countP_singleton, hself, if_pos rfl] at huse
          exact absurd huse (by decide)
        | rewritten hK₀ ht hget _ hsame _ =>
          rw [hK₀, hget, Option.bind_some, Option.bind_some]
          rcases op_of_address ht with ⟨hmem, -⟩ | ⟨hmem | hmem, -⟩
          all_goals simp [hsame, hmem]
  rw [scaledOperand, scaledOperand, hproducer]

/-- What the search of the walk finds is what it would have found before the walk, when the memory
instruction is as it was. -/
theorem Fold.Found.walked (hw : ∀ q, Walked fn₀ fn q) (hfused : FusedFrom fn₀ fn)
    {pool : Option IrRegPool} {a b : IrValue} {between : List IrInstr}
    (h : f.Found pool fn₀ fn I J a b between) (huse : fn.get f.use = fn₀.get f.use) :
  f.Found pool fn₀ fn₀ I J a b between
  := by
  have hok := h.ok hfused
  have hJ : fn₀.get f.use = some J := huse.symm.trans h.use
  constructor
  case add => exact (hw f.add).of_pure h.add (h.op.imp_right .inl)
  case use => exact hJ
  case block => exact h.block
  case later => exact h.later
  case op => exact h.op
  case dst => exact h.dst
  case r1 => exact h.r1
  case r2 => exact h.r2
  case tmp => exact h.tmp
  case size => exact h.size
  case once => exact h.once
  case address => exact h.address
  case first =>
    intro k K hk hk' hK
    by_cases hop : K.op = .nop
    · exact .inl hop
    right
    intro hnames
    have hself : f.sum.isTmp f.sum.varId = true := decide_eq_true ⟨h.tmp, rfl⟩
    have hne : (f.add.1, k) ≠ f.use := by
      intro heq
      exact absurd (congrArg Prod.snd heq) (Nat.ne_of_lt hk')
    have hnot := not_isTmp_of_once hJ hok.use_sum (irTmpUseCount_eq_one h.once).le hK hne hop
    have hread : f.sum ∉ K.countedUses := by
      intro hmem
      rw [hnot f.sum hmem] at hself
      cases hself
    have hdst : K.dst = some f.sum := by
      rcases hnames with hr1 | hr2 | hdst | hidx
      · exact absurd (by simp [IrInstr.countedUses, hr1]) hread
      · exact absurd (by simp [IrInstr.countedUses, hr2]) hread
      · exact hdst
      · exact absurd (by simp [IrInstr.countedUses, hidx]) hread
    have hbefore : ∀ K', fn.get (f.add.1, k) = some K' → K'.op ≠ .nop → K'.dst ≠ some f.sum :=
      fun K' hK' hnop hd => (h.first k K' hk hk' hK').elim hnop fun hnot => hnot (.inr (.inr (.inl hd)))
    cases hw (f.add.1, k) with
    | kept hget => exact hbefore K (hget.trans hK) hop hdst
    | removed hD hd hdead _ =>
      cases hK.symm.trans hD
      cases hdst.symm.trans hd
      have huses := (hok.use_sum).trans (tmpUses_le h.use f.sum.varId)
      rw [hdead] at huses
      exact absurd huses (by decide)
    | rewritten hK₀ ht hget ht' hsame hload =>
      cases hK.symm.trans hK₀
      rcases op_of_address ht with ⟨hmem, -⟩ | ⟨hmem | hmem, -⟩
      · apply hbefore _ hget
        · rw [hsame]
          exact hop
        · rw [hload hmem]
          exact hdst
      · exact hread (by simp [IrInstr.countedUses, hmem, IrOp.usesDst, hdst])
      · exact hread (by simp [IrInstr.countedUses, hmem, IrOp.usesDst, hdst])
  case part =>
    have ha : a ∈ I.countedUses := by simp [IrInstr.countedUses, h.r1]
    have hb : b ∈ I.countedUses := by simp [IrInstr.countedUses, h.r2]
    have hpart := h.part
    rwa [scaleFold, scaledOperand_walked hw h.add hok.add_op_ne.1 ha,
      scaledOperand_walked hw h.add hok.add_op_ne.1 hb, ← scaleFold] at hpart

end Walked

/-! ### The rounds -/

/-- The walk gets to the instructions of a block in their order. -/
theorem pairwise_indexes (fn : IrFunction) :
  fn.indexes.Pairwise fun p q => p.1 = q.1 → p.2 < q.2
  := by
  rw [IrFunction.indexes, List.pairwise_flatMap]
  constructor
  · intro i _
    rw [List.pairwise_map]
    apply List.pairwise_lt_range.imp
    intro m n hlt _
    exact hlt
  · apply List.pairwise_lt_range.imp
    intro i j hij p hp q hq heq
    obtain ⟨m, -, rfl⟩ := List.mem_map.mp hp
    obtain ⟨n, -, rfl⟩ := List.mem_map.mp hq
    exact absurd heq (Nat.ne_of_lt hij)

/-- Before the rest of the walk: no addition of the rest writes the new address of a later memory
instruction of the block. -/
structure Walk (fn₀ fn : IrFunction) (i : Nat) (rest : List (Nat × Nat)) : Prop where
  fused : FusedFrom fn₀ fn
  sight : fn.sight = fn₀.sight
  walked : ∀ q, Walked fn₀ fn q
  settled : ∀ n J t, fn.get (i, n) = some J → J.address = some t → fn.get (i, n) ≠ fn₀.get (i, n) →
    ∀ m I, (i, m) ∈ rest → m < n → fn.get (i, m) = some I → I.op = .iadd ∨ I.op = .isub →
      I.dst = some t → t.kind ≠ .tmp

/-- Before the walk. -/
theorem Walk.start (fn : IrFunction) (i : Nat) (rest : List (Nat × Nat)) :
  Walk fn fn i rest
  where
  fused := .refl fn
  sight := rfl
  walked _ := .kept rfl
  settled _ _ _ _ _ hne := absurd rfl hne

section Rounds

variable {W : Type} {S : Surroundings W} {pool : Option IrRegPool} {fn₀ fn : IrFunction} {i : Nat}
  {p : Nat × Nat} {rest : List (Nat × Nat)}

/-- The condition on the function before the walk: no fold that may be found in a block reads
something that is changed in between. -/
def IrFunction.FoldsSteady (pool : Option IrRegPool) (fn : IrFunction) (i : Nat) : Prop :=
  ∀ (f : Fold) (I J : IrInstr) (a b : IrValue) (between : List IrInstr),
    f.Found pool fn fn I J a b between → f.add.1 = i → f.Steady fn

/-- A fold of the walk in the block reads nothing that is changed. -/
theorem Walk.steady (h : Walk fn₀ fn i (p :: rest)) (hfolds : fn₀.FoldsSteady pool i) {f : Fold}
    (hp : f.add = p) {I J : IrInstr} {a b : IrValue} {between : List IrInstr}
    (hfound : f.Found pool fn₀ fn I J a b between) (hi : f.add.1 = i) :
  f.Steady fn₀
  := by
  subst hi
  have huse : fn.get f.use = fn₀.get f.use := by
    by_contra hne
    have hpair : (f.add.1, f.use.2) = f.use := by rw [← hfound.block]
    apply h.settled f.use.2 J f.sum (hpair ▸ hfound.use) hfound.address (hpair ▸ hne) f.add.2 I
      (by rw [← hp]; exact List.mem_cons_self) hfound.later hfound.add hfound.op hfound.dst
    exact hfound.tmp
  exact hfolds f I J a b between (hfound.walked h.walked h.fused huse) rfl

/-- One round of the walk keeps what the walk relies on and the addresses of the block. -/
theorem Walk.round (h : Walk fn₀ fn i (p :: rest)) (hfolds : fn₀.FoldsSteady pool i)
    (hsorted : (p :: rest).Pairwise fun p q => p.1 = q.1 → p.2 < q.2) (s : FrameState W) :
  Walk fn₀ (fuseAt pool (irBuildTmpUseCounts fn₀) (irBuildTmpDefs fn₀) fn p) i rest ∧
    (fuseAt pool (irBuildTmpUseCounts fn₀) (irBuildTmpDefs fn₀) fn p).accesses S i s
      = fn.accesses S i s
  := by
  rw [fuseAt]
  cases hf : findFold pool (irBuildTmpUseCounts fn₀) (irBuildTmpDefs fn₀) fn p with
  | none =>
    refine ⟨⟨h.fused, h.sight, h.walked, ?_⟩, rfl⟩
    exact fun n J t hJ ht hne m I hm => h.settled n J t hJ ht hne m I (List.mem_cons_of_mem p hm)
  | some f =>
    obtain ⟨hp, I, J, a, b, between, hfound⟩ := findFold_found hf
    have hok := hfound.ok h.fused
    have hsteady : f.add.1 = i → f.Steady fn₀ := h.steady hfolds hp hfound
    have haccess : (f.apply fn).accesses S i s = fn.accesses S i s := by
      apply hok.accesses_eq
      rintro rfl
      exact ((hsteady rfl).walked h.walked h.sight hok).keeps hok S s
    refine ⟨⟨hok.fusedFrom h.fused, hok.sight_eq.trans h.sight, hok.walked h.walked, ?_⟩, haccess⟩
    intro n K t hK ht hne m A hm hlt hA hop hdst
    -- the addition of the rest is the one before the round
    have hAuse : (i, m) ≠ f.use := by
      intro heq
      rw [heq, hok.get_apply_use] at hA
      cases hA
      rw [f.instr_op] at hop
      rcases op_of_address hok.address with ⟨hmem, -⟩ | ⟨hmem | hmem, -⟩
      all_goals
        rw [hmem] at hop
        rcases hop with hop | hop
        all_goals cases hop
    have hAkept : ¬ f.Removes (i, m) := by
      intro hq
      obtain ⟨-, D, hD, -⟩ := hok.removed hq
      rw [hok.get_apply_removed hq hD] at hA
      cases hA
      rcases hop with hop | hop
      all_goals cases hop
    rw [hok.get_apply_of_ne hAuse hAkept] at hA
    by_cases huse : (i, n) = f.use
    · rw [huse, hok.get_apply_use] at hK
      cases hK
      rw [Fold.instr_address hok.address] at ht
      cases ht
      have hi : f.add.1 = i := hok.block.symm.trans (congrArg Prod.fst huse).symm
      have hbetween : f.add.2 < m ∧ m < f.use.2 := by
        have hrest := (List.pairwise_cons.mp hsorted).1 (i, m) hm
        rw [← hp] at hrest
        exact ⟨hrest hi, hlt.trans_eq (congrArg Prod.snd huse)⟩
      intro htmp
      rcases (hsteady hi).base with hconst | ⟨-, -, htouch⟩
      · rw [htmp] at hconst
        cases hconst
      · have hA₀ := (h.walked (i, m)).of_pure hA (hop.imp_right .inl)
        have hfalse := htouch m A (Nat.le_of_lt hbetween.1) hbetween.2 (hi ▸ hA₀)
        rw [IrInstr.touches, hdst] at hfalse
        rcases hop with hop | hop
        all_goals simp [hop, IrOp.writesDst] at hfalse
    · by_cases hq : f.Removes (i, n)
      · obtain ⟨-, D, hD, -⟩ := hok.removed hq
        rw [hok.get_apply_removed hq hD] at hK
        cases hK
        cases ht
      · rw [hok.get_apply_of_ne huse hq] at hK hne
        exact h.settled n K t hK ht hne m A (List.mem_cons_of_mem p hm) hlt hA hop hdst

/-- The rounds of a walk compute the same addresses. -/
theorem Walk.accesses_eq (h : Walk fn₀ fn i rest) (hfolds : fn₀.FoldsSteady pool i)
    (hsorted : rest.Pairwise fun p q => p.1 = q.1 → p.2 < q.2) (s : FrameState W) :
  (rest.foldl (fuseAt pool (irBuildTmpUseCounts fn₀) (irBuildTmpDefs fn₀)) fn).accesses S i s
    = fn.accesses S i s
  := by
  induction rest generalizing fn with
  | nil => rfl
  | cons p rest ih =>
    obtain ⟨hround, haccess⟩ := h.round hfolds hsorted (S := S) s
    rw [List.foldl_cons, ih hround (List.pairwise_cons.mp hsorted).2, haccess]

/-- **Theorem.** When no instruction of a block changes what a fold reads between its addition and
its memory instruction, every memory instruction of the block accesses the address it accessed
before. -/
theorem fusedAddresses_eq (S : Surroundings W) (pool : Option IrRegPool) (fn : IrFunction) (i : Nat)
    (s : FrameState W) (h : fn.FoldsSteady pool i) :
  (irFuseIaddIntoMemAddressing pool fn).accesses S i s = fn.accesses S i s
  := (Walk.start fn i fn.indexes).accesses_eq h (pairwise_indexes fn) s

end Rounds

/-! ### Two blocks -/

/-- Surroundings that answer zero. -/
def zeroSurroundings : Surroundings Unit where
  machine _ _ := zeroMachine
  next _ _ _ := ()
  changes _ vis _ := vis
  home _ w := w
  stored _ _ w _ := w
  home_word _ _ _ := rfl

/-- A state in which all words are a hundred. -/
def hundreds : FrameState Unit := ⟨fun _ => 100, [], ()⟩

/-- A load from the array of words at local 1, by the index in local 2, with a store to local 3 in
between. -/
def indexedLoad : IrFunction where
  entryBlock := 0
  blocks := [⟨0, [
    { op := .shl
      dst := some (irWordVar 4 .tmp 4)
      r1 := some (irWordVar 2 .local 2)
      r2 := some (irConstInt 7 .i64 3) },
    { op := .iadd
      dst := some (irWordVar 5 .tmp 5)
      r1 := some (irWordVar 1 .local 1)
      r2 := some (irWordVar 4 .tmp 4) },
    { op := .store, dst := some (irWordVar 3 .local 3), r1 := some (irConstInt 8 .i64 0) },
    { op := .loadDeref, dst := some (irWordVar 6 .tmp 6), r1 := some (irWordVar 5 .tmp 5) },
    { op := .ret, dst := some (irWordVar 6 .tmp 6) }]⟩]

/-- The instructions of `indexedLoad`. -/
theorem get_indexedLoad {q : Nat × Nat} {K : IrInstr} (h : indexedLoad.get q = some K) :
  ∃ k, q = (0, k) ∧ (indexedLoad.instructionsAt 0)[k]? = some K ∧ k < 5
  := by
  obtain ⟨_ | i, k⟩ := q
  · use k, rfl, h
    exact (List.getElem?_eq_some_iff.mp h).1
  · cases h

/-- Nothing in `indexedLoad` changes what its fold reads. -/
theorem foldsSteady_indexedLoad :
  indexedLoad.FoldsSteady none 0
  := by
  intro f I J a b between hfound _
  have hok := hfound.ok (.refl indexedLoad)
  obtain ⟨add, use, t, base, part⟩ := f
  have hadd : add = (0, 1) := by
    obtain ⟨k, hq, hI, hk⟩ := get_indexedLoad hok.add
    have hop := hok.op
    obtain rfl | rfl | rfl | rfl | rfl : k = 0 ∨ k = 1 ∨ k = 2 ∨ k = 3 ∨ k = 4 := by omega
    all_goals first
      | exact hq
      | (cases hI; rcases hop with hop | hop <;> cases hop)
  subst hadd
  cases hok.add
  cases hok.dst
  have huse : use = (0, 3) := by
    obtain ⟨k, hq, hJ, hk⟩ := get_indexedLoad hok.use
    have haddress := hok.address
    obtain rfl | rfl | rfl | rfl | rfl : k = 0 ∨ k = 1 ∨ k = 2 ∨ k = 3 ∨ k = 4 := by omega
    all_goals first
      | exact hq
      | (cases hJ; cases haddress)
  subst huse
  have hkept : ∀ {m n : Nat} {v : IrValue}, v.kind.isVar → indexedLoad.sight.field v.key = false →
      ((List.range' m (n - m)).all fun k => ((indexedLoad.instructionsAt 0)[k]?).all fun K =>
        !K.touches indexedLoad.sight v.place) → indexedLoad.Untouched 0 m n v := by
    intro m n v hvar hfield htouch
    refine .inr ⟨hvar, hfield, fun k K hk hk' hK => ?_⟩
    have hall := List.all_eq_true.mp htouch k (List.mem_range'_1.mpr (by omega))
    rw [indexedLoad.instructionsAt_getElem?, hK, Option.all_some, Bool.not_eq_true'] at hall
    exact hall
  have hpart := hok.part
  rw [Fold.PartOk] at hpart
  cases part with
  | disp k =>
    obtain ⟨-, c, hc, ⟨-, hr2, -⟩ | ⟨-, hr1, -⟩⟩ := hpart
    · cases hr2
      cases hc
    · cases hr1
      cases hc
  | index scaler scaled idx scale =>
    obtain ⟨-, -, horder, htmp, -, D, d, hD, hop, hidx, -⟩ := hpart
    obtain ⟨rfl, rfl⟩ : base = irWordVar 1 .local 1 ∧ scaled = irWordVar 4 .tmp 4 := by
      rcases horder with ⟨hr1, hr2⟩ | ⟨hr1, -⟩
      · cases hr1
        cases hr2
        exact ⟨rfl, rfl⟩
      · cases hr1
        cases htmp
    have hscaler : scaler = (0, 0) := by
      obtain ⟨k, hq, hD, hk⟩ := get_indexedLoad hD
      obtain rfl | rfl | rfl | rfl | rfl : k = 0 ∨ k = 1 ∨ k = 2 ∨ k = 3 ∨ k = 4 := by omega
      all_goals first
        | exact hq
        | (cases hD; rcases hop with hop | hop <;> cases hop)
    subst hscaler
    cases hD
    subst hidx
    constructor
    case sum => exact hkept rfl rfl rfl
    case base => exact hkept rfl rfl rfl
    case index =>
      rintro _ _ _ _ ⟨⟩
      exact ⟨rfl, Nat.one_pos, rfl, hkept rfl rfl rfl, _, rfl, hkept rfl rfl rfl⟩

/-- The fused load accesses the address that the shift and the addition have computed. -/
theorem fusedAddresses_eq_indexedLoad :
  (irFuseIaddIntoMemAddressing none indexedLoad).accesses zeroSurroundings 0 hundreds
    = [none, none, none, some 900, none]
  := by
  rw [fusedAddresses_eq zeroSurroundings none indexedLoad 0 hundreds foldsSteady_indexedLoad]
  rfl

/-- A load from eight bytes after the pointer in local 1, which is stored to in between. -/
def fieldLoad : IrFunction where
  entryBlock := 0
  blocks := [⟨0, [
    { op := .iadd
      dst := some (irWordVar 5 .tmp 5)
      r1 := some (irWordVar 1 .local 1)
      r2 := some (irConstInt 2 .i64 8) },
    { op := .store, dst := some (irWordVar 1 .local 1), r1 := some (irConstInt 3 .i64 0) },
    { op := .loadDeref, dst := some (irWordVar 6 .tmp 6), r1 := some (irWordVar 5 .tmp 5) },
    { op := .ret, dst := some (irWordVar 6 .tmp 6) }]⟩]

/-- A store to the pointer between the addition and the load changes the address. -/
theorem not_fusedAddresses_eq :
  ¬ ∀ (S : Surroundings Unit) (pool : Option IrRegPool) (fn : IrFunction) (i : Nat)
      (s : FrameState Unit),
    (irFuseIaddIntoMemAddressing pool fn).accesses S i s = fn.accesses S i s
  := by
  intro h
  have heq := h zeroSurroundings none fieldLoad 0 hundreds
  exact absurd heq (by decide)

end Polyc
