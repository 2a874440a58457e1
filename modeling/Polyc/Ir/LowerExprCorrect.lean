import Polyc.Ir.BuilderRuns

/-!
# Lowered expressions compute what the evaluator computes

A lowering is correct for an evaluator when, from every context and in every function that
completes what it builds, a run of its code ends with the state of the evaluator and with
its word in the operand that the lowering returned.
-/

namespace Polyc

open IrCtx AstState

/-! ### Operands -/

/-- What the operand of an expression is, when the temporaries below `n` have been made. -/
def IsOperand (vs : Variables) (n : Nat) : Shape → IrValue → Prop
  | .slot id, v => v = vs.value id
  | .phi, v => v.kind = .tmp ∧ v.varId < n ∧ v.as.varSize = 1
  | _, v => v.kind = .constInt ∨ v.kind = .tmp ∧ v.varId < n ∧ v.as.varSize = 8

section
variable {vs : Variables} {m : Machine}

theorem Variables.isVar (vs : Variables) (id : Nat) :
  (vs.value id).kind.isVar
  := by
  rcases vs.isSlot id with h | h <;> rw [h] <;> rfl

theorem Variables.kind_ne_tmp (vs : Variables) (id : Nat) :
  (vs.value id).kind ≠ .tmp
  := by
  rcases vs.isSlot id with h | h <;> rw [h] <;> decide

/-- Slots and temporaries that say so are 8 bytes wide. -/
theorem irValueByteSize_of_varSize
    {v : IrValue} (hv : v.kind.isVar) {size : Nat} (h : v.as.varSize = size)
    (hpos : 0 < size) :
  irValueByteSize (some v) = size
  := by
  have hkind : v.kind = .tmp ∨ v.kind = .local ∨ v.kind = .param := by
    cases hk : v.kind <;> simp [hk, IrValueKind.isVar] at hv ⊢
  rw [irValueByteSize, if_pos ⟨hkind, by omega⟩, h]

/-- The word of a slot is that of its local. -/
theorem valueOf_slot (s : SizedStore) (id : Nat) :
  valueOf m s.trace s.env (vs.value id) = (s.view vs).locals id
  := valueOf_of_isVar (vs.isVar id)

/-- The word of a temporary. -/
theorem valueOf_tmp
    {v : IrValue} (h : v.kind = .tmp) (tr : List Event) (σ : Env) :
  valueOf m tr σ v = σ ⟨.tmp, v.varId⟩
  := by
  rw [valueOf_of_isVar (by rw [h]; rfl), IrValue.key, h]

/-- After more code, an operand is read as its shape says. -/
theorem IsOperand.read
    {n : Nat} {sh : Shape} {v : IrValue} (h : IsOperand vs n sh v) {s s' : SizedStore}
    (hkeeps : Keeps n s s') :
  valueOf m s'.trace s'.env v = sh.read (valueOf m s.trace s.env v) (s'.view vs)
  := by
  have htmp : v.kind = .tmp → v.varId < n →
      valueOf m s'.trace s'.env v = valueOf m s.trace s.env v := by
    intro hk hlt
    rw [valueOf_tmp hk, valueOf_tmp hk, hkeeps _ hlt]
  have hconst : v.kind = .constInt →
      valueOf m s'.trace s'.env v = valueOf m s.trace s.env v := by
    intro hk
    rw [valueOf_of_constInt hk, valueOf_of_constInt hk]
  cases sh with
  | slot id =>
    rw [show v = vs.value id from h]
    apply valueOf_slot
  | phi => apply htmp h.1 h.2.1
  | settled =>
    rcases h with h | h
    · apply hconst h
    · apply htmp h.1 h.2.1
  | produced =>
    rcases h with h | h
    · apply hconst h
    · apply htmp h.1 h.2.1

/-! ### Writes -/

/-- A write to a temporary does not change the locals. -/
theorem view_update_tmp
    (vs : Variables) (σ : Env) (k : Nat) (w : Word) (tr : List Event) (log : List LogEntry) :
  SizedStore.view vs ⟨Function.update σ ⟨.tmp, k⟩ w, tr, log⟩
    = ⟨fun id => σ (vs.value id).key, tr, log⟩
  := by
  rw [SizedStore.view]
  congr 1
  funext id
  apply Function.update_of_ne
  intro h
  apply vs.kind_ne_tmp id
  apply congrArg VarKey.kind h

/-- A write to a slot writes the local. -/
theorem view_update_slot
    (vs : Variables) (σ : Env) (id : Nat) (w : Word) (tr : List Event) (log : List LogEntry) :
  SizedStore.view vs ⟨Function.update σ (vs.value id).key w, tr, log⟩
    = AstState.setLocal ⟨fun id => σ (vs.value id).key, tr, log⟩ id w
  := by
  rw [SizedStore.view, AstState.setLocal]
  congr 1
  funext i
  by_cases h : i = id
  · rw [h]
    simp only [Function.update_self]
  · have hkey : (vs.value i).key ≠ (vs.value id).key := by
      intro hkey
      apply h (vs.distinct i id hkey)
    simp only [Function.update_of_ne h, Function.update_of_ne hkey]

/-- A write to a slot leaves the temporaries alone. -/
theorem update_slot_tmp
    (vs : Variables) (σ : Env) (id : Nat) (w : Word) (k : Nat) :
  Function.update σ (vs.value id).key w ⟨.tmp, k⟩ = σ ⟨.tmp, k⟩
  := by
  apply Function.update_of_ne
  intro h
  apply vs.kind_ne_tmp id
  rw [← show VarKey.kind ⟨.tmp, k⟩ = .tmp from rfl, h]
  rfl

/-- A write to a later temporary leaves the earlier ones alone. -/
theorem update_tmp_of_lt
    (σ : Env) {i k : Nat} (h : i < k) (w : Word) :
  Function.update σ ⟨.tmp, k⟩ w ⟨.tmp, i⟩ = σ ⟨.tmp, i⟩
  := by
  apply Function.update_of_ne
  intro hkey
  have : i = k := congrArg VarKey.id hkey
  omega

/-- A write to a slot leaves the words of the temporaries alone. -/
theorem valueOf_update_slot
    (vs : Variables) {v : IrValue} (h : v.kind = .tmp) (tr : List Event) (σ : Env) (id : Nat)
    (w : Word) :
  valueOf m tr (Function.update σ (vs.value id).key w) v = valueOf m tr σ v
  := by
  rw [valueOf_tmp h, valueOf_tmp h, update_slot_tmp]

/-- An earlier temporary keeps its word. -/
theorem Keeps.valueOf
    {n : Nat} {s s' : SizedStore} (hkeeps : Keeps n s s') {v : IrValue} (h : v.kind = .tmp)
    (hlt : v.varId < n) :
  valueOf m s'.trace s'.env v = Polyc.valueOf m s.trace s.env v
  := by
  rw [valueOf_tmp h, valueOf_tmp h, hkeeps _ hlt]

/-- The key of a temporary. -/
theorem key_of_tmp {v : IrValue} (h : v.kind = .tmp) :
  v.key = ⟨.tmp, v.varId⟩
  := by
  rw [IrValue.key, h]

end

/-! ### Correct lowerings -/

/-- A context over the given variables. -/
structure IrCtx.For (vs : Variables) (esc : Nat → Bool) (c : IrCtx) : Prop where
  ok : c.Ok
  vars : c.vars = vs
  escape : c.escape = esc

theorem IrCtx.Grows.for
    {vs : Variables} {esc : Nat → Bool} {n : Nat} {c c' : IrCtx} (h : Grows n c c')
    (hc : c.For vs esc) :
  c'.For vs esc
  := ⟨h.ok, h.vars.trans hc.vars, h.escape.trans hc.escape⟩

/-- The context at the start of a function. -/
theorem Variables.for_start (vs : Variables) (esc : Nat → Bool) :
  (vs.start esc).For vs esc
  := by
  refine ⟨⟨List.mem_singleton_self 0, ?_⟩, rfl, rfl⟩
  intro id hid
  rw [List.mem_singleton.mp hid]
  apply Nat.zero_lt_one

/-- The lowering from `c` ends with the instruction `I`, added to `c₀` with the destination
`v`; the evaluation ends with the execution of `I` on operands that `pre` computes. -/
structure Produces (m : Machine) (vs : Variables) (c c₀ : IrCtx) (I : IrInstr) (v : IrValue)
    (eval : Eval) (pre : AstState → Except AstState (Operands × AstState)) : Prop where
  grows : Grows c.blockId c c₀
  op : I.op.produces
  dst : I.dst = none
  kind : v.kind = .tmp
  fresh : c.varId ≤ v.varId
  lt : v.varId < c₀.varId
  size : v.as.varSize = 8
  type : I.op = .icmp → v.type ≠ .i8
  eval_eq : ∀ a, eval a = pre a >>= fun x => finish m I x.1 x.2
  runs : ∀ F s, Completes F c₀ →
    Runs m F vs c.varId c.point c₀.point s (pre (s.view vs)) fun o s' =>
      I.operands m s'.trace s'.env = o ∧ o.r1.isSome

/-- The lowering computes what the evaluator computes, in an operand of the given shape. -/
structure Lowers (m : Machine) (vs : Variables) (esc : Nat → Bool) (sh : Shape) (lower : Lower)
    (eval : Eval) : Prop where
  grows : ∀ c, c.For vs esc → Grows c.blockId c (lower c).2
  operand : ∀ c, c.For vs esc → IsOperand vs (lower c).2.varId sh (lower c).1
  runs : ∀ c, c.For vs esc → ∀ F s, Completes F (lower c).2 →
    Runs m F vs c.varId c.point (lower c).2.point s (eval (s.view vs)) fun w s' =>
      valueOf m s'.trace s'.env (lower c).1 = w
  settled : sh = .settled → ∀ c, c.For vs esc → ∀ t,
    (lower c).2.irRedirectLastDst (lower c).1 t = none
  produced : sh = .produced → ∀ c, c.For vs esc → ∃ c₀ I pre,
    (lower c).2 = c₀.irBlockAddInstr { I with dst := some (lower c).1 }
      ∧ Produces m vs c c₀ I (lower c).1 eval pre

section
variable {m : Machine} {vs : Variables} {esc : Nat → Bool}

/-- A producing instruction with a temporary for its destination. -/
theorem runs_finish_tmp
    {F : IrFunction} {n : Nat} {p : Point} {I : IrInstr} {v : IrValue} {o : Operands}
    {s : SizedStore} (hp : F.instrAt p = some { I with dst := some v }) (h : I.op.produces)
    (hI : I.dst = none) (hkind : v.kind = .tmp) (hsize : v.as.varSize = 8) (hn : n ≤ v.varId)
    (htype : I.op = .icmp → v.type ≠ .i8) (ho : I.operands m s.trace s.env = o)
    (hr1 : o.r1.isSome) :
  Runs m F vs n p (p.1, p.2 + 1) s (finish m I o (s.view vs)) fun w s' =>
    valueOf m s'.trace s'.env v = w
  := by
  have hvar : v.kind.isVar := by
    rw [hkind]
    rfl
  have hsize' : irValueByteSize (some v) = 8 :=
    irValueByteSize_of_varSize hvar hsize (by decide)
  have hstep := @sizedStep_finish _ _ _ vs _ _ _ _ hp h hI htype hsize' ho hr1
  cases he : finish m I o (s.view vs) with
  | error a =>
    rw [he] at hstep
    obtain ⟨s', hs', hview⟩ := hstep
    use s', hs' ▸ .step _, hview
  | ok x =>
    obtain ⟨w, a⟩ := x
    rw [he] at hstep
    obtain ⟨hs', hlocals⟩ := hstep
    rw [key_of_tmp hkind] at hs'
    use ⟨Function.update s.env ⟨.tmp, v.varId⟩ w, a.trace, a.log⟩, hs' ▸ .step _
    constructor
    · rw [view_update_tmp]
      exact congrArg (fun l => AstState.mk l a.trace a.log) hlocals.symm
    constructor
    · intro k hk
      apply update_tmp_of_lt
      omega
    · apply (valueOf_tmp hkind _ _).trans
      apply Function.update_self

/-- A producing instruction with a slot for its destination. -/
theorem runs_finish_slot
    {F : IrFunction} {n : Nat} {p : Point} {I : IrInstr} {id : Nat} {o : Operands}
    {s : SizedStore} (hp : F.instrAt p = some { I with dst := some (vs.value id) })
    (h : I.op.produces) (hI : I.dst = none) (ho : I.operands m s.trace s.env = o)
    (hr1 : o.r1.isSome) :
  Runs m F vs n p (p.1, p.2 + 1) s
    (finish m I o (s.view vs) >>= fun x => .ok (x.1, x.2.setLocal id x.1)) fun w s' =>
      valueOf m s'.trace s'.env (vs.value id) = w
  := by
  have hsize : irValueByteSize (some (vs.value id)) = 8 :=
    irValueByteSize_of_varSize (vs.isVar id) (vs.size id) (by decide)
  have htype : I.op = .icmp → (vs.value id).type ≠ .i8 := by
    intro _
    rw [vs.type id]
    decide
  have hstep := @sizedStep_finish _ _ _ vs _ _ _ _ hp h hI htype hsize ho hr1
  cases he : finish m I o (s.view vs) with
  | error a =>
    rw [he] at hstep
    obtain ⟨s', hs', hview⟩ := hstep
    use s', hs' ▸ .step _, hview
  | ok x =>
    obtain ⟨w, a⟩ := x
    rw [he] at hstep
    obtain ⟨hs', hlocals⟩ := hstep
    use ⟨Function.update s.env (vs.value id).key w, a.trace, a.log⟩, hs' ▸ .step _
    constructor
    · rw [view_update_slot]
      exact congrArg (fun l => AstState.setLocal ⟨l, a.trace, a.log⟩ id w) hlocals.symm
    constructor
    · intro k _
      apply update_slot_tmp
    · apply (valueOf_of_isVar (vs.isVar id)).trans
      apply Function.update_self

namespace Produces

variable {c c₀ : IrCtx} {I : IrInstr} {v : IrValue} {eval : Eval}
variable {pre : AstState → Except AstState (Operands × AstState)}

/-- The instruction does what the end of the evaluation does. -/
theorem runs_tmp
    (h : Produces m vs c c₀ I v eval pre) {F : IrFunction} (s : SizedStore)
    (hF : Completes F (c₀.irBlockAddInstr { I with dst := some v })) :
  Runs m F vs c.varId c.point (c₀.irBlockAddInstr { I with dst := some v }).point s
    (eval (s.view vs)) fun w s' => valueOf m s'.trace s'.env v = w
  := by
  have hgrows : Grows c.blockId c₀ (c₀.irBlockAddInstr { I with dst := some v }) :=
    grows_irBlockAddInstr h.grows.ok (ne_phi_of_produces h.op)
  rw [h.eval_eq, point_irBlockAddInstr]
  apply (h.runs F s (hgrows.completes F hF)).bind (le_refl _)
  intro o s' _ ho
  apply runs_finish_tmp (hF.instrAt h.grows.ok) h.op h.dst h.kind h.size h.fresh h.type ho.1 ho.2

/-- With the slot of a local for its destination it does the assignment too. -/
theorem runs_slot
    (h : Produces m vs c c₀ I v eval pre) {F : IrFunction} (s : SizedStore) {id : Nat}
    (hF : Completes F (c₀.irBlockAddInstr { I with dst := some (vs.value id) })) :
  Runs m F vs c.varId c.point (c₀.irBlockAddInstr { I with dst := some (vs.value id) }).point s
    (eval (s.view vs) >>= fun x => .ok (x.1, x.2.setLocal id x.1)) fun w s' =>
      valueOf m s'.trace s'.env (vs.value id) = w
  := by
  have hgrows : Grows c.blockId c₀ (c₀.irBlockAddInstr { I with dst := some (vs.value id) }) :=
    grows_irBlockAddInstr h.grows.ok (ne_phi_of_produces h.op)
  rw [h.eval_eq, bind_assoc, point_irBlockAddInstr]
  apply (h.runs F s (hgrows.completes F hF)).bind (le_refl _)
  intro o s' _ ho
  apply runs_finish_slot (hF.instrAt h.grows.ok) h.op h.dst ho.1 ho.2

/-- `irRedirectLastDst` finds the instruction. -/
theorem redirect
    (h : Produces m vs c c₀ I v eval pre) (t : IrValue) :
  (c₀.irBlockAddInstr { I with dst := some v }).irRedirectLastDst v t
    = some (c₀.irBlockAddInstr { I with dst := some t })
  := by
  have hnop : decide (I.op = .nop) = false := by
    simpa using ne_nop_of_produces h.op
  rw [irRedirectLastDst, if_pos h.kind, instructions_irBlockAddInstr, List.reverse_append,
    List.reverse_singleton, List.singleton_append]
  simp only [List.dropWhile_cons, List.takeWhile_cons, hnop, Bool.false_eq_true, if_false,
    redirectable_of_produces h.op, and_self, if_true, List.reverse_reverse, List.reverse_nil]
  apply congrArg some (setInstructions_setInstructions _ _ _)

/-- Such a lowering is correct. -/
theorem lowers
    {lower : Lower}
    (h : ∀ c, c.For vs esc → ∃ c₀ I pre,
      (lower c).2 = c₀.irBlockAddInstr { I with dst := some (lower c).1 }
        ∧ Produces m vs c c₀ I (lower c).1 eval pre) :
  Lowers m vs esc .produced lower eval
  := by
  constructor
  case grows =>
    intro c hc
    obtain ⟨c₀, I, pre, heq, h⟩ := h c hc
    have hadd : Grows c.blockId c₀ (c₀.irBlockAddInstr { I with dst := some (lower c).1 }) :=
      grows_irBlockAddInstr h.grows.ok (ne_phi_of_produces h.op)
    rw [heq]
    apply h.grows.trans hadd
  case operand =>
    intro c hc
    obtain ⟨c₀, I, pre, heq, h⟩ := h c hc
    right
    rw [heq]
    use h.kind, h.lt, h.size
  case runs =>
    intro c hc F s hF
    obtain ⟨c₀, I, pre, heq, h⟩ := h c hc
    rw [heq] at hF ⊢
    apply h.runs_tmp s hF
  case settled =>
    intro hsh
    cases hsh
  case produced =>
    intro _
    apply h

end Produces

/-- The instruction that `compute` adds, after code that runs to it. -/
theorem produces_compute
    {c c₁ : IrCtx} (hgrows : Grows c.blockId c c₁) {type : IrValueType} {I : IrInstr}
    (hop : I.op.produces) (hdst : I.dst = none) (htype : I.op = .icmp → type ≠ .i8)
    {eval : Eval} {pre : AstState → Except AstState (Operands × AstState)}
    (heval : ∀ a, eval a = pre a >>= fun x => finish m I x.1 x.2)
    (hruns : ∀ F s, Completes F c₁ →
      Runs m F vs c.varId c.point c₁.point s (pre (s.view vs)) fun o s' =>
        I.operands m s'.trace s'.env = o ∧ o.r1.isSome) :
  Produces m vs c (c₁.irTmp type 8).2 I (c₁.irTmp type 8).1 eval pre
  := by
  have htmp : Grows c.blockId c₁ (c₁.irTmp type 8).2 := grows_irTmp hgrows.ok type 8
  constructor
  case grows => apply hgrows.trans htmp
  case op => apply hop
  case dst => apply hdst
  case kind => rfl
  case fresh => apply hgrows.varId_le
  case lt => apply Nat.lt_succ_self
  case size => rfl
  case type => apply htype
  case eval_eq => apply heval
  case runs =>
    intro F s hF
    apply hruns F s (htmp.completes F hF)

/-- The execution of an operator or a call by its opcode. -/
theorem finish_of_yields
    {I : IrInstr} (h : I.op.yields) (hdst : I.dst = none) (o : Operands) (a : AstState) :
  finish m I o a = exec m I.op I.cmpKind o a
  := by
  have hentry : I.entry o = [(I.op, o)] := by
    rw [IrInstr.entry, if_pos]
    cases hop : I.op <;> rw [hop] at h <;> first | cases h; done | simp [IrInstr.computes, hop, hdst]
  have heffect :
      effect m a.trace I o = effect m a.trace { op := I.op, cmpKind := I.cmpKind } o := by
    apply effect_of_produces
    · rw [IrOp.produces, h, Bool.true_or]
    · rfl
    · rfl
  rw [finish, hentry, heffect]
  rfl

/-! ### Operands of instructions -/

/-- The operands of an operator. -/
theorem operands_of_yields
    {I : IrInstr} (h : I.op.yields) (hcall : I.op ≠ .call) (tr : List Event) (σ : Env) :
  I.operands m tr σ = ⟨none, I.r1.map (valueOf m tr σ), I.r2.map (valueOf m tr σ), none, []⟩
  := by
  rw [IrInstr.operands, if_neg hcall]
  cases hop : I.op <;> rw [hop] at h <;> first | cases h; done | rfl

theorem toIr_yields (op : AstBinOp) (issigned : Bool) :
  (op.toIr issigned).1.yields
  := by
  cases op <;> cases issigned <;> rfl

theorem toIr_ne_call (op : AstBinOp) (issigned : Bool) :
  (op.toIr issigned).1 ≠ .call
  := by
  cases op <;> cases issigned <;> decide

theorem irCompoundAssignToIrOp_yields (op : AstAssignOp) (issigned : Bool) :
  (irCompoundAssignToIrOp op issigned).yields
  := by
  cases op <;> cases issigned <;> rfl

theorem irCompoundAssignToIrOp_ne_call (op : AstAssignOp) (issigned : Bool) :
  irCompoundAssignToIrOp op issigned ≠ .call
  := by
  cases op <;> cases issigned <;> decide

theorem produces_of_yields {op : IrOp} (h : op.yields) :
  op.produces
  := by
  rw [IrOp.produces, h, Bool.true_or]

/-! ### Literals and locals -/

theorem lowers_literal (i64 : Word) :
  Lowers m vs esc .settled (fun c => c.irConstInt .i64 i64) (fun a => return (i64, a))
  := by
  constructor
  case grows =>
    intro c hc
    apply grows_irConstInt hc.ok
  case operand =>
    intro c _
    left
    rfl
  case runs =>
    intro c _ F s _
    apply Runs.done
    rfl
  case settled =>
    intro _ c _ t
    rfl
  case produced =>
    intro h
    cases h

/-- A local that is read where it is used. -/
theorem lowers_slot {var : AstLVar} (hesc : esc var.id = false) :
  Lowers m vs esc (.slot var.id) (fun c => c.irLowerLVar var)
    (fun a => return (a.locals var.id, a))
  := by
  have heq : ∀ c : IrCtx, c.For vs esc → c.irLowerLVar var = (vs.value var.id, c) := by
    intro c hc
    rw [irLowerLVar, hc.escape, hesc, irFnGetVar, hc.vars]
    rfl
  constructor
  case grows =>
    intro c hc
    rw [heq c hc]
    apply grows_refl hc.ok
  case operand =>
    intro c hc
    rw [heq c hc]
    rfl
  case runs =>
    intro c hc F s _
    simp only [heq c hc]
    apply Runs.done
    apply valueOf_slot
  case settled =>
    intro h
    cases h
  case produced =>
    intro h
    cases h

/-- The load of a local into a temporary. -/
theorem produces_load {c : IrCtx} (hc : c.For vs esc) (id : Nat) :
  Produces m vs c (c.irTmp .i64 8).2 { op := .load, r1 := c.irFnGetVar id }
    (c.irTmp .i64 8).1 (fun a => return (a.locals id, a))
    (fun a => return (⟨none, some (a.locals id), none, none, []⟩, a))
  := by
  apply produces_compute (grows_refl hc.ok)
  case hop => rfl
  case hdst => rfl
  case htype =>
    intro h
    cases h
  case heval =>
    intro a
    have hlog : a.log ++ [] = a.log := List.append_nil _
    have htrace : a.trace ++ [] = a.trace := List.append_nil _
    change Except.ok (a.locals id, a) = Except.ok (a.locals id, AstState.mk a.locals (a.trace ++ [])
      (a.log ++ []))
    rw [hlog, htrace]
  case hruns =>
    intro F s _
    apply Runs.done
    constructor
    · have hslot : valueOf m s.trace s.env (c.irFnGetVar id) = (s.view vs).locals id := by
        rw [irFnGetVar, hc.vars]
        apply valueOf_slot
      rw [← hslot]
      rfl
    · rfl

/-- A local that is loaded where it is read. -/
theorem lowers_loaded {var : AstLVar} (hesc : esc var.id = true) :
  Lowers m vs esc .produced (fun c => c.irLowerLVar var)
    (fun a => return (a.locals var.id, a))
  := by
  apply Produces.lowers
  intro c hc
  have heq : c.irLowerLVar var
      = c.compute .i64 { op := .load, r1 := c.irFnGetVar var.id } := by
    rw [irLowerLVar, hc.escape, hesc]
    rfl
  rw [heq]
  exact ⟨_, _, _, rfl, produces_load hc var.id⟩

/-! ### Unary operators -/

/-- The operands of an operator on one value. -/
def operands₁ (w : Word) : Operands := ⟨none, some w, none, none, []⟩

/-- The operands of an operator on two values. -/
def operands₂ (v w : Word) : Operands := ⟨none, some v, some w, none, []⟩

/-- The instruction of an operator, without its destination. -/
def opInstr (op : IrOp) (cmp : IrCmpKind) (r1 r2 : Option IrValue) : IrInstr :=
  { op := op, r1 := r1, r2 := r2, cmpKind := cmp }

theorem finish_opInstr
    {op : IrOp} (h : op.yields) (cmp : IrCmpKind) (r1 r2 : Option IrValue) (o : Operands)
    (a : AstState) :
  finish m (opInstr op cmp r1 r2) o a = exec m op cmp o a
  := by
  apply finish_of_yields
  · apply h
  · rfl

/-- An operator on one value, after the code of its operand. -/
theorem Lowers.produces₁
    {sh : Shape} {lower : Lower} {eval : Eval} (h : Lowers m vs esc sh lower eval) {c : IrCtx}
    (hc : c.For vs esc) {op : IrOp} (hop : op.yields) (hcall : op ≠ .call) (hcmp : op ≠ .icmp)
    (type : IrValueType) :
  Produces m vs c ((lower c).2.irTmp type 8).2 (opInstr op .eq (lower c).1 none)
    ((lower c).2.irTmp type 8).1 (fun a => eval a >>= fun x => exec₁ m op x.1 x.2)
    (fun a => eval a >>= fun x => return (operands₁ x.1, x.2))
  := by
  apply produces_compute (h.grows c hc) (produces_of_yields hop)
  case hdst => rfl
  case htype =>
    intro h
    apply absurd h hcmp
  case heval =>
    intro a
    rw [bind_assoc]
    apply bind_congr
    intro x
    apply (finish_opInstr hop _ _ _ _ _).symm
  case hruns =>
    intro F s hF
    apply (h.runs c hc F s hF).bind (le_refl _)
    intro w s' _ hw
    apply Runs.done
    rw [operands_of_yields hop hcall]
    constructor
    · rw [← hw]
      rfl
    · rfl

theorem Lowers.unOp
    {sh : Shape} {lower : Lower} {eval : Eval} (h : Lowers m vs esc sh lower eval)
    (op : AstUnOp) :
  Lowers m vs esc (if op = .plus then sh else .produced) (irLowerUnOp op lower)
    (evalUnOp m op eval)
  := by
  cases op with
  | plus =>
    have heval : evalUnOp m .plus eval = eval := by
      funext a
      rw [evalUnOp]
      cases eval a <;> rfl
    rw [heval]
    apply h
  | minus =>
    apply Produces.lowers
    intro c hc
    exact ⟨_, _, _, rfl, h.produces₁ hc (show IrOp.ineg.yields from rfl) (by decide) (by decide) _⟩
  | bitNot =>
    apply Produces.lowers
    intro c hc
    exact ⟨_, _, _, rfl, h.produces₁ hc (show IrOp.not.yields from rfl) (by decide) (by decide) _⟩
  | logNot =>
    apply Produces.lowers
    intro c hc
    use (((lower c).2.irTmp .i64 8).2.irConstInt .i64 0).2
    use opInstr .icmp .eq (lower c).1 (((lower c).2.irTmp .i64 8).2.irConstInt .i64 0).1
    use fun a => eval a >>= fun x => return (operands₂ x.1 0, x.2)
    constructor
    · rfl
    have htmp : Grows c.blockId (lower c).2 ((lower c).2.irTmp .i64 8).2 :=
      grows_irTmp (h.grows c hc).ok .i64 8
    have hconst := htmp.trans (grows_irConstInt htmp.ok .i64 0)
    constructor
    case grows => apply (h.grows c hc).trans hconst
    case op => rfl
    case dst => rfl
    case kind => rfl
    case fresh => apply (h.grows c hc).varId_le
    case lt => apply Nat.lt_succ_self
    case size => rfl
    case type =>
      intro _ h
      cases h
    case eval_eq =>
      intro a
      rw [bind_assoc]
      apply bind_congr
      intro x
      apply (finish_opInstr rfl _ _ _ _ _).symm
    case runs =>
      intro F s hF
      apply (h.runs c hc F s (hconst.completes F hF)).bind (le_refl _)
      intro w s' _ hw
      apply Runs.done
      have hcall : IrOp.icmp ≠ .call := by decide
      rw [operands_of_yields rfl hcall, ← hw]
      exact ⟨rfl, rfl⟩

/-! ### Binary operators -/

/-- The addition of the instruction of an operator after its operands. -/
def lowerOp (op : IrOp) (cmp : IrCmpKind) (left right : Lower) : Lower := fun c =>
  let (lhs, c) := left c
  let (rhs, c) := right c
  c.compute .i64 { op := op, r1 := lhs, r2 := rhs, cmpKind := cmp }

/-- The application of an operator, of which the left operand waits for the right one. -/
def evalOp (m : Machine) (op : IrOp) (cmp : IrCmpKind) (sh : Shape) (left right : Eval) : Eval :=
  fun a => do
    let (v, a) ← left a
    let (w, a) ← right a
    exec₂ m op cmp (sh.read v a) w a

/-- An operator on two values: the code of the left operand, the code of the right one. -/
theorem Lowers.op
    {shl shr : Shape} {left right : Lower} {evalLeft evalRight : Eval}
    (hl : Lowers m vs esc shl left evalLeft) (hr : Lowers m vs esc shr right evalRight)
    {op : IrOp} (hop : op.yields) (hcall : op ≠ .call) (cmp : IrCmpKind) :
  Lowers m vs esc .produced (lowerOp op cmp left right) (evalOp m op cmp shl evalLeft evalRight)
  := by
  apply Produces.lowers
  intro c hc
  have hl' := hl.grows c hc
  have hr' := (hr.grows _ (hl'.for hc)).weaken hl'.blockId_le
  use ((right (left c).2).2.irTmp .i64 8).2
  use opInstr op cmp (left c).1 (right (left c).2).1
  use fun a => evalLeft a >>= fun x => evalRight x.2 >>= fun y =>
    return (operands₂ (shl.read x.1 y.2) y.1, y.2)
  constructor
  · rfl
  apply produces_compute (hl'.trans hr') (produces_of_yields hop)
  case hdst => rfl
  case htype =>
    intro _ h
    cases h
  case heval =>
    intro a
    simp only [bind_assoc, pure_bind]
    apply bind_congr
    intro x
    apply bind_congr
    intro y
    apply (finish_opInstr hop _ _ _ _ _).symm
  case hruns =>
    intro F s hF
    apply (hl.runs c hc F s (hr'.completes F hF)).bind hl'.varId_le
    intro v s₁ _ hv
    apply (hr.runs _ (hl'.for hc) F s₁ hF).bind (le_refl _)
    intro w s₂ hkeeps hw
    apply Runs.done
    have hread := (hl.operand c hc).read (m := m) hkeeps
    rw [operands_of_yields hop hcall]
    constructor
    · rw [← hw, ← hv, ← hread]
      rfl
    · rfl

/-- The end of `irLowerBinOpExpr`. -/
theorem Lowers.operands
    {shl shr : Shape} {left right : Lower} {evalLeft evalRight : Eval}
    (hl : Lowers m vs esc shl left evalLeft) (hr : Lowers m vs esc shr right evalRight)
    (op : AstBinOp) (issigned : Bool) :
  Lowers m vs esc .produced (irLowerOperands op issigned left right)
    (evalOperands m op issigned shl evalLeft evalRight)
  := hl.op hr (toIr_yields op issigned) (toIr_ne_call op issigned) (op.toIr issigned).2

/-! ### Stores -/

/-- The shape of a value after it has been stored. -/
def Shape.stored : Shape → Shape
  | .produced => .settled
  | sh => sh

theorem IsOperand.stored {n : Nat} {sh : Shape} {v : IrValue} (h : IsOperand vs n sh v) :
  IsOperand vs n sh.stored v
  := by
  cases sh <;> apply h

/-- Operands are variables or constants. -/
theorem IsOperand.isPlain {n : Nat} {sh : Shape} {v : IrValue} (h : IsOperand vs n sh v) :
  v.isPlain
  := by
  have htmp : v.kind = .tmp → v.isPlain := by
    intro hk
    rw [IrValue.isPlain, hk]
    rfl
  have hconst : v.kind = .constInt → v.isPlain := by
    intro hk
    rw [IrValue.isPlain, hk]
    rfl
  cases sh with
  | slot id =>
    rw [show v = vs.value id from h, IrValue.isPlain, vs.isVar id, Bool.or_true]
  | phi => apply htmp h.1
  | settled => rcases h with h | h; exacts [hconst h, htmp h.1]
  | produced => rcases h with h | h; exacts [hconst h, htmp h.1]

/-- A store of a value to a local. -/
theorem reaches_store
    {F : IrFunction} {p : Point} {id : Nat} {v : IrValue}
    (hp : F.instrAt p = some { op := .store, dst := vs.value id, r1 := v }) (s : SizedStore) :
  Reaches m F (.at p s)
    (.at (p.1, p.2 + 1)
      { s with env := Function.update s.env (vs.value id).key (valueOf m s.trace s.env v) })
  := by
  have hsize : irValueByteSize (some (vs.value id)) = 8 :=
    irValueByteSize_of_varSize (vs.isVar id) (vs.size id) (by decide)
  have hstep := sizedStep_straight (m := m) hp rfl (by simp) s
  have hassign : assignSized (some (vs.value id)) (some (valueOf m s.trace s.env v)) s.env
      = Function.update s.env (vs.value id).key (valueOf m s.trace s.env v) := by
    simp only [assignSized, assign, Option.bind_some, Option.map_some, IrValue.stored, hsize]
  rw [← hassign]
  have heffect : ∀ o : Operands, effect m s.trace
      { op := .store, dst := vs.value id, r1 := v } o = some (o.r1, []) := by
    intro o
    simp only [effect, vs.isVar id, if_true]
  have hentry : ∀ o, IrInstr.entry { op := .store, dst := vs.value id, r1 := v } o = [] := by
    intro o
    rfl
  simp only [heffect, hentry, List.append_nil] at hstep
  exact hstep ▸ .step _

/-- After a store there is nothing to redirect. -/
theorem irRedirectLastDst_store (c : IrCtx) (d r1 : Option IrValue) (v t : IrValue) :
  (c.irBlockAddInstr { op := .store, dst := d, r1 := r1 }).irRedirectLastDst v t = none
  := by
  rw [irRedirectLastDst]
  split
  · rw [instructions_irBlockAddInstr, List.reverse_append, List.reverse_singleton,
      List.singleton_append, List.dropWhile_cons_of_neg (by simp)]
    simp [redirectable]
  · rfl

/-- A value that is stored to a local. -/
theorem Lowers.store
    {sh : Shape} {lower : Lower} {eval : Eval} (h : Lowers m vs esc sh lower eval) (id : Nat) :
  Lowers m vs esc sh.stored
    (fun c => ((lower c).1,
      (lower c).2.irBlockAddInstr { op := .store, dst := vs.value id, r1 := (lower c).1 }))
    (fun a => eval a >>= fun x => return (x.1, x.2.setLocal id x.1))
  := by
  have hadd : ∀ c, c.For vs esc → Grows c.blockId (lower c).2
      ((lower c).2.irBlockAddInstr { op := .store, dst := vs.value id, r1 := (lower c).1 }) := by
    intro c hc
    apply grows_irBlockAddInstr (h.grows c hc).ok
    simp
  constructor
  case grows =>
    intro c hc
    apply (h.grows c hc).trans (hadd c hc)
  case operand =>
    intro c hc
    apply (h.operand c hc).stored
  case runs =>
    intro c hc F s hF
    apply (h.runs c hc F s ((hadd c hc).completes F hF)).bind (h.grows c hc).varId_le
    intro w s' _ hw
    have hstore := reaches_store (m := m) (hF.instrAt (h.grows c hc).ok) s'
    rw [hw] at hstore
    have hview := view_update_slot vs s'.env id w s'.trace s'.log
    rw [point_irBlockAddInstr]
    use { s' with env := Function.update s'.env (vs.value id).key w }, hstore, hview
    constructor
    · intro k _
      apply update_slot_tmp
    · rw [← hw]
      apply valueOf_congr (h.operand c hc).isPlain
      intro hvar
      by_cases hkey : (lower c).1.key = (vs.value id).key
      · simp only [hkey, Function.update_self]
        rw [valueOf_of_isVar hvar, hkey]
      · simp only [Function.update_of_ne hkey]
  case settled =>
    intro _ c hc t
    apply irRedirectLastDst_store
  case produced =>
    intro hsh
    cases sh <;> cases hsh

/-! ### Assignments -/

/-- Lowerings that agree on the contexts that matter. -/
theorem Lowers.congr
    {sh : Shape} {lower lower' : Lower} {eval : Eval} (h : Lowers m vs esc sh lower eval)
    (heq : ∀ c, c.For vs esc → lower' c = lower c) :
  Lowers m vs esc sh lower' eval
  := by
  constructor
  case grows =>
    intro c hc
    rw [heq c hc]
    apply h.grows c hc
  case operand =>
    intro c hc
    rw [heq c hc]
    apply h.operand c hc
  case runs =>
    intro c hc
    rw [heq c hc]
    apply h.runs c hc
  case settled =>
    intro hsh c hc
    rw [heq c hc]
    apply h.settled hsh c hc
  case produced =>
    intro hsh c hc
    rw [heq c hc]
    apply h.produced hsh c hc

/-- A value that is not a phi has 8 bytes. -/
theorem IsOperand.widen
    {n : Nat} {sh : Shape} {v : IrValue} (h : IsOperand vs n sh v) (hsh : sh ≠ .phi)
    (c : IrCtx) (issigned : Bool) :
  c.irWidenToTargetWidth v issigned = (v, c)
  := by
  have hconst : v.kind = .constInt → ¬(v.kind.isVar ∧ v.as.varSize < 8) := by
    rintro hk ⟨hvar, -⟩
    rw [hk] at hvar
    cases hvar
  have hwide : ¬(v.kind.isVar ∧ v.as.varSize < 8) := by
    cases sh with
    | slot id =>
      rw [show v = vs.value id from h, vs.size id]
      omega
    | phi => apply absurd rfl hsh
    | settled =>
      rcases h with h | h
      · apply hconst h
      · rw [h.2.2]
        omega
    | produced =>
      rcases h with h | h
      · apply hconst h
      · rw [h.2.2]
        omega
  rw [irWidenToTargetWidth, if_neg hwide]

/-- The widening of a value. -/
theorem Lowers.widen
    {sh : Shape} {lower : Lower} {eval : Eval} (h : Lowers m vs esc sh lower eval)
    (issigned : Bool) :
  Lowers m vs esc sh.widened
    (fun c => (lower c).2.irWidenToTargetWidth (lower c).1 issigned)
    (fun a => eval a >>= fun x => evalWiden m sh issigned x.1 x.2)
  := by
  by_cases hsh : sh = .phi
  · subst hsh
    apply Produces.lowers
    intro c hc
    obtain ⟨hkind, -, hsize⟩ := h.operand c hc
    have hnarrow : (lower c).1.kind.isVar ∧ (lower c).1.as.varSize < 8 := by
      rw [hkind, hsize]
      exact ⟨rfl, by omega⟩
    have hwiden : (lower c).2.irWidenToTargetWidth (lower c).1 issigned
        = (lower c).2.compute .i64
            { op := if issigned then .sext else .zext, r1 := (lower c).1 } :=
      if_pos hnarrow
    rw [hwiden]
    have hop : (if issigned then IrOp.sext else IrOp.zext).yields := by
      cases issigned <;> rfl
    have hcall : (if issigned then IrOp.sext else IrOp.zext) ≠ .call := by
      cases issigned <;> decide
    have hcmp : (if issigned then IrOp.sext else IrOp.zext) ≠ .icmp := by
      cases issigned <;> decide
    exact ⟨_, _, _, rfl, h.produces₁ hc hop hcall hcmp .i64⟩
  · have hwidened : sh.widened = sh := by
      cases sh <;> first | rfl | (exact absurd rfl hsh)
    have heval : (fun a => eval a >>= fun x => evalWiden m sh issigned x.1 x.2) = eval := by
      funext a
      simp only [evalWiden, if_neg hsh]
      apply bind_pure
    rw [hwidened, heval]
    apply h.congr
    intro c hc
    apply (h.operand c hc).widen hsh

/-- The assignment of a value of 8 bytes to a local. -/
theorem Lowers.assignTo
    {sh : Shape} {lower : Lower} {eval : Eval} (h : Lowers m vs esc sh lower eval)
    (hsh : sh ≠ .phi) (id : Nat) :
  Lowers m vs esc (sh.assigned (vs.pinned id) id)
    (fun c => (lower c).2.irAssignTo (c.irFnGetVar id) (lower c).1)
    (fun a => eval a >>= fun x => return (x.1, x.2.setLocal id x.1))
  := by
  have htarget : ∀ c : IrCtx, c.For vs esc → c.irFnGetVar id = vs.value id := by
    intro c hc
    rw [irFnGetVar, hc.vars]
  -- without a producer to redirect, the value is stored
  have hstore : (∀ c, c.For vs esc → (vs.value id).pinnedReg = none →
        (lower c).2.irRedirectLastDst (lower c).1 (vs.value id) = none) →
      Lowers m vs esc sh.stored
        (fun c => (lower c).2.irAssignTo (c.irFnGetVar id) (lower c).1)
        (fun a => eval a >>= fun x => return (x.1, x.2.setLocal id x.1)) := by
    intro hnone
    apply (h.store id).congr
    intro c hc
    rw [htarget c hc, irAssignTo]
    by_cases hpin : (vs.value id).pinnedReg = none
    · simp only [if_pos hpin, hnone c hc hpin]
    · simp only [if_neg hpin]
  cases sh with
  | phi => apply absurd rfl hsh
  | settled =>
    apply hstore
    intro c hc _
    apply h.settled rfl c hc
  | slot y =>
    apply hstore
    intro c hc _
    rw [show (lower c).1 = vs.value y from h.operand c hc, irRedirectLastDst,
      if_neg (vs.kind_ne_tmp y)]
  | produced =>
    by_cases hpin : (vs.value id).pinnedReg = none
    · have hpinned : vs.pinned id = false := by
        rw [Variables.pinned, hpin]
        rfl
      rw [hpinned]
      have heq : ∀ c, c.For vs esc → ∃ c₀ I pre,
          (lower c).2.irAssignTo (c.irFnGetVar id) (lower c).1
              = (vs.value id, c₀.irBlockAddInstr { I with dst := some (vs.value id) })
            ∧ Produces m vs c c₀ I (lower c).1 eval pre := by
        intro c hc
        obtain ⟨c₀, I, pre, hlower, hprod⟩ := h.produced rfl c hc
        use c₀, I, pre
        rw [htarget c hc, irAssignTo, if_pos hpin, hlower, hprod.redirect]
        exact ⟨rfl, hprod⟩
      constructor
      case grows =>
        intro c hc
        obtain ⟨c₀, I, pre, hlower, hprod⟩ := heq c hc
        have hadd : Grows c.blockId c₀ (c₀.irBlockAddInstr { I with dst := some (vs.value id) }) :=
          grows_irBlockAddInstr hprod.grows.ok (ne_phi_of_produces hprod.op)
        simp only [hlower]
        apply hprod.grows.trans hadd
      case operand =>
        intro c hc
        obtain ⟨c₀, I, pre, hlower, hprod⟩ := heq c hc
        simp only [hlower]
        rfl
      case runs =>
        intro c hc F s hF
        obtain ⟨c₀, I, pre, hlower, hprod⟩ := heq c hc
        simp only [hlower] at hF ⊢
        apply hprod.runs_slot s hF
      case settled =>
        intro h
        cases h
      case produced =>
        intro h
        cases h
    · have hpinned : vs.pinned id = true := by
        rw [Variables.pinned, Option.isSome_iff_ne_none]
        apply hpin
      rw [hpinned]
      apply hstore
      intro _ _ hnone
      apply absurd hnone hpin

theorem Shape.widened_ne_phi (sh : Shape) :
  sh.widened ≠ .phi
  := by
  cases sh <;> simp [Shape.widened]

theorem Lowers.assign
    {sh : Shape} {right : Lower} {eval : Eval} (h : Lowers m vs esc sh right eval)
    (left : AstLVar) (srcSigned : Bool) :
  Lowers m vs esc (sh.widened.assigned (vs.pinned left.id) left.id)
    (irLowerAssign left srcSigned right) (evalAssign m left.id sh srcSigned eval)
  := by
  have hassign := (h.widen srcSigned).assignTo sh.widened_ne_phi left.id
  have heval : evalAssign m left.id sh srcSigned eval = fun a =>
      (eval a >>= fun x => evalWiden m sh srcSigned x.1 x.2) >>= fun x =>
        return (x.1, x.2.setLocal left.id x.1) := by
    funext a
    simp only [evalAssign, bind_assoc]
  rw [heval]
  apply hassign

/-- A load of a local, as an operand. -/
theorem lowers_compute_load (id : Nat) :
  Lowers m vs esc .produced (fun c => c.compute .i64 { op := .load, r1 := c.irFnGetVar id })
    (fun a => return (a.locals id, a))
  := by
  apply Produces.lowers
  intro c hc
  exact ⟨_, _, _, rfl, produces_load hc id⟩

theorem Lowers.compoundAssign
    {sh : Shape} {right : Lower} {eval : Eval} (h : Lowers m vs esc sh right eval)
    (op : AstAssignOp) (left : AstLVar) :
  Lowers m vs esc (Shape.produced.assigned (vs.pinned left.id) left.id)
    (irLowerCompoundAssign op left right)
    (evalCompoundAssign m (irCompoundAssignToIrOp op left.issigned) left.id eval)
  := by
  have hop := (@lowers_compute_load m vs esc left.id).op h
    (irCompoundAssignToIrOp_yields op left.issigned)
    (irCompoundAssignToIrOp_ne_call op left.issigned) .eq
  have hassign := hop.assignTo (by simp) left.id
  have heval : evalCompoundAssign m (irCompoundAssignToIrOp op left.issigned) left.id eval
      = fun a => evalOp m (irCompoundAssignToIrOp op left.issigned) .eq .produced
          (fun a => return (a.locals left.id, a)) eval a >>= fun x =>
            return (x.1, x.2.setLocal left.id x.1) := by
    funext a
    simp only [evalCompoundAssign, evalOp, pure_bind, bind_assoc]
    rfl
  rw [heval]
  apply hassign

/-! ### Increments and calls -/

/-- What `compute` adds, when its operands are known. -/
theorem runs_compute
    {F : IrFunction} {n : Nat} {c : IrCtx} (hc : c.Ok) (hn : n ≤ c.varId) {op : IrOp}
    (hop : op.yields) (hcall : op ≠ .call) (cmp : IrCmpKind) {lhs rhs : IrValue} {v w : Word}
    {s : SizedStore} (hv : valueOf m s.trace s.env lhs = v) (hw : valueOf m s.trace s.env rhs = w)
    (hF : Completes F (c.compute .i64 (opInstr op cmp lhs rhs)).2) :
  Runs m F vs n c.point (c.compute .i64 (opInstr op cmp lhs rhs)).2.point s
    (exec₂ m op cmp v w (s.view vs)) fun x s' =>
      valueOf m s'.trace s'.env (c.compute .i64 (opInstr op cmp lhs rhs)).1 = x
  := by
  have htmp : Grows c.blockId c (c.irTmp .i64 8).2 := grows_irTmp hc .i64 8
  have hpoint : (c.compute .i64 (opInstr op cmp lhs rhs)).2.point
      = (c.point.1, c.point.2 + 1) := point_irBlockAddInstr _ _
  have hfinish : finish m (opInstr op cmp lhs rhs) (operands₂ v w) (s.view vs)
      = exec₂ m op cmp v w (s.view vs) := finish_opInstr hop _ _ _ _ _
  rw [hpoint, ← hfinish]
  apply runs_finish_tmp (hF.instrAt htmp.ok) (produces_of_yields hop) rfl rfl rfl hn
  · intro _ h
    cases h
  · rw [operands_of_yields hop hcall, ← hv, ← hw]
    rfl
  · rfl

/-- The code of an increment or a decrement, up to the store. -/
def lowerUpdate (op : IrOp) (id : Nat) : Lower :=
  lowerOp op .eq (fun c => c.compute .i64 { op := .load, r1 := c.irFnGetVar id })
    (fun c => c.irConstInt .i64 1)

/-- The load, the operator and the store of an increment: the temporaries of the old and of
the new value keep them. -/
theorem runs_lowerUpdate
    {F : IrFunction} {c : IrCtx} (hc : c.For vs esc) {op : IrOp} (hop : op.yields)
    (hcall : op ≠ .call) (id : Nat) (s : SizedStore)
    (hF : Completes F ((lowerUpdate op id c).2.irBlockAddInstr
      { op := .store, dst := vs.value id, r1 := (lowerUpdate op id c).1 })) :
  Runs m F vs c.varId c.point
    ((lowerUpdate op id c).2.irBlockAddInstr
      { op := .store, dst := vs.value id, r1 := (lowerUpdate op id c).1 }).point s
    (exec₂ m op .eq ((s.view vs).locals id) 1 (s.view vs) >>= fun x =>
      pure (x.1, x.2.setLocal id x.1))
    fun x s' =>
      valueOf m s'.trace s'.env (c.irTmp .i64 8).1 = (s.view vs).locals id
        ∧ valueOf m s'.trace s'.env (lowerUpdate op id c).1 = x
  := by
  have hload := @lowers_compute_load m vs esc id
  have h₁ := hload.grows c hc
  have h₂ : Grows c.blockId (c.compute .i64 { op := .load, r1 := c.irFnGetVar id }).2
      ((c.compute .i64 { op := .load, r1 := c.irFnGetVar id }).2.irConstInt .i64 1).2 :=
    grows_irConstInt h₁.ok .i64 1
  have h₃ : Grows c.blockId _ (lowerUpdate op id c).2 :=
    grows_compute h₂.ok .i64 (I := opInstr op .eq _ _)
      (ne_phi_of_produces (produces_of_yields hop))
  have h₄ : Grows c.blockId (lowerUpdate op id c).2
      ((lowerUpdate op id c).2.irBlockAddInstr
        { op := .store, dst := vs.value id, r1 := (lowerUpdate op id c).1 }) :=
    grows_irBlockAddInstr h₃.ok (by simp)
  have hF₃ := h₄.completes F hF
  have hF₁ := h₂.completes F (h₃.completes F hF₃)
  obtain ⟨s₁, hreach, hview, hkeeps, hcur⟩ := hload.runs c hc F s hF₁
  rw [← hview] at hcur ⊢
  apply Runs.prepend hreach hkeeps h₁.varId_le
  have hone : valueOf m s₁.trace s₁.env
      ((c.compute .i64 { op := .load, r1 := c.irFnGetVar id }).2.irConstInt .i64 1).1 = 1 :=
    valueOf_of_constInt rfl
  have hstep := @runs_compute m vs _ _ _ h₂.ok (le_refl _) _ hop hcall .eq _ _ _ _ _ hcur hone hF₃
  apply hstep.bind (le_refl _)
  intro w s₂ hkeeps₂ hw
  have hstore := reaches_store (m := m) (hF.instrAt h₃.ok) s₂
  rw [show valueOf m s₂.trace s₂.env (lowerUpdate op id c).1 = w from hw] at hstore
  have hpoint := point_irBlockAddInstr (lowerUpdate op id c).2
    { op := .store, dst := vs.value id, r1 := (lowerUpdate op id c).1 }
  rw [hpoint]
  use { s₂ with env := Function.update s₂.env (vs.value id).key w }, hstore,
    view_update_slot vs s₂.env id w s₂.trace s₂.log
  constructor
  · intro k _
    apply update_slot_tmp
  constructor
  · rw [← hcur]
    apply (valueOf_update_slot vs rfl _ _ _ _).trans
    apply hkeeps₂.valueOf rfl (Nat.lt_succ_self _)
  · rw [← hw]
    apply valueOf_update_slot vs rfl

/-- An increment or a decrement of a local. -/
theorem lowers_incDec (op : AstIncDec) (operand : AstLVar) :
  Lowers m vs esc .settled (irLowerIncDec op operand) (evalIncDec m op operand.id)
  := by
  have hyields : (if op = .preInc ∨ op = .postInc then IrOp.iadd else .isub).yields := by
    split <;> rfl
  have hcall : (if op = .preInc ∨ op = .postInc then IrOp.iadd else .isub) ≠ .call := by
    split <;> decide
  have hctx : ∀ c, c.For vs esc → (irLowerIncDec op operand c).2
      = (lowerUpdate (if op = .preInc ∨ op = .postInc then .iadd else .isub) operand.id
          c).2.irBlockAddInstr
        { op := .store, dst := vs.value operand.id
          r1 := (lowerUpdate (if op = .preInc ∨ op = .postInc then .iadd else .isub) operand.id
            c).1 } := by
    intro c hc
    rw [← hc.vars]
    rfl
  have hvalue : ∀ c, (irLowerIncDec op operand c).1
      = if op = .postInc ∨ op = .postDec then (c.irTmp .i64 8).1
        else (lowerUpdate (if op = .preInc ∨ op = .postInc then .iadd else .isub) operand.id
          c).1 := by
    intro c
    rfl
  constructor
  case grows =>
    intro c hc
    have hop := (@lowers_compute_load m vs esc operand.id).op
      (lowers_literal 1) hyields hcall .eq
    rw [hctx c hc]
    apply (hop.store operand.id).grows c hc
  case operand =>
    intro c hc
    right
    rw [hctx c hc, hvalue c]
    split
    · exact ⟨rfl, show c.varId < c.varId + 1 + 1 by omega, rfl⟩
    · exact ⟨rfl, show c.varId + 1 < c.varId + 1 + 1 by omega, rfl⟩
  case runs =>
    intro c hc F s hF
    rw [hctx c hc] at hF ⊢
    have hruns := runs_lowerUpdate (m := m) hc hyields hcall operand.id s hF
    have heval : evalIncDec m op operand.id (s.view vs)
        = (exec₂ m (if op = .preInc ∨ op = .postInc then .iadd else .isub) .eq
            ((s.view vs).locals operand.id) 1 (s.view vs) >>= fun x =>
              pure (x.1, x.2.setLocal operand.id x.1)) >>= fun x =>
            pure
              (if op = .postInc ∨ op = .postDec then (s.view vs).locals operand.id else x.1,
                x.2) := by
      simp only [evalIncDec, bind_assoc, pure_bind]
    rw [heval]
    apply hruns.bind (le_refl _)
    intro x s' _ hx
    apply Runs.done
    rw [hvalue c]
    split
    · apply hx.1
    · apply hx.2
  case settled =>
    intro _ c _ t
    apply irRedirectLastDst_store
  case produced =>
    intro h
    cases h

/-- The arguments of a call: when all have been evaluated, each operand is read as its shape
says. -/
structure LowersArgs (m : Machine) (vs : Variables) (esc : Nat → Bool)
    (lower : IrCtx → List IrValue × IrCtx)
    (eval : AstState → Except AstState (List (Shape × Word) × AstState)) : Prop where
  grows : ∀ c, c.For vs esc → Grows c.blockId c (lower c).2
  runs : ∀ c, c.For vs esc → ∀ F s, Completes F (lower c).2 →
    Runs m F vs c.varId c.point (lower c).2.point s (eval (s.view vs)) fun ws s' =>
      (lower c).1.map (valueOf m s'.trace s'.env) = ws.map fun x => x.1.read x.2 (s'.view vs)

theorem lowersArgs_nil :
  LowersArgs m vs esc (fun c => ([], c)) (fun a => return ([], a))
  := by
  constructor
  · intro c hc
    apply grows_refl hc.ok
  · intro c _ F s _
    apply Runs.done
    rfl

theorem Lowers.cons
    {sh : Shape} {lower : Lower} {eval : Eval} (h : Lowers m vs esc sh lower eval)
    {lowerArgs : IrCtx → List IrValue × IrCtx}
    {evalArgs : AstState → Except AstState (List (Shape × Word) × AstState)}
    (hargs : LowersArgs m vs esc lowerArgs evalArgs) :
  LowersArgs m vs esc
    (fun c => ((lower c).1 :: (lowerArgs (lower c).2).1, (lowerArgs (lower c).2).2))
    (fun a => eval a >>= fun x => evalArgs x.2 >>= fun y => return ((sh, x.1) :: y.1, y.2))
  := by
  have hgrows : ∀ c, c.For vs esc → Grows c.blockId (lower c).2 (lowerArgs (lower c).2).2 := by
    intro c hc
    have h₁ := h.grows c hc
    apply (hargs.grows _ (h₁.for hc)).weaken h₁.blockId_le
  constructor
  · intro c hc
    apply (h.grows c hc).trans (hgrows c hc)
  · intro c hc F s hF
    have h₁ := h.grows c hc
    apply (h.runs c hc F s ((hgrows c hc).completes F hF)).bind h₁.varId_le
    intro w s₁ _ hw
    apply (hargs.runs _ (h₁.for hc) F s₁ hF).bind (le_refl _)
    intro ws s₂ hkeeps hws
    apply Runs.done
    have hread := (h.operand c hc).read (m := m) hkeeps
    simp only [List.map_cons, hws, hread, hw]

/-- A call by name. -/
theorem LowersArgs.fnCall
    {lowerArgs : IrCtx → List IrValue × IrCtx}
    {evalArgs : AstState → Except AstState (List (Shape × Word) × AstState)}
    (h : LowersArgs m vs esc lowerArgs evalArgs) (fname : Word) :
  Lowers m vs esc .produced (irLowerFnCall fname lowerArgs) (evalFnCall m fname evalArgs)
  := by
  apply Produces.lowers
  intro c hc
  have htmp : Grows c.blockId c (c.irTmp .i64 8).2 := grows_irTmp hc.ok .i64 8
  have hargs := h.grows _ (htmp.for hc)
  use (lowerArgs (c.irTmp .i64 8).2).2
  use { op := .call, r1 := callWrapper fname, args := (lowerArgs (c.irTmp .i64 8).2).1 }
  use fun a => evalArgs a >>= fun x =>
    pure
      (⟨none, m.operand x.2.trace (callWrapper fname), none, none,
        x.1.map fun y => y.1.read y.2 x.2⟩, x.2)
  constructor
  · rfl
  constructor
  case grows => apply htmp.trans hargs
  case op => rfl
  case dst => rfl
  case kind => rfl
  case fresh => apply le_refl
  case lt => apply hargs.varId_le
  case size => rfl
  case type =>
    intro h
    cases h
  case eval_eq =>
    intro a
    simp only [evalFnCall, bind_assoc, pure_bind]
    apply bind_congr
    intro x
    rw [finish_of_yields]
    · rfl
    · rfl
  case runs =>
    intro F s hF
    have hruns := h.runs _ (htmp.for hc) F s hF
    apply Runs.prepend (Reaches.refl _) (Keeps.refl _ _) htmp.varId_le
    apply hruns.bind (le_refl _)
    intro ws s' _ hws
    apply Runs.done
    constructor
    · rw [← hws]
      rfl
    · rfl

/-! ### Short circuits -/

/-- One byte keeps a truth value. -/
theorem lowByte_ofBool (b : Bool) :
  lowByte (Word.ofBool b) = Word.ofBool b
  := by
  cases b <;> rfl

/-- What a destination of one byte holds. -/
theorem stored_of_varSize_one
    {v : IrValue} (hv : v.kind.isVar) (h : v.as.varSize = 1) (w : Word) :
  v.stored w = lowByte w
  := by
  rw [IrValue.stored, irValueByteSize_of_varSize hv h (by decide)]
  rfl

/-- A truth value as a condition. -/
theorem decide_ofBool (b : Bool) :
  decide (Word.ofBool b ≠ 0) = b
  := by
  cases b <;> rfl

/-- The comparison with zero before a branch leaves the truth of its operand in a
temporary. -/
theorem reaches_cmpNe
    {F : IrFunction} {p : Point} {cond zero boolCond : IrValue}
    (hp : F.instrAt p = some
      { op := .icmp, dst := boolCond, r1 := cond, r2 := zero, cmpKind := .ne })
    (hkind : boolCond.kind = .tmp) (hsize : boolCond.as.varSize = 1)
    (htype : boolCond.type = .i8) {s : SizedStore} (hzero : valueOf m s.trace s.env zero = 0) :
  Reaches m F (.at p s)
    (.at (p.1, p.2 + 1)
      { s with
        env := Function.update s.env ⟨.tmp, boolCond.varId⟩
          (Word.ofBool (valueOf m s.trace s.env cond ≠ 0)) })
  := by
  have hstep := sizedStep_straight (m := m) hp rfl (by simp) s
  have hvar : boolCond.kind.isVar := by
    rw [hkind]
    rfl
  have hoperands : IrInstr.operands m s.trace s.env
      { op := .icmp, dst := boolCond, r1 := cond, r2 := zero, cmpKind := .ne }
      = operands₂ (valueOf m s.trace s.env cond) 0 := by
    rw [← hzero]
    rfl
  have heffect : effect m s.trace
      { op := .icmp, dst := boolCond, r1 := cond, r2 := zero, cmpKind := .ne }
      (operands₂ (valueOf m s.trace s.env cond) 0)
      = some (some (Word.ofBool (valueOf m s.trace s.env cond ≠ 0)), []) := rfl
  have hentry : ∀ o, IrInstr.entry
      { op := .icmp, dst := boolCond, r1 := cond, r2 := zero, cmpKind := .ne } o = [] := by
    intro o
    simp [IrInstr.entry, IrInstr.computes, htype]
  have hassign : assignSized (some boolCond)
      (some (Word.ofBool (valueOf m s.trace s.env cond ≠ 0))) s.env
      = Function.update s.env ⟨.tmp, boolCond.varId⟩
          (Word.ofBool (valueOf m s.trace s.env cond ≠ 0)) := by
    simp only [assignSized, assign, Option.bind_some, Option.map_some,
      stored_of_varSize_one hvar hsize, lowByte_ofBool, key_of_tmp hkind]
  simp only [hoperands, heffect, hentry, List.append_nil, hassign] at hstep
  exact hstep ▸ .step _

/-- A branch goes where the truth of its condition says.  At most the next temporary is
written, and the copies on the edge are made. -/
theorem reaches_irBranch
    {F : IrFunction} {c : IrCtx} (hc : c.Ok) {cond : IrValue} {t f : Nat}
    (hF : Completes F (c.irBranch cond t f)) {s : SizedStore} {b : Bool}
    (hb : decide (valueOf m s.trace s.env cond ≠ 0) = b) :
  ∃ σ p I, p.1 = c.curBlock ∧ I.op.isJump ∧ (∀ k, k ≠ ⟨.tmp, c.varId⟩ → σ k = s.env k)
    ∧ Reaches m F (.at c.point s)
        (.at (if b then t else f, 0)
          { s with
            env := sizedCopy m (s.trace ++ [.branch (some (Word.ofBool b))]) σ
              (F.edgeCopies p (if b then t else f, 0) I)
            trace := s.trace ++ [.branch (some (Word.ofBool b))] })
  := by
  have hok : (c.irNormalizeBranchCondition cond).2.Ok :=
    (grows_irNormalizeBranchCondition (n := 0) hc cond).ok
  have hadd : Grows 0 (c.irNormalizeBranchCondition cond).2
      ((c.irNormalizeBranchCondition cond).2.irBlockAddInstr
        (brInstr (c.irNormalizeBranchCondition cond).1 t f)) :=
    grows_irBlockAddInstr hok (by simp [brInstr])
  have hFbr : Completes F ((c.irNormalizeBranchCondition cond).2.irBlockAddInstr
      (brInstr (c.irNormalizeBranchCondition cond).1 t f)) :=
    (grows_sealCur (n := 0) hadd.ok).completes F hF
  have hbr := hFbr.instrAt hok
  have hFcmp := hadd.completes F hFbr
  rw [irNormalizeBranchCondition] at hbr hFcmp
  split at hbr
  · have hstep := sizedStep_br (m := m) hbr s hb
    use s.env, c.point, brInstr cond t f, rfl, rfl, fun _ _ => rfl
    exact hstep ▸ .step _
  · rename_i helided
    rw [if_neg helided] at hFcmp
    have hconst : Grows 0 c (c.irConstInt .i8 0).2 := grows_irConstInt hc .i8 0
    have htmp := hconst.trans (grows_irTmp hconst.ok .i8 1)
    have hcmp := reaches_cmpNe (m := m) (hFcmp.instrAt htmp.ok) rfl rfl rfl
      (s := s) (valueOf_of_constInt rfl)
    rw [hb] at hcmp
    have hword : valueOf m s.trace
        (Function.update s.env ⟨.tmp, c.varId⟩ (Word.ofBool b))
        ((c.irConstInt .i8 0).2.irTmp .i8 1).1 = Word.ofBool b :=
      (valueOf_tmp rfl _ _).trans (Function.update_self ..)
    have hb' : decide (valueOf m s.trace
        (Function.update s.env ⟨.tmp, c.varId⟩ (Word.ofBool b))
        ((c.irConstInt .i8 0).2.irTmp .i8 1).1 ≠ 0) = b := by
      rw [hword]
      apply decide_ofBool
    rw [point_irBlockAddInstr] at hbr
    have hstep := sizedStep_br (m := m) hbr
      { s with env := Function.update s.env ⟨.tmp, c.varId⟩ (Word.ofBool b) } hb'
    use Function.update s.env ⟨.tmp, c.varId⟩ (Word.ofBool b), (c.point.1, c.point.2 + 1),
      brInstr ((c.irConstInt .i8 0).2.irTmp .i8 1).1 t f, rfl, rfl
    constructor
    · intro k hk
      apply Function.update_of_ne hk
    · apply hcmp.trans
      exact hstep ▸ .step _

/-- A phi has been executed when its block is entered. -/
theorem reaches_phi
    {F : IrFunction} {e : Nat} {J : IrInstr} {l : List IrInstr}
    (hfind : F.findBlock e = some ⟨e, J :: l⟩) (hJ : J.op = .phi) (s : SizedStore) :
  Reaches m F (.at (e, 0) s) (.at (e, 1) s)
  := by
  have hinstr : F.instrAt (e, 0) = some J := by
    rw [IrFunction.instrAt, hfind]
    rfl
  have hstep := sizedStep_straight (m := m) hinstr (by rw [hJ]; rfl) (by rw [hJ]; decide) s
  have heffect : ∀ o, effect m s.trace J o = some (none, []) := by
    intro o
    rw [effect, hJ]
  have hentry : ∀ o, J.entry o = [] := by
    intro o
    rw [IrInstr.entry, IrInstr.computes, hJ]
    rfl
  have hassign : assignSized J.dst none s.env = s.env := by
    cases J.dst <;> rfl
  simp only [heffect, hentry, List.append_nil, hassign] at hstep
  exact hstep ▸ .step _

/-- A block that starts with a phi: it has been made, and nothing has been added to it. -/
theorem grows_phiBlock
    {n : Nat} {c : IrCtx} (hc : c.Ok) {e : Nat} (hn : n ≤ e) (hlt : e < c.blockId)
    (he : e ∉ c.blocks) (k : Word) (J : IrInstr) :
  Grows n c (((c.irFnAddBlock e).irConstInt .i8 k).2.irBlockAddInstr J)
  := by
  have hadd : Grows n c (c.irFnAddBlock e) := grows_irFnAddBlock hc hn hlt he
  constructor
  case varId_le => apply le_refl
  case blockId_le => apply le_refl
  case vars => rfl
  case escape => rfl
  case blocks => apply hadd.blocks
  case cur => apply hadd.cur
  case code =>
    intro id hid _
    apply Function.update_of_ne
    change id ≠ e
    omega
  case completes =>
    intro F hF id hid
    have hne : id ≠ e := by
      rintro rfl
      apply he hid
    obtain ⟨l, hl, hfind, hnil⟩ := hF id (List.mem_append_left _ hid)
    have hcode : (((c.irFnAddBlock e).irConstInt .i8 k).2.irBlockAddInstr J).code id = c.code id :=
      Function.update_of_ne hne _ _
    rw [hcode] at hfind
    use l, hl, hfind
    intro _
    apply hnil hne
  case ok => exact ⟨hadd.ok.cur_mem, hadd.ok.lt⟩

/-- The finished function has the phi at the start of its block. -/
theorem findBlock_phiBlock
    {F : IrFunction} {c : IrCtx} {e : Nat} (hcode : c.code e = []) {k : Word} {J : IrInstr}
    (hF : Completes F (((c.irFnAddBlock e).irConstInt .i8 k).2.irBlockAddInstr J)) :
  ∃ l, (∀ I ∈ l, I.op ≠ .phi) ∧ F.findBlock e = some ⟨e, J :: l⟩
  := by
  obtain ⟨l, hl, hfind, -⟩ := hF e (List.mem_append_right _ (List.mem_singleton_self e))
  have hcode' : (((c.irFnAddBlock e).irConstInt .i8 k).2.irBlockAddInstr J).code e = [J] := by
    have hinstr : ((c.irFnAddBlock e).irConstInt .i8 k).2.instructions = [] := hcode
    apply (instructions_irBlockAddInstr ((c.irFnAddBlock e).irConstInt .i8 k).2 J).trans
    rw [hinstr]
    rfl
  rw [hcode'] at hfind
  use l, hl, hfind

end

/-- The context in which the left operand of a short circuit is lowered: two blocks have been
made. -/
def scLeft (c : IrCtx) : IrCtx := c.irBlockNew.2.irBlockNew.2

/-- The context after its branch. -/
def scBranch (isOr : Bool) (left : Lower) (c : IrCtx) : IrCtx :=
  ((left (scLeft c)).2.irTmp .i8 1).2.irBranch (left (scLeft c)).1
    (if isOr then c.blockId + 1 else c.blockId)
    (if isOr then c.blockId else c.blockId + 1)

/-- The context in which its right operand is lowered. -/
def scRight (isOr : Bool) (left : Lower) (c : IrCtx) : IrCtx :=
  (scBranch isOr left c).irFnAddBlock c.blockId

/-- The phi of a short circuit. -/
def scPhi (isOr : Bool) (left right : Lower) (c : IrCtx) : IrInstr :=
  { op := .phi, dst := ((left (scLeft c)).2.irTmp .i8 1).1
    phiPairs :=
      [⟨((((right (scRight isOr left c)).2.irJump (c.blockId + 1)).irFnAddBlock
            (c.blockId + 1)).irConstInt .i8 (if isOr then 1 else 0)).1,
          (left (scLeft c)).2.curBlock⟩,
        ⟨(right (scRight isOr left c)).1, (right (scRight isOr left c)).2.curBlock⟩] }

/-- The parts of a short circuit. -/
theorem irLowerShortCircuit_eq (isOr : Bool) (left right : Lower) (c : IrCtx) :
  irLowerShortCircuit isOr left right c
    = (((left (scLeft c)).2.irTmp .i8 1).1,
        ((((right (scRight isOr left c)).2.irJump (c.blockId + 1)).irFnAddBlock
          (c.blockId + 1)).irConstInt .i8 (if isOr then 1 else 0)).2.irBlockAddInstr
            (scPhi isOr left right c))
  := by
  cases isOr <;> rfl

section
variable {m : Machine} {vs : Variables} {esc : Nat → Bool}

/-- A block that has been made and not added. -/
structure Reserved (c : IrCtx) (id : Nat) : Prop where
  lt : id < c.blockId
  notMem : id ∉ c.blocks
  code : c.code id = []

/-- It stays so while a context grows by later blocks. -/
theorem Reserved.grows
    {c c' : IrCtx} {id n : Nat} (h : Reserved c id) (hgrows : Grows n c c') (hn : id < n) :
  Reserved c' id
  := by
  constructor
  case lt => exact h.lt.trans_le hgrows.blockId_le
  case notMem =>
    intro hmem
    rcases hgrows.blocks id hmem with hmem | hle
    · apply h.notMem hmem
    · omega
  case code => rw [hgrows.code id hn h.notMem, h.code]

/-- Or while another block is added. -/
theorem Reserved.irFnAddBlock
    {c : IrCtx} {id : Nat} (h : Reserved c id) {block : Nat} (hne : id ≠ block) :
  Reserved (c.irFnAddBlock block) id
  := by
  constructor
  case lt => apply h.lt
  case notMem =>
    intro hmem
    rcases List.mem_append.mp hmem with hmem | hmem
    · apply h.notMem hmem
    · apply hne (List.mem_singleton.mp hmem)
  case code => apply h.code

theorem grows_scLeft {c : IrCtx} (hc : c.Ok) :
  Grows c.blockId c (scLeft c) ∧ Reserved (scLeft c) c.blockId
    ∧ Reserved (scLeft c) (c.blockId + 1)
  := by
  have h₁ : Grows c.blockId c c.irBlockNew.2 := grows_irBlockNew hc (le_refl _)
  have h₂ := h₁.trans (grows_irBlockNew h₁.ok h₁.blockId_le)
  have hnot : ∀ i, c.blockId ≤ i → i ∉ (scLeft c).blocks := by
    intro i hi hmem
    have := hc.lt i hmem
    omega
  constructor
  · apply h₂
  constructor
  · have hcode : (scLeft c).code c.blockId = c.irBlockNew.2.code c.blockId := by
      apply Function.update_of_ne
      change c.blockId ≠ c.blockId + 1
      omega
    exact ⟨show c.blockId < c.blockId + 1 + 1 by omega, hnot _ (le_refl _),
      hcode.trans (Function.update_self ..)⟩
  · exact ⟨show c.blockId + 1 < c.blockId + 1 + 1 by omega, hnot _ (by omega),
      Function.update_self ..⟩

theorem point_scLeft {c : IrCtx} (hc : c.Ok) :
  (scLeft c).point = c.point
  := by
  have hlt := hc.lt _ hc.cur_mem
  have hinstr : (scLeft c).instructions = c.instructions := by
    have h₂ : (scLeft c).instructions = c.irBlockNew.2.code c.curBlock := by
      apply Function.update_of_ne
      change c.curBlock ≠ c.blockId + 1
      omega
    rw [h₂]
    apply Function.update_of_ne hlt.ne
  rw [point, point, hinstr]
  rfl

/-- The contexts of a short circuit up to its branch. -/
theorem grows_scBranch
    {sh : Shape} {left : Lower} {eval : Eval} (hl : Lowers m vs esc sh left eval) (isOr : Bool)
    {c : IrCtx} (hc : c.For vs esc) :
  Grows c.blockId c (scBranch isOr left c)
    ∧ Grows (c.blockId + 2) ((left (scLeft c)).2.irTmp .i8 1).2 (scBranch isOr left c)
    ∧ Reserved (scBranch isOr left c) c.blockId
    ∧ Reserved (scBranch isOr left c) (c.blockId + 1)
  := by
  obtain ⟨h₂, hright, hend⟩ := grows_scLeft hc.ok
  have h₃ : Grows (c.blockId + 2) (scLeft c) (left (scLeft c)).2 := hl.grows _ (h₂.for hc)
  have h₄ : Grows (c.blockId + 2) (left (scLeft c)).2 ((left (scLeft c)).2.irTmp .i8 1).2 :=
    grows_irTmp h₃.ok .i8 1
  have h₅ : Grows (c.blockId + 2) ((left (scLeft c)).2.irTmp .i8 1).2 (scBranch isOr left c) :=
    grows_irBranch h₄.ok _ _ _
  have h₃₅ := h₃.trans (h₄.trans h₅)
  constructor
  · apply h₂.trans (h₃₅.weaken (by omega))
  constructor
  · apply h₅
  constructor
  · apply hright.grows h₃₅ (by omega)
  · apply hend.grows h₃₅ (by omega)

/-- The contexts of a short circuit up to its right operand. -/
theorem grows_scRight
    {sh : Shape} {left : Lower} {eval : Eval} (hl : Lowers m vs esc sh left eval) (isOr : Bool)
    {c : IrCtx} (hc : c.For vs esc) :
  Grows c.blockId (scBranch isOr left c) (scRight isOr left c)
    ∧ Reserved (scRight isOr left c) (c.blockId + 1)
  := by
  obtain ⟨h₅, -, hright, hend⟩ := grows_scBranch hl isOr hc
  constructor
  · apply grows_irFnAddBlock h₅.ok (le_refl _) hright.lt hright.notMem
  · apply hend.irFnAddBlock
    omega

/-- The contexts of a short circuit from its right operand on. -/
theorem grows_scEnd
    {shl shr : Shape} {left right : Lower} {evalLeft evalRight : Eval}
    (hl : Lowers m vs esc shl left evalLeft) (hr : Lowers m vs esc shr right evalRight)
    (isOr : Bool) {c : IrCtx} (hc : c.For vs esc) :
  Grows c.blockId (scRight isOr left c) (right (scRight isOr left c)).2
    ∧ Grows c.blockId (right (scRight isOr left c)).2
        ((right (scRight isOr left c)).2.irJump (c.blockId + 1))
    ∧ Grows c.blockId ((right (scRight isOr left c)).2.irJump (c.blockId + 1))
        (irLowerShortCircuit isOr left right c).2
    ∧ ((right (scRight isOr left c)).2.irJump (c.blockId + 1)).code (c.blockId + 1) = []
  := by
  obtain ⟨h₅, -⟩ := grows_scBranch hl isOr hc
  obtain ⟨h₆, hend⟩ := grows_scRight hl isOr hc
  have h₇ := hr.grows _ ((h₅.trans h₆).for hc)
  have h₈ : Grows (scRight isOr left c).blockId (right (scRight isOr left c)).2
      ((right (scRight isOr left c)).2.irJump (c.blockId + 1)) :=
    grows_irJump h₇.ok (c.blockId + 1)
  have hend₈ := hend.grows (h₇.trans h₈) hend.lt
  have hle : c.blockId ≤ (scRight isOr left c).blockId := (h₅.trans h₆).blockId_le
  constructor
  · apply h₇.weaken hle
  constructor
  · apply h₈.weaken hle
  constructor
  · rw [irLowerShortCircuit_eq]
    apply grows_phiBlock h₈.ok (by omega) hend₈.lt hend₈.notMem
  · apply hend₈.code

/-- The two predecessors of the phi are different blocks. -/
theorem scPhi_blocks_ne
    {shl shr : Shape} {left right : Lower} {evalLeft evalRight : Eval}
    (hl : Lowers m vs esc shl left evalLeft) (hr : Lowers m vs esc shr right evalRight)
    (isOr : Bool) {c : IrCtx} (hc : c.For vs esc) :
  (left (scLeft c)).2.curBlock ≠ (right (scRight isOr left c)).2.curBlock
  := by
  obtain ⟨h₅, h₃₅, hright, -⟩ := grows_scBranch hl isOr hc
  obtain ⟨h₆, -⟩ := grows_scRight hl isOr hc
  have h₇ := hr.grows _ ((h₅.trans h₆).for hc)
  obtain ⟨h₂, -, -⟩ := grows_scLeft hc.ok
  have h₃ := hl.grows _ (h₂.for hc)
  have hblocks : (scBranch isOr left c).blocks = (left (scLeft c)).2.blocks :=
    blocks_irBranch _ _ _ _
  have hmem : (left (scLeft c)).2.curBlock ∈ (scBranch isOr left c).blocks := by
    rw [hblocks]
    apply h₃.ok.cur_mem
  have hlt := h₅.ok.lt _ hmem
  rcases h₇.cur with hcur | hcur
  · rw [hcur]
    intro heq
    rw [heq] at hmem
    apply hright.notMem hmem
  · have hle := h₆.blockId_le
    omega

/-- What the phi takes when the left operand has decided. -/
theorem scPhi_incoming_left
    (isOr : Bool) (left right : Lower) (c : IrCtx) (p : Point)
    (hp : p.1 = (left (scLeft c)).2.curBlock) :
  phiIncoming p.1 (scPhi isOr left right c)
    = some ((((right (scRight isOr left c)).2.irJump (c.blockId + 1)).irFnAddBlock
        (c.blockId + 1)).irConstInt .i8 (if isOr then 1 else 0)).1
  := by
  rw [phiIncoming, scPhi, hp, List.find?_cons_of_pos (by simp)]
  rfl

/-- What the phi takes after the right operand. -/
theorem scPhi_incoming_right
    (isOr : Bool) (left right : Lower) (c : IrCtx) (p : Point)
    (hp : p.1 = (right (scRight isOr left c)).2.curBlock)
    (hne : (left (scLeft c)).2.curBlock ≠ (right (scRight isOr left c)).2.curBlock) :
  phiIncoming p.1 (scPhi isOr left right c) = some (right (scRight isOr left c)).1
  := by
  rw [phiIncoming, scPhi, hp, List.find?_cons_of_neg (by simpa using hne),
    List.find?_cons_of_pos (by simp)]
  rfl

/-- After the copy of a phi and the phi itself. -/
theorem Runs.of_phi
    {F : IrFunction} {e k : Nat} {p : Point} {σ : Env} {s : SizedStore} {tr : List Event}
    {log : List LogEntry} {x : Word}
    (hreach : Reaches m F (.at p s) (.at (e, 0) ⟨Function.update σ ⟨.tmp, k⟩ x, tr, log⟩))
    (hphi : ∀ s, Reaches m F (.at (e, 0) s) (.at (e, 1) s))
    (hslot : ∀ id, σ (vs.value id).key = s.env (vs.value id).key)
    (htmp : ∀ i < k, σ ⟨.tmp, i⟩ = s.env ⟨.tmp, i⟩) {v : IrValue} (hv : v.kind = .tmp)
    (hk : v.varId = k) :
  Runs m F vs k p (e, 1) s (.ok (x, ⟨(s.view vs).locals, tr, log⟩)) fun w s' =>
    valueOf m s'.trace s'.env v = w
  := by
  use ⟨Function.update σ ⟨.tmp, k⟩ x, tr, log⟩, hreach.trans (hphi _)
  constructor
  · rw [view_update_tmp]
    exact congrArg (fun l => AstState.mk l tr log) (funext hslot)
  constructor
  · intro i hi
    rw [← htmp i hi]
    apply update_tmp_of_lt σ hi
  · rw [← hk]
    apply (valueOf_tmp hv _ _).trans
    apply Function.update_self

/-- A short circuit computes what its evaluator does. -/
theorem Lowers.shortCircuit
    {shl shr : Shape} {left right : Lower} {evalLeft evalRight : Eval}
    (hl : Lowers m vs esc shl left evalLeft) (hr : Lowers m vs esc shr right evalRight)
    (isOr : Bool) :
  Lowers m vs esc .phi (irLowerShortCircuit isOr left right)
    (evalShortCircuit isOr evalLeft evalRight)
  := by
  constructor
  case grows =>
    intro c hc
    obtain ⟨h₅, -⟩ := grows_scBranch hl isOr hc
    obtain ⟨h₆, -⟩ := grows_scRight hl isOr hc
    obtain ⟨h₇, h₈, h₉, -⟩ := grows_scEnd hl hr isOr hc
    apply h₅.trans (h₆.trans (h₇.trans (h₈.trans h₉)))
  case operand =>
    intro c hc
    obtain ⟨-, h₅, -⟩ := grows_scBranch hl isOr hc
    obtain ⟨h₆, -⟩ := grows_scRight hl isOr hc
    obtain ⟨h₇, h₈, h₉, -⟩ := grows_scEnd hl hr isOr hc
    have hle := ((h₅.weaken (by omega)).trans (h₆.trans (h₇.trans (h₈.trans h₉)))).varId_le
    have hvalue : (irLowerShortCircuit isOr left right c).1
        = ((left (scLeft c)).2.irTmp .i8 1).1 := by
      rw [irLowerShortCircuit_eq]
    rw [hvalue]
    exact ⟨rfl, hle, rfl⟩
  case runs =>
    intro c hc F s hF
    obtain ⟨h₂, -, -⟩ := grows_scLeft hc.ok
    obtain ⟨h₅, h₄₅, hright, -⟩ := grows_scBranch hl isOr hc
    obtain ⟨h₆, -⟩ := grows_scRight hl isOr hc
    obtain ⟨h₇, h₈, h₉, hcode⟩ := grows_scEnd hl hr isOr hc
    have hne := scPhi_blocks_ne hl hr isOr hc
    -- what the finished function has of each context
    have hF₈ := h₉.completes F hF
    have hF₇ := h₈.completes F hF₈
    have hF₆ := h₇.completes F hF₇
    have hF₅ := h₆.completes F hF₆
    have hF₃ : Completes F (left (scLeft c)).2 :=
      (grows_irTmp (n := 0) ((hl.grows _ (h₂.for hc)).ok) .i8 1).completes F
        (h₄₅.completes F hF₅)
    rw [irLowerShortCircuit_eq] at hF ⊢
    obtain ⟨l, hl', hfind⟩ := findBlock_phiBlock hcode hF
    have hphi : ∀ s, Reaches m F (.at (c.blockId + 1, 0) s) (.at (c.blockId + 1, 1) s) :=
      reaches_phi hfind rfl
    have hpoint : ((((right (scRight isOr left c)).2.irJump (c.blockId + 1)).irFnAddBlock
        (c.blockId + 1)).irConstInt .i8 (if isOr then 1 else 0)).2.instructions = [] := hcode
    have hend : (((((right (scRight isOr left c)).2.irJump (c.blockId + 1)).irFnAddBlock
        (c.blockId + 1)).irConstInt .i8 (if isOr then 1 else 0)).2.irBlockAddInstr
          (scPhi isOr left right c)).point = (c.blockId + 1, 1) := by
      rw [point_irBlockAddInstr, point, hpoint]
      rfl
    rw [hend, ← point_scLeft hc.ok]
    -- the left operand, then the branch
    apply (hl.runs _ (h₂.for hc) F s hF₃).bind (hl.grows _ (h₂.for hc)).varId_le
    intro w s₁ _ hw
    obtain ⟨σ, p, I, hp, hI, hσ, hreach⟩ :=
      reaches_irBranch (m := m) (c := ((left (scLeft c)).2.irTmp .i8 1).2)
        (grows_irTmp (n := 0) ((hl.grows _ (h₂.for hc)).ok) .i8 1).ok hF₅ (s := s₁)
        (b := decide (w ≠ 0)) (by rw [← hw])
    have htarget : (if decide (w ≠ 0) then (if isOr then c.blockId + 1 else c.blockId)
        else (if isOr then c.blockId else c.blockId + 1))
        = if isOr = decide (w ≠ 0) then c.blockId + 1 else c.blockId := by
      cases isOr <;> cases decide (w ≠ 0) <;> rfl
    have hσtmp : ∀ k < (left (scLeft c)).2.varId, σ ⟨.tmp, k⟩ = s₁.env ⟨.tmp, k⟩ := by
      intro k hk
      apply hσ
      intro hkey
      have : k = (left (scLeft c)).2.varId + 1 := congrArg VarKey.id hkey
      omega
    have hσslot : ∀ id, σ (vs.value id).key = s₁.env (vs.value id).key := by
      intro id
      apply hσ
      intro hkey
      apply vs.kind_ne_tmp id
      apply congrArg VarKey.kind hkey
    rw [htarget] at hreach
    by_cases hdec : isOr = decide (w ≠ 0)
    · -- the left operand decides: the phi takes the constant
      have hcopy := edgeCopies_of_phi (p := p) (q := (c.blockId + 1, 0)) hI hfind rfl hl' rfl
        (scPhi_incoming_left isOr left right c p hp)
      have hword : ((left (scLeft c)).2.irTmp .i8 1).1.stored (if isOr then 1 else 0)
          = Word.ofBool isOr := by
        rw [stored_of_varSize_one rfl rfl]
        cases isOr <;> rfl
      rw [if_pos hdec, hcopy, sizedCopy_single, valueOf_of_constInt rfl] at hreach
      change Reaches m F _ (.at _ ⟨Function.update σ ⟨.tmp, (left (scLeft c)).2.varId⟩
        (((left (scLeft c)).2.irTmp .i8 1).1.stored (if isOr then 1 else 0)), _, _⟩) at hreach
      rw [hword] at hreach
      simp only [if_pos hdec]
      apply Runs.of_phi hreach hphi hσslot hσtmp rfl rfl
    · -- the right operand runs, and the phi takes its value
      obtain ⟨l₂, hl₂, hfind₂⟩ := hF₆.findBlock_of_nil h₆.ok.cur_mem hright.code
      have hcopy := edgeCopies_of_noPhi (p := p) (I := I) (q := (c.blockId, 0)) hfind₂ hl₂
      rw [if_neg hdec, hcopy, sizedCopy_nil] at hreach
      have hview : SizedStore.view vs
          ⟨σ, s₁.trace ++ [.branch (some (Word.ofBool (decide (w ≠ 0))))], s₁.log⟩
          = (s₁.view vs).branch (decide (w ≠ 0)) :=
        congrArg (fun l => AstState.mk l _ _) (funext hσslot)
      have hstart : (scRight isOr left c).point = (c.blockId, 0) :=
        congrArg (fun l => (c.blockId, List.length l)) hright.code
      have hrun := hr.runs _ ((h₅.trans h₆).for hc) F
        ⟨σ, s₁.trace ++ [.branch (some (Word.ofBool (decide (w ≠ 0))))], s₁.log⟩ hF₇
      rw [hstart] at hrun
      simp only [if_neg hdec]
      rw [← hview]
      have hle : (left (scLeft c)).2.varId ≤ (scRight isOr left c).varId :=
        (Nat.le_succ _).trans ((h₄₅.weaken (by omega)).trans h₆).varId_le
      apply Runs.prepend hreach hσtmp (le_refl _)
      apply Runs.bind (Runs.prepend (Reaches.refl _) (Keeps.refl _ _) hle hrun) (le_refl _)
      intro w₂ s₃ _ hw₂
      have hjmp : F.instrAt (right (scRight isOr left c)).2.point
          = some { op := .jmp, targetBlock := c.blockId + 1 } := by
        have hadd : Grows 0 (right (scRight isOr left c)).2
            ((right (scRight isOr left c)).2.irBlockAddInstr
              { op := .jmp, targetBlock := c.blockId + 1 }) :=
          grows_irBlockAddInstr h₇.ok (by simp)
        have hseal : Grows 0 _ ((right (scRight isOr left c)).2.irJump (c.blockId + 1)) :=
          grows_sealCur hadd.ok
        apply (hseal.completes F hF₈).instrAt h₇.ok
      have hcopy₃ := edgeCopies_of_phi (p := (right (scRight isOr left c)).2.point)
        (I := { op := .jmp, targetBlock := c.blockId + 1 }) (q := (c.blockId + 1, 0)) rfl hfind
        rfl hl' rfl (scPhi_incoming_right isOr left right c _ rfl hne)
      have hstep := sizedStep_jmp (m := m) hjmp s₃
      rw [hcopy₃, sizedCopy_single, hw₂, stored_of_varSize_one rfl rfl] at hstep
      have hreach₃ : Reaches m F (.at (right (scRight isOr left c)).2.point s₃)
          (.at (c.blockId + 1, 0)
            ⟨Function.update s₃.env ⟨.tmp, (left (scLeft c)).2.varId⟩ (lowByte w₂), s₃.trace,
              s₃.log⟩) := hstep ▸ .step _
      apply Runs.of_phi hreach₃ hphi (fun _ => rfl) (fun _ _ => rfl)
        (v := ((left (scLeft c)).2.irTmp .i8 1).1) rfl rfl
  case settled =>
    intro h
    cases h
  case produced =>
    intro h
    cases h

/-! ### Expressions -/

mutual

/-- Every lowered expression computes what the evaluator computes. -/
theorem lowers_irExpr : ∀ e : Ast,
  Lowers m vs esc (e.shape vs esc) (irExpr e) (evalAst m vs esc e)
  | .literal i64 => lowers_literal i64
  | .lvar var => by
    rw [Ast.shape]
    split
    case isTrue h => apply lowers_loaded h
    case isFalse h => apply lowers_slot (by simpa using h)
  | .cast _ operand => lowers_irExpr operand
  | .funcall fname _ args => (lowersArgs_irArgs args).fnCall fname
  | .unop op operand => by
    have h := (lowers_irExpr operand).unOp op
    cases op <;> apply h
  | .incDec op operand => lowers_incDec op operand
  | .binop op issigned left right =>
    lowers_irLowerBinOpExpr left op issigned (lowers_irExpr left) (lowers_irExpr right)
  | .logAnd left right => (lowers_irExpr left).shortCircuit (lowers_irExpr right) false
  | .logOr left right => (lowers_irExpr left).shortCircuit (lowers_irExpr right) true
  | .assign left right => (lowers_irExpr right).assign left right.issigned
  | .compoundAssign op left right => (lowers_irExpr right).compoundAssign op left

/-- So does every binary operator, whatever its right operand is. -/
theorem lowers_irLowerBinOpExpr : ∀ (left : Ast) (op : AstBinOp) (issigned : Bool)
    {shr : Shape} {lowerRight : Lower} {evalRight : Eval},
    Lowers m vs esc (left.shape vs esc) (irExpr left) (evalAst m vs esc left) →
    Lowers m vs esc shr lowerRight evalRight →
  Lowers m vs esc (if isRange op left then .phi else .produced)
    (irLowerBinOpExpr op issigned left (irExpr left) lowerRight)
    (evalBinOp m vs esc op issigned left (evalAst m vs esc left) evalRight)
  | .binop op₁ s₁ a b, op, issigned, _, _, _, hl, hr => by
    have hb := lowers_irLowerBinOpExpr b op true (lowers_irExpr b) hr
    rw [isRange, irLowerBinOpExpr, evalBinOp]
    by_cases h : astIsRangeOperator op ∧ astIsRangeOperator op₁
    · rw [if_pos h, if_pos h, if_pos (by simpa using h)]
      apply hl.shortCircuit hb
    · rw [if_neg h, if_neg h, if_neg (by simpa using h)]
      apply hl.operands hr
  | .literal _, op, issigned, _, _, _, hl, hr => hl.operands hr op issigned
  | .lvar _, op, issigned, _, _, _, hl, hr => hl.operands hr op issigned
  | .cast _ _, op, issigned, _, _, _, hl, hr => hl.operands hr op issigned
  | .funcall _ _ _, op, issigned, _, _, _, hl, hr => hl.operands hr op issigned
  | .unop _ _, op, issigned, _, _, _, hl, hr => hl.operands hr op issigned
  | .incDec _ _, op, issigned, _, _, _, hl, hr => hl.operands hr op issigned
  | .logAnd _ _, op, issigned, _, _, _, hl, hr => hl.operands hr op issigned
  | .logOr _ _, op, issigned, _, _, _, hl, hr => hl.operands hr op issigned
  | .assign _ _, op, issigned, _, _, _, hl, hr => hl.operands hr op issigned
  | .compoundAssign _ _ _, op, issigned, _, _, _, hl, hr => hl.operands hr op issigned

/-- And the arguments of a call. -/
theorem lowersArgs_irArgs : ∀ args : List Ast,
  LowersArgs m vs esc (irArgs args) (evalArgs m vs esc args)
  | [] => lowersArgs_nil
  | arg :: args => (lowers_irExpr arg).cons (lowersArgs_irArgs args)

end

end

end Polyc
