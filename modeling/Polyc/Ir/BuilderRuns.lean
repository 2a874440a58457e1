import Polyc.Ir.EvalExpr

/-!
# Runs of functions under construction

A finished function completes a context when it has all that the context has built: the
blocks other than the current one as they are, and the current one with more instructions,
none of them a phi.  Code that has been built therefore runs alike in every function that
completes the context.
-/

namespace Polyc

namespace IrCtx

/-! ### Contexts that grow -/

/-- The place of the next instruction. -/
def point (c : IrCtx) : Point := (c.curBlock, c.instructions.length)

/-- The current block belongs to the function, and blocks are made before they are added. -/
structure Ok (c : IrCtx) : Prop where
  cur_mem : c.curBlock ∈ c.blocks
  lt : ∀ id ∈ c.blocks, id < c.blockId

/-- A function has everything that a context has built. -/
def Completes (F : IrFunction) (c : IrCtx) : Prop :=
  ∀ id ∈ c.blocks, ∃ l,
    (∀ I ∈ l, I.op ≠ .phi) ∧ F.findBlock id = some ⟨id, c.code id ++ l⟩
      ∧ (id ≠ c.curBlock → l = [])

/-- A context grows by blocks from `n` on and by instructions in the current block. -/
structure Grows (n : Nat) (c c' : IrCtx) : Prop where
  varId_le : c.varId ≤ c'.varId
  blockId_le : c.blockId ≤ c'.blockId
  vars : c'.vars = c.vars
  escape : c'.escape = c.escape
  blocks : ∀ id ∈ c'.blocks, id ∈ c.blocks ∨ n ≤ id
  cur : c'.curBlock = c.curBlock ∨ n ≤ c'.curBlock
  code : ∀ id < n, id ∉ c.blocks → c'.code id = c.code id
  completes : ∀ F, Completes F c' → Completes F c
  ok : c'.Ok

namespace Grows

theorem trans {n : Nat} {c₁ c₂ c₃ : IrCtx} (h : Grows n c₁ c₂) (h' : Grows n c₂ c₃) :
  Grows n c₁ c₃
  := by
  constructor
  case varId_le => apply h.varId_le.trans h'.varId_le
  case blockId_le => apply h.blockId_le.trans h'.blockId_le
  case vars => rw [h'.vars, h.vars]
  case escape => rw [h'.escape, h.escape]
  case blocks =>
    intro id hid
    rcases h'.blocks id hid with hid | hid
    · apply h.blocks id hid
    · right
      apply hid
  case cur =>
    rcases h'.cur with hcur | hcur
    · rw [hcur]
      apply h.cur
    · right
      apply hcur
  case code =>
    intro id hlt hid
    have hid' : id ∉ c₂.blocks := by
      intro hmem
      rcases h.blocks id hmem with hmem | hle
      · apply hid hmem
      · omega
    rw [h'.code id hlt hid', h.code id hlt hid]
  case completes =>
    intro F hF
    apply h.completes F (h'.completes F hF)
  case ok => apply h'.ok

/-- Fewer blocks may be claimed. -/
theorem weaken {n k : Nat} {c c' : IrCtx} (h : Grows n c c') (hk : k ≤ n) :
  Grows k c c'
  := by
  constructor
  case varId_le => apply h.varId_le
  case blockId_le => apply h.blockId_le
  case vars => apply h.vars
  case escape => apply h.escape
  case blocks =>
    intro id hid
    rcases h.blocks id hid with hid | hid
    · left
      apply hid
    · right
      omega
  case cur =>
    rcases h.cur with hcur | hcur
    · left
      apply hcur
    · right
      omega
  case code =>
    intro id hlt hid
    apply h.code id (by omega) hid
  case completes => apply h.completes
  case ok => apply h.ok

/-- A context whose code does not change. -/
theorem of_code
    {n : Nat} {c c' : IrCtx} (hc : c.Ok) (hvar : c.varId ≤ c'.varId)
    (hblock : c.blockId = c'.blockId) (hvars : c'.vars = c.vars) (hesc : c'.escape = c.escape)
    (hblocks : c'.blocks = c.blocks) (hcode : c'.code = c.code)
    (hcur : c'.curBlock = c.curBlock) :
  Grows n c c'
  := by
  constructor
  case varId_le => apply hvar
  case blockId_le => apply hblock.le
  case vars => apply hvars
  case escape => apply hesc
  case blocks =>
    intro id hid
    left
    rw [← hblocks]
    apply hid
  case cur =>
    left
    apply hcur
  case code =>
    intro id _ _
    rw [hcode]
  case completes =>
    intro F hF id hid
    rw [← hcode, ← hcur]
    apply hF id (by rw [hblocks]; apply hid)
  case ok =>
    constructor
    · rw [hblocks, hcur]
      apply hc.cur_mem
    · intro id hid
      rw [hblocks] at hid
      rw [← hblock]
      apply hc.lt id hid

end Grows

section
variable {n : Nat} {c : IrCtx}

theorem grows_refl (hc : c.Ok) :
  Grows n c c
  := by
  apply Grows.of_code hc <;> rfl

theorem grows_irTmp (hc : c.Ok) (type : IrValueType) (size : Nat) :
  Grows n c (c.irTmp type size).2
  := by
  apply Grows.of_code hc (Nat.le_succ _) <;> rfl

theorem grows_irConstInt (hc : c.Ok) (type : IrValueType) (num : Word) :
  Grows n c (c.irConstInt type num).2
  := by
  apply Grows.of_code hc <;> rfl

theorem grows_sealCur (hc : c.Ok) :
  Grows n c c.sealCur
  := by
  apply Grows.of_code hc <;> rfl

theorem grows_irBlockNew (hc : c.Ok) (hn : n ≤ c.blockId) :
  Grows n c c.irBlockNew.2
  := by
  constructor
  case varId_le => apply le_refl
  case blockId_le => apply Nat.le_succ
  case vars => rfl
  case escape => rfl
  case blocks =>
    intro id hid
    left
    apply hid
  case cur =>
    left
    rfl
  case code =>
    intro id hlt _
    apply Function.update_of_ne
    omega
  case completes =>
    intro F hF id hid
    have hne : id ≠ c.blockId := (hc.lt id hid).ne
    have hcode : c.irBlockNew.2.code id = c.code id := Function.update_of_ne hne _ _
    rw [← hcode]
    apply hF id hid
  case ok =>
    constructor
    · apply hc.cur_mem
    · intro id hid
      apply (hc.lt id hid).trans (Nat.lt_succ_self _)

/-- The instructions after one more. -/
theorem instructions_irBlockAddInstr (c : IrCtx) (I : IrInstr) :
  (c.irBlockAddInstr I).instructions = c.instructions ++ [I]
  := Function.update_self ..

/-- Instructions given twice. -/
theorem setInstructions_setInstructions (c : IrCtx) (l l' : List IrInstr) :
  (c.setInstructions l).setInstructions l' = c.setInstructions l'
  := by
  rw [setInstructions, setInstructions, setInstructions]
  simp only [Function.update_idem]

/-- The place after one more instruction. -/
theorem point_irBlockAddInstr (c : IrCtx) (I : IrInstr) :
  (c.irBlockAddInstr I).point = (c.point.1, c.point.2 + 1)
  := by
  rw [point, instructions_irBlockAddInstr, List.length_append]
  rfl

theorem grows_irBlockAddInstr (hc : c.Ok) {I : IrInstr} (hI : I.op ≠ .phi) :
  Grows n c (c.irBlockAddInstr I)
  := by
  constructor
  case varId_le => apply le_refl
  case blockId_le => apply le_refl
  case vars => rfl
  case escape => rfl
  case blocks =>
    intro id hid
    left
    apply hid
  case cur =>
    left
    rfl
  case code =>
    intro id _ hid
    apply Function.update_of_ne
    rintro rfl
    apply hid hc.cur_mem
  case completes =>
    intro F hF id hid
    obtain ⟨l, hl, hfind, hnil⟩ := hF id hid
    by_cases h : id = c.curBlock
    · use I :: l
      constructor
      · simpa [hI] using hl
      constructor
      · have hcode : (c.irBlockAddInstr I).code id = c.code id ++ [I] := by
          rw [h]
          apply instructions_irBlockAddInstr
        rw [hfind, hcode, List.append_assoc]
        rfl
      · intro hne
        apply absurd h hne
    · use l
      have hcode : (c.irBlockAddInstr I).code id = c.code id := Function.update_of_ne h _ _
      rw [hcode] at hfind
      use hl, hfind, hnil
  case ok =>
    constructor
    · apply hc.cur_mem
    · apply hc.lt

theorem grows_irFnAddBlock
    (hc : c.Ok) {id : Nat} (hn : n ≤ id) (hlt : id < c.blockId) (hid : id ∉ c.blocks) :
  Grows n c (c.irFnAddBlock id)
  := by
  constructor
  case varId_le => apply le_refl
  case blockId_le => apply le_refl
  case vars => rfl
  case escape => rfl
  case blocks =>
    intro i hi
    rcases List.mem_append.mp hi with hi | hi
    · left
      apply hi
    · right
      rw [List.mem_singleton.mp hi]
      apply hn
  case cur =>
    right
    apply hn
  case code =>
    intro i _ _
    rfl
  case completes =>
    intro F hF i hi
    obtain ⟨l, hl, hfind, hnil⟩ := hF i (List.mem_append_left _ hi)
    have hne : i ≠ id := by
      rintro rfl
      apply hid hi
    use l, hl, hfind
    intro _
    apply hnil hne
  case ok =>
    constructor
    · apply List.mem_append_right
      apply List.mem_singleton_self
    · intro i hi
      rcases List.mem_append.mp hi with hi | hi
      · apply hc.lt i hi
      · rw [List.mem_singleton.mp hi]
        apply hlt

theorem grows_irJump (hc : c.Ok) (target : Nat) :
  Grows n c (c.irJump target)
  := by
  have h : Grows n c (c.irBlockAddInstr { op := .jmp, targetBlock := target }) :=
    grows_irBlockAddInstr hc (by simp)
  apply h.trans (grows_sealCur h.ok)

theorem grows_compute (hc : c.Ok) (type : IrValueType) {I : IrInstr} (hI : I.op ≠ .phi) :
  Grows n c (c.compute type I).2
  := by
  have h : Grows n c (c.irTmp type 8).2 := grows_irTmp hc type 8
  apply h.trans (grows_irBlockAddInstr h.ok (I := { I with dst := (c.irTmp type 8).1 }) hI)

theorem grows_irNormalizeBranchCondition (hc : c.Ok) (cond : IrValue) :
  Grows n c (c.irNormalizeBranchCondition cond).2
  := by
  rw [irNormalizeBranchCondition]
  split
  · apply grows_refl hc
  · have h : Grows n c (c.irConstInt .i8 0).2 := grows_irConstInt hc .i8 0
    have h' := h.trans (grows_irTmp h.ok .i8 1)
    apply h'.trans (grows_irBlockAddInstr h'.ok (by simp))

/-- A branch adds no block. -/
theorem blocks_irBranch (c : IrCtx) (cond : IrValue) (t f : Nat) :
  (c.irBranch cond t f).blocks = c.blocks
  := by
  have h : (c.irNormalizeBranchCondition cond).2.blocks = c.blocks := by
    rw [irNormalizeBranchCondition]
    split <;> rfl
  apply h

theorem grows_irBranch (hc : c.Ok) (cond : IrValue) (t f : Nat) :
  Grows n c (c.irBranch cond t f)
  := by
  have h : Grows n c (c.irNormalizeBranchCondition cond).2 :=
    grows_irNormalizeBranchCondition hc cond
  rw [irBranch]
  have h' := h.trans (grows_irBlockAddInstr h.ok
    (I := { op := .br, dst := (c.irNormalizeBranchCondition cond).1, targetBlock := t
            fallthroughBlock := f }) (by simp))
  apply h'.trans (grows_sealCur h'.ok)

end

/-- A finished function has what its context has built. -/
theorem completes_function (c : IrCtx) (entry : Nat) :
  Completes (c.function entry) c
  := by
  intro id hid
  use []
  constructor
  · intro I hI
    cases hI
  constructor
  · rw [List.append_nil]
    have hmap : ∀ l : List Nat, id ∈ l →
        (l.map fun id => (⟨id, c.code id⟩ : IrBlock)).find? (·.id = id) = some ⟨id, c.code id⟩ := by
      intro l hl
      induction l with
      | nil => cases hl
      | cons i l ih =>
        rw [List.map_cons, List.find?_cons]
        by_cases h : i = id
        · rw [h]
          simp
        · simp only [h, decide_false]
          apply ih ((List.mem_cons.mp hl).resolve_left (Ne.symm h))
    apply hmap c.blocks hid
  · intro _
    rfl

/-- The instruction that a context adds is the one at its place. -/
theorem Completes.instrAt
    {F : IrFunction} {c : IrCtx} (hc : c.Ok) {I : IrInstr}
    (h : Completes F (c.irBlockAddInstr I)) :
  F.instrAt c.point = some I
  := by
  obtain ⟨l, -, hfind, -⟩ := h c.curBlock hc.cur_mem
  have hcode : (c.irBlockAddInstr I).code c.curBlock = c.instructions ++ [I] :=
    instructions_irBlockAddInstr c I
  rw [IrFunction.instrAt, point, hfind, hcode]
  simp

/-- A block that starts without instructions has no phi in the finished function. -/
theorem Completes.findBlock_of_nil
    {F : IrFunction} {c : IrCtx} (h : Completes F c) {id : Nat} (hid : id ∈ c.blocks)
    (hcode : c.code id = []) :
  ∃ l, (∀ I ∈ l, I.op ≠ .phi) ∧ F.findBlock id = some ⟨id, l⟩
  := by
  obtain ⟨l, hl, hfind, -⟩ := h id hid
  rw [hcode] at hfind
  use l, hl, hfind

end IrCtx

/-! ### Runs that follow an evaluation -/

/-- What a store says about the locals. -/
def SizedStore.view (vs : Variables) (s : SizedStore) : AstState :=
  ⟨fun id => s.env (vs.value id).key, s.trace, s.log⟩

/-- The temporaries below `n` are left alone. -/
def Keeps (n : Nat) (s s' : SizedStore) : Prop :=
  ∀ k < n, s'.env ⟨.tmp, k⟩ = s.env ⟨.tmp, k⟩

theorem Keeps.refl (n : Nat) (s : SizedStore) :
  Keeps n s s
  := by
  intro k _
  rfl

theorem Keeps.trans {n k : Nat} {s₁ s₂ s₃ : SizedStore} (h : Keeps n s₁ s₂) (h' : Keeps k s₂ s₃)
    (hk : n ≤ k) :
  Keeps n s₁ s₃
  := by
  intro i hi
  rw [h' i (by omega), h i hi]

/-- From `p` the run comes to `q` with the result of an evaluation, or is stuck with the
state of its trap. -/
def Runs {α : Type} (m : Machine) (F : IrFunction) (vs : Variables) (n : Nat) (p q : Point)
    (s : SizedStore) (out : Except AstState (α × AstState)) (post : α → SizedStore → Prop) :
    Prop :=
  match out with
  | .ok (x, a) =>
    ∃ s', Reaches m F (.at p s) (.at q s') ∧ s'.view vs = a ∧ Keeps n s s' ∧ post x s'
  | .error a => ∃ s', Reaches m F (.at p s) (.stuck s') ∧ s'.view vs = a

namespace Runs

variable {α β : Type} {m : Machine} {F : IrFunction} {vs : Variables} {n : Nat}
variable {p q r : Point} {s : SizedStore}

/-- Nothing to run. -/
theorem done {x : α} {post : α → SizedStore → Prop} (h : post x s) :
  Runs m F vs n p p s (.ok (x, s.view vs)) post
  := ⟨s, .refl _, rfl, .refl n s, h⟩

/-- Steps before a run. -/
theorem prepend
    {s₁ : SizedStore} {k : Nat} {out : Except AstState (α × AstState)}
    {post : α → SizedStore → Prop} (hreach : Reaches m F (.at p s) (.at q s₁))
    (hkeeps : Keeps n s s₁) (hk : n ≤ k) (h : Runs m F vs k q r s₁ out post) :
  Runs m F vs n p r s out post
  := by
  cases out with
  | error a =>
    obtain ⟨s', hs', hview⟩ := h
    use s', hreach.trans hs', hview
  | ok x =>
    obtain ⟨s', hs', hview, hkeeps', hpost⟩ := h
    use s', hreach.trans hs', hview, hkeeps.trans hkeeps' hk, hpost

/-- One run after another. -/
theorem bind
    {k : Nat} {out : Except AstState (α × AstState)}
    {f : α × AstState → Except AstState (β × AstState)} {mid : α → SizedStore → Prop}
    {post : β → SizedStore → Prop} (h : Runs m F vs n p q s out mid) (hk : n ≤ k)
    (hf : ∀ x s', Keeps n s s' → mid x s' → Runs m F vs k q r s' (f (x, s'.view vs)) post) :
  Runs m F vs n p r s (out >>= f) post
  := by
  cases out with
  | error a => apply h
  | ok x =>
    obtain ⟨s', hs', hview, hkeeps, hmid⟩ := h
    obtain ⟨x, a⟩ := x
    obtain rfl : s'.view vs = a := hview
    apply prepend hs' hkeeps hk (hf x s' hkeeps hmid)

end Runs

/-! ### Instructions that produce a value -/

/-- The opcodes of operators and calls. -/
def IrOp.yields : IrOp → Bool
  | .iadd | .isub | .imul | .idiv | .udiv | .irem | .urem | .ineg | .and | .or | .xor | .shl
  | .shr | .sar | .not | .icmp | .zext | .sext | .call => true
  | _ => false

/-- The opcodes that leave a value in their destination. -/
def IrOp.produces (op : IrOp) : Bool := op.yields || op = .load

/-- Execute an instruction on its operands. -/
def finish (m : Machine) (I : IrInstr) (o : Operands) : Eval := fun a =>
  match effect m a.trace I o with
  | none => .error { a with log := a.log ++ I.entry o }
  | some (w, es) => .ok (w.getD 0, { a with trace := a.trace ++ es, log := a.log ++ I.entry o })

section
variable {m : Machine} {I : IrInstr}

theorem isJump_of_produces {op : IrOp} (h : op.produces) :
  op.isJump = false
  := by
  cases op <;> first | rfl | cases h

theorem ne_ret_of_produces {op : IrOp} (h : op.produces) :
  op ≠ .ret
  := by
  rintro rfl
  cases h

theorem ne_phi_of_produces {op : IrOp} (h : op.produces) :
  op ≠ .phi
  := by
  rintro rfl
  cases h

theorem ne_nop_of_produces {op : IrOp} (h : op.produces) :
  op ≠ .nop
  := by
  rintro rfl
  cases h

theorem redirectable_of_produces {op : IrOp} (h : op.produces) :
  IrCtx.redirectable op
  := by
  cases op <;> first | rfl | cases h

/-- What a producing instruction does depends on its opcode and its comparison. -/
theorem effect_of_produces
    {J : IrInstr} (h : I.op.produces) (hop : I.op = J.op) (hcmp : I.cmpKind = J.cmpKind)
    (tr : List Event) (o : Operands) :
  effect m tr I o = effect m tr J o
  := by
  rw [effect, effect, ← hop, ← hcmp]
  cases hI : I.op <;> first | rfl | (rw [hI] at h; cases h)

/-- It computes a value, if it has a first operand. -/
theorem effect_isSome
    (h : I.op.produces) {tr : List Event} {o : Operands} (ho : o.r1.isSome)
    {w : Option Word} {es : List Event} (he : effect m tr I o = some (w, es)) :
  w.isSome
  := by
  rw [effect] at he
  cases hI : I.op <;> rw [hI] at h he <;> cases h
  case load =>
    obtain ⟨rfl, -⟩ := Prod.mk.inj (Option.some.inj he)
    apply ho
  case call =>
    obtain ⟨rfl, -⟩ := Prod.mk.inj (Option.some.inj he)
    rfl
  all_goals
    obtain ⟨v, -, hv⟩ := Option.map_eq_some_iff.mp he
    obtain ⟨rfl, -⟩ := Prod.mk.inj hv
    rfl

/-- The log does not depend on the destination, but for the predicates of branches. -/
theorem entry_with_dst
    {d : IrValue} (hd : I.op = .icmp → d.type ≠ .i8) (hI : I.dst = none) (o : Operands) :
  IrInstr.entry { I with dst := some d } o = I.entry o
  := by
  have hcomputes : IrInstr.computes { I with dst := some d } = I.computes := by
    cases hop : I.op <;> simp [IrInstr.computes, hop, hI, hd]
  rw [IrInstr.entry, IrInstr.entry, hcomputes]

/-- Neither do the operands. -/
theorem operands_with_dst
    (h : I.op.produces) (d : Option IrValue) (tr : List Event) (σ : Env) :
  IrInstr.operands m tr σ { I with dst := d } = I.operands m tr σ
  := by
  have hreads : I.op.readsDst = false := by
    cases hop : I.op <;> first | rfl | (rw [hop] at h; cases h)
  simp only [IrInstr.operands, hreads, Bool.false_eq_true, if_false]

/-- A producing instruction writes its value to a destination of 8 bytes. -/
theorem sizedStep_finish
    {F : IrFunction} {vs : Variables} {p : Point} {d : IrValue} {s : SizedStore} {o : Operands}
    (hp : F.instrAt p = some { I with dst := some d }) (h : I.op.produces) (hI : I.dst = none)
    (hd : I.op = .icmp → d.type ≠ .i8) (hsize : irValueByteSize (some d) = 8)
    (ho : I.operands m s.trace s.env = o) (hr1 : o.r1.isSome) :
  match finish m I o (s.view vs) with
  | .error a => ∃ s', sizedStep m F (.at p s) = .stuck s' ∧ s'.view vs = a
  | .ok (w, a) =>
    sizedStep m F (.at p s)
      = .at (p.1, p.2 + 1) ⟨Function.update s.env d.key w, a.trace, a.log⟩
      ∧ a.locals = (s.view vs).locals
  := by
  have hstep :=
    sizedStep_straight (m := m) hp (isJump_of_produces h) (ne_ret_of_produces h) s
  have heffect : effect m s.trace { I with dst := some d } o = effect m s.trace I o := by
    apply effect_of_produces
    · apply h
    · rfl
    · rfl
  rw [operands_with_dst h, ho, entry_with_dst hd hI, heffect] at hstep
  rw [finish]
  cases he : effect m s.trace I o with
  | none =>
    have he' : effect m (s.view vs).trace I o = none := he
    rw [he'] at *
    rw [he] at hstep
    use { s with log := s.log ++ I.entry o }, hstep
    rfl
  | some r =>
    obtain ⟨w, es⟩ := r
    have he' : effect m (s.view vs).trace I o = some (w, es) := he
    obtain ⟨w, rfl⟩ := Option.isSome_iff_exists.mp (effect_isSome h hr1 he)
    rw [he']
    rw [he] at hstep
    have hassign : assignSized (some d) (some w) s.env = Function.update s.env d.key w := by
      simp only [assignSized, assign, Option.bind_some, Option.map_some, IrValue.stored, hsize]
    constructor
    · rw [hstep]
      simp only [hassign, Option.getD_some]
      rfl
    · rfl

end

/-! ### Returns -/

/-- A return shows the word of its operand. -/
theorem reaches_ret
    {m : Machine} {F : IrFunction} {p : Point} {v : Option IrValue}
    (hp : F.instrAt p = some { op := .ret, dst := v }) (s : SizedStore) :
  Reaches m F (.at p s)
    (.returned { s with trace := s.trace ++ [.ret (v.map (valueOf m s.trace s.env))] })
  := by
  have hstep : sizedStep m F (.at p s)
      = .returned
        ⟨assignSized v none s.env, s.trace ++ [.ret (v.map (valueOf m s.trace s.env))],
          s.log ++ []⟩ := by
    simp only [sizedStep, hp]
    rfl
  have hassign : assignSized v none s.env = s.env := by cases v <;> rfl
  rw [hassign, List.append_nil] at hstep
  exact hstep ▸ .step _

/-- The run from the place `p` returns in the state of an evaluation, with the events `last`
for its result, or is stuck at its trap. -/
def EndsAs {α : Type} (last : α → List Event) (m : Machine) (F : IrFunction) (vs : Variables)
    (p : Point) (s : SizedStore) : Except AstState (α × AstState) → Prop
  | .ok (x, a) =>
    ∃ s', Reaches m F (.at p s) (.returned s')
      ∧ s'.view vs = { a with trace := a.trace ++ last x }
  | .error a => ∃ s', Reaches m F (.at p s) (.stuck s') ∧ s'.view vs = a

/-- A run ends in one way only. -/
theorem EndsAs.unique
    {α : Type} {last : α → List Event} {m : Machine} {F : IrFunction} {vs : Variables}
    {p : Point} {s : SizedStore} {x y : Except AstState (α × AstState)}
    (hlength : ∀ x y, (last x).length = (last y).length)
    (hlast : ∀ x y, last x = last y → x = y) (hx : EndsAs last m F vs p s x)
    (hy : EndsAs last m F vs p s y) :
  x = y
  := by
  cases x with
  | error a =>
    obtain ⟨s₁, h₁, rfl⟩ := hx
    cases y with
    | error b =>
      obtain ⟨s₂, h₂, rfl⟩ := hy
      cases h₁.final_unique h₂ rfl rfl
      rfl
    | ok y =>
      obtain ⟨s₂, h₂, -⟩ := hy
      cases h₁.final_unique h₂ rfl rfl
  | ok x =>
    obtain ⟨x, ⟨l₁, tr₁, log₁⟩⟩ := x
    obtain ⟨s₁, h₁, hview₁⟩ := hx
    cases y with
    | error b =>
      obtain ⟨s₂, h₂, -⟩ := hy
      cases h₁.final_unique h₂ rfl rfl
    | ok y =>
      obtain ⟨y, ⟨l₂, tr₂, log₂⟩⟩ := y
      obtain ⟨s₂, h₂, hview₂⟩ := hy
      cases h₁.final_unique h₂ rfl rfl
      rw [hview₁] at hview₂
      obtain ⟨rfl, htrace, rfl⟩ := AstState.mk.inj hview₂
      obtain ⟨rfl, hend⟩ := List.append_inj' htrace (hlength x y)
      rw [hlast x y hend]

end Polyc
