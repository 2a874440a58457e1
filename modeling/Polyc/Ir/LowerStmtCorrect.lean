import Polyc.Ir.StmtInv

/-!
# Lowered control flow

The scan of a function follows its lowering: it fails where the lowering aborts, and it knows
which labels are lowered and named.  So a function has every block that it names exactly once
when every named label is lowered exactly once.
-/

namespace Polyc

open IrCtx FnCtx

/-! ### Scans that follow lowerings -/

/-- A relation of results is carried through what is done with them. -/
theorem rel_bind {α α' β β' : Type}
    {r : α → β → Prop} {r' : α' → β' → Prop} {x : Option α} {y : Option β}
    {f : α → Option α'} {g : β → Option β'} (h : Option.Rel r x y)
    (hf : ∀ a b, r a b → Option.Rel r' (f a) (g b)) :
  Option.Rel r' (x >>= f) (y >>= g)
  := by
  cases h with
  | none => apply Option.Rel.none
  | some hab => apply hf _ _ hab

/-- A scan fails where a lowering aborts, and knows the context that it leaves. -/
def Scanned (A : Around) (P : List Nat) (K : Set Nat) : Option Scan → Option FnCtx → Prop :=
  Option.Rel fun st s => StmtInv A P K s st

/-- A context that is known. -/
theorem StmtInv.scanned
    {A : Around} {P : List Nat} {K : Set Nat} {s : FnCtx} {st : Scan}
    (h : StmtInv A P K s st) :
  Scanned A P K (some st) (some s)
  := Option.Rel.some h

/-- A scan follows a lowering from every context that it knows. -/
def Simulates (hasRet : Bool) (scan : Scan → Option Scan) (lower : LowerStmt) : Prop :=
  ∀ A P K s st, A.hasRet = hasRet → StmtInv A P K s st → Scanned A P K (scan st) (lower s)

/-- A scan follows a lowering from every context that it knows whose block is not sealed. -/
def SimulatesLive (hasRet : Bool) (scan : Scan → Option Scan) (lower : LowerStmt) : Prop :=
  ∀ A P K s st, A.hasRet = hasRet → StmtInv A P K s st → st.live = true →
    Scanned A P K (scan st) (lower s)

section
variable {hasRet : Bool} {scan scan₁ scan₂ : Scan → Option Scan}
  {lower lower₁ lower₂ : LowerStmt}

/-- A statement is dropped after a sealed block. -/
theorem SimulatesLive.unlessDropped (h : SimulatesLive hasRet scan lower) :
  Simulates hasRet (Scan.unlessDropped scan) (unlessSealed lower)
  := by
  intro A P K s st hA hinv
  rw [Scan.unlessDropped, unlessSealed, hinv.live]
  cases hlive : st.live with
  | true => apply h A P K s st hA hinv hlive
  | false => apply hinv.scanned

/-- A scan that follows a lowering does so where the block is not sealed. -/
theorem Simulates.live (h : Simulates hasRet scan lower) :
  SimulatesLive hasRet scan lower
  := by
  intro A P K s st hA hinv _
  apply h A P K s st hA hinv

/-- A null statement. -/
theorem simulates_some :
  Simulates hasRet some some
  := by
  intro A P K s st _ hinv
  apply hinv.scanned

/-- One statement after another. -/
theorem Simulates.andThen
    (h₁ : Simulates hasRet scan₁ lower₁) (h₂ : Simulates hasRet scan₂ lower₂) :
  Simulates hasRet (fun st => scan₁ st >>= scan₂) fun s => lower₁ s >>= lower₂
  := by
  intro A P K s st hA hinv
  apply rel_bind (h₁ A P K s st hA hinv)
  intro st₁ s₁ hinv₁
  apply h₂ A P K s₁ st₁ hA hinv₁

/-! ### Statements without blocks of their own -/

/-- An expression, whatever its value is. -/
theorem simulates_expr (e : Ast) :
  SimulatesLive hasRet (·.expr e) fun s => (s.expr e).map Prod.snd
  := by
  intro A P K s st _ hinv hlive
  dsimp only
  rw [← bind_pure (st.expr e), Option.map_eq_bind]
  apply rel_bind (hinv.expr hlive e)
  rintro st' ⟨_, s'⟩ ⟨hinv', -⟩
  apply hinv'.scanned

/-- An expression as a statement. -/
theorem simulates_irLowerExprStmt (e : Ast) :
  SimulatesLive hasRet (scanExprStmt e) (irLowerExprStmt e)
  := by
  cases e with
  | lvar _ => exact simulates_some.live
  | literal _ | cast _ _ => exact fun _ _ _ _ _ _ _ _ => Option.Rel.none
  | _ => apply simulates_expr

/-- A declaration. -/
theorem simulates_irLowerDecl (declvar : Nat) (declinit : Option Ast) :
  SimulatesLive hasRet (scanDecl declvar declinit) (irLowerDecl declvar declinit)
  := by
  intro A P K s st _ hinv hlive
  have hiff : declvar ∈ s.declared ↔ declvar ∈ st.declared := by rw [hinv.declared]
  rw [scanDecl, irLowerDecl]
  by_cases hmem : declvar ∈ st.declared
  · rw [if_pos hmem, if_pos (hiff.mpr hmem)]
    apply Option.Rel.none
  · rw [if_neg hmem, if_neg (hmem ∘ hiff.mp)]
    have hdeclare := hinv.declare declvar
    have hslot : StmtInv A P K
        (if (s.vars.value declvar).pinnedReg.isSome = true then
          { s with declared := declvar :: s.declared }
        else ({ s with declared := declvar :: s.declared } : FnCtx).on
          fun c => (c.irTmp .i64 8).2)
        { st with declared := declvar :: st.declared } := by
      split
      · apply hdeclare
      · apply hdeclare.stay hlive
        apply FlowStep.of_eq hdeclare.flow (hdeclare.not_sealed hlive) <;> rfl
    cases declinit with
    | none => apply hslot.scanned
    | some init =>
      dsimp only
      rw [← bind_pure (Scan.expr _ init)]
      apply rel_bind (hslot.expr hlive init)
      rintro st' ⟨irInit, s'⟩ ⟨hinv', hlive'⟩
      apply StmtInv.scanned
      apply hinv'.stay hlive'
      have hwiden : FlowStep {id | id ∈ P} s'.labelBlocks (s'.blocksOf st'.named) false
          s'.toIrCtx
          (if (s.vars.value declvar).pinnedReg.isSome = true then (irInit, s'.toIrCtx)
            else s'.irWidenToTargetWidth irInit init.issigned).2 := by
        split
        · apply FlowStep.of_eq hinv'.flow (hinv'.not_sealed hlive') <;> rfl
        · apply flowStep_irWidenToTargetWidth hinv'.flow (hinv'.not_sealed hlive')
      apply hwiden.andThen
      · intro N' h' hlive''
        apply flowStep_irAssignTo h' hlive''

/-- A `return`. -/
theorem simulates_irLowerReturn (retval : Option Ast) :
  SimulatesLive hasRet
    (fun st => do
      let st ←
        match retval with
        | some retval => if hasRet then st.expr retval else pure st
        | none => pure st
      return st.leave)
    (irLowerReturn retval)
  := by
  intro A P K s st hA hinv hlive
  have hjump : ∀ s st, StmtInv A P K s st → st.live = true →
      Scanned A P K (some st.leave) (some (s.on (·.irJump s.exitBlock))) := by
    intro s st h hlive
    rw [h.exit.1]
    apply (h.jump hlive h.exit.2).scanned
  cases retval with
  | none => apply hjump s st hinv hlive
  | some retval =>
    have hret := hinv.ret
    rw [hA] at hret
    unfold irLowerReturn
    cases hrv : s.returnValue with
    | none =>
      rw [hrv] at hret
      cases hret
      apply hjump s st hinv hlive
    | some rv =>
      rw [hrv] at hret
      cases hret
      change Scanned A P K (st.expr retval >>= fun st => some st.leave) _
      apply rel_bind (hinv.expr hlive retval)
      rintro st' ⟨val, s'⟩ ⟨hinv', hlive'⟩
      apply hjump _ _ _ hlive'
      apply hinv'.stay hlive'
      have hwiden : FlowStep {id | id ∈ P} s'.labelBlocks (s'.blocksOf st'.named) false
          s'.toIrCtx
          (if val.kind = .tmp ∧ val.as.varSize < irValueByteSize (some rv) then
            s'.compute .i64 { op := if retval.issigned then .sext else .zext, r1 := val }
          else (val, s'.toIrCtx)).2 := by
        split
        · apply FlowStep.compute hinv'.flow (hinv'.not_sealed hlive') .i64
          · cases retval.issigned <;> rfl
          · cases retval.issigned <;> rfl
        · apply FlowStep.of_eq hinv'.flow (hinv'.not_sealed hlive') <;> rfl
      apply hwiden.andThen
      intro N' h' hlive''
      apply FlowStep.add h' hlive'' rfl rfl

/-- A `throw`. -/
theorem simulates_irLowerThrow (throwValue : Ast) :
  SimulatesLive hasRet
    (fun st => do
      let st ← st.expr throwValue
      return st.leave)
    (irLowerThrow throwValue)
  := by
  intro A P K s st _ hinv hlive
  apply rel_bind (hinv.expr hlive throwValue)
  rintro st' ⟨val, s'⟩ ⟨hinv', hlive'⟩
  have hcall : StmtInv A P K { s' with toIrCtx := (s'.irTmp .i64 8).2 } st' := by
    apply hinv'.stay hlive'
    apply FlowStep.of_eq hinv'.flow (hinv'.not_sealed hlive') <;> rfl
  apply StmtInv.scanned
  apply hcall.leave _ hcall.named
  apply sealed_irBlockAddInstr hcall.flow (hcall.not_sealed hlive') (.inr _) rfl
  simp [IrInstr.throws]

/-- A `break`. -/
theorem simulates_break :
  SimulatesLive hasRet (fun st => if st.loops = [] then none else some st.leave)
    (irLowerLoopJump fun lc => lc.breakBlock)
  := by
  intro A P K s st _ hinv hlive
  dsimp only
  rw [irLowerLoopJump, hinv.loopStack, ← hinv.loops]
  cases hA : A.loopStack with
  | nil => apply Option.Rel.none
  | cons lc loops =>
    have htarget : lc ∈ A.loopStack := by
      rw [hA]
      apply List.mem_cons_self
    apply (hinv.jump hlive (hinv.targets lc htarget).1).scanned

/-- A `continue`. -/
theorem simulates_continue :
  SimulatesLive hasRet (fun st => if st.loops.head? = some true then some st.leave else none)
    (irLowerLoopJump fun lc => lc.continueBlock)
  := by
  intro A P K s st _ hinv hlive
  dsimp only
  rw [irLowerLoopJump, hinv.loopStack, ← hinv.loops]
  cases hA : A.loopStack with
  | nil => apply Option.Rel.none
  | cons lc loops =>
    have htarget : lc ∈ A.loopStack := by
      rw [hA]
      apply List.mem_cons_self
    obtain ⟨continueBlock, breakBlock⟩ := lc
    cases continueBlock with
    | none => apply Option.Rel.none
    | some b => apply (hinv.jump hlive ((hinv.targets _ htarget).2 b rfl)).scanned

/-- A `goto`. -/
theorem simulates_irLowerGoto (slabel : String) :
  SimulatesLive hasRet (fun st => some { st.enter with named := slabel :: st.named })
    (irLowerGoto slabel)
  := by
  intro A P K s st _ hinv hlive
  obtain ⟨h₁, hl⟩ := hinv.labelBlock slabel
  have h₂ := h₁.jumpLabel hlive hl
  have h₃ := (StmtInv.blockNew [] h₂).enter rfl
  exact (h₃.weaken h₁ (Set.subset_insert _ _)).scanned

/-- A label. -/
theorem simulates_irLowerLabel (slabel : String) :
  Simulates hasRet (fun st => some (st.label slabel)) (irLowerLabel slabel)
  := by
  intro A P K s st _ hinv
  obtain ⟨h₁, hl⟩ := hinv.labelBlock slabel
  apply StmtInv.scanned
  change StmtInv A P K (((s.labelBlock slabel).2.jumpUnlessSealed (s.labelBlock slabel).1).on
    (·.irFnAddBlock (s.labelBlock slabel).1)) _
  rw [Scan.label, FnCtx.jumpUnlessSealed, h₁.live]
  cases hlive : st.live with
  | true => apply (h₁.jumpLabel hlive hl).enterLabel rfl hl
  | false => apply h₁.enterLabel hlive hl

/-! ### Branches and loops -/

/-- An `if` without an `else`. -/
theorem Simulates.irLowerIf (hthen : Simulates hasRet scan lower) (cond : Ast) :
  SimulatesLive hasRet
    (fun st => do
      let st ← st.expr cond
      let st ← scan st.enter
      return st.enter)
    (irLowerIf cond lower none)
  := by
  intro A P K s st hA hinv hlive
  apply rel_bind (hinv.expr hlive cond)
  rintro st₁ ⟨condVal, s₁⟩ ⟨h₁, hlive₁⟩
  have h₂ := StmtInv.blockNew [_] (StmtInv.blockNew [] h₁)
  have h₃ := h₂.branch hlive₁ condVal (.inr (.inl rfl)) (.inl rfl)
  apply rel_bind (hthen _ _ _ _ _ hA (h₃.enter rfl))
  intro st₄ s₄ h₄
  have h₅ := (h₄.jumpUnlessSealed (.inl rfl)).enter rfl
  apply (h₅.weaken hinv fun _ hid => .inr (.inr hid)).scanned

/-- An `if` with an `else`. -/
theorem Simulates.irLowerIfElse
    (hthen : Simulates hasRet scan₁ lower₁) (hels : Simulates hasRet scan₂ lower₂)
    (cond : Ast) :
  SimulatesLive hasRet
    (fun st => do
      let st ← st.expr cond
      let st ← scan₁ st.enter
      let st ← scan₂ st.enter
      return st.enter)
    (FnCtx.irLowerIf cond lower₁ (some lower₂))
  := by
  intro A P K s st hA hinv hlive
  apply rel_bind (hinv.expr hlive cond)
  rintro st₁ ⟨condVal, s₁⟩ ⟨h₁, hlive₁⟩
  have h₂ := StmtInv.blockNew [_, _] (StmtInv.blockNew [_] (StmtInv.blockNew [] h₁))
  have h₃ := h₂.branch hlive₁ condVal (.inr (.inr (.inl rfl))) (.inr (.inl rfl))
  apply rel_bind (hthen _ _ _ _ _ hA (h₃.enter rfl))
  intro st₄ s₄ h₄
  have h₅ := h₄.jumpUnlessSealed (.inl rfl)
  apply rel_bind (hels _ _ _ _ _ hA (h₅.enter rfl))
  intro st₆ s₆ h₆
  have h₇ := (h₆.jumpUnlessSealed (.inl rfl)).enter rfl
  apply (h₇.weaken hinv fun _ hid => .inr (.inr (.inr hid))).scanned

/-- The end of a loop or a switch. -/
theorem StmtInv.endLoop
    {A : Around} {P P' : List Nat} {K K' : Set Nat} {s s' : FnCtx} {st st' : Scan}
    {continueBlk : Option Nat} {breakBlk p : Nat}
    (h : StmtInv (A.push continueBlk breakBlk) (p :: P) K' s st) (hlive : st.live = false)
    (h' : StmtInv A P' K s' st') (hK : K ⊆ K') :
  Scanned A P K (some st.pop.enter)
    (s.irPopLoopCtx >>= fun s => some (s.on (·.irFnAddBlock p)))
  := by
  obtain ⟨hpop, hinv⟩ := h.pop
  rw [hpop]
  apply ((hinv.enter hlive).weaken h' hK).scanned

/-- A `while` loop. -/
theorem Simulates.irLowerWhileLoop (hbody : Simulates hasRet scan lower) (cond : Ast) :
  SimulatesLive hasRet
    (fun st => do
      let st ← st.enter.expr cond
      let st ← st.push true
      let st ← scan st.enter
      return st.pop.enter)
    (FnCtx.irLowerWhileLoop cond lower)
  := by
  intro A P K s st hA hinv hlive
  have h₁ := StmtInv.blockNew [_, _] (StmtInv.blockNew [_] (StmtInv.blockNew [] hinv))
  have h₂ := (h₁.jump hlive (.inr (.inr (.inl rfl)))).enter rfl
  apply rel_bind (h₂.expr rfl cond)
  rintro st₃ ⟨condVal, s₃⟩ ⟨h₃, hlive₃⟩
  have h₄ := h₃.branch hlive₃ condVal (.inr (.inl rfl)) (.inl rfl)
  apply rel_bind (StmtInv.pushLoop h₄ (.inl rfl) (.inr (.inr (.inl rfl))))
  intro st₅ s₅ h₅
  apply rel_bind (hbody (A.push _ _) _ _ _ _ hA (h₅.enter rfl))
  intro st₆ s₆ h₆
  have h₇ := StmtInv.jumpUnlessSealed h₆ (.inr (.inr (.inl rfl)))
  apply h₇.endLoop rfl hinv fun _ hid => .inr (.inr (.inr hid))

/-- A `do while` loop. -/
theorem Simulates.irLowerDoWhileLoop (hbody : Simulates hasRet scan lower) (cond : Ast) :
  SimulatesLive hasRet
    (fun st => do
      let st ← st.push true
      let st ← scan st.enter
      let st ← st.enter.expr cond
      return st.pop.enter)
    (FnCtx.irLowerDoWhileLoop cond lower)
  := by
  intro A P K s st hA hinv hlive
  have h₁ := StmtInv.blockNew [_, _] (StmtInv.blockNew [_] (StmtInv.blockNew [] hinv))
  have h₂ := h₁.jump hlive (.inr (.inr (.inl rfl)))
  apply rel_bind (StmtInv.pushLoop h₂ (.inl rfl) (.inr (.inl rfl)))
  intro st₃ s₃ h₃
  apply rel_bind (hbody (A.push _ _) _ _ _ _ hA (h₃.enter rfl))
  intro st₄ s₄ h₄
  have h₅ := (StmtInv.jumpUnlessSealed h₄ (.inr (.inl rfl))).enter rfl
  apply rel_bind (h₅.expr rfl cond)
  rintro st₆ ⟨condVal, s₆⟩ ⟨h₆, hlive₆⟩
  have h₇ := StmtInv.branch h₆ hlive₆ condVal (.inr (.inr (.inl rfl))) (.inl rfl)
  apply h₇.endLoop rfl hinv fun _ hid => .inr (.inr (.inr hid))

/-- A `for` loop after its condition. -/
theorem scanned_forbody
    {scanStep scanBody : Scan → Option Scan} {forstep forbody : LowerStmt}
    (hstep : Simulates hasRet scanStep forstep) (hbody : Simulates hasRet scanBody forbody)
    {A : Around} {P P' : List Nat} {K K' : Set Nat} {s s' : FnCtx} {st st' : Scan}
    {header body step endBlock : Nat} (hA : A.hasRet = hasRet)
    (h : StmtInv A (body :: step :: endBlock :: P) K' s st.leave) (hheader : header ∈ K')
    (hstepBlock : step ∈ K') (hend : endBlock ∈ K') (h' : StmtInv A P' K s' st')
    (hK : K ⊆ K') :
  Scanned A P K
    (do
      let st ← st.push true
      let st ← scanBody st.enter
      let st ← scanStep st.enter
      return st.pop.enter)
    (do
      let ctx ← s.irPushLoopCtx (some step) endBlock
      let ctx ← forbody (ctx.on (·.irFnAddBlock body))
      let ctx ← forstep ((ctx.jumpUnlessSealed step).on (·.irFnAddBlock step))
      let ctx ← (ctx.jumpUnlessSealed header).irPopLoopCtx
      return ctx.on (·.irFnAddBlock endBlock))
  := by
  apply rel_bind (StmtInv.pushLoop h hend hstepBlock)
  intro st₁ s₁ h₁
  apply rel_bind (hbody (A.push _ _) _ _ _ _ hA (h₁.enter rfl))
  intro st₂ s₂ h₂
  have h₃ := (h₂.jumpUnlessSealed hstepBlock).enter rfl
  apply rel_bind (hstep (A.push _ _) _ _ _ _ hA h₃)
  intro st₄ s₄ h₄
  apply (h₄.jumpUnlessSealed hheader).endLoop rfl h' hK

/-- A `for` loop. -/
theorem Simulates.irLowerForLoop
    {scanInit scanStep scanBody : Scan → Option Scan} {forinit forstep forbody : LowerStmt}
    (hinit : Simulates hasRet scanInit forinit) (hstep : Simulates hasRet scanStep forstep)
    (hbody : Simulates hasRet scanBody forbody) (forcond : Option Ast) :
  SimulatesLive hasRet
    (fun st => do
      let st ← scanInit st
      if st.live then
        let st ←
          match forcond with
          | some cond => st.enter.expr cond
          | none => pure st.enter
        let st ← st.push true
        let st ← scanBody st.enter
        let st ← scanStep st.enter
        return st.pop.enter
      else return st)
    (FnCtx.irLowerForLoop forinit forcond forstep forbody)
  := by
  intro A P K s st hA hinv _
  apply rel_bind (hinit A P K s st hA hinv)
  intro st₁ s₁ h₁
  rw [h₁.live]
  cases hlive : st₁.live with
  | false => apply h₁.scanned
  | true =>
    have h₂ := StmtInv.blockNew [_, _, _] (StmtInv.blockNew [_, _] (StmtInv.blockNew [_]
      (StmtInv.blockNew [] h₁)))
    have h₃ := (h₂.jump hlive (.inr (.inr (.inr (.inl rfl))))).enter rfl
    cases forcond with
    | none =>
      have h₄ := h₃.jump rfl (.inr (.inr (.inl rfl)))
      apply scanned_forbody hstep hbody hA h₄ (.inr (.inr (.inr (.inl rfl)))) (.inr (.inl rfl))
        (.inl rfl) hinv fun _ hid => .inr (.inr (.inr (.inr hid)))
    | some cond =>
      apply rel_bind (h₃.expr rfl cond)
      rintro st₄ ⟨condVal, s₄⟩ ⟨h₄, hlive₄⟩
      have h₅ := h₄.branch hlive₄ condVal (.inr (.inr (.inl rfl))) (.inl rfl)
      apply scanned_forbody hstep hbody hA h₅ (.inr (.inr (.inr (.inl rfl)))) (.inr (.inl rfl))
        (.inl rfl) hinv fun _ hid => .inr (.inr (.inr (.inr hid)))

/-! ### Exceptions -/

/-- A call of the runtime. -/
theorem StmtInv.runtimeCall
    {A : Around} {P : List Nat} {K : Set Nat} {s : FnCtx} {st : Scan}
    (h : StmtInv A P K s st) (hlive : st.live = true) (fname : Word) (arg : IrValue) :
  StmtInv A P K (s.irEmitRuntimeCall1 fname arg).2 st
  := by
  apply h.stay hlive
  apply (FlowStep.irTmp h.flow (h.not_sealed hlive) .i64 8).andThen
  intro N' h' hlive'
  apply FlowStep.add h' hlive' rfl rfl

/-- The frame of a `try`. -/
theorem StmtInv.tryFrame
    {A : Around} {P : List Nat} {K : Set Nat} {s : FnCtx} {st : Scan}
    (h : StmtInv A P K s st) (hlive : st.live = true) :
  StmtInv A P K s.tryFrame.2 st
  := by
  apply h.stay hlive
  have hcounters : FlowStep {id | id ∈ P} s.labelBlocks (s.blocksOf st.named) false s.toIrCtx
      ((s.irConstInt .i64 256).2.irTmp .ptr 256).2 :=
    FlowStep.of_eq h.flow (h.not_sealed hlive) rfl rfl rfl rfl rfl
  apply hcounters.andThen
  intro N₁ h₁ hlive₁
  apply (FlowStep.add h₁ hlive₁ (I := { op := .alloca, dst := _, r1 := _ }) rfl rfl).andThen
  intro N₂ h₂ hlive₂
  apply (FlowStep.irTmp h₂ hlive₂ .ptr 8).andThen
  intro N₃ h₃ hlive₃
  apply FlowStep.add h₃ hlive₃ rfl rfl

/-- A comparison with a constant, and a branch on it. -/
theorem StmtInv.branchOn
    {A : Around} {P : List Nat} {K : Set Nat} {s : FnCtx} {st : Scan}
    (h : StmtInv A P K s st) (hlive : st.live = true) (type : IrValueType) (size : Nat)
    (val : IrValue) (num : Word) (cmpKind : IrCmpKind) {t f : Nat} (ht : t ∈ K) (hf : f ∈ K) :
  StmtInv A P K
    (s.on fun c =>
      ((((c.irTmp type size).2.irConstInt .i64 num).2.irBlockAddInstr
        { op := .icmp, dst := (c.irTmp type size).1, r1 := val
          r2 := ((c.irTmp type size).2.irConstInt .i64 num).1, cmpKind := cmpKind }).irBranch
            (c.irTmp type size).1 t f)) st.leave
  := by
  have hstep := FlowStep.icmp h.flow (h.not_sealed hlive) type size val num cmpKind
  apply (h.stay hlive hstep).branch hlive _ ht hf

/-- The end of the body of a `try`. -/
theorem StmtInv.tryLeave
    {A : Around} {P : List Nat} {K : Set Nat} {s : FnCtx} {st : Scan} {endBlock : Nat}
    (h : StmtInv A P K s st) (hend : endBlock ∈ K) (frameAddr : IrValue) :
  StmtInv A P K
    (if s.sealed s.curBlock then s
      else (s.irEmitRuntimeCall1 hccTryLeave frameAddr).2.on (·.irJump endBlock)) st.leave
  := by
  rw [h.live]
  cases hlive : st.live with
  | true => apply (h.runtimeCall hlive hccTryLeave frameAddr).jump hlive hend
  | false =>
    rw [Scan.leave_eq hlive]
    apply h

/-- A `try`. -/
theorem Simulates.irLowerTry
    (hbody : Simulates hasRet scan₁ lower₁) (hcatch : Simulates hasRet scan₂ lower₂) :
  SimulatesLive hasRet
    (fun st => do
      let st ← scan₁ st.enter
      let st ← scan₂ st.enter
      return st.enter)
    (FnCtx.irLowerTry lower₁ lower₂)
  := by
  intro A P K s st hA hinv hlive
  have hframe := hinv.tryFrame hlive
  rw [FnCtx.irLowerTry]
  generalize s.tryFrame = frame at hframe ⊢
  obtain ⟨frameAddr, s₁⟩ := frame
  have hcalls := (hframe.runtimeCall hlive hccPushFrame frameAddr).runtimeCall hlive setjmp
    frameAddr
  dsimp only at hcalls ⊢
  generalize (s₁.irEmitRuntimeCall1 hccPushFrame frameAddr).2.irEmitRuntimeCall1 setjmp
    frameAddr = enter at hcalls ⊢
  obtain ⟨enterRet, s₂⟩ := enter
  have h₁ := StmtInv.blockNew [_, _] (StmtInv.blockNew [_] (StmtInv.blockNew [] hcalls))
  have h₂ := h₁.branchOn hlive .i64 8 enterRet 0 .eq (.inr (.inr (.inl rfl))) (.inr (.inl rfl))
  apply rel_bind (hbody _ _ _ _ _ hA (h₂.enter rfl))
  intro st₃ s₃ h₃
  have h₄ := h₃.tryLeave (.inl rfl) frameAddr
  apply rel_bind (hcatch _ _ _ _ _ hA ((h₄.enter rfl).runtimeCall rfl hccTryLeave frameAddr))
  intro st₅ s₅ h₅
  have h₆ := (h₅.jumpUnlessSealed (.inl rfl)).enter rfl
  apply (h₆.weaken hinv fun _ hid => .inr (.inr (.inr hid))).scanned

/-! ### Switches -/

/-- The new blocks of the cases of a switch. -/
theorem StmtInv.blocksNew
    {A : Around} {P : List Nat} {st : Scan} (n : Nat) :
    ∀ {K : Set Nat} {s : FnCtx} (ids : List Nat), StmtInv A (ids ++ P) K s st →
  StmtInv A (ids ++ (FnCtx.blocksNew n s).1 ++ P) (K ∪ {id | id ∈ (FnCtx.blocksNew n s).1})
      (FnCtx.blocksNew n s).2 st
    ∧ (FnCtx.blocksNew n s).1.length = n
  := by
  induction n with
  | zero =>
    intro K s ids h
    constructor
    · simpa [FnCtx.blocksNew] using h
    · rfl
  | succ n ih =>
    intro K s ids h
    have hnew := StmtInv.blockNew ids h
    rw [List.append_cons] at hnew
    obtain ⟨hrest, hlength⟩ := ih (ids ++ [s.blockId]) hnew
    have hset : insert s.blockId K ∪ {id | id ∈ (FnCtx.blocksNew n s.blockNew.2).1}
        = K ∪ {id | id ∈ s.blockId :: (FnCtx.blocksNew n s.blockNew.2).1} := by
      ext id
      simp only [Set.mem_union, Set.mem_insert_iff, Set.mem_ofPred_eq, List.mem_cons]
      tauto
    rw [hset, List.append_assoc ids [s.blockId]] at hrest
    exact ⟨hrest, congrArg (· + 1) hlength⟩

section
variable {A : Around} {P : List Nat} {K : Set Nat} {s : FnCtx} {st : Scan}

/-- The test of one case of a switch. -/
theorem StmtInv.caseTest
    (h : StmtInv A P K s st) (hlive : st.live = true) (cond : IrValue)
    (caseBegin caseEnd : Word) {body nextTest : Nat} (hbody : body ∈ K) (hnext : nextTest ∈ K) :
  StmtInv A P K (s.irLowerCaseTest cond caseBegin caseEnd body nextTest) st.leave
  := by
  rw [irLowerCaseTest]
  split
  · apply h.branchOn hlive .i8 1 cond caseBegin .eq hbody hnext
  · have h₁ := StmtInv.blockNew [] h
    have h₂ := h₁.branchOn hlive .i8 1 cond caseBegin .ge (.inl rfl) (.inr hnext)
    have h₃ := (h₂.enter rfl).branchOn rfl .i8 1 cond caseEnd .le (.inr hbody) (.inr hnext)
    apply (h₃.weaken h (Set.subset_insert _ _)).anyHere rfl st.here

/-- The tests of the cases of a switch. -/
theorem StmtInv.caseTests
    (cond : IrValue) {defaultBlock : Nat} :
    ∀ (cases : List (AstCase × Nat)) {K : Set Nat} {s : FnCtx} {st : Scan}, cases ≠ [] →
      StmtInv A P K s st → st.live = true → (∀ p ∈ cases, p.2 ∈ K) → defaultBlock ∈ K →
  StmtInv A P K (irLowerCaseTests cond defaultBlock cases s) st.leave
  | [], _, _, _, hne, _, _, _, _ => by cases hne rfl
  | [(.mk caseBegin caseEnd _, body)], _, _, _, _, h, hlive, hbody, hdefault =>
    h.caseTest hlive cond caseBegin caseEnd (hbody _ List.mem_cons_self) hdefault
  | (.mk caseBegin caseEnd _, body) :: p :: cases, K, s, st, _, h, hlive, hbody, hdefault => by
    have h₁ := StmtInv.blockNew [] h
    have h₂ := h₁.caseTest hlive cond caseBegin caseEnd (.inr (hbody _ List.mem_cons_self))
      (.inl rfl)
    have h₃ := StmtInv.caseTests cond (p :: cases) (List.cons_ne_nil _ _) (h₂.enter rfl) rfl
      (fun q hq => .inr (hbody q (List.mem_cons_of_mem _ hq))) (.inr hdefault)
    apply (h₃.weaken h (Set.subset_insert _ _)).anyHere rfl st.here

/-- The tests of the cases of a switch, or a jump to the default block. -/
theorem StmtInv.switchTests
    (h : StmtInv A P K s st) (hlive : st.live = true) (cond : IrValue) {defaultBlock : Nat}
    (hdefault : defaultBlock ∈ K) (cases : List AstCase) {ids : List Nat}
    (hlength : ids.length = cases.length) (hids : ∀ id ∈ ids, id ∈ K) :
  StmtInv A P K
    (if cases = [] then
      (irLowerCaseTests cond defaultBlock (cases.zip ids) s).jumpUnlessSealed defaultBlock
    else irLowerCaseTests cond defaultBlock (cases.zip ids) s) st.leave
  := by
  cases cases with
  | nil =>
    rw [if_pos rfl]
    apply h.jumpUnlessSealed hdefault
  | cons c cases =>
    rw [if_neg (List.cons_ne_nil _ _)]
    apply h.caseTests cond _ _ hlive _ hdefault
    · cases ids with
      | nil => cases hlength
      | cons id ids => apply List.cons_ne_nil
    · intro p hp
      apply hids p.2 (List.of_mem_zip hp).2

end

/-- A scan of the bodies of cases follows their lowering into their blocks. -/
def SimulatesCases (hasRet : Bool) (cases : List AstCase) : Prop :=
  ∀ A P K s st ids defaultBlock, A.hasRet = hasRet → ids.length = cases.length →
    (∀ id ∈ ids, id ∈ K) → defaultBlock ∈ K → StmtInv A (ids ++ P) K s st.leave →
    Option.Rel (fun st s => StmtInv A P K s st.leave) (scanCases hasRet cases st)
      (irLowerCases cases ids defaultBlock s)

/-- A switch from the blocks of its cases on to its default case. -/
theorem SimulatesCases.switchBody
    {cases : List AstCase} (hcases : SimulatesCases hasRet cases) {A : Around}
    {P Q ids : List Nat} {K K' : Set Nat} {s : FnCtx} {st : Scan} {endBlock defaultBlock : Nat}
    {scanRest : Scan → Option Scan} {rest : LowerStmt} (hA : A.hasRet = hasRet)
    (h : StmtInv A (ids ++ Q) K' s st) (hlive : st.live = true) (cond : IrValue)
    (hend : endBlock ∈ K') (hdefault : defaultBlock ∈ K') (hlength : ids.length = cases.length)
    (hids : ∀ id ∈ ids, id ∈ K')
    (hrest : ∀ st s, StmtInv (A.push none endBlock) Q K' s st.leave →
      Scanned A P K (scanRest st) (rest s)) :
  Scanned A P K
    (do
      let st ← st.push false
      let st ← scanCases hasRet cases st
      scanRest st)
    (do
      let ctx ← s.irPushLoopCtx none endBlock
      let ctx := ctx.irLowerCaseTests cond defaultBlock (cases.zip ids)
      let ctx := if cases = [] then ctx.jumpUnlessSealed defaultBlock else ctx
      let ctx ← irLowerCases cases ids defaultBlock ctx
      rest ctx)
  := by
  have h' : StmtInv A (ids ++ Q) K' s { st with live := st.live } := h
  apply rel_bind (h'.push none hend nofun)
  intro st₁ s₁ h₁
  have h₂ := StmtInv.switchTests h₁ hlive cond hdefault cases hlength hids
  apply rel_bind (hcases (A.push _ _) _ _ _ st₁ _ _ hA hlength hids hdefault h₂)
  apply hrest

/-- A switch without a default case. -/
theorem SimulatesCases.irLowerSwitch
    {cases : List AstCase} (hcases : SimulatesCases hasRet cases) (switchCond : Ast) :
  SimulatesLive hasRet
    (fun st => do
      let st ← st.expr switchCond
      let st ← st.push false
      let st ← scanCases hasRet cases st
      let st ← scanDefault hasRet none st
      return st.pop.enter)
    (FnCtx.irLowerSwitch switchCond cases (irLowerCases cases) none)
  := by
  intro A P K s st hA hinv hlive
  apply rel_bind (hinv.expr hlive switchCond)
  rintro st₁ ⟨cond, s₁⟩ ⟨h₁, hlive₁⟩
  obtain ⟨h₂, hlength⟩ := StmtInv.blocksNew cases.length [] (StmtInv.blockNew [] h₁)
  apply hcases.switchBody hA h₂ hlive₁ cond (.inl (.inl rfl)) (.inl (.inl rfl)) hlength
    fun _ hid => .inr hid
  intro st₃ s₃ h₃
  apply h₃.endLoop rfl hinv fun _ hid => .inl (.inr hid)

/-- A switch with a default case. -/
theorem SimulatesCases.irLowerSwitchDefault
    {cases : List AstCase} {caseAsts : List AstStmt} (hcases : SimulatesCases hasRet cases)
    (hdefault : Simulates hasRet (scanAsts hasRet caseAsts) (irLowerAsts caseAsts))
    (switchCond : Ast) :
  SimulatesLive hasRet
    (fun st => do
      let st ← st.expr switchCond
      let st ← st.push false
      let st ← scanCases hasRet cases st
      let st ← scanDefault hasRet (some caseAsts) st
      return st.pop.enter)
    (FnCtx.irLowerSwitch switchCond cases (irLowerCases cases) (some (irLowerAsts caseAsts)))
  := by
  intro A P K s st hA hinv hlive
  apply rel_bind (hinv.expr hlive switchCond)
  rintro st₁ ⟨cond, s₁⟩ ⟨h₁, hlive₁⟩
  obtain ⟨h₂, hlength⟩ :=
    StmtInv.blocksNew cases.length [] (StmtInv.blockNew [] (StmtInv.blockNew [] h₁))
  apply hcases.switchBody hA h₂ hlive₁ cond (.inl (.inr (.inl rfl))) (.inl (.inl rfl)) hlength
    fun _ hid => .inr hid
  intro st₃ s₃ h₃
  apply rel_bind (hdefault (A.push _ _) _ _ _ _ hA (h₃.enter rfl))
  intro st₄ s₄ h₄
  have h₅ := h₄.jumpUnlessSealed (.inl (.inr (.inl rfl)))
  apply h₅.endLoop rfl hinv fun _ hid => .inl (.inr (.inr hid))

/-! ### Statements -/

mutual

/-- The scan of a statement follows its lowering. -/
theorem simulates_irLowerAst : ∀ stm : AstStmt,
  Simulates hasRet (scanAst hasRet stm) (irLowerAst stm)
  | .empty => simulates_some
  | .expr e => (simulates_irLowerExprStmt e).unlessDropped
  | .decl declvar declinit => (simulates_irLowerDecl declvar declinit).unlessDropped
  | .compound stms => (simulates_irLowerAsts stms).live.unlessDropped
  | .«if» cond thenStmt els => by
    have hthen := simulates_irLowerAst thenStmt
    have hels := simulates_irLowerAst els
    cases els with
    | empty => apply (hthen.irLowerIf cond).unlessDropped
    | _ => apply (hthen.irLowerIfElse hels cond).unlessDropped
  | .«for» forinit forcond forstep forbody => by
    have hinit := simulates_irLowerAst forinit
    have hstep := simulates_irLowerAst forstep
    have hbody := simulates_irLowerAst forbody
    cases forbody with
    | empty => apply simulates_some
    | _ => apply (hinit.irLowerForLoop hstep hbody forcond).unlessDropped
  | .«while» whilecond whilebody =>
    ((simulates_irLowerAst whilebody).irLowerWhileLoop whilecond).unlessDropped
  | .doWhile whilecond whilebody =>
    ((simulates_irLowerAst whilebody).irLowerDoWhileLoop whilecond).unlessDropped
  | .«switch» switchCond cases none =>
    ((simulates_irLowerCases cases).irLowerSwitch switchCond).unlessDropped
  | .«switch» switchCond cases (some caseAsts) =>
    ((simulates_irLowerCases cases).irLowerSwitchDefault (simulates_irLowerAsts caseAsts)
      switchCond).unlessDropped
  | .«goto» slabel => (simulates_irLowerGoto slabel).unlessDropped
  | .label slabel => simulates_irLowerLabel slabel
  | .«break» => simulates_break.unlessDropped
  | .«continue» => simulates_continue.unlessDropped
  | .«return» retval => (simulates_irLowerReturn retval).unlessDropped
  | .throw throwValue => (simulates_irLowerThrow throwValue).unlessDropped
  | .«try» tryBody catchBody =>
    ((simulates_irLowerAst tryBody).irLowerTry
      (simulates_irLowerAst catchBody)).unlessDropped

/-- So do the scans of statements in order. -/
theorem simulates_irLowerAsts : ∀ stms : List AstStmt,
  Simulates hasRet (scanAsts hasRet stms) (irLowerAsts stms)
  | [] => simulates_some
  | stm :: stms => (simulates_irLowerAst stm).andThen (simulates_irLowerAsts stms)

/-- And the scans of the cases of a switch. -/
theorem simulates_irLowerCases : ∀ cases : List AstCase, SimulatesCases hasRet cases
  | [] => by
    intro A P K s st ids defaultBlock _ hlength _ _ hinv
    rw [List.eq_nil_of_length_eq_zero hlength] at hinv ⊢
    apply Option.Rel.some
    apply hinv
  | .mk caseBegin caseEnd caseAsts :: cases => by
    have hasts := simulates_irLowerAsts caseAsts
    have hcases := simulates_irLowerCases cases
    intro A P K s st ids defaultBlock hA hlength hids hdefault hinv
    cases ids with
    | nil => cases hlength
    | cons body ids =>
      apply rel_bind (hasts _ _ _ _ _ hA (hinv.enter rfl))
      intro st₁ s₁ h₁
      have hids' : ∀ id ∈ ids, id ∈ K := fun id hid => hids id (List.mem_cons_of_mem _ hid)
      apply hcases A P K _ st₁ ids defaultBlock hA (Nat.succ_injective hlength) hids' hdefault
      apply h₁.jumpUnlessSealed
      cases ids with
      | nil => apply hdefault
      | cons next ids => apply hids' next List.mem_cons_self

end

end

/-! ### Functions -/

section
variable {P : List Nat} {K : Set Nat} {s : FnCtx} {st : Scan}

/-- The context after the entry block has been added. -/
theorem stmtInv_entry (vars : Variables) (escape : Nat → Bool) :
  StmtInv ⟨[], 1, false⟩ [1] {1}
    { (irFunctionNew vars escape).blockNew.2.blockNew.2.on (·.irFnAddBlock 0) with
      exitBlock := 1 }
    ⟨true, none, [], [], [], []⟩
  := by
  have hcode : ∀ id, (irFunctionNew vars escape).blockNew.2.blockNew.2.code id = [] := by
    intro id
    simp [FnCtx.blockNew, IrCtx.irBlockNew, irFunctionNew]
  have hsealed : ∀ id, (irFunctionNew vars escape).blockNew.2.blockNew.2.sealed id = false := by
    intro id
    simp [FnCtx.blockNew, IrCtx.irBlockNew, irFunctionNew]
  have hnolabel : ∀ id, ¬ ∃ l, (irFunctionNew vars escape).labels l = some id := nofun
  have hnone : ∀ b, ∀ I ∈ (irFunctionNew vars escape).blockNew.2.blockNew.2.code b, False := by
    intro b I hI
    rw [hcode b] at hI
    cases hI
  constructor
  case flow =>
    constructor
    case ok =>
      constructor
      · apply List.mem_singleton_self
      · intro id hid
        rw [List.mem_singleton.mp hid]
        apply Nat.zero_lt_succ
    case pending =>
      intro p hp
      rw [List.mem_singleton.mp hp]
      have hblocks : 1 ∉ [0] := by decide
      exact ⟨Nat.one_lt_two, hblocks, hnolabel 1⟩
    case label_lt => exact fun id hid => absurd hid (hnolabel id)
    case empty => exact fun id _ _ => ⟨hcode id, hsealed id⟩
    case once =>
      intro id hid _
      rw [List.mem_singleton.mp hid]
      rfl
    case known => exact fun b _ I hI => (hnone b I hI).elim
    case named => nofun
    case closed =>
      intro b _ hs
      change (irFunctionNew vars escape).blockNew.2.blockNew.2.sealed b = true at hs
      rw [hsealed b] at hs
      cases hs
    case «open» => exact fun b _ _ I hI => (hnone b I hI).elim
    case left =>
      intro b hb hne
      cases hne (List.mem_singleton.mp hb)
  case nodup => apply List.nodup_singleton
  case known =>
    rintro id rfl
    exact .inl (List.mem_singleton_self _)
  case live => apply hsealed 0
  case here => exact fun _ l => ⟨nofun, nofun⟩
  case declared => rfl
  case loopStack => rfl
  case loops => rfl
  case targets => nofun
  case exit => exact ⟨rfl, rfl⟩
  case inj => nofun
  case count => nofun
  case unlabeled => nofun
  case named => nofun
  case ret => rfl

/-- The parameters of a function. -/
theorem scanned_irLowerParams {A : Around} (params : List Nat) : ∀ {s : FnCtx} {st : Scan},
    StmtInv A P K s st → st.live = true →
  Option.Rel (fun st s => StmtInv A P K s st ∧ st.live = true) (scanParams params st)
    (irLowerParams params s)
  := by
  induction params with
  | nil => exact fun h hlive => Option.Rel.some ⟨h, hlive⟩
  | cons key params ih =>
    intro s st h hlive
    have hiff : key ∈ s.declared ↔ key ∈ st.declared := by rw [h.declared]
    rw [scanParams, irLowerParams, irLowerParam]
    by_cases hmem : key ∈ st.declared
    · rw [if_pos hmem, if_pos (hiff.mpr hmem)]
      apply Option.Rel.none
    · rw [if_neg hmem, if_neg (hmem ∘ hiff.mp)]
      have hdeclare := h.declare key
      have hstore : StmtInv A P K
          (FnCtx.on { s with declared := key :: s.declared } fun c =>
            ((c.irTmp .i64 8).2.irTmp .i64 8).2.irBlockAddInstr
              { op := .store, dst := c.irFnGetVar key
                r1 := some { (c.irTmp .i64 8).1 with kind := .param } })
          { st with declared := key :: st.declared } := by
        apply hdeclare.stay hlive
        apply (FlowStep.irTmp hdeclare.flow (hdeclare.not_sealed hlive) .i64 8).andThen
        intro N₁ h₁ hlive₁
        apply (FlowStep.irTmp h₁ hlive₁ .i64 8).andThen
        intro N₂ h₂ hlive₂
        apply FlowStep.add h₂ hlive₂ rfl rfl
      apply ih hstore hlive

/-- The return slot. -/
theorem StmtInv.returnSlot
    {stack : List IrLoopCtx} {exitBlock : Nat} (h : StmtInv ⟨stack, exitBlock, false⟩ P K s st)
    (hlive : st.live = true) (hasRet : Bool) :
  StmtInv ⟨stack, exitBlock, hasRet⟩ P K (s.returnSlot hasRet) st
  := by
  cases hasRet with
  | false => apply h
  | true =>
    have hcounters : FlowStep {id | id ∈ P} s.labelBlocks (s.blocksOf st.named) false s.toIrCtx
        ((s.irConstInt .i64 8).2.irTmp .i64 8).2 :=
      FlowStep.of_eq h.flow (h.not_sealed hlive) rfl rfl rfl rfl rfl
    have hslot := h.stay hlive (hcounters.andThen fun N' h' hlive' =>
      FlowStep.add h' hlive' (I := {
        op := .alloca, dst := ((s.irConstInt .i64 8).2.irTmp .i64 8).1
        r1 := (s.irConstInt .i64 8).1 }) rfl rfl)
    constructor
    case flow => apply hslot.flow
    case nodup => apply hslot.nodup
    case known => apply hslot.known
    case live => apply hslot.live
    case here => apply hslot.here
    case declared => apply hslot.declared
    case loopStack => apply hslot.loopStack
    case loops => apply hslot.loops
    case targets => apply hslot.targets
    case exit => apply hslot.exit
    case inj => apply hslot.inj
    case count => apply hslot.count
    case unlabeled => apply hslot.unlabeled
    case named => apply hslot.named
    case ret => rfl

/-- The instructions of the exit block. -/
theorem StmtInv.exitInstrs
    {A : Around} (h : StmtInv A P K s st) (hlive : st.live = true) (isMain : Bool) :
  StmtInv A P K ((s.exitInstrs isMain).on (·.sealCur)) st.leave
  := by
  have hret : ∀ s, StmtInv A P K s st → ∀ dst : Option IrValue,
      StmtInv A P K (s.on fun c => (c.irBlockAddInstr { op := .ret, dst := dst }).sealCur)
        st.leave := by
    intro s h dst
    apply h.leave _ h.named
    apply sealed_irBlockAddInstr h.flow (h.not_sealed hlive) (.inl rfl) rfl
  rw [FnCtx.exitInstrs]
  cases hrv : s.returnValue with
  | some rv =>
    have hload := h.stay hlive
      ((FlowStep.irTmp h.flow (h.not_sealed hlive) rv.type 8).andThen fun N' h' hlive' =>
        FlowStep.add h' hlive' (I := {
          op := .load, dst := (s.irTmp rv.type 8).1, r1 := rv }) rfl rfl)
    apply hret _ hload
  | none =>
    cases isMain with
    | true =>
      have hzero : StmtInv A P K (s.on fun c => (c.irConstInt .i32 0).2) st :=
        h.stay hlive (FlowStep.of_eq h.flow (h.not_sealed hlive) rfl rfl rfl rfl rfl)
      apply hret _ hzero
    | false => apply hret s h none

/-- Every block has an end and nothing after it. -/
def IrFunction.Ends (F : IrFunction) : Prop := ∀ b ∈ F.blocks, Closes b.instructions

/-- Every block that an instruction names is in the function exactly once. -/
def IrFunction.NamesOnce (F : IrFunction) : Prop :=
  ∀ b ∈ F.blocks, ∀ I ∈ b.instructions, ∀ id ∈ I.blockNames, (F.blocks.map (·.id)).count id = 1

/-- What a scan says of a finished function. -/
theorem StmtInv.function
    {A : Around} (h : StmtInv A [] K s st) (hlive : st.live = false) (entryBlock : Nat) :
  (s.toIrCtx.function entryBlock).Ends
    ∧ ((s.toIrCtx.function entryBlock).NamesOnce ↔ ∀ l ∈ st.named, st.labels.count l = 1)
  := by
  have hids : (s.toIrCtx.function entryBlock).blocks.map (·.id) = s.blocks := by
    rw [IrCtx.function, List.map_map]
    apply List.map_id
  have hmem : ∀ id ∈ s.blocks,
      ⟨id, s.code id⟩ ∈ (s.toIrCtx.function entryBlock).blocks := by
    intro id hid
    apply List.mem_map_of_mem hid
  constructor
  · intro b hb
    obtain ⟨id, hid, rfl⟩ := List.mem_map.mp hb
    apply h.flow.closed id hid
    by_cases hcur : id = s.curBlock
    · rw [hcur, h.live, hlive]
      rfl
    · apply h.flow.left id hid hcur
  · constructor
    · intro honce l hl
      obtain ⟨id, hid⟩ := Option.ne_none_iff_exists'.mp (h.named l hl)
      obtain ⟨-, b, hb, I, hI, hname⟩ := h.flow.named id ⟨l, hl, hid⟩
      rw [← h.count l id hid, ← hids]
      apply honce _ (hmem b hb) I hI id hname
    · intro hcount b hb I hI id hname
      obtain ⟨b, hb', rfl⟩ := List.mem_map.mp hb
      rw [hids]
      rcases h.flow.known b hb' I hI id hname with hp | ⟨hid, hlabel⟩ | ⟨l, hl, hid⟩
      · cases hp
      · apply h.flow.once id hid hlabel
      · rw [h.count l id hid]
        apply hcount l hl

/-- The scan of a function follows its lowering. -/
theorem scanned_irLowerFunction (vars : Variables) (escape : Nat → Bool) (func : AstFunc) :
  Option.Rel
    (fun st F => IrFunction.Ends F ∧ (F.NamesOnce ↔ ∀ l ∈ st.named, st.labels.count l = 1))
    (scanFunction func) (FnCtx.irLowerFunction vars escape func)
  := by
  apply rel_bind (scanned_irLowerParams func.params (stmtInv_entry vars escape) rfl)
  rintro st₁ s₁ ⟨h₁, hlive₁⟩
  have h₂ := h₁.returnSlot hlive₁ func.hasRet
  rw [← bind_pure (scanAst func.hasRet func.body st₁)]
  apply rel_bind (simulates_irLowerAst func.body _ _ _ _ _ rfl h₂)
  intro st₃ s₃ h₃
  have h₄ := (h₃.jumpUnlessSealed rfl).enter rfl
  apply Option.Rel.some
  apply (h₄.exitInstrs rfl func.isMain).function rfl

/-- The lowering of a function ends, and in what it makes every block has an end with nothing
after it, and every block that is named is there once. -/
def LowersWell (vars : Variables) (escape : Nat → Bool) (func : AstFunc) : Prop :=
  ∃ F, FnCtx.irLowerFunction vars escape func = some F ∧ F.Ends ∧ F.NamesOnce

/-- A function lowers well when its lowering does not abort, as its scan says, and every label
that is named is lowered once. -/
theorem lowersWell_iff (vars : Variables) (escape : Nat → Bool) (func : AstFunc) :
  LowersWell vars escape func
    ↔ ∃ st, scanFunction func = some st ∧ ∀ l ∈ st.named, st.labels.count l = 1
  := by
  have hrel := scanned_irLowerFunction vars escape func
  rw [LowersWell]
  cases hscan : scanFunction func with
  | none =>
    rw [hscan] at hrel
    cases hF : FnCtx.irLowerFunction vars escape func with
    | none =>
      constructor
      · rintro ⟨F, hF, -⟩
        cases hF
      · rintro ⟨st, hst, -⟩
        cases hst
    | some F =>
      rw [hF] at hrel
      cases hrel
  | some st =>
    rw [hscan] at hrel
    cases hF : FnCtx.irLowerFunction vars escape func with
    | none =>
      rw [hF] at hrel
      cases hrel
    | some F =>
      rw [hF] at hrel
      obtain ⟨hends, honce⟩ := Option.rel_some_some.mp hrel
      constructor
      · rintro ⟨F', hF', -, hnames⟩
        cases hF'
        exact ⟨st, rfl, honce.mp hnames⟩
      · rintro ⟨st', hst', hcount⟩
        cases hst'
        exact ⟨F, rfl, hends, honce.mpr hcount⟩

/-- A `continue` in a switch in a loop has no lowering. -/
theorem not_lowersWell :
  ¬ LowersWell Variables.locals (fun _ => false)
    { params := [0], hasRet := false, isMain := false
      body := .«while» (.lvar ⟨0, true⟩)
        (.«switch» (.lvar ⟨0, true⟩) [.mk 1 1 [.«continue»]] none) }
  := by
  have hscan : scanFunction
      { params := [0], hasRet := false, isMain := false
        body := .«while» (.lvar ⟨0, true⟩)
          (.«switch» (.lvar ⟨0, true⟩) [.mk 1 1 [.«continue»]] none) } = none := by rfl
  rintro ⟨F, hF, -⟩
  have hrel := scanned_irLowerFunction Variables.locals (fun _ => false)
    { params := [0], hasRet := false, isMain := false
      body := .«while» (.lvar ⟨0, true⟩)
        (.«switch» (.lvar ⟨0, true⟩) [.mk 1 1 [.«continue»]] none) }
  rw [hF, hscan] at hrel
  cases hrel

end

end Polyc
