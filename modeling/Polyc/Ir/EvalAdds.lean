import Polyc.Ir.EvalExpr

/-!
# Evaluations add events

An evaluation adds events and operands to those that there are, whether it yields a word or
ends in a trap.
-/

namespace Polyc

open AstState

/-- The state that an evaluation ends in. -/
def stateOf {α : Type} : Except AstState (α × AstState) → AstState
  | .ok x => x.2
  | .error a => a

/-- A state has the events and the operands of an earlier one. -/
structure AddsTo (a a' : AstState) : Prop where
  trace : a.trace <+: a'.trace
  log : a.log <+: a'.log

namespace AddsTo

theorem refl (a : AstState) :
  AddsTo a a
  := ⟨List.prefix_rfl, List.prefix_rfl⟩

theorem trans {a b c : AstState} (hab : AddsTo a b) (hbc : AddsTo b c) :
  AddsTo a c
  := ⟨hab.trace.trans hbc.trace, hab.log.trans hbc.log⟩

theorem branch (a : AstState) (b : Bool) :
  AddsTo a (a.branch b)
  := ⟨List.prefix_append _ _, List.prefix_rfl⟩

theorem setLocal (a : AstState) (id : Nat) (w : Word) :
  AddsTo a (a.setLocal id w)
  := ⟨List.prefix_rfl, List.prefix_rfl⟩

/-- What comes after an evaluation adds to its state. -/
theorem stateOf_bind
    {α β : Type} {x : Except AstState (α × AstState)}
    {f : α × AstState → Except AstState (β × AstState)}
    (hf : ∀ y b, x = .ok (y, b) → AddsTo b (stateOf (f (y, b)))) :
  AddsTo (stateOf x) (stateOf (x >>= f))
  := by
  cases x with
  | error b => apply AddsTo.refl
  | ok y => apply hf y.1 y.2 rfl

/-- One evaluation after another. -/
theorem bind
    {α β : Type} {a : AstState} {x : Except AstState (α × AstState)}
    {f : α × AstState → Except AstState (β × AstState)} (hx : AddsTo a (stateOf x))
    (hf : ∀ y b, x = .ok (y, b) → AddsTo b (stateOf (f (y, b)))) :
  AddsTo a (stateOf (x >>= f))
  := hx.trans (stateOf_bind hf)

end AddsTo

/-- What holds of one evaluation and, if it does not trap, of the next one. -/
def checkThen {α : Type} (check : AstState → Bool)
    (eval : AstState → Except AstState (α × AstState)) (next : α → AstState → Bool)
    (a : AstState) : Bool :=
  check a &&
    match eval a with
    | .ok (x, b) => next x b
    | .error _ => true

section
variable (m : Machine) (vs : Variables) (esc : Nat → Bool)

/-- The application of an operator or a call. -/
theorem adds_exec (op : IrOp) (cmp : IrCmpKind) (o : Operands) (a : AstState) :
  AddsTo a (stateOf (exec m op cmp o a))
  := by
  rw [exec]
  cases effect m a.trace { op := op, cmpKind := cmp } o with
  | none => exact ⟨List.prefix_rfl, List.prefix_append _ _⟩
  | some r => exact ⟨List.prefix_append _ _, List.prefix_append _ _⟩

variable {left right operand : Eval}
variable (hl : ∀ a, AddsTo a (stateOf (left a))) (hr : ∀ a, AddsTo a (stateOf (right a)))
variable (ho : ∀ a, AddsTo a (stateOf (operand a)))

include ho in
theorem adds_evalUnOp (op : AstUnOp) (a : AstState) :
  AddsTo a (stateOf (evalUnOp m op operand a))
  := by
  apply (ho a).bind
  intro w b _
  cases op
  case plus => apply AddsTo.refl
  all_goals apply adds_exec

theorem adds_evalIncDec (op : AstIncDec) (id : Nat) (a : AstState) :
  AddsTo a (stateOf (evalIncDec m op id a))
  := by
  apply (adds_exec m _ _ _ a).bind
  intro w b _
  apply AddsTo.setLocal

include hl hr in
theorem adds_evalShortCircuit (isOr : Bool) (a : AstState) :
  AddsTo a (stateOf (evalShortCircuit isOr left right a))
  := by
  apply (hl a).bind
  intro w b _
  apply (AddsTo.branch b _).trans
  dsimp only
  split
  · apply AddsTo.refl
  · apply (hr _).bind
    intro w b _
    apply AddsTo.refl

include hl hr in
theorem adds_evalOperands (op : AstBinOp) (issigned : Bool) (sh : Shape) (a : AstState) :
  AddsTo a (stateOf (evalOperands m op issigned sh left right a))
  := by
  apply (hl a).bind
  intro v b _
  apply (hr b).bind
  intro w b _
  apply adds_exec

theorem adds_evalWiden (sh : Shape) (srcSigned : Bool) (w : Word) (a : AstState) :
  AddsTo a (stateOf (evalWiden m sh srcSigned w a))
  := by
  rw [evalWiden]
  split
  · apply adds_exec
  · apply AddsTo.refl

include hr in
theorem adds_evalAssign (id : Nat) (sh : Shape) (srcSigned : Bool) (a : AstState) :
  AddsTo a (stateOf (evalAssign m id sh srcSigned right a))
  := by
  apply (hr a).bind
  intro w b _
  apply (adds_evalWiden m sh srcSigned w b).bind
  intro w b _
  apply AddsTo.setLocal

include hr in
theorem adds_evalCompoundAssign (op : IrOp) (id : Nat) (a : AstState) :
  AddsTo a (stateOf (evalCompoundAssign m op id right a))
  := by
  apply (hr a).bind
  intro w b _
  apply (adds_exec m _ _ _ b).bind
  intro w b _
  apply AddsTo.setLocal

mutual

/-- Every evaluation adds to the state. -/
theorem adds_evalAst : ∀ (e : Ast) (a : AstState),
  AddsTo a (stateOf (evalAst m vs esc e a))
  | .literal _, a => AddsTo.refl a
  | .lvar _, a => AddsTo.refl a
  | .cast _ operand, a => adds_evalAst operand a
  | .funcall _ _ args, a => by
    apply (adds_evalArgs args a).bind
    intro ws b _
    apply adds_exec
  | .unop op operand, a => adds_evalUnOp m (adds_evalAst operand) op a
  | .incDec op operand, a => adds_evalIncDec m op operand.id a
  | .binop op issigned left right, a =>
    adds_evalBinOp left op issigned (adds_evalAst left) (adds_evalAst right) a
  | .logAnd left right, a =>
    adds_evalShortCircuit (adds_evalAst left) (adds_evalAst right) false a
  | .logOr left right, a =>
    adds_evalShortCircuit (adds_evalAst left) (adds_evalAst right) true a
  | .assign left right, a => adds_evalAssign m (adds_evalAst right) left.id _ _ a
  | .compoundAssign _ left right, a =>
    adds_evalCompoundAssign m (adds_evalAst right) _ left.id a

theorem adds_evalBinOp : ∀ (left : Ast) (op : AstBinOp) (issigned : Bool)
    {evalLeft evalRight : Eval}, (∀ a, AddsTo a (stateOf (evalLeft a))) →
    (∀ a, AddsTo a (stateOf (evalRight a))) → ∀ a,
  AddsTo a (stateOf (evalBinOp m vs esc op issigned left evalLeft evalRight a))
  | .binop op₁ s₁ l b, op, issigned, _, _, hl, hr, a => by
    have hb := adds_evalBinOp b op true (adds_evalAst b) hr
    rw [evalBinOp]
    split
    · apply adds_evalShortCircuit hl hb
    · apply adds_evalOperands m hl hr
  | .literal _, op, issigned, _, _, hl, hr, a => adds_evalOperands m hl hr op issigned _ a
  | .lvar _, op, issigned, _, _, hl, hr, a => adds_evalOperands m hl hr op issigned _ a
  | .cast _ _, op, issigned, _, _, hl, hr, a => adds_evalOperands m hl hr op issigned _ a
  | .funcall _ _ _, op, issigned, _, _, hl, hr, a =>
    adds_evalOperands m hl hr op issigned _ a
  | .unop _ _, op, issigned, _, _, hl, hr, a => adds_evalOperands m hl hr op issigned _ a
  | .incDec _ _, op, issigned, _, _, hl, hr, a => adds_evalOperands m hl hr op issigned _ a
  | .logAnd _ _, op, issigned, _, _, hl, hr, a => adds_evalOperands m hl hr op issigned _ a
  | .logOr _ _, op, issigned, _, _, hl, hr, a => adds_evalOperands m hl hr op issigned _ a
  | .assign _ _, op, issigned, _, _, hl, hr, a => adds_evalOperands m hl hr op issigned _ a
  | .compoundAssign _ _ _, op, issigned, _, _, hl, hr, a =>
    adds_evalOperands m hl hr op issigned _ a

theorem adds_evalArgs : ∀ (args : List Ast) (a : AstState),
  AddsTo a (stateOf (evalArgs m vs esc args a))
  | [], a => AddsTo.refl a
  | arg :: args, a => by
    apply (adds_evalAst arg a).bind
    intro w b _
    apply (adds_evalArgs args b).bind
    intro ws b _
    apply AddsTo.refl

end

end

end Polyc
