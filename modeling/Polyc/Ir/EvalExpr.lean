import Polyc.Ir.LowerExpr
import Polyc.Ir.SizedRun

/-!
# The meaning of integer expressions

An evaluator for the expressions that `irExpr` lowers, from left to right.  The operand that
stands for the value of an expression may be the slot of a local: then the value is read when
an operator or a call is applied to it, after the operands to its right.  Which operand an
expression has is its shape, a matter of syntax; the evaluator yields the word that the
operand has when the expression has just been evaluated.
-/

namespace Polyc

/-- The words of the locals, the events and the operands so far. -/
structure AstState where
  locals : Nat → Word
  trace : List Event
  log : List LogEntry

/-- The word of an expression and the state after it, or the state at a trap. -/
abbrev Eval := AstState → Except AstState (Word × AstState)

/-- The operand that an expression is lowered to: a value that nothing writes again, the
result of the last instruction, a phi of one byte, or the slot of a local. -/
inductive Shape where
  | settled | produced | phi
  | slot (id : Nat)
  deriving DecidableEq

/-- The word of an operand in a later state. -/
def Shape.read : Shape → Word → AstState → Word
  | .slot id, _, a => a.locals id
  | _, w, _ => w

/-- The shape after a widening to 8 bytes. -/
def Shape.widened : Shape → Shape
  | .phi => .produced
  | sh => sh

/-- The shape of an assignment, by the shape of the widened value. -/
def Shape.assigned (pinned : Bool) (id : Nat) : Shape → Shape
  | .produced => if pinned then .settled else .slot id
  | sh => sh

/-- A variable that is pinned to a register. -/
def Variables.pinned (vs : Variables) (id : Nat) : Bool := (vs.value id).pinnedReg.isSome

/-- A comparison whose left operand is a comparison. -/
def isRange (op : AstBinOp) : Ast → Bool
  | .binop op₁ _ _ _ => astIsRangeOperator op && astIsRangeOperator op₁
  | _ => false

/-- An expression that is lowered to a phi. -/
def Ast.isPhi : Ast → Bool
  | cast _ operand | unop .plus operand => operand.isPhi
  | binop op _ left _ => isRange op left
  | logAnd _ _ | logOr _ _ => true
  | _ => false

/-- The shape of an expression, when the variables in `esc` are read by loads. -/
def Ast.shape (vs : Variables) (esc : Nat → Bool) : Ast → Shape
  | literal _ | incDec _ _ => .settled
  | lvar var => if esc var.id then .produced else .slot var.id
  | cast _ operand => operand.shape vs esc
  | funcall _ _ _ => .produced
  | unop .plus operand => operand.shape vs esc
  | unop _ _ => .produced
  | binop op _ left _ => if isRange op left then .phi else .produced
  | logAnd _ _ | logOr _ _ => .phi
  | assign left right => (right.shape vs esc).widened.assigned (vs.pinned left.id) left.id
  | compoundAssign _ left _ => Shape.produced.assigned (vs.pinned left.id) left.id

namespace AstState

/-- Apply an operator or a call to its operands. -/
def exec (m : Machine) (op : IrOp) (cmp : IrCmpKind) (o : Operands) : Eval := fun a =>
  let a := { a with log := a.log ++ [(op, o)] }
  match effect m a.trace { op := op, cmpKind := cmp } o with
  | none => .error a
  | some (w, es) => .ok (w.getD 0, { a with trace := a.trace ++ es })

/-- Apply an operator to one operand. -/
def exec₁ (m : Machine) (op : IrOp) (w : Word) : Eval :=
  exec m op .eq ⟨none, w, none, none, []⟩

/-- Apply an operator to two operands. -/
def exec₂ (m : Machine) (op : IrOp) (cmp : IrCmpKind) (v w : Word) : Eval :=
  exec m op cmp ⟨none, v, w, none, []⟩

/-- Branch. -/
def branch (a : AstState) (b : Bool) : AstState :=
  { a with trace := a.trace ++ [.branch (some (Word.ofBool b))] }

/-- Write a local. -/
def setLocal (a : AstState) (id : Nat) (w : Word) : AstState :=
  { a with locals := Function.update a.locals id w }

end AstState

open AstState

section
variable (m : Machine)

/-- A unary operator. -/
def evalUnOp (op : AstUnOp) (operand : Eval) : Eval := fun a => do
  let (w, a) ← operand a
  match op with
  | .plus => return (w, a)
  | .minus => exec₁ m .ineg w a
  | .bitNot => exec₁ m .not w a
  | .logNot => exec₂ m .icmp .eq w 0 a

/-- An increment or a decrement. -/
def evalIncDec (op : AstIncDec) (id : Nat) : Eval := fun a => do
  let cur := a.locals id
  let isInc := op = .preInc ∨ op = .postInc
  let (newVal, a) ← exec₂ m (if isInc then .iadd else .isub) .eq cur 1 a
  return (if op = .postInc ∨ op = .postDec then cur else newVal, a.setLocal id newVal)

/-- The byte that a phi holds. -/
def lowByte (w : Word) : Word := (w.setWidth 8).setWidth 64

/-- A short circuit: the value of the right operand is cut to one byte. -/
def evalShortCircuit (isOr : Bool) (left right : Eval) : Eval := fun a => do
  let (w, a) ← left a
  let a := a.branch (w ≠ 0)
  if isOr = decide (w ≠ 0) then return (Word.ofBool isOr, a)
  let (w, a) ← right a
  return (lowByte w, a)

/-- An operator on two operands, of which the left one waits for the right one. -/
def evalOperands (op : AstBinOp) (issigned : Bool) (sh : Shape) (left right : Eval) : Eval :=
  fun a => do
    let (v, a) ← left a
    let (w, a) ← right a
    exec₂ m (op.toIr issigned).1 (op.toIr issigned).2 (sh.read v a) w a

/-- The widening of a phi. -/
def evalWiden (sh : Shape) (srcSigned : Bool) (w : Word) : Eval := fun a =>
  if sh = .phi then exec₁ m (if srcSigned then .sext else .zext) w a else return (w, a)

/-- An assignment. -/
def evalAssign (id : Nat) (sh : Shape) (srcSigned : Bool) (right : Eval) : Eval := fun a => do
  let (w, a) ← right a
  let (w, a) ← evalWiden m sh srcSigned w a
  return (w, a.setLocal id w)

/-- A compound assignment, which reads the variable first. -/
def evalCompoundAssign (op : IrOp) (id : Nat) (right : Eval) : Eval := fun a => do
  let cur := a.locals id
  let (w, a) ← right a
  let (w, a) ← exec₂ m op .eq cur w a
  return (w, a.setLocal id w)

/-- A call, whose arguments wait for each other. -/
def evalFnCall (fname : Word)
    (args : AstState → Except AstState (List (Shape × Word) × AstState)) : Eval := fun a => do
  let (ws, a) ← args a
  let callee := m.operand a.trace (IrCtx.callWrapper fname)
  exec m .call .eq ⟨none, callee, none, none, ws.map fun x => x.1.read x.2 a⟩ a

end

section
variable (m : Machine) (vs : Variables) (esc : Nat → Bool)

mutual

/-- The evaluator. -/
def evalAst : Ast → Eval
  | .literal i64 => fun a => return (i64, a)
  | .lvar var => fun a => return (a.locals var.id, a)
  | .cast _ operand => evalAst operand
  | .funcall fname _ args => evalFnCall m fname (evalArgs args)
  | .unop op operand => evalUnOp m op (evalAst operand)
  | .incDec op operand => evalIncDec m op operand.id
  | .binop op issigned left right =>
    evalBinOp op issigned left (evalAst left) (evalAst right)
  | .logAnd left right => evalShortCircuit false (evalAst left) (evalAst right)
  | .logOr left right => evalShortCircuit true (evalAst left) (evalAst right)
  | .assign left right =>
    evalAssign m left.id (right.shape vs esc) right.issigned (evalAst right)
  | .compoundAssign op left right =>
    evalCompoundAssign m (irCompoundAssignToIrOp op left.issigned) left.id (evalAst right)

/-- A binary operator; a comparison of a comparison is the conjunction of two. -/
def evalBinOp (op : AstBinOp) (issigned : Bool) (left : Ast) (evalLeft evalRight : Eval) :
    Eval :=
  match left with
  | .binop op₁ s₁ a b =>
    if astIsRangeOperator op ∧ astIsRangeOperator op₁ then
      evalShortCircuit false evalLeft (evalBinOp op true b (evalAst b) evalRight)
    else
      evalOperands m op issigned ((Ast.binop op₁ s₁ a b).shape vs esc) evalLeft evalRight
  | left => evalOperands m op issigned (left.shape vs esc) evalLeft evalRight

/-- The arguments of a call, with their shapes. -/
def evalArgs : List Ast → AstState → Except AstState (List (Shape × Word) × AstState)
  | [], a => return ([], a)
  | arg :: args, a => do
    let (w, a) ← evalAst arg a
    let (ws, a) ← evalArgs args a
    return ((arg.shape vs esc, w) :: ws, a)

end

end

end Polyc
