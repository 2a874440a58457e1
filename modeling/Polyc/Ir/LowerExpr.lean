import Polyc.Ir.Builder

/-!
# Lowering of integer expressions

The cases of `irExpr` over 8-byte integers: literals, locals, casts between integers, calls,
unary and binary operators, the logical operators and range comparisons, assignments and
increments of locals.  Of a type only its sign is kept.  Everything else that a panic of the
source rules out is not an `Ast`.
-/

namespace Polyc

/-- A local variable of the source. -/
structure AstLVar where
  id : Nat
  issigned : Bool
  deriving DecidableEq

/-- The unary operators without a side effect. -/
inductive AstUnOp where
  | plus | minus | bitNot | logNot
  deriving DecidableEq

/-- The increments and decrements among the operators `AstUnOp`. -/
inductive AstIncDec where
  | preInc | preDec | postInc | postDec
  deriving DecidableEq

/-- The arithmetic operators and comparisons of `AstBinOp`. -/
inductive AstBinOp where
  | add | sub | mul | div | mod | shl | shr | bitAnd | bitXor | bitOr
  | lt | le | gt | ge | eq | ne
  deriving DecidableEq

/-- The compound assignments of `AstBinOp`. -/
inductive AstAssignOp where
  | addAssign | subAssign | mulAssign | divAssign | modAssign | shlAssign | shrAssign
  | andAssign | xorAssign | orAssign
  deriving DecidableEq

/-- Integer expressions.  `AST_BINOP` is split by its operator: `binop` for arithmetic and
comparisons, `logAnd`, `logOr`, `assign` and `compoundAssign`. -/
inductive Ast where
  | literal (i64 : Word)
  | lvar (var : AstLVar)
  | cast (issigned : Bool) (operand : Ast)
  | funcall (fname : Word) (issigned : Bool) (args : List Ast)
  | unop (unop : AstUnOp) (operand : Ast)
  | incDec (unop : AstIncDec) (operand : AstLVar)
  | binop (binop : AstBinOp) (issigned : Bool) (left right : Ast)
  | logAnd (left right : Ast)
  | logOr (left right : Ast)
  | assign (left : AstLVar) (right : Ast)
  | compoundAssign (binop : AstAssignOp) (left : AstLVar) (right : Ast)

/-- Whether the type of an expression is signed. -/
def Ast.issigned : Ast → Bool
  | lvar var => var.issigned
  | cast issigned _ => issigned
  | funcall _ issigned _ => issigned
  | unop _ operand => operand.issigned
  | incDec _ operand => operand.issigned
  | binop _ issigned _ _ => issigned
  | literal _ | logAnd _ _ | logOr _ _ | assign _ _ | compoundAssign _ _ _ => true

/-- `astIsRangeOperator`. -/
def astIsRangeOperator : AstBinOp → Bool
  | .ge | .gt | .le | .lt => true
  | _ => false

/-- The opcode and the comparison of an operator on integers, as the table at the end of
`irLowerBinOpExpr` has them. -/
def AstBinOp.toIr (op : AstBinOp) (issigned : Bool) : IrOp × IrCmpKind :=
  match op with
  | .add => (.iadd, .invalid)
  | .mul => (.imul, .invalid)
  | .div => (if issigned then .idiv else .udiv, .invalid)
  | .mod => (if issigned then .irem else .urem, .invalid)
  | .sub => (.isub, .invalid)
  | .shl => (.shl, .invalid)
  | .shr => (if issigned then .sar else .shr, .invalid)
  | .bitAnd => (.and, .invalid)
  | .bitXor => (.xor, .invalid)
  | .bitOr => (.or, .invalid)
  | .lt => (.icmp, if issigned then .lt else .ult)
  | .le => (.icmp, if issigned then .le else .ule)
  | .gt => (.icmp, if issigned then .gt else .ugt)
  | .ge => (.icmp, if issigned then .ge else .uge)
  | .eq => (.icmp, .eq)
  | .ne => (.icmp, .ne)

/-- `irCompoundAssignToIrOp`. -/
def irCompoundAssignToIrOp (op : AstAssignOp) (issigned : Bool) : IrOp :=
  match op with
  | .addAssign => .iadd
  | .subAssign => .isub
  | .mulAssign => .imul
  | .divAssign => if issigned then .idiv else .udiv
  | .modAssign => if issigned then .irem else .urem
  | .shlAssign => .shl
  | .shrAssign => .shr
  | .andAssign => .and
  | .xorAssign => .xor
  | .orAssign => .or

/-- What lowers an expression: the operand with its value, and the context after it. -/
abbrev Lower := IrCtx → IrValue × IrCtx

namespace IrCtx

/-- `irLowerLVar` on an 8-byte integer. -/
def irLowerLVar (ctx : IrCtx) (var : AstLVar) : IrValue × IrCtx :=
  let localVar := ctx.irFnGetVar var.id
  if !ctx.escape var.id then (localVar, ctx)
  else
    let (loadDest, ctx) := ctx.irTmp .i64 8
    (loadDest, ctx.irBlockAddInstr { op := .load, dst := loadDest, r1 := localVar })

/-- The addition of an instruction that computes an 8-byte value of the given type. -/
def compute (ctx : IrCtx) (type : IrValueType) (I : IrInstr) : IrValue × IrCtx :=
  let (dst, ctx) := ctx.irTmp type 8
  (dst, ctx.irBlockAddInstr { I with dst := dst })

/-- `irLowerUnOp` for the operators without a side effect. -/
def irLowerUnOp (op : AstUnOp) (operand : Lower) : Lower := fun ctx =>
  let (v, ctx) := operand ctx
  match op with
  | .plus => (v, ctx)
  | .minus => ctx.compute v.type { op := .ineg, r1 := v }
  | .bitNot => ctx.compute v.type { op := .not, r1 := v }
  | .logNot =>
    let (dst, ctx) := ctx.irTmp .i64 8
    let (zero, ctx) := ctx.irConstInt .i64 0
    (dst,
      ctx.irBlockAddInstr { op := .icmp, dst := dst, r1 := v, r2 := zero, cmpKind := .eq })

/-- `irLowerUnOp` for increments and decrements of a local. -/
def irLowerIncDec (op : AstIncDec) (operand : AstLVar) : Lower := fun ctx =>
  let target := ctx.irFnGetVar operand.id
  let (cur, ctx) := ctx.compute .i64 { op := .load, r1 := target }
  let (delta, ctx) := ctx.irConstInt .i64 1
  let isInc := op = .preInc ∨ op = .postInc
  let (newVal, ctx) :=
    ctx.compute .i64 { op := if isInc then .iadd else .isub, r1 := cur, r2 := delta }
  let ctx := ctx.irBlockAddInstr { op := .store, dst := target, r1 := newVal }
  (if op = .postInc ∨ op = .postDec then cur else newVal, ctx)

/-- The three short circuits of `irLowerBinOpExpr`: `&&` and the range comparison, where a
false left operand decides for 0, and `||`, where a true one decides for 1. -/
def irLowerShortCircuit (isOr : Bool) (left right : Lower) : Lower := fun ctx =>
  let (rightBlock, ctx) := ctx.irBlockNew
  let (endBlock, ctx) := ctx.irBlockNew
  let (lhs, ctx) := left ctx
  let block := ctx.curBlock
  let (result, ctx) := ctx.irTmp .i8 1
  let ctx :=
    if isOr then ctx.irBranch lhs endBlock rightBlock
    else ctx.irBranch lhs rightBlock endBlock
  let ctx := ctx.irFnAddBlock rightBlock
  let (rhs, ctx) := right ctx
  let rightEnd := ctx.curBlock
  let ctx := (ctx.irJump endBlock).irFnAddBlock endBlock
  let (decided, ctx) := ctx.irConstInt .i8 (if isOr then 1 else 0)
  (result,
    ctx.irBlockAddInstr
      { op := .phi, dst := result, phiPairs := [⟨decided, block⟩, ⟨rhs, rightEnd⟩] })

/-- The end of `irLowerBinOpExpr`: both operands, then the instruction of the operator. -/
def irLowerOperands (op : AstBinOp) (issigned : Bool) (left right : Lower) : Lower :=
  fun ctx =>
    let (lhs, ctx) := left ctx
    let (rhs, ctx) := right ctx
    let ir := op.toIr issigned
    ctx.compute .i64 { op := ir.1, r1 := lhs, r2 := rhs, cmpKind := ir.2 }

/-- `irWidenToTargetWidth` to an 8-byte integer. -/
def irWidenToTargetWidth (ctx : IrCtx) (val : IrValue) (srcSigned : Bool) : IrValue × IrCtx :=
  if val.kind.isVar ∧ val.as.varSize < 8 then
    ctx.compute .i64 { op := if srcSigned then .sext else .zext, r1 := val }
  else (val, ctx)

/-- The end of `irLowerAssign`: the new value goes to the variable, by another destination
of the instruction that computes it or by a store. -/
def irAssignTo (ctx : IrCtx) (target newVal : IrValue) : IrValue × IrCtx :=
  let redirected :=
    if target.pinnedReg = none then ctx.irRedirectLastDst newVal target else none
  match redirected with
  | some ctx => (target, ctx)
  | none => (newVal, ctx.irBlockAddInstr { op := .store, dst := target, r1 := newVal })

/-- `irLowerAssign` for `=`. -/
def irLowerAssign (left : AstLVar) (srcSigned : Bool) (right : Lower) : Lower := fun ctx =>
  let target := ctx.irFnGetVar left.id
  let (newVal, ctx) := right ctx
  let (newVal, ctx) := ctx.irWidenToTargetWidth newVal srcSigned
  ctx.irAssignTo target newVal

/-- `irLowerAssign` for a compound assignment. -/
def irLowerCompoundAssign (op : AstAssignOp) (left : AstLVar) (right : Lower) : Lower :=
  fun ctx =>
    let target := ctx.irFnGetVar left.id
    let (cur, ctx) := ctx.compute .i64 { op := .load, r1 := target }
    let (rhs, ctx) := right ctx
    let (newVal, ctx) :=
      ctx.compute .i64
        { op := irCompoundAssignToIrOp op left.issigned, r1 := cur, r2 := rhs }
    ctx.irAssignTo target newVal

/-- The wrapper of the arguments of a call, which carries the name of the function. -/
def callWrapper (fname : Word) : IrValue where
  addr := fname.toNat
  type := .array
  kind := .unresolved
  as := .other fname

/-- `irFnCallTo` for a call by name: the result first, the arguments in order, the call. -/
def irLowerFnCall (fname : Word) (args : IrCtx → List IrValue × IrCtx) : Lower := fun ctx =>
  let (retVal, ctx) := ctx.irTmp .i64 8
  let (values, ctx) := args ctx
  (retVal,
    ctx.irBlockAddInstr
      { op := .call, dst := retVal, r1 := callWrapper fname, args := values })

end IrCtx

open IrCtx

mutual

/-- `irExpr`. -/
def irExpr : Ast → Lower
  | .literal i64 => fun ctx => ctx.irConstInt .i64 i64
  | .lvar var => fun ctx => ctx.irLowerLVar var
  | .cast _ operand => irExpr operand
  | .funcall fname _ args => irLowerFnCall fname (irArgs args)
  | .unop op operand => irLowerUnOp op (irExpr operand)
  | .incDec op operand => irLowerIncDec op operand
  | .binop op issigned left right =>
    irLowerBinOpExpr op issigned left (irExpr left) (irExpr right)
  | .logAnd left right => irLowerShortCircuit false (irExpr left) (irExpr right)
  | .logOr left right => irLowerShortCircuit true (irExpr left) (irExpr right)
  | .assign left right => irLowerAssign left right.issigned (irExpr right)
  | .compoundAssign op left right => irLowerCompoundAssign op left (irExpr right)

/-- `irLowerBinOpExpr` on an operator other than the logical ones, with what lowers the
operands.  In `a OP1 b OP2 c` the second comparison `b OP2 c` is an expression of its own,
whose type is a signed integer. -/
def irLowerBinOpExpr (op : AstBinOp) (issigned : Bool) (left : Ast)
    (lowerLeft lowerRight : Lower) : Lower :=
  match left with
  | .binop op₁ _ _ b =>
    if astIsRangeOperator op ∧ astIsRangeOperator op₁ then
      irLowerShortCircuit false lowerLeft (irLowerBinOpExpr op true b (irExpr b) lowerRight)
    else irLowerOperands op issigned lowerLeft lowerRight
  | _ => irLowerOperands op issigned lowerLeft lowerRight

/-- The arguments of a call, in order. -/
def irArgs : List Ast → IrCtx → List IrValue × IrCtx
  | [], ctx => ([], ctx)
  | arg :: args, ctx =>
    let (value, ctx) := irExpr arg ctx
    let (values, ctx) := irArgs args ctx
    (value :: values, ctx)

end

end Polyc
