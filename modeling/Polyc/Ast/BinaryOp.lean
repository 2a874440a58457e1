import Polyc.Ir.EvalExpr
import Polyc.Ast.Types

/-!
# Binary operators on typed operands

The type that `astGetResultType` gives a binary operator, the tree that `astBinaryOp` builds, and
the value that its lowering computes, over operands that are integers, pointers, arrays or
functions.  An operand is its type with its value, which is none where its evaluation traps.
-/

namespace Polyc

/-! ### Types -/

/-- The fields of the record `AstType` that the operators read. -/
inductive ExprType where
  | mk (kind : AstTypeKind) (size : Nat) (issigned isIntrinsic : Bool) (clsname : Option Nat)
      (ptr : Option ExprType)

namespace ExprType

/-- The kind of a type. -/
def kind : ExprType → AstTypeKind
  | mk kind _ _ _ _ _ => kind

/-- The size of a type. -/
def size : ExprType → Nat
  | mk _ size _ _ _ _ => size

/-- Whether a type is signed. -/
def issigned : ExprType → Bool
  | mk _ _ issigned _ _ _ => issigned

/-- Whether a class is an intrinsic one. -/
def isIntrinsic : ExprType → Bool
  | mk _ _ _ isIntrinsic _ _ => isIntrinsic

/-- The name of a class. -/
def clsname : ExprType → Option Nat
  | mk _ _ _ _ clsname _ => clsname

/-- What a pointer points to, and what an array holds. -/
def ptr : ExprType → Option ExprType
  | mk _ _ _ _ _ ptr => ptr

end ExprType

/-- `ast_int_type`. -/
def astIntType : ExprType := .mk .int 8 true false none none

/-- `ast_uint_type`. -/
def astUintType : ExprType := .mk .int 8 false false none none

/-- `astMakePointerType`. -/
def astMakePointerType (ptr : Option ExprType) : ExprType := .mk .pointer 8 false false none ptr

/-- `astConvertArray`. -/
def astConvertArray (t : ExprType) : ExprType :=
  if t.kind ≠ .array then t else astMakePointerType t.ptr

/-- The numbers of the kinds `AstTypeKind`. -/
def AstTypeKind.number : AstTypeKind → Nat
  | void => 0
  | int => 1
  | float => 2
  | char => 3
  | array => 4
  | pointer => 5
  | func => 6
  | «class» => 7
  | visModifier => 8
  | inline => 9
  | union => 10
  | auto => 11

/-- The operators that `astBinaryOp` is called with. -/
inductive TreeOp where
  | arith (op : AstBinOp)
  | logAnd
  | logOr
  | assign
  deriving DecidableEq

/-- `astIsValidPointerOp`. -/
def astIsValidPointerOp : TreeOp → Bool
  | .arith .sub | .arith .add | .arith .lt | .arith .le | .arith .gt | .arith .ge
  | .arith .eq | .arith .ne | .logOr | .logAnd => true
  | _ => false

/-- `astIsIntType`. -/
def astIsIntType (t : ExprType) : Bool := t.kind = .int || t.kind = .char

/-- `astGetResultType` once the kinds are in order.  The operands have been converted, so that
neither is an array. -/
def resultTypeOrdered (op : TreeOp) (ptr1 ptr2 : ExprType) : Option ExprType :=
  if ptr2.kind = .pointer ∨ ptr2.kind = .func then
    if op = .assign then some ptr1
    else if ¬ astIsValidPointerOp op then none
    else if ptr2.kind = ptr1.kind then some astUintType
    else if ptr1.kind ≠ .int then none
    else if op ≠ .arith .add ∧ op ≠ .arith .sub then some astUintType
    else some ptr2
  else
    match ptr1.kind with
    | .int | .char =>
      match ptr2.kind with
      | .int | .char => some astIntType
      | .class => if ptr2.isIntrinsic then some astIntType else none
      | .float => some ptr2
      | _ => none
    | .float =>
      if ptr2.kind = .float then some (if ptr1.size ≥ ptr2.size then ptr1 else ptr2) else none
    | .class =>
      if op = .assign ∧ ptr2.kind = .class ∧ ¬ ptr1.isIntrinsic ∧ ¬ ptr2.isIntrinsic ∧
          ptr1.clsname.isSome ∧ ptr1.clsname = ptr2.clsname then some ptr1
      else if ptr1.isIntrinsic ∧ ptr2.isIntrinsic then some astIntType
      else if astIsIntType ptr1 ∧ ptr2.isIntrinsic then some astIntType
      else if ptr1.isIntrinsic ∧ astIsIntType ptr2 then some astIntType
      else none
    | _ => none

/-- `astGetResultType`. -/
def astGetResultType (op : TreeOp) (a b : ExprType) : Option ExprType :=
  let ptr1 := astConvertArray a
  let ptr2 := astConvertArray b
  if ptr1.kind.number > ptr2.kind.number then resultTypeOrdered op ptr2 ptr1
  else resultTypeOrdered op ptr1 ptr2

/-! ### Trees -/

/-- An operand: its type, and its value unless its evaluation traps. -/
structure Operand where
  /-- The type. -/
  type : ExprType
  /-- The value. -/
  value : Option Word

/-- A binary tree. -/
structure BinTree where
  /-- The type. -/
  type : ExprType
  /-- The operator. -/
  binop : TreeOp
  /-- The left operand. -/
  left : Operand
  /-- The right operand. -/
  right : Operand

/-- `astBinaryOp` exchanges its operands. -/
def exchanges (operation : TreeOp) (left right : ExprType) : Bool :=
  operation ≠ .assign ∧ (astConvertArray left).kind ≠ .pointer ∧
    (astConvertArray right).kind = .pointer

/-- `astBinaryOp`, on operands that have a result type. -/
def astBinaryOp (operation : TreeOp) (left right : Operand) : Option BinTree :=
  (astGetResultType operation left.type right.type).map fun type =>
    if exchanges operation left.type right.type then ⟨type, operation, right, left⟩
    else ⟨type, operation, left, right⟩

/-! ### Values -/

/-- A pointer or an array, for the scaling of integers. -/
def ExprType.isBase (t : ExprType) : Bool := t.kind = .pointer || t.kind = .array

/-- The size of what a pointer points to, as the lowering scales by it. -/
def ExprType.scale (t : ExprType) : Nat := max (t.ptr.elim 1 ExprType.size) 1

/-- A type whose values are integers in registers. -/
def ExprType.isInt (t : ExprType) : Bool := t.kind = .int || t.kind = .char

/-- A product with the scale of a pointer. -/
def scaled (t : ExprType) (idx : Word) : Word := idx * BitVec.ofNat 64 t.scale

variable (m : Machine)

/-- What `irLowerBinOpExpr` computes for an arithmetic operator or a comparison, of a result type
`type`. -/
def irLowerArith (type : ExprType) (op : AstBinOp) (left right : ExprType) (lhs rhs : Word) :
    Option Word :=
  if op = .sub ∧ left.isBase ∧ right.isBase then
    if left.scale = 1 then some (lhs - rhs)
    else aluResult m .idiv .eq (some (lhs - rhs)) (some (BitVec.ofNat 64 left.scale))
  else if type.isBase ∧ (op = .add ∨ op = .sub) then
    let base := if left.isBase then lhs else rhs
    let idx := if left.isBase then rhs else lhs
    if op = .add then some (base + scaled type idx) else some (base - scaled type idx)
  else if type.isInt ∨ (op.toIr type.issigned).1 = .icmp then
    aluResult m (op.toIr type.issigned).1 (op.toIr type.issigned).2 (some lhs) (some rhs)
  else none

/-- What `irLowerBinOpExpr` computes for a tree; the right operand of a logical operator waits for
the left one, and an assignment has the value of its right operand. -/
def BinTree.value (t : BinTree) : Option Word :=
  match t.binop with
  | .logAnd => t.left.value.bind fun v => if v = 0 then some 0 else t.right.value.map lowByte
  | .logOr => t.left.value.bind fun v => if v = 0 then t.right.value.map lowByte else some 1
  | .assign => t.right.value
  | .arith op =>
    t.left.value.bind fun lhs => t.right.value.bind fun rhs =>
      irLowerArith m t.type op t.left.type t.right.type lhs rhs

/-- The value of `left op right`: an integer beside a pointer counts elements, and the operator
is applied to its operands in the order in which they are written. -/
def meaning (type : ExprType) (op : TreeOp) (left right : Operand) : Option Word :=
  match op with
  | .logAnd => left.value.bind fun v => if v = 0 then some 0 else right.value.map lowByte
  | .logOr => left.value.bind fun v => if v = 0 then right.value.map lowByte else some 1
  | .assign => right.value
  | .arith op =>
    left.value.bind fun lhs => right.value.bind fun rhs =>
      if type.isBase ∧ (op = .add ∨ op = .sub) then
        let lhs := if left.type.isBase then lhs else scaled type lhs
        let rhs := if right.type.isBase then rhs else scaled type rhs
        if op = .add then some (lhs + rhs) else some (lhs - rhs)
      else irLowerArith m type op left.type right.type lhs rhs

end Polyc
