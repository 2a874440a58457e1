import Polyc.Ast.BinaryOp

/-!
# Compound assignments

The tree that `parseExpr` builds for `target op= value`, and what trees do from left to right.  The
nodes of a tree that touch memory or call have names, by which an event tells which node it is of;
a target that a tree mentions twice has its names twice.  What the operators, the memory and the
calls do is given by a machine for expressions.
-/

namespace Polyc

/-! ### Trees -/

/-- Expressions with their types, and the names of the nodes that touch memory or call. -/
inductive ExprTree where
  | literal (type : ExprType) (i64 : Word)
  /-- A local or a global variable. -/
  | var (node : Nat) (type : ExprType) (isLocal : Bool) (id : Nat)
  /-- `*p`, and `p[i]` as `*(p + i)`. -/
  | deref (node : Nat) (type : ExprType) (operand : ExprTree)
  /-- `c.field`, and `p->field` with `c` the tree `*p`. -/
  | classRef (node : Nat) (type : ExprType) (cls : ExprTree) (offset : Word)
  | addr (type : ExprType) (operand : ExprTree)
  | cast (type : ExprType) (operand : ExprTree)
  | funcall (node : Nat) (type : ExprType) (fname : Word) (args : List ExprTree)
  | unop (op : AstUnOp) (operand : ExprTree)
  | incDec (node : Nat) (op : AstIncDec) (operand : ExprTree)
  | binop (type : ExprType) (op : AstBinOp) (left right : ExprTree)
  | logAnd (left right : ExprTree)
  | logOr (left right : ExprTree)
  | assign (node : Nat) (type : ExprType) (left right : ExprTree)

namespace ExprTree

/-- The type of an expression. -/
def type : ExprTree → ExprType
  | literal type _ | var _ type _ _ | deref _ type _ | classRef _ type _ _ | addr type _
  | cast type _ | funcall _ type _ _ | binop type _ _ _ | assign _ type _ _ => type
  | unop _ operand | incDec _ _ operand => operand.type
  | logAnd _ _ | logOr _ _ => astIntType

/-- The tree that `astBinaryOp` makes of an operator and its operands. -/
def ofTreeOp (node : Nat) (type : ExprType) (op : TreeOp) (left right : ExprTree) : ExprTree :=
  match op with
  | .arith op => binop type op left right
  | .logAnd => logAnd left right
  | .logOr => logOr left right
  | .assign => assign node type left right

end ExprTree

/-- `parseCreateBinaryOp`, which raises an error where the operands have no result type. -/
def parseCreateBinaryOp (node : Nat) (operation : TreeOp) (left right : ExprTree) :
    Option ExprTree :=
  (astGetResultType operation left.type right.type).map fun type =>
    if exchanges operation left.type right.type then
      ExprTree.ofTreeOp node type operation right left
    else ExprTree.ofTreeOp node type operation left right

/-- The punctuation of assignments. -/
inductive AssignToken where
  | equ | addEqu | subEqu | mulEqu | divEqu | modEqu | andEqu | orEqu | xorEqu | shlEqu | shrEqu
  deriving DecidableEq

/-- `parseCompoundAssign`. -/
def parseCompoundAssign : AssignToken → Option AstBinOp
  | .addEqu => some .add
  | .subEqu => some .sub
  | .mulEqu => some .mul
  | .divEqu => some .div
  | .modEqu => some .mod
  | .andEqu => some .bitAnd
  | .orEqu => some .bitOr
  | .xorEqu => some .bitXor
  | .shlEqu => some .shl
  | .shrEqu => some .shr
  | .equ => none

/-- `assertLValue`: casts and all unary operators pass. -/
def assertLValue : ExprTree → Bool
  | .var .. | .deref .. | .classRef .. | .addr .. | .cast .. | .unop .. | .incDec .. => true
  | _ => false

/-- The tree of `parseExpr` for an assignment to `LHS`: a compound one is an assignment of the
operator applied to the same `LHS`. -/
def parseAssign (node : Nat) (tok : AssignToken) (LHS RHS : ExprTree) : Option ExprTree :=
  if assertLValue LHS then
    match parseCompoundAssign tok with
    | some op =>
      (parseCreateBinaryOp node (.arith op) LHS RHS).bind fun value =>
        parseCreateBinaryOp node .assign LHS value
    | none => parseCreateBinaryOp node .assign LHS RHS
  else none

/-! ### Executions -/

/-- What operators, loads, stores and calls do; a call may not return, and an operator may trap. -/
structure ExprMachine (M : Type) where
  varAddr : Nat → Word
  load : M → Word → ExprType → Word
  store : M → Word → ExprType → Word → M
  call : M → Word → List Word → Option (Word × M)
  cast : ExprType → ExprType → Word → Word
  unop : AstUnOp → ExprType → Word → Word
  incDec : AstIncDec → ExprType → Word → Word
  arith : ExprType → AstBinOp → ExprType → ExprType → Word → Word → Option Word

/-- What a node of a tree does outside of registers. -/
inductive ExprEvent where
  | load (node : Nat) (addr value : Word)
  | store (node : Nat) (addr value : Word)
  | call (node : Nat) (fname : Word) (args : List Word)
  deriving DecidableEq

/-- The node that an event is of. -/
def ExprEvent.node : ExprEvent → Nat
  | load node _ _ | store node _ _ | call node _ _ => node

/-- Stores and calls are side effects. -/
def ExprEvent.isSideEffect : ExprEvent → Bool
  | load .. => false
  | store .. | call .. => true

/-- An execution: its value, the memory after it and its events, unless it does not return. -/
abbrev Exec (M α : Type) := M → Option (α × M × List ExprEvent)

/-- An execution without an event. -/
def Exec.pure {M α : Type} (a : α) : Exec M α := fun m => some (a, m, [])

/-- One execution after another. -/
def Exec.bind {M α β : Type} (x : Exec M α) (f : α → Exec M β) : Exec M β := fun m =>
  (x m).bind fun r => (f r.1 r.2.1).map fun s => (s.1, s.2.1, r.2.2 ++ s.2.2)

/-- The value of a type is an aggregate; `irIsByValAggregate` asks for a size too. -/
def ExprType.isAggregate (t : ExprType) : Bool :=
  !t.isIntrinsic ∧ (t.kind = .class ∨ t.kind = .union)

namespace ExprTree

/-- The name of a target. -/
def node : ExprTree → Nat
  | var node _ _ _ | deref node _ _ | classRef node _ _ _ => node
  | _ => 0

/-- The value of a target is loaded from its address.  That of an array or an aggregate is its
address, and `*p` is not loaded either where it is itself a pointer to an integer, a pointer or a
float. -/
def isLoaded : ExprTree → Bool
  | var _ type isLocal _ => type.kind ≠ .array ∧ ¬ (type.isAggregate ∧ (isLocal ∨ 0 < type.size))
  | classRef _ type _ _ => type.kind ≠ .array ∧ ¬ (type.isAggregate ∧ 0 < type.size)
  | deref _ type _ =>
    ¬ (type.kind = .pointer ∧ type.ptr.any fun p => p.kind ∈ [.int, .pointer, .float]) ∧
      type.kind ≠ .array ∧ type.kind ≠ .class
  | _ => false

/-- `&p` is the value of a local pointer `p`, unless it points to arrays, characters or classes. -/
def addrIsLoaded : ExprTree → Bool
  | var _ type isLocal _ =>
    isLocal ∧ type.kind = .pointer ∧ type.ptr.any fun p => p.kind ∉ [.array, .char, .class]
  | _ => false

end ExprTree

section Execution

variable {M : Type} (X : ExprMachine M)

/-- The value at an address, or the address. -/
def execLoad (isLoaded : Bool) (node : Nat) (type : ExprType) (addr : Word) : Exec M Word := fun m =>
  if isLoaded then
    some (X.load m addr type, m, [.load node addr (X.load m addr type)])
  else some (addr, m, [])

/-- A store to an address. -/
def execStore (node : Nat) (type : ExprType) (addr value : Word) : Exec M Unit := fun m =>
  some ((), X.store m addr type value, [.store node addr value])

/-- A call. -/
def execCall (node : Nat) (fname : Word) (args : List Word) : Exec M Word := fun m =>
  (X.call m fname args).map fun r => (r.1, r.2, [.call node fname args])

/-- An operator. -/
def execArith (type : ExprType) (op : AstBinOp) (left right : ExprType) (v w : Word) :
    Exec M Word := fun m =>
  (X.arith type op left right v w).map fun r => (r, m, [])

mutual

/-- The value of an expression, from left to right. -/
def execValue : ExprTree → Exec M Word
  | .literal _ i64 => Exec.pure i64
  | .var node type isLocal id =>
    execLoad X (ExprTree.var node type isLocal id).isLoaded node type (X.varAddr id)
  | .deref node type operand =>
    (execValue operand).bind (execLoad X (ExprTree.deref node type operand).isLoaded node type)
  | .classRef node type cls offset =>
    (execAddr cls).bind fun a =>
      execLoad X (ExprTree.classRef node type cls offset).isLoaded node type (a + offset)
  | .addr _ operand =>
    (execAddr operand).bind (execLoad X operand.addrIsLoaded operand.node operand.type)
  | .cast type operand => (execValue operand).bind fun v => Exec.pure (X.cast operand.type type v)
  | .funcall node _ fname args => (execArgs args).bind (execCall X node fname)
  | .unop op operand => (execValue operand).bind fun v => Exec.pure (X.unop op operand.type v)
  | .incDec node op operand =>
    (execAddr operand).bind fun a => (execLoad X true node operand.type a).bind fun cur =>
      (execStore X node operand.type a (X.incDec op operand.type cur)).bind fun _ =>
        Exec.pure (if op = .postInc ∨ op = .postDec then cur else X.incDec op operand.type cur)
  | .binop type op left right =>
    (execValue left).bind fun v => (execValue right).bind fun w =>
      execArith X type op left.type right.type v w
  | .logAnd left right => (execValue left).bind fun v =>
    if v = 0 then Exec.pure 0
    else (execValue right).bind fun w => Exec.pure (if w = 0 then 0 else 1)
  | .logOr left right => (execValue left).bind fun v =>
    if v = 0 then (execValue right).bind fun w => Exec.pure (if w = 0 then 0 else 1)
    else Exec.pure 1
  | .assign node _ left right =>
    (execAddr left).bind fun a => (execValue right).bind fun v =>
      (execStore X node left.type a v).bind fun _ => Exec.pure v

/-- The address of a target. -/
def execAddr : ExprTree → Exec M Word
  | .var _ _ _ id => Exec.pure (X.varAddr id)
  | .deref _ _ operand => execValue operand
  | .classRef _ _ cls offset => (execAddr cls).bind fun a => Exec.pure (a + offset)
  | _ => fun _ => none

/-- The values of arguments. -/
def execArgs : List ExprTree → Exec M (List Word)
  | [] => Exec.pure []
  | arg :: args =>
    (execValue arg).bind fun v => (execArgs args).bind fun vs => Exec.pure (v :: vs)

end

end Execution

/-! ### Names of nodes -/

namespace ExprTree

mutual

/-- The names of the nodes of an expression. -/
def nodes : ExprTree → List Nat
  | literal _ _ => []
  | var node _ _ _ => [node]
  | deref node _ operand => node :: operand.nodes
  | classRef node _ cls _ => node :: cls.nodes
  | addr _ operand | cast _ operand | unop _ operand => operand.nodes
  | funcall node _ _ args => node :: argsNodes args
  | incDec node _ operand => node :: operand.nodes
  | binop _ _ left right | logAnd left right | logOr left right => left.nodes ++ right.nodes
  | assign node _ left right => node :: (left.nodes ++ right.nodes)

/-- The names of the nodes of arguments. -/
def argsNodes : List ExprTree → List Nat
  | [] => []
  | arg :: args => arg.nodes ++ argsNodes args

end

/-- The names of the nodes in the address of a target. -/
def addrNodes : ExprTree → List Nat
  | deref _ _ operand => operand.nodes
  | classRef _ _ cls _ => cls.nodes
  | _ => []

end ExprTree

/-! ### What a compound assignment should do -/

/-- The side effects of some nodes among the events of an execution. -/
def sideEffects (nodes : List Nat) (events : List ExprEvent) : List ExprEvent :=
  events.filter fun e => e.isSideEffect && decide (e.node ∈ nodes)

/-- The target, the value and the assignment are nodes of their own. -/
structure NodesApart (node : Nat) (LHS RHS : ExprTree) : Prop where
  target : LHS.node ∉ LHS.addrNodes
  value : ∀ n ∈ LHS.node :: LHS.addrNodes, n ∉ RHS.nodes
  assign : node ∉ LHS.node :: LHS.addrNodes

/-- An execution of a compound assignment performs each side effect in the address of its target
once, and stores the old value and that of the right side under the operator in the cell that the
old value was read from. -/
def TargetOnce {M : Type} (X : ExprMachine M) (node : Nat) (op : AstBinOp) (LHS RHS : ExprTree)
    (m : M) (events : List ExprEvent) : Prop :=
  ∃ a m₁ es₁ value m₂ es₂ old new,
    execAddr X LHS m = some (a, m₁, es₁) ∧ execValue X RHS m₁ = some (value, m₂, es₂)
    ∧ sideEffects LHS.addrNodes events = sideEffects LHS.addrNodes es₁
    ∧ events.filter (fun e => decide (e.node = LHS.node)) = [.load LHS.node a old]
    ∧ events.getLast? = some (.store node a new)
    ∧ ∀ type, astGetResultType (.arith op) LHS.type RHS.type = some type →
      X.arith type op LHS.type RHS.type old value = some new

/-- The address of the target, computed once more where the tree mentions it again, has no side
effect then and is the same; operands that are exchanged have the value that they have in order. -/
def AddrRepeats {M : Type} (X : ExprMachine M) (op : AstBinOp) (LHS RHS : ExprTree) (m : M) :
    Prop :=
  ∀ a m₁ es₁, execAddr X LHS m = some (a, m₁, es₁) →
    if exchanges (.arith op) LHS.type RHS.type then
      ∀ value m₂ es₂, execValue X RHS m₁ = some (value, m₂, es₂) →
        ∃ m₃ es₃, execAddr X LHS m₂ = some (a, m₃, es₃) ∧ (∀ e ∈ es₃, e.isSideEffect = false)
          ∧ ∀ type, astGetResultType (.arith op) LHS.type RHS.type = some type →
            X.arith type op LHS.type RHS.type (X.load m₃ a LHS.type) value
              = X.arith type op RHS.type LHS.type value (X.load m₃ a LHS.type)
    else ∃ m₂ es₂, execAddr X LHS m₁ = some (a, m₂, es₂) ∧ ∀ e ∈ es₂, e.isSideEffect = false

end Polyc
