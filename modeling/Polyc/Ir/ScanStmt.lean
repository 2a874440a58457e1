import Polyc.Ir.EvalExpr
import Polyc.Ir.LowerStmt

/-!
# A scan of statements

What decides whether the lowering of a function is well formed, read off its statements: which
of them are dropped after a jump, which locals are declared, what encloses a `continue`, which
labels are lowered and which of them something jumps to.
-/

namespace Polyc

/-- Whether the lowering of an expression makes blocks: whether it has a logical operator or a
range comparison. -/
def Ast.branches : Ast → Bool
  | literal _ | lvar _ | incDec _ _ => false
  | cast _ operand | unop _ operand => operand.branches
  | funcall _ _ args => argBranches args
  | binop op _ left right => isRange op left || left.branches || right.branches
  | logAnd _ _ | logOr _ _ => true
  | assign _ right | compoundAssign _ _ right => right.branches
where
  /-- Whether an argument of a call makes blocks. -/
  argBranches : List Ast → Bool
    | [] => false
    | arg :: args => arg.branches || argBranches args

/-- What a scan knows at a place: whether it is reached by falling from the statement before
(nothing has sealed the block), the label whose block is the current one, the locals that
have been declared, the loops (`true`) and switches around it with the innermost first, the
labels that have been lowered, and the names of the labels that a jump, a fall from the
statement before or a phi refers to. -/
structure Scan where
  live : Bool
  here : Option String
  declared : List Nat
  loops : List Bool
  labels : List String
  named : List String

namespace Scan

/-- An expression: its locals have to be declared, and if it makes blocks, a phi refers to
the current block. -/
def expr (st : Scan) (e : Ast) : Option Scan :=
  if e.locals ⊆ st.declared then
    if e.branches then some { st with here := none, named := st.here.toList ++ st.named }
    else some st
  else none

/-- The start of a block that has no label. -/
def enter (st : Scan) : Scan := { st with live := true, here := none }

/-- The end of a block. -/
def leave (st : Scan) : Scan := { st with live := false }

/-- The start of the body of a loop or a switch, up to the greatest depth. -/
def push (st : Scan) (isLoop : Bool) : Option Scan :=
  if irLoopStackMax ≤ st.loops.length then none
  else some { st with loops := isLoop :: st.loops }

/-- The end of the body of a loop or a switch. -/
def pop (st : Scan) : Scan := { st with loops := st.loops.tail }

/-- A label refers to its block if something falls into it.  The block of a label that has
been lowered before is sealed. -/
def label (st : Scan) (lname : String) : Scan :=
  { st with
    live := lname ∉ st.labels
    here := some lname
    labels := lname :: st.labels
    named := if st.live then lname :: st.named else st.named }

/-- A statement that is dropped after a jump. -/
def unlessDropped (f : Scan → Option Scan) (st : Scan) : Option Scan :=
  if st.live then f st else some st

end Scan

/-- The scan of an expression as a statement. -/
def scanExprStmt (e : Ast) (st : Scan) : Option Scan :=
  match e with
  | .lvar _ => some st
  | .literal _ | .cast _ _ => none
  | e => st.expr e

/-- The scan of a declaration. -/
def scanDecl (declvar : Nat) (declinit : Option Ast) (st : Scan) : Option Scan :=
  if declvar ∈ st.declared then none
  else
    let st := { st with declared := declvar :: st.declared }
    match declinit with
    | none => some st
    | some init => st.expr init

section
variable (hasRet : Bool)

mutual

/-- The scan of a statement; `none` if its lowering aborts. -/
def scanAst : AstStmt → Scan → Option Scan
  | .empty => some
  | .expr e => Scan.unlessDropped (scanExprStmt e)
  | .decl declvar declinit => Scan.unlessDropped (scanDecl declvar declinit)
  | .compound stms => Scan.unlessDropped (scanAsts stms)
  | .«if» cond thenStmt els =>
    Scan.unlessDropped fun st => do
      let st ← st.expr cond
      let st ← scanAst thenStmt st.enter
      let st ← scanAst els st.enter
      return st.enter
  | .«for» _ _ _ .empty => some
  | .«for» forinit forcond forstep forbody =>
    Scan.unlessDropped fun st => do
      let st ← scanAst forinit st
      if st.live then
        let st ←
          match forcond with
          | some cond => st.enter.expr cond
          | none => pure st.enter
        let st ← st.push true
        let st ← scanAst forbody st.enter
        let st ← scanAst forstep st.enter
        return st.pop.enter
      else return st
  | .«while» whilecond whilebody =>
    Scan.unlessDropped fun st => do
      let st ← st.enter.expr whilecond
      let st ← st.push true
      let st ← scanAst whilebody st.enter
      return st.pop.enter
  | .doWhile whilecond whilebody =>
    Scan.unlessDropped fun st => do
      let st ← st.push true
      let st ← scanAst whilebody st.enter
      let st ← st.enter.expr whilecond
      return st.pop.enter
  | .«switch» switchCond cases caseDefault =>
    Scan.unlessDropped fun st => do
      let st ← st.expr switchCond
      let st ← st.push false
      let st ← scanCases cases st
      let st ← scanDefault caseDefault st
      return st.pop.enter
  | .«goto» slabel =>
    Scan.unlessDropped fun st => some { st.enter with named := slabel :: st.named }
  | .label slabel => fun st => some (st.label slabel)
  | .«break» =>
    Scan.unlessDropped fun st => if st.loops = [] then none else some st.leave
  | .«continue» =>
    Scan.unlessDropped fun st => if st.loops.head? = some true then some st.leave else none
  | .«return» retval =>
    Scan.unlessDropped fun st => do
      let st ←
        match retval with
        | some retval => if hasRet then st.expr retval else pure st
        | none => pure st
      return st.leave
  | .throw throwValue => Scan.unlessDropped fun st => do
      let st ← st.expr throwValue
      return st.leave
  | .«try» tryBody catchBody =>
    Scan.unlessDropped fun st => do
      let st ← scanAst tryBody st.enter
      let st ← scanAst catchBody st.enter
      return st.enter

/-- Statements in order. -/
def scanAsts : List AstStmt → Scan → Option Scan
  | [], st => some st
  | stm :: stms, st => do
    let st ← scanAst stm st
    scanAsts stms st

/-- The cases of a switch, each of which starts a block. -/
def scanCases : List AstCase → Scan → Option Scan
  | [], st => some st
  | .mk _ _ caseAsts :: cases, st => do
    let st ← scanAsts caseAsts st.enter
    scanCases cases st

/-- The default case of a switch. -/
def scanDefault : Option (List AstStmt) → Scan → Option Scan
  | none, st => some st
  | some caseAsts, st => scanAsts caseAsts st.enter

end

end

/-- The parameters of a function, which are declared first. -/
def scanParams : List Nat → Scan → Option Scan
  | [], st => some st
  | key :: params, st =>
    if key ∈ st.declared then none
    else scanParams params { st with declared := key :: st.declared }

/-- The scan of a function. -/
def scanFunction (func : AstFunc) : Option Scan := do
  let st ← scanParams func.params ⟨true, none, [], [], [], []⟩
  scanAst func.hasRet func.body st

end Polyc
