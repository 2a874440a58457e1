import Polyc.Ir.LowerExpr

/-!
# Lowering of statements

The cases of `irLowerAst` over the statements of a function whose locals are 8-byte integers,
and `irLowerFunction`.  A lowering that aborts with `loggerPanic` has no result.  A null
statement is `empty`.  A local belongs to the map of variables once its declaration has been
lowered; its slot is what `Variables` says.
-/

namespace Polyc

mutual

/-- Statements. -/
inductive AstStmt where
  | empty
  | expr (e : Ast)
  | decl (declvar : Nat) (declinit : Option Ast)
  | compound (stms : List AstStmt)
  | «if» (cond : Ast) (thenStmt els : AstStmt)
  | «for» (forinit : AstStmt) (forcond : Option Ast) (forstep forbody : AstStmt)
  | «while» (whilecond : Ast) (whilebody : AstStmt)
  | doWhile (whilecond : Ast) (whilebody : AstStmt)
  | «switch» (switchCond : Ast) (cases : List AstCase) (caseDefault : Option (List AstStmt))
  | «goto» (slabel : String)
  | label (slabel : String)
  | «break»
  | «continue»
  | «return» (retval : Option Ast)
  | throw (throwValue : Ast)
  | «try» (tryBody catchBody : AstStmt)

/-- A case of a switch, for the values from `caseBegin` to `caseEnd`. -/
inductive AstCase where
  | mk (caseBegin caseEnd : Word) (caseAsts : List AstStmt)

end

/-- The locals that an expression names. -/
def Ast.locals : Ast → List Nat
  | literal _ => []
  | lvar var => [var.id]
  | cast _ operand => operand.locals
  | funcall _ _ args => argLocals args
  | unop _ operand => operand.locals
  | incDec _ operand => [operand.id]
  | binop _ _ left right => left.locals ++ right.locals
  | logAnd left right => left.locals ++ right.locals
  | logOr left right => left.locals ++ right.locals
  | assign left right => left.id :: right.locals
  | compoundAssign _ left right => left.id :: right.locals
where
  /-- The locals that the arguments of a call name. -/
  argLocals : List Ast → List Nat
    | [] => []
    | arg :: args => arg.locals ++ argLocals args

/-- `IrLoopCtx`; a switch has no block to continue with. -/
structure IrLoopCtx where
  continueBlock : Option Nat
  breakBlock : Nat
  deriving DecidableEq

/-- `IR_LOOP_STACK_MAX`. -/
def irLoopStackMax : Nat := 32

/-- The state `IrCtx` of the lowering of a function: the part that expressions change, the
table of labels, the loops around the statement with the innermost first, the keys of
`func->variables`, and the exit block and the return slot of the function. -/
structure FnCtx extends IrCtx where
  labels : String → Option Nat
  loopStack : List IrLoopCtx
  declared : List Nat
  exitBlock : Nat
  returnValue : Option IrValue

/-- What lowers a statement; `none` is an abort. -/
abbrev LowerStmt := FnCtx → Option FnCtx

namespace FnCtx

/-- A change of the part that expressions change. -/
def on (ctx : FnCtx) (f : IrCtx → IrCtx) : FnCtx := { ctx with toIrCtx := f ctx.toIrCtx }

/-- `irExpr`, which aborts on a variable that is not found. -/
def expr (ctx : FnCtx) (e : Ast) : Option (IrValue × FnCtx) :=
  if e.locals ⊆ ctx.declared then
    let (val, c) := irExpr e ctx.toIrCtx
    some (val, { ctx with toIrCtx := c })
  else none

/-- The addition of a jump, unless the block is sealed. -/
def jumpUnlessSealed (ctx : FnCtx) (target : Nat) : FnCtx :=
  if ctx.sealed ctx.curBlock then ctx else ctx.on (·.irJump target)

/-- `irPushLoopCtx`. -/
def irPushLoopCtx (ctx : FnCtx) (continueBlk : Option Nat) (breakBlk : Nat) : Option FnCtx :=
  if irLoopStackMax ≤ ctx.loopStack.length then none
  else some { ctx with loopStack := ⟨continueBlk, breakBlk⟩ :: ctx.loopStack }

/-- `irPopLoopCtx`. -/
def irPopLoopCtx (ctx : FnCtx) : Option FnCtx :=
  match ctx.loopStack with
  | [] => none
  | _ :: loopStack => some { ctx with loopStack := loopStack }

/-- The words that stand for the names of the runtime functions. -/
def hccPushFrame : Word := 1

def setjmp : Word := 2

def hccTryLeave : Word := 3

def hccThrow : Word := 4

/-- `irEmitRuntimeCall1`. -/
def irEmitRuntimeCall1 (ctx : FnCtx) (fname : Word) (arg : IrValue) : IrValue × FnCtx :=
  let (ret, c) := ctx.irTmp .i64 8
  let c := c.irBlockAddInstr
    { op := .call, dst := ret, r1 := IrCtx.callWrapper fname, args := [arg] }
  (ret, { ctx with toIrCtx := c })

/-- `irBlockNew`. -/
def blockNew (ctx : FnCtx) : Nat × FnCtx :=
  let (block, c) := ctx.irBlockNew
  (block, { ctx with toIrCtx := c })

/-- One new block for each case of a switch. -/
def blocksNew : Nat → FnCtx → List Nat × FnCtx
  | 0, ctx => ([], ctx)
  | n + 1, ctx =>
    let (block, ctx) := ctx.blockNew
    let (blocks, ctx) := blocksNew n ctx
    (block :: blocks, ctx)

/-- The block of a label, a new one if the name is new. -/
def labelBlock (ctx : FnCtx) (lname : String) : Nat × FnCtx :=
  match ctx.labels lname with
  | some target => (target, ctx)
  | none =>
    let (target, ctx) := ctx.blockNew
    (target, { ctx with labels := Function.update ctx.labels lname (some target) })

/-! ### Statements -/

/-- An expression as a statement: `irLowerAst` knows binary and unary operators and calls,
does nothing for a variable and aborts on anything else. -/
def irLowerExprStmt (e : Ast) : LowerStmt := fun ctx =>
  match e with
  | .lvar _ => some ctx
  | .literal _ | .cast _ _ => none
  | e => (ctx.expr e).map Prod.snd

/-- `irLowerDecl` of an 8-byte integer, which aborts when the variable is there. -/
def irLowerDecl (declvar : Nat) (declinit : Option Ast) : LowerStmt := fun ctx =>
  if declvar ∈ ctx.declared then none
  else
    let pinned := (ctx.vars.value declvar).pinnedReg.isSome
    let ctx := { ctx with declared := declvar :: ctx.declared }
    let ctx := if pinned then ctx else ctx.on fun c => (c.irTmp .i64 8).2
    match declinit with
    | none => some ctx
    | some init => do
      let (irInit, ctx) ← ctx.expr init
      return ctx.on fun c =>
        let (irInit, c) :=
          if pinned then (irInit, c) else c.irWidenToTargetWidth irInit init.issigned
        (c.irAssignTo (c.irFnGetVar declvar) irInit).2

/-- `irLowerReturn`: the value goes to the return slot, a narrow temporary is widened. -/
def irLowerReturn (retval : Option Ast) : LowerStmt := fun ctx => do
  let ctx ←
    match retval, ctx.returnValue with
    | some retval, some rv => do
      let (val, ctx) ← ctx.expr retval
      pure (ctx.on fun c =>
        let (val, c) :=
          if val.kind = .tmp ∧ val.as.varSize < irValueByteSize (some rv) then
            c.compute .i64 { op := if retval.issigned then .sext else .zext, r1 := val }
          else (val, c)
        c.irBlockAddInstr { op := .store, dst := rv, r1 := val })
    | _, _ => pure ctx
  return ctx.on (·.irJump ctx.exitBlock)

/-- `irLowerThrow`. -/
def irLowerThrow (throwValue : Ast) : LowerStmt := fun ctx => do
  let (val, ctx) ← ctx.expr throwValue
  let (_, ctx) := ctx.irEmitRuntimeCall1 hccThrow val
  return ctx.on (·.sealCur)

/-- The jump of a `break` or a `continue`: out of a loop there is none, and `irJump` aborts on
a block that is not there. -/
def irLowerLoopJump (block : IrLoopCtx → Option Nat) : LowerStmt := fun ctx => do
  let lc ← ctx.loopStack.head?
  let target ← block lc
  return ctx.on (·.irJump target)

/-- `irLowerGoto`. -/
def irLowerGoto (lname : String) : LowerStmt := fun ctx =>
  let (target, ctx) := ctx.labelBlock lname
  let ctx := ctx.on (·.irJump target)
  let (unreach, ctx) := ctx.blockNew
  some (ctx.on (·.irFnAddBlock unreach))

/-- `irLowerLabel`. -/
def irLowerLabel (lname : String) : LowerStmt := fun ctx =>
  let (target, ctx) := ctx.labelBlock lname
  some ((ctx.jumpUnlessSealed target).on (·.irFnAddBlock target))

/-- `irLowerIf`; without an `else` a false condition goes to the end. -/
def irLowerIf (cond : Ast) (thenStmt : LowerStmt) (els : Option LowerStmt) : LowerStmt :=
  fun ctx => do
    let (condVal, ctx) ← ctx.expr cond
    let (thenBlock, ctx) := ctx.blockNew
    match els with
    | none =>
      let (joinBlock, ctx) := ctx.blockNew
      let ctx := ctx.on (·.irBranch condVal thenBlock joinBlock)
      let ctx ← thenStmt (ctx.on (·.irFnAddBlock thenBlock))
      return (ctx.jumpUnlessSealed joinBlock).on (·.irFnAddBlock joinBlock)
    | some els =>
      let (elseBlock, ctx) := ctx.blockNew
      let (joinBlock, ctx) := ctx.blockNew
      let ctx := ctx.on (·.irBranch condVal thenBlock elseBlock)
      let ctx ← thenStmt (ctx.on (·.irFnAddBlock thenBlock))
      let ctx ← els ((ctx.jumpUnlessSealed joinBlock).on (·.irFnAddBlock elseBlock))
      return (ctx.jumpUnlessSealed joinBlock).on (·.irFnAddBlock joinBlock)

/-- `irLowerForLoop`. -/
def irLowerForLoop (forinit : LowerStmt) (forcond : Option Ast) (forstep forbody : LowerStmt) :
    LowerStmt := fun ctx => do
  let ctx ← forinit ctx
  if ctx.sealed ctx.curBlock then return ctx
  let (header, ctx) := ctx.blockNew
  let (body, ctx) := ctx.blockNew
  let (step, ctx) := ctx.blockNew
  let (endBlock, ctx) := ctx.blockNew
  let ctx := (ctx.on (·.irJump header)).on (·.irFnAddBlock header)
  let ctx ←
    match forcond with
    | some cond => do
      let (condVal, ctx) ← ctx.expr cond
      pure (ctx.on (·.irBranch condVal body endBlock))
    | none => pure (ctx.on (·.irJump body))
  let ctx ← ctx.irPushLoopCtx (some step) endBlock
  let ctx ← forbody (ctx.on (·.irFnAddBlock body))
  let ctx ← forstep ((ctx.jumpUnlessSealed step).on (·.irFnAddBlock step))
  let ctx ← (ctx.jumpUnlessSealed header).irPopLoopCtx
  return ctx.on (·.irFnAddBlock endBlock)

/-- `irLowerWhileLoop`. -/
def irLowerWhileLoop (whilecond : Ast) (whilebody : LowerStmt) : LowerStmt := fun ctx => do
  let (header, ctx) := ctx.blockNew
  let (body, ctx) := ctx.blockNew
  let (endBlock, ctx) := ctx.blockNew
  let ctx := (ctx.on (·.irJump header)).on (·.irFnAddBlock header)
  let (condVal, ctx) ← ctx.expr whilecond
  let ctx := ctx.on (·.irBranch condVal body endBlock)
  let ctx ← ctx.irPushLoopCtx (some header) endBlock
  let ctx ← whilebody (ctx.on (·.irFnAddBlock body))
  let ctx ← (ctx.jumpUnlessSealed header).irPopLoopCtx
  return ctx.on (·.irFnAddBlock endBlock)

/-- `irLowerDoWhileLoop`. -/
def irLowerDoWhileLoop (whilecond : Ast) (whilebody : LowerStmt) : LowerStmt := fun ctx => do
  let (body, ctx) := ctx.blockNew
  let (cond, ctx) := ctx.blockNew
  let (endBlock, ctx) := ctx.blockNew
  let ctx := ctx.on (·.irJump body)
  let ctx ← ctx.irPushLoopCtx (some cond) endBlock
  let ctx ← whilebody (ctx.on (·.irFnAddBlock body))
  let ctx := (ctx.jumpUnlessSealed cond).on (·.irFnAddBlock cond)
  let (condVal, ctx) ← ctx.expr whilecond
  let ctx ← (ctx.on (·.irBranch condVal body endBlock)).irPopLoopCtx
  return ctx.on (·.irFnAddBlock endBlock)

/-- The comparison of the value of a switch with a bound of a case, and the branch on it. -/
def caseTest (cond : IrValue) (cmpKind : IrCmpKind) (bound : Word) (t f : Nat) (c : IrCtx) :
    IrCtx :=
  let (cmp, c) := c.irTmp .i8 1
  let (k, c) := c.irConstInt .i64 bound
  let c := c.irBlockAddInstr { op := .icmp, dst := cmp, r1 := cond, r2 := k, cmpKind := cmpKind }
  c.irBranch cmp t f

/-- The test of one case of a switch: one comparison for a value, two for a range. -/
def irLowerCaseTest (cond : IrValue) (caseBegin caseEnd : Word) (body nextTest : Nat)
    (ctx : FnCtx) : FnCtx :=
  if caseBegin = caseEnd then ctx.on (caseTest cond .eq caseBegin body nextTest)
  else
    let (upper, ctx) := ctx.blockNew
    let ctx := ctx.on (caseTest cond .ge caseBegin upper nextTest)
    (ctx.on (·.irFnAddBlock upper)).on (caseTest cond .le caseEnd body nextTest)

/-- The tests of the cases of a switch in order, each in a block of its own. -/
def irLowerCaseTests (cond : IrValue) (defaultBlock : Nat) :
    List (AstCase × Nat) → FnCtx → FnCtx
  | [], ctx => ctx
  | [(.mk caseBegin caseEnd _, body)], ctx =>
    ctx.irLowerCaseTest cond caseBegin caseEnd body defaultBlock
  | (.mk caseBegin caseEnd _, body) :: cases, ctx =>
    let (nextTest, ctx) := ctx.blockNew
    let ctx := ctx.irLowerCaseTest cond caseBegin caseEnd body nextTest
    irLowerCaseTests cond defaultBlock cases (ctx.on (·.irFnAddBlock nextTest))

/-- `irLowerSwitch`, with what lowers the bodies of the cases into their blocks, followed by
the default block, and what lowers the default case. -/
def irLowerSwitch (switchCond : Ast) (cases : List AstCase)
    (bodies : List Nat → Nat → LowerStmt) (caseDefault : Option LowerStmt) : LowerStmt :=
  fun ctx => do
    let (cond, ctx) ← ctx.expr switchCond
    let (endBlock, ctx) := ctx.blockNew
    let (defaultBlock, ctx) := if caseDefault.isSome then ctx.blockNew else (endBlock, ctx)
    let (bodyBlocks, ctx) := ctx.blocksNew cases.length
    let ctx ← ctx.irPushLoopCtx none endBlock
    let ctx := ctx.irLowerCaseTests cond defaultBlock (cases.zip bodyBlocks)
    let ctx := if cases = [] then ctx.jumpUnlessSealed defaultBlock else ctx
    let ctx ← bodies bodyBlocks defaultBlock ctx
    let ctx ←
      match caseDefault with
      | some caseDefault => do
        let ctx ← caseDefault (ctx.on (·.irFnAddBlock defaultBlock))
        pure (ctx.jumpUnlessSealed endBlock)
      | none => pure ctx
    let ctx ← ctx.irPopLoopCtx
    return ctx.on (·.irFnAddBlock endBlock)

/-- The frame of a `try` in the stack frame of the function, by its address. -/
def tryFrame (ctx : FnCtx) : IrValue × FnCtx :=
  let (sizeConst, c) := ctx.irConstInt .i64 256
  let (frameTmp, c) := c.irTmp .ptr 256
  let c := c.irBlockAddInstr { op := .alloca, dst := frameTmp, r1 := sizeConst }
  let (frameAddr, c) := c.irTmp .ptr 8
  let c := c.irBlockAddInstr { op := .lea, dst := frameAddr, r1 := frameTmp }
  (frameAddr, { ctx with toIrCtx := c })

/-- The branch of a `try` on what `setjmp` has returned. -/
def tryBranch (enterRet : IrValue) (bodyBlock catchBlock : Nat) (c : IrCtx) : IrCtx :=
  let (cmpZero, c) := c.irTmp .i64 8
  let (zero, c) := c.irConstInt .i64 0
  let c := c.irBlockAddInstr
    { op := .icmp, dst := cmpZero, r1 := enterRet, r2 := zero, cmpKind := .eq }
  c.irBranch cmpZero bodyBlock catchBlock

/-- `irLowerTry`. -/
def irLowerTry (tryBody catchBody : LowerStmt) : LowerStmt := fun ctx => do
  let (frameAddr, ctx) := ctx.tryFrame
  let (_, ctx) := ctx.irEmitRuntimeCall1 hccPushFrame frameAddr
  let (enterRet, ctx) := ctx.irEmitRuntimeCall1 setjmp frameAddr
  let (bodyBlock, ctx) := ctx.blockNew
  let (catchBlock, ctx) := ctx.blockNew
  let (endBlock, ctx) := ctx.blockNew
  let ctx := ctx.on (tryBranch enterRet bodyBlock catchBlock)
  let ctx ← tryBody (ctx.on (·.irFnAddBlock bodyBlock))
  let ctx :=
    if ctx.sealed ctx.curBlock then ctx
    else (ctx.irEmitRuntimeCall1 hccTryLeave frameAddr).2.on (·.irJump endBlock)
  let (_, ctx) := (ctx.on (·.irFnAddBlock catchBlock)).irEmitRuntimeCall1 hccTryLeave frameAddr
  let ctx ← catchBody ctx
  return (ctx.jumpUnlessSealed endBlock).on (·.irFnAddBlock endBlock)

/-- The start of `irLowerAst`: a null statement does nothing, and after a sealed block every
statement but a label is dropped. -/
def unlessSealed (lower : LowerStmt) : LowerStmt := fun ctx =>
  if ctx.sealed ctx.curBlock then some ctx else lower ctx

end FnCtx

open FnCtx

mutual

/-- `irLowerAst`. -/
def irLowerAst : AstStmt → LowerStmt
  | .empty => some
  | .expr e => unlessSealed (irLowerExprStmt e)
  | .decl declvar declinit => unlessSealed (irLowerDecl declvar declinit)
  | .compound stms => unlessSealed (irLowerAsts stms)
  | .«if» cond thenStmt .empty => unlessSealed (irLowerIf cond (irLowerAst thenStmt) none)
  | .«if» cond thenStmt els =>
    unlessSealed (irLowerIf cond (irLowerAst thenStmt) (some (irLowerAst els)))
  | .«for» _ _ _ .empty => some
  | .«for» forinit forcond forstep forbody =>
    unlessSealed
      (irLowerForLoop (irLowerAst forinit) forcond (irLowerAst forstep) (irLowerAst forbody))
  | .«while» whilecond whilebody =>
    unlessSealed (irLowerWhileLoop whilecond (irLowerAst whilebody))
  | .doWhile whilecond whilebody =>
    unlessSealed (irLowerDoWhileLoop whilecond (irLowerAst whilebody))
  | .«switch» switchCond cases caseDefault =>
    unlessSealed
      (irLowerSwitch switchCond cases (irLowerCases cases) (irLowerDefault caseDefault))
  | .«goto» slabel => unlessSealed (irLowerGoto slabel)
  | .label slabel => irLowerLabel slabel
  | .«break» => unlessSealed (irLowerLoopJump fun lc => lc.breakBlock)
  | .«continue» => unlessSealed (irLowerLoopJump fun lc => lc.continueBlock)
  | .«return» retval => unlessSealed (irLowerReturn retval)
  | .throw throwValue => unlessSealed (irLowerThrow throwValue)
  | .«try» tryBody catchBody =>
    unlessSealed (irLowerTry (irLowerAst tryBody) (irLowerAst catchBody))

/-- Statements in order. -/
def irLowerAsts : List AstStmt → LowerStmt
  | [] => some
  | stm :: stms => fun ctx => do
    let ctx ← irLowerAst stm ctx
    irLowerAsts stms ctx

/-- The bodies of the cases of a switch, each of which falls through to the next one. -/
def irLowerCases : List AstCase → List Nat → Nat → LowerStmt
  | .mk _ _ caseAsts :: cases, body :: bodyBlocks, defaultBlock => fun ctx => do
    let ctx ← irLowerAsts caseAsts (ctx.on (·.irFnAddBlock body))
    irLowerCases cases bodyBlocks defaultBlock
      (ctx.jumpUnlessSealed (bodyBlocks.head?.getD defaultBlock))
  | _, _, _ => some

/-- The default case of a switch, if there is one. -/
def irLowerDefault : Option (List AstStmt) → Option LowerStmt
  | none => none
  | some caseAsts => some (irLowerAsts caseAsts)

end

/-- A function over 8-byte integers; `hasRet` is false for the return type `U0`. -/
structure AstFunc where
  params : List Nat
  hasRet : Bool
  isMain : Bool
  body : AstStmt

namespace FnCtx

/-- A parameter of `irLowerFunction` that arrives in a register or on the stack and is stored
to its slot; it aborts when the variable is there. -/
def irLowerParam (key : Nat) : LowerStmt := fun ctx =>
  if key ∈ ctx.declared then none
  else
    let ctx := { ctx with declared := key :: ctx.declared }
    some (ctx.on fun c =>
      let (arrive, c) := c.irTmp .i64 8
      let (_, c) := c.irTmp .i64 8
      c.irBlockAddInstr
        { op := .store, dst := c.irFnGetVar key, r1 := some { arrive with kind := .param } })

/-- The parameters in order. -/
def irLowerParams : List Nat → LowerStmt
  | [], ctx => some ctx
  | key :: params, ctx => do
    let ctx ← ctx.irLowerParam key
    irLowerParams params ctx

/-- The return slot of a function that returns an integer. -/
def returnSlot (hasRet : Bool) (ctx : FnCtx) : FnCtx :=
  if hasRet then
    let (size, c) := ctx.irConstInt .i64 8
    let (slot, c) := c.irTmp .i64 8
    { ctx with
      toIrCtx := c.irBlockAddInstr { op := .alloca, dst := slot, r1 := size }
      returnValue := some slot }
  else ctx

/-- The instructions of the exit block. -/
def exitInstrs (isMain : Bool) (ctx : FnCtx) : FnCtx :=
  match ctx.returnValue with
  | some rv => ctx.on fun c =>
    let (loadDst, c) := c.irTmp rv.type 8
    let c := c.irBlockAddInstr { op := .load, dst := loadDst, r1 := rv }
    c.irBlockAddInstr { op := .ret, dst := loadDst }
  | none =>
    if isMain then ctx.on fun c =>
      let (zero, c) := c.irConstInt .i32 0
      c.irBlockAddInstr { op := .ret, dst := zero }
    else ctx.on (·.irBlockAddInstr { op := .ret })

/-- The context of a function before its first block. -/
def irFunctionNew (vars : Variables) (escape : Nat → Bool) : FnCtx where
  addr := 0
  varId := 0
  blockId := 0
  vars := vars
  escape := escape
  code _ := []
  «sealed» _ := false
  blocks := []
  curBlock := 0
  labels _ := none
  loopStack := []
  declared := []
  exitBlock := 0
  returnValue := none

/-- `irLowerFunction`. -/
def irLowerFunction (vars : Variables) (escape : Nat → Bool) (func : AstFunc) :
    Option IrFunction := do
  let (entry, ctx) := (irFunctionNew vars escape).blockNew
  let (exitBlock, ctx) := ctx.blockNew
  let ctx := { ctx.on (·.irFnAddBlock entry) with exitBlock := exitBlock }
  let ctx ← ctx.irLowerParams func.params
  let ctx ← irLowerAst func.body (ctx.returnSlot func.hasRet)
  let ctx := (ctx.jumpUnlessSealed exitBlock).on (·.irFnAddBlock exitBlock)
  let ctx := (ctx.exitInstrs func.isMain).on (·.sealCur)
  return ctx.toIrCtx.function entry

end FnCtx

end Polyc
