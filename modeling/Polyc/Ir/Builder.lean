import Polyc.Ir.Semantics

/-!
# Building functions

The part of the state `IrCtx` of a lowering that expressions and statements change: the
blocks that there are, by their ids, the list `blocks` of the function, the block that
instructions are added to, and the counters for values and blocks.  A block is made by
`irBlockNew` and belongs to the function once `irFnAddBlock` has added it.
-/

namespace Polyc

/-- The 8-byte integer variables of a function, by the ids of the source.  No two share a
place. -/
structure Variables where
  value : Nat → IrValue
  type : ∀ id, (value id).type = .i64
  isSlot : ∀ id, (value id).kind = .local ∨ (value id).kind = .param
  size : ∀ id, (value id).as.varSize = 8
  distinct : ∀ i j, (value i).key = (value j).key → i = j

/-- The state of a lowering.  A variable is in `escape` when its address is taken. -/
structure IrCtx where
  addr : Nat
  varId : Nat
  blockId : Nat
  vars : Variables
  escape : Nat → Bool
  code : Nat → List IrInstr
  sealed : Nat → Bool
  blocks : List Nat
  curBlock : Nat

/-- `irOpIsCmp`. -/
def irOpIsCmp (op : IrOp) : Bool := op = .icmp ∨ op = .fcmp

namespace IrCtx

/-- `irFnGetVar`, for a variable that there is. -/
def irFnGetVar (ctx : IrCtx) (lvarId : Nat) : IrValue := ctx.vars.value lvarId

/-- `irTmp`. -/
def irTmp (ctx : IrCtx) (type : IrValueType) (size : Nat) : IrValue × IrCtx :=
  ({ addr := ctx.addr, type := type, kind := .tmp, as := .var ctx.varId size },
    { ctx with addr := ctx.addr + 1, varId := ctx.varId + 1 })

/-- `irConstInt`, at the next address. -/
def irConstInt (ctx : IrCtx) (type : IrValueType) (num : Word) : IrValue × IrCtx :=
  (Polyc.irConstInt ctx.addr type num, { ctx with addr := ctx.addr + 1 })

/-- `irBlockNew`: an empty block that is not sealed. -/
def irBlockNew (ctx : IrCtx) : Nat × IrCtx :=
  (ctx.blockId,
    { ctx with
      blockId := ctx.blockId + 1
      code := Function.update ctx.code ctx.blockId []
      sealed := Function.update ctx.sealed ctx.blockId false })

/-- `irFnAddBlock`, after which the block is the current one. -/
def irFnAddBlock (ctx : IrCtx) (block : Nat) : IrCtx :=
  { ctx with blocks := ctx.blocks ++ [block], curBlock := block }

/-- The instructions of the current block. -/
def instructions (ctx : IrCtx) : List IrInstr := ctx.code ctx.curBlock

/-- Give the current block other instructions. -/
def setInstructions (ctx : IrCtx) (l : List IrInstr) : IrCtx :=
  { ctx with code := Function.update ctx.code ctx.curBlock l }

/-- `irBlockAddInstr`. -/
def irBlockAddInstr (ctx : IrCtx) (I : IrInstr) : IrCtx :=
  ctx.setInstructions (ctx.instructions ++ [I])

/-- Seal the current block. -/
def sealCur (ctx : IrCtx) : IrCtx :=
  { ctx with sealed := Function.update ctx.sealed ctx.curBlock true }

/-- `irJump` from the current block, and the addition of its instruction. -/
def irJump (ctx : IrCtx) (target : Nat) : IrCtx :=
  (ctx.irBlockAddInstr { op := .jmp, targetBlock := target }).sealCur

/-- `irNormalizeBranchCondition` on the current block. -/
def irNormalizeBranchCondition (ctx : IrCtx) (cond : IrValue) : IrValue × IrCtx :=
  if (irBlockLastInstr ctx.instructions).any fun last =>
      irOpIsCmp last.op && last.dst = some cond then (cond, ctx)
  else
    let (zero, ctx) := ctx.irConstInt .i8 0
    let (boolCond, ctx) := ctx.irTmp .i8 1
    (boolCond,
      ctx.irBlockAddInstr
        { op := .icmp, dst := boolCond, r1 := cond, r2 := zero, cmpKind := .ne })

/-- `irBranch` from the current block. -/
def irBranch (ctx : IrCtx) (cond : IrValue) (trueBlock falseBlock : Nat) : IrCtx :=
  let (cond, ctx) := ctx.irNormalizeBranchCondition cond
  (ctx.irBlockAddInstr
    { op := .br, dst := cond, targetBlock := trueBlock
      fallthroughBlock := falseBlock }).sealCur

/-- The opcodes that `irRedirectLastDst` gives another destination. -/
def redirectable : IrOp → Bool
  | .load | .loadDeref | .lea | .iadd | .isub | .imul | .and | .or | .xor | .shl | .shr | .sar
  | .idiv | .udiv | .irem | .urem | .ineg | .not | .icmp | .fcmp | .fadd | .fsub | .fmul | .fdiv
  | .fneg | .trunc | .zext | .sext | .fptrunc | .fpext | .fptosi | .fptoui | .sitofp | .uitofp
  | .ptrtoint | .inttoptr | .bitcast | .call => true
  | _ => false

/-- `irRedirectLastDst`, as the context it leaves; `none` for the answer 0.  The search for
the last instruction other than a `NOP` starts at the end. -/
def irRedirectLastDst (ctx : IrCtx) (val target : IrValue) : Option IrCtx :=
  if val.kind = .tmp then
    let nops := ctx.instructions.reverse.takeWhile fun I => I.op = .nop
    match ctx.instructions.reverse.dropWhile fun I => I.op = .nop with
    | I :: before =>
      if I.dst = some val ∧ redirectable I.op then
        some (ctx.setInstructions
          (before.reverse ++ { I with dst := some target } :: nops.reverse))
      else none
    | [] => none
  else none

/-- The function, as far as it has been built. -/
def function (ctx : IrCtx) (entryBlock : Nat) : IrFunction where
  entryBlock := entryBlock
  blocks := ctx.blocks.map fun id => ⟨id, ctx.code id⟩

end IrCtx

/-- Locals in stack slots, as `irFnAddVar` makes them. -/
def Variables.locals : Variables where
  value id := { addr := id, type := .i64, kind := .local, as := .var id 8 }
  type _ := rfl
  isSlot _ := .inl rfl
  size _ := rfl
  distinct _ _ h := congrArg VarKey.id h

/-- The state in which the body of a function is lowered: there is the entry block. -/
def Variables.start (vs : Variables) (escape : Nat → Bool) : IrCtx :=
  let ctx : IrCtx :=
    { addr := 0, varId := 0, blockId := 0, vars := vs, escape := escape, code := fun _ => []
      sealed := fun _ => false, blocks := [], curBlock := 0 }
  let (entryBlock, ctx) := ctx.irBlockNew
  ctx.irFnAddBlock entryBlock

end Polyc
