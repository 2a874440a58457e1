import Mathlib.Data.BitVec
import Mathlib.Data.List.Basic

/-!
# The intermediate representation

The data of `ir-types.h`: opcodes, operand values, instructions and basic blocks.  A C
pointer to a value is the value together with its address `IrValue.addr`, so comparing two
pointers is comparing two addresses.  A pointer that may be `NULL` is an `Option`; a vector
pointer that may be `NULL` is a list, empty for `NULL`.  A block is referred to by its `id`.
-/

namespace Polyc

/-- A machine word, the type of every 8-byte value. -/
abbrev Word := BitVec 64

/-- The opcodes `IrOp`. -/
inductive IrOp where
  | nop
  | alloca | load | store | loadDeref | storeDeref | rmwDeref | lea | gep
  | iadd | isub | imul | idiv | udiv | irem | urem | ineg
  | fadd | fsub | fmul | fdiv | fneg
  | and | or | xor | shl | shr | sar | not
  | icmp | fcmp
  | trunc | zext | sext | fptrunc | fpext | fptoui | fptosi | uitofp | sitofp
  | ptrtoint | inttoptr | bitcast
  | ret | br | cmpBr | jmp | switch | call | phi | label
  | select | vaArg | vaStart | vaEnd | asm
  deriving DecidableEq

/-- The value types `IrValueType`. -/
inductive IrValueType where
  | void | i8 | i16 | i32 | i64 | f32 | f64 | ptr | array | arrayInit | struct
  | function | asmFunction | label
  deriving DecidableEq

/-- The value kinds `IrValueKind`. -/
inductive IrValueKind where
  | constInt | constFloat | constStr | global | param | local | tmp | phi | label
  | undefined | unresolved
  deriving DecidableEq

/-- The comparisons `IrCmpKind`. -/
inductive IrCmpKind where
  | invalid
  | eq | ne | lt | le | gt | ge | ult | ule | ugt | uge
  | oeq | one | olt | ole | ogt | oge | uno | ord
  deriving DecidableEq

/-- The classification `IrParamKind` of a parameter value. -/
inductive IrParamKind where
  | normal | varargsArgc | varargsArgv | byvalStruct | pinnedReg | hiddenSret
  deriving DecidableEq

/-- Where a value lives after register allocation: `IrLocation`.  The register name may be
`NULL`. -/
inductive IrLocation where
  | none
  | reg (reg : Option String)
  | slot (loff : Int)
  | imm (imm : Word)
  deriving DecidableEq

/-- The union `IrValue.as`: an integer, a variable (its id and its size), or the first word
of any other member (the bits of a float, the address of a name or of a label). -/
inductive IrValueAs where
  | i64 (num : Word)
  | var (id : Nat) (size : Nat)
  | other (word : Word)
  deriving DecidableEq

/-- The record `IrValue` at address `addr`.  Of the type `byval_struct_type` that tags an
aggregate passed by value only its size is kept. -/
structure IrValue where
  addr : Nat
  type : IrValueType
  kind : IrValueKind
  paramKind : IrParamKind := .normal
  pinnedReg : Option String := none
  loc : IrLocation := .none
  byvalStructType : Option Nat := none
  as : IrValueAs
  deriving DecidableEq

/-- `IrPair`: the value of a phi on the edge from a block. -/
structure IrPair where
  irValue : IrValue
  irBlock : Nat
  deriving DecidableEq

/-- The record `IrInstr`.  The members of the union `extra` that the passes read are fields
of their own, and `args` is the vector `r1->as.array.values` of a call. -/
structure IrInstr where
  op : IrOp
  dst : Option IrValue := none
  r1 : Option IrValue := none
  r2 : Option IrValue := none
  disp : Int := 0
  idx : Option IrValue := none
  scale : Nat := 0
  args : List IrValue := []
  targetBlock : Nat := 0
  fallthroughBlock : Nat := 0
  cmpKind : IrCmpKind := .eq
  rmwOp : IrOp := .nop
  phiPairs : List IrPair := []
  deriving DecidableEq

/-- The record `IrBlock`. -/
structure IrBlock where
  id : Nat
  instructions : List IrInstr
  deriving DecidableEq

/-- The part of `IrFunction` that the block-local passes and the allocator read: the entry
block and the list of blocks in layout order. -/
structure IrFunction where
  entryBlock : Nat
  blocks : List IrBlock
  deriving DecidableEq

/-- An 8-byte integer variable, at an address of its own. -/
def irWordVar (addr : Nat) (kind : IrValueKind) (id : Nat) : IrValue where
  addr := addr
  type := .i64
  kind := kind
  as := .var id 8

/-! ### Accessors -/

/-- `irIsConstInt`. -/
def irIsConstInt : Option IrValue → Bool
  | none => false
  | some v => v.kind = .constInt

/-- `irIsTmp`. -/
def irIsTmp : Option IrValue → Bool
  | none => false
  | some v => v.kind = .tmp

/-- The 32 bits that `val->as.var.id` reads, whichever member of the union was written. -/
def IrValueAs.varId : IrValueAs → Nat
  | .i64 num => num.toNat % 2 ^ 32
  | .var id _ => id
  | .other word => word.toNat % 2 ^ 32

/-- The 64 bits that `val->as._i64` reads: a variable's id in the low half, its size in
the 16 bits above. -/
def IrValueAs.toI64 : IrValueAs → Word
  | .i64 num => num
  | .var id size => BitVec.ofNat 64 (id + size * 2 ^ 32)
  | .other word => word

/-- The 16 bits that `val->as.var.size` reads. -/
def IrValueAs.varSize : IrValueAs → Nat
  | .i64 num => num.toNat / 2 ^ 32 % 2 ^ 16
  | .var _ size => size
  | .other word => word.toNat / 2 ^ 32 % 2 ^ 16

/-- The variable id of a value that is there. -/
def IrValue.varId (v : IrValue) : Nat := v.as.varId

/-- `irValueByteSize`. -/
def irValueByteSize : Option IrValue → Nat
  | none => 8
  | some v =>
    if (v.kind = .tmp ∨ v.kind = .local ∨ v.kind = .param) ∧ 0 < v.as.varSize then
      v.as.varSize
    else
      match v.type with
      | .i8 => 1
      | .i16 => 2
      | .i32 => 4
      | .f32 => 4
      | _ => 8

/-- `irConstInt`, at the address handed out by the allocator. -/
def irConstInt (addr : Nat) (type : IrValueType) (num : Word) : IrValue where
  addr := addr
  type := type
  kind := .constInt
  as := .i64 num

@[simp]
theorem irConstInt_kind (addr : Nat) (type : IrValueType) (num : Word) :
  (irConstInt addr type num).kind = .constInt
  := rfl

@[simp]
theorem irConstInt_toI64 (addr : Nat) (type : IrValueType) (num : Word) :
  (irConstInt addr type num).as.toI64 = num
  := rfl

/-- `irBlockLastInstr` on the instruction list of a block. -/
def irBlockLastInstr (instructions : List IrInstr) : Option IrInstr :=
  instructions.getLast?

end Polyc
