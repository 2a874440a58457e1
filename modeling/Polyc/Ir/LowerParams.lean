import Polyc.Ast.Types

/-!
# Lowering of parameters

The first part of `irLowerFunction`: every parameter becomes the value that arrives, the
slot that the body refers to and the store between them.  All variables are minted from one
counter.  Whatever the target, the values carry no registers; these are stamped later.
-/

namespace Polyc

/-- What lowering keeps while it runs: the counter `ir_tmp_var_id`, the next free address,
the variables made so far as they left their constructor, the vector `params` and the map
`variables` of the function, and its instructions so far. -/
structure LowerState where
  tmpVarId : Nat
  addr : Nat
  values : List IrValue := []
  params : List IrValue := []
  vars : List (Nat × IrValue) := []
  instructions : List IrInstr := []

namespace LowerState

/-- `irTmp`, with the kinds that its callers give to the value. -/
def irTmp (st : LowerState) (type : IrValueType) (size : Nat) (kind : IrValueKind)
    (paramKind : IrParamKind := .normal) : IrValue × LowerState :=
  let v : IrValue :=
    { addr := st.addr, type := type, kind := kind, paramKind := paramKind
      as := .var st.tmpVarId (size % 2 ^ 16) }
  (v,
    { st with
      tmpVarId := st.tmpVarId + 1, addr := st.addr + 1, values := st.values ++ [v] })

/-- `irFunctionNew`: nothing is kept but the counter and the addresses. -/
def irFunctionNew (st : LowerState) : LowerState where
  tmpVarId := st.tmpVarId
  addr := st.addr

/-- `irFnAddVar`, which panics when the id has a value. -/
def irFnAddVar (st : LowerState) (id : Nat) (v : IrValue) : Option LowerState :=
  if (st.vars.lookup id).isSome then none
  else some { st with vars := st.vars ++ [(id, v)] }

/-- `vecPush(func->params, v)`. -/
def pushParam (st : LowerState) (v : IrValue) : LowerState :=
  { st with params := st.params ++ [v] }

/-- `irBlockAddInstr` on the entry block. -/
def addInstr (st : LowerState) (I : IrInstr) : LowerState :=
  { st with instructions := st.instructions ++ [I] }

/-- The store of an arriving value into its slot. -/
def addStore (st : LowerState) (dst r1 : IrValue) : LowerState :=
  st.addInstr { op := .store, dst := dst, r1 := r1 }

end LowerState

open LowerState

/-- The count of a variadic parameter, which arrives and has a slot. -/
def lowerArgc (target : CliTarget) (st : LowerState) (argc : Nat) : Option LowerState := do
  let (argcArrive, st) := st.irTmp .i64 8 .param .varargsArgc
  let (argcSlot, st) := st.irTmp .i64 8 .local
  let st ← st.irFnAddVar argc argcSlot
  let st := st.pushParam argcArrive
  return if target ≠ .aarch64AppleDarwin then st.addStore argcSlot argcArrive else st

/-- The vector of a variadic parameter, a view of the stack of the caller. -/
def lowerArgv (st : LowerState) (argv : Nat) : Option LowerState := do
  let (argvIv, st) := st.irTmp .ptr 8 .param .varargsArgv
  let st ← st.irFnAddVar argv argvIv
  return st.pushParam argvIv

/-- The case `AST_VAR_ARGS`. -/
def lowerVarArgs (target : CliTarget) (st : LowerState) (argc argv : Nat) :
    Option LowerState :=
  (lowerArgc target st argc).bind fun st => lowerArgv st argv

/-- A parameter passed by value: only its slot. -/
def lowerByvalParam (st : LowerState) (key : Nat) (type : AstType) : Option LowerState := do
  let (slot, st) := st.irTmp .struct type.size .local
  let slot := { slot with byvalStructType := some type.size }
  let st ← st.irFnAddVar key slot
  return st.pushParam slot

/-- A parameter pinned to a register: the register, and the value that arrives. -/
def lowerPinnedParam (st : LowerState) (key : Nat) (irType : IrValueType) (size : Nat)
    (pinnedReg : String) : Option LowerState := do
  let (pin, st) := st.irTmp irType size .param .pinnedReg
  let pin := { pin with pinnedReg := some pinnedReg }
  let st ← st.irFnAddVar key pin
  let st := st.pushParam pin
  let (arrive, st) := st.irTmp irType size .param
  return st.addStore pin arrive

/-- Any other parameter: the value that arrives, and its slot. -/
def lowerScalarParam (st : LowerState) (key : Nat) (irType : IrValueType) (size : Nat) :
    Option LowerState := do
  let (arrive, st) := st.irTmp irType size .param
  let (slot, st) := st.irTmp irType size .local
  let st ← st.irFnAddVar key slot
  let st := st.pushParam arrive
  return st.addStore slot arrive

/-- One parameter of a type. -/
def lowerTypedParam (st : LowerState) (p : AstParam) (type : AstType) : Option LowerState := do
  let irType ← irConvertType type
  if x86_64IsByvalStruct type then lowerByvalParam st (irGetParamId p) type
  else
    match p.pinned with
    | some reg => lowerPinnedParam st (irGetParamId p) irType type.size reg
    | none => lowerScalarParam st (irGetParamId p) irType type.size

/-- The loop over the parameters, which a variadic parameter ends; `none` is a panic. -/
def lowerParams (target : CliTarget) : LowerState → List AstParam → Option LowerState
  | st, [] => some st
  | st, .varArgs argc argv :: _ => lowerVarArgs target st argc argv
  | _, .other :: _ => none
  | st, p :: ps =>
    match p.type with
    | none => none
    | some type => (lowerTypedParam st p type).bind fun st => lowerParams target st ps

/-- The return slot: for an indirect result the hidden pointer arrives and has a slot, any
other result has a buffer.  The slot or buffer is the `return_value` of the function. -/
def lowerReturn (st : LowerState) (rettype : Option AstType) :
    Option (Option IrValue × LowerState) :=
  if irRetIsIndirect rettype then
    let (outArrive, st) := st.irTmp .ptr 8 .param .hiddenSret
    let (outSlot, st) := st.irTmp .ptr 8 .local
    some (outSlot, (st.pushParam outArrive).addStore outSlot outArrive)
  else
    match rettype with
    | none => some (none, st)
    | some rt =>
      if rt.kind = .void then some (none, st)
      else do
        let irType ← irConvertType rt
        let size := irConstInt st.addr irType (BitVec.ofNat 64 rt.size)
        let (tmp, st) := { st with addr := st.addr + 1 }.irTmp irType rt.size .tmp
        return (some tmp, st.addInstr { op := .alloca, dst := tmp, r1 := size })

/-- The part of `irLowerFunction` before the body. -/
def lowerSignature (target : CliTarget) (st : LowerState) (ps : List AstParam)
    (rettype : Option AstType) : Option (Option IrValue × LowerState) :=
  (lowerParams target st.irFunctionNew ps).bind fun st => lowerReturn st rettype

end Polyc
