import Polyc.Abi.SysvCall

/-!
# AAPCS64 calls

Where `a64EmitCall` puts the arguments of a call, and where `a64EmitParamPrologue` takes the
parameters from.  An aggregate of more than 16 bytes is copied above the stack arguments and
passed by the address of the copy.  The pre-pass that sizes the two areas, the loop that
places the arguments and the prologue of the callee keep the same counters.
-/

namespace Polyc

/-- The rounding `(n + 15) & ~15`. -/
def alignTo16 (n : Nat) : Nat := (n + 15) / 16 * 16

/-- The counters `ngrn` and `nsrn` of registers, and the cursor `nsaa` into the stack
arguments. -/
structure AapcsCursor where
  ngrn : Nat
  nsrn : Nat
  nsaa : Nat
  deriving DecidableEq

/-- The caller also keeps `copy_off`, the cursor into the area of the copies. -/
structure AapcsCallCursor extends AapcsCursor where
  copyOff : Nat
  deriving DecidableEq

/-- How an argument is passed: in pieces, or by the address of its copy, which is at an offset
from the stack pointer and has a size. -/
inductive AapcsPassing where
  | direct (pieces : List ArgPiece)
  | indirect (ptr : ArgPiece) (copy size : Nat)
  deriving DecidableEq

/-! ### The caller -/

/-- One round of the pre-pass of `a64EmitCall`; the cursors count `nsaa_total` and
`indirect_bytes`. -/
def AapcsCallCursor.prepass (c : AapcsCallCursor) (a : CallArg) : AapcsCallCursor :=
  match a.byvalStructType with
  | some t =>
    match astAapcsClassify t with
    | .indirect =>
      let c := { c with copyOff := c.copyOff + alignTo16 t.size }
      if c.ngrn < 8 then { c with ngrn := c.ngrn + 1 } else { c with nsaa := c.nsaa + 8 }
    | .hfa _ count =>
      if c.nsrn + count ≤ 8 then { c with nsrn := c.nsrn + count }
      else { c with nsaa := c.nsaa + alignTo8 t.size, nsrn := 8 }
    | .integer =>
      let ngp := (t.size + 7) / 8
      if c.ngrn + ngp ≤ 8 then { c with ngrn := c.ngrn + ngp }
      else { c with nsaa := c.nsaa + alignTo8 t.size, ngrn := 8 }
  | none =>
    if irIsFloat a.type then
      if c.nsrn < 8 then { c with nsrn := c.nsrn + 1 } else { c with nsaa := c.nsaa + 8 }
    else if c.ngrn < 8 then { c with ngrn := c.ngrn + 1 }
    else { c with nsaa := c.nsaa + 8 }

/-- The members of a homogeneous floating-point aggregate, from register `nsrn` on. -/
def hfaPieces (elem count nsrn : Nat) : List ArgPiece :=
  (List.range count).map fun k => ⟨k * elem, elem, .sse (nsrn + k)⟩

/-- The chunks of an aggregate in integer registers, from register `ngrn` on. -/
def gpPieces (size ngrn : Nat) : List ArgPiece :=
  (List.range ((size + 7) / 8)).map fun k =>
    ⟨k * 8, if 8 ≤ size - k * 8 then 8 else size - k * 8, .gp (ngrn + k)⟩

/-- One round of the placing loop of `a64EmitCall`, with the copies from `copyBase` on. -/
def AapcsCallCursor.place (c : AapcsCallCursor) (copyBase : Nat) (a : CallArg) :
    AapcsPassing × AapcsCallCursor :=
  match a.byvalStructType with
  | some t =>
    match astAapcsClassify t with
    | .indirect =>
      let dst := copyBase + c.copyOff
      let copied := c.copyOff + alignTo16 t.size
      if c.ngrn < 8 then
        (.indirect ⟨0, 8, .gp c.ngrn⟩ dst t.size,
          { c with ngrn := c.ngrn + 1, copyOff := copied })
      else
        (.indirect ⟨0, 8, .stack c.nsaa⟩ dst t.size,
          { c with nsaa := c.nsaa + 8, copyOff := copied })
    | .hfa elem count =>
      if c.nsrn + count ≤ 8 then
        (.direct (hfaPieces elem count c.nsrn), { c with nsrn := c.nsrn + count })
      else
        (.direct [⟨0, t.size, .stack c.nsaa⟩],
          { c with nsaa := c.nsaa + alignTo8 t.size, nsrn := 8 })
    | .integer =>
      let ngp := (t.size + 7) / 8
      if c.ngrn + ngp ≤ 8 then
        (.direct (gpPieces t.size c.ngrn), { c with ngrn := c.ngrn + ngp })
      else
        (.direct [⟨0, t.size, .stack c.nsaa⟩],
          { c with nsaa := c.nsaa + alignTo8 t.size, ngrn := 8 })
  | none =>
    if irIsFloat a.type then
      if c.nsrn < 8 then
        (.direct [⟨0, a.byteSize, .sse c.nsrn⟩], { c with nsrn := c.nsrn + 1 })
      else
        (.direct [⟨0, if a.byteSize = 4 then 4 else 8, .stack c.nsaa⟩],
          { c with nsaa := c.nsaa + 8 })
    else if c.ngrn < 8 then
      (.direct [⟨0, 8, .gp c.ngrn⟩], { c with ngrn := c.ngrn + 1 })
    else (.direct [⟨0, 8, .stack c.nsaa⟩], { c with nsaa := c.nsaa + 8 })

/-- The placing loop: how each argument is passed, and the counters at the end. -/
def aapcsPlaceArgs (copyBase : Nat) :
    AapcsCallCursor → List CallArg → List AapcsPassing × AapcsCallCursor
  | c, [] => ([], c)
  | c, a :: args =>
    let r := c.place copyBase a
    let rest := aapcsPlaceArgs copyBase r.2 args
    (r.1 :: rest.1, rest.2)

/-- What `a64EmitCall` emits around a call. -/
structure AapcsCall where
  /-- The size of the stack-argument area, from the pre-pass. -/
  nsaaTotal : Nat
  /-- The size of the area of the copies, from the pre-pass. -/
  indirectBytes : Nat
  /-- Where the address of the buffer of an aggregate result is saved across the call. -/
  destSaveOff : Nat
  /-- The bytes by which the stack pointer moves. -/
  total : Nat
  /-- Whether the address of that buffer is in `x8`. -/
  inX8 : Bool
  /-- How the arguments are passed, in order. -/
  passed : List AapcsPassing
  /-- The counters at the end of the placing loop. -/
  cursor : AapcsCallCursor

/-- `a64EmitCall`, for a call whose result has the type `retSt` if it is an aggregate.  The
buffer of the result is `args[0]` but no argument. -/
def a64EmitCall (retSt : Option AstType) (args : List CallArg) : AapcsCall :=
  let indRet := retSt.any fun t => 16 < t.size
  let passed := args.drop (if retSt.isSome then 1 else 0)
  let pre := passed.foldl AapcsCallCursor.prepass ⟨⟨0, 0, 0⟩, 0⟩
  let r := aapcsPlaceArgs pre.nsaa ⟨⟨0, 0, 0⟩, 0⟩ passed
  { nsaaTotal := pre.nsaa
    indirectBytes := pre.copyOff
    destSaveOff := pre.nsaa + pre.copyOff
    total := alignTo16 (pre.nsaa + pre.copyOff + if retSt.isSome then 16 else 0)
    inX8 := indRet
    passed := r.1
    cursor := r.2 }

/-- The call that `irFnCallTo` makes, as it is emitted. -/
def aapcsCall (rettype : Option AstType) (args : List CallArg) : AapcsCall :=
  a64EmitCall (if irRetTypeIsAggregate rettype then rettype else none)
    (irFnCallToArgs rettype args)

/-! ### Calls with scalar arguments only -/

/-- What `IR_CALL` reads of a callee that the compiler knows. -/
structure IrCallee where
  hasVarArgs : Bool
  isExternFunc : Bool
  paramsSize : Nat

/-- `named_count`: the parameters of the callee without the `...` of a variadic one. -/
def IrCallee.namedCount (callee : IrCallee) : Nat :=
  if callee.hasVarArgs then callee.paramsSize - 1 else callee.paramsSize

/-- `force_va_stack`: a variadic function of HolyC takes its extra arguments from the stack,
and so does one of C for `TARGET_AARCH64_APPLE_DARWIN`. -/
def IrCallee.forceVaStack (callee : IrCallee) (target : CliTarget) : Bool :=
  callee.hasVarArgs && (!callee.isExternFunc || target = .aarch64AppleDarwin)

/-- The number from which on arguments are forced onto the stack; `none` when none are, as for
an indirect call. -/
def forcedFrom (target : CliTarget) (callee : Option IrCallee) : Option Nat :=
  callee.bind fun callee =>
    if callee.forceVaStack target then some callee.namedCount else none

/-- `aarch64PartitionCallArgs`: which arguments are on the stack. -/
def aarch64PartitionCallArgs (forced : Option Nat) : Nat → Nat → Nat → List CallArg → List Bool
  | _, _, _, [] => []
  | i, intUsed, floatUsed, a :: args =>
    if forced.any (· ≤ i) then
      true :: aarch64PartitionCallArgs forced (i + 1) intUsed floatUsed args
    else if irIsFloat a.type then
      if floatUsed < 8 then
        false :: aarch64PartitionCallArgs forced (i + 1) intUsed (floatUsed + 1) args
      else true :: aarch64PartitionCallArgs forced (i + 1) intUsed floatUsed args
    else if intUsed < 8 then
      false :: aarch64PartitionCallArgs forced (i + 1) (intUsed + 1) floatUsed args
    else true :: aarch64PartitionCallArgs forced (i + 1) intUsed floatUsed args

/-- The loop over the arguments on the stack, which are stored in order. -/
def scalarStackArgs : Nat → List (Bool × CallArg) → List (Option ArgPiece)
  | _, [] => []
  | stackIdx, (isStack, a) :: args =>
    if isStack then
      some ⟨0, if irIsFloat a.type then (if a.byteSize = 4 then 4 else 8) else 8,
          .stack (stackIdx * 8)⟩ :: scalarStackArgs (stackIdx + 1) args
    else none :: scalarStackArgs stackIdx args

/-- The loop over the arguments in registers, by their numbers in the pool. -/
def scalarRegArgs : Nat → Nat → List (Bool × CallArg) → List (Option ArgPiece)
  | _, _, [] => []
  | intIdx, floatIdx, (isStack, a) :: args =>
    if isStack then none :: scalarRegArgs intIdx floatIdx args
    else if irIsFloat a.type then
      some ⟨0, a.byteSize, .sse floatIdx⟩ :: scalarRegArgs intIdx (floatIdx + 1) args
    else some ⟨0, 8, .gp intIdx⟩ :: scalarRegArgs (intIdx + 1) floatIdx args

/-- The path of `IR_CALL` for a call without aggregates: the pieces of each argument, from the
two loops, and the bytes by which the stack pointer moves. -/
def aarch64ScalarCall (target : CliTarget) (callee : Option IrCallee) (args : List CallArg) :
    List (List ArgPiece) × Nat :=
  let isStack := aarch64PartitionCallArgs (forcedFrom target callee) 0 0 0 args
  let marked := isStack.zip args
  let nStack := isStack.count true
  (((scalarStackArgs 0 marked).zip (scalarRegArgs 0 0 marked)).map fun p =>
      p.1.toList ++ p.2.toList,
    (nStack * 8 + 15) / 16 * 16)

/-! ### The callee -/

/-- Where the prologue takes a parameter from: its pieces, or an address and the size of what
is there. -/
inductive AapcsSource where
  | direct (pieces : List ArgPiece)
  | indirect (ptr : ArgPiece) (size : Nat)
  deriving DecidableEq

/-- Where the prologue takes a parameter from, and whether it copies it into its slot.  A
scalar in a register is left to its entry store. -/
structure AapcsArrival where
  source : AapcsSource
  copied : Bool
  deriving DecidableEq

/-- One round of the loop of `a64EmitParamPrologue`. -/
def AapcsCursor.prologue (c : AapcsCursor) (p : SysvParam) : AapcsArrival × AapcsCursor :=
  if !x86_64IsByvalStruct p.type then
    if p.type.kind = .float then
      if c.nsrn < 8 then
        (⟨.direct [⟨0, p.type.size, .sse c.nsrn⟩], false⟩, { c with nsrn := c.nsrn + 1 })
      else
        (⟨.direct [⟨0, p.type.size, .stack (16 + c.nsaa)⟩], p.hasSlot⟩,
          { c with nsaa := c.nsaa + 8 })
    else if c.ngrn < 8 then
      (⟨.direct [⟨0, p.type.size, .gp c.ngrn⟩], false⟩, { c with ngrn := c.ngrn + 1 })
    else
      (⟨.direct [⟨0, p.type.size, .stack (16 + c.nsaa)⟩], p.hasSlot⟩,
        { c with nsaa := c.nsaa + 8 })
  else
    match astAapcsClassify p.type with
    | .hfa elem count =>
      if c.nsrn + count ≤ 8 then
        (⟨.direct (hfaPieces elem count c.nsrn), p.hasSlot⟩, { c with nsrn := c.nsrn + count })
      else
        (⟨.direct [⟨0, p.type.size, .stack (16 + c.nsaa)⟩], p.hasSlot⟩,
          { c with nsaa := c.nsaa + alignTo8 p.type.size, nsrn := 8 })
    | .integer =>
      let ngp := (p.type.size + 7) / 8
      if c.ngrn + ngp ≤ 8 then
        (⟨.direct (gpPieces p.type.size c.ngrn), p.hasSlot⟩, { c with ngrn := c.ngrn + ngp })
      else
        (⟨.direct [⟨0, p.type.size, .stack (16 + c.nsaa)⟩], p.hasSlot⟩,
          { c with nsaa := c.nsaa + alignTo8 p.type.size, ngrn := 8 })
    | .indirect =>
      if 8 ≤ c.ngrn then
        (⟨.indirect ⟨0, 8, .stack (16 + c.nsaa)⟩ p.type.size, p.hasSlot⟩,
          { c with nsaa := c.nsaa + 8 })
      else
        (⟨.indirect ⟨0, 8, .gp c.ngrn⟩ p.type.size, p.hasSlot⟩, { c with ngrn := c.ngrn + 1 })

/-- The loop of `a64EmitParamPrologue` over parameters that are not variadic. -/
def aapcsPrologueParams : AapcsCursor → List SysvParam → List AapcsArrival
  | _, [] => []
  | c, p :: ps =>
    let r := c.prologue p
    r.1 :: aapcsPrologueParams r.2 ps

/-- `a64EmitParamPrologue`: the hidden pointer of an indirect result takes no argument
register. -/
def a64EmitParamPrologue (params : List SysvParam) : List AapcsArrival :=
  aapcsPrologueParams ⟨0, 0, 0⟩ params

/-! ### Results in registers -/

/-- The leaf `a64TxtRetChunkStore`: the bytes that a chunk of an integer register stores;
`none` where it panics. -/
def a64TxtRetChunkStore (size : Nat) : Option Nat :=
  if 8 ≤ size then some 8
  else if size = 4 then some 4
  else if size = 2 then some 2
  else if size = 1 then some 1
  else none

/-- The stores of `a64EmitCall` of an aggregate of at most 16 bytes into its buffer. -/
def a64RetStores (t : AstType) : Option (List ArgPiece) :=
  match astAapcsClassify t with
  | .hfa elem count =>
    some ((List.range count).map fun k => ⟨k * elem, if elem = 4 then 4 else 8, .sse k⟩)
  | _ =>
    (List.range ((t.size + 7) / 8)).mapM fun k =>
      (a64TxtRetChunkStore (t.size - k * 8)).map fun width => ⟨k * 8, width, .gp k⟩

/-- The loads of `IR_RET` of such an aggregate from the return slot. -/
def aarch64RetLoads (t : AstType) : List ArgPiece :=
  match astAapcsClassify t with
  | .hfa elem count =>
    (List.range count).map fun k => ⟨k * elem, if elem = 4 then 4 else 8, .sse k⟩
  | _ =>
    (List.range ((t.size + 7) / 8)).map fun k =>
      let rem := t.size - k * 8
      ⟨k * 8, if 8 ≤ rem then 8 else if rem = 4 then 4 else if rem = 2 then 2 else 1, .gp k⟩

end Polyc
