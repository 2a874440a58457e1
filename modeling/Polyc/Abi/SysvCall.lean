import Polyc.Abi.Classify
import Polyc.Lib.Allocator

/-!
# System V calls

Where `x86_64EmitSysvCall` puts the arguments of a call and where
`x86_64EmitSysvParamPrologue` takes the parameters from.  An emitted move is a piece: some
bytes of an argument and the register or stack offset that holds them.  Three walks over the
arguments keep the same counters of registers and stack bytes: the pre-pass that sizes the
stack area, the loop that places the arguments, and the prologue of the callee.
-/

namespace Polyc

/-! ### Arguments and places -/

/-- What the call sequence reads of the value of an argument. -/
structure CallArg where
  type : IrValueType
  byteSize : Nat
  byvalStructType : Option AstType := none

/-- Where bytes of an argument are: in an integer register, in a floating-point register, or
at an offset into a stack area. -/
inductive ArgPlace where
  | gp (reg : Nat)
  | sse (reg : Nat)
  | stack (off : Nat)
  deriving DecidableEq

/-- The `width` bytes of an argument from `off` on, and their place. -/
structure ArgPiece where
  off : Nat
  width : Nat
  place : ArgPlace
  deriving DecidableEq

/-- The integer argument registers, in order. -/
def kSysvGpArg : List String := ["rdi", "rsi", "rdx", "rcx", "r8", "r9"]

/-- The name of a floating-point register. -/
def xmmName (reg : Nat) : String := "xmm" ++ toString reg

/-- The location of an argument that is in one register; `none` for one on the stack. -/
def argLocation : List ArgPiece → IrLocation
  | [⟨_, _, .gp reg⟩] => .reg kSysvGpArg[reg]?
  | [⟨_, _, .sse reg⟩] => .reg (some (xmmName reg))
  | _ => .none

/-- The counters `ngp` and `nsse` of registers and the cursor into the stack area. -/
structure SysvCursor where
  ngp : Nat
  nsse : Nat
  off : Nat
  deriving DecidableEq

/-- The record `X86SysvAgg`. -/
structure X86SysvAgg where
  cls : List SysvClass
  gp : Nat
  sse : Nat
  memory : Bool
  deriving DecidableEq

/-- `x86_64ClassifyAgg`. -/
def x86_64ClassifyAgg (t : AstType) : X86SysvAgg :=
  match astSysvClassify t with
  | none => { cls := [], gp := 0, sse := 0, memory := true }
  | some cls =>
    { cls := cls, gp := cls.countP (· = .integer), sse := cls.countP (· ≠ .integer),
      memory := false }

/-- `x86_64AggInRegs`. -/
def x86_64AggInRegs (a : X86SysvAgg) (ngp nsse : Nat) : Bool :=
  !a.memory && ngp + a.gp ≤ 6 && nsse + a.sse ≤ 8

/-! ### The caller -/

/-- One round of the pre-pass of `x86_64EmitSysvCall`; the cursor counts `nsaa_total`. -/
def SysvCursor.prepass (c : SysvCursor) (a : CallArg) : SysvCursor :=
  match a.byvalStructType with
  | some t =>
    let ag := x86_64ClassifyAgg t
    if x86_64AggInRegs ag c.ngp c.nsse then
      { c with ngp := c.ngp + ag.gp, nsse := c.nsse + ag.sse }
    else { c with off := c.off + alignTo8 t.size }
  | none =>
    if irIsFloat a.type then
      if c.nsse < 8 then { c with nsse := c.nsse + 1 } else { c with off := c.off + 8 }
    else if c.ngp < 6 then { c with ngp := c.ngp + 1 }
    else { c with off := c.off + 8 }

/-- The words of an aggregate on the stack, from `base` on. -/
def stackWords (size base : Nat) : List ArgPiece :=
  (List.range ((size + 7) / 8)).map fun k => ⟨k * 8, min (size - k * 8) 8, .stack (base + k * 8)⟩

/-- The eightbytes of an aggregate in registers, from the one numbered `e` on. -/
def eightbytes (size : Nat) :
    List SysvClass → Nat → SysvCursor → List ArgPiece × SysvCursor
  | [], _, c => ([], c)
  | cls :: rest, e, c =>
    if cls = .sse then
      let r := eightbytes size rest (e + 1) { c with nsse := c.nsse + 1 }
      (⟨e * 8, min (size - e * 8) 8, .sse c.nsse⟩ :: r.1, r.2)
    else
      let r := eightbytes size rest (e + 1) { c with ngp := c.ngp + 1 }
      (⟨e * 8, min (size - e * 8) 8, .gp c.ngp⟩ :: r.1, r.2)

/-- One round of the placing loop of `x86_64EmitSysvCall`. -/
def SysvCursor.place (c : SysvCursor) (a : CallArg) : List ArgPiece × SysvCursor :=
  match a.byvalStructType with
  | some t =>
    let ag := x86_64ClassifyAgg t
    if !x86_64AggInRegs ag c.ngp c.nsse then
      (stackWords t.size c.off, { c with off := c.off + alignTo8 t.size })
    else eightbytes t.size ag.cls 0 c
  | none =>
    if irIsFloat a.type then
      if c.nsse < 8 then ([⟨0, a.byteSize, .sse c.nsse⟩], { c with nsse := c.nsse + 1 })
      else
        ([⟨0, if a.byteSize = 4 then 4 else 8, .stack c.off⟩], { c with off := c.off + 8 })
    else if c.ngp < 6 then ([⟨0, 8, .gp c.ngp⟩], { c with ngp := c.ngp + 1 })
    else ([⟨0, 8, .stack c.off⟩], { c with off := c.off + 8 })

/-- The placing loop: the pieces of each argument, and the counters at the end. -/
def placeArgs : SysvCursor → List CallArg → List (List ArgPiece) × SysvCursor
  | c, [] => ([], c)
  | c, a :: args =>
    let r := c.place a
    let rest := placeArgs r.2 args
    (r.1 :: rest.1, rest.2)

/-- What `x86_64EmitSysvCall` emits around a call. -/
structure SysvCall where
  /-- The size of the stack-argument area, from the pre-pass. -/
  nsaaTotal : Nat
  /-- The bytes by which the stack pointer moves. -/
  stackBytes : Nat
  /-- The pieces of the arguments that are passed, in order. -/
  pieces : List (List ArgPiece)
  /-- The bytes of the stack area that the placing loop used. -/
  stackOff : Nat

/-- `x86_64EmitSysvCall`, for a call whose result has the type `retSt` if it is an
aggregate.  The buffer of a result in registers is `args[0]` but no argument. -/
def x86_64EmitSysvCall (retSt : Option AstType) (args : List CallArg) : SysvCall :=
  let regRet := retSt.any fun t => t.size ≤ 16
  let passed := args.drop (if regRet then 1 else 0)
  let nsaaTotal := (passed.foldl SysvCursor.prepass ⟨0, 0, 0⟩).off
  let r := placeArgs ⟨0, 0, 0⟩ passed
  { nsaaTotal := nsaaTotal
    stackBytes := (nsaaTotal + (if regRet then 16 else 0) + 15) / 16 * 16
    pieces := r.1
    stackOff := r.2.off }

/-- The vector of arguments that `irFnCallTo` builds: the address of the result buffer comes
first when an aggregate is returned. -/
def irFnCallToArgs (rettype : Option AstType) (args : List CallArg) : List CallArg :=
  if irRetTypeIsAggregate rettype then { type := .ptr, byteSize := 8 } :: args else args

/-- The call that `irFnCallTo` makes, as it is emitted. -/
def sysvCall (rettype : Option AstType) (args : List CallArg) : SysvCall :=
  x86_64EmitSysvCall (if irRetTypeIsAggregate rettype then rettype else none)
    (irFnCallToArgs rettype args)

/-- The value that `irFnCallTo` passes for an argument of a type: an aggregate by its
address, tagged with its type, a float with its size, and anything else as an integer or a
pointer, which need not have the type of the parameter. -/
def PassedAs (t : AstType) (a : CallArg) : Prop :=
  if x86_64IsByvalStruct t then a.byvalStructType = some t
  else a.byvalStructType = none ∧ irIsFloat a.type = decide (t.kind = .float)
    ∧ (t.kind = .float → a.byteSize = t.size)

/-! ### The callee -/

/-- A parameter, and whether it is used and so has a slot in the frame. -/
structure SysvParam where
  type : AstType
  hasSlot : Bool

/-- Where the prologue takes a parameter to be, and the pieces that it copies from there into
the slot of the parameter.  A scalar in a register is left to its entry store. -/
structure ParamArrival where
  pieces : List ArgPiece
  copied : List ArgPiece
  deriving DecidableEq

/-- The copies of a parameter, which only a parameter with a slot gets. -/
def SysvParam.arrival (p : SysvParam) (pieces : List ArgPiece) : ParamArrival :=
  ⟨pieces, if p.hasSlot then pieces else []⟩

/-- One round of the loop of `x86_64EmitSysvParamPrologue`. -/
def SysvCursor.prologue (c : SysvCursor) (p : SysvParam) : ParamArrival × SysvCursor :=
  if !x86_64IsByvalStruct p.type then
    if p.type.kind = .float then
      if c.nsse < 8 then (⟨[⟨0, p.type.size, .sse c.nsse⟩], []⟩, { c with nsse := c.nsse + 1 })
      else (p.arrival [⟨0, p.type.size, .stack (16 + c.off)⟩], { c with off := c.off + 8 })
    else if c.ngp < 6 then (⟨[⟨0, p.type.size, .gp c.ngp⟩], []⟩, { c with ngp := c.ngp + 1 })
    else (p.arrival [⟨0, p.type.size, .stack (16 + c.off)⟩], { c with off := c.off + 8 })
  else
    let ag := x86_64ClassifyAgg p.type
    if !x86_64AggInRegs ag c.ngp c.nsse then
      (p.arrival (stackWords p.type.size (16 + c.off)), { c with off := c.off + alignTo8 p.type.size })
    else
      let r := eightbytes p.type.size ag.cls 0 c
      (p.arrival r.1, r.2)

/-- The loop of `x86_64EmitSysvParamPrologue` over parameters that are not variadic. -/
def prologueParams : SysvCursor → List SysvParam → List ParamArrival
  | _, [] => []
  | c, p :: ps =>
    let r := c.prologue p
    r.1 :: prologueParams r.2 ps

/-- `x86_64EmitSysvParamPrologue`: an indirect result takes the first integer register. -/
def x86_64EmitSysvParamPrologue (rettype : Option AstType) (params : List SysvParam) :
    List ParamArrival :=
  let hidden := rettype.any fun rt => x86_64IsByvalStruct rt && 16 < rt.size
  prologueParams ⟨if hidden then 1 else 0, 0, 0⟩ params

end Polyc
