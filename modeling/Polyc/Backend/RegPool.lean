import Polyc.Ir.Types

/-!
# Register pools

The descriptor `IrRegPool` that a back end installs, and the pools of the two native back
ends.  The compilers' pools carry a clobber hook, the pools of the JITs and of the IR dump
carry none, and `irRegPoolGet` may answer `NULL`; the passes take an `Option IrRegPool`.
-/

namespace Polyc

/-- The points `IrClobberPoint` of an instruction's emission. -/
inductive IrClobberPoint where
  | after | beforeR1 | beforeR2
  deriving DecidableEq

/-- Whether a value is already in a named register. -/
def inReg : Option IrValue → Bool
  | some v =>
    match v.loc with
    | .reg (some _) => true
    | _ => false
  | none => false

/-- Whether the destination is pinned to a register. -/
def dstPinned : Option IrValue → Bool
  | some d => d.pinnedReg.isSome
  | none => false

/-! ### The clobber hooks -/

/-- `x86_64OpClobbers`. -/
def x86_64OpClobbers (I : IrInstr) (reg : String) (at_ : IrClobberPoint) : Bool :=
  let isScratch0 := reg = "rax" ∨ reg = "xmm0"
  let isDivrem := I.op = .idiv ∨ I.op = .udiv ∨ I.op = .irem ∨ I.op = .urem
  match at_ with
  | .beforeR1 => I.op = .storeDeref ∨ I.op = .rmwDeref
  | .beforeR2 => I.op = .storeDeref ∨ I.op = .rmwDeref ∨ isDivrem ∨ isScratch0
  | .after =>
    if I.op = .store then
      if dstPinned I.dst then true
      else if inReg I.r1 then false
      else isScratch0
    else true

/-- `aarch64OpClobbers`. -/
def aarch64OpClobbers (I : IrInstr) (reg : String) (at_ : IrClobberPoint) : Bool :=
  let isScratch0 := reg = "x0" ∨ reg = "d0"
  match at_ with
  | .beforeR1 => I.op = .storeDeref ∨ I.op = .rmwDeref
  | .beforeR2 => I.op = .storeDeref ∨ I.op = .rmwDeref ∨ isScratch0
  | .after =>
    if I.op = .store then
      if dstPinned I.dst then true
      else if inReg I.r1 then false
      else isScratch0
    else true

/-- The functions that back ends install as `op_clobbers`. -/
inductive OpClobbers where
  | x86_64 | aarch64
  deriving DecidableEq

/-- Calling the hook. -/
def OpClobbers.call : OpClobbers → IrInstr → String → IrClobberPoint → Bool
  | .x86_64 => x86_64OpClobbers
  | .aarch64 => aarch64OpClobbers

/-! ### The pools -/

/-- The descriptor `IrRegPool`. -/
structure IrRegPool where
  intArgRegs : List String
  floatArgRegs : List String
  intReturnReg : String
  sretReg : Option String
  floatReturnReg : String
  scratchRegs : Option (List String)
  opClobbers : Option OpClobbers
  variadicOnStack : Bool := false
  deriving DecidableEq

/-- The pool that `x86_64InitRegPool` installs. -/
def x86_64Pool : IrRegPool where
  intArgRegs := ["rdi", "rsi", "rdx", "rcx", "r8", "r9"]
  floatArgRegs := ["xmm0", "xmm1", "xmm2", "xmm3", "xmm4", "xmm5", "xmm6", "xmm7"]
  intReturnReg := "rax"
  sretReg := none
  floatReturnReg := "xmm0"
  scratchRegs := some ["rax", "rcx", "rdx", "xmm0", "xmm1"]
  opClobbers := some .x86_64

/-- The pool that `aarch64InitRegPool` installs. -/
def aarch64Pool : IrRegPool where
  intArgRegs := ["x0", "x1", "x2", "x3", "x4", "x5", "x6", "x7"]
  floatArgRegs := ["d0", "d1", "d2", "d3", "d4", "d5", "d6", "d7"]
  intReturnReg := "x0"
  sretReg := some "x8"
  floatReturnReg := "d0"
  scratchRegs := some ["x0", "x1", "x2", "d0", "d1"]
  opClobbers := some .aarch64
  variadicOnStack := true

/-! ### Scratch registers -/

/-- `irLocIsScratchClobbered`: the value sits in a register that some instruction may
overwrite. -/
def irLocIsScratchClobbered (pool : Option IrRegPool) (v : IrValue) : Bool :=
  match v.loc, pool with
  | .reg (some r), some pool =>
    match pool.scratchRegs with
    | some regs => regs.contains r
    | none => false
  | _, _ => false

/-- The register name of a location. -/
def IrLocation.regName : IrLocation → String
  | .reg (some r) => r
  | _ => ""

/-- `irLocClobberedBy`: emitting `I` overwrites the register of `v` by the given point. -/
def irLocClobberedBy (pool : Option IrRegPool) (I : IrInstr) (v : IrValue)
    (at_ : IrClobberPoint) : Bool :=
  if irLocIsScratchClobbered pool v then
    match pool.bind (·.opClobbers) with
    | some opClobbers => opClobbers.call I v.loc.regName at_
    | none => true
  else false

/-- A store reads its operand before it overwrites any register. -/
theorem OpClobbers.call_store
    (hook : OpClobbers) {I : IrInstr} (hI : I.op = .store) (reg : String) :
  hook.call I reg .beforeR1 = false
  := by
  cases hook with
  | x86_64 => simp [call, x86_64OpClobbers, hI]
  | aarch64 => simp [call, aarch64OpClobbers, hI]

/-- A source that is lost before a store reads its operand is lost after the store. -/
theorem irLocClobberedBy_after
    {pool : Option IrRegPool} {I : IrInstr} (hI : I.op = .store) {v : IrValue}
    (hv : irLocClobberedBy pool I v .beforeR1) :
  irLocClobberedBy pool I v .after
  := by
  simp only [irLocClobberedBy] at hv ⊢
  split at hv
  · rename_i hs
    rw [if_pos hs]
    cases hp : pool.bind (·.opClobbers) with
    | none => rfl
    | some hook =>
      rw [hp] at hv
      dsimp only at hv
      rw [hook.call_store hI] at hv
      cases hv
  · cases hv

end Polyc
