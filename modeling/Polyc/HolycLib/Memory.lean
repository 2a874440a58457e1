import Mathlib.Algebra.Group.Nat.Defs
import Mathlib.Data.List.Basic
import Polyc.Lib.Heap
import Polyc.Lib.Refinement

/-!
# Heap primitives

The routines of `memory.HC` for x86-64 and for AArch64 over the heap of the system allocator, and
the blocks that they stand for.  A routine is given the registers that it reads; addresses are taken
modulo 2^64, and an access outside the blocks that are allocated has no result.  What the system
allocator answers comes with each call.
-/

namespace Polyc

open Bytes (Byte)

/-- The addresses of 64 bits. -/
def addressSpace : Nat := 2 ^ 64

/-! ### x86-64 -/

namespace X86

/-- `_MALLOC`. -/
def malloc (h : Heap) (answer : Heap.Answer) (rdi : Nat) : Option (Heap × Nat) := do
  let size := rdi
  let rdi := (rdi + 8) % addressSpace
  let h := h.malloc rdi answer
  let rax := answer.base
  let h ← h.store rax (Bytes.layout 8 (BitVec.ofNat 64 size))
  return (h, (rax + 8) % addressSpace)

/-- `REP STOSB`. -/
def repStosb (al : Byte) : Nat → Heap → Nat → Option Heap
  | 0, h, _ => some h
  | rcx + 1, h, rdi => do
    let h ← h.store rdi [al]
    repStosb al rcx h ((rdi + 1) % addressSpace)

/-- `REP MOVSB`. -/
def repMovsb : Nat → Heap → Nat → Nat → Option Heap
  | 0, h, _, _ => some h
  | rcx + 1, h, rdi, rsi => do
    let h ← h.store rdi [← h.load rsi 1]
    repMovsb rcx h ((rdi + 1) % addressSpace) ((rsi + 1) % addressSpace)

/-- `_MEMSET`, which leaves its result in `RAX`. -/
def memset (h : Heap) (rax rdi : Nat) (rsi : BitVec 32) (rdx : Nat) : Option (Heap × Nat) := do
  let rcx := rdx
  let al := rsi.setWidth 8
  let rax := rax / 256 * 256 + al.toNat
  let h ← repStosb al rcx h rdi
  return (h, rax)

/-- `_MEMCPY`. -/
def memcpy (h : Heap) (rdi rsi rdx : Nat) : Option Heap := repMovsb rdx h rdi rsi

/-- `_CALLOC`. -/
def calloc (h : Heap) (answer : Heap.Answer) (rdi : Nat) : Option (Heap × Nat) := do
  let new ← malloc h answer rdi
  let set ← memset new.1 new.2 new.2 0 rdi
  return (set.1, new.2)

/-- `_MSIZE`. -/
def msize (h : Heap) (rdi : Nat) : Option Nat :=
  if rdi = 0 then some 0 else (h.load (rdi - 8) 8).map BitVec.toNat

/-- `_FREE`. -/
def free (h : Heap) (rdi : Nat) : Option Heap := if rdi = 0 then some h else h.free (rdi - 8)

/-- `_REALLOC`. -/
def realloc (h : Heap) (answer : Heap.Answer) (rdi rsi : Nat) : Option (Heap × Nat) :=
  if rdi = 0 then malloc h answer rsi
  else do
    let new ← malloc h answer rsi
    let rdx ← msize new.1 rdi
    let h ← memcpy new.1 new.2 rdi rdx
    let h ← free h rdi
    return (h, new.2)

end X86

/-! ### AArch64 -/

namespace AArch64

/-- `_MALLOC`. -/
def malloc (h : Heap) (answer : Heap.Answer) (x0 : Nat) : Option (Heap × Nat) := do
  let size := x0
  let x0 := (x0 + 8) % addressSpace
  let h := h.malloc x0 answer
  let x1 := size
  let h ← h.store answer.base (Bytes.layout 8 (BitVec.ofNat 64 x1))
  return (h, (answer.base + 8) % addressSpace)

/-- `_FREE`. -/
def free (h : Heap) (x0 : Nat) : Option Heap := if x0 = 0 then some h else h.free (x0 - 8)

/-- `_MSIZE`. -/
def msize (h : Heap) (x0 : Nat) : Option Nat :=
  if x0 = 0 then some 0 else (h.load (x0 - 8) 8).map BitVec.toNat

/-- The loop of `_MEMSET`, with a bound on its turns. -/
def memsetLoop (w1 : Byte) (x2 : Nat) : Nat → Heap → Nat → Option Heap
  | 0, _, _ => none
  | n + 1, h, x0 => do
    let h ← h.store x0 [w1]
    let x0 := (x0 + 1) % addressSpace
    if x2 = x0 then return h else memsetLoop w1 x2 n h x0

/-- `_MEMSET`: a register of 64 bits has no more values than the loop has turns. -/
def memset (h : Heap) (x3 x0 : Nat) (w1 : BitVec 32) (x2 : Nat) : Option (Heap × Nat) :=
  if x2 = 0 then some (h, x3)
  else do
    let x3 := x0
    let x2 := (x0 + x2) % addressSpace
    let h ← memsetLoop (w1.setWidth 8) x2 addressSpace h x0
    return (h, x3)

/-- The loop of `_MEMCPY`, with a bound on its turns. -/
def memcpyLoop (x2 : Nat) : Nat → Heap → Nat → Nat → Option Heap
  | 0, _, _, _ => none
  | n + 1, h, x0, x1 => do
    let w3 ← h.load x1 1
    let x1 := (x1 + 1) % addressSpace
    let h ← h.store x0 [w3]
    let x0 := (x0 + 1) % addressSpace
    if x2 = x0 then return h else memcpyLoop x2 n h x0 x1

/-- `_MEMCPY`. -/
def memcpy (h : Heap) (x0 x1 x2 : Nat) : Option Heap :=
  if x2 = 0 then some h else memcpyLoop ((x0 + x2) % addressSpace) addressSpace h x0 x1

/-- `_CALLOC`, with what `malloc` leaves in `X3`. -/
def calloc (h : Heap) (answer : Heap.Answer) (x3 x0 : Nat) : Option (Heap × Nat) := do
  let size := x0
  let new ← malloc h answer x0
  if new.2 = 0 then return new else memset new.1 x3 new.2 0 size

/-- `_REALLOC`. -/
def realloc (h : Heap) (answer : Heap.Answer) (x0 x1 : Nat) : Option (Heap × Nat) :=
  if x0 = 0 then malloc h answer x1
  else do
    let new ← malloc h answer x1
    let old ← msize new.1 x0
    let x3 := x1
    let x2 := if old ≤ x3 then old else x3
    let h ← memcpy new.1 new.2 x0 x2
    let h ← free h x0
    return (h, new.2)

end AArch64

/-! ### Calls -/

/-- A call on pointers that are held by variables, of which `none` is `NULL`. -/
inductive HeapOp where
  | mAlloc (x : Nat) (size : BitVec 64)
  | cAlloc (x : Nat) (size : BitVec 64)
  | reAlloc (ptr : Option Nat) (x : Nat) (size : BitVec 64)
  | free (ptr : Option Nat)
  | mSize (ptr : Option Nat)
  | memSet (x off : Nat) (ch : BitVec 32) (len : Nat)
  | memCpy (x off y off' len : Nat)

/-- What a target finds in a call: what its allocator answers, and what the register holds that
`_MEMSET` gives back in part on x86-64 and of no bytes on AArch64, which `_CALLOC` finds after the
allocator's answer. -/
structure TargetEnv where
  answer : Heap.Answer
  register : Nat

/-- A call, with what each target finds in it. -/
structure HeapCall where
  op : HeapOp
  x86 : TargetEnv
  arm : TargetEnv

/-- What a call answers: nothing, a size, or a pointer beside the pointer that it was given. -/
inductive HeapAnswer where
  | none
  | size (n : Nat)
  | pointer (returned given : Nat)

/-- A heap, and the pointers that variables hold. -/
structure HeapState where
  heap : Heap
  vars : Nat → Nat

namespace HeapState

/-- The pointer of an argument. -/
def ptr (s : HeapState) (ptr : Option Nat) : Nat := ptr.elim 0 s.vars

/-- The state after a variable is given a pointer. -/
def assign (s : HeapState) (x : Nat) (r : Heap × Nat) : HeapState :=
  ⟨r.1, Function.update s.vars x r.2⟩

end HeapState

/-- The routines of a target, and what it finds in a call. -/
structure HeapTarget where
  env : HeapCall → TargetEnv
  malloc : Heap → TargetEnv → Nat → Option (Heap × Nat)
  calloc : Heap → TargetEnv → Nat → Option (Heap × Nat)
  realloc : Heap → TargetEnv → Nat → Nat → Option (Heap × Nat)
  free : Heap → Nat → Option Heap
  msize : Heap → Nat → Option Nat
  memset : Heap → TargetEnv → Nat → BitVec 32 → Nat → Option (Heap × Nat)
  memcpy : Heap → Nat → Nat → Nat → Option Heap

/-- The routines for x86-64. -/
def X86.target : HeapTarget where
  env c := c.x86
  malloc h e size := X86.malloc h e.answer size
  calloc h e size := X86.calloc h e.answer size
  realloc h e ptr size := X86.realloc h e.answer ptr size
  free := X86.free
  msize := X86.msize
  memset h e dst ch len := X86.memset h e.register dst ch len
  memcpy := X86.memcpy

/-- The routines for AArch64. -/
def AArch64.target : HeapTarget where
  env c := c.arm
  malloc h e size := AArch64.malloc h e.answer size
  calloc h e size := AArch64.calloc h e.answer e.register size
  realloc h e ptr size := AArch64.realloc h e.answer ptr size
  free := AArch64.free
  msize := AArch64.msize
  memset h e dst ch len := AArch64.memset h e.register dst ch len
  memcpy := AArch64.memcpy

/-- A call on a target. -/
def HeapTarget.step (t : HeapTarget) (s : HeapState) (c : HeapCall) :
    Option (HeapState × HeapAnswer) :=
  match c.op with
  | .mAlloc x size => do
    let r ← t.malloc s.heap (t.env c) size.toNat
    return (s.assign x r, .none)
  | .cAlloc x size => do
    let r ← t.calloc s.heap (t.env c) size.toNat
    return (s.assign x r, .none)
  | .reAlloc ptr x size => do
    let r ← t.realloc s.heap (t.env c) (s.ptr ptr) size.toNat
    return (s.assign x r, .none)
  | .free ptr => do
    let h ← t.free s.heap (s.ptr ptr)
    return (⟨h, s.vars⟩, .none)
  | .mSize ptr => do
    let n ← t.msize s.heap (s.ptr ptr)
    return (s, .size n)
  | .memSet x off ch len => do
    let r ← t.memset s.heap (t.env c) (s.vars x + off) ch len
    return (⟨r.1, s.vars⟩, .pointer r.2 (s.vars x + off))
  | .memCpy x off y off' len => do
    let h ← t.memcpy s.heap (s.vars x + off) (s.vars y + off') len
    return (⟨h, s.vars⟩, .none)

/-! ### The observable heap -/

/-- The blocks that variables hold, byte by byte as far as the bytes are determined. -/
abbrev BlockMap (ι : Type) := ι → Option (List (Option Byte))

namespace BlockMap

variable {ι : Type} [DecidableEq ι]

/-- The block that a variable holds. -/
def get (A : BlockMap ι) (x : ι) : List (Option Byte) := (A x).getD []

/-- The blocks with that of a variable replaced. -/
def put (A : BlockMap ι) (x : ι) (bs : List (Option Byte)) : BlockMap ι :=
  Function.update A x (some bs)

/-- The blocks without that of a variable. -/
def drop (A : BlockMap ι) (x : ι) : BlockMap ι := Function.update A x none

/-- Bytes copied one by one. -/
def copy (A : BlockMap ι) (x : ι) (i : Nat) (y : ι) (j : Nat) : Nat → BlockMap ι
  | 0 => A
  | n + 1 => (A.put x ((A.get x).set i ((A.get y).getD j none))).copy x (i + 1) y (j + 1) n

/-- The same call on blocks. -/
def step (A : BlockMap Nat) (c : HeapCall) : BlockMap Nat :=
  match c.op with
  | .mAlloc x size => A.put x (List.replicate size.toNat none)
  | .cAlloc x size => A.put x (List.replicate size.toNat (some 0))
  | .reAlloc none x size => A.put x (List.replicate size.toNat none)
  | .reAlloc (some y) x size =>
    (A.drop y).put x ((A.get y).take size.toNat
      ++ List.replicate (size.toNat - (A.get y).length) none)
  | .free none => A
  | .free (some y) => A.drop y
  | .mSize _ => A
  | .memSet x off ch len =>
    A.put x ((A.get x).take off ++ List.replicate len (some (ch.setWidth 8))
      ++ (A.get x).drop (off + len))
  | .memCpy x off y off' len => A.copy x off y off' len

/-- The answers that are right: the last requested size, and the pointer that was given. -/
def Right (A : BlockMap Nat) (c : HeapCall) (r : HeapAnswer) : Prop :=
  match c.op with
  | .mSize none => r = .size 0
  | .mSize (some y) => r = .size (A.get y).length
  | .memSet _ _ _ _ => ∃ a, r = .pointer a a
  | _ => r = .none

/-- A call is of blocks that there are, and of bytes in them. -/
def Calls (A : BlockMap Nat) (c : HeapCall) : Prop :=
  match c.op with
  | .reAlloc (some y) _ _ | .free (some y) | .mSize (some y) => A y ≠ none
  | .memSet x off _ len => A x ≠ none ∧ off + len ≤ (A.get x).length
  | .memCpy x off y off' len =>
    A x ≠ none ∧ A y ≠ none ∧ off + len ≤ (A.get x).length ∧ off' + len ≤ (A.get y).length
  | _ => True

end BlockMap

/-- The blocks that variables hold have the sizes and the bytes that they should. -/
def HeapState.Looks (s : HeapState) (A : BlockMap Nat) : Prop :=
  ∀ x bs, A x = some bs → X86.msize s.heap (s.vars x) = some bs.length
    ∧ ∀ i b, bs[i]? = some (some b) → s.heap.load (s.vars x + i) 1 = some b

/-- All calls of a run on a target do what they do on the blocks. -/
def HeapTarget.Follows (t : HeapTarget) (cs : List HeapCall) : Prop :=
  Refinement.Follows t.step BlockMap.step BlockMap.Right HeapState.Looks
    ⟨⟨fun _ => 0, []⟩, fun _ => 0⟩ (fun _ => none) cs

/-! ### Where the routines work -/

/-- The size that a call requests. -/
def HeapOp.request : HeapOp → Option (BitVec 64)
  | .mAlloc _ size | .cAlloc _ size | .reAlloc _ _ size => some size
  | _ => none

/-- The allocator of a target is right and succeeds. -/
def HeapTarget.Allocates (t : HeapTarget) (s : HeapState) (c : HeapCall) : Prop :=
  ∀ size, c.op.request = some size → (t.env c).answer.base ≠ 0
    ∧ s.heap.Right (addressSpace - 1) 16 ((size.toNat + 8) % addressSpace) (t.env c).answer

/-- A requested size leaves room for the header. -/
def HeapOp.Fits (op : HeapOp) : Prop :=
  ∀ size, op.request = some size → size.toNat + 8 < addressSpace

/-- On x86-64 no block shrinks, and `_MEMSET` finds its destination but for the lowest byte, which
is that to set, in `RAX`. -/
def X86.Works (s : HeapState) (c : HeapCall) : Prop :=
  match c.op with
  | .reAlloc ptr _ size => ∀ n, X86.msize s.heap (s.ptr ptr) = some n → n ≤ size.toNat
  | .memSet x off ch _ =>
    c.x86.register / 256 * 256 + (ch.setWidth 8 : Byte).toNat = s.vars x + off
  | _ => True

/-- On AArch64 `_MEMSET` is given bytes to set, by `_CALLOC` too, or finds its destination in
`X3`. -/
def AArch64.Works (s : HeapState) (c : HeapCall) : Prop :=
  match c.op with
  | .cAlloc _ size => size ≠ 0 ∨ c.arm.register = c.arm.answer.base + 8
  | .memSet x off _ len => len ≠ 0 ∨ c.arm.register = s.vars x + off
  | _ => True

end Polyc
