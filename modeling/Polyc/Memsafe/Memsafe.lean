import Polyc.Containers.MapOps
import Polyc.Lib.Heap

/-!
# The tracking allocator

`memsafe.c` after `memsafeInit`, on a system without zones: the wrappers of `malloc` and `free`,
the map of the blocks that are tracked and the ring of those that were freed last.  What `malloc`
answers is given with each call, and what is undefined is `none`.
-/

namespace Polyc

/-! ### The data -/

/-- A `MemsafeEntry`, but for the call sites.  A report shows both rounds. -/
structure MemsafeEntry where
  ptr : Word
  size : Word
  allocRound : Int
  freeRound : Int
  deriving DecidableEq

/-- `MEMSAFE_RING`. -/
def memsafeRingSize : Nat := 256

/-- The heap, the variables of `memsafe.c`, the entries that the values of the map point to, and
what has been reported: a pointer, the entry it was found in and the round. -/
structure Memsafe where
  heap : Heap
  live : Map Word
  entries : Word → MemsafeEntry
  ring : List MemsafeEntry
  ringNext : Nat
  round : Int
  reports : List (Word × MemsafeEntry × Int)

/-- An entry of the ring that was not used. -/
def memsafeNoEntry : MemsafeEntry := ⟨0, 0, 0, 0⟩

/-- The tracker before any call, on some heap. -/
def memsafeInit (heap : Heap) : Memsafe where
  heap := heap
  live := mapNew Word 64
  entries _ := memsafeNoEntry
  ring := List.replicate memsafeRingSize memsafeNoEntry
  ringNext := 0
  round := 0
  reports := []

/-- What `malloc` and `calloc` answer in a call of a wrapper: the block, and the pointer to the
entry, which is 0 when `calloc` fails. -/
structure MemsafeAnswer where
  block : Heap.Answer
  entry : Word

/-- The type of the map. -/
abbrev memsafeMap : MapType Word := mapUintToUintType

/-! ### Tracking -/

/-- `memsafeTrack`. -/
def memsafeTrack (s : Memsafe) (p size entry : Word) : Option Memsafe := do
  if p = 0 then
    return s
  let (live, old) ← mapGet memsafeMap s.live p
  let live ← if old ≠ 0 then mapRemove memsafeMap live p else some live
  if entry = 0 then
    return { s with live := live }
  let (live, _) ← mapAddOrErr memsafeMap live p entry
  return { s with
    live := live
    entries := Function.update s.entries entry ⟨p, size, s.round, 0⟩ }

/-- `memsafeRingFind`. -/
def memsafeRingFind (s : Memsafe) (p : Word) : Option MemsafeEntry :=
  s.ring.find? (·.ptr = p)

/-- `memsafeRetire`. -/
def memsafeRetire (s : Memsafe) (p : Word) : Option (Memsafe × Bool) := do
  if p = 0 then
    return (s, false)
  let (live, e) ← mapGet memsafeMap s.live p
  if e = 0 then
    return ({ s with live := live }, false)
  let live ← mapRemove memsafeMap live p
  let entry := { s.entries e with freeRound := s.round }
  return ({ s with
    live := live
    ring := s.ring.set s.ringNext entry
    ringNext := (s.ringNext + 1) % memsafeRingSize }, true)

/-- `memsafeReportDoubleFree`. -/
def memsafeReportDoubleFree (s : Memsafe) (p : Word) (r : MemsafeEntry) : Memsafe :=
  { s with reports := s.reports ++ [(p, r, s.round)] }

/-! ### The wrappers -/

/-- `memsafeMAlloc`: the size of the request is computed on 64 bits, and a header outside of the
block is undefined. -/
def memsafeMAlloc (s : Memsafe) (size : Word) (a : MemsafeAnswer) : Option (Memsafe × Word) := do
  let request := (size + 8).toNat
  let s := { s with heap := s.heap.malloc request a.block }
  if a.block.base = 0 then
    return (s, 0)
  if request < 8 then
    none
  let s := { s with heap := s.heap.write a.block.base (Bytes.layout 8 size) }
  let p := BitVec.ofNat 64 (a.block.base + 8)
  let s ← memsafeTrack s p size a.entry
  return (s, p)

/-- `memsafeCAlloc`. -/
def memsafeCAlloc (s : Memsafe) (size : Word) (a : MemsafeAnswer) : Option (Memsafe × Word) := do
  let (s, p) ← memsafeMAlloc s size a
  if p ≠ 0 then
    return ({ s with heap := s.heap.write p.toNat (List.replicate size.toNat 0) }, p)
  return (s, p)

/-- `free((u8 *)p - 8)`. -/
def memsafeRelease (s : Memsafe) (p : Word) : Option Memsafe :=
  (s.heap.free (p - 8).toNat).map fun heap => { s with heap := heap }

/-- `memsafeFree`. -/
def memsafeFree (s : Memsafe) (p : Word) : Option Memsafe := do
  if p = 0 then
    return s
  let (s, retired) ← memsafeRetire s p
  if retired then
    memsafeRelease s p
  else
    match memsafeRingFind s p with
    | some r => return memsafeReportDoubleFree s p r
    | none => memsafeRelease s p

/-- Some bytes of a memory. -/
def bytesAt (mem : Bytes.Mem) (off n : Nat) : List Bytes.Byte :=
  (List.range n).map fun i => mem (off + i)

/-- `memsafeReAlloc`. -/
def memsafeReAlloc (s : Memsafe) (p size : Word) (a : MemsafeAnswer) :
    Option (Memsafe × Word) := do
  if p = 0 then
    memsafeMAlloc s size a
  else
    match memsafeRingFind s p with
    | some r => return (memsafeReportDoubleFree s p r, 0)
    | none =>
      let (s, q) ← memsafeMAlloc s size a
      if q = 0 then
        return (s, 0)
      let oldSize : Word := Bytes.read s.heap.mem (p - 8).toNat 8
      let n := if oldSize < size then oldSize else size
      let s := { s with heap := s.heap.write q.toNat (bytesAt s.heap.mem p.toNat n.toNat) }
      let s ← memsafeFree s p
      return (s, q)

/-! ### Calls -/

/-- A call of a wrapper or of `memsafeSetRound`, or what the program writes to its memory. -/
inductive MemsafeCall where
  | mAlloc (size : Word) (a : MemsafeAnswer)
  | cAlloc (size : Word) (a : MemsafeAnswer)
  | reAlloc (p size : Word) (a : MemsafeAnswer)
  | free (p : Word)
  | setRound (round : Int)
  | store (mem : Bytes.Mem)

/-- A call, with the pointer it returns. -/
def memsafeStep (s : Memsafe) : MemsafeCall → Option (Memsafe × Word)
  | .mAlloc size a => memsafeMAlloc s size a
  | .cAlloc size a => memsafeCAlloc s size a
  | .reAlloc p size a => memsafeReAlloc s p size a
  | .free p => (memsafeFree s p).map (·, 0)
  | .setRound round => some ({ s with round := round }, 0)
  | .store mem => some ({ s with heap := { s.heap with mem := mem } }, 0)

end Polyc
