import Polyc.Ir.Types
import Polyc.Lib.Bytes
import Polyc.Lib.OpenAddressing

/-!
# The hash tables of the library

The `IntMap` and the `StrMap` of `hashtable.HC`, without their callbacks.  Allocations succeed.
A search that goes round the table does not end, and an access outside the cells of the table
or outside the size of the vector of indexes may not be made: both are `none`.
-/

namespace Polyc

open Bytes (Byte)

/-! ### The data -/

/-- `HT_LOAD`. -/
def htLoad : Nat := 60

/-- `HT_DELETED`. -/
def htDeleted : Nat := 0x7fffffffffffffff

/-- Arithmetic on `U64`. -/
def u64 (n : Nat) : Nat := n % 2 ^ 64

/-- The members of an `IntMap` or a `StrMap`, which have nodes of different kinds; of the vector
of indexes, the entries up to its size. -/
structure HtMap (N : Type) where
  size : Nat
  capacity : Nat
  mask : Nat
  indexes : List Nat
  threashold : Nat
  entries : List (Option N)
  deriving DecidableEq

/-- What the two kinds of tables do with what is searched for and with a node: the hash, the
comparison of `GetIdx`, whether the node is deleted, and what it is searched by in a resize. -/
structure HtType (P N : Type) where
  hash : P → Nat
  found : P → N → Bool
  deleted : N → Bool
  probe : N → P
  value : N → Word

/-- `RoundUpToNextPowerOf2`. -/
def htRoundUpToNextPowerOf2 (v : Word) : Word :=
  let v := v - 1
  let v := v ||| v >>> 1
  let v := v ||| v >>> 2
  let v := v ||| v >>> 4
  let v := v ||| v >>> 8
  let v := v ||| v >>> 16
  let v := v ||| v >>> 32
  v + 1

/-- The cells of `CAlloc(capacity * sizeof(IntMapNode *))`. -/
def htEntries (N : Type) (capacity : Nat) : List (Option N) :=
  List.replicate (u64 (capacity * 8) / 8) none

/-- `(capacity * HT_LOAD)/100`. -/
def htThreashold (capacity : Nat) : Nat := u64 (capacity * htLoad) / 100

section Table

variable {P N : Type}

/-- `IntMapNew` and `StrMapNew`. -/
def htNew (N : Type) (capacity : Word) : HtMap N :=
  { capacity := (htRoundUpToNextPowerOf2 capacity).toNat
    mask := (capacity - 1).toNat
    size := 0
    indexes := []
    threashold := htThreashold capacity.toNat
    entries := htEntries N capacity.toNat }

namespace HtMap

/-- `map->entries[i]`. -/
def node (m : HtMap N) (i : Nat) : Option N := m.entries.getD i none

/-- The loops that go from the cell of a hash to the first that is `NULL` or stops them. -/
def search (m : HtMap N) (hash : Nat) (stop : N → Bool) : Option Nat :=
  (OpenAddressing.probe (fun i => (m.node i).all stop) (fun i => (i + 1) &&& m.mask) (m.mask + 1)
    (hash &&& m.mask)).filter (· < m.entries.length)

/-- A node is written. -/
def write (m : HtMap N) (idx : Nat) (n : N) : HtMap N :=
  { m with entries := m.entries.set idx (some n) }

end HtMap

/-! ### Searches -/

/-- `IntMapGetIdx` and `StrMapGetIdx`. -/
def htGetIdx (t : HtType P N) (m : HtMap N) (key : P) : Option Nat :=
  (m.search (t.hash key) (t.found key)).map fun idx =>
    if (m.node idx).isSome then idx else htDeleted

/-- `IntMapGetNextIdx` and `StrMapGetNextIdx`: the index and `_is_free`. -/
def htGetNextIdx (t : HtType P N) (m : HtMap N) (key : P) : Option (Nat × Bool) :=
  (m.search (t.hash key) fun cur => t.deleted cur || t.found key cur).map fun idx =>
    (idx, (m.node idx).isNone)

/-! ### Operations -/

/-- One turn of the loop of `IntMapResize` and `StrMapResize`. -/
def htRehash (t : HtType P N) (old new : HtMap N) (idx : Nat) : Option (HtMap N) :=
  match old.node idx with
  | some node =>
    if t.deleted node then some new
    else (htGetNextIdx t new (t.probe node)).map fun found =>
      { new.write found.1 node with indexes := new.indexes ++ [found.1] }
  | none => none

/-- The map of a resize before the loop. -/
def htResizeInit (m : HtMap N) : HtMap N :=
  let newCapacity := u64 (m.capacity * 2)
  { m with
    mask := u64 (newCapacity + (2 ^ 64 - 1))
    entries := htEntries N newCapacity
    capacity := newCapacity
    indexes := [] }

/-- The map of a resize after the loop. -/
def htResizeDone (new : HtMap N) : HtMap N :=
  { new with
    threashold := htThreashold new.capacity
    size := new.indexes.length }

/-- `IntMapResize` and `StrMapResize`. -/
def htResize (t : HtType P N) (m : HtMap N) : Option (HtMap N) :=
  (m.indexes.foldlM (htRehash t m) (htResizeInit m)).map htResizeDone

/-- The resize with which the insertions begin. -/
def htReserve (t : HtType P N) (m : HtMap N) : Option (HtMap N) :=
  if m.size ≥ m.threashold then htResize t m else some m

/-- `IntMapSet` and `StrMapSet`, which return `TRUE`; a node that is new and one that is
written have the same members. -/
def htSet (t : HtType P N) (m : HtMap N) (key : P) (n : N) : Option (HtMap N) :=
  (htReserve t m).bind fun m =>
    (htGetNextIdx t m key).map fun found =>
      if found.2 then
        { m.write found.1 n with
          indexes := m.indexes ++ [found.1]
          size := u64 (m.size + 1) }
      else m.write found.1 n

/-- `IntMapHas` and `StrMapHas`. -/
def htHas (t : HtType P N) (m : HtMap N) (key : P) : Option Bool :=
  (htGetIdx t m key).map fun idx => idx ≠ htDeleted

/-- `IntMapGet` and `StrMapGet`. -/
def htGet (t : HtType P N) (m : HtMap N) (key : P) : Option Word :=
  (htGetIdx t m key).bind fun idx =>
    if idx ≠ htDeleted then (m.node idx).map t.value else some 0

/-- A node is deleted; `map->size--` is on 64 bits. -/
def HtMap.delete (m : HtMap N) (idx : Nat) (n : N) : HtMap N :=
  { m.write idx n with size := if m.size = 0 then 2 ^ 64 - 1 else m.size - 1 }

/-! ### Iteration -/

/-- The loop of `IntMapIter` and `StrMapIter` over the indexes that are left: `*_idx` and the
index of the node. -/
def htIterScan : Nat → List Nat → Option (Nat × Nat)
  | _, [] => none
  | idx, index :: rest =>
    if index ≠ htDeleted then some (idx + 1, index) else htIterScan (idx + 1) rest

/-- `IntMapIter` and `StrMapIter`, which return `FALSE` at the end. -/
def htIter (m : HtMap N) (idx : Nat) : Option (Nat × Nat) := htIterScan idx (m.indexes.drop idx)

/-- The nodes that at most some calls yield one after the other, up to the one that returns
`FALSE`. -/
def htNodes (m : HtMap N) : Nat → Nat → Option (List N)
  | 0, _ => none
  | fuel + 1, idx =>
    match htIter m idx with
    | none => some []
    | some (idx', index) =>
      (m.node index).bind fun node => (htNodes m fuel idx').map (node :: ·)

/-- A full iteration. -/
def htIterate (m : HtMap N) : Option (List N) := htNodes m (m.indexes.length + 1) 0

end Table

/-! ### `IntMap` -/

/-- `HT_DELETED` as a key. -/
def htDeletedKey : Word := BitVec.ofNat 64 htDeleted

/-- An `IntMapNode`. -/
structure IntMapNode where
  key : Word
  value : Word
  deriving DecidableEq

/-- What an `IntMap` does: `IntMapHashFunction`, of which `search` takes the mask, and keys that
are compared as numbers. -/
def intMapType : HtType Word IntMapNode where
  hash key := key.toNat
  found key cur := cur.key = key
  deleted cur := cur.key = htDeletedKey
  probe node := node.key
  value node := node.value

/-- An `IntMap`. -/
abbrev IntMap := HtMap IntMapNode

/-- `IntMapNew`. -/
def intMapNew (capacity : Word) : IntMap := htNew IntMapNode capacity

/-- `IntMapGetIdx`. -/
def intMapGetIdx : IntMap → Word → Option Nat := htGetIdx intMapType

/-- `IntMapGetNextIdx`. -/
def intMapGetNextIdx : IntMap → Word → Option (Nat × Bool) := htGetNextIdx intMapType

/-- `IntMapResize`. -/
def intMapResize : IntMap → Option IntMap := htResize intMapType

/-- `IntMapSet`. -/
def intMapSet (m : IntMap) (key value : Word) : Option IntMap := htSet intMapType m key ⟨key, value⟩

/-- `IntMapDelete`. -/
def intMapDelete (m : IntMap) (key : Word) : Option (IntMap × Bool) :=
  (intMapGetIdx m key).bind fun idx =>
    if idx ≠ htDeleted then
      (m.node idx).map fun n => (m.delete idx { n with key := htDeletedKey }, true)
    else some (m, false)

/-- `IntMapHas`. -/
def intMapHas : IntMap → Word → Option Bool := htHas intMapType

/-- `IntMapGet`. -/
def intMapGet : IntMap → Word → Option Word := htGet intMapType

/-- `IntMapIter`. -/
def intMapIter : IntMap → Nat → Option (Nat × Nat) := htIter

/-! ### `StrMap` -/

/-- A string of bytes up to its `NUL`. -/
abbrev CStr := {bytes : List Byte // 0 ∉ bytes}

/-- The empty string. -/
def emptyCStr : CStr := ⟨[], List.not_mem_nil⟩

/-- `StrLen`. -/
def strLen (s : CStr) : Nat := s.val.length

/-- The bytes that are read of a key, which is `NULL` in a deleted node. -/
def keyBytes (key : Option CStr) : List Byte := key.elim [] Subtype.val

/-- A `StrMapNode`, whose `key_len` is the length of its key, and 0 when that is `NULL`. -/
structure StrMapNode where
  key : Option CStr
  keyLen : Nat
  value : Word
  keyLen_eq : keyLen = (keyBytes key).length
  deriving DecidableEq

/-- `StrHash`, and on x86-64 what is in `RAX` at `StrNCmp(cur->key,key,0)`, which leaves it there;
on AArch64 (`none`) the result is 0. -/
structure StrMapEnv where
  strHash : CStr → Word
  rax : Option (Option CStr → CStr → Word)

/-- `!StrNCmp(cur->key,key,key_len)`. -/
def strNCmpEq (env : StrMapEnv) (curKey : Option CStr) (key : CStr) (keyLen : Nat) : Bool :=
  if keyLen = 0 then env.rax.all (fun rax => rax curKey key = 0)
  else (keyBytes curKey).take keyLen = key.val.take keyLen

/-- What a `StrMap` does; what is searched for is a key with its length. -/
def strMapType (env : StrMapEnv) : HtType (CStr × Nat) StrMapNode where
  hash p := (env.strHash p.1).toNat
  found p cur := cur.keyLen = p.2 && strNCmpEq env cur.key p.1 p.2
  deleted cur := cur.key.isNone
  probe node := (node.key.getD emptyCStr, node.keyLen)
  value node := node.value

/-- A `StrMap`. -/
abbrev StrMap := HtMap StrMapNode

/-- `StrMapNew`. -/
def strMapNew (capacity : Word) : StrMap := htNew StrMapNode capacity

/-- `StrMapGetNextIdx`. -/
def strMapGetNextIdx (env : StrMapEnv) : StrMap → CStr × Nat → Option (Nat × Bool) :=
  htGetNextIdx (strMapType env)

/-- `StrMapGetIdx`. -/
def strMapGetIdx (env : StrMapEnv) : StrMap → CStr × Nat → Option Nat :=
  htGetIdx (strMapType env)

/-- `StrMapResize`. -/
def strMapResize (env : StrMapEnv) : StrMap → Option StrMap := htResize (strMapType env)

/-- `StrMapNodeNew` with the length of the key. -/
def strMapNodeNew (key : CStr) (value : Word) : StrMapNode := ⟨some key, strLen key, value, rfl⟩

/-- `StrMapSet`. -/
def strMapSet (env : StrMapEnv) (m : StrMap) (key : CStr) (value : Word) : Option StrMap :=
  htSet (strMapType env) m (key, strLen key) (strMapNodeNew key value)

/-- `StrMapDelete`: the vector of indexes is written at the index into the table. -/
def strMapDelete (env : StrMapEnv) (m : StrMap) (key : CStr) : Option (StrMap × Bool) :=
  (m.search (env.strHash key).toNat ((strMapType env).found (key, strLen key))).bind fun idx =>
    match m.node idx with
    | none => some (m, true)
    | some _ =>
      if idx < m.indexes.length then
        some ({ m.delete idx ⟨none, 0, 0, rfl⟩ with
          indexes := m.indexes.set idx htDeleted }, true)
      else none

/-- `StrMapHas`, which is `StrMapHasLen` with the length of the key. -/
def strMapHas (env : StrMapEnv) (m : StrMap) (key : CStr) : Option Bool :=
  htHas (strMapType env) m (key, strLen key)

/-- `StrMapGet`, which is `StrMapGetLen` with the length of the key. -/
def strMapGet (env : StrMapEnv) (m : StrMap) (key : CStr) : Option Word :=
  htGet (strMapType env) m (key, strLen key)

/-- `StrMapIter`. -/
def strMapIter : StrMap → Nat → Option (Nat × Nat) := htIter

end Polyc
