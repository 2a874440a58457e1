import Polyc.Ir.Types
import Polyc.Lib.OpenAddressing

/-!
# The hash map

The generic `Map` of `containers.c`, without a parent.  Keys and values are `void *`; a key
type gives the functions by which keys are compared and hashed.  Allocations succeed.  A
search that does not end within `capacity` steps goes round for ever, and reading a node
outside `entries` is undefined: both are `none`.
-/

namespace Polyc

/-! ### The data -/

/-- The functions of `MapType` on keys, what `mapCStringHashLen` and `memcmp` give for a key
as a C string, and the key as a pointer. -/
structure MapType (K : Type) where
  «match» : K → K → Bool
  hash : K → Word
  getKeyLen : K → Int
  keyType : String
  mapCStringHashLen : K → Int → Word
  memcmpEq : K → K → Int → Bool
  pointer : K → Word

/-- `!strncmp(type->key_type, "char *", 6)`. -/
def MapType.isCStringKey {K : Type} (t : MapType K) : Bool :=
  "char *".toList.isPrefixOf t.keyType.toList

/-- A `MapNode`; the members of a node that is not `TAKEN` are never read. -/
inductive MapNode (K : Type) where
  | free
  | taken (key : K) (value : Word) (keyLen : Int)
  | deleted
  deriving DecidableEq

/-- What is in a node: the key, the value and the length of the key. -/
def MapNode.entry {K : Type} : MapNode K → Option (K × Word × Int)
  | .taken key value keyLen => some (key, value, keyLen)
  | _ => none

/-- `node->flags & MAP_FLAG_TAKEN`. -/
def MapNode.isTaken {K : Type} (n : MapNode K) : Bool := n.entry.isSome

/-- A search stops at a node that is not `TAKEN`, or that is found. -/
def MapNode.stops {K : Type} (found : K → Int → Bool) : MapNode K → Bool
  | .taken key _ keyLen => found key keyLen
  | _ => true

/-- `ULONG_MAX`. -/
def ulongMax : Nat := 2 ^ 64 - 1

/-- The record `Map`. -/
structure Map (K : Type) where
  size : Nat
  capacity : Nat
  mask : Nat
  threashold : Nat
  entries : List (MapNode K)
  indexes : List Nat
  cachedKey : Word
  cachedIdx : Nat
  deriving DecidableEq

/-- `(unsigned long)(MAP_LOAD * capacity)`, where `MAP_LOAD` is the double next to 0.6 and
the capacity a power of two. -/
def mapLoad (capacity : Nat) : Nat := 5404319552844595 * capacity / 2 ^ 53

/-- The part of the capacity that the load leaves. -/
theorem mapLoad_lt {n : Nat} (h : 0 < n) :
  mapLoad n < n
  := by
  unfold mapLoad
  omega

/-- Doubling the capacity makes room for one more key at least. -/
theorem mapLoad_double {n : Nat} (h : 0 < n) :
  mapLoad n + 1 ≤ mapLoad (n * 2)
  := by
  rcases Nat.lt_or_ge n 2 with hlt | hge
  · obtain rfl : n = 1 := by omega
    decide
  · unfold mapLoad
    omega

/-- `roundUpToNextPowerOf2`. -/
def roundUpToNextPowerOf2 (v : Word) : Word :=
  let v := v - 1
  let v := v ||| v >>> 1
  let v := v ||| v >>> 2
  let v := v ||| v >>> 4
  let v := v ||| v >>> 8
  let v := v ||| v >>> 16
  let v := v ||| v >>> 32
  v + 1

/-- `mapIntKeyMatch`. -/
def mapIntKeyMatch (a b : Word) : Bool := a = b

/-- `mapIntKeyLen`. -/
def mapIntKeyLen (_ : Word) : Int := 0

/-- `mapIntKeyHash`. -/
def mapIntKeyHash (key : Word) : Word := key

/-- `map_uint_to_uint_type`; its keys are never taken for C strings. -/
def mapUintToUintType : MapType Word where
  «match» := mapIntKeyMatch
  hash := mapIntKeyHash
  getKeyLen := mapIntKeyLen
  keyType := "u64"
  mapCStringHashLen _ _ := 0
  memcmpEq _ _ _ := false
  pointer key := key

section Map

variable {K : Type}

/-- `mapNew`. -/
def mapNew (K : Type) (capacity : Word) : Map K :=
  let capacity := (roundUpToNextPowerOf2 capacity).toNat
  { size := 0
    capacity := capacity
    mask := capacity - 1
    threashold := mapLoad capacity
    entries := List.replicate capacity .free
    indexes := []
    cachedKey := BitVec.ofNat 64 ulongMax
    cachedIdx := ulongMax }

namespace Map

/-- `map->entries[i]`. -/
def node (m : Map K) (i : Nat) : MapNode K := m.entries.getD i .free

/-- The key of a node that is `TAKEN`. -/
def slot (m : Map K) (i : Nat) : Option K := (m.node i).entry.map Prod.fst

/-- The loops that go from the node of a hash to the first that is not `TAKEN` or is found. -/
def search (m : Map K) (hash : Word) (found : K → Int → Bool) : Option Nat :=
  OpenAddressing.probe (fun i => (m.node i).stops found) (fun i => (i + 1) &&& m.mask)
    m.capacity (hash.toNat &&& m.mask)

/-- The cache is reset. -/
def uncached (m : Map K) : Map K :=
  { m with cachedKey := BitVec.ofNat 64 ulongMax, cachedIdx := ulongMax }

/-- A node is written. -/
def write (m : Map K) (idx : Nat) (n : MapNode K) : Map K :=
  { m with entries := m.entries.set idx n }

/-- A key that was not there is counted, and indexed unless it is in a `DELETED` node. -/
def count (m : Map K) (idx : Nat) : Map K :=
  { m with
    indexes :=
      match m.node idx with
      | .deleted => m.indexes
      | _ => m.indexes ++ [idx]
    size := m.size + 1 }

/-- A node is deleted; `size--` is on 64 bits. -/
def delete (m : Map K) (idx : Nat) : Map K :=
  { m.write idx .deleted with
    size := if m.size = 0 then ulongMax else m.size - 1 }.uncached

end Map

/-! ### Searches -/

/-- `mapGetNextIdx`: the index and `_is_free`. -/
def mapGetNextIdx (t : MapType K) (m : Map K) (key : K) : Option (Nat × Bool) :=
  (m.search (t.hash key) fun k _ => t.match k key).map fun idx => (idx, !(m.node idx).isTaken)

/-- `mapGetIdx`: the index if `_ok`. -/
def mapGetIdx (t : MapType K) (m : Map K) (key : K) : Option (Option Nat) :=
  (m.search (t.hash key) fun k _ => t.match k key).map fun idx =>
    if (m.node idx).isTaken then some idx else none

/-- `mapGetCStringNextIdx`. -/
def mapGetCStringNextIdx (t : MapType K) (m : Map K) (key : K) (keyLen : Int) :
    Option (Nat × Bool) :=
  (m.search (t.mapCStringHashLen key keyLen)
    fun k l => l = keyLen && t.memcmpEq k key keyLen).map
      fun idx => (idx, !(m.node idx).isTaken)

/-! ### Operations -/

/-- One turn of the loop of `mapResize`: a node of the old map is put into the new one. -/
def mapRehash (t : MapType K) (old new : Map K) (idx : Nat) : Option (Map K) :=
  match old.node idx with
  | .taken key value keyLen =>
    (if t.isCStringKey then mapGetCStringNextIdx t new key keyLen
      else mapGetNextIdx t new key).map fun found =>
        { new.write found.1 (.taken key value keyLen) with
          indexes := new.indexes ++ [found.1] }
  | _ => some new

/-- The new map of `mapResize` before the loop. -/
def mapResizeInit (m : Map K) : Map K :=
  { m with
    capacity := m.capacity * 2
    mask := m.capacity * 2 - 1
    entries := List.replicate (m.capacity * 2) .free
    indexes := [] }

/-- The new map of `mapResize` after the loop. -/
def mapResizeDone (new : Map K) : Map K :=
  { new with
    size := new.indexes.length
    threashold := mapLoad new.capacity }.uncached

/-- `mapResize`. -/
def mapResize (t : MapType K) (m : Map K) : Option (Map K) :=
  (m.indexes.foldlM (mapRehash t m) (mapResizeInit m)).map mapResizeDone

/-- The resize with which the insertions begin. -/
def mapReserve (t : MapType K) (m : Map K) : Option (Map K) :=
  if m.size ≥ m.threashold then mapResize t m else some m

/-- `mapAdd`, which returns 1. -/
def mapAdd (t : MapType K) (m : Map K) (key : K) (value : Word) : Option (Map K) :=
  (mapReserve t m).bind fun m =>
    (mapGetNextIdx t m key).map fun found =>
      (if found.2 then m.count found.1 else m).write found.1
        (.taken key value (t.getKeyLen key))

/-- `mapAddOrErr`. -/
def mapAddOrErr (t : MapType K) (m : Map K) (key : K) (value : Word) :
    Option (Map K × Bool) :=
  (mapReserve t m).bind fun m =>
    (mapGetNextIdx t m key).map fun found =>
      if found.2 then
        ((m.count found.1).write found.1 (.taken key value (t.getKeyLen key)), true)
      else (m, false)

/-- `mapRemove`. -/
def mapRemove (t : MapType K) (m : Map K) (key : K) : Option (Map K) :=
  (mapGetIdx t m key).map fun found =>
    match found with
    | none => m
    | some idx => m.delete idx

/-- The cache after a key is found. -/
def Map.cached (t : MapType K) (m : Map K) (key : K) (idx : Nat) : Map K :=
  { m with cachedKey := t.pointer key, cachedIdx := idx }

/-- `mapHas`. -/
def mapHas (t : MapType K) (m : Map K) (key : K) : Option (Map K × Bool) :=
  (mapGetIdx t m key).map fun found =>
    match found with
    | none => (m, false)
    | some idx => (m.cached t key idx, true)

/-- The search of `mapGet`. -/
def mapGetSearch (t : MapType K) (m : Map K) (key : K) : Option (Map K × Word) :=
  (mapGetIdx t m key).map fun found =>
    match found.map m.node, found with
    | some (.taken k value _), some idx => (m.cached t k idx, value)
    | _, _ => (m, 0)

/-- `mapGet`. -/
def mapGet (t : MapType K) (m : Map K) (key : K) : Option (Map K × Word) :=
  if m.cachedKey = t.pointer key then
    if m.cachedIdx < m.capacity then
      match m.node m.cachedIdx with
      | .taken _ value _ => some (m, value)
      | _ => mapGetSearch t m key
    else none
  else mapGetSearch t m key

/-- One turn of the loop of `mapClear`. -/
def mapClearNode (m : Map K) (idx : Nat) : Map K :=
  if (m.node idx).isTaken then m.write idx .free else m

/-- `mapClear`. -/
def mapClear (m : Map K) : Map K :=
  { m.indexes.foldl mapClearNode m with size := 0, indexes := [] }.uncached

/-! ### Iteration -/

/-- The record `MapIter`; the node is given by its index. -/
structure MapIter where
  node : Option Nat := none
  idx : Nat := 0
  vecidx : Nat := 0
  deriving DecidableEq

/-- `mapIterInit`. -/
def mapIterInit : MapIter := {}

/-- The loop of `mapIterNext` over the indexes that are left. -/
def mapIterScan (m : Map K) : MapIter → List Nat → Option MapIter
  | _, [] => none
  | it, idx :: rest =>
    if (m.node idx).isTaken then
      some { node := some idx, idx := it.idx + 1, vecidx := it.vecidx + 1 }
    else mapIterScan m { it with vecidx := it.vecidx + 1 } rest

/-- `mapIterNext`, which returns 0 at the end. -/
def mapIterNext (m : Map K) (it : MapIter) : Option MapIter :=
  mapIterScan m it (m.indexes.drop it.vecidx)

/-- The keys of the nodes that `mapIterNext` yields from an iterator on until it returns 0. -/
inductive MapYields (m : Map K) : MapIter → List K → Prop where
  | done {it : MapIter} (h : mapIterNext m it = none) : MapYields m it []
  | next {it it' : MapIter} {key : K} {rest : List K} (h : mapIterNext m it = some it')
      (hkey : it'.node.bind m.slot = some key) (hrest : MapYields m it' rest) :
      MapYields m it (key :: rest)

end Map

end Polyc
