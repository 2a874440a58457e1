import Polyc.Containers.Map

/-!
# The hash set

The generic `Set` of `containers.c`.  The functions of a `SetType` on keys are those of a
`MapType`.  A search that does not end within `capacity` steps goes round for ever; this and
an assertion that fails are `none`.
-/

namespace Polyc

/-- A `SetNode`: the key and its length when it is occupied. -/
abbrev SetNode (K : Type) := Option (K × Int)

/-- The record `Set`. -/
structure HashSet (K : Type) where
  size : Nat
  capacity : Nat
  mask : Nat
  threashold : Nat
  entries : List (SetNode K)
  indexes : List Nat
  deriving DecidableEq

section Set

variable {K : Type}

/-- `setNew`. -/
def setNew (K : Type) (capacity : Nat) : HashSet K where
  size := 0
  capacity := capacity
  mask := capacity - 1
  threashold := mapLoad capacity
  entries := List.replicate capacity none
  indexes := []

namespace HashSet

/-- `set->entries[i]`. -/
def node (s : HashSet K) (i : Nat) : SetNode K := s.entries.getD i none

/-- The key of a node that is occupied. -/
def slot (s : HashSet K) (i : Nat) : Option K := (s.node i).map Prod.fst

/-- The loops that go from the node of a hash to the first that is vacant or is found. -/
def search (s : HashSet K) (hash : Word) (found : K → Int → Bool) : Option Nat :=
  OpenAddressing.probe (fun i => (s.node i).all fun e => found e.1 e.2)
    (fun i => (i + 1) &&& s.mask) s.capacity (hash.toNat &&& s.mask)

/-- A node is written. -/
def write (s : HashSet K) (idx : Nat) (n : SetNode K) : HashSet K :=
  { s with entries := s.entries.set idx n }

end HashSet

/-! ### Searches -/

/-- `setGetNextIdx`: the index and `_is_free`. -/
def setGetNextIdx (t : MapType K) (s : HashSet K) (key : K) : Option (Nat × Bool) :=
  (s.search (t.hash key) fun k _ => t.match k key).map fun idx => (idx, (s.node idx).isNone)

/-- `setGetCStringNextIdx`, which sets `_is_free` also when it has found the key. -/
def setGetCStringNextIdx (t : MapType K) (s : HashSet K) (key : K) (keyLen : Int) :
    Option (Nat × Bool) :=
  (s.search (t.mapCStringHashLen key keyLen)
    fun k l => l = keyLen && t.memcmpEq k key keyLen).map fun idx => (idx, true)

/-- `setGetIdx`: the index if `_ok`. -/
def setGetIdx (t : MapType K) (s : HashSet K) (key : K) : Option (Option Nat) :=
  (s.search (t.hash key) fun k _ => t.match k key).map fun idx =>
    if (s.node idx).isSome then some idx else none

/-! ### Operations -/

/-- One turn of the loop of `setResize`, with its assertion. -/
def setRehash (t : MapType K) (old new : HashSet K) (idx : Nat) : Option (HashSet K) :=
  match old.node idx with
  | some (key, keyLen) =>
    (if t.isCStringKey then setGetCStringNextIdx t new key keyLen
      else setGetNextIdx t new key).bind fun found =>
        if found.2 then
          some { new.write found.1 (some (key, keyLen)) with
            indexes := new.indexes ++ [found.1] }
        else none
  | none => some new

/-- The new set of `setResize` before the loop. -/
def setResizeInit (s : HashSet K) : HashSet K :=
  { s with
    capacity := s.capacity * 2
    mask := s.capacity * 2 - 1
    entries := List.replicate (s.capacity * 2) none
    indexes := [] }

/-- The new set of `setResize` after the loop. -/
def setResizeDone (new : HashSet K) : HashSet K :=
  { new with
    size := new.indexes.length
    threashold := mapLoad new.capacity }

/-- `setResize`. -/
def setResize (t : MapType K) (s : HashSet K) : Option (HashSet K) :=
  (s.indexes.foldlM (setRehash t s) (setResizeInit s)).map setResizeDone

/-- The resize with which `setAdd` begins. -/
def setReserve (t : MapType K) (s : HashSet K) : Option (HashSet K) :=
  if s.size ≥ s.threashold then setResize t s else some s

/-- A key is put into a vacant node. -/
def HashSet.put (t : MapType K) (s : HashSet K) (idx : Nat) (key : K) : HashSet K :=
  { s.write idx (some (key, t.getKeyLen key)) with
    indexes := s.indexes ++ [idx]
    size := s.size + 1 }

/-- `setAdd`. -/
def setAdd (t : MapType K) (s : HashSet K) (key : K) : Option (HashSet K × Bool) :=
  (setReserve t s).bind fun s =>
    (setGetNextIdx t s key).map fun found =>
      if found.2 then (s.put t found.1 key, true) else (s, false)

/-- A node is vacated; `size--` is on 64 bits. -/
def HashSet.vacate (s : HashSet K) (idx : Nat) : HashSet K :=
  { s.write idx none with size := if s.size = 0 then ulongMax else s.size - 1 }

/-- `setRemove`, with the key that it returns. -/
def setRemove (t : MapType K) (s : HashSet K) (key : K) : Option (HashSet K × Option K) :=
  (setGetIdx t s key).map fun found =>
    match found with
    | none => (s, none)
    | some idx => (s.vacate idx, s.slot idx)

/-- `setHas`. -/
def setHas (t : MapType K) (s : HashSet K) (key : K) : Option Bool :=
  (setGetIdx t s key).map Option.isSome

/-! ### Iteration -/

/-- The record `SetIter`; the value is the key of the node. -/
structure SetIter (K : Type) where
  value : Option K := none
  idx : Nat := 0
  vecidx : Nat := 0

/-- `setIterInit`. -/
def setIterInit : SetIter K := {}

/-- The loop of `setIterNext` over the indexes that are left. -/
def setIterScan (s : HashSet K) : SetIter K → List Nat → Option (SetIter K)
  | _, [] => none
  | it, idx :: rest =>
    match s.slot idx with
    | some key => some { value := some key, idx := it.idx + 1, vecidx := it.vecidx + 1 }
    | none => setIterScan s { it with vecidx := it.vecidx + 1 } rest

/-- `setIterNext`, which returns 0 at the end. -/
def setIterNext (s : HashSet K) (it : SetIter K) : Option (SetIter K) :=
  setIterScan s it (s.indexes.drop it.vecidx)

/-- The values that `setIterNext` yields from an iterator on until it returns 0. -/
inductive SetYields (s : HashSet K) : SetIter K → List K → Prop where
  | done {it : SetIter K} (h : setIterNext s it = none) : SetYields s it []
  | next {it it' : SetIter K} {key : K} {rest : List K} (h : setIterNext s it = some it')
      (hkey : it'.value = some key) (hrest : SetYields s it' rest) : SetYields s it (key :: rest)

/-! ### Union, difference and copy -/

/-- The loop `SetFor` over the indexes that are left, which ends at a value that is `NULL`. -/
def setFor (t : MapType K) (s : HashSet K) (body : HashSet K → K → Option (HashSet K)) :
    HashSet K → List Nat → Option (HashSet K)
  | set, [] => some set
  | set, idx :: rest =>
    match s.slot idx with
    | some value =>
      if t.pointer value = 0 then some set
      else (body set value).bind fun set => setFor t s body set rest
    | none => setFor t s body set rest

/-- `setUnion`. -/
def setUnion (t : MapType K) (s1 s2 : HashSet K) : Option (HashSet K) :=
  let add (set : HashSet K) (value : K) := (setAdd t set value).map Prod.fst
  (setFor t s1 add (setNew K s1.capacity) s1.indexes).bind fun set =>
    setFor t s2 add set s2.indexes

/-- `setDifference`. -/
def setDifference (t : MapType K) (s1 s2 : HashSet K) : Option (HashSet K) :=
  setFor t s1
    (fun set value =>
      (setHas t s2 value).bind fun has =>
        if !has then (setAdd t set value).map Prod.fst else some set)
    (setNew K s1.capacity) s1.indexes

/-- `setCopy`, which does not use the union that it makes. -/
def setCopy (t : MapType K) (set : HashSet K) : Option (HashSet K) :=
  let copy := setNew K set.capacity
  (setUnion t copy set).map fun _ => copy

end Set

end Polyc
