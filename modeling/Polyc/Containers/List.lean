import Mathlib.Data.Finset.Insert
import Mathlib.Data.Finset.Erase
import Mathlib.Data.Finset.Card
import Polyc.Lib.LinkedWalk
import Polyc.Lib.Refinement

/-!
# Lists

The operations of `list.c` on circular doubly linked lists with a sentinel, and runs of them over
any number of lists, beside the same operations on sequences.  A heap has the fields of the nodes
by their addresses, and the addresses that are allocated; reading or writing another address has no
result.  Values are pointers, of which 0 is `NULL`.
-/

namespace Polyc

/-! ### The heap of nodes -/

/-- A heap of nodes, and the number of calls of `malloc` so far. -/
structure ListHeap extends Links Nat where
  value : Nat → Nat
  live : Finset Nat
  mallocs : Nat

/-- `malloc` answers each call by an address, which may depend on all that was before. -/
abbrev ListMalloc := Nat → Finset Nat → Nat

namespace ListHeap

/-- `a->next`. -/
def getNext (h : ListHeap) (a : Nat) : Option Nat := if a ∈ h.live then some (h.next a) else none

/-- `a->prev`. -/
def getPrev (h : ListHeap) (a : Nat) : Option Nat := if a ∈ h.live then some (h.prev a) else none

/-- `a->value`. -/
def getValue (h : ListHeap) (a : Nat) : Option Nat :=
  if a ∈ h.live then some (h.value a) else none

/-- `a->next = b`. -/
def setNext (h : ListHeap) (a b : Nat) : Option ListHeap :=
  if a ∈ h.live then some { h with next := Function.update h.next a b } else none

/-- `a->prev = b`. -/
def setPrev (h : ListHeap) (a b : Nat) : Option ListHeap :=
  if a ∈ h.live then some { h with prev := Function.update h.prev a b } else none

/-- `a->value = v`. -/
def setValue (h : ListHeap) (a v : Nat) : Option ListHeap :=
  if a ∈ h.live then some { h with value := Function.update h.value a v } else none

/-- `free(a)`. -/
def free (h : ListHeap) (a : Nat) : Option ListHeap :=
  if a ∈ h.live then some { h with live := h.live.erase a } else none

/-- The heap before anything is allocated. -/
def empty : ListHeap := ⟨⟨fun _ => 0, fun _ => 0⟩, fun _ => 0, ∅, 0⟩

end ListHeap

/-! ### The operations -/

section Operations

variable (malloc : ListMalloc)

/-- `listNew`. -/
def listNew (h : ListHeap) : ListHeap × Nat :=
  let ll := malloc h.mallocs h.live
  ({ next := Function.update h.next ll ll, prev := Function.update h.prev ll ll,
     value := Function.update h.value ll 0, live := insert ll h.live,
     mallocs := h.mallocs + 1 }, ll)

/-- `listAppend`. -/
def listAppend (h : ListHeap) (head value : Nat) : Option ListHeap := do
  let new := listNew malloc h
  let node := new.2
  let tail ← new.1.getPrev head
  let h ← new.1.setValue node value
  let h ← h.setPrev node tail
  let h ← h.setNext node head
  let h ← h.setNext tail node
  h.setPrev head node

/-- `listPrepend`. -/
def listPrepend (h : ListHeap) (head value : Nat) : Option ListHeap := do
  let new := listNew malloc h
  let node := new.2
  let h ← new.1.setValue node value
  let h ← h.setPrev node head
  let h ← h.setNext node (← h.getNext head)
  let h ← h.setPrev (← h.getNext head) node
  h.setNext head node

/-- `listDeque`, with `NULL` of an empty list. -/
def listDeque (h : ListHeap) (ll : Nat) : Option (ListHeap × Nat) := do
  if (← h.getNext ll) = ll then
    return (h, 0)
  let node ← h.getNext ll
  let val ← h.getValue node
  let h ← h.setPrev (← h.getNext node) ll
  let h ← h.setNext ll (← h.getNext (← h.getNext ll))
  let h ← h.free node
  return (h, val)

/-- `listInsertBefore`. -/
def listInsertBefore (h : ListHeap) (ll newNode : Nat) : Option ListHeap := do
  let h ← h.setNext newNode ll
  let h ← h.setPrev newNode (← h.getPrev ll)
  let h ← h.setNext (← h.getPrev ll) newNode
  h.setPrev ll newNode

/-- `listInsertValueBefore`. -/
def listInsertValueBefore (h : ListHeap) (ll value : Nat) : Option ListHeap := do
  let new := listNew malloc h
  let prev := new.2
  let h ← new.1.setValue prev value
  listInsertBefore h ll prev

/-- `listPop`, with `NULL` of an empty list. -/
def listPop (h : ListHeap) (ll : Nat) : Option (ListHeap × Nat) := do
  if (← h.getNext ll) = ll then
    return (h, 0)
  let node ← h.getPrev ll
  let val ← h.getValue node
  let h ← h.setNext (← h.getPrev node) ll
  let h ← h.setPrev ll (← h.getPrev (← h.getPrev ll))
  let h ← h.free node
  return (h, val)

/-- The loop of `listRemoveValue`, with a bound on its turns. -/
def listRemoveValueLoop (h : ListHeap) (ll value : Nat) : Nat → Nat → Option ListHeap
  | 0, _ => none
  | n + 1, it => do
    if it = ll then
      return h
    let next ← h.getNext it
    let prev ← h.getPrev it
    if (← h.getValue it) = value then
      let h ← h.setNext prev next
      let h ← h.setPrev next prev
      h.free it
    else
      listRemoveValueLoop h ll value n next

/-- `listRemoveValue`: a list has no more nodes than the heap. -/
def listRemoveValue (h : ListHeap) (ll value : Nat) : Option ListHeap := do
  listRemoveValueLoop h ll value (h.live.card + 1) (← h.getNext ll)

/-- `listMergePrepend`. -/
def listMergePrepend (h : ListHeap) (l1 l2 : Nat) : Option ListHeap := do
  let h1 ← h.getNext l1
  let h2 ← h.getNext l2
  let t2 ← h.getPrev l2
  let h ← h.setNext l1 h2
  let h ← h.setPrev h2 l1
  let h ← h.setNext t2 h1
  let h ← h.setPrev h1 t2
  -- assert(l1->value == NULL)
  if (← h.getValue l1) = 0 then h.free l2 else none

/-- `listMergeAppend`. -/
def listMergeAppend (h : ListHeap) (l1 l2 : Nat) : Option ListHeap := do
  let h1 ← h.getNext l1
  let t1 ← h.getPrev l1
  let h2 ← h.getNext l2
  let t2 ← h.getPrev l2
  let h ← h.setPrev h2 t1
  let h ← h.setNext (← h.getPrev h2) h1
  let h ← h.setNext t1 h2
  let h ← h.setNext t2 l1
  let h ← h.setPrev l1 t2
  -- assert(l1->value == NULL)
  if (← h.getValue l1) = 0 then h.free l2 else none

/-- The loop of `listCopy`, with a bound on its turns. -/
def listCopyLoop (l cpy : Nat) : Nat → ListHeap → Nat → Option ListHeap
  | 0, _, _ => none
  | n + 1, h, it => do
    if it = l then
      return h
    let h ← listAppend malloc h cpy (← h.getValue it)
    listCopyLoop l cpy n h (← h.getNext it)

/-- `listCopy`. -/
def listCopy (h : ListHeap) (l : Nat) : Option (ListHeap × Nat) := do
  let new := listNew malloc h
  let cpy := new.2
  let h ← listCopyLoop malloc l cpy (h.live.card + 1) new.1 (← new.1.getNext l)
  return (h, cpy)

end Operations

/-! ### Runs -/

/-- A call on lists that are held by variables. -/
inductive ListOp where
  | new (x : Nat)
  | append (x value : Nat)
  | prepend (x value : Nat)
  | pop (x : Nat)
  | deque (x : Nat)
  /-- Insertion before the node at a position, or before the sentinel behind the last one. -/
  | insertValueBefore (x pos value : Nat)
  | removeValue (x value : Nat)
  | copy (x y : Nat)
  | mergeAppend (x y : Nat)
  | mergePrepend (x y : Nat)

/-- A heap, and the lists that variables hold. -/
structure ListState where
  heap : ListHeap
  vars : Nat → Nat

/-- The node some steps behind another. -/
def ListHeap.walkTo (h : ListHeap) : Nat → Nat → Option Nat
  | 0, it => some it
  | n + 1, it => do h.walkTo n (← h.getNext it)

/-- A call, which answers the value that it takes from a list. -/
def listStep (malloc : ListMalloc) (s : ListState) : ListOp → Option (ListState × Option Nat)
  | .new x =>
    let new := listNew malloc s.heap
    some (⟨new.1, Function.update s.vars x new.2⟩, none)
  | .append x value => do
    let h ← listAppend malloc s.heap (s.vars x) value
    return (⟨h, s.vars⟩, none)
  | .prepend x value => do
    let h ← listPrepend malloc s.heap (s.vars x) value
    return (⟨h, s.vars⟩, none)
  | .pop x => do
    let r ← listPop s.heap (s.vars x)
    return (⟨r.1, s.vars⟩, some r.2)
  | .deque x => do
    let r ← listDeque s.heap (s.vars x)
    return (⟨r.1, s.vars⟩, some r.2)
  | .insertValueBefore x pos value => do
    let it ← s.heap.walkTo (pos + 1) (s.vars x)
    let h ← listInsertValueBefore malloc s.heap it value
    return (⟨h, s.vars⟩, none)
  | .removeValue x value => do
    let h ← listRemoveValue s.heap (s.vars x) value
    return (⟨h, s.vars⟩, none)
  | .copy x y => do
    let r ← listCopy malloc s.heap (s.vars x)
    return (⟨r.1, Function.update s.vars y r.2⟩, none)
  | .mergeAppend x y => do
    let h ← listMergeAppend s.heap (s.vars x) (s.vars y)
    return (⟨h, s.vars⟩, none)
  | .mergePrepend x y => do
    let h ← listMergePrepend s.heap (s.vars x) (s.vars y)
    return (⟨h, s.vars⟩, none)

/-- The sequences that variables hold. -/
abbrev Sequences := Nat → Option (List Nat)

namespace Sequences

/-- The sequence that a variable holds. -/
def get (A : Sequences) (x : Nat) : List Nat := (A x).getD []

/-- The sequences with that of a variable replaced. -/
def put (A : Sequences) (x : Nat) (xs : List Nat) : Sequences := Function.update A x (some xs)

/-- The sequences without that of a variable. -/
def drop (A : Sequences) (x : Nat) : Sequences := Function.update A x none

/-- The same call on sequences. -/
def step (A : Sequences) : ListOp → Sequences
  | .new x => A.put x []
  | .append x value => A.put x (A.get x ++ [value])
  | .prepend x value => A.put x (value :: A.get x)
  | .pop x => A.put x (A.get x).dropLast
  | .deque x => A.put x (A.get x).tail
  | .insertValueBefore x pos value => A.put x ((A.get x).insertIdx pos value)
  | .removeValue x value => A.put x ((A.get x).erase value)
  | .copy x y => A.put y (A.get x)
  | .mergeAppend x y => (A.drop y).put x (A.get x ++ A.get y)
  | .mergePrepend x y => (A.drop y).put x (A.get y ++ A.get x)

/-- What the same call on sequences answers. -/
def answer (A : Sequences) : ListOp → Option Nat
  | .pop x => some ((A.get x).getLastD 0)
  | .deque x => some ((A.get x).headD 0)
  | _ => none

/-- A call is of lists that there are, and a new list is held by a variable that holds none. -/
def Calls (A : Sequences) : ListOp → Prop
  | .new x => A x = none
  | .append x _ | .prepend x _ | .pop x | .deque x | .removeValue x _ => A x ≠ none
  | .insertValueBefore x pos _ => A x ≠ none ∧ pos ≤ (A.get x).length
  | .copy x y => A x ≠ none ∧ A y = none
  | .mergeAppend x y | .mergePrepend x y => A x ≠ none ∧ A y ≠ none ∧ x ≠ y

/-- A list that is merged into another is not empty. -/
def MergesNonempty (A : Sequences) : ListOp → Prop
  | .mergeAppend _ y | .mergePrepend _ y => A.get y ≠ []
  | _ => True

end Sequences

/-- The values of a list from a node on, by one of its two links. -/
def ListHeap.walkValues (h : ListHeap) (link : Nat → Option Nat) (l : Nat) :
    Nat → Nat → Option (List Nat)
  | 0, _ => none
  | n + 1, it => do
    if it = l then
      return []
    let value ← h.getValue it
    let values ← h.walkValues link l n (← link it)
    return value :: values

/-- A list is a ring of nodes that are allocated, from its sentinel on, and has some values both
ways. -/
structure ListHeap.Looks (h : ListHeap) (l : Nat) (xs : List Nat) : Prop where
  /-- The nodes are a ring, with no node twice, and none is freed. -/
  ring : ∃ nodes : List Nat, nodes.length = xs.length ∧ h.Walk (l :: nodes ++ [l])
    ∧ ∀ a ∈ l :: nodes, a ∈ h.live
  /-- The values forwards. -/
  forwards : ∃ a, h.getNext l = some a ∧ h.walkValues h.getNext l (xs.length + 1) a = some xs
  /-- The values backwards. -/
  backwards : ∃ a, h.getPrev l = some a
    ∧ h.walkValues h.getPrev l (xs.length + 1) a = some xs.reverse

/-- Every list looks like the sequence that its variable holds. -/
def ListState.Looks (s : ListState) (A : Sequences) : Prop :=
  ∀ x xs, A x = some xs → s.heap.Looks (s.vars x) xs

/-- Every call of a run succeeds with the answer of the sequences, and in every state the lists
are the sequences. -/
def ListsRefine (malloc : ListMalloc) (ops : List ListOp) : Prop :=
  Refinement.Follows (listStep malloc) Sequences.step (fun A op r => r = A.answer op)
    ListState.Looks ⟨ListHeap.empty, fun _ => 0⟩ (fun _ => none) ops

end Polyc
