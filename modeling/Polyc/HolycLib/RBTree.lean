import Polyc.Ir.Types
import Polyc.Lib.RedBlack

/-!
# The red-black tree of the library

Insertion, lookup and iteration of `set.HC`, on nodes with parent pointers.  Allocations succeed.
An access through `NULL`, a write to the sentinel, and a read of its members that were never set
are `none`, as is a loop that takes more turns than there are nodes; nodes have the colours and
the sides of the library, so that the mirrored branches are one.
-/

namespace Polyc

open RedBlack (Color Dir)

/-! ### The data -/

/-- A pointer to a node: `NULL`, `RB_SENTINAL`, or one that was allocated. -/
inductive RBPtr where
  | null
  | sentinal
  | node (i : Nat)
  deriving DecidableEq

/-- An `RBNode`; `left` and `right` are the children. -/
structure RBNode (K : Type) where
  key : K
  value : Word
  color : Color
  child : Dir → RBPtr
  parent : RBPtr

/-- An `RBTree` with the nodes that were allocated. -/
structure RBTree (K : Type) where
  root : RBPtr
  size : Nat
  heap : Nat → Option (RBNode K)
  next : Nat

/-- `RBTreeNew`. -/
def rbTreeNew (K : Type) : RBTree K :=
  { root := .sentinal, size := 0, heap := fun _ => none, next := 0 }

section RBTree

variable {K : Type}

namespace RBTree

/-- `n->color`. -/
def color (T : RBTree K) : RBPtr → Option Color
  | .null => none
  | .sentinal => some .black
  | .node i => (T.heap i).map RBNode.color

/-- `n->left` or `n->right`. -/
def child (T : RBTree K) (d : Dir) : RBPtr → Option RBPtr
  | .null => none
  | .sentinal => some .null
  | .node i => (T.heap i).map fun n => n.child d

/-- The node of a pointer whose other members are read. -/
def deref (T : RBTree K) : RBPtr → Option (RBNode K)
  | .node i => T.heap i
  | _ => none

/-- A member of a node is written. -/
def modify (T : RBTree K) (p : RBPtr) (f : RBNode K → RBNode K) : Option (RBTree K) :=
  match p with
  | .node i => (T.heap i).map fun n => { T with heap := Function.update T.heap i (some (f n)) }
  | _ => none

/-- `n->parent`. -/
def parent (T : RBTree K) (p : RBPtr) : Option RBPtr := (T.deref p).map RBNode.parent

/-- `n->color = color`. -/
def setColor (T : RBTree K) (p : RBPtr) (c : Color) : Option (RBTree K) :=
  T.modify p fun n => { n with color := c }

/-- `n->left = q` or `n->right = q`. -/
def setChild (T : RBTree K) (d : Dir) (p q : RBPtr) : Option (RBTree K) :=
  T.modify p fun n => { n with child := Function.update n.child d q }

/-- `n->parent = q`. -/
def setParent (T : RBTree K) (p q : RBPtr) : Option (RBTree K) :=
  T.modify p fun n => { n with parent := q }

/-- `n->value = value`. -/
def setValue (T : RBTree K) (p : RBPtr) (value : Word) : Option (RBTree K) :=
  T.modify p fun n => { n with value := value }

end RBTree

/-! ### Rotations -/

/-- `if (b != RB_SENTINAL) b->parent = x`. -/
def rbAdopt (T : RBTree K) (b x : RBPtr) : Option (RBTree K) :=
  if b ≠ .sentinal then T.setParent b x else some T

/-- The node `y` in the place of the node `x` below the parent of `x`. -/
def rbRelink (d : Dir) (T : RBTree K) (x y : RBPtr) : Option (RBTree K) := do
  let p ← T.parent x
  if p = .null then
    some { T with root := y }
  else do
    let c ← T.child d p
    if x = c then T.setChild d p y else T.setChild d.flip p y

/-- `RBLeftRot` and `RBRightRot`: the child on the other side goes up. -/
def rbRot (d : Dir) (T : RBTree K) (x : RBPtr) : Option (RBTree K) := do
  let y ← T.child d.flip x
  let b ← T.child d y
  let T ← T.setChild d.flip x b
  let b ← T.child d y
  let T ← rbAdopt T b x
  let p ← T.parent x
  let T ← T.setParent y p
  let T ← rbRelink d T x y
  let T ← T.setChild d y x
  T.setParent x y

/-- `RBLeftRot`. -/
def rbLeftRot : RBTree K → RBPtr → Option (RBTree K) := rbRot .left

/-- `RBRightRot`. -/
def rbRightRot : RBTree K → RBPtr → Option (RBTree K) := rbRot .right

/-! ### Insertion -/

/-- The branch of `RBInsertFixUp` where the uncle is red: the grandparent is next. -/
def rbRecolor (T : RBTree K) (y p g : RBPtr) : Option (RBTree K × RBPtr) := do
  let T ← T.setColor y .black
  let T ← T.setColor p .black
  let T ← T.setColor g .red
  some (T, g)

/-- The end of the branch where the uncle is black, and the parent is the child on the side
`d`: the parent goes up. -/
def rbRaise (d : Dir) (T : RBTree K) (z : RBPtr) : Option (RBTree K × RBPtr) := do
  let p ← T.parent z
  let T ← T.setColor p .black
  let g ← T.parent p
  let T ← T.setColor g .red
  let T ← rbRot d.flip T g
  some (T, z)

/-- The branch where the uncle is black: a node on the other side of its parent goes up first. -/
def rbRotate (d : Dir) (T : RBTree K) (z p : RBPtr) : Option (RBTree K × RBPtr) := do
  let c ← T.child d.flip p
  if z = c then do
    let T ← rbRot d T p
    rbRaise d T p
  else rbRaise d T z

/-- A turn of the loop of `RBInsertFixUp` for a node whose parent is red, up to the `break`. -/
def rbFixUpTurn (T : RBTree K) (z : RBPtr) : Option (RBTree K × RBPtr) := do
  let p ← T.parent z
  let g ← T.parent p
  let l ← T.child .left g
  let d := if p = l then Dir.left else Dir.right
  let y ← T.child d.flip g
  let c ← T.color y
  if c = .red then rbRecolor T y p g else rbRotate d T z p

/-- The loop of `RBInsertFixUp`. -/
def rbFixUpLoop : Nat → RBTree K → RBPtr → Option (RBTree K)
  | 0, _, _ => none
  | fuel + 1, T, z => do
    let p ← T.parent z
    let c ← T.color p
    if c = .red then do
      let r ← rbFixUpTurn T z
      if r.2 = r.1.root then some r.1 else rbFixUpLoop fuel r.1 r.2
    else some T

/-- `RBInsertFixUp`. -/
def rbInsertFixUp (T : RBTree K) (z : RBPtr) : Option (RBTree K) := do
  let T ← rbFixUpLoop (T.size + 1) T z
  T.setColor T.root .black

/-- The search of `RBTreeInsert`: `x` if the key is there, and `y` at the end. -/
def rbDescend (keyCmp : K → K → Int) (T : RBTree K) (key : K) :
    Nat → RBPtr → RBPtr → Option (RBPtr ⊕ RBPtr)
  | 0, _, _ => none
  | fuel + 1, x, y =>
    if x ≠ .sentinal then do
      let n ← T.deref x
      let cmp := keyCmp key n.key
      if cmp < 0 then do
        let l ← T.child .left x
        rbDescend keyCmp T key fuel l x
      else if cmp > 0 then do
        let r ← T.child .right x
        rbDescend keyCmp T key fuel r x
      else some (.inl x)
    else some (.inr y)

/-- `RBNodeNew`, and `z->parent = y`. -/
def rbNodeNew (T : RBTree K) (key : K) (value : Word) (y : RBPtr) : RBTree K :=
  { T with
    heap := Function.update T.heap T.next (some ⟨key, value, .red, fun _ => .sentinal, y⟩)
    next := T.next + 1 }

/-- The new node becomes the root, or a child of the last node of the search. -/
def rbLink (keyCmp : K → K → Int) (T : RBTree K) (key : K) (z y : RBPtr) : Option (RBTree K) :=
  if y = .null then some { T with root := z }
  else do
    let n ← T.deref y
    if keyCmp key n.key < 0 then T.setChild .left y z else T.setChild .right y z

/-- What `RBTreeInsert` does after the new node is linked and counted. -/
def rbFinish (T : RBTree K) (z : RBPtr) : Option (RBTree K) := do
  let p ← T.parent z
  if p = .null then T.setColor z .black
  else do
    let g ← T.parent p
    if g = .null then some T else rbInsertFixUp T z

/-- `RBTreeInsert`. -/
def rbTreeInsert (keyCmp : K → K → Int) (T : RBTree K) (key : K) (value : Word) :
    Option (RBTree K) := do
  let r ← rbDescend keyCmp T key (T.size + 1) T.root .null
  match r with
  | .inl x => T.setValue x value
  | .inr y => do
    let z := RBPtr.node T.next
    let T ← rbLink keyCmp (rbNodeNew T key value y) key z y
    rbFinish { T with size := T.size + 1 } z

/-! ### Lookup -/

/-- `RBNodeFind`. -/
def rbNodeFind (keyCmp : K → K → Int) (T : RBTree K) (key : K) : Nat → RBPtr → Option RBPtr
  | 0, _ => none
  | fuel + 1, cur =>
    if cur ≠ .null ∧ cur ≠ .sentinal then do
      let n ← T.deref cur
      let cmp := keyCmp key n.key
      if cmp = 0 then some cur
      else if cmp < 0 then do
        let l ← T.child .left cur
        rbNodeFind keyCmp T key fuel l
      else do
        let r ← T.child .right cur
        rbNodeFind keyCmp T key fuel r
    else some .null

/-- `RBTreeGet`. -/
def rbTreeGet (keyCmp : K → K → Int) (T : RBTree K) (key : K) : Option Word := do
  let n ← rbNodeFind keyCmp T key (T.size + 1) T.root
  if n ≠ .null then (T.deref n).map RBNode.value else some 0

/-- `RBTreeHas`. -/
def rbTreeHas (keyCmp : K → K → Int) (T : RBTree K) (key : K) : Option Bool := do
  let n ← rbNodeFind keyCmp T key (T.size + 1) T.root
  some (n ≠ .null)

/-! ### Iteration -/

/-- An `RBIter`: the stack from the top down, and how many entries were allocated for it. -/
structure RBIter where
  stack : List RBPtr
  allocated : Nat
  deriving DecidableEq

/-- The loops that push a node and its left descendants; a push past the end is `none`. -/
def rbPushLeft (T : RBTree K) : Nat → RBIter → RBPtr → Option RBIter
  | 0, _, _ => none
  | fuel + 1, it, node =>
    if node ≠ .null ∧ node ≠ .sentinal then
      if it.stack.length < it.allocated then do
        let l ← T.child .left node
        rbPushLeft T fuel { it with stack := node :: it.stack } l
      else none
    else some it

/-- `RBIterNew`. -/
def rbIterNew (T : RBTree K) : Option RBIter :=
  rbPushLeft T (T.size + 1) ⟨[], T.size⟩ T.root

/-- `RBIterNext`. -/
def rbIterNext (T : RBTree K) (it : RBIter) : Option (RBIter × RBPtr) :=
  match it.stack with
  | [] => some (it, .null)
  | node :: stack => do
    let r ← T.child .right node
    let it ← rbPushLeft T (T.size + 1) { it with stack := stack } r
    some (it, node)

/-- The keys and values of the nodes that at most some calls of `RBIterNext` yield, up to the one
that returns `NULL`. -/
def rbYields (T : RBTree K) : Nat → RBIter → Option (List (K × Word))
  | 0, _ => none
  | fuel + 1, it => do
    let r ← rbIterNext T it
    if r.2 = .null then some []
    else do
      let n ← T.deref r.2
      let rest ← rbYields T fuel r.1
      some ((n.key, n.value) :: rest)

/-- A full iteration. -/
def rbIterate (T : RBTree K) : Option (List (K × Word)) := do
  let it ← rbIterNew T
  rbYields T (T.size + 1) it

end RBTree

end Polyc
