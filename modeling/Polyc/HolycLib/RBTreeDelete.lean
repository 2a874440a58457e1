import Polyc.HolycLib.RBTreeCorrect

/-!
# Deletion from the red-black tree

`RBTreeDelete` and what it calls.  The search of the key compares with the key of `x`, which is
`NULL` all along, so that no deletion from a tree that was built gets past its first comparison.
-/

namespace Polyc

open RedBlack (Color Dir Balanced)

section RBTree

variable {K : Type}

/-! ### The operations -/

/-- `RBTransplant`. -/
def rbTransplant (T : RBTree K) (u v : RBPtr) : Option (RBTree K) := do
  let p ← T.parent u
  let T ←
    if p = .null then some { T with root := v }
    else do
      let l ← T.child .left p
      if u = l then T.setChild .left p v else T.setChild .right p v
  T.setParent v p

/-- `RBNodeMin`. -/
def rbNodeMin (T : RBTree K) : Nat → RBPtr → Option RBPtr
  | 0, _ => none
  | fuel + 1, n =>
    if n = .null then some n
    else do
      let l ← T.child .left n
      if l = .null then some n else rbNodeMin T fuel l

/-- The first branch of a turn of `RBTreeFixDelete`, where the sibling `w` of `x` is red: the
sibling and the parent get new colours, and the parent is rotated down. -/
def rbFixDeleteRed (d : Dir) (wColor pColor : Color) (T : RBTree K) (x w : RBPtr) :
    Option (RBTree K × RBPtr) := do
  let T ← T.setColor w wColor
  let p ← T.parent x
  let T ← T.setColor p pColor
  let T ← rbRot d T p
  let p ← T.parent x
  let w ← T.child d.flip p
  some (T, w)

/-- The last branch of a turn: a child of the sibling is red, and goes up if it is the near one;
then the sibling goes up, and the loop ends with the root. -/
def rbFixDeleteRaise (d : Dir) (T : RBTree K) (x w : RBPtr) : Option (RBTree K × RBPtr) := do
  let far ← T.child d.flip w
  let cFar ← T.color far
  let (T, w) ←
    if cFar = .black then do
      let near ← T.child d w
      let T ← T.setColor near .black
      let T ← T.setColor w .red
      let T ← rbRot d.flip T w
      let p ← T.parent x
      let w ← T.child d.flip p
      some (T, w)
    else some (T, w)
  let p ← T.parent x
  let cParent ← T.color p
  let T ← T.setColor w cParent
  let T ← T.setColor p .black
  let far ← T.child d.flip w
  let T ← T.setColor far .black
  let T ← rbRot d T p
  some (T, T.root)

/-- A turn of the loop of `RBTreeFixDelete` for a node on a side of its parent. -/
def rbFixDeleteSide (d : Dir) (wColor pColor : Color) (T : RBTree K) (x : RBPtr) :
    Option (RBTree K × RBPtr) := do
  let p ← T.parent x
  let w ← T.child d.flip p
  let c ← T.color w
  let (T, w) ← if c = .red then rbFixDeleteRed d wColor pColor T x w else some (T, w)
  let near ← T.child d w
  let cNear ← T.color near
  let far ← T.child d.flip w
  let cFar ← T.color far
  if cNear = .black ∧ cFar = .black then do
    let T ← T.setColor w .red
    let p ← T.parent x
    some (T, p)
  else rbFixDeleteRaise d T x w

/-- A turn for a left child: a red sibling becomes black, and the parent red. -/
def rbFixDeleteLeft : RBTree K → RBPtr → Option (RBTree K × RBPtr) :=
  rbFixDeleteSide .left .black .red

/-- A turn for a right child: a red sibling stays red, and the parent becomes black. -/
def rbFixDeleteRight : RBTree K → RBPtr → Option (RBTree K × RBPtr) :=
  rbFixDeleteSide .right .red .black

/-- The loop of `RBTreeFixDelete`. -/
def rbFixDeleteLoop : Nat → RBTree K → RBPtr → Option (RBTree K × RBPtr)
  | 0, _, _ => none
  | fuel + 1, T, x =>
    if x ≠ .null ∧ x ≠ T.root then do
      let c ← T.color x
      if c = .black then do
        let p ← T.parent x
        let l ← T.child .left p
        let (T, x) ← if x = l then rbFixDeleteLeft T x else rbFixDeleteRight T x
        rbFixDeleteLoop fuel T x
      else some (T, x)
    else some (T, x)

/-- `RBTreeFixDelete`. -/
def rbTreeFixDelete (T : RBTree K) (x : RBPtr) : Option (RBTree K) := do
  let (T, x) ← rbFixDeleteLoop (T.size + 1) T x
  T.setColor x .black

/-- The search of `RBTreeDelete` from `cur` on: what `z` is at its end.  The key that is compared
is that of `x`, which the loop does not write, and `cur` stays when the keys are the same. -/
def rbDeleteSearch (keyCmp : K → K → Int) (T : RBTree K) (key : K) (x : RBPtr) :
    Nat → RBPtr → RBPtr → Option RBPtr
  | 0, _, _ => none
  | fuel + 1, cur, z =>
    if cur = .null then some z
    else do
      let n ← T.deref x
      let cmp := keyCmp key n.key
      if cmp = 0 then rbDeleteSearch keyCmp T key x fuel cur cur
      else if cmp > 0 then do
        let r ← T.child .right cur
        rbDeleteSearch keyCmp T key x fuel r z
      else do
        let l ← T.child .left cur
        rbDeleteSearch keyCmp T key x fuel l z

/-- The node `z` with two children is replaced by the least node `y` to its right: the tree, the
colour that `y` had, and `x`. -/
def rbSplice (T : RBTree K) (z zRight : RBPtr) : Option (RBTree K × Color × RBPtr) := do
  let y ← rbNodeMin T (T.size + 1) zRight
  let originalColor ← T.color y
  let x ← T.child .right y
  let T ←
    if y ≠ zRight then do
      let T ← rbTransplant T y x
      let r ← T.child .right z
      let T ← T.setChild .right y r
      T.setParent r y
    else T.setParent x y
  let T ← rbTransplant T z y
  let l ← T.child .left z
  let T ← T.setChild .left y l
  let T ← T.setParent l y
  let c ← T.color z
  let T ← T.setColor y c
  some (T, originalColor, x)

/-- `RBTreeDelete` takes the node `z` out. -/
def rbUnlink (T : RBTree K) (z : RBPtr) : Option (RBTree K × Color × RBPtr) := do
  let originalColor ← T.color z
  let l ← T.child .left z
  let r ← T.child .right z
  if l = .null then do
    let T ← rbTransplant T z r
    some (T, originalColor, r)
  else if r = .null then do
    let T ← rbTransplant T z l
    some (T, originalColor, l)
  else rbSplice T z r

/-- `RBNodeRelease`, without the functions that free the key and the value. -/
def rbNodeRelease (T : RBTree K) : RBPtr → RBTree K
  | .node i => { T with heap := Function.update T.heap i none }
  | _ => T

/-- `RBTreeDelete`. -/
def rbTreeDelete (keyCmp : K → K → Int) (T : RBTree K) (key : K) : Option (RBTree K) := do
  let x := RBPtr.null
  let z ← rbDeleteSearch keyCmp T key x (T.size + 1) T.root .null
  if z = .null then some T
  else do
    let (T, originalColor, x) ← rbUnlink T z
    let T ← if originalColor = .black then rbTreeFixDelete T x else some T
    let T := rbNodeRelease T z
    some { T with size := T.size - 1 }

/-! ### What a deletion is for -/

/-- After some insertions a deletion leaves a balanced sorted tree with a black root; its key is
not found any more, every other key has its value, and the size is one less if the key was
there. -/
def RBTreeDeletes [LinearOrder K] (keyCmp : K → K → Int) (kvs : List (K × Word)) (key : K) : Prop :=
  ∃ T T' t, rbTreeRun keyCmp kvs = some T ∧ rbTreeDelete keyCmp T key = some T'
    ∧ T'.At [] t ∧ Sorted t.toList ∧ (∃ n, Balanced t .black n)
    ∧ (∀ k, rbTreeHas keyCmp T' k = some (k ≠ key && (lastInserted kvs k).isSome))
    ∧ (∀ k, k ≠ key → rbTreeGet keyCmp T' k = some ((lastInserted kvs k).getD 0))
    ∧ T.size = T'.size + if (lastInserted kvs key).isSome then 1 else 0

/-- A search that compares with the key of `NULL` fails, wherever it starts. -/
theorem rbDeleteSearch_null (keyCmp : K → K → Int) (T : RBTree K) (key : K) (fuel : Nat)
    {cur : RBPtr} (hcur : cur ≠ .null) (z : RBPtr) :
  rbDeleteSearch keyCmp T key .null fuel cur z = none
  := by
  cases fuel with
  | zero => rfl
  | succ fuel =>
    rw [rbDeleteSearch, if_neg hcur]
    rfl

variable [LinearOrder K] {keyCmp : K → K → Int}

/-- A deletion from a tree that was built reads a key through `NULL`. -/
theorem rbTreeDelete_eq_none (hcmp : KeyCmp keyCmp) {kvs : List (K × Word)} {T : RBTree K}
    (hrun : rbTreeRun keyCmp kvs = some T) (key : K) :
  rbTreeDelete keyCmp T key = none
  := by
  obtain ⟨T', t, hrun', hvalid⟩ := rbTreeRun_valid hcmp kvs
  obtain rfl : T = T' := Option.some.inj (hrun.symm.trans hrun')
  have hroot : T.root ≠ .null := by
    rw [show T.root = ptr t from hvalid.nodes.root]
    cases t <;> apply RBPtr.noConfusion
  rw [rbTreeDelete, rbDeleteSearch_null keyCmp T key _ hroot]
  rfl

/-- A deletion never does what it is for, whatever was inserted and whatever the key. -/
theorem not_rbTreeDeletes (hcmp : KeyCmp keyCmp) (kvs : List (K × Word)) (key : K) :
  ¬ RBTreeDeletes keyCmp kvs key
  := by
  rintro ⟨T, T', -, hrun, hdelete, -⟩
  rw [rbTreeDelete_eq_none hcmp hrun] at hdelete
  cases hdelete

end RBTree

/-- Numbers compare by their difference. -/
theorem keyCmp_sub :
  KeyCmp fun a b : Int => a - b
  := by
  intro a b
  constructor
  · constructor
    · apply Int.lt_of_sub_neg
    · apply Int.sub_neg_of_lt
  · apply Int.sub_eq_zero

/-- It does not for a key that was not inserted. -/
theorem not_rbTreeDeletes_three :
  ¬ RBTreeDeletes (fun a b : Int => a - b) [(3, 30), (1, 10), (2, 20)] 7
  := not_rbTreeDeletes keyCmp_sub [(3, 30), (1, 10), (2, 20)] 7

/-- The deletion of the only key reads through `NULL`. -/
theorem not_rbTreeDeletes_one :
  ¬ RBTreeDeletes (fun a b : Int => a - b) [(3, 30)] 3
  := by
  rintro ⟨T, T', -, hrun, hdelete, -⟩
  have hroot : T.root = .node 0 := by
    cases hrun
    rfl
  rw [rbTreeDelete, hroot, rbDeleteSearch_null _ T 3 _ (by simp)] at hdelete
  cases hdelete

end Polyc
