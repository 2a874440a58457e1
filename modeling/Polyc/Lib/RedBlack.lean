import Mathlib.Data.List.Perm.Basic

/-!
# Red-black trees with a hole

Trees with coloured nodes, and frames that lead from a subtree up to the root.  A tree is
balanced when no red node has a red child and all paths to the leaves have as many black nodes;
frames leave a hole into which a balanced subtree of a certain black height fits.  Both sides
are treated as one: a node is built from what is on a side and what is on the other.
-/

namespace RedBlack

/-- The colour of a node. -/
inductive Color where
  | red
  | black
  deriving DecidableEq

/-- The side of a child. -/
inductive Dir where
  | left
  | right
  deriving DecidableEq

/-- The other side. -/
def Dir.flip : Dir → Dir
  | .left => .right
  | .right => .left

@[simp]
theorem Dir.flip_flip (d : Dir) :
  d.flip.flip = d
  := by cases d <;> rfl

theorem Dir.flip_ne (d : Dir) :
  d.flip ≠ d
  := by cases d <;> simp [flip]

theorem Dir.eq_flip_of_ne {d e : Dir} (h : e ≠ d) :
  e = d.flip
  := by
  cases d with
  | left =>
    cases e with
    | left => cases h rfl
    | right => rfl
  | right =>
    cases e with
    | left => rfl
    | right => cases h rfl

/-- A tree. -/
inductive CTree (α : Type) where
  | nil
  | node (color : Color) (left : CTree α) (val : α) (right : CTree α)
  deriving DecidableEq

/-- A node above a hole: the side of the hole, and what is on the other side. -/
structure Frame (α : Type) where
  dir : Dir
  color : Color
  val : α
  sib : CTree α
  deriving DecidableEq

variable {α : Type}

/-- A node with the subtree on a side, and the one on the other side. -/
def CTree.on (d : Dir) (c : Color) (near : CTree α) (a : α) (far : CTree α) : CTree α :=
  match d with
  | .left => .node c near a far
  | .right => .node c far a near

theorem CTree.on_flip (d : Dir) (c : Color) (near : CTree α) (a : α) (far : CTree α) :
  CTree.on d.flip c near a far = CTree.on d c far a near
  := by cases d <;> rfl

/-- The tree in which a subtree is put into the hole. -/
def plug : List (Frame α) → CTree α → CTree α
  | [], t => t
  | f :: fs, t => plug fs (.on f.dir f.color t f.val f.sib)

/-! ### In order -/

/-- The values from left to right. -/
def CTree.toList : CTree α → List α
  | .nil => []
  | .node _ l a r => l.toList ++ a :: r.toList

/-- The values to the left of the hole. -/
def before : List (Frame α) → List α
  | [] => []
  | f :: fs =>
    match f.dir with
    | .left => before fs
    | .right => before fs ++ f.sib.toList ++ [f.val]

/-- The values to the right of the hole. -/
def after : List (Frame α) → List α
  | [] => []
  | f :: fs =>
    match f.dir with
    | .left => f.val :: f.sib.toList ++ after fs
    | .right => after fs

theorem toList_plug (fs : List (Frame α)) (t : CTree α) :
  (plug fs t).toList = before fs ++ t.toList ++ after fs
  := by
  induction fs generalizing t with
  | nil => simp [plug, before, after]
  | cons f fs ih =>
    rw [plug, ih, before, after]
    cases f.dir with
    | left => simp [CTree.on, CTree.toList]
    | right => simp [CTree.on, CTree.toList]

/-- There are at least as many values around a hole as frames. -/
theorem length_le_around (fs : List (Frame α)) :
  fs.length ≤ (before fs).length + (after fs).length
  := by
  induction fs with
  | nil => apply Nat.zero_le
  | cons f fs ih =>
    rw [before, after, List.length_cons]
    cases f.dir with
    | left =>
      simp
      omega
    | right =>
      simp
      omega

/-- A rotation keeps the values in order. -/
theorem toList_rotate (d : Dir) (c c' e e' : Color) (A : CTree α) (a : α) (B : CTree α) (b : α)
    (C : CTree α) :
  (CTree.on d c A a (.on d c' B b C)).toList = (CTree.on d e (.on d e' A a B) b C).toList
  := by cases d <;> simp [CTree.on, CTree.toList]

/-- So does one to the other side. -/
theorem toList_raise (d : Dir) (c c' e e' : Color) (A : CTree α) (a : α) (B : CTree α) (b : α)
    (C : CTree α) :
  (CTree.on d e A a (.on d e' B b C)).toList = (CTree.on d c (.on d c' A a B) b C).toList
  := by cases d <;> simp [CTree.on, CTree.toList]

/-- And both, where the node that goes up is on the other side of its parent. -/
theorem toList_raise_inner (d : Dir) (c c' c'' e e' e'' : Color) (A : CTree α) (a : α) (B : CTree α)
    (z : α) (C : CTree α) (b : α) (D : CTree α) :
  (CTree.on d e (.on d e' A a B) z (.on d e'' C b D)).toList
    = (CTree.on d c (.on d.flip c' (.on d c'' B z C) a A) b D).toList
  := by cases d <;> simp [CTree.on, CTree.toList, Dir.flip]

/-- A node's values are those around its value. -/
theorem perm_on (d : Dir) (c : Color) (near : CTree α) (a : α) (far : CTree α) :
  (CTree.on d c near a far).toList.Perm (near.toList ++ a :: far.toList)
  := by
  cases d with
  | left => apply List.Perm.refl
  | right =>
    show (far.toList ++ a :: near.toList).Perm (near.toList ++ a :: far.toList)
    calc far.toList ++ a :: near.toList
      _ |>.Perm (a :: (far.toList ++ near.toList)) := List.perm_middle
      _ |>.Perm (a :: (near.toList ++ far.toList)) := (List.perm_append_comm).cons a
      _ |>.Perm (near.toList ++ a :: far.toList) := List.perm_middle.symm

/-! ### Balance -/

/-- No red node has a red child, and all paths to the leaves have as many black nodes; with the
colour of the root. -/
inductive Balanced : CTree α → Color → Nat → Prop where
  | nil : Balanced .nil .black 0
  | red {l r : CTree α} {n : Nat} (a : α) (hl : Balanced l .black n) (hr : Balanced r .black n) :
      Balanced (.node .red l a r) .red n
  | black {l r : CTree α} {c c' : Color} {n : Nat} (a : α) (hl : Balanced l c n)
      (hr : Balanced r c' n) : Balanced (.node .black l a r) .black (n + 1)

theorem Balanced.on_red
    {near far : CTree α} {n : Nat} (d : Dir) (a : α) (h : Balanced near .black n)
    (h' : Balanced far .black n) :
  Balanced (.on d .red near a far) .red n
  := by
  cases d with
  | left => exact .red a h h'
  | right => exact .red a h' h

theorem Balanced.on_black
    {near far : CTree α} {c c' : Color} {n : Nat} (d : Dir) (a : α) (h : Balanced near c n)
    (h' : Balanced far c' n) :
  Balanced (.on d .black near a far) .black (n + 1)
  := by
  cases d with
  | left => exact .black a h h'
  | right => exact .black a h' h

/-- The subtrees of a red node. -/
theorem Balanced.of_on_red
    {d : Dir} {near far : CTree α} {a : α} {c : Color} {n : Nat}
    (h : Balanced (.on d .red near a far) c n) :
  c = .red ∧ Balanced near .black n ∧ Balanced far .black n
  := by
  cases d with
  | left =>
    cases h with
    | red _ hl hr => exact ⟨rfl, hl, hr⟩
  | right =>
    cases h with
    | red _ hl hr => exact ⟨rfl, hr, hl⟩

/-- The subtrees of a black node. -/
theorem Balanced.of_on_black
    {d : Dir} {near far : CTree α} {a : α} {c : Color} {n : Nat}
    (h : Balanced (.on d .black near a far) c n) :
  c = .black ∧ ∃ m c₁ c₂, n = m + 1 ∧ Balanced near c₁ m ∧ Balanced far c₂ m
  := by
  cases d with
  | left =>
    cases h with
    | black _ hl hr => exact ⟨rfl, _, _, _, rfl, hl, hr⟩
  | right =>
    cases h with
    | black _ hl hr => exact ⟨rfl, _, _, _, rfl, hr, hl⟩

/-- A tree with a red root, built from a side. -/
theorem Balanced.exists_on {t : CTree α} {n : Nat} (h : Balanced t .red n) (d : Dir) :
  ∃ A a B, t = .on d .red A a B ∧ Balanced A .black n ∧ Balanced B .black n
  := by
  cases h with
  | red a hl hr =>
    cases d with
    | left => exact ⟨_, a, _, rfl, hl, hr⟩
    | right => exact ⟨_, a, _, rfl, hr, hl⟩

/-- The value of the root does not matter. -/
theorem Balanced.set_val
    {l r : CTree α} {a : α} {e c : Color} {n : Nat} (h : Balanced (.node e l a r) c n) (b : α) :
  Balanced (.node e l b r) c n
  := by
  cases h with
  | red _ hl hr => exact .red b hl hr
  | black _ hl hr => exact .black b hl hr

/-- The root made black. -/
def blacken : CTree α → CTree α
  | .nil => .nil
  | .node _ l a r => .node .black l a r

/-- A balanced tree stays so when its root is made black. -/
theorem Balanced.blacken {t : CTree α} {c : Color} {n : Nat} (h : Balanced t c n) :
  ∃ m, Balanced (blacken t) .black m
  := by
  cases h with
  | nil => exact ⟨0, .nil⟩
  | red a hl hr => exact ⟨_, .black a hl hr⟩
  | black a hl hr => exact ⟨_, .black a hl hr⟩

/-! ### Holes -/

/-- The frames leave a hole for a balanced subtree of a black height, whose root is black if the
node above is red; the hole of no frames is for a tree with a black root. -/
inductive Hole : List (Frame α) → Color → Nat → Prop where
  | root (n : Nat) : Hole [] .red n
  | red {f : Frame α} {fs : List (Frame α)} {n : Nat} (hf : f.color = .red)
      (hs : Balanced f.sib .black n) (h : Hole fs .black n) : Hole (f :: fs) .red n
  | black {f : Frame α} {fs : List (Frame α)} {n : Nat} {c p : Color} (hf : f.color = .black)
      (hs : Balanced f.sib c n) (h : Hole fs p (n + 1)) : Hole (f :: fs) .black n

/-- A subtree that fits gives a balanced tree. -/
theorem Hole.plug
    {fs : List (Frame α)} {p c : Color} {n : Nat} {t : CTree α} (h : Hole fs p n)
    (ht : Balanced t c n) (hc : p = .black ∨ c = .black) :
  ∃ m, Balanced (plug fs t) .black m
  := by
  induction h generalizing t c with
  | root n =>
    obtain rfl : c = .black := hc.resolve_left (by simp)
    exact ⟨n, ht⟩
  | @red f fs n hf hs h ih =>
    obtain rfl : c = .black := hc.resolve_left (by simp)
    rw [RedBlack.plug, hf]
    apply ih (.on_red f.dir f.val ht hs) (.inl rfl)
  | @black f fs n c' p hf hs h ih =>
    rw [RedBlack.plug, hf]
    apply ih (.on_black f.dir f.val ht hs) (.inr rfl)

/-- Going down to a child. -/
theorem Hole.down
    {fs : List (Frame α)} {p c e : Color} {n : Nat} {near far : CTree α} {a : α} {d : Dir}
    (h : Hole fs p n) (ht : Balanced (.on d e near a far) c n) (hc : p = .black ∨ c = .black) :
  ∃ c' n', Hole (⟨d, e, a, far⟩ :: fs) e n' ∧ Balanced near c' n' ∧ (e = .black ∨ c' = .black)
  := by
  cases e with
  | red =>
    obtain ⟨rfl, hnear, hfar⟩ := ht.of_on_red
    obtain rfl : p = .black := hc.resolve_right (by simp)
    exact ⟨.black, n, .red rfl hfar h, hnear, .inr rfl⟩
  | black =>
    obtain ⟨rfl, m, c₁, c₂, rfl, hnear, hfar⟩ := ht.of_on_black
    exact ⟨c₁, m, .black rfl hfar h, hnear, .inl rfl⟩

/-- A red node is not the root, and the node above it is black. -/
theorem Hole.two {f : Frame α} {fs : List (Frame α)} {n : Nat} (h : Hole (f :: fs) .red n) :
  f.color = .red ∧ Balanced f.sib .black n ∧ ∃ g gs, fs = g :: gs ∧ g.color = .black
    ∧ ∃ c p, Balanced g.sib c n ∧ Hole gs p (n + 1)
  := by
  cases h with
  | red hf hs h =>
    cases h with
    | black hg hgs hrest => exact ⟨hf, hs, _, _, rfl, hg, _, _, hgs, hrest⟩

/-- The colour of the node above the hole. -/
theorem Hole.color {f : Frame α} {fs : List (Frame α)} {p : Color} {n : Nat} (h : Hole (f :: fs) p n) :
  f.color = p
  := by
  cases h with
  | red hf _ _ => exact hf
  | black hf _ _ => exact hf

/-- The colour of the root. -/
def rootColor : CTree α → Color
  | .nil => .black
  | .node c _ _ _ => c

theorem Balanced.rootColor_eq {t : CTree α} {c : Color} {n : Nat} (h : Balanced t c n) :
  rootColor t = c
  := by cases h <;> rfl

end RedBlack
