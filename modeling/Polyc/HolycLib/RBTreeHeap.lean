import Polyc.HolycLib.RBTree
import Mathlib.Logic.Function.Basic
import Mathlib.Data.List.Nodup

/-!
# Trees on nodes with parent pointers

When the nodes are those of a tree with a hole and of a subtree in it, and what the rotations
and the writes of members do to that tree.
-/

namespace Polyc

open RedBlack

/-- What is in a node: its number, its key and its value. -/
abbrev RBEntry (K : Type) := Nat × K × Word

section RBTree

variable {K : Type}

/-! ### Representation -/

/-- The pointer to a tree. -/
def ptr : CTree (RBEntry K) → RBPtr
  | .nil => .sentinal
  | .node _ _ a _ => .node a.1

/-- The numbers of the nodes of a tree. -/
def ids (t : CTree (RBEntry K)) : List Nat := t.toList.map Prod.fst

/-- The children, by the one on a side and the one on the other. -/
def sides (d : Dir) (near far : RBPtr) : Dir → RBPtr := fun e => if e = d then near else far

/-- The nodes of a tree below a parent. -/
def Rep (h : Nat → Option (RBNode K)) : RBPtr → CTree (RBEntry K) → Prop
  | _, .nil => True
  | p, .node c l a r => h a.1 = some ⟨a.2.1, a.2.2, c, sides .left (ptr l) (ptr r), p⟩
      ∧ Rep h (.node a.1) l ∧ Rep h (.node a.1) r

/-- The node above a hole. -/
def ctxPtr : List (Frame (RBEntry K)) → RBPtr
  | [] => .null
  | f :: _ => .node f.val.1

/-- The nodes of the frames around a hole with a child in it. -/
def RepCtx (h : Nat → Option (RBNode K)) : RBPtr → List (Frame (RBEntry K)) → Prop
  | _, [] => True
  | q, f :: fs =>
    h f.val.1 = some ⟨f.val.2.1, f.val.2.2, f.color, sides f.dir q (ptr f.sib), ctxPtr fs⟩
      ∧ Rep h (.node f.val.1) f.sib ∧ RepCtx h (.node f.val.1) fs

/-- The numbers of the nodes of frames. -/
def ctxIds : List (Frame (RBEntry K)) → List Nat
  | [] => []
  | f :: fs => f.val.1 :: (ids f.sib ++ ctxIds fs)

/-- The root, if a node is in the hole. -/
def rootOf : RBPtr → List (Frame (RBEntry K)) → RBPtr
  | q, [] => q
  | _, f :: fs => rootOf (.node f.val.1) fs

/-- The nodes are those of frames and of the subtree in their hole, all different. -/
structure RBTree.At (T : RBTree K) (fs : List (Frame (RBEntry K))) (t : CTree (RBEntry K)) : Prop where
  root : T.root = rootOf (ptr t) fs
  rep : Rep T.heap (ctxPtr fs) t
  ctx : RepCtx T.heap (ptr t) fs
  nodup : (ids t ++ ctxIds fs).Nodup

/-! ### Children -/

@[simp]
theorem sides_self (d : Dir) (near far : RBPtr) :
  sides d near far d = near
  := if_pos rfl

@[simp]
theorem sides_flip_self (d : Dir) (near far : RBPtr) :
  sides d near far d.flip = far
  := if_neg d.flip_ne

theorem sides_flip (d : Dir) (near far : RBPtr) :
  sides d.flip near far = sides d far near
  := by
  funext e
  cases d with
  | left => cases e <;> rfl
  | right => cases e <;> rfl

@[simp]
theorem update_sides (d : Dir) (near far q : RBPtr) :
  Function.update (sides d near far) d q = sides d q far
  := by
  funext e
  by_cases he : e = d
  · rw [he, Function.update_self, sides_self]
  · rw [Function.update_of_ne he, sides, sides, if_neg he, if_neg he]

@[simp]
theorem update_sides_flip (d : Dir) (near far q : RBPtr) :
  Function.update (sides d near far) d.flip q = sides d near q
  := by rw [← sides_flip, update_sides, sides_flip]

/-! ### Nodes built from their sides -/

variable {h h' : Nat → Option (RBNode K)} {p : RBPtr} {d : Dir} {c : Color}
  {A B : CTree (RBEntry K)} {a : RBEntry K} {fs : List (Frame (RBEntry K))}

@[simp]
theorem ptr_on :
  ptr (.on d c A a B) = .node a.1
  := by cases d <;> rfl

theorem rep_on :
  Rep h p (.on d c A a B) ↔ h a.1 = some ⟨a.2.1, a.2.2, c, sides d (ptr A) (ptr B), p⟩
    ∧ Rep h (.node a.1) A ∧ Rep h (.node a.1) B
  := by
  cases d with
  | left => rfl
  | right =>
    have hsides : sides .right (ptr A) (ptr B) = sides .left (ptr B) (ptr A) := sides_flip .left _ _
    rw [hsides]
    show h a.1 = _ ∧ Rep h _ B ∧ Rep h _ A ↔ _
    rw [and_comm (a := Rep h _ B)]

theorem perm_ids_on :
  (ids (.on d c A a B)).Perm (a.1 :: (ids A ++ ids B))
  := by
  have hperm := (perm_on d c A a B).map Prod.fst
  rw [List.map_append, List.map_cons] at hperm
  apply hperm.trans List.perm_middle

theorem mem_ids_on {i : Nat} :
  i ∈ ids (.on d c A a B) ↔ i = a.1 ∨ i ∈ ids A ∨ i ∈ ids B
  := by rw [perm_ids_on.mem_iff, List.mem_cons, List.mem_append]

/-- The numbers in a node's subtrees and elsewhere are different, and from its own. -/
theorem nodup_on {R : List Nat} :
  (ids (.on d c A a B) ++ R).Nodup
    ↔ (a.1 ∉ ids A ∧ a.1 ∉ ids B ∧ a.1 ∉ R) ∧ (ids A ++ (ids B ++ R)).Nodup
  := by
  rw [(perm_ids_on.append_right R).nodup_iff, List.cons_append, List.nodup_cons, List.append_assoc,
    List.mem_append, List.mem_append, not_or, not_or]

/-! ### What does not change -/

theorem ptr_ne_node {t : CTree (RBEntry K)} {i : Nat} (hi : i ∉ ids t) :
  ptr t ≠ .node i
  := by
  cases t with
  | nil => simp [ptr]
  | node c l a r =>
    intro heq
    apply hi
    simp [ids, CTree.toList, ← RBPtr.node.inj heq]

theorem Rep.congr {t : CTree (RBEntry K)} (hr : Rep h p t) (heq : ∀ i ∈ ids t, h' i = h i) :
  Rep h' p t
  := by
  induction t generalizing p with
  | nil => trivial
  | node c l a r ihl ihr =>
    obtain ⟨ha, hl, hr⟩ := hr
    have hmem : ∀ i, i ∈ ids (.node c l a r) ↔ i = a.1 ∨ i ∈ ids l ∨ i ∈ ids r :=
      fun i => mem_ids_on (d := .left)
    refine ⟨?_, ihl hl ?_, ihr hr ?_⟩
    · rw [heq a.1 ((hmem _).mpr (.inl rfl)), ha]
    · intro i hi
      apply heq i ((hmem i).mpr (.inr (.inl hi)))
    · intro i hi
      apply heq i ((hmem i).mpr (.inr (.inr hi)))

theorem RepCtx.congr {q : RBPtr} (hr : RepCtx h q fs) (heq : ∀ i ∈ ctxIds fs, h' i = h i) :
  RepCtx h' q fs
  := by
  induction fs generalizing q with
  | nil => trivial
  | cons f fs ih =>
    obtain ⟨hf, hs, hr⟩ := hr
    refine ⟨?_, hs.congr ?_, ih hr ?_⟩
    · rw [heq f.val.1 List.mem_cons_self, hf]
    · intro i hi
      apply heq i (List.mem_cons_of_mem _ (List.mem_append_left _ hi))
    · intro i hi
      apply heq i (List.mem_cons_of_mem _ (List.mem_append_right _ hi))

/-! ### Members -/

variable {T : RBTree K} {i : Nat} {key : K} {value : Word} {ch : Dir → RBPtr} {q : RBPtr}

/-- The tree with other nodes. -/
def RBTree.withHeap (T : RBTree K) (h : Nat → Option (RBNode K)) : RBTree K := { T with heap := h }

section Node

variable (hi : T.heap i = some ⟨key, value, c, ch, q⟩)
include hi

theorem child_node (d : Dir) :
  T.child d (.node i) = some (ch d)
  := by rw [RBTree.child, hi, Option.map_some]

theorem parent_node :
  T.parent (.node i) = some q
  := by rw [RBTree.parent, RBTree.deref, hi, Option.map_some]

theorem color_node :
  T.color (.node i) = some c
  := by rw [RBTree.color, hi, Option.map_some]

theorem setChild_node (d : Dir) (r : RBPtr) :
  T.setChild d (.node i) r
    = some (T.withHeap (Function.update T.heap i
        (some ⟨key, value, c, Function.update ch d r, q⟩)))
  := by
  rw [RBTree.setChild, RBTree.modify, hi, Option.map_some]
  rfl

theorem setParent_node (r : RBPtr) :
  T.setParent (.node i) r
    = some (T.withHeap (Function.update T.heap i (some ⟨key, value, c, ch, r⟩)))
  := by
  rw [RBTree.setParent, RBTree.modify, hi, Option.map_some]
  rfl

theorem setColor_node (e : Color) :
  T.setColor (.node i) e
    = some (T.withHeap (Function.update T.heap i (some ⟨key, value, e, ch, q⟩)))
  := by
  rw [RBTree.setColor, RBTree.modify, hi, Option.map_some]
  rfl

theorem setValue_node (v : Word) :
  T.setValue (.node i) v
    = some (T.withHeap (Function.update T.heap i (some ⟨key, v, c, ch, q⟩)))
  := by
  rw [RBTree.setValue, RBTree.modify, hi, Option.map_some]
  rfl

end Node

/-! ### Rotations -/

/-- A subtree gets another parent. -/
theorem rbAdopt_rep
    {t : CTree (RBEntry K)} (hr : Rep T.heap p t) (hnodup : (ids t).Nodup) (i : Nat) :
  ∃ h', rbAdopt T (ptr t) (.node i) = some (T.withHeap h') ∧ Rep h' (.node i) t
    ∧ ∀ k, k ∉ ids t → h' k = T.heap k
  := by
  cases t with
  | nil => exact ⟨T.heap, rfl, trivial, fun _ _ => rfl⟩
  | node c l a r =>
    obtain ⟨ha, hl, hr⟩ := hr
    have hsplit := nodup_on (d := .left) (c := c) (A := l) (a := a) (B := r) (R := [])
    rw [List.append_nil, List.append_nil] at hsplit
    obtain ⟨⟨hal, har, -⟩, -⟩ := hsplit.mp hnodup
    refine ⟨_, setParent_node ha _, ⟨?_, hl.congr ?_, hr.congr ?_⟩, ?_⟩
    · rw [Function.update_self]
    · intro k hk
      apply Function.update_of_ne
      rintro rfl
      exact hal hk
    · intro k hk
      apply Function.update_of_ne
      rintro rfl
      exact har hk
    · intro k hk
      apply Function.update_of_ne
      rintro rfl
      exact hk ((mem_ids_on (d := .left)).mpr (.inl rfl))

/-- Another node comes into the hole. -/
theorem rbRelink_rep
    (hp : T.parent (.node i) = some (ctxPtr fs)) (hctx : RepCtx T.heap (.node i) fs)
    (hroot : T.root = rootOf (.node i) fs) (hnodup : (ctxIds fs).Nodup) (hi : i ∉ ctxIds fs)
    (d : Dir) (j : Nat) :
  ∃ h', rbRelink d T (.node i) (.node j)
      = some { T with root := rootOf (.node j) fs, heap := h' }
    ∧ RepCtx h' (.node j) fs ∧ ∀ k, k ∉ ctxIds fs → h' k = T.heap k
  := by
  cases fs with
  | nil =>
    refine ⟨T.heap, ?_, trivial, fun _ _ => rfl⟩
    rw [rbRelink, hp]
    rfl
  | cons f fs =>
    obtain ⟨hf, hs, hrest⟩ := hctx
    obtain ⟨hfresh, hnodup⟩ := List.nodup_cons.mp hnodup
    rw [List.mem_append, not_or] at hfresh
    have hisib : i ∉ ids f.sib := by
      intro hmem
      exact hi (List.mem_cons_of_mem _ (List.mem_append_left _ hmem))
    have hset : rbRelink d T (.node i) (.node j) = T.setChild f.dir (.node f.val.1) (.node j) := by
      rw [rbRelink, hp]
      show (T.child d (.node f.val.1)).bind (fun c => if RBPtr.node i = c
        then T.setChild d (.node f.val.1) (.node j)
        else T.setChild d.flip (.node f.val.1) (.node j)) = _
      by_cases hd : d = f.dir
      · have hchild := child_node hf d
        rw [hd, sides_self] at hchild
        rw [hd, hchild, Option.bind_some, if_pos rfl]
      · obtain rfl := Dir.eq_flip_of_ne hd
        have hchild := child_node hf f.dir.flip
        rw [sides_flip_self] at hchild
        rw [hchild, Option.bind_some, if_neg (ptr_ne_node hisib).symm, Dir.flip_flip]
    refine ⟨Function.update T.heap f.val.1
      (some ⟨f.val.2.1, f.val.2.2, f.color, sides f.dir (.node j) (ptr f.sib), ctxPtr fs⟩),
      ?_, ⟨?_, hs.congr ?_, hrest.congr ?_⟩, ?_⟩
    · have hsame : rootOf (.node j) (f :: fs) = T.root := hroot.symm
      rw [hset, hsame, setChild_node hf, update_sides]
      rfl
    · rw [Function.update_self]
    · intro k hk
      apply Function.update_of_ne
      rintro rfl
      exact hfresh.1 hk
    · intro k hk
      apply Function.update_of_ne
      rintro rfl
      exact hfresh.2 hk
    · intro k hk
      apply Function.update_of_ne
      rintro rfl
      exact hk List.mem_cons_self

/-- What a rotation does before it comes to the parent: the child that goes up gives its subtree
on the side to the other node, and has its parent. -/
theorem rbRot_lift
    {d : Dir} {c c' : Color} {A B C : CTree (RBEntry K)} {a b : RBEntry K}
    (hrep : Rep T.heap p (.on d c A a (.on d c' B b C))) (hab : a.1 ≠ b.1) (haB : a.1 ∉ ids B)
    (hbB : b.1 ∉ ids B) (hB : (ids B).Nodup) :
  ∃ h', rbRot d T (.node a.1) = ((rbRelink d (T.withHeap h') (.node a.1) (.node b.1)).bind fun T =>
      (T.setChild d (.node b.1) (.node a.1)).bind fun T => T.setParent (.node a.1) (.node b.1))
    ∧ h' a.1 = some ⟨a.2.1, a.2.2, c, sides d (ptr A) (ptr B), p⟩
    ∧ h' b.1 = some ⟨b.2.1, b.2.2, c', sides d (ptr B) (ptr C), p⟩
    ∧ Rep h' (.node a.1) B ∧ ∀ k, k ≠ a.1 → k ≠ b.1 → k ∉ ids B → h' k = T.heap k
  := by
  obtain ⟨ha, -, hy⟩ := rep_on.mp hrep
  obtain ⟨hb, hBrep, -⟩ := rep_on.mp hy
  rw [ptr_on] at ha
  have hchild := child_node ha d.flip
  rw [sides_flip_self] at hchild
  have hsub := child_node hb d
  rw [sides_self] at hsub
  have hset := setChild_node ha d.flip (ptr B)
  rw [update_sides_flip] at hset
  generalize hT₁ : Function.update T.heap a.1 (some ⟨a.2.1, a.2.2, c, sides d (ptr A) (ptr B), p⟩)
    = h₁ at hset
  have ha₁ : h₁ a.1 = some ⟨a.2.1, a.2.2, c, sides d (ptr A) (ptr B), p⟩ := by
    rw [← hT₁, Function.update_self]
  have hother₁ : ∀ k, k ≠ a.1 → h₁ k = T.heap k := by
    intro k hk
    rw [← hT₁, Function.update_of_ne hk]
  have hb₁ := (hother₁ b.1 hab.symm).trans hb
  have hsub₁ := child_node (T := T.withHeap h₁) hb₁ d
  rw [sides_self] at hsub₁
  have hB₁ : Rep (T.withHeap h₁).heap (.node b.1) B := by
    apply hBrep.congr
    intro k hk
    apply hother₁
    rintro rfl
    exact haB hk
  obtain ⟨h₂, hadopt, hB₂, hother₂⟩ := rbAdopt_rep hB₁ hB a.1
  have ha₂ := (hother₂ a.1 haB).trans ha₁
  have hb₂ := (hother₂ b.1 hbB).trans hb₁
  have hparent := parent_node (T := (T.withHeap h₁).withHeap h₂) ha₂
  have hsetp := setParent_node (T := (T.withHeap h₁).withHeap h₂) hb₂ p
  refine ⟨Function.update h₂ b.1 (some ⟨b.2.1, b.2.2, c', sides d (ptr B) (ptr C), p⟩), ?_, ?_,
    Function.update_self _ _ _, ?_, ?_⟩
  · rw [rbRot, hchild]
    show ((T.child d (.node b.1)).bind _) = _
    rw [hsub, Option.bind_some]
    show ((T.setChild d.flip (.node a.1) (ptr B)).bind _) = _
    rw [hset, Option.bind_some]
    show (((T.withHeap h₁).child d (.node b.1)).bind _) = _
    rw [hsub₁, Option.bind_some]
    show ((rbAdopt (T.withHeap h₁) (ptr B) (.node a.1)).bind _) = _
    rw [hadopt, Option.bind_some]
    show ((((T.withHeap h₁).withHeap h₂).parent (.node a.1)).bind _) = _
    rw [hparent, Option.bind_some]
    show ((((T.withHeap h₁).withHeap h₂).setParent (.node b.1) p).bind _) = _
    rw [hsetp, Option.bind_some]
    rfl
  · rw [Function.update_of_ne hab]
    apply ha₂
  · apply hB₂.congr
    intro k hk
    apply Function.update_of_ne
    rintro rfl
    exact hbB hk
  · intro k hka hkb hkB
    rw [Function.update_of_ne hkb]
    exact (hother₂ k hkB).trans (hother₁ k hka)

/-- A rotation of a tree in the hole. -/
theorem RBTree.At.rot
    {d : Dir} {c c' : Color} {A B C : CTree (RBEntry K)} {a b : RBEntry K}
    (h : T.At fs (.on d c A a (.on d c' B b C))) :
  ∃ T', rbRot d T (.node a.1) = some T' ∧ T'.At fs (.on d c' (.on d c A a B) b C)
    ∧ T'.size = T.size ∧ T'.next = T.next
  := by
  obtain ⟨-, hA, hy⟩ := rep_on.mp h.rep
  obtain ⟨-, -, hC⟩ := rep_on.mp hy
  obtain ⟨⟨haA, hay, haR⟩, hrest⟩ := nodup_on.mp h.nodup
  rw [mem_ids_on, not_or, not_or] at hay
  obtain ⟨hab, haB, haC⟩ := hay
  obtain ⟨-, hyR, hAy⟩ := List.nodup_append.mp hrest
  obtain ⟨⟨hbB, hbC, hbR⟩, hBCR⟩ := nodup_on.mp hyR
  obtain ⟨hBnodup, hCR, hB⟩ := List.nodup_append.mp hBCR
  obtain ⟨-, hRnodup, hCR⟩ := List.nodup_append.mp hCR
  have hmemA : ∀ k ∈ ids A, k ≠ a.1 ∧ k ≠ b.1 ∧ k ∉ ids B ∧ k ∉ ctxIds fs := by
    intro k hk
    have hk' : k ∉ ids (.on d c' B b C) ++ ctxIds fs := fun hmem => hAy k hk k hmem rfl
    rw [List.mem_append, mem_ids_on] at hk'
    simp only [not_or] at hk'
    refine ⟨?_, hk'.1.1, hk'.1.2.1, hk'.2⟩
    rintro rfl
    exact haA hk
  have hmemC : ∀ k ∈ ids C, k ≠ a.1 ∧ k ≠ b.1 ∧ k ∉ ids B ∧ k ∉ ctxIds fs := by
    intro k hk
    refine ⟨?_, ?_, fun hmem => hB k hmem k (List.mem_append_left _ hk) rfl,
      fun hmem => hCR k hk k hmem rfl⟩
    · rintro rfl
      exact haC hk
    · rintro rfl
      exact hbC hk
  obtain ⟨h₃, hrot, ha₃, hb₃, hB₃, hother₃⟩ := rbRot_lift h.rep hab haB hbB hBnodup
  have hR₃ : ∀ k ∈ ctxIds fs, h₃ k = T.heap k := by
    intro k hk
    apply hother₃
    · rintro rfl
      exact haR hk
    · rintro rfl
      exact hbR hk
    · intro hmem
      exact hB k hmem k (List.mem_append_right _ hk) rfl
  have hctx := h.ctx
  rw [ptr_on] at hctx
  have hroot := h.root
  rw [ptr_on] at hroot
  obtain ⟨h₄, hrelink, hctx₄, hother₄⟩ := rbRelink_rep (T := T.withHeap h₃)
    (parent_node (T := T.withHeap h₃) ha₃) (hctx.congr hR₃) hroot hRnodup haR d b.1
  have ha₄ := (hother₄ a.1 haR).trans ha₃
  have hb₄ := (hother₄ b.1 hbR).trans hb₃
  have hset₅ := setChild_node (T := { T.withHeap h₃ with root := rootOf (.node b.1) fs, heap := h₄ })
    hb₄ d (.node a.1)
  rw [update_sides] at hset₅
  have hset₆ := setParent_node (T := { T.withHeap h₃ with
      root := rootOf (.node b.1) fs
      heap := Function.update h₄ b.1
        (some ⟨b.2.1, b.2.2, c', sides d (.node a.1) (ptr C), ctxPtr fs⟩) })
    ((Function.update_of_ne hab _ _).trans ha₄) (.node b.1)
  have hkeep : ∀ k v w, k ≠ a.1 → k ≠ b.1 →
      Function.update (Function.update h₄ b.1 v) a.1 w k = h₄ k := by
    intro k v w hka hkb
    rw [Function.update_of_ne hka, Function.update_of_ne hkb]
  have hkeep₃ : ∀ k, k ≠ a.1 → k ≠ b.1 → k ∉ ids B → k ∉ ctxIds fs → h₄ k = T.heap k :=
    fun k hka hkb hkB hkR => (hother₄ k hkR).trans (hother₃ k hka hkb hkB)
  refine ⟨{ T with
      root := rootOf (.node b.1) fs
      heap := Function.update (Function.update h₄ b.1
        (some ⟨b.2.1, b.2.2, c', sides d (.node a.1) (ptr C), ctxPtr fs⟩)) a.1
        (some ⟨a.2.1, a.2.2, c, sides d (ptr A) (ptr B), .node b.1⟩) }, ?_,
    ⟨?_, rep_on.mpr ⟨?_, rep_on.mpr ⟨?_, ?_, ?_⟩, ?_⟩, ?_, ?_⟩, rfl, rfl⟩
  · rw [hrot, hrelink, Option.bind_some, hset₅, Option.bind_some]
    apply hset₆
  · rw [ptr_on]
  · rw [ptr_on]
    show Function.update _ a.1 _ b.1 = _
    rw [Function.update_of_ne (Ne.symm hab), Function.update_self]
  · apply Function.update_self
  · apply hA.congr
    intro k hk
    obtain ⟨hka, hkb, hkB, hkR⟩ := hmemA k hk
    exact (hkeep k _ _ hka hkb).trans (hkeep₃ k hka hkb hkB hkR)
  · apply hB₃.congr
    intro k hk
    have hka : k ≠ a.1 := by
      rintro rfl
      exact haB hk
    have hkb : k ≠ b.1 := by
      rintro rfl
      exact hbB hk
    exact (hkeep k _ _ hka hkb).trans
      (hother₄ k fun hmem => hB k hk k (List.mem_append_right _ hmem) rfl)
  · apply hC.congr
    intro k hk
    obtain ⟨hka, hkb, hkB, hkR⟩ := hmemC k hk
    exact (hkeep k _ _ hka hkb).trans (hkeep₃ k hka hkb hkB hkR)
  · rw [ptr_on]
    apply hctx₄.congr
    intro k hk
    apply hkeep
    · rintro rfl
      exact haR hk
    · rintro rfl
      exact hbR hk
  · rw [ids, ← toList_rotate d c c' c' c]
    apply h.nodup

/-! ### Moving the hole and writing nodes -/

/-- The hole can be moved to the node above it, and back. -/
theorem RBTree.at_cons {f : Frame (RBEntry K)} {t : CTree (RBEntry K)} :
  T.At (f :: fs) t ↔ T.At fs (.on f.dir f.color t f.val f.sib)
  := by
  have hnodup : (ids t ++ ctxIds (f :: fs)).Nodup
      ↔ (ids (.on f.dir f.color t f.val f.sib) ++ ctxIds fs).Nodup := by
    rw [nodup_on, ctxIds, List.perm_middle.nodup_iff, List.nodup_cons, List.mem_append,
      List.mem_append, not_or, not_or]
  constructor
  · intro h
    obtain ⟨hf, hs, hrest⟩ := h.ctx
    constructor
    case root =>
      rw [ptr_on]
      apply h.root
    case rep => exact rep_on.mpr ⟨hf, h.rep, hs⟩
    case ctx =>
      rw [ptr_on]
      apply hrest
    case nodup => apply hnodup.mp h.nodup
  · intro h
    obtain ⟨hf, ht, hs⟩ := rep_on.mp h.rep
    have hroot := h.root
    have hctx := h.ctx
    rw [ptr_on] at hroot hctx
    exact ⟨hroot, ht, ⟨hf, hs, hctx⟩, hnodup.mpr h.nodup⟩

/-- The colour or the value of the node in the hole is written. -/
theorem RBTree.At.write
    (h : T.At fs (.on d c A a B)) (e : Color) (v : Word) :
  (T.withHeap (Function.update T.heap a.1
      (some ⟨a.2.1, v, e, sides d (ptr A) (ptr B), ctxPtr fs⟩))).At fs
    (.on d e A (a.1, a.2.1, v) B)
  := by
  obtain ⟨ha, hA, hB⟩ := rep_on.mp h.rep
  obtain ⟨⟨haA, haB, haR⟩, hrest⟩ := nodup_on.mp h.nodup
  have hroot := h.root
  have hctx := h.ctx
  rw [ptr_on] at hroot hctx
  have hkeep : ∀ l : List Nat, a.1 ∉ l → ∀ k ∈ l, ∀ w, Function.update T.heap a.1 w k = T.heap k := by
    intro l hl k hk w
    apply Function.update_of_ne
    rintro rfl
    exact hl hk
  constructor
  case root =>
    rw [ptr_on]
    apply hroot
  case rep =>
    refine rep_on.mpr ⟨?_, hA.congr ?_, hB.congr ?_⟩
    · apply Function.update_self
    · intro k hk
      apply hkeep _ haA k hk
    · intro k hk
      apply hkeep _ haB k hk
  case ctx =>
    rw [ptr_on]
    apply hctx.congr
    intro k hk
    apply hkeep _ haR k hk
  case nodup => exact nodup_on.mpr ⟨⟨haA, haB, haR⟩, hrest⟩

/-- The colour of the node in the hole is set. -/
theorem RBTree.At.setColor (h : T.At fs (.on d c A a B)) (e : Color) :
  ∃ T', T.setColor (.node a.1) e = some T' ∧ T'.At fs (.on d e A a B)
    ∧ T'.size = T.size ∧ T'.next = T.next
  := ⟨_, setColor_node (rep_on.mp h.rep).1 e, h.write e a.2.2, rfl, rfl⟩

/-- The value of the node in the hole is set. -/
theorem RBTree.At.setValue (h : T.At fs (.on d c A a B)) (v : Word) :
  ∃ T', T.setValue (.node a.1) v = some T' ∧ T'.At fs (.on d c A (a.1, a.2.1, v) B)
    ∧ T'.size = T.size ∧ T'.next = T.next
  := ⟨_, setValue_node (rep_on.mp h.rep).1 v, h.write c v, rfl, rfl⟩

end RBTree

end Polyc
