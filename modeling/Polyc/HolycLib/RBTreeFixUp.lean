import Polyc.HolycLib.RBTreeHeap
import Mathlib.Tactic.Tauto

/-!
# The fix-up after an insertion

A turn of the loop for a red node below a red one either recolours and goes on from the
grandparent, or rotates and leaves a tree in which no red node has a red child.
-/

namespace Polyc

open RedBlack

section RBTree

variable {K : Type} {T : RBTree K} {fs : List (Frame (RBEntry K))} {f g : Frame (RBEntry K)}
  {t : CTree (RBEntry K)} {n : Nat} {p : Color}

/-- Two trees that differ in their nodes only. -/
structure RBTree.SameCount (T T' : RBTree K) : Prop where
  size : T'.size = T.size
  next : T'.next = T.next

theorem RBTree.SameCount.refl (T : RBTree K) : T.SameCount T := ⟨rfl, rfl⟩

theorem RBTree.SameCount.trans {T₁ T₂ T₃ : RBTree K} (h : T₁.SameCount T₂) (h' : T₂.SameCount T₃) :
  T₁.SameCount T₃
  := ⟨h'.size.trans h.size, h'.next.trans h.next⟩

/-- The hole can be moved to the root. -/
theorem RBTree.at_plug :
  T.At fs t ↔ T.At [] (plug fs t)
  := by
  induction fs generalizing t with
  | nil => rfl
  | cons f fs ih => rw [RBTree.at_cons, ih, plug]

/-- The colour behind the pointer to a tree. -/
theorem color_ptr {q : RBPtr} (h : Rep T.heap q t) :
  T.color (ptr t) = some (rootColor t)
  := by
  cases t with
  | nil => rfl
  | node c l a r => exact color_node h.1

/-- The parent behind the pointer to a tree that is not empty. -/
theorem parent_ptr {q : RBPtr} {d : Dir} {c : Color} {A B : CTree (RBEntry K)} {a : RBEntry K}
    (h : Rep T.heap q (.on d c A a B)) :
  T.parent (.node a.1) = some q
  := parent_node (rep_on.mp h).1

/-- The nodes of the frames are those around the hole. -/
theorem mem_ctxIds {i : Nat} :
  i ∈ ctxIds fs ↔ i ∈ (before fs ++ after fs).map Prod.fst
  := by
  induction fs with
  | nil => simp [ctxIds, before, after]
  | cons f fs ih =>
    rw [ctxIds, List.mem_cons, List.mem_append, ih, before, after]
    cases f.dir with
    | left =>
      simp only [ids, List.map_append, List.map_cons, List.mem_append, List.mem_cons]
      tauto
    | right =>
      simp only [ids, List.map_append, List.map_cons, List.map_nil, List.mem_append,
        List.mem_singleton]
      tauto

/-! ### A red uncle -/

/-- The parent and the uncle become black and the grandparent red. -/
theorem RBTree.At.recolor
    {d : Dir} {c c' c'' : Color} {P A B : CTree (RBEntry K)} {a b : RBEntry K} {S : CTree (RBEntry K)}
    {y : RBEntry K} {e : Dir}
    (h : T.At fs (.on d c (.on e c' P a S) b (.on d c'' A y B))) :
  ∃ T', rbRecolor T (.node y.1) (.node a.1) (.node b.1) = some (T', .node b.1)
    ∧ T'.At fs (.on d .red (.on e .black P a S) b (.on d .black A y B)) ∧ T.SameCount T'
  := by
  rw [← CTree.on_flip] at h
  obtain ⟨T₁, h₁, hat₁, hs₁, hn₁⟩ := (RBTree.at_cons (f := ⟨d.flip, c, b, .on e c' P a S⟩).mpr h).setColor .black
  have hat₁ := RBTree.at_cons.mp hat₁
  dsimp only at hat₁
  rw [CTree.on_flip] at hat₁
  obtain ⟨T₂, h₂, hat₂, hs₂, hn₂⟩ :=
    (RBTree.at_cons (f := ⟨d, c, b, .on d .black A y B⟩).mpr hat₁).setColor .black
  obtain ⟨T₃, h₃, hat₃, hs₃, hn₃⟩ := (RBTree.at_cons.mp hat₂).setColor .red
  refine ⟨T₃, ?_, hat₃, ⟨?_, ?_⟩⟩
  · rw [rbRecolor, h₁]
    show ((T₁.setColor (.node a.1) .black).bind _) = _
    rw [h₂, Option.bind_some]
    show ((T₂.setColor (.node b.1) .red).bind _) = _
    rw [h₃]
    rfl
  · rw [hs₃, hs₂, hs₁]
  · rw [hn₃, hn₂, hn₁]

/-! ### A black uncle -/

/-- The parent goes up, and the grandparent becomes its red child. -/
theorem RBTree.At.raise
    {d : Dir} {c c' e : Color} {A B S U : CTree (RBEntry K)} {a b z : RBEntry K}
    (h : T.At fs (.on d c (.on d c' (.on d e A z B) a S) b U)) :
  ∃ T', rbRaise d T (.node z.1) = some (T', .node z.1)
    ∧ T'.At fs (.on d .black (.on d e A z B) a (.on d .red S b U)) ∧ T.SameCount T'
  := by
  have hp := RBTree.at_cons (f := ⟨d, c, b, U⟩).mpr h
  have hz := RBTree.at_cons (f := ⟨d, c', a, S⟩).mpr hp
  have hzp : T.parent (.node z.1) = some (.node a.1) := parent_ptr hz.rep
  obtain ⟨T₁, h₁, hat₁, hs₁, hn₁⟩ := hp.setColor .black
  have hpg : T₁.parent (.node a.1) = some (.node b.1) := parent_ptr hat₁.rep
  have hat₁ := RBTree.at_cons.mp hat₁
  obtain ⟨T₂, h₂, hat₂, hs₂, hn₂⟩ := hat₁.setColor .red
  rw [← CTree.on_flip, ← CTree.on_flip d .black] at hat₂
  obtain ⟨T₃, h₃, hat₃, hs₃, hn₃⟩ := hat₂.rot
  rw [CTree.on_flip, CTree.on_flip] at hat₃
  refine ⟨T₃, ?_, hat₃, ⟨?_, ?_⟩⟩
  · rw [rbRaise, hzp]
    show ((T.setColor (.node a.1) .black).bind _) = _
    rw [h₁, Option.bind_some]
    show ((T₁.parent (.node a.1)).bind _) = _
    rw [hpg, Option.bind_some]
    show ((T₁.setColor (.node b.1) .red).bind _) = _
    rw [h₂, Option.bind_some]
    show ((rbRot d.flip T₂ (.node b.1)).bind _) = _
    rw [h₃]
    rfl
  · rw [hs₃, hs₂, hs₁]
  · rw [hn₃, hn₂, hn₁]

/-- A node on the side of its parent: the parent goes up. -/
theorem RBTree.At.rotate_outer
    {d : Dir} {c : Color} {A B S U : CTree (RBEntry K)} {a b z : RBEntry K}
    (h : T.At fs (.on d c (.on d .red (.on d .red A z B) a S) b U)) :
  ∃ T', rbRotate d T (.node z.1) (.node a.1) = some (T', .node z.1)
    ∧ T'.At fs (.on d .black (.on d .red A z B) a (.on d .red S b U)) ∧ T.SameCount T'
  := by
  have hp := RBTree.at_cons (f := ⟨d, c, b, U⟩).mpr h
  have hz := RBTree.at_cons (f := ⟨d, .red, a, S⟩).mpr hp
  have hchild := child_node (rep_on.mp hp.rep).1 d.flip
  rw [sides_flip_self] at hchild
  have hfresh : z.1 ∉ ids S := by
    obtain ⟨⟨-, -, hz⟩, -⟩ := nodup_on.mp hz.nodup
    rw [ctxIds, List.mem_cons, List.mem_append, not_or, not_or] at hz
    exact hz.2.1
  obtain ⟨T', hraise, hat, hsame⟩ := h.raise
  refine ⟨T', ?_, hat, hsame⟩
  rw [rbRotate, hchild]
  show (if RBPtr.node z.1 = ptr S then (rbRot d T (.node a.1)).bind (rbRaise d · (.node a.1))
    else rbRaise d T (.node z.1)) = _
  rw [if_neg (ptr_ne_node hfresh).symm]
  apply hraise

/-- A node on the other side of its parent: it goes up first, and then once more. -/
theorem RBTree.At.rotate_inner
    {d : Dir} {c : Color} {A B S U : CTree (RBEntry K)} {a b z : RBEntry K}
    (h : T.At fs (.on d c (.on d.flip .red (.on d .red A z B) a S) b U)) :
  ∃ T', rbRotate d T (.node z.1) (.node a.1) = some (T', .node a.1)
    ∧ T'.At fs (.on d .black (.on d .red S a A) z (.on d .red B b U)) ∧ T.SameCount T'
  := by
  have hp := RBTree.at_cons (f := ⟨d, c, b, U⟩).mpr h
  rw [CTree.on_flip] at hp
  have hchild := child_node (rep_on.mp hp.rep).1 d.flip
  rw [sides_flip_self, ptr_on] at hchild
  obtain ⟨T₁, hrot, hat₁, hs₁, hn₁⟩ := hp.rot
  obtain ⟨T', hraise, hat, hs, hn⟩ := (RBTree.at_cons.mp hat₁).raise
  refine ⟨T', ?_, hat, ⟨hs.trans hs₁, hn.trans hn₁⟩⟩
  rw [rbRotate, hchild]
  show (if RBPtr.node z.1 = .node z.1 then (rbRot d T (.node a.1)).bind (rbRaise d · (.node a.1))
    else rbRaise d T (.node z.1)) = _
  rw [if_pos rfl, hrot, Option.bind_some]
  apply hraise

/-- A red node below a red one and with a black uncle: the rotations leave a red node and a red
node as the children of a black one. -/
theorem RBTree.At.rotate
    {d e : Dir} {c : Color} {P S U : CTree (RBEntry K)} {a b : RBEntry K}
    (h : T.At fs (.on d c (.on e .red P a S) b U)) (hP : Balanced P .red n)
    (hS : Balanced S .black n) :
  ∃ T' X v Y, rbRotate d T (ptr P) (.node a.1) = some (T', ptr X)
    ∧ T'.At fs (.on d .black X v (.on d .red Y b U)) ∧ T.SameCount T'
    ∧ Balanced X .red n ∧ Balanced Y .black n
    ∧ (CTree.on d .black X v (.on d .red Y b U)).toList
      = (CTree.on d c (.on e .red P a S) b U).toList
  := by
  by_cases he : e = d
  · subst he
    obtain ⟨A, z, B, rfl, hA, hB⟩ := hP.exists_on e
    obtain ⟨T', hrotate, hat, hsame⟩ := h.rotate_outer
    refine ⟨T', .on e .red A z B, a, S, ?_, hat, hsame, .on_red e z hA hB, hS, ?_⟩
    · rw [ptr_on]
      apply hrotate
    · apply toList_raise
  · obtain rfl := Dir.eq_flip_of_ne he
    obtain ⟨A, z, B, rfl, hA, hB⟩ := hP.exists_on d
    obtain ⟨T', hrotate, hat, hsame⟩ := h.rotate_inner
    refine ⟨T', _, z, B, ?_, hat, hsame, .on_red d a hS hA, hB, ?_⟩
    · rw [ptr_on, ptr_on]
      apply hrotate
    · apply toList_raise_inner

/-! ### A turn -/

/-- What a turn sees: the side of the parent, and the uncle. -/
theorem rbFixUpTurn_eq
    {d e : Dir} {c c' : Color} {P S U : CTree (RBEntry K)} {a b : RBEntry K}
    (h : T.At fs (.on d c (.on e c' P a S) b U)) (hP : Balanced P .red n) :
  rbFixUpTurn T (ptr P)
    = if rootColor U = .red then rbRecolor T (ptr U) (.node a.1) (.node b.1)
      else rbRotate d T (ptr P) (.node a.1)
  := by
  have hp := RBTree.at_cons (f := ⟨d, c, b, U⟩).mpr h
  have hz := RBTree.at_cons (f := ⟨e, c', a, S⟩).mpr hp
  obtain ⟨hb, -, hU⟩ := rep_on.mp h.rep
  rw [ptr_on] at hb
  have hzp : T.parent (ptr P) = some (.node a.1) := by
    cases hP with
    | red z hl hr => apply parent_node hz.rep.1
  have hpg : T.parent (.node a.1) = some (.node b.1) := parent_ptr hp.rep
  have hfresh : a.1 ∉ ids U := by
    obtain ⟨⟨-, -, ha⟩, -⟩ := nodup_on.mp hp.nodup
    rw [ctxIds, List.mem_cons, List.mem_append, not_or, not_or] at ha
    exact ha.2.1
  have hdir : (if RBPtr.node a.1 = sides d (.node a.1) (ptr U) .left then Dir.left else .right)
      = d := by
    cases d with
    | left => rw [sides_self, if_pos rfl]
    | right =>
      have hleft := sides_flip_self .right (.node a.1) (ptr U)
      rw [Dir.flip] at hleft
      rw [hleft, if_neg (ptr_ne_node hfresh).symm]
  have huncle := child_node hb d.flip
  rw [sides_flip_self] at huncle
  rw [rbFixUpTurn, hzp]
  show ((T.parent (.node a.1)).bind _) = _
  rw [hpg, Option.bind_some]
  show ((T.child .left (.node b.1)).bind _) = _
  rw [child_node hb, Option.bind_some, hdir]
  show ((T.child d.flip (.node b.1)).bind _) = _
  rw [huncle, Option.bind_some]
  show ((T.color (ptr U)).bind _) = _
  rw [color_ptr hU]
  rfl

/-! ### The loop -/

/-- The root is a frame's node if there are frames. -/
theorem rootOf_mem {q : RBPtr} (hfs : fs ≠ []) :
  ∃ j ∈ ctxIds fs, rootOf q fs = .node j
  := by
  induction fs generalizing q with
  | nil => cases hfs rfl
  | cons f fs ih =>
    cases fs with
    | nil => exact ⟨f.val.1, List.mem_cons_self, rfl⟩
    | cons g gs =>
      obtain ⟨j, hj, hroot⟩ := ih (q := .node f.val.1) (by simp)
      exact ⟨j, List.mem_cons_of_mem _ (List.mem_append_right _ hj), hroot⟩

/-- The subtree in the hole is the root only if there are no frames. -/
theorem RBTree.At.root_eq_iff {c : Color} {d : Dir} {A B : CTree (RBEntry K)} {a : RBEntry K}
    (h : T.At fs (.on d c A a B)) :
  RBPtr.node a.1 = T.root ↔ fs = []
  := by
  have hroot := h.root
  rw [ptr_on] at hroot
  constructor
  · intro heq
    by_contra hne
    obtain ⟨j, hj, hj'⟩ := rootOf_mem (q := .node a.1) hne
    obtain ⟨⟨-, -, hfresh⟩, -⟩ := nodup_on.mp h.nodup
    rw [hroot, hj'] at heq
    rw [RBPtr.node.inj heq] at hfresh
    contradiction
  · rintro rfl
    exact hroot.symm

/-- The loop makes a tree with a red node in a hole into one that is balanced but for the colour
of the root. -/
theorem RBTree.At.fixUp
    {fuel : Nat} (h : T.At fs t) (ht : Balanced t .red n) (hole : Hole fs p n) (hfs : fs ≠ [])
    (hfuel : fs.length < fuel) :
  ∃ T' t', rbFixUpLoop fuel T (ptr t) = some T' ∧ T'.At [] t' ∧ T.SameCount T'
    ∧ (∃ m, Balanced (blacken t') .black m) ∧ t'.toList = (plug fs t).toList
  := by
  induction fuel generalizing T fs t n p with
  | zero => cases hfuel
  | succ fuel ih =>
    obtain ⟨f, fs, rfl⟩ := List.exists_cons_of_ne_nil hfs
    have hparent : T.parent (ptr t) = some (.node f.val.1) := by
      cases ht with
      | red a hl hr => apply parent_node h.rep.1
    have hcolor : T.color (.node f.val.1) = some p := by
      rw [← hole.color]
      apply color_node h.ctx.1
    have hloop : rbFixUpLoop (fuel + 1) T (ptr t) = if p = .red then
        (rbFixUpTurn T (ptr t)).bind fun r =>
          if r.2 = r.1.root then some r.1 else rbFixUpLoop fuel r.1 r.2
        else some T := by
      rw [rbFixUpLoop, hparent]
      show ((T.color (.node f.val.1)).bind _) = _
      rw [hcolor]
      rfl
    cases p with
    | black =>
      obtain ⟨m, hm⟩ := hole.plug ht (.inl rfl)
      exact ⟨T, plug (f :: fs) t, hloop, RBTree.at_plug.mp h, .refl T, hm.blacken, rfl⟩
    | red =>
      obtain ⟨hf, hs, g, gs, rfl, hg, c, q, hgs, hrest⟩ := hole.two
      have hat := RBTree.at_cons.mp (RBTree.at_cons.mp h)
      rw [hf] at hat
      rw [hloop, if_pos rfl, rbFixUpTurn_eq hat ht]
      have hlist : (plug (f :: g :: gs) t).toList
          = before gs ++ (CTree.on g.dir g.color (.on f.dir .red t f.val f.sib) g.val g.sib).toList
            ++ after gs := by
        rw [plug, plug, toList_plug, hf]
      rw [hlist]
      by_cases huncle : rootColor g.sib = .red
      · obtain rfl : c = .red := hgs.rootColor_eq.symm.trans huncle
        rw [if_pos huncle]
        obtain ⟨A, y, B, hU, hA, hB⟩ := hgs.exists_on g.dir
        rw [hU] at hat ⊢
        obtain ⟨T₁, hrecolor, hat₁, hsame₁⟩ := hat.recolor
        have hbal : Balanced (.on g.dir .red (.on f.dir .black t f.val f.sib) g.val
            (.on g.dir .black A y B)) .red (n + 1) :=
          .on_red g.dir g.val (.on_black f.dir f.val ht hs) (.on_black g.dir y hA hB)
        have hsame_list : (CTree.on g.dir .red (.on f.dir .black t f.val f.sib) g.val
              (.on g.dir .black A y B)).toList
            = (CTree.on g.dir g.color (.on f.dir .red t f.val f.sib) g.val
              (.on g.dir .red A y B)).toList := by
          cases g.dir <;> cases f.dir <;> rfl
        rw [ptr_on, hrecolor, Option.bind_some]
        dsimp only
        by_cases hroot : RBPtr.node g.val.1 = T₁.root
        · obtain rfl := hat₁.root_eq_iff.mp hroot
          rw [if_pos hroot]
          refine ⟨T₁, _, rfl, hat₁, hsame₁, hbal.blacken, ?_⟩
          rw [hsame_list]
          simp [before, after]
        · have hne : gs ≠ [] := fun hnil => hroot (hat₁.root_eq_iff.mpr hnil)
          rw [if_neg hroot]
          obtain ⟨T₂, t₂, hloop₂, hat₂, hsame₂, hblack, hlist₂⟩ := ih hat₁ hbal hrest hne
            (by simp at hfuel; omega)
          rw [ptr_on] at hloop₂
          refine ⟨T₂, t₂, hloop₂, hat₂, hsame₁.trans hsame₂, hblack, ?_⟩
          rw [hlist₂, toList_plug, hsame_list]
      · rw [if_neg huncle]
        obtain rfl : c = .black := by
          rw [← hgs.rootColor_eq]
          cases hc : rootColor g.sib with
          | red => cases huncle hc
          | black => rfl
        obtain ⟨T₁, X, v, Y, hrotate, hat₁, hsame₁, hX, hY, hlist₁⟩ := hat.rotate ht hs
        have hbal := Balanced.on_black g.dir v hX (.on_red g.dir g.val hY hgs)
        obtain ⟨m, hm⟩ := hrest.plug hbal (.inr rfl)
        have hX₁ := RBTree.at_cons (f := ⟨g.dir, .black, v, .on g.dir .red Y g.val g.sib⟩).mpr hat₁
        have hdone : rbFixUpLoop fuel T₁ (ptr X) = some T₁ := by
          have hparent₁ : T₁.parent (ptr X) = some (.node v.1) := by
            cases hX with
            | red a hl hr => apply parent_node hX₁.rep.1
          cases fuel with
          | zero => simp at hfuel
          | succ fuel =>
            rw [rbFixUpLoop, hparent₁]
            show ((T₁.color (.node v.1)).bind _) = _
            rw [color_node hX₁.ctx.1]
            rfl
        refine ⟨T₁, _, ?_, RBTree.at_plug.mp hat₁, hsame₁, hm.blacken, ?_⟩
        · rw [hrotate, Option.bind_some]
          dsimp only
          rw [hdone, ite_self]
        · rw [toList_plug, hlist₁]

/-- After the new node is linked, the tree is balanced again. -/
theorem RBTree.At.finish
    {e : RBEntry K} (h : T.At fs (.node .red .nil e .nil)) (hole : Hole fs p 0)
    (hsize : T.size = (plug fs (.node .red .nil e .nil)).toList.length) :
  ∃ T' t', rbFinish T (.node e.1) = some T' ∧ T'.At [] t' ∧ T.SameCount T'
    ∧ (∃ m, Balanced t' .black m) ∧ t'.toList = (plug fs (.node .red .nil e .nil)).toList
  := by
  have hred : Balanced (.node .red .nil e .nil) .red 0 := .red e .nil .nil
  have hparent : T.parent (.node e.1) = some (ctxPtr fs) := parent_node h.rep.1
  cases fs with
  | nil =>
    have hat : T.At [] (.on .left .red .nil e .nil) := h
    obtain ⟨T', hset, hat', hs, hn⟩ := hat.setColor .black
    refine ⟨T', _, ?_, hat', ⟨hs, hn⟩, ⟨1, .black e .nil .nil⟩, rfl⟩
    rw [rbFinish, hparent]
    apply hset
  | cons f fs =>
    have hgrand : T.parent (.node f.val.1) = some (ctxPtr fs) := parent_node h.ctx.1
    have hfinish : rbFinish T (.node e.1) = if ctxPtr fs = .null then some T
        else rbInsertFixUp T (.node e.1) := by
      rw [rbFinish, hparent]
      show ((T.parent (.node f.val.1)).bind _) = _
      rw [hgrand]
      rfl
    cases fs with
    | nil =>
      have hblack : p = .black := by
        cases p with
        | red =>
          obtain ⟨-, -, g, gs, hnil, -⟩ := hole.two
          cases hnil
        | black => rfl
      exact ⟨T, _, hfinish, RBTree.at_plug.mp h, .refl T, hole.plug hred (.inl hblack), rfl⟩
    | cons g gs =>
      have hlen : (f :: g :: gs).length < T.size + 1 := by
        have hle := length_le_around (f :: g :: gs)
        rw [hsize, toList_plug, List.length_append, List.length_append]
        omega
      obtain ⟨T₁, t₁, hloop, hat₁, hsame₁, ⟨m, hm⟩, hlist₁⟩ := h.fixUp hred hole (by simp) hlen
      cases t₁ with
      | nil =>
        have hnil := congrArg List.length hlist₁
        rw [toList_plug] at hnil
        simp [CTree.toList] at hnil
      | node c l a r =>
        have hat : T₁.At [] (.on .left c l a r) := hat₁
        obtain ⟨T', hset, hat', hs, hn⟩ := hat.setColor .black
        refine ⟨T', _, ?_, hat', hsame₁.trans ⟨hs, hn⟩, ⟨m, hm⟩, hlist₁⟩
        rw [hfinish, if_neg (by simp [ctxPtr]), rbInsertFixUp]
        show ((rbFixUpLoop (T.size + 1) T (ptr (.node .red .nil e .nil))).bind _) = _
        rw [hloop, Option.bind_some, hat₁.root]
        apply hset

end RBTree

end Polyc
