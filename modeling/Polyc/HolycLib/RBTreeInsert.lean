import Polyc.HolycLib.RBTreeFixUp
import Mathlib.Order.Lattice
import Mathlib.Data.List.Pairwise

/-!
# Insertion into the red-black tree

The search goes down to the key or to an empty place between the smaller and the greater keys;
a new red node in that place is fixed up.  Trees with their nodes, balanced and sorted, are kept,
and what they bind is changed at the key only.
-/

namespace Polyc

open RedBlack

/-- A comparison of keys that tells how they are ordered. -/
def KeyCmp {K : Type} [LinearOrder K] (keyCmp : K → K → Int) : Prop :=
  ∀ a b, (keyCmp a b < 0 ↔ a < b) ∧ (keyCmp a b = 0 ↔ a = b)

section RBTree

variable {K : Type} [LinearOrder K] {keyCmp : K → K → Int} {T : RBTree K}
  {fs : List (Frame (RBEntry K))} {t : CTree (RBEntry K)} {key : K} {n : Nat} {p c : Color}

theorem KeyCmp.pos_iff (h : KeyCmp keyCmp) (a b : K) :
  keyCmp a b > 0 ↔ b < a
  := by
  obtain ⟨hlt, heq⟩ := h a b
  rcases lt_trichotomy a b with hab | hab | hab
  · have := hlt.mpr hab
    constructor
    · intro hpos
      omega
    · intro hba
      cases lt_asymm hab hba
  · have := heq.mpr hab
    constructor
    · intro hpos
      omega
    · intro hba
      cases hba.ne' hab
  · have hnlt : ¬ keyCmp a b < 0 := fun hneg => lt_asymm hab (hlt.mp hneg)
    have hne : keyCmp a b ≠ 0 := fun hzero => hab.ne' (heq.mp hzero)
    constructor
    · exact fun _ => hab
    · intro _
      omega

/-- The keys are in increasing order. -/
def Sorted (l : List (RBEntry K)) : Prop := l.Pairwise fun e e' => e.2.1 < e'.2.1

/-- A hole between the smaller and the greater keys. -/
structure KeyBetween (key : K) (fs : List (Frame (RBEntry K))) : Prop where
  before : ∀ e ∈ before fs, e.2.1 < key
  after : ∀ e ∈ after fs, key < e.2.1

/-- Going left from a greater key. -/
theorem KeyBetween.left
    {l r : CTree (RBEntry K)} {a : RBEntry K} (h : KeyBetween key fs)
    (hsorted : Sorted (CTree.node c l a r).toList) (hlt : key < a.2.1) :
  KeyBetween key (⟨.left, c, a, r⟩ :: fs)
  where
  before := h.before
  after e he := by
    rw [RedBlack.after, List.mem_append, List.mem_cons] at he
    obtain ⟨-, hsorted, -⟩ := List.pairwise_append.mp hsorted
    rcases he with (rfl | he) | he
    · apply hlt
    · apply hlt.trans ((List.pairwise_cons.mp hsorted).1 e he)
    · apply h.after e he

/-- Going right from a smaller key. -/
theorem KeyBetween.right
    {l r : CTree (RBEntry K)} {a : RBEntry K} (h : KeyBetween key fs)
    (hsorted : Sorted (CTree.node c l a r).toList) (hlt : a.2.1 < key) :
  KeyBetween key (⟨.right, c, a, l⟩ :: fs)
  where
  before e he := by
    rw [RedBlack.before, List.mem_append, List.mem_append, List.mem_singleton] at he
    obtain ⟨-, -, hsorted⟩ := List.pairwise_append.mp hsorted
    rcases he with (he | he) | rfl
    · apply h.before e he
    · apply (hsorted e he a List.mem_cons_self).trans hlt
    · apply hlt
  after := h.after

/-- The sides of a node are sorted. -/
theorem Sorted.sides
    {l r : CTree (RBEntry K)} {a : RBEntry K} (hsorted : Sorted (CTree.node c l a r).toList) :
  Sorted l.toList ∧ Sorted r.toList
  := by
  obtain ⟨hl, har, -⟩ := List.pairwise_append.mp hsorted
  exact ⟨hl, (List.pairwise_cons.mp har).2⟩

/-- Where the search ends: at the key, or at an empty place. -/
inductive Descends (T : RBTree K) (key : K) (whole : CTree (RBEntry K)) : RBPtr ⊕ RBPtr → Prop where
  | found {fs : List (Frame (RBEntry K))} {c c' p : Color} {n : Nat} {l r : CTree (RBEntry K)}
      {a : RBEntry K} (hat : T.At fs (.on .left c l a r)) (hkey : a.2.1 = key) (hole : Hole fs p n)
      (hbal : Balanced (.on .left c l a r) c' n) (hc : p = .black ∨ c' = .black)
      (hwhole : whole = plug fs (.on .left c l a r)) : Descends T key whole (.inl (.node a.1))
  | slot {fs : List (Frame (RBEntry K))} {p : Color} (hat : T.At fs .nil) (hole : Hole fs p 0)
      (hbetween : KeyBetween key fs) (hwhole : whole = plug fs .nil) :
      Descends T key whole (.inr (ctxPtr fs))

/-- The search of an insertion. -/
theorem RBTree.At.descend
    (hcmp : KeyCmp keyCmp) (key : K) {fuel : Nat} (h : T.At fs t) (ht : Balanced t c n) (hole : Hole fs p n)
    (hc : p = .black ∨ c = .black) (hsorted : Sorted t.toList) (hbetween : KeyBetween key fs)
    (hfuel : t.toList.length < fuel) :
  ∃ r, rbDescend keyCmp T key fuel (ptr t) (ctxPtr fs) = some r ∧ Descends T key (plug fs t) r
  := by
  induction fuel generalizing fs t c n p with
  | zero => cases hfuel
  | succ fuel ih =>
    cases t with
    | nil =>
      cases ht with
      | nil => exact ⟨_, rfl, .slot h hole hbetween rfl⟩
    | node e l a r =>
      obtain ⟨hl, hr⟩ := hsorted.sides
      have hnode : rbDescend keyCmp T key (fuel + 1) (.node a.1) (ctxPtr fs)
          = if keyCmp key a.2.1 < 0 then rbDescend keyCmp T key fuel (ptr l) (.node a.1)
            else if keyCmp key a.2.1 > 0 then rbDescend keyCmp T key fuel (ptr r) (.node a.1)
            else some (.inl (.node a.1)) := by
        obtain ⟨ha, -, -⟩ := h.rep
        rw [rbDescend, if_pos (by simp)]
        show ((T.heap a.1).bind _) = _
        rw [ha, Option.bind_some, child_node ha, child_node ha]
        rfl
      have hptr : ptr (.node e l a r) = .node a.1 := rfl
      rw [hptr, hnode]
      simp only [(hcmp key a.2.1).1, hcmp.pos_iff]
      rcases lt_trichotomy key a.2.1 with hlt | heq | hgt
      · rw [if_pos hlt]
        obtain ⟨c', n', hole', hl', hc'⟩ := hole.down (d := .left) ht hc
        apply ih (RBTree.at_cons (f := ⟨.left, e, a, r⟩).mpr h) hl' hole' hc' hl
          (hbetween.left hsorted hlt)
        simp [CTree.toList] at hfuel
        omega
      · rw [if_neg (by rw [heq]; exact lt_irrefl _), if_neg (by rw [heq]; exact lt_irrefl _)]
        exact ⟨_, rfl, .found h heq.symm hole ht hc rfl⟩
      · rw [if_neg (lt_asymm hgt), if_pos hgt]
        obtain ⟨c', n', hole', hr', hc'⟩ := hole.down (d := .right) ht hc
        apply ih (RBTree.at_cons (f := ⟨.right, e, a, l⟩).mpr h) hr' hole' hc' hr
          (hbetween.right hsorted hgt)
        simp [CTree.toList] at hfuel
        omega

/-! ### The new node -/

/-- A new red node is linked into an empty place. -/
theorem RBTree.At.link
    (hcmp : KeyCmp keyCmp) (h : T.At fs .nil) (hbetween : KeyBetween key fs)
    (hfresh : T.next ∉ ctxIds fs) (value : Word) :
  ∃ T', rbLink keyCmp (rbNodeNew T key value (ctxPtr fs)) key (.node T.next) (ctxPtr fs) = some T'
    ∧ T'.At fs (.node .red .nil (T.next, key, value) .nil) ∧ T'.size = T.size
    ∧ T'.next = T.next + 1
  := by
  have hkeep : ∀ l : List Nat, T.next ∉ l → ∀ k ∈ l, ∀ w,
      Function.update T.heap T.next w k = T.heap k := by
    intro l hl k hk w
    apply Function.update_of_ne
    rintro rfl
    exact hl hk
  have hnew : (rbNodeNew T key value (ctxPtr fs)).heap T.next
      = some ⟨key, value, .red, sides .left .sentinal .sentinal, ctxPtr fs⟩ := by
    have hsides : sides .left .sentinal .sentinal = fun _ => .sentinal := by
      funext e
      cases e <;> rfl
    rw [hsides]
    apply Function.update_self
  cases fs with
  | nil =>
    refine ⟨_, rfl, ⟨rfl, ⟨hnew, trivial, trivial⟩, trivial, ?_⟩, rfl, rfl⟩
    simp [ids, CTree.toList, ctxIds]
  | cons f fs =>
    obtain ⟨hf, hs, hrest⟩ := h.ctx
    have hne : T.next ≠ f.val.1 ∧ T.next ∉ ids f.sib ∧ T.next ∉ ctxIds fs := by
      rw [ctxIds, List.mem_cons, List.mem_append, not_or, not_or] at hfresh
      apply hfresh
    have hmem : f.val.1 ∉ ids f.sib ∧ f.val.1 ∉ ctxIds fs := by
      have hnodup : (ctxIds (f :: fs)).Nodup := h.nodup
      rw [ctxIds, List.nodup_cons, List.mem_append, not_or] at hnodup
      apply hnodup.1
    have hf' : (rbNodeNew T key value (ctxPtr (f :: fs))).heap f.val.1 = _ :=
      (Function.update_of_ne hne.1.symm _ _).trans hf
    have hset := setChild_node hf' f.dir (.node T.next)
    rw [update_sides] at hset
    have hlink : rbLink keyCmp (rbNodeNew T key value (ctxPtr (f :: fs))) key (.node T.next)
        (ctxPtr (f :: fs)) = (rbNodeNew T key value (ctxPtr (f :: fs))).setChild f.dir
          (.node f.val.1) (.node T.next) := by
      have hbind : rbLink keyCmp (rbNodeNew T key value (ctxPtr (f :: fs))) key (.node T.next)
          (ctxPtr (f :: fs)) = if keyCmp key f.val.2.1 < 0
            then (rbNodeNew T key value (ctxPtr (f :: fs))).setChild .left (.node f.val.1)
              (.node T.next)
            else (rbNodeNew T key value (ctxPtr (f :: fs))).setChild .right (.node f.val.1)
              (.node T.next) := by
        rw [rbLink, if_neg (by simp [ctxPtr])]
        show (((rbNodeNew T key value (ctxPtr (f :: fs))).heap f.val.1).bind _) = _
        rw [hf']
        rfl
      rw [hbind]
      simp only [(hcmp key f.val.2.1).1]
      cases hdir : f.dir with
      | left =>
        have hlt : key < f.val.2.1 := by
          apply hbetween.after
          simp [after, hdir]
        rw [if_pos hlt]
      | right =>
        have hlt : f.val.2.1 < key := by
          apply hbetween.before
          simp [before, hdir]
        rw [if_neg (lt_asymm hlt)]
    rw [hlink, hset]
    refine ⟨_, rfl, ⟨h.root, ⟨?_, trivial, trivial⟩, ⟨?_, hs.congr ?_, hrest.congr ?_⟩, ?_⟩, rfl, rfl⟩
    · show Function.update _ f.val.1 _ T.next = _
      rw [Function.update_of_ne hne.1]
      apply hnew
    · apply Function.update_self
    · intro k hk
      apply (Function.update_of_ne _ _ _).trans (hkeep _ hne.2.1 k hk _)
      rintro rfl
      exact hmem.1 hk
    · intro k hk
      apply (Function.update_of_ne _ _ _).trans (hkeep _ hne.2.2 k hk _)
      rintro rfl
      exact hmem.2 hk
    · apply List.nodup_cons.mpr ⟨hfresh, h.nodup⟩

/-! ### What is kept -/

/-- The nodes are those of a balanced and sorted tree, which represents a finite map. -/
structure RBTree.Valid (T : RBTree K) (t : CTree (RBEntry K)) (M : K → Option Word) : Prop where
  nodes : T.At [] t
  balanced : ∃ m, Balanced t .black m
  sorted : Sorted t.toList
  size : T.size = t.toList.length
  fresh : ∀ i ∈ ids t, i < T.next
  binds : ∀ k v, M k = some v ↔ ∃ i, (i, k, v) ∈ t.toList

/-- What is bound when an entry stands between others with other keys. -/
theorem binds_put
    {M : K → Option Word} {L₁ L₂ : List (RBEntry K)} (hne : ∀ e ∈ L₁ ++ L₂, e.2.1 ≠ key)
    (hM : ∀ k, k ≠ key → ∀ w, M k = some w ↔ ∃ i, (i, k, w) ∈ L₁ ++ L₂) (i : Nat) (v : Word)
    (k : K) (w : Word) :
  Function.update M key (some v) k = some w ↔ ∃ j, (j, k, w) ∈ L₁ ++ (i, key, v) :: L₂
  := by
  have hmem : ∀ j, (j, k, w) ∈ L₁ ++ (i, key, v) :: L₂
      ↔ (j, k, w) = (i, key, v) ∨ (j, k, w) ∈ L₁ ++ L₂ := by
    intro j
    rw [List.perm_middle.mem_iff, List.mem_cons]
  simp only [hmem]
  by_cases hk : k = key
  · subst hk
    rw [Function.update_self, Option.some_inj]
    constructor
    · rintro rfl
      exact ⟨i, .inl rfl⟩
    · rintro ⟨j, heq | hin⟩
      · cases heq
        rfl
      · cases hne _ hin rfl
  · rw [Function.update_of_ne hk, hM k hk]
    constructor
    · rintro ⟨j, hin⟩
      exact ⟨j, .inr hin⟩
    · rintro ⟨j, heq | hin⟩
      · cases heq
        cases hk rfl
      · exact ⟨j, hin⟩

/-- The keys around an entry of a sorted list are others. -/
theorem Sorted.ne_around
    {L₁ L₂ : List (RBEntry K)} {a : RBEntry K} (h : Sorted (L₁ ++ a :: L₂)) :
  ∀ e ∈ L₁ ++ L₂, e.2.1 ≠ a.2.1
  := by
  obtain ⟨-, har, hla⟩ := List.pairwise_append.mp h
  intro e he
  rcases List.mem_append.mp he with he | he
  · apply (hla e he a List.mem_cons_self).ne
  · apply ((List.pairwise_cons.mp har).1 e he).ne'

/-- An insertion binds the key. -/
theorem RBTree.Valid.insert
    {M : K → Option Word} (hcmp : KeyCmp keyCmp) (h : T.Valid t M) (key : K) (value : Word) :
  ∃ T' t', rbTreeInsert keyCmp T key value = some T'
    ∧ T'.Valid t' (Function.update M key (some value))
  := by
  obtain ⟨m, hm⟩ := h.balanced
  obtain ⟨r, hdescend, hr⟩ := RBTree.At.descend hcmp key h.nodes hm (.root m) (.inr rfl) h.sorted
    ⟨by simp [before], by simp [after]⟩ (Nat.lt_succ_self _)
  have hroot : T.root = ptr t := h.nodes.root
  rw [← h.size, ← hroot] at hdescend
  have hdescend : rbDescend keyCmp T key (T.size + 1) T.root .null = some r := hdescend
  have hwhole : plug [] t = t := rfl
  rw [hwhole] at hr
  cases hr with
  | @found fs c c' p n l r a hat hkey hole hbal hc hwhole =>
    subst hkey
    obtain ⟨T', hset, hat', hs, hn⟩ := hat.setValue value
    have hlist : t.toList = (before fs ++ l.toList) ++ a :: (r.toList ++ after fs) := by
      rw [hwhole, toList_plug]
      simp [CTree.on, CTree.toList]
    have hlist' : (plug fs (.on .left c l (a.1, a.2.1, value) r)).toList
        = (before fs ++ l.toList) ++ (a.1, a.2.1, value) :: (r.toList ++ after fs) := by
      rw [toList_plug]
      simp [CTree.on, CTree.toList]
    have hsorted := h.sorted
    rw [hlist] at hsorted
    refine ⟨T', _, ?_, RBTree.at_plug.mp hat', hole.plug (hbal.set_val _) hc, ?_, ?_, ?_, ?_⟩
    · rw [rbTreeInsert, hdescend]
      apply hset
    · rw [hlist', Sorted, ← List.pairwise_map]
      rw [Sorted, ← List.pairwise_map] at hsorted
      simpa using hsorted
    · rw [hs, h.size, hlist, hlist']
      simp
    · rw [hn, ids, hlist']
      have hfresh := h.fresh
      rw [ids, hlist] at hfresh
      simpa using hfresh
    · intro k w
      rw [hlist']
      apply binds_put hsorted.ne_around
      intro k hk w
      rw [h.binds, hlist]
      have hne : ∀ i, (i, k, w) ≠ a := by
        rintro i rfl
        exact hk rfl
      simp [hne]
  | @slot fs p hat hole hbetween hwhole =>
    have hlist : t.toList = before fs ++ after fs := by
      rw [hwhole, toList_plug]
      simp [CTree.toList]
    have hlist' : (plug fs (.node .red .nil (T.next, key, value) .nil)).toList
        = before fs ++ (T.next, key, value) :: after fs := by
      rw [toList_plug]
      simp [CTree.toList]
    have hids : ∀ i ∈ (before fs ++ after fs).map Prod.fst, i < T.next := by
      rw [← hlist]
      apply h.fresh
    have hfresh : T.next ∉ ctxIds fs := by
      intro hmem
      exact Nat.lt_irrefl _ (hids _ (mem_ctxIds.mp hmem))
    obtain ⟨T₁, hlink, hat₁, hs₁, hn₁⟩ := hat.link hcmp hbetween hfresh value
    have hat₂ : ({ T₁ with size := T₁.size + 1 } : RBTree K).At fs
        (.node .red .nil (T.next, key, value) .nil) := ⟨hat₁.root, hat₁.rep, hat₁.ctx, hat₁.nodup⟩
    obtain ⟨T', t', hfinish, hat', hsame, hbalanced, hlist''⟩ := hat₂.finish hole (by
      rw [hlist', List.length_append, List.length_cons, ← Nat.add_assoc, ← List.length_append,
        ← hlist, ← h.size, ← hs₁])
    rw [hlist'] at hlist''
    refine ⟨T', t', ?_, hat', hbalanced, ?_, ?_, ?_, ?_⟩
    · rw [rbTreeInsert, hdescend]
      show ((rbLink keyCmp (rbNodeNew T key value (ctxPtr fs)) key (.node T.next)
        (ctxPtr fs)).bind _) = _
      rw [hlink, Option.bind_some]
      apply hfinish
    · have hsorted := h.sorted
      rw [hlist] at hsorted
      obtain ⟨hl, hr, hcross⟩ := List.pairwise_append.mp hsorted
      rw [hlist'']
      refine List.pairwise_append.mpr ⟨hl, List.pairwise_cons.mpr ⟨hbetween.after, hr⟩, ?_⟩
      intro x hx y hy
      rcases List.mem_cons.mp hy with rfl | hy
      · apply hbetween.before x hx
      · apply hcross x hx y hy
    · have hsize : T'.size = T₁.size + 1 := hsame.size
      rw [hsize, hs₁, h.size, hlist, hlist'']
      simp
      omega
    · have hnext : T'.next = T.next + 1 := hsame.next.trans hn₁
      intro i hi
      rw [ids, hlist'', List.map_append, List.map_cons, List.perm_middle.mem_iff, List.mem_cons,
        ← List.map_append] at hi
      rw [hnext]
      rcases hi with rfl | hi
      · apply Nat.lt_succ_self
      · apply Nat.lt_succ_of_lt (hids i hi)
    · intro k w
      rw [hlist'']
      apply binds_put
      · intro e he
        rcases List.mem_append.mp he with he | he
        · apply (hbetween.before e he).ne
        · apply (hbetween.after e he).ne'
      · intro k hk w
        rw [h.binds, hlist]

end RBTree

end Polyc
