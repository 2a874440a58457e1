import Polyc.Containers.List

/-!
# Nodes of lists

A list in a heap: its sentinel, its nodes and its values.  A node is inserted between two
neighbours, one is removed, and the nodes of another list are put between two neighbours.
-/

namespace Polyc

/-- A ring of nodes that are allocated, from a sentinel on, with some values. -/
structure ListHeap.IsList (h : ListHeap) (l : Nat) (nodes xs : List Nat) : Prop where
  /-- The nodes are a ring. -/
  walk : h.Walk (l :: nodes ++ [l])
  /-- The nodes are allocated. -/
  live : ∀ a ∈ l :: nodes, a ∈ h.live
  /-- The sentinel has no value. -/
  nil : h.value l = 0
  /-- The values of the nodes. -/
  values : nodes.map h.value = xs

/-! ### Neighbours -/

/-- The last of some nodes, or the sentinel before them. -/
theorem exists_concat (l : Nat) (as : List Nat) :
  ∃ xs, l :: as = xs ++ [as.getLastD l]
  := by
  induction as generalizing l with
  | nil => exact ⟨[], rfl⟩
  | cons a as ih =>
    obtain ⟨xs, hxs⟩ := ih a
    use l :: xs
    rw [List.getLastD_cons, hxs, List.cons_append]

/-- The first of some nodes, or the sentinel behind them. -/
theorem exists_cons (l : Nat) (bs : List Nat) :
  ∃ ys, bs ++ [l] = bs.headD l :: ys
  := by
  cases bs with
  | nil => exact ⟨[], rfl⟩
  | cons b bs => exact ⟨bs ++ [l], rfl⟩

/-- A ring about a place, with nodes put there. -/
theorem exists_ring_split (l : Nat) (as bs : List Nat) :
  ∃ ps qs, ∀ cs, l :: (as ++ (cs ++ bs)) ++ [l]
    = ps ++ as.getLastD l :: (cs ++ bs.headD l :: qs)
  := by
  obtain ⟨ps, hps⟩ := exists_concat l as
  obtain ⟨qs, hqs⟩ := exists_cons l bs
  use ps, qs
  intro cs
  rw [← List.cons_append, List.append_assoc, List.append_assoc, hqs, hps, List.append_assoc,
    List.singleton_append]

/-- The addresses of a ring about a place are the sentinel and the nodes. -/
theorem mem_of_ring_split {l : Nat} {as bs ps qs : List Nat}
    (hsplit : ∀ cs, l :: (as ++ (cs ++ bs)) ++ [l]
      = ps ++ as.getLastD l :: (cs ++ bs.headD l :: qs))
    (a : Nat) (ha : a ∈ ps ++ as.getLastD l :: bs.headD l :: qs) :
  a ∈ l :: (as ++ bs)
  := by
  have hring := hsplit []
  rw [List.nil_append, List.nil_append] at hring
  rw [← hring, List.mem_append, List.mem_singleton] at ha
  rcases ha with ha | rfl
  · exact ha
  · exact List.mem_cons_self

/-- The node before a place is one of those before it or the sentinel. -/
theorem getLastD_mem (l : Nat) (as : List Nat) :
  as.getLastD l ∈ l :: as
  := by
  obtain ⟨xs, hxs⟩ := exists_concat l as
  rw [hxs]
  simp

/-- The node behind a place is one of those behind it or the sentinel. -/
theorem headD_mem (l : Nat) (bs : List Nat) :
  bs.headD l ∈ l :: bs
  := by
  cases bs <;> simp

namespace ListHeap

variable {h : ListHeap} {l : Nat} {as bs nodes xs : List Nat}

namespace IsList

/-- The neighbours at a place are linked. -/
theorem adj (H : h.IsList l (as ++ bs) xs) :
  h.Adj (as.getLastD l) (bs.headD l)
  := by
  obtain ⟨ps, qs, hsplit⟩ := exists_ring_split l as bs
  exact (hsplit [] ▸ H.walk).adj

/-- The node before a place is allocated. -/
theorem live_before (H : h.IsList l (as ++ bs) xs) :
  as.getLastD l ∈ h.live
  := by
  apply H.live
  exact List.cons_subset_cons l (List.subset_append_left as bs) (getLastD_mem l as)

/-- The node behind a place is allocated. -/
theorem live_behind (H : h.IsList l (as ++ bs) xs) :
  bs.headD l ∈ h.live
  := by
  apply H.live
  exact List.cons_subset_cons l (List.subset_append_right as bs) (headD_mem l bs)

/-- The sentinel is followed by the first node. -/
theorem next_eq (H : h.IsList l nodes xs) :
  h.next l = nodes.headD l
  := by
  have H' : h.IsList l ([] ++ nodes) xs := H
  exact H'.adj.1

/-- The sentinel follows the last node. -/
theorem prev_eq (H : h.IsList l nodes xs) :
  h.prev l = nodes.getLastD l
  := by
  have H' : h.IsList l (nodes ++ []) xs := by rwa [List.append_nil]
  exact H'.adj.2

/-- No node is there twice, and the sentinel is none of them. -/
theorem nodup (H : h.IsList l nodes xs) :
  (l :: nodes).Nodup
  := by
  have := H.walk.sources
  rw [List.dropLast_concat] at this
  exact this

/-- A list depends on its nodes only. -/
theorem congr {h' : ListHeap} (H : h.IsList l nodes xs)
    (hnext : ∀ a ∈ l :: nodes, h'.next a = h.next a)
    (hprev : ∀ a ∈ l :: nodes, h'.prev a = h.prev a)
    (hvalue : ∀ a ∈ l :: nodes, h'.value a = h.value a)
    (hlive : ∀ a ∈ l :: nodes, a ∈ h'.live) :
  h'.IsList l nodes xs
  := by
  constructor
  case walk =>
    apply H.walk.congr
    · intro a ha
      rw [List.dropLast_concat] at ha
      exact hnext a ha
    · intro a ha
      apply hprev
      simpa [or_comm] using ha
  case live => exact hlive
  case nil => rw [hvalue l (List.mem_cons_self), H.nil]
  case values =>
    rw [← H.values]
    apply List.map_congr_left
    intro a ha
    exact hvalue a (List.mem_cons_of_mem l ha)

end IsList

/-! ### A node inserted -/

/-- The heap after a node is inserted between two neighbours. -/
def insertNode (h : ListHeap) (n p c v : Nat) : ListHeap where
  next := Function.update (Function.update h.next n c) p n
  prev := Function.update (Function.update h.prev n p) c n
  value := Function.update h.value n v
  live := insert n h.live
  mallocs := h.mallocs + 1

/-- A list after a node is inserted. -/
theorem IsList.insert (H : h.IsList l (as ++ bs) xs) {n : Nat} (hn : n ∉ h.live) (v : Nat) :
  (h.insertNode n (as.getLastD l) (bs.headD l) v).IsList l (as ++ n :: bs)
    (as.map h.value ++ v :: bs.map h.value)
  := by
  obtain ⟨ps, qs, hsplit⟩ := exists_ring_split l as bs
  have hne : ∀ a ∈ l :: (as ++ bs), a ≠ n := by
    rintro a ha rfl
    exact hn (H.live a ha)
  have hp := hne _ (List.cons_subset_cons l (List.subset_append_left as bs) (getLastD_mem l as))
  have hc := hne _ (List.cons_subset_cons l (List.subset_append_right as bs) (headD_mem l bs))
  have hmem := mem_of_ring_split hsplit
  have hwalk : h.Walk (ps ++ as.getLastD l :: bs.headD l :: qs) := hsplit [] ▸ H.walk
  constructor
  case walk =>
    have hshape := hsplit [n]
    rw [List.singleton_append, List.singleton_append] at hshape
    rw [hshape]
    apply hwalk.splice (h := n) (t := n) (List.isChain_singleton n) (List.nodup_singleton n) rfl rfl
    · intro z hz hz'
      rw [List.mem_singleton] at hz
      exact hne z (hmem z hz') hz
    · intro a ha hap
      have han := hne a (hmem a (List.dropLast_subset _ ha))
      dsimp only [insertNode]
      rw [Function.update_of_ne hap, Function.update_of_ne han]
    · intro a ha hac
      have han := hne a (hmem a (List.mem_of_mem_tail ha))
      dsimp only [insertNode]
      rw [Function.update_of_ne hac, Function.update_of_ne han]
    · constructor
      · exact Function.update_self _ _ _
      · dsimp only [insertNode]
        rw [Function.update_of_ne hc.symm, Function.update_self]
    · constructor
      · dsimp only [insertNode]
        rw [Function.update_of_ne hp.symm, Function.update_self]
      · exact Function.update_self _ _ _
  case live =>
    intro a ha
    dsimp only [insertNode]
    rw [Finset.mem_insert]
    rcases eq_or_ne a n with han | han
    · exact Or.inl han
    · right
      apply H.live
      simpa [han] using ha
  case nil =>
    dsimp only [insertNode]
    rw [Function.update_of_ne (hne l (List.mem_cons_self)), H.nil]
  case values =>
    have hkeep : ∀ cs : List Nat, (∀ a ∈ cs, a ∈ as ++ bs) →
        cs.map (h.insertNode n (as.getLastD l) (bs.headD l) v).value = cs.map h.value := by
      intro cs hcs
      apply List.map_congr_left
      intro a ha
      exact Function.update_of_ne (hne a (List.mem_cons_of_mem l (hcs a ha))) _ _
    rw [List.map_append, List.map_cons, hkeep as fun a ha => List.mem_append_left _ ha,
      hkeep bs fun a ha => List.mem_append_right _ ha]
    congr 2
    exact Function.update_self _ _ _

/-! ### A node removed -/

/-- The heap after a node between two neighbours is removed. -/
def removeNode (h : ListHeap) (m p c : Nat) : ListHeap where
  next := Function.update h.next p c
  prev := Function.update h.prev c p
  value := h.value
  live := h.live.erase m
  mallocs := h.mallocs

/-- A list after a node is removed. -/
theorem IsList.remove {m : Nat} (H : h.IsList l (as ++ m :: bs) xs) :
  (h.removeNode m (as.getLastD l) (bs.headD l)).IsList l (as ++ bs)
    (as.map h.value ++ bs.map h.value)
  := by
  obtain ⟨ps, qs, hsplit⟩ := exists_ring_split l as bs
  have hm : ∀ a ∈ l :: (as ++ bs), a ≠ m := by
    have := H.nodup
    have hperm : (l :: (as ++ m :: bs)).Perm (m :: l :: (as ++ bs)) := by
      apply List.Perm.trans (List.Perm.cons l List.perm_middle)
      exact List.Perm.swap m l _
    rw [hperm.nodup_iff, List.nodup_cons] at this
    rintro a ha rfl
    exact this.1 ha
  have hwalk : h.Walk (ps ++ as.getLastD l :: m :: bs.headD l :: qs) := hsplit [m] ▸ H.walk
  constructor
  case walk =>
    have hshape := hsplit []
    rw [List.nil_append, List.nil_append] at hshape
    rw [hshape]
    apply hwalk.remove
    · intro a _ hap
      exact Function.update_of_ne hap _ _
    · intro a _ hac
      exact Function.update_of_ne hac _ _
    · constructor
      · exact Function.update_self _ _ _
      · exact Function.update_self _ _ _
  case live =>
    intro a ha
    dsimp only [removeNode]
    rw [Finset.mem_erase]
    use hm a ha
    apply H.live
    simp only [List.mem_cons, List.mem_append] at ha ⊢
    tauto
  case nil => exact H.nil
  case values => rw [← List.map_append]; rfl

/-! ### A list merged -/

/-- The heap after the nodes of another list are put between two neighbours. -/
def mergeNodes (h : ListHeap) (p c h2 t2 l2 : Nat) : ListHeap where
  next := Function.update (Function.update h.next p h2) t2 c
  prev := Function.update (Function.update h.prev h2 p) c t2
  value := h.value
  live := h.live.erase l2
  mallocs := h.mallocs

/-- A list after the nodes of another one are put into it. -/
theorem IsList.merge {l2 h2 t2 : Nat} {nodes2 ys : List Nat} (H : h.IsList l (as ++ bs) xs)
    (H2 : h.IsList l2 nodes2 ys) (hhead : nodes2.head? = some h2)
    (hlast : nodes2.getLast? = some t2) (hapart : ∀ a ∈ l2 :: nodes2, a ∉ l :: (as ++ bs)) :
  (h.mergeNodes (as.getLastD l) (bs.headD l) h2 t2 l2).IsList l (as ++ (nodes2 ++ bs))
    (as.map h.value ++ (ys ++ bs.map h.value))
  := by
  obtain ⟨ps, qs, hsplit⟩ := exists_ring_split l as bs
  have hmem := mem_of_ring_split hsplit
  have hh2 : h2 ∈ nodes2 := List.mem_of_mem_head? hhead
  have ht2 : t2 ∈ nodes2 := List.mem_of_getLast? hlast
  have hin : ∀ a ∈ l :: (as ++ bs), a ≠ h2 ∧ a ≠ t2 ∧ a ≠ l2 := by
    intro a ha
    refine ⟨?_, ?_, ?_⟩
    · rintro rfl
      exact hapart a (List.mem_cons_of_mem l2 hh2) ha
    · rintro rfl
      exact hapart a (List.mem_cons_of_mem l2 ht2) ha
    · rintro rfl
      exact hapart a List.mem_cons_self ha
  have hp := List.cons_subset_cons l (List.subset_append_left as bs) (getLastD_mem l as)
  have hc := List.cons_subset_cons l (List.subset_append_right as bs) (headD_mem l bs)
  have hl2 := (List.nodup_cons.mp H2.nodup).1
  have hnodes2 : nodes2.IsChain h.Adj := by
    have := H2.walk.chain
    rw [List.cons_append] at this
    exact (this.tail).left_of_append
  have hwalk : h.Walk (ps ++ as.getLastD l :: bs.headD l :: qs) := hsplit [] ▸ H.walk
  constructor
  case walk =>
    rw [hsplit nodes2]
    apply hwalk.splice _ (List.nodup_cons.mp H2.nodup).2 hhead hlast
    · intro z hz hz'
      exact hapart z (List.mem_cons_of_mem l2 hz) (hmem z hz')
    · intro a ha hap
      have hat := (hin a (hmem a (List.dropLast_subset _ ha))).2.1
      dsimp only [mergeNodes]
      rw [Function.update_of_ne hat, Function.update_of_ne hap]
    · intro a ha hac
      have hah := (hin a (hmem a (List.mem_of_mem_tail ha))).1
      dsimp only [mergeNodes]
      rw [Function.update_of_ne hac, Function.update_of_ne hah]
    · constructor
      · dsimp only [mergeNodes]
        rw [Function.update_of_ne (hin _ hp).2.1, Function.update_self]
      · dsimp only [mergeNodes]
        rw [Function.update_of_ne (hin _ hc).1.symm, Function.update_self]
    · constructor
      · exact Function.update_self _ _ _
      · exact Function.update_self _ _ _
    · apply Links.chain_congr _ _ hnodes2
      · intro a ha
        have hat : a ≠ t2 := by
          rintro rfl
          have hnodup := (List.nodup_cons.mp H2.nodup).2
          rw [← List.dropLast_append_getLast? _ hlast, List.nodup_append] at hnodup
          exact hnodup.2.2 a ha a (by simp) rfl
        have hap : a ≠ as.getLastD l := by
          rintro rfl
          exact hapart _ (List.mem_cons_of_mem l2 (List.dropLast_subset _ ha)) hp
        dsimp only [mergeNodes]
        rw [Function.update_of_ne hat, Function.update_of_ne hap]
      · intro a ha
        have hah : a ≠ h2 := by
          rintro rfl
          have hnodup := (List.nodup_cons.mp H2.nodup).2
          rw [← List.cons_head?_tail hhead, List.nodup_cons] at hnodup
          exact hnodup.1 ha
        have hac : a ≠ bs.headD l := by
          rintro rfl
          exact hapart _ (List.mem_cons_of_mem l2 (List.mem_of_mem_tail ha)) hc
        dsimp only [mergeNodes]
        rw [Function.update_of_ne hac, Function.update_of_ne hah]
  case live =>
    intro a ha
    dsimp only [mergeNodes]
    rw [Finset.mem_erase]
    rw [List.mem_cons, List.mem_append, List.mem_append] at ha
    rcases ha with rfl | ha | ha | ha
    · exact ⟨(hin a List.mem_cons_self).2.2, H.live a List.mem_cons_self⟩
    · have := List.mem_cons_of_mem l (List.mem_append_left bs ha)
      exact ⟨(hin a this).2.2, H.live a this⟩
    · refine ⟨?_, H2.live a (List.mem_cons_of_mem l2 ha)⟩
      rintro rfl
      exact hl2 ha
    · have := List.mem_cons_of_mem l (List.mem_append_right as ha)
      exact ⟨(hin a this).2.2, H.live a this⟩
  case nil => exact H.nil
  case values =>
    rw [List.map_append, List.map_append, ← H2.values]
    rfl

end ListHeap

end Polyc
