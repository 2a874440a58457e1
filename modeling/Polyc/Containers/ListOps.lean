import Polyc.Containers.ListNodes

/-!
# The operations on lists

What each operation of `list.c` does to the nodes of a list.
-/

namespace Polyc

namespace ListHeap

variable {h : ListHeap} {a : Nat}

/-! ### Fields of nodes that are allocated -/

theorem getNext_eq (ha : a ∈ h.live) : h.getNext a = some (h.next a) := if_pos ha

theorem getPrev_eq (ha : a ∈ h.live) : h.getPrev a = some (h.prev a) := if_pos ha

theorem getValue_eq (ha : a ∈ h.live) : h.getValue a = some (h.value a) := if_pos ha

end ListHeap

/-! ### Insertions -/

section Insertions

variable {malloc : ListMalloc} {h : ListHeap} {l : Nat} {as bs nodes xs : List Nat}

/-- `listAppend`. -/
theorem listAppend_eq (H : h.IsList l nodes xs) (hn : malloc h.mallocs h.live ∉ h.live)
    (v : Nat) :
  listAppend malloc h l v
    = some (h.insertNode (malloc h.mallocs h.live) (nodes.getLastD l) l v)
  := by
  have hprev := H.prev_eq
  have hlast := H.live _ (getLastD_mem l nodes)
  have hl : l ∈ h.live := H.live l List.mem_cons_self
  have hln : l ≠ malloc h.mallocs h.live := by
    intro heq
    exact hn (heq ▸ hl)
  rw [listAppend]
  simp only [listNew, ListHeap.getPrev, ListHeap.setValue, ListHeap.setPrev, ListHeap.setNext,
    Finset.mem_insert, hl, hlast, true_or, or_true, if_true, Option.bind_eq_bind,
    Option.bind_some, Function.update_of_ne hln, hprev, Function.update_idem]
  rfl

/-- `listPrepend`. -/
theorem listPrepend_eq (H : h.IsList l nodes xs) (hn : malloc h.mallocs h.live ∉ h.live)
    (v : Nat) :
  listPrepend malloc h l v
    = some (h.insertNode (malloc h.mallocs h.live) l (nodes.headD l) v)
  := by
  have hnext := H.next_eq
  have hhead := H.live _ (headD_mem l nodes)
  have hl : l ∈ h.live := H.live l List.mem_cons_self
  have hln : l ≠ malloc h.mallocs h.live := by
    intro heq
    exact hn (heq ▸ hl)
  rw [listPrepend]
  simp only [listNew, ListHeap.getNext, ListHeap.setValue, ListHeap.setPrev, ListHeap.setNext,
    Finset.mem_insert, hl, hhead, true_or, or_true, if_true, Option.bind_eq_bind,
    Option.bind_some, Function.update_of_ne hln, hnext, Function.update_idem]
  rfl

/-- `listInsertValueBefore`. -/
theorem listInsertValueBefore_eq (H : h.IsList l (as ++ bs) xs)
    (hn : malloc h.mallocs h.live ∉ h.live) (v : Nat) :
  listInsertValueBefore malloc h (bs.headD l) v
    = some (h.insertNode (malloc h.mallocs h.live) (as.getLastD l) (bs.headD l) v)
  := by
  obtain ⟨hnext, hprev⟩ := H.adj
  have hhead := H.live_behind
  have hlast := H.live_before
  have hln : bs.headD l ≠ malloc h.mallocs h.live := by
    intro heq
    exact hn (heq ▸ hhead)
  rw [listInsertValueBefore]
  simp only [listInsertBefore, listNew, ListHeap.getPrev, ListHeap.setValue, ListHeap.setPrev,
    ListHeap.setNext, Finset.mem_insert, hhead, hlast, true_or, or_true, if_true,
    Option.bind_eq_bind, Option.bind_some, Function.update_of_ne hln, hprev,
    Function.update_idem]
  rfl

end Insertions

/-! ### Removals -/

section Removals

variable {h : ListHeap} {l m : Nat} {as bs nodes xs : List Nat}

/-- `listDeque`. -/
theorem listDeque_eq (H : h.IsList l (m :: bs) xs) :
  listDeque h l = some (h.removeNode m l (bs.headD l), h.value m)
  := by
  have Hm : h.IsList l ([m] ++ bs) xs := H
  have hnext : h.next l = m := H.next_eq
  have hnext' : h.next m = bs.headD l := Hm.adj.1
  have hhead := Hm.live_behind
  have hl : l ∈ h.live := H.live l List.mem_cons_self
  have hm : m ∈ h.live := H.live m (by simp)
  have hml : m ≠ l := by
    rintro rfl
    exact (List.nodup_cons.mp H.nodup).1 List.mem_cons_self
  rw [listDeque]
  simp only [ListHeap.getNext, ListHeap.getValue, ListHeap.setPrev, ListHeap.setNext,
    ListHeap.free, hl, hm, hhead, if_true, Option.bind_eq_bind, Option.bind_some, hnext, hnext',
    hml, if_false]
  rfl

/-- `listPop`. -/
theorem listPop_eq (H : h.IsList l (as ++ [m]) xs) :
  listPop h l = some (h.removeNode m (as.getLastD l) l, h.value m)
  := by
  have hprev : h.prev l = m := by rw [H.prev_eq, List.getLastD_concat]
  have hprev' : h.prev m = as.getLastD l := H.adj.2
  have hlast := H.live_before
  have hl : l ∈ h.live := H.live l List.mem_cons_self
  have hm : m ∈ h.live := H.live m (by simp)
  have hne : h.next l ≠ l := by
    have hmem : (as ++ [m]).headD l ∈ as ++ [m] := by cases as <;> simp
    rw [H.next_eq]
    intro heq
    exact (List.nodup_cons.mp H.nodup).1 (heq ▸ hmem)
  rw [listPop]
  simp only [ListHeap.getNext, ListHeap.getPrev, ListHeap.getValue, ListHeap.setPrev,
    ListHeap.setNext, ListHeap.free, hl, hm, hlast, if_true, Option.bind_eq_bind,
    Option.bind_some, hprev, hprev', hne, if_false]
  rfl

/-- The loop of `listRemoveValue` from a node on. -/
theorem listRemoveValueLoop_eq (H : h.IsList l nodes xs) (v : Nat) {n : Nat} :
  ∀ done rest : List Nat, nodes = done ++ rest → v ∉ done.map h.value → rest.length < n →
    v ∉ xs ∧ listRemoveValueLoop h l v n (rest.headD l) = some h
    ∨ ∃ as m bs, nodes = as ++ m :: bs ∧ v ∉ as.map h.value ∧ h.value m = v ∧
      listRemoveValueLoop h l v n (rest.headD l)
        = some (h.removeNode m (as.getLastD l) (bs.headD l))
  := by
  induction n with
  | zero =>
    intro _ _ _ _ hlen
    cases hlen
  | succ n ih =>
    intro done rest hnodes hdone hlen
    cases rest with
    | nil =>
      left
      constructor
      · rw [← H.values, hnodes, List.append_nil]
        exact hdone
      · rw [List.headD_nil, listRemoveValueLoop, if_pos rfl]
        rfl
    | cons m bs =>
      subst hnodes
      have Hm : h.IsList l ((done ++ [m]) ++ bs) xs := by
        rw [List.append_assoc]
        exact H
      have hnext : h.next m = bs.headD l := by
        have := Hm.adj.1
        rwa [List.getLastD_concat] at this
      have hprev' : h.prev m = done.getLastD l := H.adj.2
      have hhead := Hm.live_behind
      have hlast := H.live_before
      have hm : m ∈ h.live := H.live m (by simp)
      have hml : m ≠ l := by
        rintro rfl
        exact (List.nodup_cons.mp H.nodup).1 (by simp)
      rw [List.headD_cons, listRemoveValueLoop, if_neg hml]
      by_cases hv : h.value m = v
      · right
        refine ⟨done, m, bs, rfl, hdone, hv, ?_⟩
        simp only [ListHeap.getNext, ListHeap.getPrev, ListHeap.getValue, ListHeap.setPrev,
          ListHeap.setNext, ListHeap.free, hm, hhead, hlast, if_true, Option.bind_eq_bind,
          Option.bind_some, hnext, hprev', hv]
        rfl
      · simp only [ListHeap.getNext, ListHeap.getPrev, ListHeap.getValue, hm, if_true,
          Option.bind_eq_bind, Option.bind_some, hnext, hprev', hv, if_false]
        apply ih (done ++ [m]) bs (by simp) _ (by simpa using hlen)
        rw [List.map_append, List.mem_append, not_or]
        exact ⟨hdone, by simpa using Ne.symm hv⟩

end Removals

/-! ### Merges -/

section Merges

variable {h : ListHeap} {l1 l2 h2 t2 : Nat} {nodes1 nodes2 xs ys : List Nat}

/-- `listMergeAppend` of a list that is not empty. -/
theorem listMergeAppend_eq (H1 : h.IsList l1 nodes1 xs) (H2 : h.IsList l2 nodes2 ys)
    (hhead : nodes2.head? = some h2) (hlast : nodes2.getLast? = some t2) :
  listMergeAppend h l1 l2
    = some (h.mergeNodes (nodes1.getLastD l1) l1 h2 t2 l2)
  := by
  have hprev1 := H1.prev_eq
  have hnext2 : h.next l2 = h2 := by
    rw [H2.next_eq, List.headD_eq_head?_getD, hhead]
    rfl
  have hprev2 : h.prev l2 = t2 := by
    rw [H2.prev_eq, List.getLastD_eq_getLast?, hlast]
    rfl
  have hl1 : l1 ∈ h.live := H1.live l1 List.mem_cons_self
  have hl2 : l2 ∈ h.live := H2.live l2 List.mem_cons_self
  have ht1 := H1.live _ (getLastD_mem l1 nodes1)
  have hh2 : h2 ∈ h.live := H2.live h2 (List.mem_cons_of_mem l2 (List.mem_of_mem_head? hhead))
  have ht2 : t2 ∈ h.live := H2.live t2 (List.mem_cons_of_mem l2 (List.mem_of_getLast? hlast))
  rw [listMergeAppend]
  simp only [ListHeap.getNext, ListHeap.getPrev, ListHeap.getValue, ListHeap.setPrev,
    ListHeap.setNext, ListHeap.free, hl1, hl2, ht1, hh2, ht2, if_true, Option.bind_eq_bind,
    Option.bind_some, hprev1, hnext2, hprev2, Function.update_self, Function.update_idem,
    H1.nil]
  rfl

/-- `listMergePrepend` of a list that is not empty. -/
theorem listMergePrepend_eq (H1 : h.IsList l1 nodes1 xs) (H2 : h.IsList l2 nodes2 ys)
    (hhead : nodes2.head? = some h2) (hlast : nodes2.getLast? = some t2) :
  listMergePrepend h l1 l2
    = some (h.mergeNodes l1 (nodes1.headD l1) h2 t2 l2)
  := by
  have hnext1 := H1.next_eq
  have hnext2 : h.next l2 = h2 := by
    rw [H2.next_eq, List.headD_eq_head?_getD, hhead]
    rfl
  have hprev2 : h.prev l2 = t2 := by
    rw [H2.prev_eq, List.getLastD_eq_getLast?, hlast]
    rfl
  have hl1 : l1 ∈ h.live := H1.live l1 List.mem_cons_self
  have hl2 : l2 ∈ h.live := H2.live l2 List.mem_cons_self
  have hh1 := H1.live _ (headD_mem l1 nodes1)
  have hh2 : h2 ∈ h.live := H2.live h2 (List.mem_cons_of_mem l2 (List.mem_of_mem_head? hhead))
  have ht2 : t2 ∈ h.live := H2.live t2 (List.mem_cons_of_mem l2 (List.mem_of_getLast? hlast))
  rw [listMergePrepend]
  simp only [ListHeap.getNext, ListHeap.getPrev, ListHeap.getValue, ListHeap.setPrev,
    ListHeap.setNext, ListHeap.free, hl1, hl2, hh1, hh2, ht2, if_true, Option.bind_eq_bind,
    Option.bind_some, hnext1, hnext2, hprev2, H1.nil]
  rfl

end Merges

end Polyc
