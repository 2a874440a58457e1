import Mathlib.Data.Finset.Lattice.Fold
import Mathlib.Order.Lattice.Nat
import Mathlib.Order.Nat
import Polyc.Containers.ListOps

/-!
# Lists refine sequences

Variables hold lists whose nodes are apart.  An operation changes the nodes of the lists that it is
made on and nodes that were not allocated before, so that all other lists stay what they are.
-/

namespace Polyc

/-! ### What an operation leaves -/

/-- A heap differs from an earlier one in nodes of its own or that were not allocated, and these
are what it owns then. -/
structure ListHeap.Frame (h h' : ListHeap) (own own' : List Nat) : Prop where
  /-- The other nodes are kept. -/
  next : ∀ a ∈ h.live, a ∉ own → h'.next a = h.next a
  prev : ∀ a ∈ h.live, a ∉ own → h'.prev a = h.prev a
  value : ∀ a ∈ h.live, a ∉ own → h'.value a = h.value a
  live : ∀ a ∈ h.live, a ∉ own → a ∈ h'.live
  /-- No other node that was allocated is its own. -/
  fresh : ∀ a ∈ own', a ∈ own ∨ a ∉ h.live

namespace ListHeap

variable {h h' h'' : ListHeap} {l n m p c v l2 h2 t2 : Nat} {own own' own'' : List Nat}
  {as bs nodes nodes2 xs ys : List Nat}

/-- A heap that is not changed. -/
theorem Frame.refl (h : ListHeap) (own : List Nat) :
  h.Frame h own own
  := ⟨fun _ _ _ => rfl, fun _ _ _ => rfl, fun _ _ _ => rfl, fun _ ha _ => ha, fun _ => Or.inl⟩

/-- Two changes. -/
theorem Frame.trans (H : h.Frame h' own own') (H' : h'.Frame h'' own' own'') :
  h.Frame h'' own own''
  := by
  have hout : ∀ a ∈ h.live, a ∉ own → a ∉ own' := by
    intro a ha hown hown'
    rcases H.fresh a hown' with hin | hnew
    · exact hown hin
    · exact hnew ha
  constructor
  case next =>
    intro a ha hown
    rw [H'.next a (H.live a ha hown) (hout a ha hown), H.next a ha hown]
  case prev =>
    intro a ha hown
    rw [H'.prev a (H.live a ha hown) (hout a ha hown), H.prev a ha hown]
  case value =>
    intro a ha hown
    rw [H'.value a (H.live a ha hown) (hout a ha hown), H.value a ha hown]
  case live =>
    intro a ha hown
    exact H'.live a (H.live a ha hown) (hout a ha hown)
  case fresh =>
    intro a ha
    rcases H'.fresh a ha with hin | hnew
    · exact H.fresh a hin
    · rw [or_iff_not_imp_left]
      intro hown hlive
      exact hnew (H.live a hlive hown)

/-- A list apart from the nodes that are changed. -/
theorem IsList.frame (H : h.IsList l nodes xs) (F : h.Frame h' own own')
    (hapart : ∀ a ∈ l :: nodes, a ∉ own) :
  h'.IsList l nodes xs
  := by
  apply H.congr
  · exact fun a ha => F.next a (H.live a ha) (hapart a ha)
  · exact fun a ha => F.prev a (H.live a ha) (hapart a ha)
  · exact fun a ha => F.value a (H.live a ha) (hapart a ha)
  · exact fun a ha => F.live a (H.live a ha) (hapart a ha)

/-- A node that is inserted. -/
theorem frame_insertNode (hn : n ∉ h.live) (hp : p ∈ own) (hc : c ∈ own)
    (hown' : ∀ a ∈ own', a ∈ own ∨ a = n) :
  h.Frame (h.insertNode n p c v) own own'
  := by
  have hne : ∀ a ∈ h.live, a ≠ n := by
    rintro a ha rfl
    exact hn ha
  have hother : ∀ a, a ∉ own → a ≠ p ∧ a ≠ c := by
    intro a ha
    constructor
    · rintro rfl
      exact ha hp
    · rintro rfl
      exact ha hc
  constructor
  case next =>
    intro a ha hown
    dsimp only [insertNode]
    rw [Function.update_of_ne (hother a hown).1, Function.update_of_ne (hne a ha)]
  case prev =>
    intro a ha hown
    dsimp only [insertNode]
    rw [Function.update_of_ne (hother a hown).2, Function.update_of_ne (hne a ha)]
  case value =>
    intro a ha _
    exact Function.update_of_ne (hne a ha) _ _
  case live =>
    intro a ha _
    exact Finset.mem_insert_of_mem ha
  case fresh =>
    intro a ha
    rcases hown' a ha with hin | rfl
    · exact Or.inl hin
    · exact Or.inr hn

/-- A node that is removed. -/
theorem frame_removeNode (hm : m ∈ own) (hp : p ∈ own) (hc : c ∈ own) (hsub : own' ⊆ own) :
  h.Frame (h.removeNode m p c) own own'
  := by
  constructor
  case next =>
    intro a _ hown
    apply Function.update_of_ne
    rintro rfl
    exact hown hp
  case prev =>
    intro a _ hown
    apply Function.update_of_ne
    rintro rfl
    exact hown hc
  case value => exact fun _ _ _ => rfl
  case live =>
    intro a ha hown
    apply Finset.mem_erase_of_ne_of_mem _ ha
    rintro rfl
    exact hown hm
  case fresh => exact fun a ha => Or.inl (hsub ha)

/-- A list that is merged into another. -/
theorem frame_mergeNodes (hp : p ∈ own) (hc : c ∈ own) (hh2 : h2 ∈ own) (ht2 : t2 ∈ own)
    (hl2 : l2 ∈ own) (hsub : own' ⊆ own) :
  h.Frame (h.mergeNodes p c h2 t2 l2) own own'
  := by
  have hne : ∀ a, a ∉ own → ∀ b ∈ own, a ≠ b := by
    rintro a ha b hb rfl
    exact ha hb
  constructor
  case next =>
    intro a _ hown
    dsimp only [mergeNodes]
    rw [Function.update_of_ne (hne a hown t2 ht2), Function.update_of_ne (hne a hown p hp)]
  case prev =>
    intro a _ hown
    dsimp only [mergeNodes]
    rw [Function.update_of_ne (hne a hown c hc), Function.update_of_ne (hne a hown h2 hh2)]
  case value => exact fun _ _ _ => rfl
  case live =>
    intro a ha hown
    exact Finset.mem_erase_of_ne_of_mem (hne a hown l2 hl2) ha
  case fresh => exact fun a ha => Or.inl (hsub ha)

/-! ### Walks along a list -/

/-- A list has no more nodes than the heap. -/
theorem IsList.length_le (H : h.IsList l nodes xs) :
  nodes.length ≤ h.live.card
  := by
  rw [← List.toFinset_card_of_nodup (List.nodup_cons.mp H.nodup).2]
  apply Finset.card_le_card
  intro a ha
  exact H.live a (List.mem_cons_of_mem l (List.mem_toFinset.mp ha))

/-- The values forwards from a node on. -/
theorem IsList.walkValues_next {k : Nat} :
  ∀ as bs : List Nat, h.IsList l (as ++ bs) xs → bs.length < k →
    h.walkValues h.getNext l k (bs.headD l) = some (bs.map h.value)
  := by
  induction k with
  | zero =>
    intro _ _ _ hlen
    cases hlen
  | succ k ih =>
    intro as bs H hlen
    cases bs with
    | nil =>
      rw [List.headD_nil, walkValues, if_pos rfl]
      rfl
    | cons b bs =>
      have hb : b ∈ h.live := H.live b (by simp)
      have hbl : b ≠ l := by
        rintro rfl
        exact (List.nodup_cons.mp H.nodup).1 (by simp)
      have H' : h.IsList l ((as ++ [b]) ++ bs) xs := by
        rw [List.append_assoc]
        exact H
      have hnext : h.next b = bs.headD l := by
        have := H'.adj.1
        rwa [List.getLastD_concat] at this
      rw [List.headD_cons, walkValues, if_neg hbl, getValue_eq hb, getNext_eq hb, hnext]
      simp only [Option.bind_eq_bind, Option.bind_some]
      rw [ih (as ++ [b]) bs H' (by simpa using hlen)]
      rfl

/-- The values backwards from a node on. -/
theorem IsList.walkValues_prev {k : Nat} :
  ∀ as bs : List Nat, h.IsList l (as ++ bs) xs → as.length < k →
    h.walkValues h.getPrev l k (as.getLastD l) = some (as.map h.value).reverse
  := by
  induction k with
  | zero =>
    intro _ _ _ hlen
    cases hlen
  | succ k ih =>
    intro as bs H hlen
    rcases List.eq_nil_or_concat' as with rfl | ⟨as, a, rfl⟩
    · rw [List.getLastD_nil, walkValues, if_pos rfl]
      rfl
    · have ha : a ∈ h.live := H.live a (by simp)
      have hal : a ≠ l := by
        rintro rfl
        exact (List.nodup_cons.mp H.nodup).1 (by simp)
      have H' : h.IsList l (as ++ a :: bs) xs := by
        rw [List.append_assoc] at H
        exact H
      have hprev : h.prev a = as.getLastD l := H'.adj.2
      rw [List.getLastD_concat, walkValues, if_neg hal, getValue_eq ha, getPrev_eq ha, hprev]
      simp only [Option.bind_eq_bind, Option.bind_some]
      rw [ih as (a :: bs) H' (by simpa using hlen), List.map_append, List.reverse_append]
      rfl

/-- A list looks like its values. -/
theorem IsList.looks (H : h.IsList l nodes xs) :
  h.Looks l xs
  := by
  have hl : l ∈ h.live := H.live l List.mem_cons_self
  have hlen : nodes.length = xs.length := by rw [← H.values, List.length_map]
  constructor
  case ring => exact ⟨nodes, hlen, H.walk, H.live⟩
  case forwards =>
    refine ⟨_, getNext_eq hl, ?_⟩
    rw [H.next_eq, walkValues_next [] nodes H (by omega), H.values]
  case backwards =>
    refine ⟨_, getPrev_eq hl, ?_⟩
    have H' : h.IsList l (nodes ++ []) xs := by rwa [List.append_nil]
    rw [H.prev_eq, walkValues_prev nodes [] H' (by omega), H.values]

/-- The node at a position, from a node on. -/
theorem IsList.walkTo_eq :
  ∀ cs as bs : List Nat, h.IsList l (as ++ (cs ++ bs)) xs →
    h.walkTo cs.length ((cs ++ bs).headD l) = some (bs.headD l)
  := by
  intro cs
  induction cs with
  | nil =>
    intro as bs _
    rfl
  | cons a cs ih =>
    intro as bs H
    have ha : a ∈ h.live := H.live a (by simp)
    have H' : h.IsList l ((as ++ [a]) ++ (cs ++ bs)) xs := by
      rw [List.append_assoc]
      exact H
    have hnext : h.next a = (cs ++ bs).headD l := by
      have := H'.adj.1
      rwa [List.getLastD_concat] at this
    rw [List.cons_append, List.headD_cons, List.length_cons, walkTo, getNext_eq ha, hnext]
    exact ih (as ++ [a]) bs H'

/-! ### What each operation makes -/

/-- A list comes to have some values in a heap that is changed in nodes of its own. -/
def Becomes (h : ListHeap) (own : List Nat) (h' : ListHeap) (l : Nat) (xs : List Nat) : Prop :=
  ∃ nodes, h'.IsList l nodes xs ∧ h.Frame h' own (l :: nodes)

/-- A list with a node inserted. -/
theorem IsList.insert_becomes (H : h.IsList l (as ++ bs) xs) (hn : n ∉ h.live) (v : Nat) :
  h.Becomes (l :: (as ++ bs)) (h.insertNode n (as.getLastD l) (bs.headD l) v) l
    (as.map h.value ++ v :: bs.map h.value)
  := by
  refine ⟨_, H.insert hn v, frame_insertNode hn ?_ ?_ ?_⟩
  · exact List.cons_subset_cons l (List.subset_append_left as bs) (getLastD_mem l as)
  · exact List.cons_subset_cons l (List.subset_append_right as bs) (headD_mem l bs)
  · intro a ha
    simp only [List.mem_cons, List.mem_append] at ha ⊢
    tauto

/-- A list with a node removed. -/
theorem IsList.remove_becomes (H : h.IsList l (as ++ m :: bs) xs) :
  h.Becomes (l :: (as ++ m :: bs)) (h.removeNode m (as.getLastD l) (bs.headD l)) l
    (as.map h.value ++ bs.map h.value)
  := by
  have hsub : l :: (as ++ bs) ⊆ l :: (as ++ m :: bs) := by
    intro a ha
    simp only [List.mem_cons, List.mem_append] at ha ⊢
    tauto
  refine ⟨_, H.remove, frame_removeNode (by simp) (hsub ?_) (hsub ?_) hsub⟩
  · exact List.cons_subset_cons l (List.subset_append_left as bs) (getLastD_mem l as)
  · exact List.cons_subset_cons l (List.subset_append_right as bs) (headD_mem l bs)

/-- A list with another one merged into it. -/
theorem IsList.merge_becomes (H : h.IsList l (as ++ bs) xs) (H2 : h.IsList l2 nodes2 ys)
    (hhead : nodes2.head? = some h2) (hlast : nodes2.getLast? = some t2)
    (hapart : ∀ a ∈ l2 :: nodes2, a ∉ l :: (as ++ bs)) :
  h.Becomes (l :: (as ++ bs) ++ l2 :: nodes2)
    (h.mergeNodes (as.getLastD l) (bs.headD l) h2 t2 l2) l
    (as.map h.value ++ (ys ++ bs.map h.value))
  := by
  have hp := List.cons_subset_cons l (List.subset_append_left as bs) (getLastD_mem l as)
  have hc := List.cons_subset_cons l (List.subset_append_right as bs) (headD_mem l bs)
  refine ⟨_, H.merge H2 hhead hlast hapart, frame_mergeNodes ?_ ?_ ?_ ?_ ?_ ?_⟩
  · exact List.mem_append_left _ hp
  · exact List.mem_append_left _ hc
  · exact List.mem_append_right _ (List.mem_cons_of_mem l2 (List.mem_of_mem_head? hhead))
  · exact List.mem_append_right _ (List.mem_cons_of_mem l2 (List.mem_of_getLast? hlast))
  · simp
  · intro a ha
    simp only [List.mem_cons, List.mem_append] at ha ⊢
    tauto

end ListHeap

section Operations

variable {malloc : ListMalloc} {h : ListHeap} {l : Nat} {nodes xs : List Nat}

/-- `listNew`. -/
theorem listNew_becomes (hn : malloc h.mallocs h.live ∉ h.live) :
  h.Becomes [] (listNew malloc h).1 (listNew malloc h).2 []
  := by
  have hne : ∀ a ∈ h.live, a ≠ malloc h.mallocs h.live := by
    rintro a ha heq
    exact hn (heq ▸ ha)
  refine ⟨[], ?_, ?_⟩
  · constructor
    case walk =>
      constructor
      · apply List.isChain_pair.mpr
        constructor
        · exact Function.update_self _ _ _
        · exact Function.update_self _ _ _
      · exact List.nodup_singleton _
      · exact List.nodup_singleton _
    case live =>
      intro a ha
      rw [List.mem_singleton] at ha
      rw [ha]
      exact Finset.mem_insert_self _ _
    case nil => exact Function.update_self _ _ _
    case values => rfl
  · constructor
    case next => exact fun a ha _ => Function.update_of_ne (hne a ha) _ _
    case prev => exact fun a ha _ => Function.update_of_ne (hne a ha) _ _
    case value => exact fun a ha _ => Function.update_of_ne (hne a ha) _ _
    case live => exact fun a ha _ => Finset.mem_insert_of_mem ha
    case fresh =>
      intro a ha
      right
      rw [List.mem_singleton] at ha
      rw [ha]
      exact hn

/-- `listAppend`. -/
theorem listAppend_becomes (H : h.IsList l nodes xs) (hn : malloc h.mallocs h.live ∉ h.live)
    (v : Nat) :
  ∃ h', listAppend malloc h l v = some h' ∧ h.Becomes (l :: nodes) h' l (xs ++ [v])
  := by
  have H' : h.IsList l (nodes ++ []) xs := by rwa [List.append_nil]
  have hb := H'.insert_becomes hn v
  rw [List.append_nil, H.values] at hb
  exact ⟨_, listAppend_eq H hn v, hb⟩

/-- `listPrepend`. -/
theorem listPrepend_becomes (H : h.IsList l nodes xs) (hn : malloc h.mallocs h.live ∉ h.live)
    (v : Nat) :
  ∃ h', listPrepend malloc h l v = some h' ∧ h.Becomes (l :: nodes) h' l (v :: xs)
  := by
  have H' : h.IsList l ([] ++ nodes) xs := H
  have hb := H'.insert_becomes hn v
  rw [H.values] at hb
  exact ⟨_, listPrepend_eq H hn v, hb⟩

/-- `listDeque`. -/
theorem listDeque_becomes (H : h.IsList l nodes xs) :
  ∃ h', listDeque h l = some (h', xs.headD 0) ∧ h.Becomes (l :: nodes) h' l xs.tail
  := by
  have hvalues := H.values
  cases nodes with
  | nil =>
    subst hvalues
    have hl : l ∈ h.live := H.live l List.mem_cons_self
    have hnext : h.next l = l := H.next_eq
    refine ⟨h, ?_, [], H, ListHeap.Frame.refl h _⟩
    rw [listDeque, ListHeap.getNext_eq hl, hnext]
    simp
  | cons m bs =>
    have H' : h.IsList l ([] ++ m :: bs) xs := H
    subst hvalues
    exact ⟨_, listDeque_eq H, H'.remove_becomes⟩

/-- `listPop`. -/
theorem listPop_becomes (H : h.IsList l nodes xs) :
  ∃ h', listPop h l = some (h', xs.getLastD 0) ∧ h.Becomes (l :: nodes) h' l xs.dropLast
  := by
  have hvalues := H.values
  rcases List.eq_nil_or_concat' nodes with rfl | ⟨as, m, rfl⟩
  · subst hvalues
    have hl : l ∈ h.live := H.live l List.mem_cons_self
    have hnext : h.next l = l := H.next_eq
    refine ⟨h, ?_, [], H, ListHeap.Frame.refl h _⟩
    rw [listPop, ListHeap.getNext_eq hl, hnext]
    simp
  · have hb := H.remove_becomes
    rw [List.map_append, List.map_cons, List.map_nil] at hvalues
    rw [List.map_nil, List.append_nil] at hb
    refine ⟨h.removeNode m (as.getLastD l) l, ?_, ?_⟩
    · rw [listPop_eq H, ← hvalues, List.getLastD_concat]
    · rw [← hvalues, List.dropLast_concat]
      exact hb

/-- A value inserted behind some values. -/
theorem insertIdx_append (xs ys : List Nat) (v : Nat) :
  (xs ++ ys).insertIdx xs.length v = xs ++ v :: ys
  := by
  induction xs with
  | nil => rfl
  | cons x xs ih => rw [List.cons_append, List.length_cons, List.insertIdx_succ_cons, ih]; rfl

/-- `listInsertValueBefore` the node at a position. -/
theorem listInsertValueBefore_becomes (H : h.IsList l nodes xs)
    (hn : malloc h.mallocs h.live ∉ h.live) {pos : Nat} (hpos : pos ≤ xs.length) (v : Nat) :
  ∃ it h', h.walkTo (pos + 1) l = some it ∧ listInsertValueBefore malloc h it v = some h'
    ∧ h.Becomes (l :: nodes) h' l (xs.insertIdx pos v)
  := by
  have hlen : nodes.length = xs.length := by rw [← H.values, List.length_map]
  obtain ⟨as, bs, rfl, rfl⟩ : ∃ as bs, nodes = as ++ bs ∧ as.length = pos := by
    refine ⟨nodes.take pos, nodes.drop pos, (List.take_append_drop pos nodes).symm, ?_⟩
    rw [List.length_take]
    omega
  have hl : l ∈ h.live := H.live l List.mem_cons_self
  refine ⟨_, _, ?_, listInsertValueBefore_eq H hn v, ?_⟩
  · rw [ListHeap.walkTo, ListHeap.getNext_eq hl, H.next_eq]
    exact ListHeap.IsList.walkTo_eq as [] bs H
  · have hb := H.insert_becomes hn v
    have hinsert : xs.insertIdx as.length v = as.map h.value ++ v :: bs.map h.value := by
      rw [← H.values, List.map_append, ← insertIdx_append, List.length_map]
    rw [hinsert]
    exact hb

/-- `listRemoveValue`. -/
theorem listRemoveValue_becomes (H : h.IsList l nodes xs) (v : Nat) :
  ∃ h', listRemoveValue h l v = some h' ∧ h.Becomes (l :: nodes) h' l (xs.erase v)
  := by
  have hl : l ∈ h.live := H.live l List.mem_cons_self
  have hvalues := H.values
  rw [listRemoveValue, ListHeap.getNext_eq hl, H.next_eq]
  rcases listRemoveValueLoop_eq H v [] nodes rfl (by simp) (Nat.lt_succ_of_le H.length_le)
    with ⟨hv, hloop⟩ | ⟨as, m, bs, rfl, hv, hm, hloop⟩
  · refine ⟨h, hloop, nodes, ?_, ListHeap.Frame.refl h _⟩
    rwa [List.erase_of_not_mem hv]
  · refine ⟨_, hloop, ?_⟩
    rw [List.map_append, List.map_cons] at hvalues
    rw [← hvalues, List.erase_append_right _ hv, hm, List.erase_cons_head]
    exact H.remove_becomes

/-- The merges, of a list that is not empty. -/
theorem listMerge_becomes {l2 : Nat} {nodes2 ys : List Nat} (H : h.IsList l nodes xs)
    (H2 : h.IsList l2 nodes2 ys) (hapart : ∀ a ∈ l2 :: nodes2, a ∉ l :: nodes) (hys : ys ≠ []) :
  (∃ h', listMergeAppend h l l2 = some h'
      ∧ h.Becomes (l :: nodes ++ l2 :: nodes2) h' l (xs ++ ys))
    ∧ ∃ h', listMergePrepend h l l2 = some h'
      ∧ h.Becomes (l :: nodes ++ l2 :: nodes2) h' l (ys ++ xs)
  := by
  have hne : nodes2 ≠ [] := by
    rintro rfl
    exact hys H2.values.symm
  have hhead := List.head?_eq_some_head hne
  have hlast := List.getLast?_eq_some_getLast hne
  constructor
  · have H' : h.IsList l (nodes ++ []) xs := by rwa [List.append_nil]
    have hb := H'.merge_becomes H2 hhead hlast (by rwa [List.append_nil])
    rw [List.append_nil, H.values, List.map_nil, List.append_nil] at hb
    exact ⟨_, listMergeAppend_eq H H2 hhead hlast, hb⟩
  · have H' : h.IsList l ([] ++ nodes) xs := H
    have hb := H'.merge_becomes H2 hhead hlast hapart
    rw [H.values] at hb
    exact ⟨_, listMergePrepend_eq H H2 hhead hlast, hb⟩

/-- The loop of `listCopy` from a node on. -/
theorem listCopyLoop_becomes (hmalloc : ∀ n live, malloc n live ∉ live) {cpy k : Nat} :
  ∀ (as bs : List Nat) (h' : ListHeap) (nodes' ys : List Nat),
    h'.IsList l (as ++ bs) xs → h'.IsList cpy nodes' ys →
    (∀ a ∈ l :: (as ++ bs), a ∉ cpy :: nodes') → bs.length < k →
    ∃ h'', listCopyLoop malloc l cpy k h' (bs.headD l) = some h''
      ∧ h'.Becomes (cpy :: nodes') h'' cpy (ys ++ bs.map h'.value)
  := by
  induction k with
  | zero =>
    intro _ _ _ _ _ _ _ _ hlen
    cases hlen
  | succ k ih =>
    intro as bs h' nodes' ys H C hapart hlen
    cases bs with
    | nil =>
      refine ⟨h', ?_, nodes', ?_, ListHeap.Frame.refl h' _⟩
      · rw [List.headD_nil, listCopyLoop, if_pos rfl]
        rfl
      · rwa [List.map_nil, List.append_nil]
    | cons b bs =>
      have hb : b ∈ h'.live := H.live b (by simp)
      have hbl : b ≠ l := by
        rintro rfl
        exact (List.nodup_cons.mp H.nodup).1 (by simp)
      obtain ⟨h1, happend, nodes1, C1, F1⟩ :=
        listAppend_becomes C (hmalloc h'.mallocs h'.live) (h'.value b)
      have H1 := H.frame F1 hapart
      have hapart1 : ∀ a ∈ l :: (as ++ b :: bs), a ∉ cpy :: nodes1 := by
        intro a ha ha1
        rcases F1.fresh a ha1 with hin | hnew
        · exact hapart a ha hin
        · exact hnew (H.live a ha)
      have H1' : h1.IsList l ((as ++ [b]) ++ bs) xs := by
        rw [List.append_assoc]
        exact H1
      have hnext : h1.next b = bs.headD l := by
        have := H1'.adj.1
        rwa [List.getLastD_concat] at this
      obtain ⟨h2, hloop, nodes2, C2, F2⟩ := ih (as ++ [b]) bs h1 nodes1 _ H1' C1
        (by simpa using hapart1) (by simpa using hlen)
      have hvalue : ∀ a ∈ bs, h1.value a = h'.value a := by
        intro a ha
        have hmem : a ∈ l :: (as ++ b :: bs) := by simp [ha]
        exact F1.value a (H.live a hmem) (hapart a hmem)
      refine ⟨h2, ?_, nodes2, ?_, F1.trans F2⟩
      · have hb1 : b ∈ h1.live := H1.live b (by simp)
        rw [List.headD_cons, listCopyLoop, if_neg hbl, ListHeap.getValue_eq hb]
        simp only [Option.bind_eq_bind, Option.bind_some, happend]
        rw [ListHeap.getNext_eq hb1, hnext]
        exact hloop
      · rw [List.map_congr_left hvalue, List.append_assoc] at C2
        exact C2

/-- `listCopy`. -/
theorem listCopy_becomes (H : h.IsList l nodes xs) (hmalloc : ∀ n live, malloc n live ∉ live) :
  ∃ h' cpy, listCopy malloc h l = some (h', cpy) ∧ h.Becomes [] h' cpy xs
  := by
  obtain ⟨nodes1, C1, F1⟩ := listNew_becomes (hmalloc h.mallocs h.live)
  have H1 := H.frame F1 (fun _ _ => List.not_mem_nil)
  have hapart : ∀ a ∈ l :: nodes, a ∉ (listNew malloc h).2 :: nodes1 := by
    intro a ha ha1
    rcases F1.fresh a ha1 with hin | hnew
    · cases hin
    · exact hnew (H.live a ha)
  obtain ⟨h2, hloop, nodes2, C2, F2⟩ := listCopyLoop_becomes hmalloc [] nodes _ nodes1 [] H1 C1
    hapart (Nat.lt_succ_of_le H.length_le)
  have hl : l ∈ (listNew malloc h).1.live := H1.live l List.mem_cons_self
  refine ⟨h2, (listNew malloc h).2, ?_, nodes2, ?_, F1.trans F2⟩
  · rw [listCopy]
    simp only [ListHeap.getNext_eq hl, H1.next_eq, Option.bind_eq_bind, Option.bind_some, hloop]
    rfl
  · rwa [H1.values] at C2

end Operations

/-! ### Lists held by variables -/

/-- Variables hold lists, whose nodes are apart. -/
structure ListState.Represents (s : ListState) (A : Sequences) (nodes : Nat → List Nat) :
    Prop where
  lists : ∀ x xs, A x = some xs → s.heap.IsList (s.vars x) (nodes x) xs
  apart : ∀ x y, x ≠ y → A x ≠ none → A y ≠ none →
    ∀ a ∈ s.vars x :: nodes x, a ∉ s.vars y :: nodes y

section Variables

variable {s : ListState} {A : Sequences} {nodes : Nat → List Nat}

/-- The list of a variable. -/
theorem ListState.Represents.list (R : s.Represents A nodes) {x : Nat} (hx : A x ≠ none) :
  s.heap.IsList (s.vars x) (nodes x) (A.get x)
  := by
  obtain ⟨xs, hxs⟩ := Option.ne_none_iff_exists'.mp hx
  rw [Sequences.get, hxs]
  exact R.lists x xs hxs

/-- A variable that is not used any more. -/
theorem ListState.Represents.drop (R : s.Represents A nodes) (y : Nat) :
  s.Represents (A.drop y) nodes
  := by
  have hsub : ∀ x xs, A.drop y x = some xs → A x = some xs := by
    intro x xs hx
    rw [Sequences.drop, Function.update_apply] at hx
    split at hx
    · cases hx
    · exact hx
  have hne : ∀ x, A.drop y x ≠ none → A x ≠ none := by
    intro x hx
    obtain ⟨xs, hxs⟩ := Option.ne_none_iff_exists'.mp hx
    rw [hsub x xs hxs]
    exact Option.some_ne_none xs
  exact ⟨fun x xs hx => R.lists x xs (hsub x xs hx),
    fun x z hxz hx hz => R.apart x z hxz (hne x hx) (hne z hz)⟩

/-- A variable that holds a list that an operation makes of nodes of its own. -/
theorem ListState.Represents.put (R : s.Represents A nodes) {x l' : Nat} {own xs' : List Nat}
    {h' : ListHeap} (hown : ∀ y, y ≠ x → A y ≠ none → ∀ a ∈ s.vars y :: nodes y, a ∉ own)
    (hb : s.heap.Becomes own h' l' xs') :
  ∃ nodes', ListState.Represents ⟨h', Function.update s.vars x l'⟩ (A.put x xs') nodes'
  := by
  obtain ⟨ns, H, F⟩ := hb
  have hnew : ∀ y, y ≠ x → A y ≠ none → ∀ a ∈ s.vars y :: nodes y, a ∉ l' :: ns := by
    intro y hyx hy a ha ha'
    rcases F.fresh a ha' with hin | hfresh
    · exact hown y hyx hy a ha hin
    · exact hfresh ((R.list hy).live a ha)
  use Function.update nodes x ns
  constructor
  case lists =>
    intro y ys hy
    dsimp only
    rcases eq_or_ne y x with rfl | hyx
    · rw [Sequences.put, Function.update_self] at hy
      cases hy
      rw [Function.update_self, Function.update_self]
      exact H
    · rw [Sequences.put, Function.update_of_ne hyx] at hy
      rw [Function.update_of_ne hyx, Function.update_of_ne hyx]
      have hne : A y ≠ none := by
        rw [hy]
        exact Option.some_ne_none ys
      exact (R.lists y ys hy).frame F (hown y hyx hne)
  case apart =>
    intro y z hyz hy hz
    dsimp only
    rcases eq_or_ne y x with rfl | hyx
    · rw [Sequences.put, Function.update_of_ne hyz.symm] at hz
      rw [Function.update_self, Function.update_self, Function.update_of_ne hyz.symm,
        Function.update_of_ne hyz.symm]
      intro a ha ha'
      exact hnew z hyz.symm hz a ha' ha
    · rw [Sequences.put, Function.update_of_ne hyx] at hy
      rw [Function.update_of_ne hyx, Function.update_of_ne hyx]
      rcases eq_or_ne z x with rfl | hzx
      · rw [Function.update_self, Function.update_self]
        exact hnew y hyz hy
      · rw [Sequences.put, Function.update_of_ne hzx] at hz
        rw [Function.update_of_ne hzx, Function.update_of_ne hzx]
        exact R.apart y z hyz hy hz

/-- A variable whose list an operation changes. -/
theorem ListState.Represents.change (R : s.Represents A nodes) {x : Nat} (hx : A x ≠ none)
    {xs' : List Nat} {h' : ListHeap}
    (hb : s.heap.Becomes (s.vars x :: nodes x) h' (s.vars x) xs') :
  ∃ nodes', ListState.Represents ⟨h', s.vars⟩ (A.put x xs') nodes'
  := by
  have := R.put (fun y hyx hy => R.apart y x hyx hy hx) hb
  rwa [Function.update_eq_self] at this

/-- A variable into whose list that of another one is merged. -/
theorem ListState.Represents.merge (R : s.Represents A nodes) {x y : Nat} (hx : A x ≠ none)
    (hy : A y ≠ none) {xs' : List Nat} {h' : ListHeap}
    (hb : s.heap.Becomes (s.vars x :: nodes x ++ s.vars y :: nodes y) h' (s.vars x) xs') :
  ∃ nodes', ListState.Represents ⟨h', s.vars⟩ ((A.drop y).put x xs') nodes'
  := by
  have hown : ∀ z, z ≠ x → A.drop y z ≠ none → ∀ a ∈ s.vars z :: nodes z,
      a ∉ s.vars x :: nodes x ++ s.vars y :: nodes y := by
    intro z hzx hz a ha hown
    have hzy : z ≠ y := by
      rintro rfl
      exact hz (Function.update_self _ _ _)
    rw [Sequences.drop, Function.update_of_ne hzy] at hz
    rw [List.mem_append] at hown
    rcases hown with hin | hin
    · exact R.apart z x hzx hz hx a ha hin
    · exact R.apart z y hzy hz hy a ha hin
  have := (R.drop y).put hown hb
  rwa [Function.update_eq_self] at this

/-- A call on lists that there are, none of which is merged empty. -/
theorem listStep_represents {malloc : ListMalloc} (hmalloc : ∀ n live, malloc n live ∉ live)
    (s : ListState) (A : Sequences) (op : ListOp) (R : ∃ nodes, s.Represents A nodes)
    (hop : A.Calls op ∧ A.MergesNonempty op) :
  ∃ s' r, listStep malloc s op = some (s', r) ∧ r = A.answer op
    ∧ ∃ nodes', s'.Represents (A.step op) nodes'
  := by
  obtain ⟨nodes, R⟩ := R
  obtain ⟨hcall, hmerge⟩ := hop
  have hfresh := hmalloc s.heap.mallocs s.heap.live
  cases op with
  | new x =>
    refine ⟨_, _, rfl, rfl, R.put ?_ (listNew_becomes hfresh)⟩
    exact fun _ _ _ _ _ => List.not_mem_nil
  | append x value =>
    obtain ⟨h', happend, hb⟩ := listAppend_becomes (R.list hcall) hfresh value
    refine ⟨_, _, ?_, rfl, R.change hcall hb⟩
    rw [listStep, happend]
    rfl
  | prepend x value =>
    obtain ⟨h', hprepend, hb⟩ := listPrepend_becomes (R.list hcall) hfresh value
    refine ⟨_, _, ?_, rfl, R.change hcall hb⟩
    rw [listStep, hprepend]
    rfl
  | pop x =>
    obtain ⟨h', hpop, hb⟩ := listPop_becomes (R.list hcall)
    refine ⟨_, _, ?_, rfl, R.change hcall hb⟩
    rw [listStep, hpop]
    rfl
  | deque x =>
    obtain ⟨h', hdeque, hb⟩ := listDeque_becomes (R.list hcall)
    refine ⟨_, _, ?_, rfl, R.change hcall hb⟩
    rw [listStep, hdeque]
    rfl
  | insertValueBefore x pos value =>
    obtain ⟨it, h', hit, hinsert, hb⟩ :=
      listInsertValueBefore_becomes (R.list hcall.1) hfresh hcall.2 value
    refine ⟨_, _, ?_, rfl, R.change hcall.1 hb⟩
    rw [listStep, hit]
    simp only [Option.bind_eq_bind, Option.bind_some, hinsert]
    rfl
  | removeValue x value =>
    obtain ⟨h', hremove, hb⟩ := listRemoveValue_becomes (R.list hcall) value
    refine ⟨_, _, ?_, rfl, R.change hcall hb⟩
    rw [listStep, hremove]
    rfl
  | copy x y =>
    obtain ⟨h', cpy, hcopy, hb⟩ := listCopy_becomes (R.list hcall.1) hmalloc
    refine ⟨_, _, ?_, rfl, R.put (fun _ _ _ _ _ => List.not_mem_nil) hb⟩
    rw [listStep, hcopy]
    rfl
  | mergeAppend x y =>
    obtain ⟨hx, hy, hxy⟩ := hcall
    obtain ⟨⟨h', happend, hb⟩, -⟩ :=
      listMerge_becomes (R.list hx) (R.list hy) (R.apart y x hxy.symm hy hx) hmerge
    refine ⟨_, _, ?_, rfl, R.merge hx hy hb⟩
    rw [listStep, happend]
    rfl
  | mergePrepend x y =>
    obtain ⟨hx, hy, hxy⟩ := hcall
    obtain ⟨-, h', hprepend, hb⟩ :=
      listMerge_becomes (R.list hx) (R.list hy) (R.apart y x hxy.symm hy hx) hmerge
    refine ⟨_, _, ?_, rfl, R.merge hx hy hb⟩
    rw [listStep, hprepend]
    rfl

end Variables

/-- Runs in which no list is merged empty are those of sequences. -/
theorem lists_refine (malloc : ListMalloc) (hmalloc : ∀ n live, malloc n live ∉ live)
    (ops : List ListOp)
    (hcalls : Refinement.SpecGuarded Sequences.step Sequences.Calls (fun _ => none) ops)
    (hmerges : Refinement.SpecGuarded Sequences.step Sequences.MergesNonempty (fun _ => none)
      ops) :
  ListsRefine malloc ops
  := by
  apply Refinement.follows_of_specGuarded (fun s A => ∃ nodes, s.Represents A nodes) _
    (listStep_represents hmalloc) _ (hcalls.and hmerges)
  · rintro s A ⟨nodes, R⟩ x xs hx
    exact (R.lists x xs hx).looks
  · use fun _ => []
    constructor
    · intro _ _ hx
      cases hx
    · intro _ _ _ hx
      exact absurd rfl hx

/-- An allocator that answers the address above all that are allocated. -/
def mallocAbove : ListMalloc := fun _ live => live.sup id + 1

/-- Its answers are not allocated. -/
theorem mallocAbove_fresh (n : Nat) (live : Finset Nat) :
  mallocAbove n live ∉ live
  := by
  intro hmem
  have : mallocAbove n live ≤ live.sup id := Finset.le_sup (f := id) hmem
  rw [mallocAbove] at this
  omega

/-- Two lists that are filled, merged, copied and emptied. -/
theorem lists_refine_merge :
  ListsRefine mallocAbove [.new 0, .append 0 5, .new 1, .prepend 1 7, .mergeAppend 0 1,
    .insertValueBefore 0 1 6, .copy 0 2, .removeValue 2 6, .pop 0, .deque 2]
  := by
  apply lists_refine mallocAbove mallocAbove_fresh
  · simp [Refinement.SpecGuarded, Sequences.step, Sequences.Calls, Sequences.put, Sequences.drop,
      Sequences.get]
  · simp [Refinement.SpecGuarded, Sequences.step, Sequences.MergesNonempty, Sequences.put,
      Sequences.get]

/-- An empty list that is merged leaves its freed sentinel in the other one. -/
theorem not_lists_refine :
  (∀ n live, mallocAbove n live ∉ live)
    ∧ Refinement.SpecGuarded Sequences.step Sequences.Calls (fun _ => none)
      [.new 0, .new 1, .mergeAppend 0 1]
    ∧ ¬ ListsRefine mallocAbove [.new 0, .new 1, .mergeAppend 0 1]
  := by
  refine ⟨mallocAbove_fresh, ?_, ?_⟩
  · simp [Refinement.SpecGuarded, Sequences.step, Sequences.Calls, Sequences.put]
  · rintro ⟨-, s1, r1, h1, -, -, s2, r2, h2, -, -, s3, r3, h3, -, hlooks⟩
    cases h1
    cases h2
    cases h3
    obtain ⟨a, ha, hvalues⟩ := (hlooks 0 [] rfl).forwards
    cases ha
    exact absurd hvalues (by decide)

end Polyc
