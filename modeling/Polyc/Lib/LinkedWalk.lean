import Mathlib.Data.List.Chain
import Mathlib.Data.List.Nodup
import Mathlib.Tactic.Use

/-!
# Doubly linked walks

Links give every address a successor and a predecessor.  A walk is a list of addresses in which
neighbours are linked both ways; no address is left twice nor reached twice, so that a walk may
return to where it starts, as a ring does.  Other addresses are spliced into a walk, and one is
taken out of it, by linking their ends.
-/

/-- Successors and predecessors of addresses. -/
structure Links (A : Type*) where
  next : A → A
  prev : A → A

namespace Links

variable {A : Type*}

/-- Two addresses are linked both ways. -/
def Adj (L : Links A) (a b : A) : Prop := L.next a = b ∧ L.prev b = a

/-- A list of addresses in which neighbours are linked. -/
structure Walk (L : Links A) (xs : List A) : Prop where
  /-- Neighbours are linked. -/
  chain : xs.IsChain L.Adj
  /-- No address is left twice. -/
  sources : xs.dropLast.Nodup
  /-- No address is reached twice. -/
  targets : xs.tail.Nodup

variable {L L' : Links A}

/-- Addresses stay linked when the successors of those that are left and the predecessors of those
that are reached stay. -/
theorem chain_congr {xs : List A}
    (hnext : ∀ a ∈ xs.dropLast, L'.next a = L.next a)
    (hprev : ∀ a ∈ xs.tail, L'.prev a = L.prev a) (h : xs.IsChain L.Adj) :
  xs.IsChain L'.Adj
  := by
  induction xs with
  | nil => exact List.IsChain.nil
  | cons a xs ih =>
    cases xs with
    | nil => exact List.isChain_singleton a
    | cons b xs =>
      rw [List.isChain_cons_cons] at h ⊢
      constructor
      · constructor
        · rw [hnext a (by simp), h.1.1]
        · rw [hprev b (by simp), h.1.2]
      · apply ih _ _ h.2
        · intro c hc
          apply hnext
          rw [List.dropLast_cons_of_ne_nil (List.cons_ne_nil b xs)]
          exact List.mem_cons_of_mem a hc
        · intro c hc
          apply hprev
          exact List.mem_cons_of_mem b hc

/-- A walk stays one under the same conditions. -/
theorem Walk.congr {xs : List A} (h : L.Walk xs)
    (hnext : ∀ a ∈ xs.dropLast, L'.next a = L.next a)
    (hprev : ∀ a ∈ xs.tail, L'.prev a = L.prev a) :
  L'.Walk xs
  := ⟨chain_congr hnext hprev h.chain, h.sources, h.targets⟩

/-- The neighbours at a place of a walk are linked. -/
theorem Walk.adj {xs ys : List A} {p c : A} (h : L.Walk (xs ++ p :: c :: ys)) :
  L.Adj p c
  := (List.isChain_append_cons_cons.mp h.chain).2.1

/-- The addresses that a walk leaves, about a place. -/
theorem dropLast_split (xs ys : List A) (p c : A) :
  (xs ++ p :: c :: ys).dropLast = (xs ++ [p]) ++ (c :: ys).dropLast
  := by
  rw [List.append_cons, List.dropLast_append_of_ne_nil (List.cons_ne_nil c ys)]

/-- The addresses that a walk reaches, about a place. -/
theorem tail_split (xs ys : List A) (p c : A) :
  (xs ++ p :: c :: ys).tail = (xs ++ [p]).tail ++ c :: ys
  := by
  rw [List.append_cons, List.tail_append_of_ne_nil (by simp)]

/-- The two parts of a walk about a place stay linked when only the ends at that place are linked
anew. -/
theorem Walk.parts {xs ys : List A} {p c : A} (h : L.Walk (xs ++ p :: c :: ys))
    (hnext : ∀ a ∈ (xs ++ p :: c :: ys).dropLast, a ≠ p → L'.next a = L.next a)
    (hprev : ∀ a ∈ (xs ++ p :: c :: ys).tail, a ≠ c → L'.prev a = L.prev a) :
  (xs ++ [p]).IsChain L'.Adj ∧ (c :: ys).IsChain L'.Adj
  := by
  have hsources := h.sources
  have htargets := h.targets
  rw [dropLast_split, List.nodup_append] at hsources
  rw [tail_split, List.nodup_append] at htargets
  rw [dropLast_split] at hnext
  rw [tail_split] at hprev
  obtain ⟨hleft, -, hright⟩ := List.isChain_append_cons_cons.mp h.chain
  constructor
  · apply chain_congr _ _ hleft
    · intro a ha
      rw [List.dropLast_concat] at ha
      apply hnext a (by simp [ha])
      rintro rfl
      exact (List.nodup_append.mp hsources.1).2.2 a ha a (by simp) rfl
    · intro a ha
      apply hprev a (List.mem_append_left _ ha)
      rintro rfl
      exact htargets.2.2 a ha a (by simp) rfl
  · apply chain_congr _ _ hright
    · intro a ha
      apply hnext a (List.mem_append_right _ ha)
      rintro rfl
      exact hsources.2.2 a (by simp) a ha rfl
    · intro a ha
      apply hprev a (List.mem_append_right _ (List.mem_cons_of_mem c ha))
      rintro rfl
      exact (List.nodup_cons.mp htargets.2.1).1 ha

/-- Addresses that are linked among themselves are spliced into a walk by linking their ends. -/
theorem Walk.splice {xs ys zs : List A} {p c h t : A} (hw : L.Walk (xs ++ p :: c :: ys))
    (hzs : zs.IsChain L'.Adj) (hnodup : zs.Nodup) (hhead : zs.head? = some h)
    (hlast : zs.getLast? = some t) (hapart : ∀ z ∈ zs, z ∉ xs ++ p :: c :: ys)
    (hnext : ∀ a ∈ (xs ++ p :: c :: ys).dropLast, a ≠ p → L'.next a = L.next a)
    (hprev : ∀ a ∈ (xs ++ p :: c :: ys).tail, a ≠ c → L'.prev a = L.prev a)
    (hp : L'.Adj p h) (hc : L'.Adj t c) :
  L'.Walk (xs ++ p :: (zs ++ c :: ys))
  := by
  obtain ⟨hleft, hright⟩ := hw.parts hnext hprev
  have hsources := hw.sources
  have htargets := hw.targets
  rw [dropLast_split] at hsources
  rw [tail_split] at htargets
  have hmem : ∀ z ∈ zs, z ∉ xs ++ [p] ∧ z ∉ c :: ys := by
    intro z hz
    have := hapart z hz
    rw [List.append_cons, List.mem_append, not_or] at this
    exact this
  rw [List.append_cons]
  constructor
  case chain =>
    apply List.IsChain.append hleft
    · apply List.IsChain.append hzs hright
      intro a ha b hb
      rw [hlast] at ha
      cases ha
      cases hb
      exact hc
    · intro a ha b hb
      rw [List.getLast?_concat] at ha
      rw [List.head?_append, hhead] at hb
      cases ha
      cases hb
      exact hp
  case sources =>
    rw [List.dropLast_append_of_ne_nil (by simp), List.dropLast_append_of_ne_nil (by simp)]
    rw [List.nodup_append] at hsources ⊢
    use hsources.1
    constructor
    · rw [List.nodup_append]
      use hnodup, hsources.2.1
      rintro a ha b hb rfl
      exact (hmem a ha).2 (List.dropLast_subset _ hb)
    · rintro a ha b hb rfl
      rw [List.mem_append] at hb
      rcases hb with hb | hb
      · exact (hmem a hb).1 ha
      · exact hsources.2.2 a ha a hb rfl
  case targets =>
    rw [List.tail_append_of_ne_nil (by simp)]
    rw [List.nodup_append] at htargets ⊢
    use htargets.1
    constructor
    · rw [List.nodup_append]
      use hnodup, htargets.2.1
      rintro a ha b hb rfl
      exact (hmem a ha).2 hb
    · rintro a ha b hb rfl
      rw [List.mem_append] at hb
      rcases hb with hb | hb
      · exact (hmem a hb).1 (List.mem_of_mem_tail ha)
      · exact htargets.2.2 a ha a hb rfl

/-- An address is taken out of a walk by linking its neighbours. -/
theorem Walk.remove {xs ys : List A} {p m c : A} (hw : L.Walk (xs ++ p :: m :: c :: ys))
    (hnext : ∀ a ∈ (xs ++ p :: m :: c :: ys).dropLast, a ≠ p → L'.next a = L.next a)
    (hprev : ∀ a ∈ (xs ++ p :: m :: c :: ys).tail, a ≠ c → L'.prev a = L.prev a)
    (hadj : L'.Adj p c) :
  L'.Walk (xs ++ p :: c :: ys)
  := by
  have hsources := hw.sources
  have htargets := hw.targets
  rw [dropLast_split, List.dropLast_cons_of_ne_nil (List.cons_ne_nil c ys)] at hsources hnext
  rw [tail_split] at htargets hprev
  obtain ⟨hleft, -, hrest⟩ := List.isChain_append_cons_cons.mp hw.chain
  have hright := (List.isChain_cons_cons.mp hrest).2
  constructor
  case chain =>
    rw [List.isChain_append_cons_cons]
    refine ⟨?_, hadj, ?_⟩
    · apply chain_congr _ _ hleft
      · intro a ha
        rw [List.dropLast_concat] at ha
        apply hnext a (by simp [ha])
        rintro rfl
        have := (List.nodup_append.mp hsources).1
        exact (List.nodup_append.mp this).2.2 a ha a (by simp) rfl
      · intro a ha
        apply hprev a (List.mem_append_left _ ha)
        rintro rfl
        exact (List.nodup_append.mp htargets).2.2 a ha a (by simp) rfl
    · apply chain_congr _ _ hright
      · intro a ha
        apply hnext a (List.mem_append_right _ (List.mem_cons_of_mem m ha))
        rintro rfl
        exact (List.nodup_append.mp hsources).2.2 a (by simp) a (List.mem_cons_of_mem m ha) rfl
      · intro a ha
        apply hprev a
          (List.mem_append_right _ (List.mem_cons_of_mem m (List.mem_cons_of_mem c ha)))
        rintro rfl
        have := (List.nodup_cons.mp (List.nodup_append.mp htargets).2.1).2
        exact (List.nodup_cons.mp this).1 ha
  case sources =>
    rw [dropLast_split]
    apply List.Nodup.sublist _ hsources
    exact List.Sublist.append_left (List.sublist_cons_self m _) _
  case targets =>
    rw [tail_split]
    apply List.Nodup.sublist _ htargets
    exact List.Sublist.append_left (List.sublist_cons_self m _) _

end Links
