import Polyc.Containers.MapValid

/-!
# Resizing the hash map

The loop of `mapResize` goes over the indexes.  What it has put into the new table are the
nodes in use at the indexes it has come to; in the new table every key is findable, no node
is deleted and every node in use is indexed.
-/

namespace Polyc

section Map

variable {K : Type} {t : MapType K} {m : Map K}

namespace Map

/-- The entries of the nodes. -/
def entry (m : Map K) (i : Nat) : Option (K × Word × Int) := (m.node i).entry

theorem entry_eq_some {i : Nat} {k : K} {v : Word} {len : Int} :
  m.entry i = some (k, v, len) ↔ m.node i = .taken k v len
  := by
  unfold entry
  cases m.node i <;> simp [MapNode.entry]

theorem isTaken_iff_entry {i : Nat} :
  (m.node i).isTaken ↔ m.entry i ≠ none
  := by
  rw [MapNode.isTaken, Option.isSome_iff_ne_none]
  rfl

/-- The new map after the loop has come through the indexes `done` of the old one. -/
structure Rehashed (t : MapType K) (old : Map K) (done : List Nat) (new : Map K) : Prop
    extends Shape new where
  capacity_eq : new.capacity = old.capacity * 2
  entries : OpenAddressing.Rehashed new.capacity t.home t.match Prod.fst old.entry done new.entry
    new.indexes
  fresh : ∀ i, new.node i ≠ .deleted

/-- The nodes of the new map. -/
theorem Rehashed.nodes
    {old new : Map K} {done : List Nat} (h : Rehashed t old done new) (hold : old.Nodes t) :
  new.Nodes t
  where
  toShape := h.toShape
  distinct := h.entries.distinct
  keyLen i k v len hk := by
    obtain ⟨idx, -, heq⟩ := h.entries.moved i _ (entry_eq_some.mpr hk)
    apply hold.keyLen idx k v len (entry_eq_some.mp heq)
  nodup := h.entries.nodup
  indexed i hi := by
    obtain ⟨hlt, hne⟩ := (h.entries.listed i).mp hi
    refine ⟨hlt, ?_⟩
    intro hfree
    rw [entry, hfree] at hne
    contradiction

/-- The nodes of the empty map are free. -/
theorem node_mapResizeInit (m : Map K) (i : Nat) :
  (mapResizeInit m).node i = .free
  := by
  simp [node, mapResizeInit, List.getD_eq_getElem?_getD, List.getElem?_replicate]
  split <;> rfl

/-- Before the loop. -/
theorem rehashed_nil (h : m.Nodes t) :
  Rehashed t m [] (mapResizeInit m)
  := by
  constructor
  case toShape =>
    obtain ⟨e, he⟩ := h.power
    refine ⟨⟨e + 1, ?_⟩, rfl, List.length_replicate⟩
    rw [mapResizeInit, he, Nat.pow_succ 2 (e + 1)]
  case capacity_eq => rfl
  case entries =>
    apply OpenAddressing.rehashed_nil
    intro i
    rw [entry, node_mapResizeInit]
    rfl
  case fresh =>
    intro i
    rw [node_mapResizeInit]
    simp

/-- The entries after a node is written. -/
theorem entry_write (h : m.Shape) {i : Nat} (hi : i < m.capacity) (n : MapNode K) :
  (m.write i n).entry = Function.update m.entry i n.entry
  := by
  funext j
  by_cases hj : j = i
  · rw [hj, Function.update_self, entry, node_write_self h hi]
  · rw [Function.update_of_ne hj, entry, node_write_ne hj, entry]

/-- One turn of the loop. -/
theorem Rehashed.step
    {old new : Map K} {done : List Nat} (h : Rehashed t old done new) (ht : t.Lawful)
    (hold : old.Nodes t) {idx : Nat} (hidx : idx < old.capacity) (hnew : idx ∉ done)
    (hin : ∀ j ∈ done, j < old.capacity) (hlt : done.length < old.capacity) :
  ∃ new', mapRehash t old new idx = some new' ∧ Rehashed t old (done ++ [idx]) new'
  := by
  by_cases htaken : (old.node idx).isTaken
  · obtain ⟨⟨key, v, len⟩, he⟩ := Option.ne_none_iff_exists'.mp (isTaken_iff_entry.mp htaken)
    have hn := entry_eq_some.mp he
    have hlen := hold.keyLen idx key v len hn
    have habsent := h.entries.absent hold.distinct hin hidx hnew he
    have hroom : OpenAddressing.used new.capacity new.slot < new.capacity := by
      have hused : OpenAddressing.used new.capacity new.slot = new.indexes.length :=
        h.entries.used_eq
      have hle := h.entries.length_le
      rw [hused, h.capacity_eq]
      omega
    have hnodes := h.nodes hold
    have hno : ∀ w, ¬ new.Binds t key w := by
      rintro w ⟨i, hi, k, len', hk, hm⟩
      have hfalse := habsent i hi k (slot_of_taken hk)
      rw [hm] at hfalse
      cases hfalse
    obtain ⟨i, hi, hsearch, hlands⟩ := hnodes.search_absent hno hroom
    have hnext : mapGetNextIdx t new key = some (i, true) := by
      have hnot : (new.node i).isTaken = false := by
        rw [Bool.eq_false_iff, Ne, isTaken_iff, not_not]
        apply hlands.1
      rw [mapGetNextIdx, hsearch, Option.map_some, hnot]
      rfl
    refine ⟨{ new.write i (.taken key v len) with indexes := new.indexes ++ [i] }, ?_, ?_⟩
    · rw [mapRehash, hn]
      dsimp only
      split
      · rename_i hc
        rw [hlen, hnodes.mapGetCStringNextIdx_eq ht hc, hnext]
        rfl
      · rw [hnext]
        rfl
    · constructor
      case toShape => exact ⟨h.power, h.mask, (h.toShape.write i _).length⟩
      case capacity_eq => apply h.capacity_eq
      case entries =>
        have hput := h.entries.put ht.hashes he habsent hi hlands
        show OpenAddressing.Rehashed new.capacity t.home t.match Prod.fst old.entry
          (done ++ [idx]) (new.write i (.taken key v len)).entry (new.indexes ++ [i])
        rw [entry_write h.toShape hi]
        apply hput
      case fresh =>
        intro j
        show (new.write i (.taken key v len)).node j ≠ .deleted
        by_cases hji : j = i
        · rw [hji, node_write_self h.toShape hi]
          simp
        · rw [node_write_ne hji]
          apply h.fresh
  · refine ⟨new, ?_, ?_⟩
    · cases hn : old.node idx with
      | free => rw [mapRehash, hn]
      | deleted => rw [mapRehash, hn]
      | taken key v len =>
        rw [hn] at htaken
        cases htaken rfl
    · have hnone : old.entry idx = none := by
        rwa [isTaken_iff_entry, not_not] at htaken
      exact ⟨h.toShape, h.capacity_eq, h.entries.skip hnone, h.fresh⟩

/-- The loop. -/
theorem Rehashed.loop
    {old new : Map K} {done rest : List Nat} (h : Rehashed t old done new) (ht : t.Lawful)
    (hold : old.Nodes t) (hnodup : (done ++ rest).Nodup)
    (hin : ∀ j ∈ done ++ rest, j < old.capacity) (hlen : (done ++ rest).length ≤ old.capacity) :
  ∃ new', rest.foldlM (mapRehash t old) new = some new' ∧ Rehashed t old (done ++ rest) new'
  := by
  induction rest generalizing done new with
  | nil =>
    refine ⟨new, rfl, ?_⟩
    rw [List.append_nil]
    apply h
  | cons idx rest ih =>
    have hsplit : done ++ idx :: rest = (done ++ [idx]) ++ rest := by simp
    have hidx : idx ∉ done := by
      intro hmem
      apply (List.nodup_append.mp hnodup).2.2 idx hmem idx List.mem_cons_self rfl
    obtain ⟨new', hstep, h'⟩ := h.step ht hold (hin idx (by simp)) hidx
      (fun j hj => hin j (List.mem_append_left _ hj)) (by simp at hlen; omega)
    rw [hsplit] at hnodup hin hlen ⊢
    obtain ⟨new'', hrest, h''⟩ := ih h' hnodup hin hlen
    refine ⟨new'', ?_, h''⟩
    rw [List.foldlM_cons, hstep]
    apply hrest

/-- The indexes are at most as many as the nodes. -/
theorem Nodes.length_indexes_le (h : m.Nodes t) :
  m.indexes.length ≤ m.capacity
  := by
  have hsub : m.indexes ⊆ List.range m.capacity := by
    intro i hi
    apply List.mem_range.mpr (h.indexed i hi).1
  have hle := (h.nodup.subperm hsub).length_le
  rwa [List.length_range] at hle

/-- The counts of two maps that bind the same keys. -/
theorem used_eq_of_binds
    {m' : Map K} (ht : t.Lawful) (h : m.Nodes t) (h' : m'.Nodes t)
    (hbinds : ∀ key v, m'.Binds t key v ↔ m.Binds t key v) :
  OpenAddressing.used m'.capacity m'.slot = OpenAddressing.used m.capacity m.slot
  := by
  let s : Setoid K := ⟨fun a b => t.match a b = true, ht.equivalence⟩
  rw [← OpenAddressing.ncard_classes h.distinct s (fun _ _ => Iff.rfl),
    ← OpenAddressing.ncard_classes h'.distinct s (fun _ _ => Iff.rfl)]
  have hclass : ∀ (m : Map K) (q : Quotient s),
      (∃ i < m.capacity, ∃ k, m.slot i = some k ∧ Quotient.mk s k = q)
        ↔ ∃ key v, Quotient.mk s key = q ∧ m.Binds t key v := by
    intro m q
    constructor
    · rintro ⟨i, hi, k, hk, rfl⟩
      obtain ⟨v, len, hnode⟩ := slot_eq_some.mp hk
      exact ⟨k, v, rfl, i, hi, k, len, hnode, ht.equivalence.refl k⟩
    · rintro ⟨key, v, rfl, i, hi, k, len, hnode, hm⟩
      exact ⟨i, hi, k, slot_of_taken hnode, Quotient.sound hm⟩
  congr 1
  ext q
  rw [Set.mem_ofPred_eq, Set.mem_ofPred_eq, hclass, hclass]
  simp only [hbinds]

/-- A resize of a map whose nodes are all indexed keeps what is bound, and in the new table
every key is findable, no node is deleted and there is room. -/
theorem Valid.resize
    (h : m.Valid t) (ht : t.Lawful) (hl : m.Listed) :
  ∃ m', mapResize t m = some m' ∧ m'.Valid t ∧ (∀ key v, m'.Binds t key v ↔ m.Binds t key v)
    ∧ m'.Listed ∧ (∀ key, m'.Findable t key) ∧ (∀ i, m'.node i ≠ .deleted)
    ∧ m'.size < m'.threashold
  := by
  obtain ⟨new, hloop, hnew⟩ := (rehashed_nil h.toNodes).loop ht h.toNodes
    (by simpa using h.nodup) (fun j hj => (h.indexed j (by simpa using hj)).1)
    (by simpa using h.toNodes.length_indexes_le)
  rw [List.nil_append] at hnew
  have hnodes := hnew.nodes h.toNodes
  have hbinds : ∀ key v, new.Binds t key v ↔ m.Binds t key v := by
    intro key v
    constructor
    · rintro ⟨i, hi, k, len, hk, hm⟩
      obtain ⟨idx, hidx, heq⟩ := hnew.entries.moved i _ (entry_eq_some.mpr hk)
      exact ⟨idx, (h.indexed idx hidx).1, k, len, entry_eq_some.mp heq, hm⟩
    · rintro ⟨i, hi, k, len, hk, hm⟩
      have htaken : (m.node i).isTaken := by
        rw [hk]
        rfl
      obtain ⟨j, hj, heq⟩ := hnew.entries.kept i (hl i hi htaken) _ (entry_eq_some.mpr hk)
      exact ⟨j, hj, k, len, entry_eq_some.mp heq, hm⟩
  have hlisted : new.Listed := by
    intro i hi htaken
    exact (hnew.entries.listed i).mpr ⟨hi, isTaken_iff_entry.mp htaken⟩
  have hused : OpenAddressing.used new.capacity new.slot = new.indexes.length :=
    hnew.entries.used_eq
  have hsize : new.indexes.length = m.size := by
    rw [← hused, h.size]
    apply used_eq_of_binds ht h.toNodes hnodes hbinds
  have hroom : m.size + 1 ≤ mapLoad new.capacity := by
    have hle := h.size_le
    have hpos := h.two_le
    have hdouble : mapLoad m.capacity + 1 ≤ mapLoad (m.capacity * 2) := mapLoad_double (by omega)
    rw [hnew.capacity_eq]
    rw [h.threashold] at hle
    omega
  refine ⟨mapResizeDone new, ?_, ?_, hbinds, hlisted, hnew.entries.findable, hnew.fresh, ?_⟩
  · rw [mapResize, hloop, Option.map_some]
  · constructor
    case toNodes => apply hnodes.of_eq <;> rfl
    case threashold => rfl
    case size => apply hused.symm
    case size_le =>
      show new.indexes.length ≤ mapLoad new.capacity
      omega
    case cache => exact .inl ⟨rfl, rfl⟩
  · show new.indexes.length < mapLoad new.capacity
    omega

end Map

end Map

end Polyc
