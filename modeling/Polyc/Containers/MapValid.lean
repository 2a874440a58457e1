import Polyc.Containers.Map
import Mathlib.Data.List.Nodup

/-!
# The invariant of the hash map

What the operations on a map keep, whatever the order in which they come: the shape of the
table, that no two nodes hold matching keys, that the count is right, that the indexes are
those of nodes in use, and that the cache is of a node that holds its key.  Whether a key is
findable, and whether every node is indexed, is not kept by all operations; these are the
conditions under which each does what it should.
-/

namespace Polyc

/-- Matching is an equivalence that hashes and the C string functions respect, and a key is
its pointer. -/
structure MapType.Lawful {K : Type} (t : MapType K) : Prop where
  equivalence : Equivalence fun a b => t.match a b = true
  hash_eq : ∀ {a b}, t.match a b → t.hash a = t.hash b
  pointer_injective : Function.Injective t.pointer
  hashLen_eq : t.isCStringKey → ∀ k, t.mapCStringHashLen k (t.getKeyLen k) = t.hash k
  memcmp_eq : t.isCStringKey → ∀ k l,
    (decide (t.getKeyLen k = t.getKeyLen l) && t.memcmpEq k l (t.getKeyLen l)) = t.match k l

/-- The slot at which the search for a key starts, before it is reduced to the table. -/
def MapType.home {K : Type} (t : MapType K) (key : K) : Nat := (t.hash key).toNat

theorem MapType.Lawful.hashes {K : Type} {t : MapType K} (ht : t.Lawful) :
  OpenAddressing.Hashes t.home t.match
  where
  equivalence := ht.equivalence
  home_eq h := congrArg BitVec.toNat (ht.hash_eq h)

section Map

variable {K : Type} {t : MapType K} {m : Map K}

namespace Map

/-! ### Nodes -/

/-- The capacity is a power of two, and the mask and the nodes are as many. -/
structure Shape (m : Map K) : Prop where
  power : ∃ e, m.capacity = 2 ^ (e + 1)
  mask : m.mask = m.capacity - 1
  length : m.entries.length = m.capacity

theorem Shape.two_le (h : m.Shape) : 2 ≤ m.capacity := by
  obtain ⟨e, he⟩ := h.power
  have hpos := Nat.two_pow_pos e
  rw [he, Nat.pow_succ]
  omega

/-- The node that is written. -/
theorem node_write_self (h : m.Shape) {i : Nat} (hi : i < m.capacity) (n : MapNode K) :
  (m.write i n).node i = n
  := by
  have hlt : i < m.entries.length := h.length ▸ hi
  simp [node, write, List.getD, hlt]

/-- The nodes that are not written. -/
theorem node_write_ne {i j : Nat} (hne : j ≠ i) (n : MapNode K) :
  (m.write i n).node j = m.node j
  := by
  simp [node, write, List.getD, List.getElem?_set_ne hne.symm]

/-- The slots after a node is written. -/
theorem slot_write (h : m.Shape) {i : Nat} (hi : i < m.capacity) (n : MapNode K) :
  (m.write i n).slot = Function.update m.slot i (n.entry.map Prod.fst)
  := by
  funext j
  by_cases hj : j = i
  · rw [hj, Function.update_self, slot, node_write_self h hi]
  · rw [Function.update_of_ne hj, slot, node_write_ne hj, slot]

theorem slot_eq_some {i : Nat} {k : K} :
  m.slot i = some k ↔ ∃ v len, m.node i = .taken k v len
  := by
  unfold slot
  cases m.node i <;> simp [MapNode.entry]

theorem slot_of_taken {i : Nat} {k : K} {v : Word} {len : Int} (h : m.node i = .taken k v len) :
  m.slot i = some k
  := slot_eq_some.mpr ⟨v, len, h⟩

theorem isTaken_iff {i : Nat} :
  (m.node i).isTaken ↔ m.slot i ≠ none
  := by
  unfold slot MapNode.isTaken
  cases m.node i <;> simp [MapNode.entry]

theorem Shape.write (h : m.Shape) (i : Nat) (n : MapNode K) :
  (m.write i n).Shape
  where
  power := h.power
  mask := h.mask
  length := by
    dsimp only [Map.write]
    rw [List.length_set, h.length]

/-! ### Searches -/

/-- A search probes the table round from the slot of the hash. -/
theorem search_eq (h : m.Shape) (hash : Word) (found : K → Int → Bool) :
  m.search hash found = OpenAddressing.probe (fun i => (m.node i).stops found)
    (fun i => (i + 1) % m.capacity) m.capacity (hash.toNat % m.capacity)
  := by
  obtain ⟨e, he⟩ := h.power
  unfold search
  simp only [h.mask, he, Nat.and_two_pow_sub_one_eq_mod]

/-- A search for a key stops where one in the table of keys does. -/
theorem search_key (h : m.Shape) (key : K) :
  m.search (t.hash key) (fun k _ => t.match k key)
    = OpenAddressing.probe (OpenAddressing.stops t.match m.slot key)
        (fun i => (i + 1) % m.capacity) m.capacity (t.home key % m.capacity)
  := by
  rw [search_eq h]
  congr 1
  funext i
  unfold OpenAddressing.stops slot
  cases m.node i <;> rfl

/-- A key is bound to a value by a node. -/
def Binds (t : MapType K) (m : Map K) (key : K) (v : Word) : Prop :=
  ∃ i < m.capacity, ∃ k len, m.node i = .taken k v len ∧ t.match k key

/-- No node before that of a key on its path is free or deleted. -/
def Findable (t : MapType K) (m : Map K) (key : K) : Prop :=
  OpenAddressing.Findable m.capacity t.home t.match m.slot key

instance (t : MapType K) (m : Map K) (key : K) : Decidable (m.Findable t key) :=
  inferInstanceAs (Decidable (OpenAddressing.Findable m.capacity t.home t.match m.slot key))

/-- Every node that is in use is indexed. -/
def Listed (m : Map K) : Prop := ∀ i < m.capacity, (m.node i).isTaken → i ∈ m.indexes

instance (m : Map K) : Decidable m.Listed :=
  inferInstanceAs (Decidable (∀ i < m.capacity, (m.node i).isTaken → i ∈ m.indexes))

/-- What holds of the nodes of a map, and of its indexes. -/
structure Nodes (t : MapType K) (m : Map K) : Prop extends Shape m where
  distinct : OpenAddressing.Distinct m.capacity t.match m.slot
  keyLen : ∀ i k v len, m.node i = .taken k v len → len = t.getKeyLen k
  nodup : m.indexes.Nodup
  indexed : ∀ i ∈ m.indexes, i < m.capacity ∧ m.node i ≠ .free

/-- The cache is reset, or of a node that holds its key. -/
def CacheSound (t : MapType K) (m : Map K) : Prop :=
  (m.cachedKey = BitVec.ofNat 64 ulongMax ∧ m.cachedIdx = ulongMax)
    ∨ m.cachedIdx < m.capacity ∧ ∃ k v len key, m.node m.cachedIdx = .taken k v len
      ∧ t.pointer key = m.cachedKey ∧ t.match k key

/-- The invariant of a map. -/
structure Valid (t : MapType K) (m : Map K) : Prop extends Nodes t m where
  threashold : m.threashold = mapLoad m.capacity
  size : m.size = OpenAddressing.used m.capacity m.slot
  size_le : m.size ≤ m.threashold
  cache : CacheSound t m

/-- The count and the cache are no part of the nodes. -/
theorem Nodes.of_eq
    {m' : Map K} (h : m.Nodes t) (hcapacity : m'.capacity = m.capacity)
    (hmask : m'.mask = m.mask) (hentries : m'.entries = m.entries)
    (hindexes : m'.indexes = m.indexes) :
  m'.Nodes t
  := by
  obtain ⟨size, capacity, mask, threashold, entries, indexes, key, idx⟩ := m'
  dsimp only at hcapacity hmask hentries hindexes
  subst hcapacity hmask hentries hindexes
  exact ⟨⟨h.power, h.mask, h.length⟩, h.distinct, h.keyLen, h.nodup, h.indexed⟩

/-- A key that is bound is found where its node is. -/
theorem Nodes.search_held
    (h : m.Nodes t) (ht : t.Lawful) {key : K} (hf : m.Findable t key) {i : Nat}
    (hi : i < m.capacity) {k : K} {v : Word} {len : Int} (hk : m.node i = .taken k v len)
    (hm : t.match k key) :
  m.search (t.hash key) (fun k _ => t.match k key) = some i
  := by
  rw [search_key h.toShape]
  apply OpenAddressing.find_of_holds hf h.distinct ht.hashes hi (slot_of_taken hk) hm

/-- The search for a key that is not bound ends at the first node that is not in use. -/
theorem Nodes.search_absent
    (h : m.Nodes t) {key : K} (hno : ∀ v, ¬ m.Binds t key v)
    (hroom : OpenAddressing.used m.capacity m.slot < m.capacity) :
  ∃ i < m.capacity, m.search (t.hash key) (fun k _ => t.match k key) = some i
    ∧ OpenAddressing.Lands m.capacity t.home m.slot key i
  := by
  rw [search_key h.toShape]
  apply OpenAddressing.find_of_absent _ (OpenAddressing.exists_vacancy hroom)
  intro j hj k hk
  rw [Bool.eq_false_iff]
  intro hm
  obtain ⟨v, len, hnode⟩ := slot_eq_some.mp hk
  exact hno v ⟨j, hj, k, len, hnode, hm⟩

/-- The C string search of a key is that of the key. -/
theorem Nodes.mapGetCStringNextIdx_eq
    (h : m.Nodes t) (ht : t.Lawful) (hc : t.isCStringKey) (key : K) :
  mapGetCStringNextIdx t m key (t.getKeyLen key) = mapGetNextIdx t m key
  := by
  have hsearch : m.search (t.mapCStringHashLen key (t.getKeyLen key))
        (fun k l => decide (l = t.getKeyLen key) && t.memcmpEq k key (t.getKeyLen key))
      = m.search (t.hash key) fun k _ => t.match k key := by
    rw [ht.hashLen_eq hc, search_eq h.toShape, search_eq h.toShape]
    congr 1
    funext i
    cases hn : m.node i with
    | free => rfl
    | deleted => rfl
    | taken k v len =>
      rw [h.keyLen i k v len hn]
      apply ht.memcmp_eq hc
  unfold mapGetCStringNextIdx mapGetNextIdx
  rw [hsearch]

/-! ### Writing a node -/

/-- A key is put where it is, or where no node holds it. -/
def Takes (t : MapType K) (m : Map K) (key : K) (i : Nat) : Prop :=
  i < m.capacity ∧ ∀ j < m.capacity, ∀ k, m.slot j = some k → t.match k key → j = i

theorem Nodes.takes_held
    (h : m.Nodes t) (ht : t.Lawful) {key : K} {i : Nat} (hi : i < m.capacity) {k : K} {v : Word}
    {len : Int} (hk : m.node i = .taken k v len) (hm : t.match k key) :
  m.Takes t key i
  := by
  refine ⟨hi, ?_⟩
  intro j hj l hl hlm
  apply h.distinct j hj i hi l k hl (slot_of_taken hk)
  apply ht.equivalence.trans hlm (ht.equivalence.symm hm)

theorem takes_absent {key : K} (hno : ∀ v, ¬ m.Binds t key v) {i : Nat} (hi : i < m.capacity) :
  m.Takes t key i
  := by
  refine ⟨hi, ?_⟩
  intro j hj l hl hlm
  obtain ⟨v, len, hnode⟩ := slot_eq_some.mp hl
  cases hno v ⟨j, hj, l, len, hnode, hlm⟩

/-- The nodes after a key is put into one that takes it, which may then be indexed. -/
theorem Nodes.put
    (h : m.Nodes t) (ht : t.Lawful) {key : K} {i : Nat} (hi : m.Takes t key i) (value : Word)
    {indexes : List Nat} (hnodup : indexes.Nodup) (hin : ∀ j ∈ indexes, j ∈ m.indexes ∨ j = i) :
  Nodes t { m.write i (.taken key value (t.getKeyLen key)) with indexes := indexes }
  := by
  have hself := node_write_self h.toShape hi.1 (.taken key value (t.getKeyLen key))
  have hother : ∀ j, j ≠ i →
      (m.write i (.taken key value (t.getKeyLen key))).node j = m.node j :=
    fun j hj => node_write_ne hj _
  constructor
  case toShape => exact ⟨h.power, h.mask, (h.toShape.write i _).length⟩
  case distinct =>
    show OpenAddressing.Distinct m.capacity t.match
      (m.write i (.taken key value (t.getKeyLen key))).slot
    rw [slot_write h.toShape hi.1]
    apply h.distinct.update ht.hashes hi.2
  case keyLen =>
    intro j k w len hk
    by_cases hji : j = i
    · subst hji
      have hk := hself.symm.trans hk
      injection hk with hk _ hl
      rw [← hk, hl]
    · apply h.keyLen j k w len ((hother j hji).symm.trans hk)
  case nodup => apply hnodup
  case indexed =>
    intro j hj
    by_cases hji : j = i
    · subst hji
      refine ⟨hi.1, ?_⟩
      intro hn
      have hn := hself.symm.trans hn
      cases hn
    · obtain ⟨hlt, hne⟩ := h.indexed j ((hin j hj).resolve_right hji)
      refine ⟨hlt, ?_⟩
      intro hn
      apply hne ((hother j hji).symm.trans hn)

/-- What is bound after a key is put into a node. -/
theorem binds_write
    (h : m.Shape) (ht : t.Lawful) {key : K} {i : Nat} (hi : m.Takes t key i)
    (hheld : ∀ k, m.slot i = some k → t.match k key) (value : Word) (len : Int) (key' : K)
    (v : Word) :
  (m.write i (.taken key value len)).Binds t key' v
    ↔ if t.match key key' then v = value else m.Binds t key' v
  := by
  constructor
  · rintro ⟨j, hj, k, len', hk, hm⟩
    by_cases hji : j = i
    · subst hji
      rw [node_write_self h hi.1] at hk
      injection hk with hk hv
      subst hk
      rw [if_pos hm]
      apply hv.symm
    · rw [node_write_ne hji] at hk
      split
      · rename_i hkey
        cases hji (hi.2 j hj k (slot_of_taken hk)
          (ht.equivalence.trans hm (ht.equivalence.symm hkey)))
      · exact ⟨j, hj, k, len', hk, hm⟩
  · split
    · rename_i hkey
      rintro rfl
      exact ⟨i, hi.1, key, len, node_write_self h hi.1 _, hkey⟩
    · rename_i hkey
      rintro ⟨j, hj, k, len', hk, hm⟩
      have hji : j ≠ i := by
        rintro rfl
        apply hkey
        apply ht.equivalence.trans (ht.equivalence.symm (hheld k (slot_of_taken hk))) hm
      refine ⟨j, hj, k, len', ?_, hm⟩
      rw [node_write_ne hji]
      apply hk

/-- What is bound after the node of a key is deleted. -/
theorem binds_delete
    (h : m.Nodes t) (ht : t.Lawful) {key : K} {i : Nat} (hi : i < m.capacity) {k : K} {v : Word}
    {len : Int} (hk : m.node i = .taken k v len) (hm : t.match k key) (key' : K) (w : Word) :
  (m.write i .deleted).Binds t key' w ↔ ¬ t.match key key' ∧ m.Binds t key' w
  := by
  constructor
  · rintro ⟨j, hj, l, len', hl, hlm⟩
    have hji : j ≠ i := by
      rintro rfl
      rw [node_write_self h.toShape hi] at hl
      cases hl
    rw [node_write_ne hji] at hl
    refine ⟨?_, j, hj, l, len', hl, hlm⟩
    intro hkey
    apply hji
    apply (h.takes_held ht hi hk hm).2 j hj l (slot_of_taken hl)
    apply ht.equivalence.trans hlm (ht.equivalence.symm hkey)
  · rintro ⟨hkey, j, hj, l, len', hl, hlm⟩
    have hji : j ≠ i := by
      rintro rfl
      rw [hk] at hl
      injection hl with hkl
      subst hkl
      apply hkey
      apply ht.equivalence.trans (ht.equivalence.symm hm) hlm
    refine ⟨j, hj, l, len', ?_, hlm⟩
    rw [node_write_ne hji]
    apply hl

end Map

end Map

end Polyc
