import Polyc.Containers.HashSet
import Polyc.Containers.MapResize

/-!
# The invariant of the hash set

What the operations on a set keep: the shape of the table, that no two nodes hold matching
keys, that the count is right, and that the indexes name every occupied node once.  The
indexes may name vacant nodes too, which removals leave behind.
-/

namespace Polyc

section Set

variable {K : Type} {t : MapType K} {s : HashSet K}

namespace HashSet

/-! ### Nodes -/

/-- The capacity is a power of two, and the mask and the nodes are as many. -/
structure Shape (s : HashSet K) : Prop where
  power : ∃ e, s.capacity = 2 ^ e
  mask : s.mask = s.capacity - 1
  length : s.entries.length = s.capacity

theorem Shape.pos (h : s.Shape) : 0 < s.capacity := by
  obtain ⟨e, he⟩ := h.power
  rw [he]
  apply Nat.two_pow_pos

theorem Shape.write (h : s.Shape) (i : Nat) (n : SetNode K) :
  (s.write i n).Shape
  where
  power := h.power
  mask := h.mask
  length := by
    dsimp only [HashSet.write]
    rw [List.length_set, h.length]

/-- The nodes after one is written. -/
theorem node_write (h : s.Shape) {i : Nat} (hi : i < s.capacity) (n : SetNode K) :
  (s.write i n).node = Function.update s.node i n
  := by
  funext j
  by_cases hj : j = i
  · have hlt : i < s.entries.length := h.length ▸ hi
    rw [hj, Function.update_self]
    simp [node, HashSet.write, List.getD, hlt]
  · have hne : i ≠ j := fun he => hj he.symm
    rw [Function.update_of_ne hj]
    simp [node, HashSet.write, List.getD, List.getElem?_set_ne hne]

/-- The slots after a node is written. -/
theorem slot_write (h : s.Shape) {i : Nat} (hi : i < s.capacity) (n : SetNode K) :
  (s.write i n).slot = Function.update s.slot i (n.map Prod.fst)
  := by
  funext j
  rw [slot, node_write h hi]
  by_cases hj : j = i
  · rw [hj, Function.update_self, Function.update_self]
  · rw [Function.update_of_ne hj, Function.update_of_ne hj, slot]

theorem slot_eq_none {i : Nat} :
  s.slot i = none ↔ s.node i = none
  := Option.map_eq_none_iff

/-- Keys are in nodes of the table. -/
theorem Shape.lt_of_slot (h : s.Shape) {i : Nat} (hi : s.slot i ≠ none) :
  i < s.capacity
  := by
  by_contra hge
  have hlen : s.entries.length ≤ i := by
    rw [h.length]
    omega
  apply hi
  rw [slot_eq_none, node, List.getD_eq_getElem?_getD, List.getElem?_eq_none hlen]
  rfl

/-! ### The invariant -/

/-- A node holds a key. -/
def Has (t : MapType K) (s : HashSet K) (key : K) : Prop :=
  ∃ i < s.capacity, (s.slot i).any (t.match · key)

instance (t : MapType K) (s : HashSet K) (key : K) : Decidable (s.Has t key) :=
  inferInstanceAs (Decidable (∃ i < s.capacity, (s.slot i).any (t.match · key)))

theorem has_iff {key : K} :
  s.Has t key ↔ ∃ i < s.capacity, ∃ k, s.slot i = some k ∧ t.match k key
  := by
  unfold Has
  simp only [Option.any_eq_true]

/-- No node before that of a key on its path is vacant. -/
def Findable (t : MapType K) (s : HashSet K) (key : K) : Prop :=
  OpenAddressing.Findable s.capacity t.home t.match s.slot key

instance (t : MapType K) (s : HashSet K) (key : K) : Decidable (s.Findable t key) :=
  inferInstanceAs (Decidable (OpenAddressing.Findable s.capacity t.home t.match s.slot key))

/-- What holds of the nodes of a set, and of its indexes. -/
structure Nodes (t : MapType K) (s : HashSet K) : Prop extends Shape s where
  distinct : OpenAddressing.Distinct s.capacity t.match s.slot
  keyLen : ∀ i k len, s.node i = some (k, len) → len = t.getKeyLen k
  nodup : s.indexes.Nodup
  inRange : ∀ i ∈ s.indexes, i < s.capacity
  listed : ∀ i, s.slot i ≠ none → i ∈ s.indexes

/-- The invariant of a set. -/
structure Valid (t : MapType K) (s : HashSet K) : Prop extends Nodes t s where
  threashold : s.threashold = mapLoad s.capacity
  size : s.size = OpenAddressing.used s.capacity s.slot
  size_le : s.size ≤ s.threashold

/-- A set to which keys have only been added: every key is findable, and the indexes are of
occupied nodes. -/
structure Grown (t : MapType K) (s : HashSet K) : Prop extends Valid t s where
  findable : ∀ key, s.Findable t key
  occupied : ∀ i ∈ s.indexes, s.slot i ≠ none

theorem Valid.used_lt (h : s.Valid t) :
  OpenAddressing.used s.capacity s.slot < s.capacity
  := by
  have hle := h.size_le
  have hlt := mapLoad_lt h.pos
  rw [h.threashold, h.size] at hle
  omega

/-! ### Searches -/

/-- A search probes the table round from the slot of the hash. -/
theorem search_eq (h : s.Shape) (hash : Word) (found : K → Int → Bool) :
  s.search hash found = OpenAddressing.probe (fun i => (s.node i).all fun e => found e.1 e.2)
    (fun i => (i + 1) % s.capacity) s.capacity (hash.toNat % s.capacity)
  := by
  obtain ⟨e, he⟩ := h.power
  unfold search
  simp only [h.mask, he, Nat.and_two_pow_sub_one_eq_mod]

/-- A search for a key stops where one in the table of keys does. -/
theorem search_key (h : s.Shape) (key : K) :
  s.search (t.hash key) (fun k _ => t.match k key)
    = OpenAddressing.probe (OpenAddressing.stops t.match s.slot key)
        (fun i => (i + 1) % s.capacity) s.capacity (t.home key % s.capacity)
  := by
  rw [search_eq h]
  congr 1
  funext i
  unfold OpenAddressing.stops slot
  cases s.node i <;> rfl

/-- A key that a node holds is found there. -/
theorem Nodes.search_held
    (h : s.Nodes t) (ht : t.Lawful) {key : K} (hf : s.Findable t key) {i : Nat}
    (hi : i < s.capacity) {k : K} (hk : s.slot i = some k) (hm : t.match k key) :
  s.search (t.hash key) (fun k _ => t.match k key) = some i
  := by
  rw [search_key h.toShape]
  apply OpenAddressing.find_of_holds hf h.distinct ht.hashes hi hk hm

/-- A key that no node holds is in no slot. -/
theorem absent_of_not_has {key : K} (hno : ¬ s.Has t key) :
  OpenAddressing.Absent s.capacity t.match s.slot key
  := by
  intro i hi k hk
  rw [Bool.eq_false_iff]
  intro hm
  exact hno (has_iff.mpr ⟨i, hi, k, hk, hm⟩)

/-- The search for a key that no node holds ends at the first vacancy. -/
theorem search_absent
    (h : s.Shape) {key : K} (hno : ¬ s.Has t key)
    (hroom : OpenAddressing.used s.capacity s.slot < s.capacity) :
  ∃ i < s.capacity, s.search (t.hash key) (fun k _ => t.match k key) = some i
    ∧ OpenAddressing.Lands s.capacity t.home s.slot key i
  := by
  rw [search_key h]
  apply OpenAddressing.find_of_absent (absent_of_not_has hno)
    (OpenAddressing.exists_vacancy hroom)

/-- The C string search of a key ends where that of the key does. -/
theorem Nodes.search_cString
    (h : s.Nodes t) (ht : t.Lawful) (hc : t.isCStringKey) (key : K) :
  s.search (t.mapCStringHashLen key (t.getKeyLen key))
      (fun k l => decide (l = t.getKeyLen key) && t.memcmpEq k key (t.getKeyLen key))
    = s.search (t.hash key) fun k _ => t.match k key
  := by
  rw [ht.hashLen_eq hc, search_eq h.toShape, search_eq h.toShape]
  congr 1
  funext i
  cases hn : s.node i with
  | none => rfl
  | some e =>
    rw [Option.all_some, Option.all_some, h.keyLen i e.1 e.2 hn]
    apply ht.memcmp_eq hc

/-! ### Putting a key -/

/-- What a set has after a key is put into a vacancy. -/
theorem has_put
    (h : s.Shape) {key : K} {i : Nat} (hi : i < s.capacity) (hnone : s.slot i = none)
    (key' : K) :
  (s.put t i key).Has t key' ↔ t.match key key' ∨ s.Has t key'
  := by
  have hslot : (s.put t i key).slot = Function.update s.slot i (some key) := slot_write h hi _
  rw [has_iff, has_iff, hslot]
  constructor
  · rintro ⟨j, hj, k, hk, hm⟩
    by_cases hji : j = i
    · rw [hji, Function.update_self, Option.some_inj] at hk
      left
      rwa [hk]
    · rw [Function.update_of_ne hji] at hk
      exact .inr ⟨j, hj, k, hk, hm⟩
  · rintro (hm | ⟨j, hj, k, hk, hm⟩)
    · exact ⟨i, hi, key, Function.update_self i (some key) s.slot, hm⟩
    · refine ⟨j, hj, k, ?_, hm⟩
      rw [Function.update_of_ne, hk]
      rintro rfl
      rw [hnone] at hk
      cases hk

/-- A key that no node holds is put into a vacancy that is not indexed. -/
theorem Valid.put
    (h : s.Valid t) (ht : t.Lawful) {key : K} (hno : ¬ s.Has t key) {i : Nat}
    (hi : i < s.capacity) (hlands : OpenAddressing.Lands s.capacity t.home s.slot key i)
    (hfresh : i ∉ s.indexes) (hroom : s.size < s.threashold) :
  (s.put t i key).Valid t ∧ (s.Grown t → (s.put t i key).Grown t)
  := by
  have hnode : (s.put t i key).node = Function.update s.node i (some (key, t.getKeyLen key)) :=
    node_write h.toShape hi _
  have hslot : (s.put t i key).slot = Function.update s.slot i (some key) :=
    slot_write h.toShape hi _
  have hvalid : (s.put t i key).Valid t := by
    constructor
    case toNodes =>
      constructor
      case toShape => exact ⟨h.power, h.mask, (h.toShape.write i _).length⟩
      case distinct =>
        rw [hslot]
        apply h.distinct.update ht.hashes
        intro j hj k hk hm
        rw [absent_of_not_has hno j hj k hk] at hm
        cases hm
      case keyLen =>
        intro j k len hk
        rw [hnode] at hk
        by_cases hji : j = i
        · rw [hji, Function.update_self, Option.some_inj] at hk
          injection hk with hk hl
          rw [← hl, hk]
        · rw [Function.update_of_ne hji] at hk
          apply h.keyLen j k len hk
      case nodup =>
        show (s.indexes ++ [i]).Nodup
        rw [List.nodup_append_comm]
        apply List.nodup_cons.mpr ⟨hfresh, h.nodup⟩
      case inRange =>
        intro j hj
        have hj : j ∈ s.indexes ++ [i] := hj
        rcases List.mem_append.mp hj with hj | hj
        · apply h.inRange j hj
        · rw [List.mem_singleton.mp hj]
          apply hi
      case listed =>
        intro j hj
        rw [hslot] at hj
        show j ∈ s.indexes ++ [i]
        by_cases hji : j = i
        · rw [hji]
          apply List.mem_append_right s.indexes (List.mem_singleton_self i)
        · rw [Function.update_of_ne hji] at hj
          apply List.mem_append_left [i] (h.listed j hj)
    case threashold => apply h.threashold
    case size =>
      show s.size + 1 = OpenAddressing.used s.capacity (s.put t i key).slot
      rw [hslot, OpenAddressing.used_update_vacant hi hlands.1, h.size]
    case size_le =>
      show s.size + 1 ≤ s.threashold
      omega
  refine ⟨hvalid, ?_⟩
  intro hgrown
  constructor
  case toValid => apply hvalid
  case findable =>
    intro key'
    show OpenAddressing.Findable s.capacity t.home t.match (s.put t i key).slot key'
    rw [hslot]
    apply OpenAddressing.Findable.insert hgrown.findable ht.hashes hlands
  case occupied =>
    intro j hj
    rw [hslot]
    by_cases hji : j = i
    · rw [hji, Function.update_self]
      apply Option.some_ne_none
    · rw [Function.update_of_ne hji]
      have hj : j ∈ s.indexes ++ [i] := hj
      apply hgrown.occupied j
      simpa [hji] using hj

/-! ### Vacating a node -/

/-- What a set has after the node of a key is vacated. -/
theorem Nodes.has_vacate
    (h : s.Nodes t) (ht : t.Lawful) {key : K} {i : Nat} (hi : i < s.capacity) {k : K}
    (hk : s.slot i = some k) (hm : t.match k key) (key' : K) :
  (s.vacate i).Has t key' ↔ ¬ t.match key key' ∧ s.Has t key'
  := by
  have hslot : (s.vacate i).slot = Function.update s.slot i none := slot_write h.toShape hi _
  rw [has_iff, has_iff, hslot]
  constructor
  · rintro ⟨j, hj, l, hl, hlm⟩
    have hji : j ≠ i := by
      rintro rfl
      rw [Function.update_self] at hl
      cases hl
    rw [Function.update_of_ne hji] at hl
    refine ⟨?_, j, hj, l, hl, hlm⟩
    intro hkey
    apply hji
    apply h.distinct j hj i hi l k hl hk
    apply ht.equivalence.trans hlm
    apply ht.equivalence.trans (ht.equivalence.symm hkey) (ht.equivalence.symm hm)
  · rintro ⟨hkey, j, hj, l, hl, hlm⟩
    refine ⟨j, hj, l, ?_, hlm⟩
    rw [Function.update_of_ne, hl]
    rintro rfl
    rw [hk, Option.some_inj] at hl
    subst hl
    apply hkey
    apply ht.equivalence.trans (ht.equivalence.symm hm) hlm

/-- A node is vacated. -/
theorem Valid.vacate
    (h : s.Valid t) {i : Nat} (hi : i < s.capacity) (hheld : s.slot i ≠ none) :
  (s.vacate i).Valid t
  := by
  have hnode : (s.vacate i).node = Function.update s.node i none := node_write h.toShape hi _
  have hslot : (s.vacate i).slot = Function.update s.slot i none := slot_write h.toShape hi _
  have hused := OpenAddressing.used_vacate hi hheld
  have hsize := h.size
  have hle := h.size_le
  constructor
  case toNodes =>
    constructor
    case toShape => exact ⟨h.power, h.mask, (h.toShape.write i _).length⟩
    case distinct =>
      rw [hslot]
      apply h.distinct.vacate
    case keyLen =>
      intro j k len hk
      rw [hnode] at hk
      by_cases hji : j = i
      · rw [hji, Function.update_self] at hk
        cases hk
      · rw [Function.update_of_ne hji] at hk
        apply h.keyLen j k len hk
    case nodup => apply h.nodup
    case inRange => apply h.inRange
    case listed =>
      intro j hj
      rw [hslot] at hj
      by_cases hji : j = i
      · rw [hji, Function.update_self] at hj
        contradiction
      · rw [Function.update_of_ne hji] at hj
        apply h.listed j hj
  case threashold => apply h.threashold
  case size =>
    show (if s.size = 0 then ulongMax else s.size - 1)
      = OpenAddressing.used s.capacity (s.vacate i).slot
    rw [hslot, if_neg (by omega)]
    omega
  case size_le =>
    show (if s.size = 0 then ulongMax else s.size - 1) ≤ s.threashold
    rw [if_neg (by omega)]
    omega

/-! ### Resizing -/

/-- The new set after the loop has come through the indexes `done` of the old one. -/
structure Rehashed (t : MapType K) (old : HashSet K) (done : List Nat) (new : HashSet K) : Prop
    extends Shape new where
  capacity_eq : new.capacity = old.capacity * 2
  entries : OpenAddressing.Rehashed new.capacity t.home t.match Prod.fst old.node done new.node
    new.indexes

/-- The nodes of the new set. -/
theorem Rehashed.nodes
    {old new : HashSet K} {done : List Nat} (h : Rehashed t old done new) (hold : old.Nodes t) :
  new.Nodes t
  where
  toShape := h.toShape
  distinct := h.entries.distinct
  keyLen i k len hk := by
    obtain ⟨idx, -, heq⟩ := h.entries.moved i _ hk
    apply hold.keyLen idx k len heq
  nodup := h.entries.nodup
  inRange i hi := ((h.entries.listed i).mp hi).1
  listed i hi := by
    apply (h.entries.listed i).mpr ⟨h.toShape.lt_of_slot hi, _⟩
    rwa [Ne, ← slot_eq_none]

/-- Before the loop. -/
theorem rehashed_nil (h : s.Nodes t) :
  Rehashed t s [] (setResizeInit s)
  := by
  constructor
  case toShape =>
    obtain ⟨e, he⟩ := h.power
    refine ⟨⟨e + 1, ?_⟩, rfl, List.length_replicate⟩
    rw [setResizeInit, he, Nat.pow_succ]
  case capacity_eq => rfl
  case entries =>
    apply OpenAddressing.rehashed_nil
    intro i
    simp only [node, setResizeInit, List.getD_eq_getElem?_getD, List.getElem?_replicate]
    split <;> rfl

/-- One turn of the loop, whose assertion holds. -/
theorem Rehashed.step
    {old new : HashSet K} {done : List Nat} (h : Rehashed t old done new) (ht : t.Lawful)
    (hold : old.Nodes t) {idx : Nat} (hidx : idx < old.capacity) (hnew : idx ∉ done)
    (hin : ∀ j ∈ done, j < old.capacity) (hlt : done.length < old.capacity) :
  ∃ new', setRehash t old new idx = some new' ∧ Rehashed t old (done ++ [idx]) new'
  := by
  cases hn : old.node idx with
  | none =>
    refine ⟨new, ?_, h.toShape, h.capacity_eq, h.entries.skip hn⟩
    rw [setRehash, hn]
  | some e =>
    obtain ⟨key, len⟩ := e
    have hlen := hold.keyLen idx key len hn
    have habsent := h.entries.absent hold.distinct hin hidx hnew hn
    have hno : ¬ new.Has t key := by
      intro hhas
      obtain ⟨i, hi, k, hk, hm⟩ := has_iff.mp hhas
      rw [habsent i hi k hk] at hm
      cases hm
    have hroom : OpenAddressing.used new.capacity new.slot < new.capacity := by
      have hused : OpenAddressing.used new.capacity new.slot = new.indexes.length :=
        h.entries.used_eq
      have hle := h.entries.length_le
      rw [hused, h.capacity_eq]
      omega
    obtain ⟨i, hi, hsearch, hlands⟩ := search_absent h.toShape hno hroom
    have hfree : (new.node i).isNone := by
      rw [Option.isNone_iff_eq_none, ← slot_eq_none]
      apply hlands.1
    refine ⟨{ new.write i (some (key, len)) with indexes := new.indexes ++ [i] }, ?_, ?_⟩
    · rw [setRehash, hn]
      dsimp only
      split
      · rename_i hc
        rw [hlen, setGetCStringNextIdx, (h.nodes hold).search_cString ht hc, hsearch]
        rfl
      · rw [setGetNextIdx, hsearch, Option.map_some, hfree]
        rfl
    · constructor
      case toShape => exact ⟨h.power, h.mask, (h.toShape.write i _).length⟩
      case capacity_eq => apply h.capacity_eq
      case entries =>
        have hput := h.entries.put ht.hashes hn habsent hi hlands
        show OpenAddressing.Rehashed new.capacity t.home t.match Prod.fst old.node
          (done ++ [idx]) (new.write i (some (key, len))).node (new.indexes ++ [i])
        rw [node_write h.toShape hi]
        apply hput

/-- The loop. -/
theorem Rehashed.loop
    {old new : HashSet K} {done rest : List Nat} (h : Rehashed t old done new) (ht : t.Lawful)
    (hold : old.Nodes t) (hnodup : (done ++ rest).Nodup)
    (hin : ∀ j ∈ done ++ rest, j < old.capacity) (hlen : (done ++ rest).length ≤ old.capacity) :
  ∃ new', rest.foldlM (setRehash t old) new = some new' ∧ Rehashed t old (done ++ rest) new'
  := by
  induction rest generalizing done new with
  | nil =>
    refine ⟨new, rfl, ?_⟩
    rw [List.append_nil]
    apply h
  | cons idx rest ih =>
    have hsplit : done ++ idx :: rest = (done ++ [idx]) ++ rest := by simp
    have hidx : idx ∉ done := by
      intro hmem
      apply (List.nodup_append.mp hnodup).2.2 idx hmem idx List.mem_cons_self rfl
    obtain ⟨new', hstep, h'⟩ := h.step ht hold (hin idx (by simp)) hidx
      (fun j hj => hin j (List.mem_append_left _ hj)) (by simp at hlen; omega)
    rw [hsplit] at hnodup hin hlen ⊢
    obtain ⟨new'', hrest, h''⟩ := ih h' hnodup hin hlen
    refine ⟨new'', ?_, h''⟩
    rw [List.foldlM_cons, hstep]
    apply hrest

/-- The counts of two sets that have the same keys. -/
theorem used_eq_of_has
    {s' : HashSet K} (ht : t.Lawful) (h : s.Nodes t) (h' : s'.Nodes t)
    (hhas : ∀ key, s'.Has t key ↔ s.Has t key) :
  OpenAddressing.used s'.capacity s'.slot = OpenAddressing.used s.capacity s.slot
  := by
  let setoid : Setoid K := ⟨fun a b => t.match a b = true, ht.equivalence⟩
  rw [← OpenAddressing.ncard_classes h.distinct setoid (fun _ _ => Iff.rfl),
    ← OpenAddressing.ncard_classes h'.distinct setoid (fun _ _ => Iff.rfl)]
  have hclass : ∀ (s : HashSet K) (q : Quotient setoid),
      (∃ i < s.capacity, ∃ k, s.slot i = some k ∧ Quotient.mk setoid k = q)
        ↔ ∃ key, Quotient.mk setoid key = q ∧ s.Has t key := by
    intro s q
    constructor
    · rintro ⟨i, hi, k, hk, rfl⟩
      exact ⟨k, rfl, has_iff.mpr ⟨i, hi, k, hk, ht.equivalence.refl k⟩⟩
    · rintro ⟨key, rfl, hkey⟩
      obtain ⟨i, hi, k, hk, hm⟩ := has_iff.mp hkey
      exact ⟨i, hi, k, hk, Quotient.sound hm⟩
  congr 1
  ext q
  rw [Set.mem_ofPred_eq, Set.mem_ofPred_eq, hclass, hclass]
  simp only [hhas]

/-- A resize keeps the keys, and after it every key is findable and there is room. -/
theorem Valid.resize
    (h : s.Valid t) (ht : t.Lawful) :
  ∃ s', setResize t s = some s' ∧ s'.Grown t ∧ (∀ key, s'.Has t key ↔ s.Has t key)
    ∧ s'.size < s'.threashold
  := by
  have hlength : s.indexes.length ≤ s.capacity := by
    have hsub : s.indexes ⊆ List.range s.capacity := by
      intro i hi
      apply List.mem_range.mpr (h.inRange i hi)
    have hle := (h.nodup.subperm hsub).length_le
    rwa [List.length_range] at hle
  obtain ⟨new, hloop, hnew⟩ := (rehashed_nil h.toNodes).loop ht h.toNodes
    (by simpa using h.nodup) (fun j hj => h.inRange j (by simpa using hj)) (by simpa using hlength)
  rw [List.nil_append] at hnew
  have hnodes := hnew.nodes h.toNodes
  have hhas : ∀ key, new.Has t key ↔ s.Has t key := by
    intro key
    rw [has_iff, has_iff]
    constructor
    · rintro ⟨i, hi, k, hk, hm⟩
      obtain ⟨e, he, rfl⟩ := Option.map_eq_some_iff.mp hk
      obtain ⟨idx, hidx, heq⟩ := hnew.entries.moved i e he
      refine ⟨idx, h.inRange idx hidx, e.1, ?_, hm⟩
      rw [slot, heq]
      rfl
    · rintro ⟨i, hi, k, hk, hm⟩
      obtain ⟨e, he, rfl⟩ := Option.map_eq_some_iff.mp hk
      have hlisted : i ∈ s.indexes := by
        apply h.listed
        rw [hk]
        apply Option.some_ne_none
      obtain ⟨j, hj, hje⟩ := hnew.entries.kept i hlisted e he
      refine ⟨j, hj, e.1, ?_, hm⟩
      rw [slot, hje]
      rfl
  have hused : OpenAddressing.used new.capacity new.slot = new.indexes.length :=
    hnew.entries.used_eq
  have hsize : new.indexes.length = s.size := by
    rw [← hused, h.size]
    apply used_eq_of_has ht h.toNodes hnodes hhas
  have hroom : s.size + 1 ≤ mapLoad new.capacity := by
    have hle := h.size_le
    have hdouble := mapLoad_double h.pos
    rw [hnew.capacity_eq]
    rw [h.threashold] at hle
    omega
  refine ⟨setResizeDone new, ?_, ?_, hhas, ?_⟩
  · rw [setResize, hloop, Option.map_some]
  · constructor
    case toValid =>
      constructor
      case toNodes =>
        exact ⟨⟨hnew.power, hnew.mask, hnew.length⟩, hnodes.distinct, hnodes.keyLen,
          hnodes.nodup, hnodes.inRange, hnodes.listed⟩
      case threashold => rfl
      case size => apply hused.symm
      case size_le =>
        show new.indexes.length ≤ mapLoad new.capacity
        omega
    case findable => apply hnew.entries.findable
    case occupied =>
      intro i hi
      show new.slot i ≠ none
      rw [Ne, slot_eq_none]
      exact ((hnew.entries.listed i).mp hi).2
  · show new.indexes.length < mapLoad new.capacity
    omega

/-! ### The operations -/

/-- A vacancy where the path of a key ends is not indexed. -/
def LandsFresh (t : MapType K) (s : HashSet K) (key : K) : Prop :=
  ∀ d < s.capacity, (∀ e < d, s.slot ((t.home key + e) % s.capacity) ≠ none) →
    s.slot ((t.home key + d) % s.capacity) = none →
      (t.home key + d) % s.capacity ∉ s.indexes

instance (t : MapType K) (s : HashSet K) (key : K) : Decidable (s.LandsFresh t key) :=
  inferInstanceAs (Decidable (∀ d < s.capacity,
    (∀ e < d, s.slot ((t.home key + e) % s.capacity) ≠ none) →
      s.slot ((t.home key + d) % s.capacity) = none →
        (t.home key + d) % s.capacity ∉ s.indexes))

/-- What `setAdd` needs: that it resizes first, or that the key is findable and, when it is
new, goes to a node that is not indexed. -/
def AddOk (t : MapType K) (s : HashSet K) (key : K) : Prop :=
  s.size ≥ s.threashold ∨ (s.Findable t key ∧ (s.Has t key ∨ s.LandsFresh t key))

instance (t : MapType K) (s : HashSet K) (key : K) : Decidable (s.AddOk t key) :=
  inferInstanceAs (Decidable
    (s.size ≥ s.threashold ∨ (s.Findable t key ∧ (s.Has t key ∨ s.LandsFresh t key))))

/-- A set to which keys have only been added meets the condition. -/
theorem Grown.addOk (h : s.Grown t) (key : K) :
  s.AddOk t key
  := by
  refine .inr ⟨h.findable key, .inr ?_⟩
  intro d _ _ hnone hmem
  exact h.occupied _ hmem hnone

/-- After the resize with which `setAdd` may begin. -/
theorem Valid.reserve
    (h : s.Valid t) (ht : t.Lawful) {key : K} (hok : s.AddOk t key) :
  ∃ s', setReserve t s = some s' ∧ s'.Valid t ∧ (s.Grown t → s'.Grown t)
    ∧ (∀ key, s'.Has t key ↔ s.Has t key) ∧ s'.Findable t key
    ∧ (s'.Has t key ∨ s'.LandsFresh t key) ∧ s'.size < s'.threashold
  := by
  unfold setReserve
  split
  · obtain ⟨s', hr, hg, hhas, hroom⟩ := h.resize ht
    refine ⟨s', hr, hg.toValid, fun _ => hg, hhas, hg.findable key, .inr ?_, hroom⟩
    intro d _ _ hnone hmem
    exact hg.occupied _ hmem hnone
  · rename_i hfull
    obtain ⟨hf, hfresh⟩ := hok.resolve_left hfull
    exact ⟨s, rfl, h, fun hg => hg, fun _ => Iff.rfl, hf, hfresh, by omega⟩

/-- `setAdd`. -/
theorem Valid.add
    (h : s.Valid t) (ht : t.Lawful) {key : K} (hok : s.AddOk t key) :
  ∃ s' b, setAdd t s key = some (s', b) ∧ s'.Valid t ∧ (s.Grown t → s'.Grown t)
    ∧ (b = true ↔ ¬ s.Has t key)
    ∧ (∀ key', s'.Has t key' ↔ t.match key key' ∨ s.Has t key')
  := by
  obtain ⟨s₁, hres, hv, hg, hhas, hf, hfresh, hroom⟩ := h.reserve ht hok
  by_cases hin : s₁.Has t key
  · obtain ⟨i, hi, k, hk, hm⟩ := has_iff.mp hin
    have hnode : (s₁.node i).isNone = false := by
      rw [Option.isNone_eq_false_iff, Option.isSome_iff_ne_none, Ne, ← slot_eq_none, hk]
      simp
    refine ⟨s₁, false, ?_, hv, hg, ?_, ?_⟩
    · rw [setAdd, hres, Option.bind_some, setGetNextIdx, hv.toNodes.search_held ht hf hi hk hm,
        Option.map_some, Option.map_some, hnode]
      rfl
    · simpa using (hhas key).mp hin
    · intro key'
      rw [hhas]
      constructor
      · exact .inr
      · rintro (hkey | hs)
        · rw [← hhas]
          exact has_iff.mpr ⟨i, hi, k, hk, ht.equivalence.trans hm hkey⟩
        · apply hs
  · obtain ⟨i, hi, hsearch, hlands⟩ := search_absent hv.toShape hin hv.used_lt
    have hnode : (s₁.node i).isNone = true := by
      rw [Option.isNone_iff_eq_none, ← slot_eq_none]
      apply hlands.1
    have hnotin : i ∉ s₁.indexes := by
      obtain ⟨hnone, d, hd, rfl, hbefore⟩ := hlands
      apply (hfresh.resolve_left hin) d hd hbefore hnone
    obtain ⟨hput, hgrown⟩ := hv.put ht hin hi hlands hnotin hroom
    refine ⟨s₁.put t i key, true, ?_, hput, fun hs => hgrown (hg hs), ?_, ?_⟩
    · rw [setAdd, hres, Option.bind_some, setGetNextIdx, hsearch, Option.map_some,
        Option.map_some, hnode]
      rfl
    · rw [← hhas]
      simpa using hin
    · intro key'
      rw [has_put hv.toShape hi hlands.1, hhas]

/-- `setRemove`. -/
theorem Valid.remove
    (h : s.Valid t) (ht : t.Lawful) {key : K} (hf : s.Findable t key) :
  ∃ s' k, setRemove t s key = some (s', k) ∧ s'.Valid t
    ∧ (∀ key', s'.Has t key' ↔ ¬ t.match key key' ∧ s.Has t key')
  := by
  by_cases hin : s.Has t key
  · obtain ⟨i, hi, k, hk, hm⟩ := has_iff.mp hin
    have hheld : s.slot i ≠ none := by
      rw [hk]
      apply Option.some_ne_none
    have hnode : (s.node i).isSome := by
      rw [Option.isSome_iff_ne_none, Ne, ← slot_eq_none]
      apply hheld
    refine ⟨s.vacate i, s.slot i, ?_, h.vacate hi hheld, h.toNodes.has_vacate ht hi hk hm⟩
    rw [setRemove, setGetIdx, h.toNodes.search_held ht hf hi hk hm, Option.map_some,
      Option.map_some, if_pos hnode]
  · obtain ⟨i, hi, hsearch, hlands⟩ := search_absent h.toShape hin h.used_lt
    have hnode : ¬ (s.node i).isSome := by
      rw [Option.isSome_iff_ne_none, not_not, ← slot_eq_none]
      apply hlands.1
    refine ⟨s, none, ?_, h, ?_⟩
    · rw [setRemove, setGetIdx, hsearch, Option.map_some, Option.map_some, if_neg hnode]
    · intro key'
      constructor
      · intro hs
        refine ⟨?_, hs⟩
        intro hkey
        obtain ⟨j, hj, k, hk, hm⟩ := has_iff.mp hs
        exact hin (has_iff.mpr ⟨j, hj, k, hk,
          ht.equivalence.trans hm (ht.equivalence.symm hkey)⟩)
      · exact And.right

/-- `setHas`. -/
theorem Valid.setHas_eq
    (h : s.Valid t) (ht : t.Lawful) {key : K} (hf : s.Findable t key) :
  setHas t s key = some (decide (s.Has t key))
  := by
  by_cases hin : s.Has t key
  · obtain ⟨i, hi, k, hk, hm⟩ := has_iff.mp hin
    have hnode : (s.node i).isSome := by
      rw [Option.isSome_iff_ne_none, Ne, ← slot_eq_none, hk]
      apply Option.some_ne_none
    rw [setHas, setGetIdx, h.toNodes.search_held ht hf hi hk hm, Option.map_some,
      Option.map_some, if_pos hnode]
    simpa using hin
  · obtain ⟨i, hi, hsearch, hlands⟩ := search_absent h.toShape hin h.used_lt
    have hnode : ¬ (s.node i).isSome := by
      rw [Option.isSome_iff_ne_none, not_not, ← slot_eq_none]
      apply hlands.1
    rw [setHas, setGetIdx, hsearch, Option.map_some, Option.map_some, if_neg hnode]
    simpa using hin

/-- A set that is created. -/
theorem grown_setNew {capacity : Nat} (hpower : ∃ e, capacity = 2 ^ e) :
  (setNew K capacity).Grown t ∧ ∀ key, ¬ (setNew K capacity).Has t key
  := by
  have hnode : ∀ i, (setNew K capacity).node i = none := by
    intro i
    simp only [node, setNew, List.getD_eq_getElem?_getD, List.getElem?_replicate]
    split <;> rfl
  have hslot : ∀ i, (setNew K capacity).slot i = none := by
    intro i
    rw [slot_eq_none, hnode]
  constructor
  · constructor
    case toValid =>
      constructor
      case toNodes =>
        constructor
        case toShape => exact ⟨hpower, rfl, List.length_replicate⟩
        case distinct =>
          intro i _ j _ k l hk
          rw [hslot] at hk
          cases hk
        case keyLen =>
          intro i k len hk
          rw [hnode] at hk
          cases hk
        case nodup => apply List.nodup_nil
        case inRange =>
          intro i hi
          cases hi
        case listed =>
          intro i hi
          rw [hslot] at hi
          contradiction
      case threashold => rfl
      case size =>
        show 0 = OpenAddressing.used capacity (setNew K capacity).slot
        simp [OpenAddressing.used, hslot]
      case size_le => apply Nat.zero_le
    case findable =>
      intro key d _ hany
      rw [hslot] at hany
      cases hany
    case occupied =>
      intro i hi
      cases hi
  · intro key hkey
    obtain ⟨i, -, k, hk, -⟩ := has_iff.mp hkey
    rw [hslot] at hk
    cases hk

end HashSet

end Set

end Polyc
