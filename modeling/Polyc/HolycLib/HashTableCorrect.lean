import Polyc.HolycLib.HashTable
import Polyc.Lib.Tombstones
import Mathlib.Tactic.Cases

/-!
# The hash tables as finite maps

What both kinds of tables keep: the shape, that the cells represent a finite map, that the
vector of indexes lists the cells with nodes but for those that are marked as deleted, and
that the size is the number of keys.  Every operation is one on the finite map as long as the
searches it makes end before they come to a tombstone.
-/

namespace Polyc

open OpenAddressing Tombstones

/-- The keys of a kind of table: the key of a node that is not deleted, what is searched for,
and whether a search for a key stops at deleted nodes. -/
structure HtType.Law {P N : Type} (t : HtType P N) (K : Type) [DecidableEq K] where
  key : N → Option K
  probe : K → P
  weak : K → Bool
  deleted_eq : ∀ n, t.deleted n = (key n).isNone
  found_eq : ∀ k n, t.found (probe k) n = (key n).elim (weak k) (· = k)
  probe_eq : ∀ n k, key n = some k → t.probe n = probe k

section Table

variable {P N K : Type} [DecidableEq K] {t : HtType P N} {L : t.Law K} {m : HtMap N}

/-- The hash of a key. -/
def HtType.Law.home (L : t.Law K) (k : K) : Nat := t.hash (L.probe k)

/-- The key and the value of a node that is not deleted. -/
def HtType.Law.cell (L : t.Law K) (n : N) : Option (K × Word) := (L.key n).map (·, t.value n)

namespace HtMap

/-- The cells of the table. -/
def cells (L : t.Law K) (m : HtMap N) : Cells K Word := fun i => (m.node i).map L.cell

/-- The capacity is a power of two that the multiplication with 8 leaves on 64 bits, and the
mask and the cells are as many. -/
structure Shape (m : HtMap N) : Prop where
  power : ∃ e ≤ 60, m.capacity = 2 ^ e
  mask : m.mask = m.capacity - 1
  length : m.entries.length = m.capacity

theorem Shape.pos (h : m.Shape) : 0 < m.capacity := by
  obtain ⟨e, -, he⟩ := h.power
  rw [he]
  apply Nat.two_pow_pos

theorem Shape.le (h : m.Shape) : m.capacity ≤ 2 ^ 60 := by
  obtain ⟨e, hle, he⟩ := h.power
  rw [he]
  apply Nat.pow_le_pow_right (by decide) hle

theorem Shape.write (h : m.Shape) (i : Nat) (n : N) :
  (m.write i n).Shape
  where
  power := h.power
  mask := h.mask
  length := by
    dsimp only [HtMap.write]
    rw [List.length_set, h.length]

/-- The node that is written. -/
theorem node_write_self (h : m.Shape) {i : Nat} (hi : i < m.capacity) (n : N) :
  (m.write i n).node i = some n
  := by
  have hlt : i < m.entries.length := h.length ▸ hi
  simp [node, write, List.getD, hlt]

/-- The nodes that are not written. -/
theorem node_write_ne {i j : Nat} (hne : j ≠ i) (n : N) :
  (m.write i n).node j = m.node j
  := by
  simp [node, write, List.getD, List.getElem?_set_ne hne.symm]

/-- The cells after a node is written. -/
theorem cells_write (h : m.Shape) {i : Nat} (hi : i < m.capacity) (n : N) :
  (m.write i n).cells L = Function.update (m.cells L) i (some (L.cell n))
  := by
  funext j
  by_cases hj : j = i
  · rw [hj, Function.update_self, cells, node_write_self h hi]
    rfl
  · rw [Function.update_of_ne hj, cells, node_write_ne hj, cells]

theorem cells_eq_none {i : Nat} :
  m.cells L i = none ↔ m.node i = none
  := Option.map_eq_none_iff

/-! ### Searches -/

/-- A search probes the table round from the cell of the hash. -/
theorem search_eq (h : m.Shape) (hash : Nat) (stop : N → Bool) :
  m.search hash stop = probe (fun i => (m.node i).all stop) (fun i => (i + 1) % m.capacity)
    m.capacity (hash % m.capacity)
  := by
  have hpos := h.pos
  obtain ⟨e, -, he⟩ := h.power
  have hmask : m.mask = 2 ^ e - 1 := by rw [h.mask, he]
  have hsucc : m.mask + 1 = m.capacity := by
    rw [h.mask]
    omega
  unfold search
  simp only [hsucc]
  simp only [hmask, Nat.and_two_pow_sub_one_eq_mod]
  simp only [← he]
  cases hprobe : probe (fun i => (m.node i).all stop) (fun i => (i + 1) % m.capacity) m.capacity
    (hash % m.capacity) with
  | none => rfl
  | some i =>
    obtain ⟨d, -, rfl, -⟩ := probe_eq_some.mp hprobe
    apply Option.filter_some_pos
    rw [h.length, decide_eq_true_iff]
    apply Nat.mod_lt _ hpos

/-- The cells at which `GetIdx` stops. -/
theorem stops_getIdx (m : HtMap N) (L : t.Law K) (k : K) :
  (fun i => (m.node i).all (t.found (L.probe k))) = Tombstones.stops (L.weak k) (m.cells L) k
  := by
  funext i
  unfold Tombstones.stops cells HtType.Law.cell
  cases m.node i with
  | none => rfl
  | some n =>
    rw [Option.all_some, L.found_eq, Option.map_some, Option.all_some]
    cases L.key n <;> rfl

/-- The cells at which `GetNextIdx` stops. -/
theorem stops_getNextIdx (m : HtMap N) (L : t.Law K) (k : K) :
  (fun i => (m.node i).all fun cur => t.deleted cur || t.found (L.probe k) cur)
    = Tombstones.stops true (m.cells L) k
  := by
  funext i
  unfold Tombstones.stops cells HtType.Law.cell
  cases m.node i with
  | none => rfl
  | some n =>
    rw [Option.all_some, L.found_eq, L.deleted_eq, Option.map_some, Option.all_some]
    cases L.key n <;> rfl

/-- What a table keeps, where `full` lists all cells with nodes and `M` is what it binds. -/
structure Valid (L : t.Law K) (m : HtMap N) (full : List Nat) (M : K → Option Word) : Prop
    extends Shape m where
  table : Tombstones.Table m.capacity L.home (m.cells L) M
  nodup : full.Nodup
  listed : ∀ i, i ∈ full ↔ i < m.capacity ∧ m.node i ≠ none
  marked : List.Forall₂ (fun a b => a = b ∨ a = htDeleted) m.indexes full
  size : m.size = (bound M).ncard

variable {full : List Nat} {M : K → Option Word} {k : K}

/-- No cell of a table is `HT_DELETED`. -/
theorem Shape.ne_htDeleted (h : m.Shape) {i : Nat} (hi : i < m.capacity) : i ≠ htDeleted := by
  have hle := h.le
  unfold htDeleted
  omega

/-- A search for a key comes to its cell, or to a vacancy. -/
theorem Valid.search_found
    (h : m.Valid L full M) (hends : Ends m.capacity (m.cells L) k)
    (hclear : L.weak k = true → Clear m.capacity L.home (m.cells L) k) :
  ∃ i < m.capacity, m.search (t.hash (L.probe k)) (t.found (L.probe k)) = some i
    ∧ (Holds (m.cells L) k i ∧ (m.node i).isSome
      ∨ ¬ Bound m.capacity (m.cells L) k ∧ m.node i = none)
  := by
  obtain ⟨i, hi, hprobe, hcase⟩ := h.table.search (L.weak k) hends hclear
  refine ⟨i, hi, ?_, ?_⟩
  · rw [search_eq h.toShape, stops_getIdx]
    apply hprobe
  · rcases hcase with hholds | ⟨hno, hnone, -⟩
    · left
      obtain ⟨v, hv⟩ := holds_iff.mp hholds
      refine ⟨hholds, ?_⟩
      rw [Option.isSome_iff_ne_none, Ne, ← cells_eq_none (L := L), hv]
      simp
    · right
      exact ⟨hno, cells_eq_none.mp (tag_eq_none.mp hnone)⟩

/-- `GetIdx` finds the cell of a key, or that there is none. -/
theorem Valid.getIdx
    (h : m.Valid L full M) (hends : Ends m.capacity (m.cells L) k)
    (hclear : L.weak k = true → Clear m.capacity L.home (m.cells L) k) :
  (∃ i < m.capacity, htGetIdx t m (L.probe k) = some i ∧ Holds (m.cells L) k i)
    ∨ htGetIdx t m (L.probe k) = some htDeleted ∧ ¬ Bound m.capacity (m.cells L) k
  := by
  obtain ⟨i, hi, hsearch, ⟨hholds, hsome⟩ | ⟨hno, hnone⟩⟩ := h.search_found hends hclear
  · left
    refine ⟨i, hi, ?_, hholds⟩
    rw [htGetIdx, hsearch, Option.map_some, if_pos hsome]
  · right
    refine ⟨?_, hno⟩
    rw [htGetIdx, hsearch, Option.map_some, hnone]
    rfl

/-- `GetNextIdx` finds the cell of a key, or where it can be put. -/
theorem Valid.getNextIdx
    (h : m.Valid L full M) (hends : Ends m.capacity (m.cells L) k)
    (hclear : Clear m.capacity L.home (m.cells L) k) :
  ∃ i < m.capacity, htGetNextIdx t m (L.probe k) = some (i, false) ∧ Holds (m.cells L) k i
    ∨ htGetNextIdx t m (L.probe k) = some (i, true) ∧ ¬ Bound m.capacity (m.cells L) k
      ∧ Lands m.capacity (tagHome L.home) (tag (m.cells L)) (.inl k) i
  := by
  obtain ⟨i, hi, hprobe, hcase⟩ := h.table.search true hends fun _ => hclear
  have hsearch : m.search (t.hash (L.probe k)) (fun cur => t.deleted cur || t.found (L.probe k) cur)
      = some i := by
    rw [search_eq h.toShape, stops_getNextIdx]
    apply hprobe
  refine ⟨i, hi, ?_⟩
  rcases hcase with hholds | ⟨hno, hlands⟩
  · left
    refine ⟨?_, hholds⟩
    obtain ⟨v, hv⟩ := holds_iff.mp hholds
    have hsome : (m.node i).isNone = false := by
      rw [Option.isNone_eq_false_iff, Option.isSome_iff_ne_none, Ne, ← cells_eq_none (L := L), hv]
      simp
    rw [htGetNextIdx, hsearch, Option.map_some, hsome]
  · right
    refine ⟨?_, hno, hlands⟩
    have hnone := cells_eq_none.mp (tag_eq_none.mp hlands.1)
    rw [htGetNextIdx, hsearch, Option.map_some, hnone]
    rfl

/-! ### Resizing -/

/-- The new map after the loop has come through the indexes `done` of the old one. -/
structure Moved (L : t.Law K) (old : HtMap N) (done : List Nat) (new : HtMap N) : Prop
    extends Shape new where
  capacity_eq : new.capacity = old.capacity * 2
  entries : Rehashed new.capacity (tagHome L.home) same (fun e => .inl e.1) (live (old.cells L))
    done (live (new.cells L)) new.indexes
  fresh : ∀ i, new.cells L i ≠ some none

theorem cells_htResizeInit (m : HtMap N) (i : Nat) :
  (htResizeInit m).cells L i = none
  := by
  rw [cells_eq_none, node, htResizeInit, htEntries, List.getD_eq_getElem?_getD,
    List.getElem?_replicate]
  split <;> rfl

/-- Before the loop. -/
theorem moved_nil (h : m.Shape) (hcap : m.capacity ≤ 2 ^ 59) :
  Moved L m [] (htResizeInit m)
  := by
  have hpos := h.pos
  have hcapacity : (htResizeInit m).capacity = m.capacity * 2 := by
    show u64 (m.capacity * 2) = m.capacity * 2
    unfold u64
    omega
  have hpower : ∃ e ≤ 60, m.capacity * 2 = 2 ^ e := by
    obtain ⟨e, -, he⟩ := h.power
    refine ⟨e + 1, ?_, by rw [he, Nat.pow_succ]⟩
    rw [he, Nat.pow_le_pow_iff_right (by decide)] at hcap
    omega
  constructor
  case toShape =>
    constructor
    case power =>
      rw [hcapacity]
      apply hpower
    case mask =>
      rw [hcapacity]
      show u64 (u64 (m.capacity * 2) + (2 ^ 64 - 1)) = m.capacity * 2 - 1
      unfold u64
      omega
    case length =>
      rw [hcapacity]
      show (htEntries N (u64 (m.capacity * 2))).length = m.capacity * 2
      rw [htEntries, List.length_replicate]
      unfold u64
      omega
  case capacity_eq => apply hcapacity
  case entries =>
    apply rehashed_nil
    intro i
    rw [live, cells_htResizeInit]
    rfl
  case fresh =>
    intro i hi
    rw [cells_htResizeInit] at hi
    cases hi

/-- One turn of the loop. -/
theorem Moved.step
    {old new : HtMap N} {done full : List Nat} {M : K → Option Word} (h : Moved L old done new)
    (hold : old.Valid L full M) {idx : Nat} (hidx : idx ∈ full) (hnew : idx ∉ done)
    (hin : ∀ j ∈ done, j ∈ full) (hlt : done.length < old.capacity) :
  ∃ new', htRehash t old new idx = some new' ∧ Moved L old (done ++ [idx]) new'
  := by
  obtain ⟨hidxlt, hne⟩ := (hold.listed idx).mp hidx
  obtain ⟨n, hn⟩ := Option.ne_none_iff_exists'.mp hne
  cases hk : L.key n with
  | none =>
    refine ⟨new, ?_, h.toShape, h.capacity_eq, ?_, h.fresh⟩
    · rw [htRehash, hn]
      show (if t.deleted n = true then _ else _) = _
      rw [L.deleted_eq, hk]
      rfl
    · apply h.entries.skip
      rw [live, cells, hn, Option.map_some, HtType.Law.cell, hk]
      rfl
  | some k =>
    have hlive : live (old.cells L) idx = some (k, t.value n) := by
      rw [live, cells, hn, Option.map_some, HtType.Law.cell, hk]
      rfl
    have habsent := h.entries.absent hold.table.distinct_live
      (fun j hj => ((hold.listed j).mp (hin j hj)).1) hidxlt hnew hlive
    have hroom : used new.capacity (keys (fun e => (Sum.inl e.1 : K ⊕ Nat)) (live (new.cells L)))
        < new.capacity := by
      have hle := h.entries.length_le
      rw [h.entries.used_eq, h.capacity_eq]
      omega
    rw [← tag_eq_keys h.fresh] at habsent hroom
    obtain ⟨i, hi, hprobe, hlands⟩ : ∃ i < new.capacity,
        probe (OpenAddressing.stops same (tag (new.cells L)) (.inl k))
          (fun i => (i + 1) % new.capacity) new.capacity
          (tagHome L.home (.inl k) % new.capacity) = some i
        ∧ Lands new.capacity (tagHome L.home) (tag (new.cells L)) (.inl k) i :=
      find_of_absent habsent (exists_vacancy hroom)
    have hsearch : new.search (t.hash (L.probe k))
        (fun cur => t.deleted cur || t.found (L.probe k) cur) = some i := by
      rw [search_eq h.toShape, stops_getNextIdx]
      apply probe_stops (fun _ => clear_of_fresh h.fresh k) hprobe
    have hcells : ({ new.write i n with indexes := new.indexes ++ [i] } : HtMap N).cells L
        = Function.update (new.cells L) i (some (some (k, t.value n))) := by
      have hcell : L.cell n = some (k, t.value n) := by
        rw [HtType.Law.cell, hk]
        rfl
      rw [← hcell]
      apply cells_write h.toShape hi
    refine ⟨{ new.write i n with indexes := new.indexes ++ [i] }, ?_, ?_⟩
    · rw [htRehash, hn]
      show (if t.deleted n = true then _ else _) = _
      rw [L.deleted_eq, hk, Option.isNone_some, if_neg (by simp), htGetNextIdx,
        L.probe_eq n k hk, hsearch]
      rfl
    · constructor
      case toShape =>
        have hwrite := h.toShape.write i n
        exact ⟨hwrite.power, hwrite.mask, hwrite.length⟩
      case capacity_eq => apply h.capacity_eq
      case entries =>
        have hlive' : live (({ new.write i n with indexes := new.indexes ++ [i] } : HtMap N).cells L)
            = Function.update (live (new.cells L)) i (some (k, t.value n)) := by
          rw [hcells]
          funext j
          by_cases hji : j = i
          · rw [hji, live, Function.update_self, Function.update_self]
            rfl
          · rw [live, Function.update_of_ne hji, Function.update_of_ne hji]
            rfl
        rw [hlive']
        rw [tag_eq_keys h.fresh] at habsent hlands
        apply h.entries.put (hashes L.home) hlive habsent hi hlands
      case fresh =>
        intro j hj
        rw [hcells] at hj
        by_cases hji : j = i
        · rw [hji, Function.update_self] at hj
          cases hj
        · rw [Function.update_of_ne hji] at hj
          apply h.fresh j hj

/-- The loop. -/
theorem Moved.loop
    {old new : HtMap N} {done full : List Nat} {M : K → Option Word} (rest : List Nat)
    (h : Moved L old done new) (hold : old.Valid L full M) (hnodup : (done ++ rest).Nodup)
    (hin : ∀ j ∈ done ++ rest, j ∈ full) (hlen : (done ++ rest).length ≤ old.capacity) :
  ∃ new', rest.foldlM (htRehash t old) new = some new' ∧ Moved L old (done ++ rest) new'
  := by
  induction rest generalizing done new with
  | nil =>
    refine ⟨new, rfl, ?_⟩
    rw [List.append_nil]
    apply h
  | cons idx rest ih =>
    have hsplit : done ++ idx :: rest = (done ++ [idx]) ++ rest := by simp
    have hidx : idx ∉ done := by
      intro hmem
      apply (List.nodup_append.mp hnodup).2.2 idx hmem idx List.mem_cons_self rfl
    obtain ⟨new', hstep, h'⟩ := h.step hold (hin idx (by simp)) hidx
      (fun j hj => hin j (List.mem_append_left _ hj)) (by simp at hlen; omega)
    rw [hsplit] at hnodup hin hlen ⊢
    obtain ⟨new'', hrest, h''⟩ := ih h' hnodup hin hlen
    refine ⟨new'', ?_, h''⟩
    rw [List.foldlM_cons, hstep]
    apply hrest

/-- The cells with nodes are at most as many as all. -/
theorem Valid.length_full_le (h : m.Valid L full M) :
  full.length ≤ m.capacity
  := by
  have hsub : full ⊆ List.range m.capacity := by
    intro i hi
    apply List.mem_range.mpr ((h.listed i).mp hi).1
  have hle := (h.nodup.subperm hsub).length_le
  rwa [List.length_range] at hle

/-- A resize of a map whose vector of indexes lists all cells with nodes keeps what is bound;
the new table has no tombstones, and it has a vacancy. -/
theorem Valid.resize
    (h : m.Valid L full M) (hcap : m.capacity ≤ 2 ^ 59) (hfull : m.indexes = full) :
  ∃ m', htResize t m = some m' ∧ m'.Valid L m'.indexes M ∧ (∀ i, m'.cells L i ≠ some none)
    ∧ ∃ i < m'.capacity, (m'.cells L i).isNone
  := by
  obtain ⟨new, hloop, hnew⟩ := (moved_nil h.toShape hcap).loop full h
    (by simpa using h.nodup) (by simp) (by simpa using h.length_full_le)
  rw [List.nil_append] at hnew
  have hlisted : ∀ i, i ∈ new.indexes ↔ i < new.capacity ∧ new.cells L i ≠ none := by
    intro i
    rw [hnew.entries.listed]
    have hiff : live (new.cells L) i ≠ none ↔ new.cells L i ≠ none := by
      rw [live]
      rcases hcell : new.cells L i with _ | _ | e
      · simp
      · cases hnew.fresh i hcell
      · simp
    rw [hiff]
  have htable : Tombstones.Table new.capacity L.home (new.cells L) M := by
    apply h.table.rehash hnew.entries
    · intro j hj
      apply ((h.listed j).mp hj).1
    · intro i hi e he
      apply (h.listed i).mpr ⟨hi, ?_⟩
      rw [Ne, ← cells_eq_none (L := L), he]
      simp
    · apply hnew.fresh
  refine ⟨htResizeDone new, ?_, ?_, hnew.fresh, ?_⟩
  · rw [htResize, hfull, hloop, Option.map_some]
  · constructor
    case toShape => exact ⟨hnew.power, hnew.mask, hnew.length⟩
    case table => apply htable
    case nodup => apply hnew.entries.nodup
    case listed =>
      intro i
      rw [Ne, ← cells_eq_none (L := L)]
      apply hlisted
    case marked =>
      rw [List.forall₂_same]
      intro i _
      left
      rfl
    case size => exact (htable.ncard_eq_length hnew.fresh hnew.entries.nodup hlisted).symm
  · have hroom : used new.capacity (tag (new.cells L)) < new.capacity := by
      have hle := hnew.entries.length_le
      have hlen := h.length_full_le
      have hpos := h.pos
      rw [tag_eq_keys hnew.fresh, hnew.entries.used_eq, hnew.capacity_eq]
      omega
    obtain ⟨i, hi, hnone⟩ := exists_vacancy hroom
    exact ⟨i, hi, Option.isNone_iff_eq_none.mpr (tag_eq_none.mp hnone)⟩

end HtMap

end Table

end Polyc
