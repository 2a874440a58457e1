import Polyc.Containers.MapResize
import Polyc.Lib.RoundUp

/-!
# What the operations of the hash map do

Each operation keeps the invariant of the map, and binds what it should when the key is
findable, or, where the table is resized or cleared, when every node in use is indexed.
-/

namespace Polyc

/-! ### The rounding of a capacity -/

/-- A capacity is rounded up to a power of two. -/
theorem roundUpToNextPowerOf2_pow {v : Word} (hlo : 2 ≤ v.toNat) (hhi : v.toNat ≤ 2 ^ 63) :
  ∃ e, (roundUpToNextPowerOf2 v).toNat = 2 ^ (e + 1)
  := by
  have hx : (v - 1).toNat = v.toNat - 1 := by
    rw [BitVec.toNat_sub_of_le]
    · rfl
    · rw [BitVec.le_def]
      show 1 ≤ v.toNat
      omega
  have hne : (v - 1).toNat ≠ 0 := by omega
  -- all bits up to the highest of `v - 1` are set
  have hsmear := (((((RoundUp.smeared_one (v - 1)).double).double).double).double).double.double
  obtain ⟨y, hround, hy⟩ : ∃ y, roundUpToNextPowerOf2 v = y + 1
      ∧ y.toNat = 2 ^ (Nat.log2 (v - 1).toNat + 1) - 1 :=
    ⟨_, rfl, hsmear.toNat_eq hne⟩
  have hlog : Nat.log2 (v - 1).toNat < 63 := by
    rw [Nat.log2_lt hne]
    omega
  refine ⟨Nat.log2 (v - 1).toNat, ?_⟩
  have hpos := Nat.two_pow_pos (Nat.log2 (v - 1).toNat + 1)
  have hlt : 2 ^ (Nat.log2 (v - 1).toNat + 1) < 2 ^ 64 :=
    Nat.pow_lt_pow_right (by omega) (by omega)
  rw [hround, BitVec.toNat_add, hy]
  show (2 ^ (Nat.log2 (v - 1).toNat + 1) - 1 + 1) % 2 ^ 64 = _
  rw [Nat.sub_add_cancel hpos, Nat.mod_eq_of_lt hlt]

section Map

variable {K : Type} {t : MapType K} {m : Map K}

namespace Map

/-- A `DELETED` node where the path of a key first comes to a node not in use is indexed. -/
def LandsListed (t : MapType K) (m : Map K) (key : K) : Prop :=
  ∀ d < m.capacity, (∀ e < d, m.slot ((t.home key + e) % m.capacity) ≠ none) →
    m.node ((t.home key + d) % m.capacity) = .deleted →
      (t.home key + d) % m.capacity ∈ m.indexes

instance [DecidableEq K] (t : MapType K) (m : Map K) (key : K) :
    Decidable (m.LandsListed t key) :=
  inferInstanceAs (Decidable (∀ d < m.capacity,
    (∀ e < d, m.slot ((t.home key + e) % m.capacity) ≠ none) →
      m.node ((t.home key + d) % m.capacity) = .deleted →
        (t.home key + d) % m.capacity ∈ m.indexes))

/-- There is a node that is not in use. -/
theorem Valid.used_lt (h : m.Valid t) :
  OpenAddressing.used m.capacity m.slot < m.capacity
  := by
  have hle := h.size_le
  have hpos := h.two_le
  have hlt : mapLoad m.capacity < m.capacity := mapLoad_lt (by omega)
  have hsize := h.size
  rw [h.threashold] at hle
  omega

/-- The cache stays sound when a key takes the place of a matching one, or of none. -/
theorem CacheSound.write
    {key : K} {i : Nat} (h : m.CacheSound t) (hs : m.Shape) (ht : t.Lawful)
    (hi : i < m.capacity) (hheld : ∀ k, m.slot i = some k → t.match k key) (value : Word)
    (len : Int) :
  (m.write i (.taken key value len)).CacheSound t
  := by
  rcases h with hreset | ⟨hlt, k, v, l, key', hk, hp, hm⟩
  · exact .inl hreset
  · right
    refine ⟨hlt, ?_⟩
    show ∃ k v l key', (m.write i (.taken key value len)).node m.cachedIdx = .taken k v l
      ∧ t.pointer key' = m.cachedKey ∧ t.match k key'
    by_cases hci : m.cachedIdx = i
    · refine ⟨key, value, len, key', ?_, hp, ?_⟩
      · rw [hci, node_write_self hs hi]
      · rw [hci] at hk
        apply ht.equivalence.trans (ht.equivalence.symm (hheld k (slot_of_taken hk))) hm
    · refine ⟨k, v, l, key', ?_, hp, hm⟩
      rw [node_write_ne hci]
      apply hk

/-- Nodes in use stay indexed when one more is put into use and indexed. -/
theorem Listed.put
    {i : Nat} (h : m.Listed) {n : MapNode K} {indexes : List Nat} (hsub : m.indexes ⊆ indexes)
    (hi : i ∈ indexes) :
  Listed { m.write i n with indexes := indexes }
  := by
  intro j hj htaken
  by_cases hji : j = i
  · rw [hji]
    apply hi
  · apply hsub
    apply h j hj
    have heq : (m.write i n).node j = m.node j := node_write_ne hji n
    rw [← heq]
    apply htaken

/-! ### Insertions -/

/-- What the insertions make of a key that the search has found a node for. -/
def put (t : MapType K) (m : Map K) (found : Nat × Bool) (key : K) (value : Word) : Map K :=
  (if found.2 then m.count found.1 else m).write found.1 (.taken key value (t.getKeyLen key))

/-- An insertion of a key that is bound. -/
theorem Valid.put_bound
    (h : m.Valid t) (ht : t.Lawful) {key : K} (hf : m.Findable t key)
    (hb : ∃ v, m.Binds t key v) (value : Word) :
  ∃ i, mapGetNextIdx t m key = some (i, false) ∧ (m.put t (i, false) key value).Valid t
    ∧ (∀ key' v, (m.put t (i, false) key value).Binds t key' v
        ↔ if t.match key key' then v = value else m.Binds t key' v)
    ∧ (m.Listed → (m.put t (i, false) key value).Listed)
  := by
  obtain ⟨v, i, hi, k, len, hk, hm⟩ := hb
  have hslot := slot_of_taken hk
  have hheld : ∀ l, m.slot i = some l → t.match l key := by
    intro l hl
    rw [hslot, Option.some_inj] at hl
    rwa [← hl]
  have htakes := h.toNodes.takes_held ht hi hk hm
  refine ⟨i, ?_, ?_, ?_, ?_⟩
  · rw [mapGetNextIdx, h.toNodes.search_held ht hf hi hk hm, Option.map_some, hk]
    rfl
  · constructor
    case toNodes =>
      apply h.toNodes.put ht htakes value h.nodup
      intro j hj
      exact .inl hj
    case threashold => apply h.threashold
    case size =>
      show m.size = OpenAddressing.used m.capacity
        (m.write i (.taken key value (t.getKeyLen key))).slot
      rw [slot_write h.toShape hi, h.size]
      apply (OpenAddressing.used_update_held _ key).symm
      rw [hslot]
      apply Option.some_ne_none
    case size_le => apply h.size_le
    case cache => apply h.cache.write h.toShape ht hi hheld
  · apply binds_write h.toShape ht htakes hheld
  · intro hl
    apply hl.put (fun j hj => hj)
    apply hl i hi
    rw [hk]
    rfl

/-- An insertion of a key that is not bound. -/
theorem Valid.put_unbound
    (h : m.Valid t) (ht : t.Lawful) {key : K} (hb : ¬ ∃ v, m.Binds t key v)
    (hroom : m.size < m.threashold) (value : Word) :
  ∃ i, mapGetNextIdx t m key = some (i, true) ∧ (m.put t (i, true) key value).Valid t
    ∧ (∀ key' v, (m.put t (i, true) key value).Binds t key' v
        ↔ if t.match key key' then v = value else m.Binds t key' v)
    ∧ (m.LandsListed t key → m.Listed → (m.put t (i, true) key value).Listed)
  := by
  obtain ⟨i, hi, hsearch, hlands⟩ := h.toNodes.search_absent (not_exists.mp hb) h.used_lt
  have htakes := takes_absent (not_exists.mp hb) hi
  have hheld : ∀ l, m.slot i = some l → t.match l key := by
    intro l hl
    rw [hlands.1] at hl
    cases hl
  have hnot : (m.node i).isTaken = false := by
    rw [Bool.eq_false_iff, Ne, isTaken_iff, not_not]
    apply hlands.1
  -- the indexes are extended when the node is free, and it was not indexed then
  have hindexes : ((m.count i).indexes = m.indexes ∧ m.node i = .deleted)
      ∨ ((m.count i).indexes = m.indexes ++ [i] ∧ i ∉ m.indexes) := by
    unfold count
    cases hn : m.node i with
    | free => exact .inr ⟨rfl, fun hmem => (h.indexed i hmem).2 hn⟩
    | deleted => exact .inl ⟨rfl, rfl⟩
    | taken k v len =>
      rw [hn] at hnot
      cases hnot
  refine ⟨i, ?_, ?_, ?_, ?_⟩
  · rw [mapGetNextIdx, hsearch, Option.map_some, hnot]
    rfl
  · constructor
    case toNodes =>
      have hnodup : (m.count i).indexes.Nodup := by
        rcases hindexes with ⟨heq, -⟩ | ⟨heq, hnotin⟩
        · rw [heq]
          apply h.nodup
        · rw [heq, List.nodup_append_comm]
          apply List.nodup_cons.mpr ⟨hnotin, h.nodup⟩
      have hin : ∀ j ∈ (m.count i).indexes, j ∈ m.indexes ∨ j = i := by
        intro j hj
        rcases hindexes with ⟨heq, -⟩ | ⟨heq, -⟩
        · rw [heq] at hj
          exact .inl hj
        · rw [heq] at hj
          simpa using hj
      apply (h.toNodes.put ht htakes value hnodup hin).of_eq <;> rfl
    case threashold => apply h.threashold
    case size =>
      show m.size + 1 = OpenAddressing.used m.capacity
        (m.write i (.taken key value (t.getKeyLen key))).slot
      rw [slot_write h.toShape hi, h.size]
      apply (OpenAddressing.used_update_vacant hi hlands.1 key).symm
    case size_le =>
      show m.size + 1 ≤ m.threashold
      omega
    case cache => apply h.cache.write h.toShape ht hi hheld
  · apply binds_write h.toShape ht htakes hheld
  · intro hlisted hl
    show Listed { m.write i _ with indexes := (m.count i).indexes, size := m.size + 1 }
    apply hl.put
    · rcases hindexes with ⟨heq, -⟩ | ⟨heq, -⟩
      · rw [heq]
        apply List.Subset.refl
      · rw [heq]
        apply List.subset_append_left
    · rcases hindexes with ⟨heq, hd⟩ | ⟨heq, -⟩
      · obtain ⟨-, d, hd₀, rfl, hbefore⟩ := hlands
        rw [heq]
        apply hlisted d hd₀ hbefore hd
      · rw [heq]
        apply List.mem_append_right m.indexes (List.mem_singleton_self i)

/-- After the resize with which an insertion may begin, the key is findable and there is
room. -/
theorem Valid.reserve
    (h : m.Valid t) (ht : t.Lawful) {key : K}
    (hok : if m.size ≥ m.threashold then m.Listed else m.Findable t key) :
  ∃ m', mapReserve t m = some m' ∧ m'.Valid t ∧ (∀ key v, m'.Binds t key v ↔ m.Binds t key v)
    ∧ m'.Findable t key ∧ m'.size < m'.threashold
    ∧ (m.Listed →
        (m.size ≥ m.threashold ∨ ((¬ ∃ v, m.Binds t key v) → m.LandsListed t key)) →
        m'.Listed ∧ ((¬ ∃ v, m'.Binds t key v) → m'.LandsListed t key))
  := by
  unfold mapReserve
  split at hok
  · rename_i hfull
    obtain ⟨m', hr, hv, hb, hl, hf, hd, hroom⟩ := h.resize ht hok
    refine ⟨m', ?_, hv, hb, hf key, hroom, fun _ _ => ⟨hl, ?_⟩⟩
    · rw [if_pos hfull, hr]
    · intro _ d _ _ hi
      cases hd _ hi
  · rename_i hfull
    refine ⟨m, ?_, h, fun _ _ => Iff.rfl, hok, by omega, ?_⟩
    · rw [if_neg hfull]
    · intro hl hlands
      exact ⟨hl, hlands.resolve_left hfull⟩

/-! ### Removals -/

/-- The removal of a key that is findable. -/
theorem Valid.remove
    (h : m.Valid t) (ht : t.Lawful) {key : K} (hf : m.Findable t key) :
  ∃ m', mapRemove t m key = some m' ∧ m'.Valid t
    ∧ (∀ key' v, m'.Binds t key' v ↔ ¬ t.match key key' ∧ m.Binds t key' v)
    ∧ (m.Listed → m'.Listed)
  := by
  by_cases hb : ∃ v, m.Binds t key v
  · obtain ⟨v, i, hi, k, len, hk, hm⟩ := hb
    have hslot := slot_of_taken hk
    have hheld : m.slot i ≠ none := by
      rw [hslot]
      apply Option.some_ne_none
    have hslots : (m.write i .deleted).slot = Function.update m.slot i none :=
      slot_write h.toShape hi _
    have hused := OpenAddressing.used_vacate hi hheld
    refine ⟨m.delete i, ?_, ?_, binds_delete h.toNodes ht hi hk hm, ?_⟩
    · rw [mapRemove, mapGetIdx, h.toNodes.search_held ht hf hi hk hm, Option.map_some,
        Option.map_some, hk]
      rfl
    · constructor
      case toNodes =>
        constructor
        case toShape => exact ⟨h.power, h.mask, (h.toShape.write i _).length⟩
        case distinct =>
          show OpenAddressing.Distinct m.capacity t.match (m.write i .deleted).slot
          rw [hslots]
          apply h.distinct.vacate
        case keyLen =>
          intro j l w len' hl
          have hl : (m.write i .deleted).node j = .taken l w len' := hl
          by_cases hji : j = i
          · rw [hji, node_write_self h.toShape hi] at hl
            cases hl
          · rw [node_write_ne hji] at hl
            apply h.keyLen j l w len' hl
        case nodup => apply h.nodup
        case indexed =>
          intro j hj
          obtain ⟨hlt, hne⟩ := h.indexed j hj
          refine ⟨hlt, ?_⟩
          show (m.write i .deleted).node j ≠ .free
          by_cases hji : j = i
          · rw [hji, node_write_self h.toShape hi]
            simp
          · rwa [node_write_ne hji]
      case threashold => apply h.threashold
      case size =>
        have hsize := h.size
        show (if m.size = 0 then ulongMax else m.size - 1)
          = OpenAddressing.used m.capacity (m.write i .deleted).slot
        rw [hslots, if_neg (by omega)]
        omega
      case size_le =>
        have hsize := h.size
        have hle := h.size_le
        show (if m.size = 0 then ulongMax else m.size - 1) ≤ m.threashold
        rw [if_neg (by omega)]
        omega
      case cache => exact .inl ⟨rfl, rfl⟩
    · intro hl j hj htaken
      have htaken : ((m.write i .deleted).node j).isTaken := htaken
      by_cases hji : j = i
      · rw [hji, node_write_self h.toShape hi] at htaken
        cases htaken
      · rw [node_write_ne hji] at htaken
        apply hl j hj htaken
  · obtain ⟨i, hi, hsearch, hlands⟩ := h.toNodes.search_absent (not_exists.mp hb) h.used_lt
    have hnot : (m.node i).isTaken = false := by
      rw [Bool.eq_false_iff, Ne, isTaken_iff, not_not]
      apply hlands.1
    refine ⟨m, ?_, h, ?_, fun hl => hl⟩
    · rw [mapRemove, mapGetIdx, hsearch, Option.map_some, Option.map_some, hnot]
      rfl
    · intro key' v
      constructor
      · intro hv
        refine ⟨?_, hv⟩
        intro hkey
        obtain ⟨j, hj, k, len, hk, hm⟩ := hv
        exact hb ⟨v, j, hj, k, len, hk, ht.equivalence.trans hm (ht.equivalence.symm hkey)⟩
      · intro hv
        apply hv.2

/-! ### Lookups -/

/-- The cache may be of any node that holds its key. -/
theorem Valid.cached
    (h : m.Valid t) {key : K} {i : Nat} (hi : i < m.capacity) {k : K} {v : Word} {len : Int}
    (hk : m.node i = .taken k v len) (hm : t.match k key) :
  (m.cached t key i).Valid t
  := by
  constructor
  case toNodes => apply h.toNodes.of_eq <;> rfl
  case threashold => apply h.threashold
  case size => apply h.size
  case size_le => apply h.size_le
  case cache => exact .inr ⟨hi, k, v, len, key, hk, rfl, hm⟩

/-- A map that differs from another in the cache only. -/
def SameNodes (m' m : Map K) : Prop :=
  m'.capacity = m.capacity ∧ m'.entries = m.entries ∧ m'.indexes = m.indexes

theorem SameNodes.binds {m' : Map K} (h : m'.SameNodes m) (key : K) (v : Word) :
  m'.Binds t key v ↔ m.Binds t key v
  := by
  obtain ⟨hc, he, -⟩ := h
  unfold Binds node
  rw [hc, he]

theorem SameNodes.listed {m' : Map K} (h : m'.SameNodes m) :
  m'.Listed ↔ m.Listed
  := by
  obtain ⟨hc, he, hi⟩ := h
  unfold Listed node
  rw [hc, he, hi]

/-- The lookup of a key that is findable. -/
theorem Valid.has
    (h : m.Valid t) (ht : t.Lawful) {key : K} (hf : m.Findable t key) :
  ∃ m' b, mapHas t m key = some (m', b) ∧ m'.Valid t ∧ m'.SameNodes m
    ∧ (b = true ↔ ∃ v, m.Binds t key v)
  := by
  by_cases hb : ∃ v, m.Binds t key v
  · obtain ⟨v, i, hi, k, len, hk, hm⟩ := id hb
    refine ⟨m.cached t key i, true, ?_, h.cached hi hk hm, ⟨rfl, rfl, rfl⟩, by simpa using hb⟩
    rw [mapHas, mapGetIdx, h.toNodes.search_held ht hf hi hk hm, Option.map_some,
      Option.map_some, hk]
    rfl
  · obtain ⟨i, hi, hsearch, hlands⟩ := h.toNodes.search_absent (not_exists.mp hb) h.used_lt
    have hnot : (m.node i).isTaken = false := by
      rw [Bool.eq_false_iff, Ne, isTaken_iff, not_not]
      apply hlands.1
    refine ⟨m, false, ?_, h, ⟨rfl, rfl, rfl⟩, by simpa using hb⟩
    rw [mapHas, mapGetIdx, hsearch, Option.map_some, Option.map_some, hnot]
    rfl

/-- A value is what a key is bound to, and `NULL` when it is bound to none. -/
def Gives (t : MapType K) (m : Map K) (key : K) (w : Word) : Prop :=
  m.Binds t key w ∨ ((¬ ∃ v, m.Binds t key v) ∧ w = 0)

/-- The value of a key that is findable. -/
theorem Valid.getSearch
    (h : m.Valid t) (ht : t.Lawful) {key : K} (hf : m.Findable t key) :
  ∃ m' w, mapGetSearch t m key = some (m', w) ∧ m'.Valid t ∧ m'.SameNodes m
    ∧ m.Gives t key w
  := by
  by_cases hb : ∃ v, m.Binds t key v
  · obtain ⟨v, i, hi, k, len, hk, hm⟩ := id hb
    refine ⟨m.cached t k i, v, ?_, h.cached hi hk (ht.equivalence.refl k), ⟨rfl, rfl, rfl⟩,
      .inl ⟨i, hi, k, len, hk, hm⟩⟩
    have htaken : (m.node i).isTaken := by
      rw [hk]
      rfl
    rw [mapGetSearch, mapGetIdx, h.toNodes.search_held ht hf hi hk hm, Option.map_some,
      Option.map_some, if_pos htaken, Option.map_some, hk]
  · obtain ⟨i, hi, hsearch, hlands⟩ := h.toNodes.search_absent (not_exists.mp hb) h.used_lt
    have hnot : ¬ (m.node i).isTaken := by
      rw [isTaken_iff, not_not]
      apply hlands.1
    refine ⟨m, 0, ?_, h, ⟨rfl, rfl, rfl⟩, .inr ⟨hb, rfl⟩⟩
    rw [mapGetSearch, mapGetIdx, hsearch, Option.map_some, Option.map_some, if_neg hnot]
    rfl

/-- The value of a key that is cached or findable, unless it is taken for the key of the
cache that is reset. -/
theorem Valid.get
    (h : m.Valid t) (ht : t.Lawful) {key : K}
    (hreset : t.pointer key = BitVec.ofNat 64 ulongMax → m.cachedIdx ≠ ulongMax)
    (hf : m.cachedKey = t.pointer key ∨ m.Findable t key) :
  ∃ m' w, mapGet t m key = some (m', w) ∧ m'.Valid t ∧ m'.SameNodes m ∧ m.Gives t key w
  := by
  unfold mapGet
  by_cases hcached : m.cachedKey = t.pointer key
  · rcases h.cache with ⟨hkey, hidx⟩ | ⟨hlt, k, v, len, key', hk, hp, hm⟩
    · cases hreset (hcached.symm.trans hkey) hidx
    · obtain rfl := ht.pointer_injective (hp.trans hcached)
      refine ⟨m, v, ?_, h, ⟨rfl, rfl, rfl⟩, .inl ⟨m.cachedIdx, hlt, k, len, hk, hm⟩⟩
      rw [if_pos hcached, if_pos hlt, hk]
  · rw [if_neg hcached]
    apply h.getSearch ht (hf.resolve_left hcached)

/-! ### Clearing and creating -/

/-- The loop of `mapClear` changes the nodes only, and frees those in use at the indexes. -/
theorem clear_loop (l : List Nat) (hs : m.Shape) (hl : ∀ i ∈ l, i < m.capacity) :
  ∃ entries, l.foldl mapClearNode m = { m with entries := entries }
    ∧ entries.length = m.entries.length
    ∧ ∀ i, (l.foldl mapClearNode m).node i
        = if i ∈ l ∧ (m.node i).isTaken then .free else m.node i
  := by
  induction l generalizing m with
  | nil =>
    refine ⟨m.entries, rfl, rfl, ?_⟩
    intro i
    rw [if_neg]
    · rfl
    · rintro ⟨hi, -⟩
      cases hi
  | cons idx l ih =>
    rw [List.foldl_cons]
    by_cases htaken : (m.node idx).isTaken
    · have hstep : mapClearNode m idx = m.write idx .free := if_pos htaken
      rw [hstep]
      obtain ⟨entries, heq, hlen, hnode⟩ := ih (hs.write idx .free)
        fun i hi => hl i (List.mem_cons_of_mem idx hi)
      refine ⟨entries, heq, ?_, ?_⟩
      · rw [hlen]
        apply List.length_set
      · intro i
        rw [hnode]
        by_cases hi : i = idx
        · subst hi
          rw [node_write_self hs (hl i List.mem_cons_self)]
          simp [htaken]
        · rw [node_write_ne hi]
          simp [hi]
    · have hstep : mapClearNode m idx = m := if_neg htaken
      rw [hstep]
      obtain ⟨entries, heq, hlen, hnode⟩ := ih hs fun i hi => hl i (List.mem_cons_of_mem idx hi)
      refine ⟨entries, heq, hlen, ?_⟩
      intro i
      rw [hnode]
      by_cases hi : i = idx
      · subst hi
        simp [htaken]
      · simp [hi]

/-- A map without nodes in use. -/
theorem valid_of_empty
    (hs : m.Shape) (hload : m.threashold = mapLoad m.capacity) (hsize : m.size = 0)
    (hindexes : m.indexes = []) (hcache : m.CacheSound t) (hempty : ∀ i, ¬ (m.node i).isTaken) :
  m.Valid t ∧ (∀ key v, ¬ m.Binds t key v) ∧ m.Listed
  := by
  have hslot : ∀ i, m.slot i = none := by
    intro i
    by_contra hne
    apply hempty i (isTaken_iff.mpr hne)
  refine ⟨?_, ?_, ?_⟩
  · constructor
    case toNodes =>
      constructor
      case toShape => apply hs
      case distinct =>
        intro i _ j _ k l hk
        rw [hslot] at hk
        cases hk
      case keyLen =>
        intro i k v len hk
        cases hempty i (by rw [hk]; rfl)
      case nodup =>
        rw [hindexes]
        apply List.nodup_nil
      case indexed =>
        rw [hindexes]
        intro i hi
        cases hi
    case threashold => apply hload
    case size => simp [hsize, OpenAddressing.used, hslot]
    case size_le =>
      rw [hsize]
      apply Nat.zero_le
    case cache => apply hcache
  · rintro key v ⟨i, -, k, len, hk, -⟩
    cases hempty i (by rw [hk]; rfl)
  · intro i _ htaken
    cases hempty i htaken

/-- Clearing a map whose nodes in use are all indexed. -/
theorem Valid.clear
    (h : m.Valid t) (hl : m.Listed) :
  (mapClear m).Valid t ∧ (∀ key v, ¬ (mapClear m).Binds t key v) ∧ (mapClear m).Listed
  := by
  obtain ⟨entries, heq, hlen, hnode⟩ := clear_loop m.indexes h.toShape
    fun i hi => (h.indexed i hi).1
  rw [heq] at hnode
  have hclear : mapClear m
      = { m with entries := entries, size := 0, indexes := [] }.uncached := by
    rw [mapClear, heq]
  have hshape : { m with entries := entries }.Shape := ⟨h.power, h.mask, hlen.trans h.length⟩
  rw [hclear]
  apply valid_of_empty
  · exact ⟨h.power, h.mask, hlen.trans h.length⟩
  · apply h.threashold
  · rfl
  · rfl
  · exact .inl ⟨rfl, rfl⟩
  · intro i htaken
    have htaken : (({ m with entries := entries } : Map K).node i).isTaken := htaken
    rw [hnode] at htaken
    split at htaken
    · cases htaken
    · rename_i hno
      apply hno
      refine ⟨hl i ?_ htaken, htaken⟩
      by_contra hge
      have hfree : m.node i = .free := by
        have hlen : m.entries.length ≤ i := by
          rw [h.length]
          omega
        rw [node, List.getD_eq_getElem?_getD, List.getElem?_eq_none hlen]
        rfl
      rw [hfree] at htaken
      cases htaken

/-- A map that is created. -/
theorem valid_mapNew {capacity : Word} (hlo : 2 ≤ capacity.toNat) (hhi : capacity.toNat ≤ 2 ^ 63) :
  (mapNew K capacity).Valid t ∧ (∀ key v, ¬ (mapNew K capacity).Binds t key v)
    ∧ (mapNew K capacity).Listed
  := by
  apply valid_of_empty
  · exact ⟨roundUpToNextPowerOf2_pow hlo hhi, rfl, List.length_replicate⟩
  · rfl
  · rfl
  · rfl
  · exact .inl ⟨rfl, rfl⟩
  · intro i htaken
    have hfree : (mapNew K capacity).node i = .free := by
      simp only [node, mapNew, List.getD_eq_getElem?_getD, List.getElem?_replicate]
      split <;> rfl
    rw [hfree] at htaken
    cases htaken

end Map

end Map

end Polyc
