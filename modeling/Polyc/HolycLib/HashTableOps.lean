import Polyc.HolycLib.HashTableCorrect

/-!
# The operations of the hash tables

Each operation as one on the finite map that the table represents, with what it needs: that the
search ends, and that it does so before it comes to a tombstone at which it would stop.
-/

namespace Polyc

open OpenAddressing Tombstones

section Table

variable {P N K : Type} [DecidableEq K] {t : HtType P N} {L : t.Law K} {m : HtMap N}

namespace HtMap

variable {full : List Nat} {M : K → Option Word} {k : K} {v : Word} {n : N}

/-! ### New tables -/

/-- The members of a new table whose capacity is a power of two. -/
theorem roundUp_two_pow :
  ∀ e < 64, htRoundUpToNextPowerOf2 (BitVec.ofNat 64 (2 ^ e)) = BitVec.ofNat 64 (2 ^ e)
    ∧ (BitVec.ofNat 64 (2 ^ e)).toNat = 2 ^ e ∧ (BitVec.ofNat 64 (2 ^ e) - 1).toNat = 2 ^ e - 1
  := by decide

/-- A new table binds nothing. -/
theorem valid_htNew (L : t.Law K) {e : Nat} (he : e ≤ 60) :
  (htNew N (BitVec.ofNat 64 (2 ^ e))).Valid L [] (fun _ => none)
  := by
  obtain ⟨hround, hcap, hmask⟩ := roundUp_two_pow e (by omega)
  have hcapacity : (htNew N (BitVec.ofNat 64 (2 ^ e))).capacity = 2 ^ e := by
    rw [htNew, hround, hcap]
  have hnode : ∀ i, (htNew N (BitVec.ofNat 64 (2 ^ e))).node i = none := by
    intro i
    rw [node, htNew, htEntries, List.getD_eq_getElem?_getD, List.getElem?_replicate]
    split <;> rfl
  have hcells : ∀ i, (htNew N (BitVec.ofNat 64 (2 ^ e))).cells L i = none :=
    fun i => cells_eq_none.mpr (hnode i)
  have htag : ∀ i, tag ((htNew N (BitVec.ofNat 64 (2 ^ e))).cells L) i = none :=
    fun i => tag_eq_none.mpr (hcells i)
  constructor
  case toShape =>
    constructor
    case power => exact ⟨e, he, hcapacity⟩
    case mask =>
      rw [hcapacity]
      apply hmask
    case length =>
      have hle : 2 ^ e ≤ 2 ^ 60 := Nat.pow_le_pow_right (by decide) he
      rw [hcapacity, htNew, hcap, htEntries, List.length_replicate]
      unfold u64
      omega
  case table =>
    constructor
    case distinct =>
      intro i _ j _ a b ha
      rw [htag] at ha
      cases ha
    case findable =>
      intro a d _ hany
      rw [htag] at hany
      cases hany
    case binds =>
      intro k v
      constructor
      · intro hnone
        cases hnone
      · rintro ⟨i, -, hi⟩
        rw [hcells] at hi
        cases hi
  case nodup => apply List.nodup_nil
  case listed =>
    intro i
    rw [hnode]
    simp
  case marked => exact .nil
  case size =>
    have hbound : bound (fun _ : K => (none : Option Word)) = ∅ := by simp [bound]
    rw [hbound, Set.ncard_empty]
    rfl

/-! ### Insertion -/

/-- What `Set` needs: where it resizes, no index is marked and the new size stays on 64 bits;
where it does not, the search ends before a tombstone. -/
def MeetsSet (L : t.Law K) (m : HtMap N) (k : K) : Prop :=
  if m.size ≥ m.threashold then m.capacity ≤ 2 ^ 59 ∧ htDeleted ∉ m.indexes
  else Ends m.capacity (m.cells L) k ∧ Clear m.capacity L.home (m.cells L) k

instance (L : t.Law K) (m : HtMap N) (k : K) : Decidable (m.MeetsSet L k) :=
  inferInstanceAs (Decidable (if m.size ≥ m.threashold then
    m.capacity ≤ 2 ^ 59 ∧ htDeleted ∉ m.indexes
    else Ends m.capacity (m.cells L) k ∧ Clear m.capacity L.home (m.cells L) k))

/-- Indexes of which none is marked are all. -/
theorem Valid.indexes_eq (h : m.Valid L full M) (hno : htDeleted ∉ m.indexes) :
  m.indexes = full
  := by
  rw [← List.forall₂_eq_eq_eq]
  apply List.forall₂_iff_get.mpr
  obtain ⟨hlen, hget⟩ := List.forall₂_iff_get.mp h.marked
  refine ⟨hlen, ?_⟩
  intro i hi hi'
  apply (hget i hi hi').resolve_right
  intro heq
  apply hno
  rw [← heq]
  apply List.get_mem

/-- The table in which `Set` searches. -/
theorem Valid.reserve (h : m.Valid L full M) (hmeets : m.MeetsSet L k) :
  ∃ m₁ full₁, htReserve t m = some m₁ ∧ m₁.Valid L full₁ M
    ∧ Ends m₁.capacity (m₁.cells L) k ∧ Clear m₁.capacity L.home (m₁.cells L) k
    ∧ (m.indexes = full → m₁.indexes = full₁)
  := by
  unfold htReserve
  unfold MeetsSet at hmeets
  split
  · rename_i hsize
    rw [if_pos hsize] at hmeets
    obtain ⟨m', hresize, hv, hfresh, hroom⟩ := h.resize hmeets.1 (h.indexes_eq hmeets.2)
    exact ⟨m', m'.indexes, hresize, hv, .inr hroom, clear_of_fresh hfresh k, fun _ => rfl⟩
  · rename_i hsize
    rw [if_neg hsize] at hmeets
    exact ⟨m, full, rfl, h, hmeets.1, hmeets.2, id⟩

/-- A node with the key is written. -/
theorem Valid.put_held
    (h : m.Valid L full M) {i : Nat} (hi : i < m.capacity) (hholds : Holds (m.cells L) k i)
    (hn : L.cell n = some (k, v)) :
  (m.write i n).Valid L full (Function.update M k (some v))
  := by
  have hbound : M k ≠ none := h.table.bound_iff.mp ⟨i, hi, hholds⟩
  have hnode : m.node i ≠ none := by
    obtain ⟨w, hw⟩ := holds_iff.mp hholds
    rw [Ne, ← cells_eq_none (L := L), hw]
    simp
  constructor
  case toShape => apply h.toShape.write
  case table =>
    rw [cells_write h.toShape hi, hn]
    apply h.table.overwrite hi hholds
  case nodup => apply h.nodup
  case listed =>
    intro j
    by_cases hj : j = i
    · rw [hj, node_write_self h.toShape hi, h.listed]
      simp [hi, hnode, write]
    · rw [node_write_ne hj, h.listed]
      rfl
  case marked => apply h.marked
  case size =>
    rw [ncard_overwrite hbound]
    apply h.size

/-- A new node is written into a vacant cell. -/
theorem Valid.put_vacant
    (h : m.Valid L full M) {i : Nat} (hi : i < m.capacity)
    (hno : ¬ Bound m.capacity (m.cells L) k)
    (hlands : Lands m.capacity (tagHome L.home) (tag (m.cells L)) (.inl k) i)
    (hn : L.cell n = some (k, v)) :
  ({ m.write i n with indexes := m.indexes ++ [i], size := u64 (m.size + 1) } : HtMap N).Valid L
    (full ++ [i]) (Function.update M k (some v))
  := by
  have hunbound : M k = none := by
    by_contra hne
    exact hno (h.table.bound_iff.mpr hne)
  have hnode : m.node i = none := cells_eq_none.mp (tag_eq_none.mp hlands.1)
  have hfresh : i ∉ full := by
    intro hmem
    exact ((h.listed i).mp hmem).2 hnode
  constructor
  case toShape =>
    have hwrite := h.toShape.write i n
    exact ⟨hwrite.power, hwrite.mask, hwrite.length⟩
  case table =>
    show Tombstones.Table m.capacity L.home ((m.write i n).cells L) _
    rw [cells_write h.toShape hi, hn]
    apply h.table.insert hi hno hlands
  case nodup =>
    rw [List.nodup_append_comm]
    apply List.nodup_cons.mpr ⟨hfresh, h.nodup⟩
  case listed =>
    intro j
    show j ∈ full ++ [i] ↔ j < m.capacity ∧ (m.write i n).node j ≠ none
    rw [List.mem_append, List.mem_singleton, h.listed]
    by_cases hj : j = i
    · rw [hj, node_write_self h.toShape hi]
      simp [hi]
    · rw [node_write_ne hj]
      simp [hj]
  case marked =>
    apply List.rel_append h.marked
    rw [List.forall₂_same]
    intro j _
    left
    rfl
  case size =>
    have hcard : (bound M).ncard ≤ m.capacity := h.table.ncard_le
    have hle := h.toShape.le
    rw [h.table.ncard_insert hunbound]
    show u64 (m.size + 1) = _
    rw [h.size]
    unfold u64
    omega

/-- `Set` binds the key. -/
theorem Valid.set
    (h : m.Valid L full M) (hmeets : m.MeetsSet L k) (hn : L.cell n = some (k, v)) :
  ∃ m' full', htSet t m (L.probe k) n = some m'
    ∧ m'.Valid L full' (Function.update M k (some v)) ∧ (m.indexes = full → m'.indexes = full')
  := by
  obtain ⟨m₁, full₁, hreserve, h₁, hends, hclear, hfull⟩ := h.reserve hmeets
  obtain ⟨i, hi, ⟨hnext, hholds⟩ | ⟨hnext, hno, hlands⟩⟩ := h₁.getNextIdx hends hclear
  · refine ⟨m₁.write i n, full₁, ?_, h₁.put_held hi hholds hn, hfull⟩
    rw [htSet, hreserve, Option.bind_some, hnext]
    rfl
  · refine ⟨_, full₁ ++ [i], ?_, h₁.put_vacant hi hno hlands hn, ?_⟩
    · rw [htSet, hreserve, Option.bind_some, hnext]
      rfl
    · intro heq
      rw [← hfull heq]

/-! ### Lookups -/

/-- What a search that passes deleted nodes needs: that it ends, and for a key for which it
stops at them, that it does so before. -/
def MeetsGet (L : t.Law K) (m : HtMap N) (k : K) : Prop :=
  Ends m.capacity (m.cells L) k
    ∧ (L.weak k = true → Clear m.capacity L.home (m.cells L) k)

instance (L : t.Law K) (m : HtMap N) (k : K) : Decidable (m.MeetsGet L k) :=
  inferInstanceAs (Decidable (_ ∧ (_ → _)))

/-- `Has` says whether the key is bound. -/
theorem Valid.has (h : m.Valid L full M) (hmeets : m.MeetsGet L k) :
  htHas t m (L.probe k) = some (M k).isSome
  := by
  rcases h.getIdx hmeets.1 hmeets.2 with ⟨i, hi, hget, hholds⟩ | ⟨hget, hno⟩
  · have hsome : (M k).isSome :=
      Option.isSome_iff_ne_none.mpr (h.table.bound_iff.mp ⟨i, hi, hholds⟩)
    rw [htHas, hget, hsome, Option.map_some, decide_eq_true (h.toShape.ne_htDeleted hi)]
  · have hnone : M k = none := by
      by_contra hne
      exact hno (h.table.bound_iff.mpr hne)
    rw [htHas, hget, hnone]
    rfl

/-- `Get` gives the value of the key. -/
theorem Valid.get (h : m.Valid L full M) (hmeets : m.MeetsGet L k) :
  htGet t m (L.probe k) = some ((M k).getD 0)
  := by
  rcases h.getIdx hmeets.1 hmeets.2 with ⟨i, hi, hget, hholds⟩ | ⟨hget, hno⟩
  · obtain ⟨w, hw⟩ := holds_iff.mp hholds
    have hM : M k = some w := (h.table.binds k w).mpr ⟨i, hi, hw⟩
    obtain ⟨n, hn, hcell⟩ := Option.map_eq_some_iff.mp hw
    obtain ⟨k', -, heq⟩ := Option.map_eq_some_iff.mp hcell
    rw [htGet, hget, Option.bind_some, if_pos (h.toShape.ne_htDeleted hi), hn, hM]
    cases heq
    rfl
  · have hnone : M k = none := by
      by_contra hne
      exact hno (h.table.bound_iff.mpr hne)
    rw [htGet, hget, hnone]
    rfl

/-! ### Deletion -/

/-- A node with the key is deleted, and indexes are marked. -/
theorem Valid.delete
    (h : m.Valid L full M) {i : Nat} (hi : i < m.capacity) (hholds : Holds (m.cells L) k i)
    (hn : L.key n = none) {indexes : List Nat}
    (hmarked : List.Forall₂ (fun a b => a = b ∨ a = htDeleted) indexes full) :
  ({ m.delete i n with indexes := indexes } : HtMap N).Valid L full (Function.update M k none)
  := by
  have hbound : M k ≠ none := h.table.bound_iff.mp ⟨i, hi, hholds⟩
  have hnode : m.node i ≠ none := by
    obtain ⟨w, hw⟩ := holds_iff.mp hholds
    rw [Ne, ← cells_eq_none (L := L), hw]
    simp
  have hcell : L.cell n = none := by
    rw [HtType.Law.cell, hn]
    rfl
  constructor
  case toShape =>
    have hwrite := h.toShape.write i n
    exact ⟨hwrite.power, hwrite.mask, hwrite.length⟩
  case table =>
    show Tombstones.Table m.capacity L.home ((m.write i n).cells L) _
    rw [cells_write h.toShape hi, hcell]
    apply h.table.delete hi hholds
  case nodup => apply h.nodup
  case listed =>
    intro j
    show j ∈ full ↔ j < m.capacity ∧ (m.write i n).node j ≠ none
    rw [h.listed]
    by_cases hj : j = i
    · rw [hj, node_write_self h.toShape hi]
      simp [hi, hnode]
    · rw [node_write_ne hj]
  case marked => apply hmarked
  case size =>
    have hone := h.table.ncard_delete hbound
    show (if m.size = 0 then 2 ^ 64 - 1 else m.size - 1) = _
    rw [h.size, if_neg (by omega)]
    omega

/-! ### Iteration -/

/-- The loop of an iterator yields the first index that is not marked. -/
theorem htIterScan_eq (idx : Nat) (indexes : List Nat) :
  htIterScan idx indexes = none ∧ indexes.filter (· ≠ htDeleted) = []
    ∨ ∃ p index rest, htIterScan idx indexes = some (idx + p + 1, index)
      ∧ indexes.filter (· ≠ htDeleted) = index :: rest.filter (· ≠ htDeleted)
      ∧ indexes.drop (p + 1) = rest ∧ p < indexes.length
  := by
  induction indexes generalizing idx with
  | nil => exact .inl ⟨rfl, rfl⟩
  | cons index rest ih =>
    rw [htIterScan]
    split
    · rename_i hne
      right
      refine ⟨0, index, rest, rfl, ?_, rfl, Nat.succ_pos _⟩
      rw [List.filter_cons, if_pos (decide_eq_true hne)]
    · rename_i heq
      have hskip : (index :: rest).filter (· ≠ htDeleted) = rest.filter (· ≠ htDeleted) := by
        rw [List.filter_cons, if_neg]
        simpa using heq
      rw [hskip]
      rcases ih (idx + 1) with ⟨hnone, hnil⟩ | ⟨p, index', rest', hsome, hcons, hdrop, hlt⟩
      · exact .inl ⟨hnone, hnil⟩
      · right
        refine ⟨p + 1, index', rest', ?_, hcons, hdrop, Nat.succ_lt_succ hlt⟩
        rw [hsome]
        congr 2
        omega

/-- A full iteration yields the nodes of the indexes that are not marked. -/
theorem htNodes_eq (m : HtMap N) {fuel idx : Nat} (hfuel : m.indexes.length - idx < fuel) :
  htNodes m fuel idx = ((m.indexes.drop idx).filter (· ≠ htDeleted)).mapM m.node
  := by
  induction fuel generalizing idx with
  | zero => cases hfuel
  | succ fuel ih =>
    rw [htNodes, htIter]
    rcases htIterScan_eq idx (m.indexes.drop idx) with
      ⟨hnone, hnil⟩ | ⟨p, index, rest, hsome, hcons, hdrop, hlt⟩
    · rw [hnone, hnil]
      rfl
    · rw [List.length_drop] at hlt
      rw [List.drop_drop] at hdrop
      rw [hsome, hcons, List.mapM_cons]
      dsimp only
      have hrest : m.indexes.drop (idx + p + 1) = rest := hdrop
      rw [ih (by omega), hrest]
      cases m.node index with
      | none => rfl
      | some node => cases (rest.filter (· ≠ htDeleted)).mapM m.node <;> rfl

/-- What an iteration needs: the indexes that are not marked are those of the nodes that are not
deleted. -/
def MeetsIterate (L : t.Law K) (m : HtMap N) : Prop :=
  (∀ i ∈ m.indexes, i ≠ htDeleted → ((m.cells L i).join).isSome)
    ∧ ∀ i < m.capacity, ((m.cells L i).join).isSome → i ∈ m.indexes

instance (L : t.Law K) (m : HtMap N) : Decidable (m.MeetsIterate L) :=
  inferInstanceAs (Decidable ((∀ i ∈ m.indexes, i ≠ htDeleted → _) ∧ ∀ i < m.capacity, _ → _))

/-- The nodes at some indexes, with their keys and values. -/
theorem mapM_node
    {indexes : List Nat} (h : ∀ i ∈ indexes, ((m.cells L i).join).isSome) :
  ∃ nodes bindings, indexes.mapM m.node = some nodes
    ∧ List.Forall₂ (fun n e => L.cell n = some e) nodes bindings
    ∧ List.Forall₂ (fun i e => m.cells L i = some (some e)) indexes bindings
  := by
  induction indexes with
  | nil => exact ⟨[], [], rfl, .nil, .nil⟩
  | cons i rest ih =>
    obtain ⟨nodes, bindings, hmap, hcells, hat⟩ := ih fun j hj => h j (List.mem_cons_of_mem i hj)
    obtain ⟨e, he⟩ := Option.isSome_iff_exists.mp (h i List.mem_cons_self)
    rw [Option.join_eq_some_iff] at he
    obtain ⟨n, hn, hcell⟩ := Option.map_eq_some_iff.mp he
    refine ⟨n :: nodes, e :: bindings, ?_, .cons hcell hcells, .cons he hat⟩
    rw [List.mapM_cons, hn, hmap]
    rfl

/-- What is in one list is related to something in the other. -/
theorem exists_of_mem
    {α β : Type} {R : α → β → Prop} {as : List α} {bs : List β} (h : List.Forall₂ R as bs) {b : β}
    (hb : b ∈ bs) :
  ∃ a ∈ as, R a b
  := by
  induction h with
  | nil => cases hb
  | @cons a b' as bs hab _ ih =>
    rcases List.mem_cons.mp hb with rfl | hb
    · exact ⟨a, List.mem_cons_self, hab⟩
    · obtain ⟨a', ha', hab'⟩ := ih hb
      exact ⟨a', List.mem_cons_of_mem a ha', hab'⟩

/-- What is related to different things is different. -/
theorem nodup_of_forall₂
    {α β : Type} {R : α → β → Prop} {as : List α} {bs : List β} (h : List.Forall₂ R as bs)
    (hnodup : as.Nodup) (hR : ∀ a ∈ as, ∀ a' ∈ as, ∀ b, R a b → R a' b → a = a') :
  bs.Nodup
  := by
  induction h with
  | nil => apply List.nodup_nil
  | @cons a b as bs hab hrest ih =>
    obtain ⟨hnew, hnodup⟩ := List.nodup_cons.mp hnodup
    apply List.nodup_cons.mpr
    constructor
    · intro hb
      obtain ⟨a', ha', hab'⟩ := exists_of_mem hrest hb
      rw [hR a List.mem_cons_self a' (List.mem_cons_of_mem a ha') b hab hab'] at hnew
      contradiction
    · apply ih hnodup
      intro x hx y hy
      apply hR x (List.mem_cons_of_mem a hx) y (List.mem_cons_of_mem a hy)

/-- The unmarked indexes are among all. -/
theorem filter_sublist
    {indexes full : List Nat}
    (h : List.Forall₂ (fun a b => a = b ∨ a = htDeleted) indexes full) :
  (indexes.filter (· ≠ htDeleted)).Sublist full
  := by
  induction h with
  | nil => apply List.Sublist.refl
  | @cons a b as bs hab _ ih =>
    rw [List.filter_cons]
    split
    · rename_i hne
      rw [hab.resolve_right (of_decide_eq_true hne)]
      apply ih.cons_cons
    · apply ih.cons

/-- Marking an index keeps the others. -/
theorem marked_set
    {indexes full : List Nat} (h : List.Forall₂ (fun a b => a = b ∨ a = htDeleted) indexes full)
    (i : Nat) :
  List.Forall₂ (fun a b => a = b ∨ a = htDeleted) (indexes.set i htDeleted) full
  := by
  induction h generalizing i with
  | nil => exact .nil
  | cons hab hrest ih =>
    cases i with
    | zero => exact .cons (.inr rfl) hrest
    | succ i => exact .cons hab (ih i)

/-- A full iteration yields every key that is bound once, with its value. -/
theorem Valid.iterate (h : m.Valid L full M) (hmeets : m.MeetsIterate L) :
  ∃ nodes bindings, htIterate m = some nodes
    ∧ List.Forall₂ (fun n e => L.cell n = some e) nodes bindings
    ∧ (bindings.map Prod.fst).Nodup ∧ ∀ k v, (k, v) ∈ bindings ↔ M k = some v
  := by
  have hlive : ∀ i ∈ m.indexes.filter (· ≠ htDeleted), ((m.cells L i).join).isSome := by
    intro i hi
    rw [List.mem_filter] at hi
    apply hmeets.1 i hi.1 (of_decide_eq_true hi.2)
  have hsub := filter_sublist h.marked
  have hlt : ∀ i ∈ m.indexes.filter (· ≠ htDeleted), i < m.capacity :=
    fun i hi => ((h.listed i).mp (hsub.subset hi)).1
  obtain ⟨nodes, bindings, hmap, hcells, hat⟩ := mapM_node hlive
  refine ⟨nodes, bindings, ?_, hcells, ?_, ?_⟩
  · rw [htIterate, htNodes_eq m (by omega), List.drop_zero, hmap]
  · have hkeys : List.Forall₂ (fun i k => Holds (m.cells L) k i)
        (m.indexes.filter (· ≠ htDeleted)) (bindings.map Prod.fst) := by
      rw [List.forall₂_map_right_iff]
      apply hat.imp
      intro i e he
      rw [Holds, he]
      rfl
    apply nodup_of_forall₂ hkeys (hsub.nodup h.nodup)
    intro i hi j hj k hki hkj
    apply h.table.distinct i (hlt i hi) j (hlt j hj) _ _ (tag_eq_inl.mpr hki) (tag_eq_inl.mpr hkj)
    simp [same]
  · intro k v
    rw [h.table.binds]
    constructor
    · intro hmem
      obtain ⟨i, hi, hcell⟩ := exists_of_mem hat hmem
      exact ⟨i, hlt i hi, hcell⟩
    · rintro ⟨i, hi, hcell⟩
      have hmem : i ∈ m.indexes.filter (· ≠ htDeleted) := by
        rw [List.mem_filter]
        refine ⟨hmeets.2 i hi ?_, decide_eq_true (h.toShape.ne_htDeleted hi)⟩
        rw [hcell]
        rfl
      have hflip : List.Forall₂ (fun e i => m.cells L i = some (some e)) bindings
          (m.indexes.filter (· ≠ htDeleted)) := hat.flip
      obtain ⟨e, he, hcell'⟩ := exists_of_mem hflip hmem
      rw [hcell] at hcell'
      cases hcell'
      apply he

end HtMap

end Table

/-! ### Operations and answers -/

/-- The operations on a hash table. -/
inductive HtOp (K : Type) where
  | set (key : K) (value : Word)
  | delete (key : K)
  | has (key : K)
  | get (key : K)
  | iterate
  deriving DecidableEq

/-- What an operation returns; of a full iteration, the keys and the values of the nodes. -/
inductive HtResult (Q : Type) where
  | bool (b : Bool)
  | pointer (v : Word)
  | nodes (l : List (Q × Word))
  deriving DecidableEq

/-- An operation on the finite map. -/
def HtOp.apply {K : Type} [DecidableEq K] (M : K → Option Word) : HtOp K → K → Option Word
  | .set key value => Function.update M key (some value)
  | .delete key => Function.update M key none
  | _ => M

/-- The answers that are right for the finite map: an iteration gives every key that is bound
once, with its value, in any order. -/
def HtOp.Right {K Q : Type} (raw : K → Q) (deleted : Bool → Bool) (M : K → Option Word) :
    HtOp K → HtResult Q → Prop
  | .set _ _, r => r = .bool true
  | .delete key, r => r = .bool (deleted (M key).isSome)
  | .has key, r => r = .bool (M key).isSome
  | .get key, r => r = .pointer ((M key).getD 0)
  | .iterate, r => ∃ l : List (K × Word), r = .nodes (l.map fun e => (raw e.1, e.2))
      ∧ (l.map Prod.fst).Nodup ∧ ∀ key value, (key, value) ∈ l ↔ M key = some value

/-- The size of a table is the number of keys. -/
def HtMap.Counts {N K : Type} (m : HtMap N) (M : K → Option Word) : Prop :=
  m.size = (bound M).ncard

/-- Nodes that hold some keys and values. -/
theorem map_nodes
    {P N K Q : Type} [DecidableEq K] {t : HtType P N} {L : t.Law K} {raw : K → Q} {read : N → Q × Word}
    (hread : ∀ n e, L.cell n = some e → read n = (raw e.1, e.2)) {nodes : List N}
    {bindings : List (K × Word)} (h : List.Forall₂ (fun n e => L.cell n = some e) nodes bindings) :
  nodes.map read = bindings.map fun e => (raw e.1, e.2)
  := by
  induction h with
  | nil => rfl
  | cons hcell _ ih => rw [List.map_cons, List.map_cons, hread _ _ hcell, ih]

end Polyc
