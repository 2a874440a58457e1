import Polyc.Lib.OpenAddressing

/-!
# Open addressing with tombstones

A table of `n` cells, each vacant, with a key and its value, or a tombstone in the place of a
key that was deleted.  A search passes tombstones or stops at them; as long as it comes to its
key or to a vacancy before it comes to a tombstone, it makes no difference.
-/

namespace Tombstones

open OpenAddressing

variable {K V : Type}

/-! ### Cells -/

/-- A vacant cell, a tombstone, or a key and its value. -/
abbrev Cells (K V : Type) := Nat → Option (Option (K × V))

/-- A cell holds a key. -/
def Holds (cells : Cells K V) (k : K) (i : Nat) : Prop :=
  (cells i).join.map Prod.fst = some k

/-- A key is in the table. -/
def Bound (n : Nat) (cells : Cells K V) (k : K) : Prop := ∃ i < n, Holds cells k i

/-- A search for a key ends: the key is in the table, or there is a vacancy. -/
def Ends (n : Nat) (cells : Cells K V) (k : K) : Prop :=
  Bound n cells k ∨ ∃ i < n, (cells i).isNone

/-- Before every tombstone on the path of a key come the key or a vacancy. -/
def Clear (n : Nat) (home : K → Nat) (cells : Cells K V) (k : K) : Prop :=
  ∀ d < n, (cells ((home k + d) % n)).any Option.isNone →
    ∃ e < d, (cells ((home k + e) % n)).isNone ∨ Holds cells k ((home k + e) % n)

theorem holds_iff {cells : Cells K V} {k : K} {i : Nat} :
  Holds cells k i ↔ ∃ v, cells i = some (some (k, v))
  := by
  unfold Holds
  rcases cells i with _ | _ | ⟨k', v⟩
  · simp
  · simp
  · simp

/-- Without tombstones none is on a path. -/
theorem clear_of_fresh
    {n : Nat} {home : K → Nat} {cells : Cells K V} (h : ∀ i, cells i ≠ some none) (k : K) :
  Clear n home cells k
  := by
  intro d _ hany
  rcases hcell : cells ((home k + d) % n) with _ | _ | e
  · rw [hcell] at hany
    cases hany
  · cases h _ hcell
  · rw [hcell] at hany
    cases hany

/-! ### Tombstones as keys

A tombstone counts as a key that only its own cell can hold, and whose home is that cell. -/

/-- The keys with the tombstones. -/
def tag (cells : Cells K V) (i : Nat) : Option (K ⊕ Nat) :=
  (cells i).map fun o => o.elim (.inr i) fun e => .inl e.1

/-- The home of a key or a tombstone. -/
def tagHome (home : K → Nat) : K ⊕ Nat → Nat := Sum.elim home id

theorem tag_eq_inl {cells : Cells K V} {k : K} {i : Nat} :
  tag cells i = some (.inl k) ↔ Holds cells k i
  := by
  rw [holds_iff, tag]
  rcases cells i with _ | _ | ⟨k', v⟩
  · simp
  · simp
  · simp

theorem tag_eq_none {cells : Cells K V} {i : Nat} :
  tag cells i = none ↔ cells i = none
  := Option.map_eq_none_iff

/-- The keys with the tombstones after a cell is written. -/
theorem tag_update (cells : Cells K V) (i : Nat) (o : Option (K × V)) :
  tag (Function.update cells i (some o))
    = Function.update (tag cells) i (some (o.elim (.inr i) fun e => .inl e.1))
  := by
  funext j
  by_cases hj : j = i
  · rw [hj, tag, Function.update_self, Function.update_self]
    rfl
  · rw [tag, Function.update_of_ne hj, Function.update_of_ne hj]
    rfl

/-- The keys and values without the tombstones. -/
def live (cells : Cells K V) (i : Nat) : Option (K × V) := (cells i).join

theorem live_eq_some {cells : Cells K V} {i : Nat} {e : K × V} :
  live cells i = some e ↔ cells i = some (some e)
  := Option.join_eq_some_iff

/-- A key is one of those with the tombstones. -/
theorem tag_of_keys
    {cells : Cells K V} {i : Nat} {a : K ⊕ Nat}
    (h : keys (fun e => .inl e.1) (live cells) i = some a) :
  tag cells i = some a
  := by
  obtain ⟨e, he, rfl⟩ := Option.map_eq_some_iff.mp h
  rw [tag, live_eq_some.mp he]
  rfl

/-- Without tombstones the keys are all. -/
theorem tag_eq_keys {cells : Cells K V} (h : ∀ i, cells i ≠ some none) :
  tag cells = keys (fun e => .inl e.1) (live cells)
  := by
  funext i
  rw [tag, keys, live]
  rcases hcell : cells i with _ | _ | e
  · rfl
  · cases h i hcell
  · rfl

variable [DecidableEq K]

instance (cells : Cells K V) (k : K) (i : Nat) : Decidable (Holds cells k i) :=
  inferInstanceAs (Decidable (_ = _))

instance (n : Nat) (cells : Cells K V) (k : K) : Decidable (Bound n cells k) :=
  inferInstanceAs (Decidable (∃ i < n, Holds cells k i))

instance (n : Nat) (cells : Cells K V) (k : K) : Decidable (Ends n cells k) :=
  inferInstanceAs (Decidable (_ ∨ ∃ i < n, (cells i).isNone))

instance (n : Nat) (home : K → Nat) (cells : Cells K V) (k : K) :
    Decidable (Clear n home cells k) :=
  inferInstanceAs (Decidable (∀ d < n, (cells ((home k + d) % n)).any Option.isNone →
    ∃ e < d, (cells ((home k + e) % n)).isNone ∨ Holds cells k ((home k + e) % n)))

/-- A search for a key stops at a vacancy, at the key, and at tombstones if it is to. -/
def stops (marks : Bool) (cells : Cells K V) (k : K) (i : Nat) : Bool :=
  (cells i).all fun o => o.elim marks fun e => e.1 = k

/-- The same key, or the same tombstone. -/
def same (a b : K ⊕ Nat) : Bool := a = b

theorem hashes (home : K → Nat) : Hashes (tagHome home) same where
  equivalence := by
    have heq : (fun a b : K ⊕ Nat => same a b = true) = Eq := by
      funext a b
      simp [same]
    rw [heq]
    apply eq_equivalence
  home_eq h := congrArg _ (of_decide_eq_true h)

/-! ### Tables -/

/-- A table that represents a finite map: every key is in one cell, a search that passes
tombstones comes to it, and the values are those of the map. -/
structure Table (n : Nat) (home : K → Nat) (cells : Cells K V) (M : K → Option V) : Prop where
  distinct : Distinct n same (tag cells)
  findable : ∀ a, Findable n (tagHome home) same (tag cells) a
  binds : ∀ k v, M k = some v ↔ ∃ i < n, cells i = some (some (k, v))

variable {n : Nat} {home : K → Nat} {cells : Cells K V} {M : K → Option V} {k : K}

/-- The keys of the table are those of the map. -/
theorem Table.bound_iff (h : Table n home cells M) :
  Bound n cells k ↔ M k ≠ none
  := by
  rw [Option.ne_none_iff_exists']
  constructor
  · rintro ⟨i, hi, hk⟩
    obtain ⟨v, hv⟩ := holds_iff.mp hk
    exact ⟨v, (h.binds k v).mpr ⟨i, hi, hv⟩⟩
  · rintro ⟨v, hv⟩
    obtain ⟨i, hi, hcell⟩ := (h.binds k v).mp hv
    exact ⟨i, hi, holds_iff.mpr ⟨v, hcell⟩⟩

/-- A search that comes to its key or a vacancy before any tombstone ends where one that
passes tombstones does. -/
theorem probe_stops
    {marks : Bool} {i : Nat} (hclear : marks = true → Clear n home cells k)
    (h : probe (OpenAddressing.stops same (tag cells) (.inl k)) (fun i => (i + 1) % n) n
      (home k % n) = some i) :
  probe (stops marks cells k) (fun i => (i + 1) % n) n (home k % n) = some i
  := by
  rw [probe_eq_some] at h ⊢
  obtain ⟨d, hd, hdi, hstop, hbefore⟩ := h
  have hpass : ∀ e < d, ¬ ((cells ((home k + e) % n)).isNone
      ∨ Holds cells k ((home k + e) % n)) := by
    intro e he hor
    have hfalse := hbefore e he
    rw [OpenAddressing.stops] at hfalse
    rcases hor with hnone | hholds
    · rw [tag_eq_none.mpr (Option.isNone_iff_eq_none.mp hnone)] at hfalse
      cases hfalse
    · rw [tag_eq_inl.mpr hholds] at hfalse
      simp [same] at hfalse
  refine ⟨d, hd, hdi, ?_, ?_⟩
  · rw [OpenAddressing.stops, tag] at hstop
    unfold stops
    rcases hcell : cells i with _ | _ | ⟨k', v⟩
    · rfl
    · simp [hcell, same] at hstop
    · simpa [hcell, same] using hstop
  · intro e he
    have hno := hpass e he
    unfold stops
    rcases hcell : cells ((home k + e) % n) with _ | _ | ⟨k', v⟩
    · rw [hcell] at hno
      cases hno (.inl rfl)
    · cases marks with
      | false => rfl
      | true =>
        obtain ⟨e', he', hor⟩ := hclear rfl e (by omega) (by rw [hcell]; rfl)
        cases hpass e' (by omega) hor
    · have hne : k' ≠ k := by
        rintro rfl
        exact hno (.inr (holds_iff.mpr ⟨v, hcell⟩))
      simp [hne]

/-- A search that ends comes to the key, or to where the key can be put. -/
theorem Table.search
    (h : Table n home cells M) (marks : Bool) (hends : Ends n cells k)
    (hclear : marks = true → Clear n home cells k) :
  ∃ i < n, probe (stops marks cells k) (fun i => (i + 1) % n) n (home k % n) = some i
    ∧ (Holds cells k i
      ∨ ¬ Bound n cells k ∧ Lands n (tagHome home) (tag cells) (.inl k) i)
  := by
  by_cases hbound : Bound n cells k
  · obtain ⟨i, hi, hholds⟩ := hbound
    refine ⟨i, hi, ?_, .inl hholds⟩
    apply probe_stops hclear
    apply find_of_holds (h.findable (.inl k)) h.distinct (hashes home) hi (tag_eq_inl.mpr hholds)
    simp [same]
  · have habsent : Absent n same (tag cells) (.inl k) := by
      intro i hi a ha
      rw [Bool.eq_false_iff]
      intro hsame
      rw [of_decide_eq_true hsame, tag_eq_inl] at ha
      exact hbound ⟨i, hi, ha⟩
    have hroom : ∃ i < n, tag cells i = none := by
      obtain ⟨i, hi, hnone⟩ := hends.resolve_left hbound
      exact ⟨i, hi, tag_eq_none.mpr (Option.isNone_iff_eq_none.mp hnone)⟩
    obtain ⟨i, hi, hprobe, hlands⟩ : ∃ i < n,
        probe (OpenAddressing.stops same (tag cells) (.inl k)) (fun i => (i + 1) % n) n
          (tagHome home (.inl k) % n) = some i
        ∧ Lands n (tagHome home) (tag cells) (.inl k) i := find_of_absent habsent hroom
    exact ⟨i, hi, probe_stops hclear hprobe, .inr ⟨hbound, hlands⟩⟩

/-! ### Writing a cell -/

/-- What is bound after a key is written where no other key is. -/
theorem Table.binds_put
    (h : Table n home cells M) {i : Nat} {v : V} (hi : i < n)
    (hcell : Holds cells k i ∨ ¬ Bound n cells k ∧ cells i = none) (k' : K) (v' : V) :
  Function.update M k (some v) k' = some v'
    ↔ ∃ j < n, Function.update cells i (some (some (k, v))) j = some (some (k', v'))
  := by
  have honly : ∀ j < n, ∀ w, cells j = some (some (k, w)) → j = i := by
    intro j hj w hw
    rcases hcell with hholds | ⟨hno, -⟩
    · apply h.distinct j hj i hi _ _ (tag_eq_inl.mpr (holds_iff.mpr ⟨w, hw⟩))
        (tag_eq_inl.mpr hholds)
      simp [same]
    · cases hno ⟨j, hj, holds_iff.mpr ⟨w, hw⟩⟩
  have hkey : ∀ w, cells i = some (some (k', w)) → k' = k := by
    intro w hw
    rcases hcell with hholds | ⟨-, hnone⟩
    · obtain ⟨u, hu⟩ := holds_iff.mp hholds
      rw [hw] at hu
      cases hu
      rfl
    · rw [hw] at hnone
      cases hnone
  by_cases hk : k' = k
  · subst hk
    rw [Function.update_self, Option.some_inj]
    constructor
    · rintro rfl
      exact ⟨i, hi, Function.update_self _ _ _⟩
    · rintro ⟨j, hj, hjc⟩
      by_cases hji : j = i
      · rw [hji, Function.update_self] at hjc
        cases hjc
        rfl
      · rw [Function.update_of_ne hji] at hjc
        cases hji (honly j hj v' hjc)
  · rw [Function.update_of_ne hk, h.binds]
    constructor
    · rintro ⟨j, hj, hjc⟩
      refine ⟨j, hj, ?_⟩
      rw [Function.update_of_ne, hjc]
      rintro rfl
      exact hk (hkey v' hjc)
    · rintro ⟨j, hj, hjc⟩
      by_cases hji : j = i
      · rw [hji, Function.update_self] at hjc
        cases hjc
        cases hk rfl
      · rw [Function.update_of_ne hji] at hjc
        exact ⟨j, hj, hjc⟩

/-- The value of a key in the table is written. -/
theorem Table.overwrite
    (h : Table n home cells M) {i : Nat} (hi : i < n) (hcell : Holds cells k i) (v : V) :
  Table n home (Function.update cells i (some (some (k, v)))) (Function.update M k (some v))
  := by
  have htag : tag (Function.update cells i (some (some (k, v)))) = tag cells := by
    rw [tag_update, Function.update_eq_self_iff]
    exact (tag_eq_inl.mpr hcell).symm
  constructor
  case distinct =>
    rw [htag]
    apply h.distinct
  case findable =>
    rw [htag]
    apply h.findable
  case binds => apply h.binds_put hi (.inl hcell)

/-- A key that is not in the table is put where its search ends. -/
theorem Table.insert
    (h : Table n home cells M) {i : Nat} (hi : i < n) (hno : ¬ Bound n cells k)
    (hlands : Lands n (tagHome home) (tag cells) (.inl k) i) (v : V) :
  Table n home (Function.update cells i (some (some (k, v)))) (Function.update M k (some v))
  := by
  constructor
  case distinct =>
    rw [tag_update]
    apply h.distinct.update (hashes home)
    intro j hj a ha hsame
    rw [of_decide_eq_true hsame] at ha
    cases hno ⟨j, hj, tag_eq_inl.mp ha⟩
  case findable =>
    intro a
    rw [tag_update]
    apply Findable.insert h.findable (hashes home) hlands
  case binds => apply h.binds_put hi (.inr ⟨hno, tag_eq_none.mp hlands.1⟩)

/-- A key is deleted. -/
theorem Table.delete
    (h : Table n home cells M) {i : Nat} (hi : i < n) (hcell : Holds cells k i) :
  Table n home (Function.update cells i (some none)) (Function.update M k none)
  := by
  have htag := tag_eq_inl.mpr hcell
  have hkeep : ∀ j, tag cells j ≠ none →
      Function.update (tag cells) i (some (.inr i)) j ≠ none := by
    intro j hj
    by_cases hji : j = i
    · rw [hji, Function.update_self]
      apply Option.some_ne_none
    · rwa [Function.update_of_ne hji]
  constructor
  case distinct =>
    rw [tag_update]
    apply h.distinct.update (hashes home)
    intro j hj a ha hsame
    rw [of_decide_eq_true hsame, tag, Option.map_eq_some_iff] at ha
    obtain ⟨o, -, ho⟩ := ha
    cases o with
    | none => exact Sum.inr.inj ho
    | some e => cases ho
  case findable =>
    intro a d hd hany e he
    rw [tag_update] at hany ⊢
    apply hkeep
    by_cases hdi : (tagHome home a + d) % n = i
    · -- the tombstone is found at once, since it is at home
      rw [hdi, Function.update_self] at hany
      have ha : a = .inr i := (of_decide_eq_true hany).symm
      subst ha
      have hd0 : d = 0 := by
        apply offset_unique (h := i) hd (by omega)
        rw [Nat.add_zero, Nat.mod_eq_of_lt hi]
        apply hdi
      omega
    · rw [Function.update_of_ne hdi] at hany
      apply h.findable a d hd hany e he
  case binds =>
    obtain ⟨w, hw⟩ := holds_iff.mp hcell
    intro k' v'
    have hcells : ∀ j, Function.update cells i (some none) j = some (some (k', v'))
        ↔ j ≠ i ∧ cells j = some (some (k', v')) := by
      intro j
      by_cases hji : j = i
      · simp [hji]
      · simp [hji]
    simp only [hcells]
    by_cases hk : k' = k
    · subst hk
      rw [Function.update_self]
      constructor
      · intro hfalse
        cases hfalse
      · rintro ⟨j, hj, hji, hjc⟩
        cases hji (h.distinct j hj i hi _ _ (tag_eq_inl.mpr (holds_iff.mpr ⟨v', hjc⟩)) htag
          (by simp [same]))
    · rw [Function.update_of_ne hk, h.binds]
      constructor
      · rintro ⟨j, hj, hjc⟩
        refine ⟨j, hj, ?_, hjc⟩
        rintro rfl
        rw [hw] at hjc
        cases hjc
        cases hk rfl
      · rintro ⟨j, hj, -, hjc⟩
        exact ⟨j, hj, hjc⟩

/-! ### The number of keys -/

/-- The keys that a map binds. -/
def bound (M : K → Option V) : Set K := {k | M k ≠ none}

/-- A table binds finitely many keys. -/
theorem Table.finite (h : Table n home cells M) : (bound M).Finite := by
  have himage : bound M
      ⊆ ((fun i => (cells i).join.map Prod.fst) '' ↑(Finset.range n)).preimage some := by
    intro k hk
    obtain ⟨i, hi, hholds⟩ := h.bound_iff.mpr hk
    exact ⟨i, by simpa using hi, hholds⟩
  apply Set.Finite.subset _ himage
  apply Set.Finite.preimage (Option.some_injective K).injOn
  apply (Finset.range n).finite_toSet.image

/-- A key that is bound again. -/
theorem ncard_overwrite (hk : M k ≠ none) (v : V) :
  (bound (Function.update M k (some v))).ncard = (bound M).ncard
  := by
  congr 1
  ext k'
  by_cases hkk : k' = k
  · simp [bound, hkk, hk]
  · simp [bound, hkk]

/-- A key that is bound for the first time is one more. -/
theorem Table.ncard_insert (h : Table n home cells M) (hk : M k = none) (v : V) :
  (bound (Function.update M k (some v))).ncard = (bound M).ncard + 1
  := by
  have heq : bound (Function.update M k (some v)) = Insert.insert k (bound M) := by
    ext k'
    by_cases hkk : k' = k
    · simp [bound, hkk]
    · simp [bound, hkk]
  rw [heq]
  apply Set.ncard_insert_of_notMem _ h.finite
  simp [bound, hk]

/-- A key that is unbound is one less. -/
theorem Table.ncard_delete (h : Table n home cells M) (hk : M k ≠ none) :
  (bound (Function.update M k none)).ncard + 1 = (bound M).ncard
  := by
  have heq : bound (Function.update M k none) = bound M \ {k} := by
    ext k'
    by_cases hkk : k' = k
    · simp [bound, hkk]
    · simp [bound, hkk]
  rw [heq]
  apply Set.ncard_sdiff_singleton_add_one hk h.finite

/-- No more keys are bound than there are cells. -/
theorem Table.ncard_le (h : Table n home cells M) : (bound M).ncard ≤ n := by
  let key (i : Nat) : Option K := (cells i).join.map Prod.fst
  have hsub : some '' bound M ⊆ key '' ↑(Finset.range n) := by
    rintro _ ⟨k, hk, rfl⟩
    obtain ⟨i, hi, hholds⟩ := h.bound_iff.mpr hk
    exact ⟨i, by simpa using hi, hholds⟩
  calc (bound M).ncard
    _ = (some '' bound M).ncard := (Set.ncard_image_of_injective _ (Option.some_injective K)).symm
    _ ≤ (key '' ↑(Finset.range n)).ncard :=
      Set.ncard_le_ncard hsub ((Finset.range n).finite_toSet.image key)
    _ ≤ (↑(Finset.range n) : Set Nat).ncard := Set.ncard_image_le (Finset.range n).finite_toSet
    _ = n := by rw [Set.ncard_coe_finset, Finset.card_range]

/-- Without tombstones as many keys are bound as cells are not vacant. -/
theorem Table.ncard_eq_length
    (h : Table n home cells M) (hfresh : ∀ i, cells i ≠ some none) {indexes : List Nat}
    (hnodup : indexes.Nodup) (hlisted : ∀ i, i ∈ indexes ↔ i < n ∧ cells i ≠ none) :
  (bound M).ncard = indexes.length
  := by
  let key (i : Nat) : Option K := (cells i).join.map Prod.fst
  have himage : some '' bound M = key '' ↑indexes.toFinset := by
    ext o
    constructor
    · rintro ⟨k, hk, rfl⟩
      obtain ⟨i, hi, hholds⟩ := h.bound_iff.mpr hk
      refine ⟨i, ?_, hholds⟩
      obtain ⟨v, hv⟩ := holds_iff.mp hholds
      simp [hlisted, hi, hv]
    · rintro ⟨i, hi, rfl⟩
      have hmem : i ∈ indexes := by simpa using hi
      obtain ⟨hlt, hne⟩ := (hlisted i).mp hmem
      rcases hcell : cells i with _ | _ | ⟨k, v⟩
      · cases hne hcell
      · cases hfresh i hcell
      · refine ⟨k, h.bound_iff.mp ⟨i, hlt, holds_iff.mpr ⟨v, hcell⟩⟩, ?_⟩
        simp [key, hcell]
  have hinj : Set.InjOn key ↑indexes.toFinset := by
    intro i hi j hj heq
    have hmemi : i ∈ indexes := by simpa using hi
    have hmemj : j ∈ indexes := by simpa using hj
    obtain ⟨hlti, hnei⟩ := (hlisted i).mp hmemi
    rcases hcell : cells i with _ | _ | ⟨k, v⟩
    · cases hnei hcell
    · cases hfresh i hcell
    · have hki : Holds cells k i := holds_iff.mpr ⟨v, hcell⟩
      have hkj : Holds cells k j := heq.symm.trans hki
      apply h.distinct i hlti j ((hlisted j).mp hmemj).1 _ _ (tag_eq_inl.mpr hki)
        (tag_eq_inl.mpr hkj)
      simp [same]
  calc (bound M).ncard
    _ = (some '' bound M).ncard := (Set.ncard_image_of_injective _ (Option.some_injective K)).symm
    _ = (key '' ↑indexes.toFinset).ncard := by rw [himage]
    _ = (↑indexes.toFinset : Set Nat).ncard := hinj.ncard_image
    _ = indexes.length := by rw [Set.ncard_coe_finset, List.toFinset_card_of_nodup hnodup]

/-! ### Rehashing -/

/-- The keys of a table are distinct. -/
theorem Table.distinct_live (h : Table n home cells M) :
  Distinct n same (keys (fun e => .inl e.1) (live cells))
  := by
  intro i hi j hj a b ha hb hsame
  apply h.distinct i hi j hj a b (tag_of_keys ha) (tag_of_keys hb) hsame

/-- A new table into which all keys of a table have been put represents the same map. -/
theorem Table.rehash
    {m : Nat} {new : Cells K V} {done indexes : List Nat} (h : Table m home cells M)
    (hnew : Rehashed n (tagHome home) same (fun e => .inl e.1) (live cells) done (live new) indexes)
    (hin : ∀ j ∈ done, j < m) (hall : ∀ i < m, ∀ e, cells i = some (some e) → i ∈ done)
    (hfresh : ∀ i, new i ≠ some none) :
  Table n home new M
  := by
  have htag := tag_eq_keys hfresh
  constructor
  case distinct =>
    rw [htag]
    apply hnew.distinct
  case findable =>
    rw [htag]
    apply hnew.findable
  case binds =>
    intro k v
    rw [h.binds]
    constructor
    · rintro ⟨i, hi, hcell⟩
      obtain ⟨j, hj, hjc⟩ := hnew.kept i (hall i hi _ hcell) _ (live_eq_some.mpr hcell)
      exact ⟨j, hj, live_eq_some.mp hjc⟩
    · rintro ⟨j, -, hjc⟩
      obtain ⟨i, hi, hcell⟩ := hnew.moved j _ (live_eq_some.mpr hjc)
      exact ⟨i, hin i hi, live_eq_some.mp hcell⟩

end Tombstones
