import Mathlib.Data.Finset.Card
import Mathlib.Data.Set.Card
import Mathlib.Logic.Function.Basic

/-!
# Open addressing

A table of `n` slots, each vacant or with a key.  The probe path of a key starts at its home
slot and goes round the table; a search ends at the first slot that is vacant or has the same
key.  A key is findable when no slot before its own on its path is vacant, and a table to
which keys are only added keeps all of them findable.
-/

namespace OpenAddressing

/-! ### Probing -/

/-- The first slot from `i` on at which a search stops, if it stops within some steps. -/
def probe (stop : Nat → Bool) (next : Nat → Nat) : Nat → Nat → Option Nat
  | 0, _ => none
  | fuel + 1, i => if stop i then some i else probe stop next fuel (next i)

/-- A search stops at the first slot on the path that stops it. -/
theorem probe_eq_some
    {stop : Nat → Bool} {n fuel h i : Nat} :
  probe stop (fun i => (i + 1) % n) fuel (h % n) = some i
    ↔ ∃ d < fuel, (h + d) % n = i ∧ stop i ∧ ∀ e < d, stop ((h + e) % n) = false
  := by
  induction fuel generalizing h with
  | zero => simp [probe]
  | succ fuel ih =>
    unfold probe
    rw [Nat.mod_add_mod]
    split
    · rename_i hstop
      constructor
      · rintro ⟨⟩
        refine ⟨0, Nat.succ_pos fuel, rfl, hstop, ?_⟩
        intro e he
        cases he
      · rintro ⟨d, -, rfl, -, hbefore⟩
        cases d with
        | zero => rfl
        | succ d =>
          have hfalse := hbefore 0 (Nat.succ_pos d)
          rw [Nat.add_zero, hstop] at hfalse
          cases hfalse
    · rename_i hstop
      rw [ih]
      constructor
      · rintro ⟨d, hd, rfl, hi, hbefore⟩
        refine ⟨d + 1, Nat.succ_lt_succ hd, ?_, hi, ?_⟩
        · rw [Nat.add_assoc, Nat.add_comm 1 d]
        · intro e he
          cases e with
          | zero => simpa using hstop
          | succ e =>
            rw [Nat.add_comm e 1, ← Nat.add_assoc]
            apply hbefore e (by omega)
      · rintro ⟨d, hd, rfl, hi, hbefore⟩
        cases d with
        | zero =>
          rw [Nat.add_zero] at hi
          contradiction
        | succ d =>
          refine ⟨d, by omega, ?_, hi, ?_⟩
          · rw [Nat.add_assoc, Nat.add_comm 1 d]
          · intro e he
            rw [Nat.add_assoc, Nat.add_comm 1 e]
            apply hbefore (e + 1) (by omega)

/-- Every slot is on every path. -/
theorem exists_offset (h : Nat) {n i : Nat} (hi : i < n) :
  ∃ d < n, (h + d) % n = i
  := by
  have hlt : h % n < n := Nat.mod_lt h (by omega)
  have hsum : h % n + (i + (n - h % n)) = i + n := by omega
  refine ⟨(i + (n - h % n)) % n, Nat.mod_lt _ (by omega), ?_⟩
  rw [Nat.add_mod_mod, ← Nat.mod_add_mod, hsum, Nat.add_mod_right, Nat.mod_eq_of_lt hi]

/-- A path comes to each slot once within `n` steps. -/
theorem offset_unique {h n d e : Nat} (hd : d < n) (he : e < n)
    (heq : (h + d) % n = (h + e) % n) :
  d = e
  := by
  have hmod : d ≡ e [MOD n] := Nat.ModEq.add_left_cancel' h heq
  rwa [Nat.ModEq, Nat.mod_eq_of_lt hd, Nat.mod_eq_of_lt he] at hmod

/-! ### Tables -/

/-- Keys that are the same have the same home. -/
structure Hashes {K : Type} (home : K → Nat) (same : K → K → Bool) : Prop where
  equivalence : Equivalence fun a b => same a b = true
  home_eq : ∀ {a b}, same a b → home a = home b

section Table

variable {K : Type} (n : Nat) (home : K → Nat) (same : K → K → Bool)

/-- A search for a key stops at a vacant slot and at a slot that holds the key. -/
def stops (slots : Nat → Option K) (key : K) (i : Nat) : Bool := (slots i).all (same · key)

/-- No slot on the path of a key before the one that holds it is vacant. -/
def Findable (slots : Nat → Option K) (key : K) : Prop :=
  ∀ d < n, (slots ((home key + d) % n)).any (same · key) →
    ∀ e < d, slots ((home key + e) % n) ≠ none

instance (slots : Nat → Option K) (key : K) : Decidable (Findable n home same slots key) :=
  inferInstanceAs (Decidable (∀ d < n, (slots ((home key + d) % n)).any (same · key) →
    ∀ e < d, slots ((home key + e) % n) ≠ none))

/-- No two slots hold the same key. -/
def Distinct (slots : Nat → Option K) : Prop :=
  ∀ i < n, ∀ j < n, ∀ k l, slots i = some k → slots j = some l → same k l → i = j

/-- A slot is where the path of a key first comes to a vacancy. -/
def Lands (slots : Nat → Option K) (key : K) (i : Nat) : Prop :=
  slots i = none ∧ ∃ d < n, (home key + d) % n = i
    ∧ ∀ e < d, slots ((home key + e) % n) ≠ none

/-- A key is in no slot. -/
def Absent (slots : Nat → Option K) (key : K) : Prop :=
  ∀ i < n, ∀ k, slots i = some k → same k key = false

variable {n home same} {slots : Nat → Option K} {key : K}

/-- A slot that holds a key where the search can come to it is where the search ends. -/
theorem find_of_holds
    (hfind : Findable n home same slots key) (hd : Distinct n same slots)
    (hs : Hashes home same) {i : Nat} (hi : i < n) {k : K} (hk : slots i = some k)
    (hsame : same k key) :
  probe (stops same slots key) (fun i => (i + 1) % n) n (home key % n) = some i
  := by
  obtain ⟨d, hlt, rfl⟩ := exists_offset (home key) hi
  rw [probe_eq_some]
  refine ⟨d, hlt, rfl, ?_, ?_⟩
  · rw [stops, hk]
    apply hsame
  · intro e he
    have hany : (slots ((home key + d) % n)).any (same · key) := by
      rw [hk]
      apply hsame
    obtain ⟨l, hl⟩ := Option.ne_none_iff_exists'.mp (hfind d hlt hany e he)
    rw [stops, hl, Option.all_some, Bool.eq_false_iff]
    intro hlkey
    have hkl : same l k := hs.equivalence.trans hlkey (hs.equivalence.symm hsame)
    have heq := hd _ (Nat.mod_lt _ (by omega)) _ hi l k hl hk hkl
    have hed := offset_unique (by omega) hlt heq
    omega

/-- A search for a key that is not there ends at the first vacancy on the path. -/
theorem find_of_absent
    (habsent : Absent n same slots key) (hroom : ∃ i < n, slots i = none) :
  ∃ i < n, probe (stops same slots key) (fun i => (i + 1) % n) n (home key % n) = some i
    ∧ Lands n home slots key i
  := by
  obtain ⟨j, hj, hnone⟩ := hroom
  have hvacancy : ∃ d, d < n ∧ slots ((home key + d) % n) = none := by
    obtain ⟨d, hd, rfl⟩ := exists_offset (home key) hj
    exact ⟨d, hd, hnone⟩
  classical
  obtain ⟨hlt, hfree⟩ := Nat.find_spec hvacancy
  have hbefore : ∀ e < Nat.find hvacancy, slots ((home key + e) % n) ≠ none := by
    intro e he hnone
    apply Nat.find_min hvacancy he
    exact ⟨by omega, hnone⟩
  refine ⟨_, Nat.mod_lt _ (by omega), ?_, hfree, Nat.find hvacancy, hlt, rfl, hbefore⟩
  rw [probe_eq_some]
  refine ⟨Nat.find hvacancy, hlt, rfl, ?_, ?_⟩
  · rw [stops, hfree]
    rfl
  · intro e he
    obtain ⟨l, hl⟩ := Option.ne_none_iff_exists'.mp (hbefore e he)
    rw [stops, hl, Option.all_some]
    apply habsent _ (Nat.mod_lt _ (by omega)) l hl

/-! ### Writing a slot -/

/-- Distinct keys stay distinct when a key takes the place of the same key, or of none. -/
theorem Distinct.update
    (h : Distinct n same slots) (hs : Hashes home same) {i : Nat}
    (hi : ∀ j < n, ∀ k, slots j = some k → same k key → j = i) :
  Distinct n same (Function.update slots i (some key))
  := by
  intro j hj l hl k k' hk hk' hsame
  by_cases hji : j = i
  · subst hji
    by_cases hlj : l = j
    · rw [hlj]
    · rw [Function.update_self, Option.some_inj] at hk
      rw [Function.update_of_ne hlj] at hk'
      subst hk
      cases hlj (hi l hl k' hk' (hs.equivalence.symm hsame))
  · rw [Function.update_of_ne hji] at hk
    by_cases hli : l = i
    · subst hli
      rw [Function.update_self, Option.some_inj] at hk'
      subst hk'
      apply hi j hj k hk hsame
    · rw [Function.update_of_ne hli] at hk'
      apply h j hj l hl k k' hk hk' hsame

/-- Distinct keys stay distinct when a slot is vacated. -/
theorem Distinct.vacate (h : Distinct n same slots) (i : Nat) :
  Distinct n same (Function.update slots i none)
  := by
  intro j hj l hl k k' hk hk' hsame
  have hold : ∀ {j k}, Function.update slots i none j = some k → slots j = some k := by
    intro j k hjk
    by_cases hji : j = i
    · rw [hji, Function.update_self] at hjk
      cases hjk
    · rwa [Function.update_of_ne hji] at hjk
  apply h j hj l hl k k' (hold hk) (hold hk') hsame

/-- Keys stay findable when another key is put where its path comes to a vacancy. -/
theorem Findable.insert
    (h : ∀ key, Findable n home same slots key) (hs : Hashes home same) {i : Nat}
    (hi : Lands n home slots key i) (key' : K) :
  Findable n home same (Function.update slots i (some key)) key'
  := by
  obtain ⟨-, d₀, hd₀, hd₀i, hbefore⟩ := hi
  intro d hd hany e he
  have hkeep : ∀ j, slots j ≠ none → Function.update slots i (some key) j ≠ none := by
    intro j hj
    by_cases hji : j = i
    · rw [hji, Function.update_self]
      apply Option.some_ne_none
    · rwa [Function.update_of_ne hji]
  apply hkeep
  by_cases hdi : (home key' + d) % n = i
  · have hsame : same key key' := by
      rwa [hdi, Function.update_self] at hany
    rw [← hs.home_eq hsame] at hdi ⊢
    apply hbefore
    have hdd := offset_unique hd hd₀ (hdi.trans hd₀i.symm)
    omega
  · rw [Function.update_of_ne hdi] at hany
    apply h key' d hd hany e he

/-! ### The number of keys -/

variable (n slots)

/-- The number of slots that are not vacant. -/
def used : Nat := ((Finset.range n).filter fun i => slots i ≠ none).card

variable {n slots}

/-- A table that is not full has a vacancy. -/
theorem exists_vacancy (h : used n slots < n) : ∃ i < n, slots i = none := by
  by_contra hno
  have hall : (Finset.range n).filter (fun i => slots i ≠ none) = Finset.range n := by
    apply Finset.filter_true_of_mem
    intro i hi hnone
    exact hno ⟨i, Finset.mem_range.mp hi, hnone⟩
  rw [used, hall, Finset.card_range] at h
  omega

/-- A key in a vacant slot is one more. -/
theorem used_update_vacant {i : Nat} (hi : i < n) (hnone : slots i = none) (key : K) :
  used n (Function.update slots i (some key)) = used n slots + 1
  := by
  have hinsert : (Finset.range n).filter (fun j => Function.update slots i (some key) j ≠ none)
      = insert i ((Finset.range n).filter fun j => slots j ≠ none) := by
    ext j
    by_cases hji : j = i
    · simp [hji, hi]
    · simp [hji]
  rw [used, hinsert, Finset.card_insert_of_notMem]
  · rfl
  · simp [hnone]

/-- A key in the place of another leaves their number as it is. -/
theorem used_update_held {i : Nat} (hi : slots i ≠ none) (key : K) :
  used n (Function.update slots i (some key)) = used n slots
  := by
  unfold used
  congr 1
  ext j
  by_cases hji : j = i
  · simp [hji, hi]
  · simp [hji]

/-- A slot that is vacated is one key less. -/
theorem used_vacate {i : Nat} (hi : i < n) (hheld : slots i ≠ none) :
  used n (Function.update slots i none) + 1 = used n slots
  := by
  have herase : (Finset.range n).filter (fun j => Function.update slots i none j ≠ none)
      = ((Finset.range n).filter fun j => slots j ≠ none).erase i := by
    ext j
    by_cases hji : j = i
    · simp [hji]
    · simp [hji]
  rw [used, herase, Finset.card_erase_add_one]
  · rfl
  · simp [hi, hheld]

/-- The keys of a table, up to sameness, are as many as the slots that hold them. -/
theorem ncard_classes
    (hd : Distinct n same slots) (s : Setoid K) (hs : ∀ a b, s.r a b ↔ same a b = true) :
  Set.ncard {q : Quotient s | ∃ i < n, ∃ k, slots i = some k ∧ Quotient.mk s k = q}
    = used n slots
  := by
  rw [used, ← Set.ncard_coe_finset]
  symm
  have hheld : ∀ i ∈ (↑((Finset.range n).filter fun i => slots i ≠ none) : Set Nat),
      i < n ∧ (slots i).isSome := by
    intro i hi
    simpa [Option.isSome_iff_ne_none] using hi
  apply Set.ncard_congr fun i hi => Quotient.mk s ((slots i).get (hheld i hi).2)
  · intro i hi
    exact ⟨i, (hheld i hi).1, _, (Option.some_get _).symm, rfl⟩
  · intro i j hi hj hq
    apply hd i (hheld i hi).1 j (hheld j hj).1 _ _ (Option.some_get _).symm
      (Option.some_get _).symm
    apply (hs _ _).mp (Quotient.exact hq)
  · rintro q ⟨i, hi, k, hk, rfl⟩
    have hmem : i ∈ (↑((Finset.range n).filter fun i => slots i ≠ none) : Set Nat) := by
      simp [hi, hk]
    refine ⟨i, hmem, ?_⟩
    congr 1
    simp [hk]

end Table

/-! ### Rehashing -/

section Rehash

variable {K E : Type} {n : Nat} {home : K → Nat} {same : K → K → Bool} {key : E → K}

/-- The keys of a table of entries. -/
def keys (key : E → K) (entries : Nat → Option E) (i : Nat) : Option K := (entries i).map key

/-- The entries of an old table at the indexes `done` have been put, one after the other, into
a new table of `n` slots, at the new indexes. -/
structure Rehashed (n : Nat) (home : K → Nat) (same : K → K → Bool) (key : E → K)
    (old : Nat → Option E) (done : List Nat) (new : Nat → Option E) (indexes : List Nat) :
    Prop where
  distinct : Distinct n same (keys key new)
  findable : ∀ k, Findable n home same (keys key new) k
  moved : ∀ i e, new i = some e → ∃ idx ∈ done, old idx = some e
  kept : ∀ idx ∈ done, ∀ e, old idx = some e → ∃ i < n, new i = some e
  nodup : indexes.Nodup
  listed : ∀ i, i ∈ indexes ↔ i < n ∧ new i ≠ none
  used_eq : used n (keys key new) = indexes.length
  length_le : indexes.length ≤ done.length

variable {old new : Nat → Option E} {done indexes : List Nat}

/-- Before the first entry. -/
theorem rehashed_nil {new : Nat → Option E} (hnew : ∀ i, new i = none) :
  Rehashed n home same key old [] new []
  := by
  have hkeys : ∀ i, keys key new i = none := by
    intro i
    rw [keys, hnew]
    rfl
  constructor
  case distinct =>
    intro i _ j _ k l hk
    rw [hkeys] at hk
    cases hk
  case findable =>
    intro k d _ hany
    rw [hkeys] at hany
    cases hany
  case moved =>
    intro i e hi
    rw [hnew] at hi
    cases hi
  case kept =>
    intro idx hidx
    cases hidx
  case nodup => apply List.nodup_nil
  case listed =>
    intro i
    simp [hnew]
  case used_eq => simp [used, hkeys]
  case length_le => rfl

/-- A vacant slot of the old table is passed over. -/
theorem Rehashed.skip
    (h : Rehashed n home same key old done new indexes) {idx : Nat} (hidx : old idx = none) :
  Rehashed n home same key old (done ++ [idx]) new indexes
  where
  distinct := h.distinct
  findable := h.findable
  moved i e hi := by
    obtain ⟨j, hj, heq⟩ := h.moved i e hi
    exact ⟨j, List.mem_append_left [idx] hj, heq⟩
  kept j hj e he := by
    rcases List.mem_append.mp hj with hj | hj
    · apply h.kept j hj e he
    · rw [List.mem_singleton.mp hj, hidx] at he
      cases he
  nodup := h.nodup
  listed := h.listed
  used_eq := h.used_eq
  length_le := by
    rw [List.length_append]
    apply h.length_le.trans (Nat.le_add_right _ _)

/-- The key of an entry that has not been moved is not in the new table. -/
theorem Rehashed.absent
    (h : Rehashed n home same key old done new indexes) {m : Nat}
    (hold : Distinct m same (keys key old)) (hin : ∀ j ∈ done, j < m) {idx : Nat}
    (hidx : idx < m) (hnew : idx ∉ done) {e : E} (he : old idx = some e) :
  Absent n same (keys key new) (key e)
  := by
  intro i _ k hk
  rw [Bool.eq_false_iff]
  intro hsame
  obtain ⟨e', he', rfl⟩ := Option.map_eq_some_iff.mp hk
  obtain ⟨j, hj, hje⟩ := h.moved i e' he'
  have hji : j = idx := by
    apply hold j (hin j hj) idx hidx (key e') (key e) _ _ hsame
    · rw [keys, hje, Option.map_some]
    · rw [keys, he, Option.map_some]
  rw [hji] at hj
  contradiction

/-- An entry is put where the path of its key comes to a vacancy. -/
theorem Rehashed.put
    (h : Rehashed n home same key old done new indexes) (hs : Hashes home same) {idx : Nat}
    {e : E} (he : old idx = some e) (habsent : Absent n same (keys key new) (key e)) {i : Nat}
    (hi : i < n) (hlands : Lands n home (keys key new) (key e) i) :
  Rehashed n home same key old (done ++ [idx]) (Function.update new i (some e)) (indexes ++ [i])
  := by
  have hkeys : keys key (Function.update new i (some e))
      = Function.update (keys key new) i (some (key e)) := by
    funext j
    by_cases hji : j = i
    · rw [hji, keys, Function.update_self, Function.update_self]
      rfl
    · rw [keys, Function.update_of_ne hji, Function.update_of_ne hji]
      rfl
  have hnone : new i = none := Option.map_eq_none_iff.mp hlands.1
  constructor
  case distinct =>
    rw [hkeys]
    apply h.distinct.update hs
    intro j hj k hk hsame
    rw [habsent j hj k hk] at hsame
    cases hsame
  case findable =>
    intro k
    rw [hkeys]
    apply Findable.insert h.findable hs hlands
  case moved =>
    intro j e' hj
    by_cases hji : j = i
    · rw [hji, Function.update_self, Option.some_inj] at hj
      rw [← hj]
      exact ⟨idx, List.mem_append_right done (List.mem_singleton_self idx), he⟩
    · rw [Function.update_of_ne hji] at hj
      obtain ⟨idx', hmem, heq⟩ := h.moved j e' hj
      exact ⟨idx', List.mem_append_left [idx] hmem, heq⟩
  case kept =>
    intro idx' hmem e' he'
    rcases List.mem_append.mp hmem with hmem | hmem
    · obtain ⟨j, hj, hje⟩ := h.kept idx' hmem e' he'
      refine ⟨j, hj, ?_⟩
      rw [Function.update_of_ne, hje]
      rintro rfl
      rw [hnone] at hje
      cases hje
    · rw [List.mem_singleton.mp hmem, he, Option.some_inj] at he'
      refine ⟨i, hi, ?_⟩
      rw [Function.update_self, he']
  case nodup =>
    rw [List.nodup_append_comm]
    apply List.nodup_cons.mpr ⟨_, h.nodup⟩
    intro hmem
    exact ((h.listed i).mp hmem).2 hnone
  case listed =>
    intro j
    rw [List.mem_append, List.mem_singleton, h.listed]
    by_cases hji : j = i
    · rw [hji, Function.update_self]
      simp [hi]
    · rw [Function.update_of_ne hji]
      simp [hji]
  case used_eq =>
    rw [hkeys, used_update_vacant hi hlands.1, h.used_eq, List.length_append,
      List.length_singleton]
  case length_le =>
    rw [List.length_append, List.length_append]
    apply Nat.add_le_add_right h.length_le

end Rehash

end OpenAddressing
