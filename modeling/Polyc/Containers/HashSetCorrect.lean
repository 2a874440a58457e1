import Polyc.Containers.HashSetValid
import Polyc.Containers.MapCorrect

/-!
# The hash set as a finite set

Keys that match are one element of the finite set.  A run of operations on the hash set
answers as the same operations on the finite set do, as long as no operation meets what
removals leave behind: a vacancy before the node of the key on its path, or a vacant node that
is indexed.  Union and difference go over the values up to one that is `NULL`, and a copy is
always empty.
-/

namespace Polyc

/-! ### Operations and answers -/

/-- The operations on a set. -/
inductive SetOp (K : Type) where
  | setAdd (key : K)
  | setRemove (key : K)
  | setHas (key : K)
  deriving DecidableEq

section Set

variable {K : Type}

/-- An operation on the hash set; the key that `setRemove` returns is left out. -/
def setStep (t : MapType K) (s : HashSet K) : SetOp K → Option (HashSet K × MapResult)
  | .setAdd key => (setAdd t s key).map fun r => (r.1, .int r.2)
  | .setRemove key => (setRemove t s key).map fun r => (r.1, .void)
  | .setHas key => (setHas t s key).map fun b => (s, .int b)

/-- A finite set of keys, up to sameness. -/
abbrev FiniteSet (s : Setoid K) := Quotient s → Bool

/-- An operation on the finite set. -/
def FiniteSet.step {s : Setoid K} [DecidableEq (Quotient s)] (M : FiniteSet s) :
    SetOp K → FiniteSet s × MapResult
  | .setAdd key => (Function.update M (Quotient.mk _ key) true, .int (!M (Quotient.mk _ key)))
  | .setRemove key => (Function.update M (Quotient.mk _ key) false, .void)
  | .setHas key => (M, .int (M (Quotient.mk _ key)))

/-- The elements of a finite set. -/
def FiniteSet.members {s : Setoid K} (M : FiniteSet s) : Set (Quotient s) := {q | M q = true}

variable {t : MapType K} {s : HashSet K}

namespace HashSet

/-- A hash set has the keys of a finite set. -/
structure Refines (ht : t.Lawful) (s : HashSet K) (M : FiniteSet ht.setoid) : Prop
    extends s.Valid t where
  has : ∀ key, M (Quotient.mk _ key) = true ↔ s.Has t key

/-- An iteration over a set yields every element once. -/
def IteratesOver (ht : t.Lawful) (s : HashSet K) (M : FiniteSet ht.setoid) : Prop :=
  ∃ ks, SetYields s setIterInit ks ∧ (ks.map fun k => (⟦k⟧ : Quotient ht.setoid)).Nodup
    ∧ {q | q ∈ ks.map fun k => (⟦k⟧ : Quotient ht.setoid)} = M.members

/-- A hash set stands for a finite set. -/
structure Represents (ht : t.Lawful) (s : HashSet K) (M : FiniteSet ht.setoid) : Prop where
  setHas_eq : ∀ key, setHas t s key = some (M (Quotient.mk _ key))
  size_eq : s.size = M.members.ncard
  iterates : s.IteratesOver ht M

end HashSet

/-! ### Iteration -/

/-- What is yielded depends on the next value only. -/
theorem SetYields.of_next_eq
    {it it' : SetIter K} {ks : List K} (h : setIterNext s it = setIterNext s it')
    (hy : SetYields s it' ks) :
  SetYields s it ks
  := by
  cases hy with
  | done hd => apply SetYields.done (h.trans hd)
  | next hn hkey hrest => apply SetYields.next (h.trans hn) hkey hrest

/-- An iterator yields the keys of the occupied nodes at the indexes that are left. -/
theorem setYields_drop {it : SetIter K} {l : List Nat} (hl : s.indexes.drop it.vecidx = l) :
  SetYields s it (l.filterMap s.slot)
  := by
  induction l generalizing it with
  | nil =>
    apply SetYields.done
    rw [setIterNext, hl]
    rfl
  | cons idx l ih =>
    have hrest : s.indexes.drop (it.vecidx + 1) = l := by
      rw [← List.tail_drop, hl]
      rfl
    cases hslot : s.slot idx with
    | none =>
      rw [List.filterMap_cons_none hslot]
      have hskip : setIterNext s it = setIterNext s { it with vecidx := it.vecidx + 1 } := by
        rw [setIterNext, hl, setIterScan, hslot, setIterNext, hrest]
      apply SetYields.of_next_eq hskip
      apply ih hrest
    | some key =>
      rw [List.filterMap_cons_some hslot]
      have hnext : setIterNext s it
          = some { value := some key, idx := it.idx + 1, vecidx := it.vecidx + 1 } := by
        rw [setIterNext, hl, setIterScan, hslot]
      apply SetYields.next hnext rfl
      apply ih hrest

namespace HashSet

/-- The keys at the indexes are those of the set. -/
theorem Valid.mem_keys (h : s.Valid t) {k : K} :
  k ∈ s.indexes.filterMap s.slot ↔ ∃ i < s.capacity, s.slot i = some k
  := by
  rw [List.mem_filterMap]
  constructor
  · rintro ⟨i, hi, hk⟩
    exact ⟨i, h.inRange i hi, hk⟩
  · rintro ⟨i, -, hk⟩
    refine ⟨i, ?_, hk⟩
    apply h.listed
    rw [hk]
    apply Option.some_ne_none

/-- A set has the keys that match one at the indexes. -/
theorem Valid.has_iff_keys (h : s.Valid t) {key : K} :
  s.Has t key ↔ ∃ k ∈ s.indexes.filterMap s.slot, t.match k key
  := by
  rw [has_iff]
  constructor
  · rintro ⟨i, hi, k, hk, hm⟩
    exact ⟨k, h.mem_keys.mpr ⟨i, hi, hk⟩, hm⟩
  · rintro ⟨k, hk, hm⟩
    obtain ⟨i, hi, hslot⟩ := h.mem_keys.mp hk
    exact ⟨i, hi, k, hslot, hm⟩

namespace Refines

variable {ht : t.Lawful} {M : FiniteSet ht.setoid}

/-- As many elements are there as are counted. -/
theorem size_eq (h : s.Refines ht M) :
  s.size = M.members.ncard
  := by
  rw [h.size, ← OpenAddressing.ncard_classes h.distinct ht.setoid fun _ _ => Iff.rfl]
  congr 1
  ext q
  obtain ⟨key, rfl⟩ := Quotient.exists_rep q
  rw [FiniteSet.members, Set.mem_ofPred_eq, Set.mem_ofPred_eq, h.has, has_iff]
  constructor
  · rintro ⟨i, hi, k, hk, hq⟩
    exact ⟨i, hi, k, hk, Quotient.exact hq⟩
  · rintro ⟨i, hi, k, hk, hm⟩
    exact ⟨i, hi, k, hk, Quotient.sound hm⟩

/-- A set is iterated over. -/
theorem iteratesOver (h : s.Refines ht M) :
  s.IteratesOver ht M
  := by
  refine ⟨s.indexes.filterMap s.slot, setYields_drop rfl, ?_, ?_⟩
  · rw [List.map_filterMap]
    apply h.nodup.filterMap
    intro i j q hi hj
    obtain ⟨k, hk, rfl⟩ := Option.map_eq_some_iff.mp hi
    obtain ⟨l, hl, hq⟩ := Option.map_eq_some_iff.mp hj
    have hi : i < s.capacity := h.toShape.lt_of_slot (by simp [hk])
    have hj : j < s.capacity := h.toShape.lt_of_slot (by simp [hl])
    apply h.distinct i hi j hj k l hk hl
    apply ht.equivalence.symm (Quotient.exact hq)
  · ext q
    obtain ⟨key, rfl⟩ := Quotient.exists_rep q
    rw [FiniteSet.members, Set.mem_ofPred_eq, Set.mem_ofPred_eq, h.has, h.toValid.has_iff_keys,
      List.mem_map]
    constructor
    · rintro ⟨k, hk, hq⟩
      exact ⟨k, hk, Quotient.exact hq⟩
    · rintro ⟨k, hk, hm⟩
      exact ⟨k, hk, Quotient.sound hm⟩

/-- A set to which keys have only been added stands for the finite set. -/
theorem represents (h : s.Refines ht M) (hg : s.Grown t) :
  s.Represents ht M
  where
  setHas_eq key := by
    rw [h.toValid.setHas_eq ht (hg.findable key), Option.some_inj, Bool.eq_iff_iff,
      decide_eq_true_eq, h.has]
  size_eq := h.size_eq
  iterates := h.iteratesOver

end Refines

end HashSet

/-! ### Steps and runs -/

/-- What an operation needs to answer right. -/
def SetOp.Meets (t : MapType K) (s : HashSet K) : SetOp K → Prop
  | .setAdd key => s.AddOk t key
  | .setRemove key => s.Findable t key
  | .setHas key => s.Findable t key

instance (t : MapType K) (s : HashSet K) (op : SetOp K) : Decidable (op.Meets t s) := by
  cases op <;> unfold SetOp.Meets <;> infer_instance

/-- An operation that meets its condition is one on the finite set. -/
theorem setStep_refines
    {ht : t.Lawful} {M : FiniteSet ht.setoid} {op : SetOp K} (h : s.Refines ht M)
    (hop : op.Meets t s) :
  ∃ s', setStep t s op = some (s', (M.step op).2) ∧ s'.Refines ht (M.step op).1
  := by
  cases op with
  | setAdd key =>
    obtain ⟨s', b, hadd, hv, -, hb, hhas⟩ := h.toValid.add ht hop
    have hbm : b = !M (Quotient.mk _ key) := by
      rw [Bool.eq_iff_iff, hb, ← h.has]
      simp
    refine ⟨s', ?_, hv, ?_⟩
    · rw [setStep, hadd, hbm]
      rfl
    · intro key'
      show Function.update M (Quotient.mk _ key) true ⟦key'⟧ = true ↔ s'.Has t key'
      rw [update_mk, hhas, ← h.has]
      split
      · rename_i hm
        simp [hm]
      · rename_i hm
        simp [hm]
  | setRemove key =>
    obtain ⟨s', k, hrem, hv, hhas⟩ := h.toValid.remove ht hop
    refine ⟨s', ?_, hv, ?_⟩
    · rw [setStep, hrem]
      rfl
    · intro key'
      show Function.update M (Quotient.mk _ key) false ⟦key'⟧ = true ↔ s'.Has t key'
      rw [update_mk, hhas, ← h.has]
      split
      · rename_i hm
        simp [hm]
      · rename_i hm
        simp [hm]
  | setHas key =>
    refine ⟨s, ?_, h⟩
    have hhas : decide (s.Has t key) = M (Quotient.mk _ key) := by
      rw [Bool.eq_iff_iff, decide_eq_true_eq, h.has]
    rw [setStep, h.toValid.setHas_eq ht hop, hhas]
    rfl

/-- A run of operations on a new set. -/
def setRun (t : MapType K) (capacity : Nat) (ops : List (SetOp K)) :
    Option (HashSet K × List MapResult) :=
  Refinement.run (setStep t) (setNew K capacity) ops

/-- The same operations on the empty finite set. -/
def finiteSetRun {t : MapType K} (ht : t.Lawful) (ops : List (SetOp K)) :
    FiniteSet ht.setoid × List MapResult :=
  Refinement.specRun FiniteSet.step (fun _ => false) ops

/-- A new set has the keys of the empty finite set. -/
theorem setNew_refines (ht : t.Lawful) {capacity : Nat} (hpower : ∃ e, capacity = 2 ^ e) :
  (setNew K capacity).Refines ht (fun _ => false) ∧ (setNew K capacity).Grown t
  := by
  obtain ⟨hg, hno⟩ := HashSet.grown_setNew (K := K) (t := t) hpower
  refine ⟨⟨hg.toValid, ?_⟩, hg⟩
  intro key
  constructor
  · intro hfalse
    cases hfalse
  · intro hkey
    cases hno key hkey

/-- A run whose operations all meet their conditions. -/
theorem setRun_refines
    (ht : t.Lawful) {capacity : Nat} (hpower : ∃ e, capacity = 2 ^ e) {ops : List (SetOp K)}
    (hops : Refinement.Guarded (setStep t) (fun s op => op.Meets t s) (setNew K capacity) ops) :
  ∃ s, setRun t capacity ops = some (s, (finiteSetRun ht ops).2)
    ∧ s.Refines ht (finiteSetRun ht ops).1
  := by
  apply Refinement.run_refines (fun s M => HashSet.Refines ht s M) _
    (setNew_refines ht hpower).1 hops
  intro s M op
  apply setStep_refines

/-! ### Loops over a set -/

namespace HashSet

/-- No key is `NULL`. -/
def NoNull (t : MapType K) (s : HashSet K) : Prop :=
  ∀ i < s.capacity, ∀ k ∈ s.slot i, t.pointer k ≠ 0

instance (t : MapType K) (s : HashSet K) : Decidable (s.NoNull t) :=
  inferInstanceAs (Decidable (∀ i < s.capacity, ∀ k ∈ s.slot i, t.pointer k ≠ 0))

/-- Every key of a set is findable in another. -/
def FindableIn (t : MapType K) (s s' : HashSet K) : Prop :=
  ∀ i < s.capacity, ∀ k ∈ s.slot i, s'.Findable t k

instance (t : MapType K) (s s' : HashSet K) : Decidable (s.FindableIn t s') :=
  inferInstanceAs (Decidable (∀ i < s.capacity, ∀ k ∈ s.slot i, s'.Findable t k))

end HashSet

/-- What a loop keeps for each value it comes to holds at its end, and it comes to all when
none is `NULL`. -/
theorem setFor_keeps
    (body : HashSet K → K → Option (HashSet K)) (P : HashSet K → List K → Prop)
    {l : List Nat} (hbody : ∀ set done, ∀ k ∈ l.filterMap s.slot, P set done →
      ∃ set', body set k = some set' ∧ P set' (done ++ [k]))
    {set : HashSet K} {done : List K} (h : P set done) :
  ∃ set' ks, setFor t s body set l = some set' ∧ P set' (done ++ ks)
    ∧ ((∀ k ∈ l.filterMap s.slot, t.pointer k ≠ 0) → ks = l.filterMap s.slot)
  := by
  induction l generalizing set done with
  | nil =>
    refine ⟨set, [], rfl, ?_, fun _ => rfl⟩
    rw [List.append_nil]
    apply h
  | cons idx l ih =>
    unfold setFor
    cases hslot : s.slot idx with
    | none =>
      rw [List.filterMap_cons_none hslot] at hbody ⊢
      apply ih hbody h
    | some value =>
      rw [List.filterMap_cons_some hslot] at hbody ⊢
      dsimp only
      split
      · rename_i hnull
        refine ⟨set, [], rfl, ?_, ?_⟩
        · rw [List.append_nil]
          apply h
        · intro hno
          cases hno value List.mem_cons_self hnull
      · obtain ⟨set₁, hset₁, h₁⟩ := hbody set done value List.mem_cons_self h
        obtain ⟨set', ks, hfor, h', hall⟩ :=
          ih (fun set done k hk => hbody set done k (List.mem_cons_of_mem value hk)) h₁
        refine ⟨set', value :: ks, ?_, ?_, ?_⟩
        · rw [hset₁, Option.bind_some, hfor]
        · rwa [List.append_assoc, List.singleton_append] at h'
        · intro hno
          rw [hall fun k hk => hno k (List.mem_cons_of_mem value hk)]

namespace HashSet

/-- A key is added to a set to which keys have only been added. -/
theorem Grown.add (h : s.Grown t) (ht : t.Lawful) (key : K) :
  ∃ s', (setAdd t s key).map Prod.fst = some s' ∧ s'.Grown t
    ∧ ∀ key', s'.Has t key' ↔ t.match key key' ∨ s.Has t key'
  := by
  obtain ⟨s', b, hadd, -, hg, -, hhas⟩ := h.toValid.add ht (h.addOk key)
  refine ⟨s', ?_, hg h, hhas⟩
  rw [hadd]
  rfl

/-- Adding the values of a set to one to which keys have only been added. -/
theorem Grown.addAll
    {set : HashSet K} (h : set.Grown t) (ht : t.Lawful) (hs : s.Valid t) :
  ∃ set', setFor t s (fun set value => (setAdd t set value).map Prod.fst) set s.indexes
      = some set'
    ∧ set'.Grown t
    ∧ (s.NoNull t → ∀ key, set'.Has t key ↔ set.Has t key ∨ s.Has t key)
  := by
  have hstep : ∀ set₁ done, ∀ k ∈ s.indexes.filterMap s.slot,
      (set₁.Grown t ∧ ∀ key, set₁.Has t key ↔ set.Has t key ∨ ∃ k ∈ done, t.match k key) →
        ∃ set₂, (setAdd t set₁ k).map Prod.fst = some set₂ ∧ set₂.Grown t
          ∧ ∀ key, set₂.Has t key ↔ set.Has t key ∨ ∃ k' ∈ done ++ [k], t.match k' key := by
    rintro set₁ done k - ⟨hg, hhas⟩
    obtain ⟨set₂, hadd, hg₂, hhas₂⟩ := hg.add ht k
    refine ⟨set₂, hadd, hg₂, ?_⟩
    intro key
    have hlast : (∃ k' ∈ done ++ [k], t.match k' key)
        ↔ (∃ k' ∈ done, t.match k' key) ∨ t.match k key := by
      simp [or_and_right, exists_or]
    rw [hhas₂, hhas, hlast, or_comm, or_assoc]
  have hinit : set.Grown t
      ∧ ∀ key, set.Has t key ↔ set.Has t key ∨ ∃ k ∈ ([] : List K), t.match k key :=
    ⟨h, fun key => by simp⟩
  obtain ⟨set', ks, hfor, ⟨hg, hhas⟩, hall⟩ := setFor_keeps (t := t) _
    (fun set₁ done => set₁.Grown t
      ∧ ∀ key, set₁.Has t key ↔ set.Has t key ∨ ∃ k ∈ done, t.match k key) hstep hinit
  refine ⟨set', hfor, hg, ?_⟩
  intro hnull key
  have hks : ks = s.indexes.filterMap s.slot := by
    apply hall
    intro k hk
    obtain ⟨i, hi, hslot⟩ := hs.mem_keys.mp hk
    apply hnull i hi k hslot
  rw [hhas, List.nil_append, hks, ← hs.has_iff_keys]

/-! ### Union, difference and copy -/

section Functions

variable {s' : HashSet K} {ht : t.Lawful} {M M' : FiniteSet ht.setoid}

/-- The union of two sets without `NULL`. -/
theorem Refines.setUnion
    (h : s.Refines ht M) (h' : s'.Refines ht M') :
  ∃ u, setUnion t s s' = some u
    ∧ (s.NoNull t → s'.NoNull t → u.Represents ht fun q => M q || M' q)
  := by
  obtain ⟨hnew, hno⟩ := grown_setNew (K := K) (t := t) h.power
  obtain ⟨u₁, hfor₁, hg₁, hhas₁⟩ := hnew.addAll ht h.toValid
  obtain ⟨u₂, hfor₂, hg₂, hhas₂⟩ := hg₁.addAll ht h'.toValid
  refine ⟨u₂, ?_, ?_⟩
  · unfold Polyc.setUnion
    dsimp only
    rw [hfor₁]
    apply hfor₂
  · intro hnull hnull'
    have hrel : u₂.Refines ht fun q => M q || M' q := by
      refine ⟨hg₂.toValid, ?_⟩
      intro key
      rw [hhas₂ hnull', hhas₁ hnull, Bool.or_eq_true, h.has, h'.has]
      simp [hno]
    apply hrel.represents hg₂

/-- Matching keys are both in a set or both not. -/
theorem has_congr (ht : t.Lawful) {k key : K} (hm : t.match k key) :
  s.Has t k ↔ s.Has t key
  := by
  rw [has_iff, has_iff]
  constructor
  · rintro ⟨i, hi, l, hl, hlm⟩
    exact ⟨i, hi, l, hl, ht.equivalence.trans hlm hm⟩
  · rintro ⟨i, hi, l, hl, hlm⟩
    exact ⟨i, hi, l, hl, ht.equivalence.trans hlm (ht.equivalence.symm hm)⟩

/-- The difference of a set without `NULL` and one in which its keys are findable. -/
theorem Refines.setDifference
    (h : s.Refines ht M) (h' : s'.Refines ht M') (hnull : s.NoNull t)
    (hfind : s.FindableIn t s') :
  ∃ d, setDifference t s s' = some d ∧ d.Represents ht fun q => M q && !M' q
  := by
  obtain ⟨hnew, hno⟩ := grown_setNew (K := K) (t := t) h.power
  have hstep : ∀ set₁ done, ∀ k ∈ s.indexes.filterMap s.slot,
      (set₁.Grown t ∧ ∀ key, set₁.Has t key ↔ ∃ k ∈ done, t.match k key ∧ ¬ s'.Has t k) →
        ∃ set₂, ((setHas t s' k).bind fun has =>
            if !has then (setAdd t set₁ k).map Prod.fst else some set₁) = some set₂
          ∧ set₂.Grown t
          ∧ ∀ key, set₂.Has t key ↔ ∃ k' ∈ done ++ [k], t.match k' key ∧ ¬ s'.Has t k' := by
    rintro set₁ done k hk ⟨hg, hhas⟩
    obtain ⟨i, hi, hslot⟩ := h.toValid.mem_keys.mp hk
    have hlast : ∀ key, (∃ k' ∈ done ++ [k], t.match k' key ∧ ¬ s'.Has t k')
        ↔ (t.match k key ∧ ¬ s'.Has t k)
          ∨ ∃ k' ∈ done, t.match k' key ∧ ¬ s'.Has t k' := by
      intro key
      rw [or_comm]
      simp [or_and_right, exists_or]
    rw [h'.toValid.setHas_eq ht (hfind i hi k hslot), Option.bind_some]
    by_cases hin : s'.Has t k
    · refine ⟨set₁, ?_, hg, ?_⟩
      · simp [hin]
      · intro key
        rw [hlast, hhas]
        simp [hin]
    · obtain ⟨set₂, hadd, hg₂, hhas₂⟩ := hg.add ht k
      refine ⟨set₂, ?_, hg₂, ?_⟩
      · simp only [hin, decide_false, Bool.not_false, if_true]
        apply hadd
      · intro key
        rw [hlast, hhas₂, hhas]
        simp [hin]
  have hinit : (setNew K s.capacity).Grown t ∧ ∀ key, (setNew K s.capacity).Has t key
      ↔ ∃ k ∈ ([] : List K), t.match k key ∧ ¬ s'.Has t k :=
    ⟨hnew, fun key => by simp [hno]⟩
  obtain ⟨d, ks, hfor, ⟨hg, hhas⟩, hall⟩ := setFor_keeps (t := t) _
    (fun set₁ done => set₁.Grown t
      ∧ ∀ key, set₁.Has t key ↔ ∃ k ∈ done, t.match k key ∧ ¬ s'.Has t k) hstep hinit
  have hks : ks = s.indexes.filterMap s.slot := by
    apply hall
    intro k hk
    obtain ⟨i, hi, hslot⟩ := h.toValid.mem_keys.mp hk
    apply hnull i hi k hslot
  refine ⟨d, hfor, ?_⟩
  have hrel : d.Refines ht fun q => M q && !M' q := by
    refine ⟨hg.toValid, ?_⟩
    intro key
    rw [hhas, List.nil_append, hks, Bool.and_eq_true, Bool.not_eq_true', h.has,
      ← Bool.not_eq_true, h'.has, h.toValid.has_iff_keys]
    constructor
    · rintro ⟨⟨k, hk, hm⟩, hno'⟩
      exact ⟨k, hk, hm, fun hin => hno' ((has_congr ht hm).mp hin)⟩
    · rintro ⟨k, hk, hm, hno'⟩
      exact ⟨⟨k, hk, hm⟩, fun hin => hno' ((has_congr ht hm).mpr hin)⟩
  apply hrel.represents hg

/-- A copy has the elements of the set when there are none. -/
theorem Refines.setCopy
    (h : s.Refines ht M) :
  (∃ c, setCopy t s = some c ∧ c.Represents ht M) ↔ s.size = 0
  := by
  obtain ⟨hnew, hgrown⟩ := setNew_refines ht h.power
  obtain ⟨u, hunion, -⟩ := hnew.setUnion h
  have hcopy : Polyc.setCopy t s = some (setNew K s.capacity) := by
    rw [Polyc.setCopy, hunion]
    rfl
  rw [hcopy]
  constructor
  · rintro ⟨c, hc, hrep⟩
    obtain rfl := Option.some_inj.mp hc
    rw [h.size_eq, ← hrep.size_eq]
    rfl
  · intro hzero
    have hempty : M = fun _ => false := by
      funext q
      obtain ⟨key, rfl⟩ := Quotient.exists_rep q
      rw [Bool.eq_false_iff, Ne, h.has, has_iff]
      rintro ⟨i, hi, k, hk, -⟩
      have hused := h.size
      rw [hzero, OpenAddressing.used, eq_comm, Finset.card_eq_zero] at hused
      have hmem : i ∈ (Finset.range s.capacity).filter fun i => s.slot i ≠ none := by
        simp [hi, hk]
      rw [hused] at hmem
      cases hmem
    refine ⟨setNew K s.capacity, rfl, ?_⟩
    rw [hempty]
    apply hnew.represents hgrown

end Functions

end HashSet

/-! ### The results -/

/-- A run answers as on the finite set, its elements are counted and yielded once each. -/
def SetRefines (ht : t.Lawful) (capacity : Nat) (ops : List (SetOp K)) (s : HashSet K) : Prop :=
  setRun t capacity ops = some (s, (finiteSetRun ht ops).2)
    ∧ s.size = (finiteSetRun ht ops).1.members.ncard
    ∧ s.IteratesOver ht (finiteSetRun ht ops).1

/-- A function of two sets returns a set that stands for a finite set. -/
def Returns (ht : t.Lawful) (r : Option (HashSet K)) (M : FiniteSet ht.setoid) : Prop :=
  ∃ s, r = some s ∧ s.Represents ht M

/-- What is said of two sets and the operations by which they were made. -/
def SetsAreFinite (ht : t.Lawful) (capacity capacity' : Nat) (ops ops' : List (SetOp K)) :
    Prop :=
  ∃ s s', SetRefines ht capacity ops s ∧ SetRefines ht capacity' ops' s'
    ∧ Returns ht (setUnion t s s')
        (fun q => (finiteSetRun ht ops).1 q || (finiteSetRun ht ops').1 q)
    ∧ Returns ht (setDifference t s s')
        (fun q => (finiteSetRun ht ops).1 q && !(finiteSetRun ht ops').1 q)
    ∧ Returns ht (setCopy t s) (finiteSetRun ht ops).1

end Set

/-- Two resizes, and a removal from the end of a path. -/
def growingOps : List (SetOp Word) :=
  [.setAdd 1, .setAdd 9, .setAdd 3, .setAdd 2, .setRemove 9, .setHas 1, .setAdd 4, .setAdd 5]

/-- A set that is resized when its first key is added. -/
def smallOps : List (SetOp Word) := [.setAdd 5, .setAdd 6]

/-- Of two colliding elements the first is removed, and then the second is looked up. -/
def vacatedOps : List (SetOp Word) := [.setAdd 1, .setAdd 9, .setRemove 1, .setHas 9]

end Polyc
