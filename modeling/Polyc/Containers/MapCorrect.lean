import Polyc.Containers.MapOps
import Polyc.Lib.Refinement

/-!
# The hash map as a finite map

Keys that match are one key of the finite map.  A run of operations on the hash map answers
as the same operations on the finite map do, as long as no operation meets what removals and
clearing leave behind: a node not in use before that of the key on its path, or a node in use
that is not indexed when the nodes are moved or freed by their indexes.
-/

namespace Polyc

/-! ### Operations and answers -/

/-- The operations on a map. -/
inductive MapOp (K : Type) where
  | mapAdd (key : K) (value : Word)
  | mapAddOrErr (key : K) (value : Word)
  | mapRemove (key : K)
  | mapHas (key : K)
  | mapGet (key : K)
  | mapClear
  deriving DecidableEq

/-- What an operation returns. -/
inductive MapResult where
  | void
  | int (b : Bool)
  | pointer (v : Word)
  deriving DecidableEq

section Map

variable {K : Type}

/-- An operation on the hash map. -/
def mapStep (t : MapType K) (m : Map K) : MapOp K → Option (Map K × MapResult)
  | .mapAdd key value => (mapAdd t m key value).map (·, .int true)
  | .mapAddOrErr key value => (mapAddOrErr t m key value).map fun r => (r.1, .int r.2)
  | .mapRemove key => (mapRemove t m key).map (·, .void)
  | .mapHas key => (mapHas t m key).map fun r => (r.1, .int r.2)
  | .mapGet key => (mapGet t m key).map fun r => (r.1, .pointer r.2)
  | .mapClear => some (mapClear m, .void)

/-- Keys that match. -/
def MapType.Lawful.setoid {t : MapType K} (ht : t.Lawful) : Setoid K where
  r a b := t.match a b = true
  iseqv := ht.equivalence

instance {t : MapType K} (ht : t.Lawful) : DecidableEq (Quotient ht.setoid) :=
  @Quotient.decidableEq K ht.setoid fun a b => inferInstanceAs (Decidable (t.match a b = true))

/-- A finite map from keys, up to sameness, to values. -/
abbrev FiniteMap (s : Setoid K) := Quotient s → Option Word

/-- An operation on the finite map. -/
def FiniteMap.step {s : Setoid K} [DecidableEq (Quotient s)] (M : FiniteMap s) :
    MapOp K → FiniteMap s × MapResult
  | .mapAdd key value => (Function.update M (Quotient.mk _ key) (some value), .int true)
  | .mapAddOrErr key value =>
    if (M (Quotient.mk _ key)).isSome then (M, .int false)
    else (Function.update M (Quotient.mk _ key) (some value), .int true)
  | .mapRemove key => (Function.update M (Quotient.mk _ key) none, .void)
  | .mapHas key => (M, .int (M (Quotient.mk _ key)).isSome)
  | .mapGet key => (M, .pointer ((M (Quotient.mk _ key)).getD 0))
  | .mapClear => (fun _ => none, .void)

/-- The keys that are bound. -/
def FiniteMap.bound {s : Setoid K} (M : FiniteMap s) : Set (Quotient s) := {q | M q ≠ none}

/-! ### Steps -/

variable {t : MapType K} {m : Map K}

/-- A hash map binds what a finite map does. -/
structure Map.Refines (ht : t.Lawful) (m : Map K) (M : FiniteMap ht.setoid) : Prop
    extends m.Valid t where
  binds : ∀ key v, M (Quotient.mk _ key) = some v ↔ m.Binds t key v

/-- What belongs to a key after something is written for a key. -/
theorem update_mk
    {α : Type} (ht : t.Lawful) (M : Quotient ht.setoid → α) (key key' : K) (o : α) :
  Function.update M (Quotient.mk _ key) o ⟦key'⟧ = if t.match key key' then o else M (Quotient.mk _ key')
  := by
  have hiff : (⟦key'⟧ : Quotient ht.setoid) = ⟦key⟧ ↔ t.match key key' := by
    rw [Quotient.eq]
    exact ⟨fun h => ht.equivalence.symm h, fun h => ht.equivalence.symm h⟩
  rw [Function.update_apply]
  simp only [hiff]

namespace Map.Refines

variable {ht : t.Lawful} {M : FiniteMap ht.setoid}

/-- A key is bound in the finite map when it is in the hash map. -/
theorem isSome_iff (h : m.Refines ht M) (key : K) :
  (M (Quotient.mk _ key)).isSome ↔ ∃ v, m.Binds t key v
  := by
  rw [Option.isSome_iff_exists]
  simp only [h.binds]

/-- As many keys are bound as are counted. -/
theorem size_eq (h : m.Refines ht M) :
  m.size = M.bound.ncard
  := by
  rw [h.size, ← OpenAddressing.ncard_classes h.distinct ht.setoid fun _ _ => Iff.rfl]
  congr 1
  ext q
  obtain ⟨key, rfl⟩ := Quotient.exists_rep q
  rw [FiniteMap.bound, Set.mem_ofPred_eq, Set.mem_ofPred_eq, ← Option.isSome_iff_ne_none,
    h.isSome_iff]
  constructor
  · rintro ⟨i, hi, k, hk, hq⟩
    obtain ⟨v, len, hnode⟩ := Map.slot_eq_some.mp hk
    exact ⟨v, i, hi, k, len, hnode, Quotient.exact hq⟩
  · rintro ⟨v, i, hi, k, len, hnode, hm⟩
    exact ⟨i, hi, k, Map.slot_of_taken hnode, Quotient.sound hm⟩

/-- Another map that binds the same. -/
theorem of_binds
    {m' : Map K} (h : m.Refines ht M) (hv : m'.Valid t)
    (hb : ∀ key v, m'.Binds t key v ↔ m.Binds t key v) :
  m'.Refines ht M
  where
  toValid := hv
  binds key v := (h.binds key v).trans (hb key v).symm

/-- A key is bound. -/
theorem update
    {m' : Map K} (h : m.Refines ht M) (hv : m'.Valid t) {key : K} {value : Word}
    (hb : ∀ key' v, m'.Binds t key' v
      ↔ if t.match key key' then v = value else m.Binds t key' v) :
  m'.Refines ht (Function.update M (Quotient.mk _ key) (some value))
  where
  toValid := hv
  binds key' v := by
    rw [hb, update_mk]
    split
    · rw [Option.some_inj]
      apply eq_comm
    · apply h.binds

/-- A key is unbound. -/
theorem erase
    {m' : Map K} (h : m.Refines ht M) (hv : m'.Valid t) {key : K}
    (hb : ∀ key' v, m'.Binds t key' v ↔ ¬ t.match key key' ∧ m.Binds t key' v) :
  m'.Refines ht (Function.update M (Quotient.mk _ key) none)
  where
  toValid := hv
  binds key' v := by
    rw [hb, update_mk]
    split
    · rename_i hkey
      simp [hkey]
    · rename_i hkey
      simp [hkey, h.binds]

end Map.Refines

/-- What an operation needs to answer right: the key is findable, or cached where the cache
is asked, and every node in use is indexed where the nodes are moved or freed. -/
def MapOp.Meets (t : MapType K) (m : Map K) : MapOp K → Prop
  | .mapAdd key _ => if m.size ≥ m.threashold then m.Listed else m.Findable t key
  | .mapAddOrErr key _ => if m.size ≥ m.threashold then m.Listed else m.Findable t key
  | .mapRemove key => m.Findable t key
  | .mapHas key => m.Findable t key
  | .mapGet key => (t.pointer key = BitVec.ofNat 64 ulongMax → m.cachedIdx ≠ ulongMax)
      ∧ (m.cachedKey = t.pointer key ∨ m.Findable t key)
  | .mapClear => m.Listed

instance (t : MapType K) (m : Map K) (op : MapOp K) : Decidable (op.Meets t m) := by
  cases op <;> unfold MapOp.Meets <;> infer_instance

/-- What an operation needs to leave every node in use indexed: a key that is new does not
go to a node that was deleted and is not indexed. -/
def MapOp.MeetsListed (t : MapType K) (m : Map K) : MapOp K → Prop
  | .mapAdd key _ =>
    m.size ≥ m.threashold ∨ ((¬ ∃ v, m.Binds t key v) → m.LandsListed t key)
  | .mapAddOrErr key _ =>
    m.size ≥ m.threashold ∨ ((¬ ∃ v, m.Binds t key v) → m.LandsListed t key)
  | _ => True

/-- An operation that meets its condition is one on the finite map. -/
theorem mapStep_refines
    {ht : t.Lawful} {M : FiniteMap ht.setoid} {op : MapOp K} (h : m.Refines ht M)
    (hop : op.Meets t m) :
  ∃ m', mapStep t m op = some (m', (M.step op).2) ∧ m'.Refines ht (M.step op).1
    ∧ (m.Listed → op.MeetsListed t m → m'.Listed)
  := by
  cases op with
  | mapAdd key value =>
    obtain ⟨m₁, hres, hv, hb, hf, hroom, hl⟩ := h.toValid.reserve ht hop
    have h₁ := h.of_binds hv hb
    by_cases hbound : ∃ v, m₁.Binds t key v
    · obtain ⟨i, hi, hput, hbinds, hlisted⟩ := hv.put_bound ht hf hbound value
      refine ⟨m₁.put t (i, false) key value, ?_, h₁.update hput hbinds, ?_⟩
      · rw [mapStep, mapAdd, hres, Option.bind_some, hi]
        rfl
      · intro hm hlands
        apply hlisted (hl hm hlands).1
    · obtain ⟨i, hi, hput, hbinds, hlisted⟩ := hv.put_unbound ht hbound hroom value
      refine ⟨m₁.put t (i, true) key value, ?_, h₁.update hput hbinds, ?_⟩
      · rw [mapStep, mapAdd, hres, Option.bind_some, hi]
        rfl
      · intro hm hlands
        apply hlisted ((hl hm hlands).2 hbound) (hl hm hlands).1
  | mapAddOrErr key value =>
    obtain ⟨m₁, hres, hv, hb, hf, hroom, hl⟩ := h.toValid.reserve ht hop
    have h₁ := h.of_binds hv hb
    by_cases hbound : ∃ v, m₁.Binds t key v
    · obtain ⟨i, hi, -⟩ := hv.put_bound ht hf hbound value
      have hstep : M.step (.mapAddOrErr key value) = (M, .int false) :=
        if_pos ((h₁.isSome_iff key).mpr hbound)
      rw [hstep]
      refine ⟨m₁, ?_, h₁, ?_⟩
      · rw [mapStep, mapAddOrErr, hres, Option.bind_some, hi]
        rfl
      · intro hm hlands
        apply (hl hm hlands).1
    · obtain ⟨i, hi, hput, hbinds, hlisted⟩ := hv.put_unbound ht hbound hroom value
      have hstep : M.step (.mapAddOrErr key value)
          = (Function.update M (Quotient.mk _ key) (some value), .int true) :=
        if_neg fun hsome => hbound ((h₁.isSome_iff key).mp hsome)
      rw [hstep]
      refine ⟨m₁.put t (i, true) key value, ?_, h₁.update hput hbinds, ?_⟩
      · rw [mapStep, mapAddOrErr, hres, Option.bind_some, hi]
        rfl
      · intro hm hlands
        apply hlisted ((hl hm hlands).2 hbound) (hl hm hlands).1
  | mapRemove key =>
    obtain ⟨m', hrem, hv, hb, hl⟩ := h.toValid.remove ht hop
    refine ⟨m', ?_, h.erase hv hb, fun hm _ => hl hm⟩
    rw [mapStep, hrem]
    rfl
  | mapHas key =>
    obtain ⟨m', b, hhas, hv, hsame, hiff⟩ := h.toValid.has ht hop
    refine ⟨m', ?_, h.of_binds hv hsame.binds, fun hm _ => hsame.listed.mpr hm⟩
    have hb : b = (M (Quotient.mk _ key)).isSome := by
      rw [Bool.eq_iff_iff, hiff, h.isSome_iff]
    rw [mapStep, hhas, hb]
    rfl
  | mapGet key =>
    obtain ⟨m', w, hget, hv, hsame, hgives⟩ := h.toValid.get ht hop.1 hop.2
    refine ⟨m', ?_, h.of_binds hv hsame.binds, fun hm _ => hsame.listed.mpr hm⟩
    have hw : w = (M (Quotient.mk _ key)).getD 0 := by
      rcases hgives with hbinds | ⟨hno, rfl⟩
      · rw [(h.binds key w).mpr hbinds]
        rfl
      · have hnone : M (Quotient.mk _ key) = none := by
          rw [← Option.not_isSome_iff_eq_none, h.isSome_iff]
          apply hno
        rw [hnone]
        rfl
    rw [mapStep, hget, hw]
    rfl
  | mapClear =>
    obtain ⟨hv, hb, hl⟩ := h.toValid.clear hop
    refine ⟨mapClear m, rfl, ?_, fun _ _ => hl⟩
    constructor
    case toValid => apply hv
    case binds =>
      intro key v
      constructor
      · intro hnone
        cases hnone
      · intro hbinds
        cases hb key v hbinds

/-- A new map refines the empty finite map. -/
theorem mapNew_refines
    (ht : t.Lawful) {capacity : Word} (hlo : 2 ≤ capacity.toNat)
    (hhi : capacity.toNat ≤ 2 ^ 63) :
  (mapNew K capacity).Refines ht (fun _ => none) ∧ (mapNew K capacity).Listed
  := by
  obtain ⟨hv, hb, hl⟩ := Map.valid_mapNew (K := K) (t := t) hlo hhi
  refine ⟨⟨hv, ?_⟩, hl⟩
  intro key v
  constructor
  · intro hnone
    cases hnone
  · intro hbinds
    cases hb key v hbinds

/-! ### Runs -/

/-- A run of operations on a new map. -/
def mapRun (t : MapType K) (capacity : Word) (ops : List (MapOp K)) :
    Option (Map K × List MapResult) :=
  Refinement.run (mapStep t) (mapNew K capacity) ops

/-- The same operations on the empty finite map. -/
def finiteRun {t : MapType K} (ht : t.Lawful) (ops : List (MapOp K)) :
    FiniteMap ht.setoid × List MapResult :=
  Refinement.specRun FiniteMap.step (fun _ => none) ops

/-- A run answers as on the finite map; its keys are counted, and no two nodes hold one. -/
def MapRefines (ht : t.Lawful) (capacity : Word) (ops : List (MapOp K)) : Prop :=
  ∃ m, mapRun t capacity ops = some (m, (finiteRun ht ops).2)
    ∧ m.size = (finiteRun ht ops).1.bound.ncard
    ∧ OpenAddressing.Distinct m.capacity t.match m.slot

/-- A run whose operations all meet their conditions refines the finite map. -/
theorem map_refines
    (ht : t.Lawful) {capacity : Word} (hlo : 2 ≤ capacity.toNat) (hhi : capacity.toNat ≤ 2 ^ 58)
    {ops : List (MapOp K)}
    (hops : Refinement.Guarded (mapStep t) (fun m op => op.Meets t m) (mapNew K capacity) ops) :
  MapRefines ht capacity ops
  := by
  have hstep : ∀ (m : Map K) (M : FiniteMap ht.setoid) (op : MapOp K), m.Refines ht M →
      op.Meets t m → ∃ m', mapStep t m op = some (m', (M.step op).2)
        ∧ m'.Refines ht (M.step op).1 := by
    intro m M op h hop
    obtain ⟨m', hs, hr, -⟩ := mapStep_refines h hop
    exact ⟨m', hs, hr⟩
  obtain ⟨m, hrun, hrel⟩ := Refinement.run_refines (fun m M => m.Refines ht M) hstep
    (mapNew_refines ht hlo (hhi.trans (by decide))).1 hops
  exact ⟨m, hrun, hrel.size_eq, hrel.distinct⟩

end Map

theorem mapUintToUintType_lawful : mapUintToUintType.Lawful where
  equivalence := by
    have heq : (fun a b => mapUintToUintType.match a b = true) = Eq := by
      funext a b
      simp [mapUintToUintType, mapIntKeyMatch]
    rw [heq]
    apply eq_equivalence
  hash_eq h := of_decide_eq_true h
  pointer_injective := Function.injective_id
  hashLen_eq hc := by
    revert hc
    decide
  memcmp_eq hc := by
    revert hc
    decide

/-- Colliding keys, of which the last is removed, and a lookup that is cached. -/
def collidingOps : List (MapOp Word) :=
  [.mapAdd 1 10, .mapAdd 9 20, .mapHas 9, .mapGet 9, .mapRemove 9, .mapAddOrErr 1 30, .mapGet 1,
    .mapGet 9]

theorem map_refines_collidingOps : MapRefines mapUintToUintType_lawful 8 collidingOps := by
  apply map_refines
  · decide
  · decide
  · decide +kernel

/-- Of two colliding keys the first is removed, and then the second is looked up. -/
def tombstoneOps : List (MapOp Word) :=
  [.mapAdd 1 10, .mapAdd 9 20, .mapRemove 1, .mapHas 9]

theorem map_refines_tombstoneOps :
  ¬ ∀ (K : Type) (t : MapType K) (ht : t.Lawful) (capacity : Word), 2 ≤ capacity.toNat →
    capacity.toNat ≤ 2 ^ 63 → ∀ ops, MapRefines ht capacity ops
  := by
  intro h
  obtain ⟨m, hrun, -⟩ := h Word mapUintToUintType mapUintToUintType_lawful 8 (by decide)
    (by decide) tombstoneOps
  have hanswers : (mapRun mapUintToUintType 8 tombstoneOps).map Prod.snd
      = some (finiteRun mapUintToUintType_lawful tombstoneOps).2 := by
    rw [hrun]
    rfl
  revert hanswers
  decide +kernel

end Polyc
