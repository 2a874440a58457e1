import Polyc.Containers.MapCorrect

/-!
# Iterating over the hash map

An iterator goes over the indexes and yields the nodes in use.  When every node in use is
indexed it yields every bound key once, and a resize, which goes over the indexes too, loses
none.
-/

namespace Polyc

section Map

variable {K : Type} {t : MapType K} {m : Map K}

/-- What is yielded depends on the next node only. -/
theorem MapYields.of_next_eq
    {it it' : MapIter} {ks : List K} (h : mapIterNext m it = mapIterNext m it')
    (hy : MapYields m it' ks) :
  MapYields m it ks
  := by
  cases hy with
  | done hd => apply MapYields.done (h.trans hd)
  | next hn hkey hrest => apply MapYields.next (h.trans hn) hkey hrest

/-- An iterator yields the keys of the nodes in use at the indexes that are left. -/
theorem mapYields_drop {it : MapIter} {l : List Nat} (hl : m.indexes.drop it.vecidx = l) :
  MapYields m it (l.filterMap m.slot)
  := by
  induction l generalizing it with
  | nil =>
    apply MapYields.done
    rw [mapIterNext, hl]
    rfl
  | cons idx l ih =>
    have hrest : m.indexes.drop (it.vecidx + 1) = l := by
      rw [← List.tail_drop, hl]
      rfl
    cases hslot : m.slot idx with
    | none =>
      have hnot : ¬ (m.node idx).isTaken := by
        rw [Map.isTaken_iff, not_not]
        apply hslot
      rw [List.filterMap_cons_none hslot]
      have hskip : mapIterNext m it = mapIterNext m { it with vecidx := it.vecidx + 1 } := by
        rw [mapIterNext, hl, mapIterScan, if_neg hnot, mapIterNext, hrest]
      apply MapYields.of_next_eq hskip
      apply ih hrest
    | some key =>
      have htaken : (m.node idx).isTaken := by
        rw [Map.isTaken_iff, hslot]
        apply Option.some_ne_none
      rw [List.filterMap_cons_some hslot]
      have hnext : mapIterNext m it
          = some { node := some idx, idx := it.idx + 1, vecidx := it.vecidx + 1 } := by
        rw [mapIterNext, hl, mapIterScan, if_pos htaken]
      apply MapYields.next hnext
      · apply hslot
      · apply ih hrest

/-- An iteration over a map yields every bound key once. -/
def Map.IteratesOver (ht : t.Lawful) (m : Map K) (M : FiniteMap ht.setoid) : Prop :=
  ∃ ks, MapYields m mapIterInit ks ∧ (ks.map fun k => (⟦k⟧ : Quotient ht.setoid)).Nodup
    ∧ {q | q ∈ ks.map fun k => (⟦k⟧ : Quotient ht.setoid)} = M.bound

/-- Keys are in nodes of the table. -/
theorem Map.Shape.lt_of_slot (h : m.Shape) {i : Nat} {k : K} (hk : m.slot i = some k) :
  i < m.capacity
  := by
  by_contra hge
  have hlen : m.entries.length ≤ i := by
    rw [h.length]
    omega
  rw [Map.slot, Map.node, List.getD_eq_getElem?_getD, List.getElem?_eq_none hlen] at hk
  cases hk

/-- A map whose nodes in use are all indexed is iterated over. -/
theorem Map.Refines.iteratesOver
    {ht : t.Lawful} {M : FiniteMap ht.setoid} (h : m.Refines ht M) (hl : m.Listed) :
  m.IteratesOver ht M
  := by
  refine ⟨m.indexes.filterMap m.slot, mapYields_drop rfl, ?_, ?_⟩
  · rw [List.map_filterMap]
    apply h.nodup.filterMap
    intro i j q hi hj
    obtain ⟨k, hk, rfl⟩ := Option.map_eq_some_iff.mp hi
    obtain ⟨l, hl, hq⟩ := Option.map_eq_some_iff.mp hj
    apply h.distinct i (h.toShape.lt_of_slot hk) j (h.toShape.lt_of_slot hl) k l hk hl
    apply ht.equivalence.symm (Quotient.exact hq)
  · ext q
    obtain ⟨key, rfl⟩ := Quotient.exists_rep q
    rw [FiniteMap.bound, Set.mem_ofPred_eq, Set.mem_ofPred_eq, ← Option.isSome_iff_ne_none,
      h.isSome_iff, List.mem_map]
    constructor
    · rintro ⟨k, hk, hq⟩
      obtain ⟨i, -, hi⟩ := List.mem_filterMap.mp hk
      obtain ⟨v, len, hnode⟩ := Map.slot_eq_some.mp hi
      exact ⟨v, i, h.toShape.lt_of_slot hi, k, len, hnode, Quotient.exact hq⟩
    · rintro ⟨v, i, hi, k, len, hnode, hm⟩
      have hslot := Map.slot_of_taken hnode
      have htaken : (m.node i).isTaken := by
        rw [hnode]
        rfl
      exact ⟨k, List.mem_filterMap.mpr ⟨i, hl i hi htaken, hslot⟩, Quotient.sound hm⟩

/-- A node holds a key. -/
def Map.Bound (t : MapType K) (m : Map K) (key : K) : Prop :=
  ∃ i < m.capacity, (m.slot i).any (t.match · key)

instance (t : MapType K) (m : Map K) (key : K) : Decidable (m.Bound t key) :=
  inferInstanceAs (Decidable (∃ i < m.capacity, (m.slot i).any (t.match · key)))

theorem Map.Bound.binds {key : K} (h : m.Bound t key) :
  ∃ v, m.Binds t key v
  := by
  obtain ⟨i, hi, hany⟩ := h
  obtain ⟨k, hk, hm⟩ := (Option.any_eq_true _ _).mp hany
  obtain ⟨v, len, hnode⟩ := Map.slot_eq_some.mp hk
  exact ⟨v, i, hi, k, len, hnode, hm⟩

/-- What an operation needs for the iteration to stay complete. -/
def MapOp.MeetsIter (t : MapType K) (m : Map K) : MapOp K → Prop
  | .mapAdd key _ => m.size ≥ m.threashold
      ∨ (m.Findable t key ∧ (m.Bound t key ∨ m.LandsListed t key))
  | .mapAddOrErr key _ => m.size ≥ m.threashold
      ∨ (m.Findable t key ∧ (m.Bound t key ∨ m.LandsListed t key))
  | .mapClear => True
  | op => op.Meets t m

instance [DecidableEq K] (t : MapType K) (m : Map K) :
    (op : MapOp K) → Decidable (op.MeetsIter t m)
  | .mapAdd key _ => inferInstanceAs (Decidable (m.size ≥ m.threashold
      ∨ (m.Findable t key ∧ (m.Bound t key ∨ m.LandsListed t key))))
  | .mapAddOrErr key _ => inferInstanceAs (Decidable (m.size ≥ m.threashold
      ∨ (m.Findable t key ∧ (m.Bound t key ∨ m.LandsListed t key))))
  | .mapClear => inferInstanceAs (Decidable True)
  | .mapRemove key => inferInstanceAs (Decidable ((MapOp.mapRemove key).Meets t m))
  | .mapHas key => inferInstanceAs (Decidable ((MapOp.mapHas key).Meets t m))
  | .mapGet key => inferInstanceAs (Decidable ((MapOp.mapGet key).Meets t m))

/-- The conditions of an insertion, while every node in use is indexed. -/
theorem Map.Listed.insertion
    {key : K} (hl : m.Listed)
    (h : m.size ≥ m.threashold
      ∨ (m.Findable t key ∧ (m.Bound t key ∨ m.LandsListed t key))) :
  (if m.size ≥ m.threashold then m.Listed else m.Findable t key)
    ∧ (m.size ≥ m.threashold ∨ ((¬ ∃ v, m.Binds t key v) → m.LandsListed t key))
  := by
  constructor
  · split
    · apply hl
    · rename_i hfull
      apply (h.resolve_left hfull).1
  · rcases h with hfull | ⟨-, hbound | hlands⟩
    · exact .inl hfull
    · right
      intro hno
      cases hno hbound.binds
    · exact .inr fun _ => hlands

/-- While every node in use is indexed, that is enough to answer right too. -/
theorem MapOp.MeetsIter.meets {op : MapOp K} (h : op.MeetsIter t m) (hl : m.Listed) :
  op.Meets t m ∧ op.MeetsListed t m
  := by
  cases op with
  | mapAdd key value => apply hl.insertion h
  | mapAddOrErr key value => apply hl.insertion h
  | mapRemove key => exact ⟨h, trivial⟩
  | mapHas key => exact ⟨h, trivial⟩
  | mapGet key => exact ⟨h, trivial⟩
  | mapClear => exact ⟨hl, trivial⟩

/-- After a run the iteration is complete, and after one more resize it still is. -/
def MapIterates (ht : t.Lawful) (capacity : Word) (ops : List (MapOp K)) : Prop :=
  ∃ m rs, mapRun t capacity ops = some (m, rs) ∧ m.IteratesOver ht (finiteRun ht ops).1
    ∧ ∃ m', mapResize t m = some m' ∧ m'.IteratesOver ht (finiteRun ht ops).1
      ∧ ∀ key v, (finiteRun ht ops).1 ⟦key⟧ = some v ↔ m'.Binds t key v

/-- A run whose operations all meet their conditions keeps the iteration complete. -/
theorem map_iterates
    (ht : t.Lawful) {capacity : Word} (hlo : 2 ≤ capacity.toNat) (hhi : capacity.toNat ≤ 2 ^ 58)
    {ops : List (MapOp K)}
    (hops : Refinement.Guarded (mapStep t) (fun m op => op.MeetsIter t m) (mapNew K capacity)
      ops) :
  MapIterates ht capacity ops
  := by
  have hstep : ∀ (m : Map K) (M : FiniteMap ht.setoid) (op : MapOp K),
      m.Refines ht M ∧ m.Listed → op.MeetsIter t m →
        ∃ m', mapStep t m op = some (m', (M.step op).2)
          ∧ m'.Refines ht (M.step op).1 ∧ m'.Listed := by
    rintro m M op ⟨h, hl⟩ hop
    obtain ⟨hmeets, hlisted⟩ := hop.meets hl
    obtain ⟨m', hs, hr, hl'⟩ := mapStep_refines h hmeets
    exact ⟨m', hs, hr, hl' hl hlisted⟩
  obtain ⟨m, hrun, hrel, hl⟩ := Refinement.run_refines
    (fun m M => m.Refines ht M ∧ m.Listed) hstep
    (mapNew_refines ht hlo (hhi.trans (by decide))) hops
  obtain ⟨m', hresize, hv, hb, hl', -⟩ := hrel.toValid.resize ht hl
  have hrel' := hrel.of_binds hv hb
  exact ⟨m, _, hrun, hrel.iteratesOver hl, m', hresize, hrel'.iteratesOver hl', hrel'.binds⟩

end Map

/-- Two resizes, a deleted node that is used again, and a map that is cleared. -/
def resizingOps : List (MapOp Word) :=
  [.mapAdd 1 10, .mapAdd 2 20, .mapAddOrErr 3 30, .mapRemove 2, .mapAdd 10 40, .mapClear,
    .mapAdd 5 50]

theorem map_iterates_resizingOps : MapIterates mapUintToUintType_lawful 2 resizingOps := by
  apply map_iterates
  · decide
  · decide
  · decide +kernel

/-- The node of a key that is removed is still deleted after the map is cleared, and when the
key is added again its node is not indexed. -/
def clearedOps : List (MapOp Word) := [.mapAdd 1 10, .mapRemove 1, .mapClear, .mapAdd 1 20]

theorem map_iterates_clearedOps :
  ¬ ∀ (K : Type) (t : MapType K) (ht : t.Lawful) (capacity : Word), 2 ≤ capacity.toNat →
    capacity.toNat ≤ 2 ^ 63 → ∀ ops, MapIterates ht capacity ops
  := by
  intro h
  obtain ⟨m, rs, hrun, ⟨ks, hyields, -, hbound⟩, -⟩ := h Word mapUintToUintType
    mapUintToUintType_lawful 8 (by decide) (by decide) clearedOps
  have hindexes : m.indexes = [] := by
    have hempty : (mapRun mapUintToUintType 8 clearedOps).map (fun r => r.1.indexes)
        = some [] := by decide +kernel
    rw [hrun] at hempty
    apply Option.some_inj.mp hempty
  have hmem : (⟦1⟧ : Quotient mapUintToUintType_lawful.setoid)
      ∈ (finiteRun mapUintToUintType_lawful clearedOps).1.bound := by
    show (finiteRun mapUintToUintType_lawful clearedOps).1 ⟦1⟧ ≠ none
    decide +kernel
  rw [← hbound] at hmem
  cases hyields with
  | done _ => cases hmem
  | next hnext _ _ =>
    rw [mapIterNext, hindexes] at hnext
    cases hnext

end Polyc
