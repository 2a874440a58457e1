import Polyc.HolycLib.HashTableOps
import Polyc.Lib.Refinement

/-!
# `IntMap` as a finite map

A run of operations on an `IntMap` answers as the same operations on the finite map do, as long
as every search ends, no insertion comes to a tombstone before its key or a vacancy, and no
table with tombstones is iterated.
-/

namespace Polyc

open Tombstones

/-! ### The keys of an `IntMap` -/

/-- The keys other than `HT_DELETED`. -/
abbrev IntMapKey := {key : Word // key ≠ htDeletedKey}

/-- A search for a key passes all deleted nodes. -/
def intMapLaw : intMapType.Law IntMapKey where
  key n := if h : n.key ≠ htDeletedKey then some ⟨n.key, h⟩ else none
  probe key := key
  weak _ := false
  deleted_eq n := by
    by_cases h : n.key = htDeletedKey
    · simp [intMapType, h]
    · simp [intMapType, h]
  found_eq key n := by
    by_cases h : n.key = htDeletedKey
    · have hne : htDeletedKey ≠ key.val := key.property.symm
      simp [intMapType, h, hne]
    · simp [intMapType, h, Subtype.ext_iff]
  probe_eq n key h := by
    split at h
    · cases h
      rfl
    · cases h

theorem intMapLaw_read (n : IntMapNode) (e : IntMapKey × Word) (h : intMapLaw.cell n = some e) :
  (n.key, n.value) = (e.1.val, e.2)
  := by
  obtain ⟨key, hkey, rfl⟩ := Option.map_eq_some_iff.mp h
  have hval : intMapType.probe n = key.val := intMapLaw.probe_eq n key hkey
  have hprobe : n.key = key.val := hval
  rw [hprobe]
  rfl

/-- An operation on an `IntMap`. -/
def intMapStep (m : IntMap) : HtOp IntMapKey → Option (IntMap × HtResult Word)
  | .set key value => (intMapSet m key value).map (·, .bool true)
  | .delete key => (intMapDelete m key).map fun r => (r.1, .bool r.2)
  | .has key => (intMapHas m key).map (m, .bool ·)
  | .get key => (intMapGet m key).map (m, .pointer ·)
  | .iterate => (htIterate m).map fun l => (m, .nodes (l.map fun n => (n.key, n.value)))

/-- What an operation needs: a search ends at its key or at a vacancy; an insertion that does not
resize does so before a tombstone; an iteration is of a table without tombstones. -/
def IntMap.Meets (m : IntMap) : HtOp IntMapKey → Prop
  | .set key _ =>
    if m.size ≥ m.threashold then m.capacity ≤ 2 ^ 59
    else Ends m.capacity (m.cells intMapLaw) key
      ∧ Clear m.capacity intMapLaw.home (m.cells intMapLaw) key
  | .delete key => Ends m.capacity (m.cells intMapLaw) key
  | .has key => Ends m.capacity (m.cells intMapLaw) key
  | .get key => Ends m.capacity (m.cells intMapLaw) key
  | .iterate => ∀ i < m.capacity, m.cells intMapLaw i ≠ some none

instance IntMap.decidableMeets (m : IntMap) (op : HtOp IntMapKey) : Decidable (m.Meets op) := by
  cases op <;> unfold IntMap.Meets <;> infer_instance

/-! ### Steps -/

section Steps

variable {m : IntMap} {M : IntMapKey → Option Word}

/-- Deleting a key. -/
theorem intMapDelete_refines
    {key : IntMapKey} (h : m.Valid intMapLaw m.indexes M)
    (hends : Ends m.capacity (m.cells intMapLaw) key) :
  ∃ m', intMapDelete m key = some (m', (M key).isSome)
    ∧ m'.Valid intMapLaw m'.indexes (Function.update M key none)
  := by
  have hweak : intMapLaw.weak key = true → Clear m.capacity intMapLaw.home (m.cells intMapLaw) key :=
    fun hfalse => by cases hfalse
  rcases h.getIdx hends hweak with ⟨i, hi, hget, hholds⟩ | ⟨hget, hno⟩
  · have hget : intMapGetIdx m key = some i := hget
    obtain ⟨v, hv⟩ := holds_iff.mp hholds
    obtain ⟨n, hn, -⟩ := Option.map_eq_some_iff.mp hv
    have hbound : (M key).isSome :=
      Option.isSome_iff_ne_none.mpr (h.table.bound_iff.mp ⟨i, hi, hholds⟩)
    refine ⟨m.delete i { n with key := htDeletedKey }, ?_, ?_⟩
    · rw [intMapDelete, hget, Option.bind_some, if_pos (h.toShape.ne_htDeleted hi), hn, hbound]
      rfl
    · have hnone : intMapLaw.key { n with key := htDeletedKey } = none := by simp [intMapLaw]
      apply h.delete hi hholds hnone h.marked
  · have hget : intMapGetIdx m key = some htDeleted := hget
    have hM : M key = none := by
      by_contra hne
      exact hno (h.table.bound_iff.mpr hne)
    have hsame : Function.update M key none = M := by
      rw [Function.update_eq_self_iff, hM]
    refine ⟨m, ?_, ?_⟩
    · rw [intMapDelete, hget, hM]
      rfl
    · rw [hsame]
      apply h

/-- An operation that meets its condition is one on the finite map. -/
theorem intMapStep_refines
    {op : HtOp IntMapKey} (h : m.Valid intMapLaw m.indexes M) (hop : m.Meets op) :
  ∃ m' r, intMapStep m op = some (m', r) ∧ op.Right Subtype.val id M r
    ∧ m'.Valid intMapLaw m'.indexes (op.apply M)
  := by
  cases op with
  | set key value =>
    have hmeets : m.MeetsSet intMapLaw key := by
      unfold HtMap.MeetsSet
      rw [IntMap.Meets] at hop
      split
      · rename_i hsize
        rw [if_pos hsize] at hop
        refine ⟨hop, ?_⟩
        intro hmem
        apply h.toShape.ne_htDeleted ((h.listed _).mp hmem).1 rfl
      · rename_i hsize
        rwa [if_neg hsize] at hop
    have hcell : intMapLaw.cell ⟨key, value⟩ = some (key, value) := by
      rw [HtType.Law.cell, intMapLaw]
      dsimp only
      rw [dif_pos key.property]
      rfl
    obtain ⟨m', full', hset, hv, hfull⟩ := h.set hmeets hcell
    refine ⟨m', .bool true, ?_, rfl, ?_⟩
    · have hset : intMapSet m key value = some m' := hset
      rw [intMapStep, hset]
      rfl
    · rw [hfull rfl]
      apply hv
  | delete key =>
    obtain ⟨m', hdel, hv⟩ := intMapDelete_refines h hop
    refine ⟨m', _, ?_, rfl, hv⟩
    rw [intMapStep, hdel]
    rfl
  | has key =>
    have hhas : intMapHas m key = some (M key).isSome :=
      h.has ⟨hop, fun hfalse => by cases hfalse⟩
    refine ⟨m, _, ?_, rfl, h⟩
    rw [intMapStep, hhas]
    rfl
  | get key =>
    have hget : intMapGet m key = some ((M key).getD 0) :=
      h.get ⟨hop, fun hfalse => by cases hfalse⟩
    refine ⟨m, _, ?_, rfl, h⟩
    rw [intMapStep, hget]
    rfl
  | iterate =>
    have hmeets : m.MeetsIterate intMapLaw := by
      constructor
      · intro i hi _
        obtain ⟨hlt, hne⟩ := (h.listed i).mp hi
        rw [Ne, ← HtMap.cells_eq_none (L := intMapLaw)] at hne
        rcases hcell : m.cells intMapLaw i with _ | _ | e
        · cases hne hcell
        · cases hop i hlt hcell
        · rfl
      · intro i hi hlive
        apply (h.listed i).mpr ⟨hi, ?_⟩
        rw [Ne, ← HtMap.cells_eq_none (L := intMapLaw)]
        intro hnone
        rw [hnone] at hlive
        cases hlive
    obtain ⟨nodes, bindings, hiter, hcells, hnodup, hmem⟩ := h.iterate hmeets
    refine ⟨m, _, ?_, ⟨bindings, rfl, hnodup, hmem⟩, h⟩
    rw [intMapStep, hiter, Option.map_some, map_nodes intMapLaw_read hcells]

end Steps

/-! ### Runs -/

/-- Every operation of a run on a new `IntMap` succeeds and answers as on the finite map, and the
size is always the number of keys. -/
def IntMapRefines (e : Nat) (ops : List (HtOp IntMapKey)) : Prop :=
  Refinement.Follows intMapStep HtOp.apply (fun M op => op.Right Subtype.val id M) HtMap.Counts
    (intMapNew (BitVec.ofNat 64 (2 ^ e))) (fun _ => none) ops

/-- A run whose operations all meet their conditions refines the finite map. -/
theorem intMap_refines
    {e : Nat} (he : e ≤ 60) {ops : List (HtOp IntMapKey)}
    (hops : Refinement.Guarded intMapStep IntMap.Meets (intMapNew (BitVec.ofNat 64 (2 ^ e))) ops) :
  IntMapRefines e ops
  := by
  apply Refinement.follows_of_rel (fun m M => m.Valid intMapLaw m.indexes M) _ _ _ hops
  · intro m M h
    apply h.size
  · intro m M op h hop
    apply intMapStep_refines h hop
  · apply HtMap.valid_htNew intMapLaw he

/-- Colliding keys, resizes, deletions and an iteration of the table after a resize. -/
def intMapOps : List (HtOp IntMapKey) :=
  [.set ⟨1, by decide⟩ 10, .set ⟨5, by decide⟩ 20, .set ⟨9, by decide⟩ 30, .delete ⟨9, by decide⟩,
    .get ⟨5, by decide⟩, .has ⟨9, by decide⟩, .set ⟨6, by decide⟩ 50,
    .set ⟨3, by decide⟩ 60, .set ⟨4, by decide⟩ 60, .iterate]

theorem intMap_refines_intMapOps : IntMapRefines 2 intMapOps := by
  apply intMap_refines
  · decide
  · decide +kernel

/-- A key. -/
def intMapOne : IntMapKey := ⟨1, by decide⟩

/-- A key is deleted and set again. -/
def intMapReuse : List (HtOp IntMapKey) :=
  [.set intMapOne 10, .delete intMapOne, .set intMapOne 20]

/-- The key comes to the tombstone of its own, and is not counted. -/
theorem intMap_miscounts : ¬ ∀ e < 64, ∀ ops, IntMapRefines e ops := by
  intro h
  obtain ⟨-, m₁, r₁, h₁, -, -, m₂, r₂, h₂, -, -, m₃, r₃, h₃, -, hcounts⟩ :=
    h 3 (by decide) intMapReuse
  have hM : bound ((HtOp.set intMapOne 20).apply ((HtOp.delete intMapOne).apply
      ((HtOp.set intMapOne 10).apply fun _ => none))) = {intMapOne} := by
    ext key
    simp [bound, HtOp.apply, Function.update_apply]
  have hrun : ((intMapStep (intMapNew (BitVec.ofNat 64 (2 ^ 3))) (.set intMapOne 10)).bind
      fun r => (intMapStep r.1 (.delete intMapOne)).bind fun r =>
        intMapStep r.1 (.set intMapOne 20)).map (fun r => r.1.size) = some 0 := by
    decide +kernel
  rw [h₁, Option.bind_some, h₂, Option.bind_some, h₃, Option.map_some, Option.some_inj] at hrun
  have hsize : m₃.size = _ := hcounts
  rw [hM, Set.ncard_singleton, hrun] at hsize
  cases hsize

end Polyc
