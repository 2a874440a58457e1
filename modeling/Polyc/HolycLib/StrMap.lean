import Polyc.HolycLib.HashTableOps
import Polyc.Lib.Refinement

/-!
# `StrMap` as a finite map on strings

A run of operations on a `StrMap` answers as the same operations on the finite map do, as long
as every search ends before a tombstone at which it would stop, the cell of a key that is deleted
is an index into the vector of indexes, no table is resized whose indexes are marked, no
table is iterated whose indexes are not those of the nodes that are not deleted, and on x86-64
no key is the empty string.
-/

namespace Polyc

open Tombstones

/-! ### The keys of a `StrMap` -/

/-- The same on AArch64. -/
def StrMapEnv.arm (env : StrMapEnv) : StrMapEnv := { env with rax := none }

/-- On AArch64 a search for the empty string stops at deleted nodes, whose length is 0. -/
def strMapLaw (env : StrMapEnv) : (strMapType env.arm).Law CStr where
  key n := n.key
  probe key := (key, strLen key)
  weak key := key.val = []
  deleted_eq _ := rfl
  found_eq key n := by
    have hlen := n.keyLen_eq
    have hcmp : strNCmpEq env.arm n.key key (strLen key)
        = decide ((keyBytes n.key).take (strLen key) = key.val.take (strLen key)) := by
      rw [strNCmpEq]
      split
      case isTrue h => simp [h, StrMapEnv.arm]
      case isFalse => rfl
    unfold strMapType
    dsimp only
    rw [hcmp]
    cases hkey : n.key with
    | none =>
      rw [hkey] at hlen
      have hzero : n.keyLen = 0 := hlen
      have hiff : n.keyLen = strLen key ↔ key.val = [] := by
        rw [hzero, strLen, eq_comm, List.length_eq_zero_iff]
      by_cases hnil : key.val = []
      · simp [hiff, hnil, keyBytes]
      · simp [hiff, hnil]
    | some k =>
      rw [hkey] at hlen
      have hk : n.keyLen = k.val.length := hlen
      show _ = decide (k = key)
      by_cases heq : k = key
      · rw [heq] at hk ⊢
        simp [hk, strLen, keyBytes]
      · have hne : ¬ (k.val.length = key.val.length
            ∧ k.val.take key.val.length = key.val.take key.val.length) := by
          rintro ⟨hl, htake⟩
          rw [← hl, List.take_length, hl, List.take_length] at htake
          exact heq (Subtype.ext htake)
        rw [hk, decide_eq_false heq, ← Bool.decide_and, decide_eq_false_iff_not]
        apply hne
  probe_eq n key h := by
    have hlen := n.keyLen_eq
    rw [h] at hlen
    unfold strMapType
    dsimp only
    rw [h, hlen]
    rfl

theorem strMapLaw_read
    (env : StrMapEnv) (n : StrMapNode) (e : CStr × Word)
    (h : (strMapLaw env).cell n = some e) :
  (n.key, n.value) = (some e.1, e.2)
  := by
  obtain ⟨key, hkey, rfl⟩ := Option.map_eq_some_iff.mp h
  have hkey : n.key = some key := hkey
  rw [hkey]
  rfl

/-- An operation on a `StrMap`. -/
def strMapStep (env : StrMapEnv) (m : StrMap) :
    HtOp CStr → Option (StrMap × HtResult (Option CStr))
  | .set key value => (strMapSet env m key value).map (·, .bool true)
  | .delete key => (strMapDelete env m key).map fun r => (r.1, .bool r.2)
  | .has key => (strMapHas env m key).map (m, .bool ·)
  | .get key => (strMapGet env m key).map (m, .pointer ·)
  | .iterate => (htIterate m).map fun l => (m, .nodes (l.map fun n => (n.key, n.value)))

/-- `StrNCmp` compares the key: it is not empty, or the target is AArch64. -/
def StrMapEnv.Compares (env : StrMapEnv) (key : CStr) : Prop := env.rax.isNone ∨ key ≠ emptyCStr

instance (env : StrMapEnv) (key : CStr) : Decidable (env.Compares key) :=
  inferInstanceAs (Decidable (_ ∨ _))

/-- What an operation needs: the key is compared; a search ends, and one that stops at deleted nodes
does so before them; the cell of a key that is deleted is an index into the vector of indexes; a
table that is resized has no marked indexes, and one that is iterated has the indexes of its keys. -/
def StrMap.Meets (env : StrMapEnv) (m : StrMap) : HtOp CStr → Prop
  | .set key _ => env.Compares key ∧ m.MeetsSet (strMapLaw env) key
  | .delete key => env.Compares key ∧ m.MeetsGet (strMapLaw env) key
      ∧ ∀ i < m.capacity, Holds (m.cells (strMapLaw env)) key i → i < m.indexes.length
  | .has key => env.Compares key ∧ m.MeetsGet (strMapLaw env) key
  | .get key => env.Compares key ∧ m.MeetsGet (strMapLaw env) key
  | .iterate => m.MeetsIterate (strMapLaw env)

instance StrMap.decidableMeets (env : StrMapEnv) (m : StrMap) (op : HtOp CStr) :
    Decidable (StrMap.Meets env m op) := by
  cases op <;> unfold StrMap.Meets <;> infer_instance

/-! ### The targets -/

variable {env : StrMapEnv} {m : StrMap} {full : List Nat} {M : CStr → Option Word}

/-- A key that is compared is found as on AArch64. -/
theorem found_arm {p : CStr × Nat} (h : env.rax.isNone ∨ p.2 ≠ 0) :
  (strMapType env).found p = (strMapType env.arm).found p
  := by
  funext cur
  unfold strMapType strNCmpEq
  dsimp only
  rcases h with h | h
  · rw [Option.isNone_iff_eq_none.mp h]
    rfl
  · rw [if_neg h, if_neg h]

theorem StrMapEnv.Compares.length {key : CStr} (h : env.Compares key) :
  env.rax.isNone ∨ strLen key ≠ 0
  := by
  apply h.imp_right
  intro hne hlen
  apply hne (Subtype.ext (List.length_eq_zero_iff.mp hlen))

/-- Where all keys of the table are compared, a resize is that on AArch64. -/
theorem htResize_arm (h : m.Valid (strMapLaw env) full M) (hgood : env.rax.isNone ∨ M emptyCStr = none) :
  htResize (strMapType env) m = htResize (strMapType env.arm) m
  := by
  have hrehash : htRehash (strMapType env) m = htRehash (strMapType env.arm) m := by
    funext new i
    rw [htRehash, htRehash]
    cases hn : m.node i with
    | none => rfl
    | some n =>
      cases hk : n.key with
      | none =>
        have hdeleted : (strMapType env).deleted n = true := by simp [strMapType, hk]
        have hdeleted' : (strMapType env.arm).deleted n = true := hdeleted
        simp only [hdeleted, hdeleted', if_true]
      | some k =>
        have hM : M k = some n.value := by
          apply (h.table.binds k _).mpr
          use i
          constructor
          · rw [← h.length]
            by_contra hlt
            rw [HtMap.node, List.getD_eq_default _ _ (not_lt.mp hlt)] at hn
            cases hn
          · rw [HtMap.cells, hn, Option.map_some, HtType.Law.cell]
            have hkey : (strMapLaw env).key n = some k := hk
            rw [hkey]
            rfl
        have hcmp : env.Compares k := by
          apply hgood.imp_right
          rintro hnone rfl
          rw [hM] at hnone
          cases hnone
        have hfound : (strMapType env).found ((strMapType env).probe n)
            = (strMapType env.arm).found ((strMapType env).probe n) := by
          apply found_arm
          have hlen := n.keyLen_eq
          rw [hk] at hlen
          apply hcmp.length.imp_right
          intro hne
          apply hlen.trans_ne hne
        simp only [htGetNextIdx, hfound]
        rfl
  rw [htResize, htResize, hrehash]

/-- The key of an operation is compared. -/
def StrMapEnv.ComparesOp (env : StrMapEnv) : HtOp CStr → Prop
  | .set key _ | .delete key | .has key | .get key => env.Compares key
  | .iterate => True

/-- Where the keys of the table and of the operation are compared, the step is that on AArch64. -/
theorem strMapStep_arm {op : HtOp CStr} (h : m.Valid (strMapLaw env) full M)
    (hgood : env.rax.isNone ∨ M emptyCStr = none) (hop : env.ComparesOp op) :
  strMapStep env m op = strMapStep env.arm m op
  := by
  have hfound {key : CStr} (hcmp : env.Compares key) := found_arm (p := (key, strLen key)) hcmp.length
  cases op with
  | set key value =>
    have hset : strMapSet env m key value = strMapSet env.arm m key value := by
      simp only [strMapSet, htSet, htReserve, htResize_arm h hgood, htGetNextIdx, hfound hop]
      rfl
    rw [strMapStep, hset]
    rfl
  | delete key =>
    have hdelete : strMapDelete env m key = strMapDelete env.arm m key := by
      simp only [strMapDelete, hfound hop]
      rfl
    rw [strMapStep, hdelete]
    rfl
  | has key =>
    have hhas : strMapHas env m key = strMapHas env.arm m key := by
      simp only [strMapHas, htHas, htGetIdx, hfound hop]
      rfl
    rw [strMapStep, hhas]
    rfl
  | get key =>
    have hget : strMapGet env m key = strMapGet env.arm m key := by
      simp only [strMapGet, htGet, htGetIdx, hfound hop]
      rfl
    rw [strMapStep, hget]
    rfl
  | iterate => rfl

/-! ### Steps -/

/-- Deleting a key. -/
theorem strMapDelete_refines
    {key : CStr} (h : m.Valid (strMapLaw env) full M)
    (hmeets : m.MeetsGet (strMapLaw env) key)
    (hidx : ∀ i < m.capacity, Holds (m.cells (strMapLaw env)) key i → i < m.indexes.length) :
  ∃ m', strMapDelete env.arm m key = some (m', true)
    ∧ m'.Valid (strMapLaw env) full (Function.update M key none)
  := by
  obtain ⟨i, hi, hsearch, hcase⟩ := h.search_found hmeets.1 hmeets.2
  have hsearch : m.search (env.arm.strHash key).toNat ((strMapType env.arm).found (key, strLen key))
      = some i := hsearch
  rcases hcase with ⟨hholds, hsome⟩ | ⟨hno, hnone⟩
  · obtain ⟨n, hn⟩ := Option.isSome_iff_exists.mp hsome
    refine ⟨_, ?_, h.delete hi hholds (n := ⟨none, 0, 0, rfl⟩) rfl (HtMap.marked_set h.marked i)⟩
    rw [strMapDelete, hsearch, Option.bind_some, hn]
    dsimp only
    rw [if_pos (hidx i hi hholds)]
  · have hM : M key = none := by
      by_contra hne
      exact hno (h.table.bound_iff.mpr hne)
    have hsame : Function.update M key none = M := by
      rw [Function.update_eq_self_iff, hM]
    refine ⟨m, ?_, ?_⟩
    · rw [strMapDelete, hsearch, Option.bind_some, hnone]
    · rw [hsame]
      apply h

/-- An operation that meets its condition is one on the finite map. -/
theorem strMapStep_arm_refines
    {op : HtOp CStr} (h : m.Valid (strMapLaw env) full M) (hop : StrMap.Meets env m op) :
  ∃ m' r, strMapStep env.arm m op = some (m', r) ∧ op.Right some (fun _ => true) M r
    ∧ ∃ full', m'.Valid (strMapLaw env) full' (op.apply M)
  := by
  cases op with
  | set key value =>
    obtain ⟨m', full', hset, hv, -⟩ := h.set (n := strMapNodeNew key value) (v := value) hop.2 rfl
    have hset : strMapSet env.arm m key value = some m' := hset
    refine ⟨m', .bool true, ?_, rfl, full', hv⟩
    rw [strMapStep, hset]
    rfl
  | delete key =>
    obtain ⟨m', hdel, hv⟩ := strMapDelete_refines h hop.2.1 hop.2.2
    refine ⟨m', _, ?_, rfl, full, hv⟩
    rw [strMapStep, hdel]
    rfl
  | has key =>
    have hhas : strMapHas env.arm m key = some (M key).isSome := h.has hop.2
    refine ⟨m, _, ?_, rfl, full, h⟩
    rw [strMapStep, hhas]
    rfl
  | get key =>
    have hget : strMapGet env.arm m key = some ((M key).getD 0) := h.get hop.2
    refine ⟨m, _, ?_, rfl, full, h⟩
    rw [strMapStep, hget]
    rfl
  | iterate =>
    obtain ⟨nodes, bindings, hiter, hcells, hnodup, hmem⟩ := h.iterate hop
    refine ⟨m, _, ?_, ⟨bindings, rfl, hnodup, hmem⟩, full, h⟩
    rw [strMapStep, hiter, Option.map_some, map_nodes (strMapLaw_read env) hcells]

/-- The same on either target. -/
theorem strMapStep_refines
    {op : HtOp CStr} (h : m.Valid (strMapLaw env) full M)
    (hgood : env.rax.isNone ∨ M emptyCStr = none) (hop : StrMap.Meets env m op) :
  ∃ m' r, strMapStep env m op = some (m', r) ∧ op.Right some (fun _ => true) M r
    ∧ (∃ full', m'.Valid (strMapLaw env) full' (op.apply M))
    ∧ (env.rax.isNone ∨ op.apply M emptyCStr = none)
  := by
  have hcmp : env.ComparesOp op := by
    cases op with
    | iterate => trivial
    | set | delete | has | get => apply hop.1
  obtain ⟨m', r, hstep, hright, hvalid⟩ := strMapStep_arm_refines h hop
  rw [strMapStep_arm h hgood hcmp]
  refine ⟨m', r, hstep, hright, hvalid, ?_⟩
  rcases hgood with hnone | hM
  · use .inl hnone
  · cases op with
    | set key value =>
      apply hcmp.imp_right
      intro hne
      apply (Function.update_of_ne hne.symm _ _).trans hM
    | delete key =>
      apply hcmp.imp_right
      intro hne
      apply (Function.update_of_ne hne.symm _ _).trans hM
    | has | get | iterate => use .inr hM

/-! ### Runs -/

/-- Every operation of a run on a new `StrMap` succeeds and answers as on the finite map, and the
size is always the number of keys. -/
def StrMapRefines (env : StrMapEnv) (e : Nat) (ops : List (HtOp CStr)) : Prop :=
  Refinement.Follows (strMapStep env) HtOp.apply
    (fun M op => op.Right some (fun _ => true) M) HtMap.Counts
    (strMapNew (BitVec.ofNat 64 (2 ^ e))) (fun _ => none) ops

/-- A run whose operations all meet their conditions refines the finite map. -/
theorem strMap_refines
    (env : StrMapEnv) {e : Nat} (he : e ≤ 60) {ops : List (HtOp CStr)}
    (hops : Refinement.Guarded (strMapStep env) (StrMap.Meets env)
      (strMapNew (BitVec.ofNat 64 (2 ^ e))) ops) :
  StrMapRefines env e ops
  := by
  apply Refinement.follows_of_rel
    (fun m M => (∃ full, m.Valid (strMapLaw env) full M) ∧ (env.rax.isNone ∨ M emptyCStr = none)) _ _ _ hops
  · rintro m M ⟨⟨full, h⟩, -⟩
    apply h.size
  · rintro m M op ⟨⟨full, h⟩, hgood⟩ hop
    apply strMapStep_refines h hgood hop
  · exact ⟨⟨[], HtMap.valid_htNew (strMapLaw env) he⟩, .inr rfl⟩

/-- The sum of the bytes, on AArch64. -/
def sumEnv : StrMapEnv := ⟨fun s => (s.val.map fun b => b.setWidth 64).sum, none⟩

theorem zero_notMem_letter (i : Fin 26) :
  (0 : Bytes.Byte) ∉ [BitVec.ofNat 8 (97 + i.val)]
  := by
  rw [List.mem_singleton]
  revert i
  decide

/-- A string of one letter, or none. -/
def letter (o : Option (Fin 26)) : CStr :=
  o.elim emptyCStr fun i => ⟨[BitVec.ofNat 8 (97 + i.val)], zero_notMem_letter i⟩

/-- Strings of which the first is deleted, with lookups, a resize and iterations. -/
def strMapOps : List (HtOp CStr) :=
  [.set (letter none) 10, .set (letter (some 6)) 20, .iterate, .get (letter none),
    .set (letter (some 7)) 30, .set (letter (some 14)) 40, .has (letter (some 6)),
    .delete (letter none), .has (letter (some 14)), .get (letter (some 7))]

theorem strMap_refines_strMapOps : StrMapRefines sumEnv 3 strMapOps := by
  apply strMap_refines
  · decide
  · decide +kernel

/-- Of two keys the first is deleted, and the map is iterated. -/
def strMapLoses : List (HtOp CStr) :=
  [.set (letter (some 0)) 10, .set (letter (some 1)) 20, .delete (letter (some 0)), .iterate]

/-- The index of the key that is left is marked, and the deleted node is given. -/
theorem strMap_loses :
  ¬ ∀ (env : StrMapEnv), ∀ e < 64, ∀ ops, StrMapRefines env e ops
  := by
  intro h
  obtain ⟨-, m₁, r₁, h₁, -, -, m₂, r₂, h₂, -, -, m₃, r₃, h₃, -, -, m₄, r₄, h₄, hright, -⟩ :=
    h sumEnv 3 (by decide) strMapLoses
  have hrun : ((strMapStep sumEnv (strMapNew (BitVec.ofNat 64 (2 ^ 3)))
      (.set (letter (some 0)) 10)).bind fun r =>
        (strMapStep sumEnv r.1 (.set (letter (some 1)) 20)).bind fun r =>
          (strMapStep sumEnv r.1 (.delete (letter (some 0)))).bind fun r =>
            strMapStep sumEnv r.1 .iterate).map (fun r => r.2) = some (.nodes [(none, 0)]) := by
    decide +kernel
  rw [h₁, Option.bind_some, h₂, Option.bind_some, h₃, Option.bind_some, h₄, Option.map_some,
    Option.some_inj] at hrun
  obtain ⟨l, hl, -⟩ := hright
  have hnodes : r₄ = .nodes [(none, 0)] := hrun
  rw [hnodes] at hl
  have hmap := HtResult.nodes.inj hl
  cases l with
  | nil => cases hmap
  | cons e l =>
    have hnone := congrArg Prod.fst (List.cons.inj hmap).1
    cases hnone

end Polyc
