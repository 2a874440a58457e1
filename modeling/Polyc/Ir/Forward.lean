import Mathlib.Data.List.Nodup
import Mathlib.Data.List.Perm.Basic
import Mathlib.Logic.Relation
import Polyc.Backend.RegPool
import Polyc.Ir.Semantics

/-!
# Store-to-read forwarding

The pass `irForwardStoreToReads` walks each block with two parallel arrays, here one list
of pairs in array order: the slots that were stored to and the values they hold.  Every
operand that names a slot of the list is replaced by the recorded source.
-/

namespace Polyc

/-! ### Rewriting the operands of one instruction -/

/-- An entry of the arrays `slots` and `sources`. -/
structure Pair where
  slot : IrValue
  source : IrValue
  deriving DecidableEq

/-- `irValMatchesSlot`. -/
def irValMatchesSlot (v : Option IrValue) (slot : IrValue) : Bool :=
  match v with
  | none => false
  | some v => v.kind = slot.kind ∧ v.varId = slot.varId

/-- The test `irValMatchesSlot(v, slot) && v != source`. -/
def Pair.rewrites (p : Pair) (v : Option IrValue) : Bool :=
  irValMatchesSlot v p.slot && v ≠ some p.source

/-- Replace one entry of a vector of operands. -/
def Pair.rewrite (p : Pair) (v : IrValue) : IrValue :=
  if p.rewrites (some v) then p.source else v

/-- The replacement of `r1`. -/
def rewriteR1 (pool : Option IrRegPool) (p : Pair) (I : IrInstr) : IrInstr × Bool :=
  if !irLocClobberedBy pool I p.source .beforeR1 && p.rewrites I.r1 then
    ({ I with r1 := some p.source }, true)
  else (I, false)

/-- The replacement of `r2`. -/
def rewriteR2 (pool : Option IrRegPool) (p : Pair) (I : IrInstr) : IrInstr × Bool :=
  if !irLocClobberedBy pool I p.source .beforeR2 && p.rewrites I.r2 then
    ({ I with r2 := some p.source }, true)
  else (I, false)

/-- The replacement of the operand that `IR_BR` and `IR_RET` carry in `dst`. -/
def rewriteDst (p : Pair) (I : IrInstr) : IrInstr × Bool :=
  if (I.op = .br ∨ I.op = .ret) ∧ p.rewrites I.dst then
    ({ I with dst := some p.source }, true)
  else (I, false)

/-- The replacement of call arguments, by constants only. -/
def rewriteArgs (p : Pair) (I : IrInstr) : IrInstr × Bool :=
  if I.op = .call ∧ irIsConstInt (some p.source) ∧ I.r1.isSome ∧
      I.args.any fun a => p.rewrites (some a) then
    ({ I with args := I.args.map p.rewrite }, true)
  else (I, false)

/-- The replacement of the incoming values of a phi. -/
def rewritePhis (pool : Option IrRegPool) (p : Pair) (I : IrInstr) : IrInstr × Bool :=
  if I.op = .phi ∧ !irLocIsScratchClobbered pool p.source ∧
      I.phiPairs.any fun q => p.rewrites (some q.irValue) then
    ({ I with phiPairs := I.phiPairs.map fun q => { q with irValue := p.rewrite q.irValue } },
      true)
  else (I, false)

/-- `irRewriteOperands`: the instruction with its operands replaced, and whether any was. -/
def irRewriteOperands (pool : Option IrRegPool) (p : Pair) (I : IrInstr) : IrInstr × Bool :=
  if I.op = .lea ∨ I.op = .gep ∨ I.op = .load then (I, false)
  else
    let s₁ := rewriteR1 pool p I
    let s₂ := rewriteR2 pool p s₁.1
    let s₃ := rewriteDst p s₂.1
    let s₄ := rewriteArgs p s₃.1
    let s₅ := rewritePhis pool p s₄.1
    (s₅.1, s₁.2 || s₂.2 || s₃.2 || s₄.2 || s₅.2)

/-- The loop over the recorded pairs, in array order, with the number of changes. -/
def rewriteAll (pool : Option IrRegPool) : List Pair → IrInstr → IrInstr × Nat
  | [], I => (I, 0)
  | p :: ps, I =>
    let r := irRewriteOperands pool p I
    let rest := rewriteAll pool ps r.1
    (rest.1, r.2.toNat + rest.2)

/-! ### The recorded pairs -/

/-- The tail of an array after an entry before it was overwritten by the last one. -/
def lastToFront (ps : List Pair) : List Pair :=
  match ps.getLast? with
  | none => []
  | some p => p :: ps.dropLast

/-- Remove the first pair whose slot `v` names, moving the last pair into its place. -/
def removeSlot (v : Option IrValue) : List Pair → List Pair
  | [] => []
  | p :: ps => if irValMatchesSlot v p.slot then lastToFront ps else p :: removeSlot v ps

/-- Remove all pairs that satisfy `drop`, moving the last pair into each gap; the first
argument bounds the number of rounds. -/
def removeWhere (drop : Pair → Bool) : Nat → List Pair → List Pair
  | 0, ps => ps
  | _ + 1, [] => []
  | n + 1, p :: ps =>
    if drop p then removeWhere drop n (lastToFront ps) else p :: removeWhere drop n ps

/-- Record that slot `d` holds `v`: in place when the slot is recorded, else at the end. -/
def recordStore (d v : IrValue) : List Pair → List Pair
  | [] => [⟨d, v⟩]
  | p :: ps =>
    if irValMatchesSlot (some d) p.slot then { p with source := v } :: ps
    else p :: recordStore d v ps

/-- The opcodes that clear the arrays. -/
def IrOp.killsAll (op : IrOp) : Bool := op = .call ∨ op = .storeDeref ∨ op = .rmwDeref

/-- The opcodes that overwrite no scratch register. -/
def IrOp.sparesScratch (op : IrOp) : Bool :=
  op = .nop ∨ op = .jmp ∨ op = .phi ∨ op = .label ∨ op = .alloca

/-- Drop the pairs whose source register `I` overwrites. -/
def dropScratch (pool : Option IrRegPool) (I : IrInstr) (ps : List Pair) : List Pair :=
  if I.op.sparesScratch then ps
  else removeWhere (fun p => irLocClobberedBy pool I p.source .after) ps.length ps

/-- The redefinition kill: an instruction other than a store removes its destination. -/
def dropRedefined (I : IrInstr) (ps : List Pair) : List Pair :=
  if I.op ≠ .store ∧ I.dst.isSome then removeSlot I.dst ps else ps

/-- The update by a store: an 8-byte value is recorded, any other forgets the slot. -/
def updateStore (I : IrInstr) (ps : List Pair) : List Pair :=
  match I.op, I.dst, I.r1 with
  | .store, some d, some v =>
    if irValueByteSize (some v) = 8 then recordStore d v ps else removeSlot (some d) ps
  | _, _, _ => ps

/-- The pairs after an instruction, whose operands are already rewritten. -/
def recordPairs (pool : Option IrRegPool) (ps : List Pair) (I : IrInstr) : List Pair :=
  if I.op.killsAll then []
  else updateStore I (dropRedefined I (dropScratch pool I ps))

/-! ### The pass -/

/-- One round of the walk over a block. -/
def forwardInstr (pool : Option IrRegPool) (ps : List Pair) (I : IrInstr) : IrInstr × Nat :=
  if I.op = .nop then (I, 0) else rewriteAll pool ps I

/-- The pairs after one round, from the rewritten instruction. -/
def forwardPairs (pool : Option IrRegPool) (ps : List Pair) (I : IrInstr) : List Pair :=
  if I.op = .nop then ps else recordPairs pool ps I

/-- The walk over the instructions of a block. -/
def forwardInstrs (pool : Option IrRegPool) : List Pair → List IrInstr → List IrInstr × Nat
  | _, [] => ([], 0)
  | ps, I :: l =>
    let r := forwardInstr pool ps I
    let rest := forwardInstrs pool (forwardPairs pool ps r.1) l
    (r.1 :: rest.1, r.2 + rest.2)

/-- The walk over a block, from empty arrays. -/
def forwardBlock (pool : Option IrRegPool) (b : IrBlock) : IrBlock × Nat :=
  let r := forwardInstrs pool [] b.instructions
  ({ b with instructions := r.1 }, r.2)

/-- `irForwardStoreToReads`. -/
def irForwardStoreToReads (pool : Option IrRegPool) (fn : IrFunction) : IrFunction × Nat :=
  ({ fn with blocks := fn.blocks.map fun b => (forwardBlock pool b).1 },
    (fn.blocks.map fun b => (forwardBlock pool b).2).sum)

/-! ### The arrays -/

/-- A value matches a slot when they stand for the same variable. -/
theorem irValMatchesSlot_iff {v slot : IrValue} :
  irValMatchesSlot (some v) slot ↔ v.key = slot.key
  := by
  simp [irValMatchesSlot, IrValue.key]

/-- The variables of the recorded slots. -/
def slotKeys (ps : List Pair) : List VarKey := ps.map (·.slot.key)

theorem slotKeys_cons (p : Pair) (ps : List Pair) :
  slotKeys (p :: ps) = p.slot.key :: slotKeys ps
  := rfl

theorem mem_slotKeys {p : Pair} {ps : List Pair} (h : p ∈ ps) :
  p.slot.key ∈ slotKeys ps
  := List.mem_map_of_mem h

/-- Moving the last entry to the front reorders. -/
theorem lastToFront_perm (ps : List Pair) :
  (lastToFront ps).Perm ps
  := by
  rcases List.eq_nil_or_concat ps with rfl | ⟨qs, q, rfl⟩
  · exact List.Perm.refl _
  · simp only [lastToFront, List.concat_eq_append, List.getLast?_concat, List.dropLast_concat]
    exact (List.perm_append_singleton q qs).symm

/-- Removing a slot erases its first pair, up to order. -/
theorem removeSlot_perm (v : Option IrValue) (ps : List Pair) :
  (removeSlot v ps).Perm (ps.eraseP fun p => irValMatchesSlot v p.slot)
  := by
  induction ps with
  | nil => exact List.Perm.refl _
  | cons p ps ih =>
    rw [removeSlot]
    by_cases h : irValMatchesSlot v p.slot
    · rw [if_pos h, List.eraseP_cons, h, cond_true]
      apply lastToFront_perm
    · rw [if_neg h, List.eraseP_cons, Bool.eq_false_iff.mpr h, cond_false]
      exact ih.cons p

/-- Removing by a predicate filters, up to order. -/
theorem removeWhere_perm (drop : Pair → Bool) (n : Nat) (ps : List Pair) (h : ps.length ≤ n) :
  (removeWhere drop n ps).Perm (ps.filter fun p => !drop p)
  := by
  induction n generalizing ps with
  | zero =>
    rw [List.length_eq_zero_iff.mp (Nat.le_zero.mp h)]
    exact List.Perm.refl _
  | succ n ih =>
    cases ps with
    | nil => exact List.Perm.refl _
    | cons p ps =>
      have hlen : ps.length ≤ n := by simpa using h
      by_cases hp : drop p
      · have hl : (lastToFront ps).length ≤ n := by
          rw [(lastToFront_perm ps).length_eq]
          exact hlen
        simp only [removeWhere, hp, if_true, List.filter_cons, Bool.not_true, Bool.false_eq_true,
          if_false]
        exact (ih _ hl).trans ((lastToFront_perm ps).filter _)
      · simp only [removeWhere, hp, List.filter_cons, Bool.not_false, if_true,
          Bool.false_eq_true, if_false]
        exact (ih _ hlen).cons p

/-- Recording a store keeps the slots, or adds the new one. -/
theorem slotKeys_recordStore (d v : IrValue) (ps : List Pair) :
  slotKeys (recordStore d v ps)
    = if d.key ∈ slotKeys ps then slotKeys ps else slotKeys ps ++ [d.key]
  := by
  induction ps with
  | nil => rfl
  | cons p ps ih =>
    rw [recordStore]
    by_cases h : irValMatchesSlot (some d) p.slot
    · have hk := irValMatchesSlot_iff.mp h
      rw [if_pos h, slotKeys_cons, slotKeys_cons, if_pos (by rw [hk]; exact List.mem_cons_self)]
    · have hk : d.key ≠ p.slot.key := fun e => h (irValMatchesSlot_iff.mpr e)
      rw [if_neg h, slotKeys_cons, slotKeys_cons, ih]
      by_cases hd : d.key ∈ slotKeys ps
      · rw [if_pos hd, if_pos (List.mem_cons_of_mem _ hd)]
      · rw [if_neg hd, if_neg (by simp [hk, hd]), List.cons_append]

/-- A pair after recording a store is the new one, or an old one of another slot. -/
theorem mem_recordStore
    {d v : IrValue} {ps : List Pair} (hn : (slotKeys ps).Nodup) {p : Pair}
    (h : p ∈ recordStore d v ps) :
  (p.slot.key = d.key ∧ p.source = v) ∨ (p ∈ ps ∧ p.slot.key ≠ d.key)
  := by
  induction ps with
  | nil =>
    rw [List.mem_singleton.mp h]
    exact .inl ⟨rfl, rfl⟩
  | cons q ps ih =>
    obtain ⟨hq, hps⟩ := List.nodup_cons.mp hn
    rw [recordStore] at h
    by_cases hm : irValMatchesSlot (some d) q.slot
    · have hk := irValMatchesSlot_iff.mp hm
      rw [if_pos hm] at h
      obtain rfl | h := List.mem_cons.mp h
      · exact .inl ⟨hk.symm, rfl⟩
      · refine .inr ⟨List.mem_cons_of_mem q h, ?_⟩
        intro e
        apply hq
        show q.slot.key ∈ slotKeys ps
        rw [← hk, ← e]
        exact mem_slotKeys h
    · rw [if_neg hm] at h
      obtain rfl | h := List.mem_cons.mp h
      · refine .inr ⟨List.mem_cons_self, ?_⟩
        intro e
        exact hm (irValMatchesSlot_iff.mpr e.symm)
      · obtain h | ⟨h, hne⟩ := ih hps h
        · exact .inl h
        · exact .inr ⟨List.mem_cons_of_mem q h, hne⟩

/-- A pair after removing a slot is an old one of another slot. -/
theorem mem_removeSlot
    {v : Option IrValue} {ps : List Pair} (hn : (slotKeys ps).Nodup) {p : Pair}
    (h : p ∈ removeSlot v ps) :
  p ∈ ps ∧ irValMatchesSlot v p.slot = false
  := by
  rw [(removeSlot_perm v ps).mem_iff] at h
  refine ⟨List.mem_of_mem_eraseP h, ?_⟩
  cases v with
  | none => rfl
  | some v =>
    induction ps with
    | nil => cases h
    | cons q ps ih =>
      obtain ⟨hq, hps⟩ := List.nodup_cons.mp hn
      by_cases hm : irValMatchesSlot (some v) q.slot
      · rw [List.eraseP_cons, hm, cond_true] at h
        rw [Bool.eq_false_iff]
        intro hp
        apply hq
        show q.slot.key ∈ slotKeys ps
        rw [← irValMatchesSlot_iff.mp hm, irValMatchesSlot_iff.mp hp]
        exact mem_slotKeys h
      · rw [List.eraseP_cons, Bool.eq_false_iff.mpr hm, cond_false] at h
        obtain rfl | h := List.mem_cons.mp h
        · simpa using hm
        · exact ih hps h

/-- Removing a slot keeps the slots distinct. -/
theorem nodup_removeSlot
    {v : Option IrValue} {ps : List Pair} (hn : (slotKeys ps).Nodup) :
  (slotKeys (removeSlot v ps)).Nodup
  := by
  have hs := (List.eraseP_sublist (p := fun p : Pair => irValMatchesSlot v p.slot)
    (l := ps)).map (·.slot.key)
  exact ((removeSlot_perm v ps).map _).nodup_iff.mpr (hn.sublist hs)

/-- Recording a store keeps the slots distinct. -/
theorem nodup_recordStore
    {d v : IrValue} {ps : List Pair} (hn : (slotKeys ps).Nodup) :
  (slotKeys (recordStore d v ps)).Nodup
  := by
  rw [slotKeys_recordStore]
  split
  · exact hn
  · rename_i h
    exact List.nodup_append.mpr
      ⟨hn, List.nodup_singleton _, fun a ha b hb e => h (by
        rw [List.mem_singleton.mp hb] at e
        rwa [e] at ha)⟩

/-- Dropping scratch-resident sources filters, up to order. -/
theorem dropScratch_perm (pool : Option IrRegPool) (I : IrInstr) (ps : List Pair) :
  (dropScratch pool I ps).Perm
    (ps.filter fun p => I.op.sparesScratch || !irLocClobberedBy pool I p.source .after)
  := by
  unfold dropScratch
  by_cases h : I.op.sparesScratch
  · simp [h]
  · simp only [h, Bool.false_eq_true, if_false, Bool.false_or]
    exact removeWhere_perm _ _ _ le_rfl

/-- The instruction records a new source for a slot. -/
def Records (I : IrInstr) (p : Pair) : Prop :=
  I.op = .store ∧ (∃ d, I.dst = some d ∧ p.slot.key = d.key) ∧ I.r1 = some p.source

/-- The instruction redefines a slot: its destination, unless it is a store without an
operand. -/
def redefinesSlot (I : IrInstr) (slot : IrValue) : Bool :=
  irValMatchesSlot I.dst slot && (I.op ≠ .store || I.r1.isSome)

/-- Every pair after an instruction was recorded by it, or is an old one whose slot it does
not redefine and whose source register it does not overwrite. -/
theorem mem_recordPairs
    {pool : Option IrRegPool} {ps : List Pair} (hn : (slotKeys ps).Nodup) {I : IrInstr}
    {p : Pair} (h : p ∈ recordPairs pool ps I) :
  Records I p ∨
    p ∈ ps ∧ redefinesSlot I p.slot = false ∧
      (I.op.sparesScratch ∨ irLocClobberedBy pool I p.source .after = false)
  := by
  unfold recordPairs at h
  by_cases hk : I.op.killsAll
  · rw [if_pos hk] at h
    cases h
  rw [if_neg hk] at h
  have hperm := dropScratch_perm pool I ps
  have hn₁ : (slotKeys (dropScratch pool I ps)).Nodup := by
    apply (hperm.map _).nodup_iff.mpr
    exact hn.sublist (List.filter_sublist.map _)
  have hmem : ∀ {q}, q ∈ dropScratch pool I ps →
      q ∈ ps ∧ (I.op.sparesScratch ∨ irLocClobberedBy pool I q.source .after = false) := by
    intro q hq
    rw [hperm.mem_iff, List.mem_filter] at hq
    simpa using hq
  by_cases hop : I.op = .store
  · rw [dropRedefined, if_neg (by simp [hop])] at h
    unfold updateStore at h
    rw [hop] at h
    cases hd : I.dst with
    | none =>
      simp only [hd] at h
      exact .inr ⟨(hmem h).1, by simp [redefinesSlot, hd, irValMatchesSlot], (hmem h).2⟩
    | some d =>
      cases hv : I.r1 with
      | none =>
        simp only [hd, hv] at h
        exact .inr ⟨(hmem h).1, by simp [redefinesSlot, hop, hv], (hmem h).2⟩
      | some v =>
        simp only [hd, hv] at h
        split at h
        · obtain ⟨hs, hsrc⟩ | ⟨hp, hne⟩ := mem_recordStore hn₁ h
          · exact .inl ⟨hop, ⟨d, hd, hs⟩, by rw [hv, hsrc]⟩
          · refine .inr ⟨(hmem hp).1, ?_, (hmem hp).2⟩
            rw [redefinesSlot, hd, Bool.and_eq_false_iff]
            refine .inl (Bool.eq_false_iff.mpr fun e => hne ?_)
            exact (irValMatchesSlot_iff.mp e).symm
        · obtain ⟨hp, hm⟩ := mem_removeSlot hn₁ h
          refine .inr ⟨(hmem hp).1, ?_, (hmem hp).2⟩
          rw [redefinesSlot, hd, hm, Bool.false_and]
  · have hu : ∀ qs, updateStore I qs = qs := by
      intro qs
      unfold updateStore
      split
      · exact absurd ‹_› hop
      · rfl
    rw [hu] at h
    unfold dropRedefined at h
    split at h
    · obtain ⟨hp, hm⟩ := mem_removeSlot hn₁ h
      exact .inr ⟨(hmem hp).1, by rw [redefinesSlot, hm, Bool.false_and], (hmem hp).2⟩
    · have hd : I.dst = none := by simpa [hop] using ‹¬(I.op ≠ .store ∧ I.dst.isSome)›
      exact .inr ⟨(hmem h).1, by simp [redefinesSlot, hd, irValMatchesSlot], (hmem h).2⟩

/-- The recorded slots stay distinct. -/
theorem nodup_recordPairs
    {pool : Option IrRegPool} {ps : List Pair} (hn : (slotKeys ps).Nodup) (I : IrInstr) :
  (slotKeys (recordPairs pool ps I)).Nodup
  := by
  unfold recordPairs
  split
  · exact List.nodup_nil
  have h₁ : (slotKeys (dropScratch pool I ps)).Nodup :=
    ((dropScratch_perm pool I ps).map _).nodup_iff.mpr
      (hn.sublist (List.filter_sublist.map _))
  have h₂ : (slotKeys (dropRedefined I (dropScratch pool I ps))).Nodup := by
    unfold dropRedefined
    split
    · exact nodup_removeSlot h₁
    · exact h₁
  unfold updateStore
  split
  · split
    · exact nodup_recordStore h₂
    · exact nodup_removeSlot h₂
  · exact h₂

/-! ### One replaced operand -/

/-- An instruction with one of its operands, or one of its vectors of operands, rewritten
by a pair. -/
inductive Replaced (p : Pair) (I : IrInstr) : IrInstr → Prop where
  | r1 (hop : I.op ≠ .lea ∧ I.op ≠ .gep) (h : p.rewrites I.r1) :
      Replaced p I { I with r1 := some p.source }
  | r2 (h : p.rewrites I.r2) : Replaced p I { I with r2 := some p.source }
  | dst (hop : I.op = .br ∨ I.op = .ret) (h : p.rewrites I.dst) :
      Replaced p I { I with dst := some p.source }
  | args (h : ∃ a ∈ I.args, p.rewrites (some a)) :
      Replaced p I { I with args := I.args.map p.rewrite }
  | phis (hop : I.op = .phi) (h : ∃ q ∈ I.phiPairs, p.rewrites (some q.irValue)) :
      Replaced p I
        { I with phiPairs := I.phiPairs.map fun q => { q with irValue := p.rewrite q.irValue } }

/-- A replacement keeps the opcode. -/
theorem Replaced.op_eq {p : Pair} {I J : IrInstr} (h : Replaced p I J) :
  J.op = I.op
  := by
  cases h <;> rfl

/-- A rewriting either reports no change and returns the instruction, or reports a change
and has replaced operands, one after the other. -/
def Rewritten (p : Pair) (I : IrInstr) (r : IrInstr × Bool) : Prop :=
  (r.2 = false ∧ r.1 = I) ∨ (r.2 = true ∧ Relation.TransGen (Replaced p) I r.1)

/-- One test with one replacement is a rewriting. -/
theorem Rewritten.ite
    {p : Pair} {I J : IrInstr} {c : Prop} [Decidable c] (h : c → Replaced p I J) :
  Rewritten p I (if c then (J, true) else (I, false))
  := by
  by_cases hc : c
  · rw [if_pos hc]
    exact .inr ⟨rfl, .single (h hc)⟩
  · rw [if_neg hc]
    exact .inl ⟨rfl, rfl⟩

/-- Rewritings compose. -/
theorem Rewritten.seq
    {p : Pair} {I : IrInstr} {r s : IrInstr × Bool} (hr : Rewritten p I r)
    (hs : Rewritten p r.1 s) :
  Rewritten p I (s.1, r.2 || s.2)
  := by
  obtain ⟨hr₂, hr₁⟩ | ⟨hr₂, hr₁⟩ := hr
  · obtain ⟨hs₂, hs₁⟩ | ⟨hs₂, hs₁⟩ := hs
    · exact .inl ⟨by rw [hr₂, hs₂]; rfl, hs₁.trans hr₁⟩
    · rw [hr₁] at hs₁
      exact .inr ⟨by rw [hs₂, Bool.or_true], hs₁⟩
  · obtain ⟨hs₂, hs₁⟩ | ⟨hs₂, hs₁⟩ := hs
    · rw [← hs₁] at hr₁
      exact .inr ⟨by rw [hr₂, Bool.true_or], hr₁⟩
    · exact .inr ⟨by rw [hr₂, Bool.true_or], hr₁.trans hs₁⟩

/-- A rewriting keeps the opcode. -/
theorem Rewritten.op_eq {p : Pair} {I : IrInstr} {r : IrInstr × Bool} (h : Rewritten p I r) :
  r.1.op = I.op
  := by
  obtain ⟨J, c⟩ := r
  obtain ⟨-, h⟩ | ⟨-, (h : Relation.TransGen (Replaced p) I J)⟩ := h
  · exact congrArg IrInstr.op h
  · induction h with
    | single h => exact h.op_eq
    | tail _ h ih => exact h.op_eq.trans ih

/-- `irRewriteOperands` is a rewriting. -/
theorem irRewriteOperands_rewritten (pool : Option IrRegPool) (p : Pair) (I : IrInstr) :
  Rewritten p I (irRewriteOperands pool p I)
  := by
  unfold irRewriteOperands
  split
  · exact .inl ⟨rfl, rfl⟩
  rename_i hop
  have h₁ : Rewritten p I (rewriteR1 pool p I) := by
    apply Rewritten.ite
    intro h
    rw [Bool.and_eq_true] at h
    exact .r1 ⟨fun e => hop (.inl e), fun e => hop (.inr (.inl e))⟩ h.2
  have h₂ : ∀ J, Rewritten p J (rewriteR2 pool p J) := by
    intro J
    apply Rewritten.ite
    intro h
    rw [Bool.and_eq_true] at h
    exact .r2 h.2
  have h₃ : ∀ J, Rewritten p J (rewriteDst p J) := by
    intro J
    apply Rewritten.ite
    rintro ⟨hop, h⟩
    exact .dst hop h
  have h₄ : ∀ J, Rewritten p J (rewriteArgs p J) := by
    intro J
    apply Rewritten.ite
    rintro ⟨-, -, -, h⟩
    exact .args (List.any_eq_true.mp h)
  have h₅ : ∀ J, Rewritten p J (rewritePhis pool p J) := by
    intro J
    apply Rewritten.ite
    rintro ⟨hop, -, h⟩
    exact .phis hop (List.any_eq_true.mp h)
  exact (((h₁.seq (h₂ _)).seq (h₃ _)).seq (h₄ _)).seq (h₅ _)

/-- The loop over the pairs keeps the opcode. -/
theorem rewriteAll_op (pool : Option IrRegPool) (ps : List Pair) (I : IrInstr) :
  (rewriteAll pool ps I).1.op = I.op
  := by
  induction ps generalizing I with
  | nil => rfl
  | cons p ps ih =>
    rw [rewriteAll]
    exact (ih _).trans (irRewriteOperands_rewritten pool p I).op_eq

/-- A rewritten operand stands for the slot. -/
theorem Pair.rewrites_some {p : Pair} {v : Option IrValue} (h : p.rewrites v) :
  ∃ a, v = some a ∧ a.key = p.slot.key ∧ a ≠ p.source
  := by
  rw [Pair.rewrites, Bool.and_eq_true] at h
  cases v with
  | none => cases h.1
  | some a => exact ⟨a, rfl, irValMatchesSlot_iff.mp h.1, by simpa using h.2⟩

/-! ### Redefinitions -/

/-- The instruction assigns to the variable a value stands for. -/
def redefines (I : IrInstr) (v : IrValue) : Bool :=
  I.op.writesDst && irValMatchesSlot I.dst v

end Polyc
