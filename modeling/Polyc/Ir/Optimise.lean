import Mathlib.Algebra.Order.BigOperators.Group.List
import Mathlib.Algebra.Order.Group.Nat
import Polyc.Ir.Eval
import Polyc.Ir.Forward
import Polyc.Lib.Sweep

/-!
# The fold and forward loop

`irBasicFunctionOptimisations` repeats constant folding and store-to-read forwarding until
neither reports a change.  A change by folding lowers the weight of an opcode, and
forwarding keeps opcodes; folding without a change is the identity.  Forwarding on its own
settles instruction by instruction, because the recorded pairs of a stable prefix, read as
edges from slots to sources, have no cycle.
-/

namespace Polyc

open Sweep

/-! ### The loop -/

/-- One round of the loop, on a function and the next free address, with the number of
changes. -/
def foldForward (pool : Option IrRegPool) (s : IrFunction × Nat) : (IrFunction × Nat) × Nat :=
  let e := irEvalConstantExpressions s.2 s.1
  let f := irForwardStoreToReads pool e.1
  ((f.1, e.2.2), e.2.1 + f.2)

/-! ### Folding lowers weights -/

/-- The weight of an opcode: folding goes from multiplications to shifts, from arithmetic to
stores, and from anything to no operation. -/
def IrOp.weight : IrOp → Nat
  | .nop => 0
  | .store => 1
  | .imul => 3
  | _ => 2

/-- The weight of a list of instructions. -/
def instrsWeight (l : List IrInstr) : Nat := (l.map (·.op.weight)).sum

/-- The weight of a list of blocks. -/
def blocksWeight (bs : List IrBlock) : Nat := (bs.map fun b => instrsWeight b.instructions).sum

/-- An operation that evaluates is arithmetic. -/
theorem two_le_weight_of_evalResult {I : IrInstr} {w : Word} (h : evalResult I = some w) :
  2 ≤ I.op.weight
  := by
  simp only [evalResult] at h
  split at h
  · split at h
    · split at h
      · rename_i hop
        rw [hop]
        decide
      · cases hop : I.op <;> simp only [hop, irEvalBinop, reduceCtorEq] at h <;> decide
    · cases h
  · cases h

/-- An identity is arithmetic. -/
theorem two_le_weight_of_irEvalCanFold
    {I : IrInstr} {c : IrValue} {k : Word} (h : irEvalCanFold I c k) :
  2 ≤ I.op.weight
  := by
  cases hop : I.op
  case nop => simp [irEvalCanFold, hop] at h
  case store => simp [irEvalCanFold, hop] at h
  all_goals decide

/-- A change by folding one instruction lowers the weight. -/
theorem evalInstr_weight (st : EvalState) (I : IrInstr) :
  (evalInstr st I).1.op.weight + (evalInstr st I).2.1 ≤ I.op.weight
  := by
  have hres : (resolveOperands st.resolver I).op = I.op := rfl
  rw [← hres, evalInstr]
  generalize resolveOperands st.resolver I = J
  have hcase := evalResolved_case st J
  generalize evalResolved st J = r at hcase ⊢
  cases hcase with
  | same => simp
  | const d w hd ht hw =>
    have h := two_le_weight_of_evalResult hw
    apply Nat.le_of_succ_le h
  | store d w hd hl hw => apply two_le_weight_of_evalResult hw
  | identity d c x hd ht hc hf =>
    have h := two_le_weight_of_irEvalCanFold hf
    apply Nat.le_of_succ_le h
  | zero d c x hd ht hc hop hk =>
    obtain hop | hop := hop
    · simp [IrInstr.toNop, hop, IrOp.weight]
    · simp [IrInstr.toNop, hop, IrOp.weight]
  | shift d c x hd ht hc hop hr hk => simp [hop, IrOp.weight]

/-- Changes by folding a list of instructions lower the weight. -/
theorem evalInstrs_weight (st : EvalState) (l : List IrInstr) :
  instrsWeight (evalInstrs st l).1 + (evalInstrs st l).2.1 ≤ instrsWeight l
  := by
  induction l generalizing st with
  | nil => simp [evalInstrs]
  | cons I l ih =>
    have hI := evalInstr_weight st I
    have hl := ih (evalInstr st I).2.2
    simp only [instrsWeight, evalInstrs, List.map_cons, List.sum_cons] at hl ⊢
    omega

/-- Changes by folding a list of blocks lower the weight. -/
theorem evalBlocks_weight (st : EvalState) (bs : List IrBlock) :
  blocksWeight (evalBlocks st bs).1 + (evalBlocks st bs).2.1 ≤ blocksWeight bs
  := by
  induction bs generalizing st with
  | nil => simp [evalBlocks]
  | cons b bs ih =>
    have hb := evalInstrs_weight st b.instructions
    have hbs := ih (irEvalBlock st b).2.2
    simp only [blocksWeight, evalBlocks, irEvalBlock, List.map_cons, List.sum_cons] at hbs ⊢
    omega

/-! ### Folding without a change -/

/-- The empty resolver resolves every operand to itself. -/
theorem resolveOperands_nil (I : IrInstr) :
  resolveOperands [] I = I
  := by
  have hv : resolveTmp [] = id := by
    funext v
    simp [resolveTmp]
  have ho : irResolveTmp [] = id := by
    funext v
    simp [irResolveTmp, hv]
  simp [resolveOperands, hv, ho]

/-- Folding one instruction without a change keeps it and the state. -/
theorem evalResolved_of_eq_zero
    {st : EvalState} {I : IrInstr} (h : (evalResolved st I).2.1 = 0) :
  evalResolved st I = (I, 0, st)
  := by
  have hcase := evalResolved_case st I
  generalize evalResolved st I = r at h hcase
  cases hcase with
  | same => rfl
  | _ => cases h

/-- Folding instructions without a change, from the empty resolver, keeps them. -/
theorem evalInstrs_of_eq_zero
    {fresh : Nat} {l : List IrInstr} (h : (evalInstrs ⟨[], fresh⟩ l).2.1 = 0) :
  evalInstrs ⟨[], fresh⟩ l = (l, 0, ⟨[], fresh⟩)
  := by
  induction l with
  | nil => rfl
  | cons I l ih =>
    simp only [evalInstrs, Nat.add_eq_zero_iff] at h ⊢
    have hI : evalInstr ⟨[], fresh⟩ I = (I, 0, ⟨[], fresh⟩) := by
      simp only [evalInstr, resolveOperands_nil] at h ⊢
      apply evalResolved_of_eq_zero h.1
    rw [hI] at h ⊢
    dsimp only at h ⊢
    rw [ih h.2]
    rfl

/-- Folding blocks without a change, from the empty resolver, keeps them. -/
theorem evalBlocks_of_eq_zero
    {fresh : Nat} {bs : List IrBlock} (h : (evalBlocks ⟨[], fresh⟩ bs).2.1 = 0) :
  evalBlocks ⟨[], fresh⟩ bs = (bs, 0, ⟨[], fresh⟩)
  := by
  induction bs with
  | nil => rfl
  | cons b bs ih =>
    simp only [evalBlocks, Nat.add_eq_zero_iff] at h ⊢
    have hb : irEvalBlock ⟨[], fresh⟩ b = (b, 0, ⟨[], fresh⟩) := by
      simp only [irEvalBlock] at h ⊢
      rw [evalInstrs_of_eq_zero h.1]
    rw [hb] at h ⊢
    dsimp only at h ⊢
    rw [ih h.2]
    rfl

/-! ### Forwarding keeps weights -/

/-- The walk over a block keeps the opcodes. -/
theorem forwardInstrs_weight (pool : Option IrRegPool) (ps : List Pair) (l : List IrInstr) :
  instrsWeight (forwardInstrs pool ps l).1 = instrsWeight l
  := by
  induction l generalizing ps with
  | nil => rfl
  | cons I l ih =>
    have hI : (forwardInstr pool ps I).1.op = I.op := by
      unfold forwardInstr
      split
      · rfl
      · apply rewriteAll_op
    have hl := ih (forwardPairs pool ps (forwardInstr pool ps I).1)
    simp only [instrsWeight, forwardInstrs, List.map_cons, List.sum_cons, hI] at hl ⊢
    rw [hl]

/-- Forwarding keeps the weight of a function. -/
theorem irForwardStoreToReads_weight (pool : Option IrRegPool) (fn : IrFunction) :
  blocksWeight (irForwardStoreToReads pool fn).1.blocks = blocksWeight fn.blocks
  := by
  simp only [blocksWeight, irForwardStoreToReads, List.map_map]
  congr 1
  apply List.map_congr_left
  intro b _
  apply forwardInstrs_weight

/-! ### Forwarding settles on an instruction -/

/-- The recorded pairs, read as edges from slots to sources, have no cycle but loops: a rank
decreases along the edges. -/
structure Acyclic (ps : List Pair) : Prop where
  nodup : (slotKeys ps).Nodup
  rank : ∃ r : VarKey → Nat, ∀ p ∈ ps, p.source.key = p.slot.key
    ∨ r p.source.key < r p.slot.key

/-- Whether some pair would replace an operand. -/
def replaceable (ps : List Pair) (v : IrValue) : Bool := ps.any fun p => p.rewrites (some v)

/-- How far an operand is from being stable: its rank, and then a loop at its variable. -/
def operandRank (ps : List Pair) (r : VarKey → Nat) (v : IrValue) : Nat :=
  2 * r v.key + (replaceable ps v).toNat

/-- The rank of an operand that may be missing. -/
def optionRank (ps : List Pair) (r : VarKey → Nat) : Option IrValue → Nat
  | none => 0
  | some v => operandRank ps r v

/-- How far an instruction is from being stable. -/
def instrRank (ps : List Pair) (r : VarKey → Nat) (I : IrInstr) : Nat :=
  optionRank ps r I.r1 + optionRank ps r I.r2 + optionRank ps r I.dst
    + (I.args.map (operandRank ps r)).sum
    + (I.phiPairs.map fun q => operandRank ps r q.irValue).sum

/-- Two recorded pairs of one slot are the same. -/
theorem eq_of_slot_key_eq
    {ps : List Pair} (hn : (slotKeys ps).Nodup) {p q : Pair} (hp : p ∈ ps) (hq : q ∈ ps)
    (h : p.slot.key = q.slot.key) :
  p = q
  := List.inj_on_of_nodup_map hn hp hq h

/-- A replacement lowers the rank of the operand. -/
theorem operandRank_lt
    {ps : List Pair} (hn : (slotKeys ps).Nodup) {r : VarKey → Nat}
    (hr : ∀ p ∈ ps, p.source.key = p.slot.key ∨ r p.source.key < r p.slot.key) {p : Pair}
    (hp : p ∈ ps) {v : IrValue} (h : p.rewrites (some v)) :
  operandRank ps r p.source < operandRank ps r v
  := by
  obtain ⟨a, ha, hk, -⟩ := Pair.rewrites_some h
  cases ha
  have hv : replaceable ps v := List.any_eq_true.mpr ⟨p, hp, h⟩
  simp only [operandRank, hv, Bool.toNat_true, hk]
  obtain hloop | hlt := hr p hp
  · have hstable : replaceable ps p.source = false := by
      rw [Bool.eq_false_iff]
      intro hany
      obtain ⟨q, hq, hqr⟩ := List.any_eq_true.mp hany
      obtain ⟨b, hb, hkb, hne⟩ := Pair.rewrites_some hqr
      cases hb
      apply hne
      rw [eq_of_slot_key_eq hn hp hq (by rw [← hloop, hkb])]
    rw [hstable, hloop]
    simp
  · have hle := Bool.toNat_le (replaceable ps p.source)
    omega

/-- Rewriting an entry of a vector does not raise its rank. -/
theorem operandRank_rewrite_le
    {ps : List Pair} (hn : (slotKeys ps).Nodup) {r : VarKey → Nat}
    (hr : ∀ p ∈ ps, p.source.key = p.slot.key ∨ r p.source.key < r p.slot.key) {p : Pair}
    (hp : p ∈ ps) (v : IrValue) :
  operandRank ps r (p.rewrite v) ≤ operandRank ps r v
  := by
  unfold Pair.rewrite
  split
  · apply (operandRank_lt hn hr hp ‹_›).le
  · apply le_rfl

/-- A replacement lowers the rank of the instruction. -/
theorem instrRank_lt
    {ps : List Pair} (hn : (slotKeys ps).Nodup) {r : VarKey → Nat}
    (hr : ∀ p ∈ ps, p.source.key = p.slot.key ∨ r p.source.key < r p.slot.key) {p : Pair}
    (hp : p ∈ ps) {I J : IrInstr} (h : Replaced p I J) :
  instrRank ps r J < instrRank ps r I
  := by
  have hsome : ∀ {v : Option IrValue}, p.rewrites v →
      optionRank ps r (some p.source) < optionRank ps r v := by
    intro v hv
    obtain ⟨a, rfl, -, -⟩ := Pair.rewrites_some hv
    apply operandRank_lt hn hr hp hv
  cases h with
  | r1 _ h =>
    have := hsome h
    simp only [instrRank]
    omega
  | r2 h =>
    have := hsome h
    simp only [instrRank]
    omega
  | dst _ h =>
    have := hsome h
    simp only [instrRank]
    omega
  | args h =>
    obtain ⟨a, ha, hra⟩ := h
    have hlt : (I.args.map fun a => operandRank ps r (p.rewrite a)).sum
        < (I.args.map (operandRank ps r)).sum := by
      apply List.sum_lt_sum
      · intro a _
        apply operandRank_rewrite_le hn hr hp
      · refine ⟨a, ha, ?_⟩
        rw [Pair.rewrite, if_pos hra]
        apply operandRank_lt hn hr hp hra
    simp only [instrRank, List.map_map, Function.comp_def]
    omega
  | phis _ h =>
    obtain ⟨q, hq, hrq⟩ := h
    have hlt : (I.phiPairs.map fun q => operandRank ps r (p.rewrite q.irValue)).sum
        < (I.phiPairs.map fun q => operandRank ps r q.irValue).sum := by
      apply List.sum_lt_sum
      · intro q _
        apply operandRank_rewrite_le hn hr hp
      · refine ⟨q, hq, ?_⟩
        rw [Pair.rewrite, if_pos hrq]
        apply operandRank_lt hn hr hp hrq
    simp only [instrRank, List.map_map, Function.comp_def]
    omega

/-- The loop over the pairs either reports no change and keeps the instruction, or lowers
its rank. -/
theorem rewriteAll_rank
    {pool : Option IrRegPool} {ps : List Pair} (hn : (slotKeys ps).Nodup) {r : VarKey → Nat}
    (hr : ∀ p ∈ ps, p.source.key = p.slot.key ∨ r p.source.key < r p.slot.key)
    {qs : List Pair} (hqs : ∀ q ∈ qs, q ∈ ps) (I : IrInstr) :
  ((rewriteAll pool qs I).2 = 0 ∧ (rewriteAll pool qs I).1 = I)
    ∨ ((rewriteAll pool qs I).2 ≠ 0 ∧
        instrRank ps r (rewriteAll pool qs I).1 < instrRank ps r I)
  := by
  induction qs generalizing I with
  | nil => apply Or.inl ⟨rfl, rfl⟩
  | cons q qs ih =>
    have hrest := ih (fun p hp => hqs p (List.mem_cons_of_mem q hp)) (irRewriteOperands pool q I).1
    simp only [rewriteAll]
    obtain ⟨hc, hI⟩ | ⟨hc, hI⟩ := irRewriteOperands_rewritten pool q I
    · rw [hI] at hrest ⊢
      simpa [hc] using hrest
    · have hlt : instrRank ps r (irRewriteOperands pool q I).1 < instrRank ps r I := by
        generalize (irRewriteOperands pool q I).1 = J at hI
        induction hI with
        | single h => apply instrRank_lt hn hr (hqs q List.mem_cons_self) h
        | tail _ h ih => apply (instrRank_lt hn hr (hqs q List.mem_cons_self) h).trans ih
      right
      rw [hc]
      refine ⟨by simp, ?_⟩
      obtain ⟨-, hJ⟩ | ⟨-, hJ⟩ := hrest
      · rw [hJ]
        apply hlt
      · apply hJ.trans hlt

/-- Repeating the round of one instruction settles. -/
theorem settles_forwardInstr
    (pool : Option IrRegPool) {ps : List Pair} (h : Acyclic ps) (I : IrInstr) :
  Settles (forwardInstr pool ps) I
  := by
  obtain ⟨r, hr⟩ := h.rank
  apply Settles.of_measure (instrRank ps r)
  intro I hI
  unfold forwardInstr at hI ⊢
  split
  · rw [if_pos ‹_›] at hI
    contradiction
  · rw [if_neg ‹_›] at hI
    have hrank : ((rewriteAll pool ps I).2 = 0 ∧ (rewriteAll pool ps I).1 = I)
        ∨ ((rewriteAll pool ps I).2 ≠ 0 ∧
            instrRank ps r (rewriteAll pool ps I).1 < instrRank ps r I) := by
      apply rewriteAll_rank h.nodup hr
      intro q hq
      apply hq
    obtain ⟨h0, -⟩ | ⟨-, hlt⟩ := hrank
    · contradiction
    · apply hlt

/-! ### Stable instructions keep the pairs acyclic -/

/-- Without a change, no pair replaces anything. -/
theorem rewriteAll_eq_zero
    {pool : Option IrRegPool} {ps : List Pair} {I : IrInstr}
    (h : (rewriteAll pool ps I).2 = 0) :
  (rewriteAll pool ps I).1 = I ∧ ∀ p ∈ ps, (irRewriteOperands pool p I).2 = false
  := by
  induction ps with
  | nil => simp [rewriteAll]
  | cons p ps ih =>
    simp only [rewriteAll, Nat.add_eq_zero_iff] at h ⊢
    obtain ⟨hc, hI⟩ | ⟨hc, -⟩ := irRewriteOperands_rewritten pool p I
    · rw [hI] at h ⊢
      obtain ⟨hI', hps⟩ := ih h.2
      refine ⟨hI', ?_⟩
      rintro q hq
      obtain rfl | hq := List.mem_cons.mp hq
      · apply hc
      · apply hps q hq
    · rw [hc] at h
      cases h.1

/-- A stable instruction counts no change and stays. -/
theorem forwardInstr_of_eq_zero
    {pool : Option IrRegPool} {ps : List Pair} {I : IrInstr}
    (h : (forwardInstr pool ps I).2 = 0) :
  (forwardInstr pool ps I).1 = I
  := by
  unfold forwardInstr at h ⊢
  split
  · rfl
  · rw [if_neg ‹_›] at h
    apply (rewriteAll_eq_zero h).1

/-- The operand of a stable store is not replaced by the pairs that survive the store. -/
theorem not_rewrites_of_stable_store
    {pool : Option IrRegPool} {p : Pair} {I : IrInstr} (hop : I.op = .store)
    (h : (irRewriteOperands pool p I).2 = false)
    (hlive : irLocClobberedBy pool I p.source .after = false) :
  p.rewrites I.r1 = false
  := by
  have hbefore : irLocClobberedBy pool I p.source .beforeR1 = false := by
    rw [Bool.eq_false_iff]
    intro hb
    rw [irLocClobberedBy_after hop hb] at hlive
    cases hlive
  simp only [irRewriteOperands, hop, reduceCtorEq, or_self, if_false, Bool.or_eq_false_iff] at h
  have h₁ := h.1.1.1.1
  rw [Bool.eq_false_iff]
  intro hr
  simp [rewriteR1, hbefore, hr] at h₁

/-- A stable instruction keeps the pairs acyclic: the source that it records has no edge
left. -/
theorem Acyclic.forwardPairs
    {pool : Option IrRegPool} {ps : List Pair} (h : Acyclic ps) {I : IrInstr}
    (hI : (forwardInstr pool ps I).2 = 0) :
  Acyclic (Polyc.forwardPairs pool ps (forwardInstr pool ps I).1)
  := by
  rw [forwardInstr_of_eq_zero hI]
  unfold Polyc.forwardPairs
  unfold forwardInstr at hI
  split
  · apply h
  rw [if_neg ‹_›] at hI
  obtain ⟨-, hstable⟩ := rewriteAll_eq_zero hI
  constructor
  · apply nodup_recordPairs h.nodup
  obtain ⟨r, hr⟩ := h.rank
  by_cases hrec : ∃ p ∈ recordPairs pool ps I, Records I p
  · obtain ⟨p₀, -, hop, -, hv⟩ := hrec
    use fun k => if k = p₀.source.key then 0 else r k + 1
    intro p hp
    obtain ⟨-, -, hv'⟩ | ⟨hold, -, hlive⟩ := mem_recordPairs h.nodup hp
    · have hsrc : p.source = p₀.source := by
        rw [hv] at hv'
        apply (Option.some_inj.mp hv').symm
      rw [hsrc]
      by_cases hk : p₀.source.key = p.slot.key
      · apply Or.inl hk
      · right
        simp only [if_true, if_neg (Ne.symm hk)]
        apply Nat.succ_pos
    · have hkeep : p.rewrites I.r1 = false := by
        apply not_rewrites_of_stable_store hop (hstable p hold)
        obtain hs | hs := hlive
        · rw [hop] at hs
          cases hs
        · apply hs
      obtain hloop | hlt := hr p hold
      · apply Or.inl hloop
      by_cases hk : p.slot.key = p₀.source.key
      · left
        have hsrc : p₀.source = p.source := by
          by_contra hne
          have hrw : p.rewrites I.r1 := by
            rw [hv, Pair.rewrites, Bool.and_eq_true]
            constructor
            · apply irValMatchesSlot_iff.mpr hk.symm
            · simpa using hne
          rw [hkeep] at hrw
          cases hrw
        rw [← hsrc, hk]
      · right
        simp only [if_neg hk]
        split
        · apply Nat.succ_pos
        · apply Nat.succ_lt_succ hlt
  · use r
    intro p hp
    obtain hnew | ⟨hold, -⟩ := mem_recordPairs h.nodup hp
    · apply absurd ⟨p, hp, hnew⟩ hrec
    · apply hr p hold

/-! ### Forwarding settles on a function -/

/-- The walk over a block is a sweep. -/
theorem forwardInstrs_eq_sweep (pool : Option IrRegPool) (ps : List Pair) (l : List IrInstr) :
  forwardInstrs pool ps l = sweep (forwardInstr pool) (forwardPairs pool) ps l
  := by
  induction l generalizing ps with
  | nil => rfl
  | cons I l ih => simp only [forwardInstrs, sweep, ih]

/-- The pass is a sweep over the blocks. -/
theorem irForwardStoreToReads_eq_sweep (pool : Option IrRegPool) (fn : IrFunction) :
  ((irForwardStoreToReads pool fn).1.blocks, (irForwardStoreToReads pool fn).2)
    = sweep (fun _ => forwardBlock pool) (fun _ _ => ()) () fn.blocks
  := by
  simp only [irForwardStoreToReads]
  induction fn.blocks with
  | nil => rfl
  | cons b bs ih =>
    simp only [List.map_cons, List.sum_cons, sweep, ← ih]

/-- Nothing recorded is acyclic. -/
theorem Acyclic.nil :
  Acyclic []
  := by
  constructor
  · apply List.nodup_nil
  · use fun _ => 0
    simp

/-- Repeating the walk over a block settles. -/
theorem settles_forwardBlock (pool : Option IrRegPool) (b : IrBlock) :
  Settles (forwardBlock pool) b
  := by
  have hsweep : Settles (sweep (forwardInstr pool) (forwardPairs pool) []) b.instructions := by
    apply settles_sweep _ _ (fun _ _ h => forwardInstr_of_eq_zero h) Acyclic
    · intro ps I h hI
      simpa only [forwardInstr_of_eq_zero hI] using h.forwardPairs hI
    · intro ps I h
      apply settles_forwardInstr pool h I
    · apply Acyclic.nil
  apply Settles.of_map (·.instructions) _ _ hsweep
  · intro b
    simp only [forwardBlock, forwardInstrs_eq_sweep]
  · intro b
    simp only [forwardBlock, forwardInstrs_eq_sweep]

/-- Without a change, the walk keeps the block. -/
theorem forwardBlock_of_eq_zero
    {pool : Option IrRegPool} {b : IrBlock} (h : (forwardBlock pool b).2 = 0) :
  (forwardBlock pool b).1 = b
  := by
  have hl : ∀ (l : List IrInstr) (ps : List Pair),
      (forwardInstrs pool ps l).2 = 0 → (forwardInstrs pool ps l).1 = l := by
    intro l
    induction l with
    | nil => exact fun _ _ => rfl
    | cons I l ih =>
      intro ps h
      simp only [forwardInstrs, Nat.add_eq_zero_iff] at h ⊢
      rw [ih _ h.2, forwardInstr_of_eq_zero h.1]
  simp only [forwardBlock] at h ⊢
  rw [hl _ _ h]

/-- Repeating the pass settles. -/
theorem settles_irForwardStoreToReads (pool : Option IrRegPool) (fn : IrFunction) :
  Settles (irForwardStoreToReads pool) fn
  := by
  have hsweep : Settles (sweep (fun _ => forwardBlock pool) (fun _ _ => ()) ()) fn.blocks := by
    apply settles_sweep _ _ (fun _ _ h => forwardBlock_of_eq_zero h) fun _ => True
    · intro _ _ _ _
      trivial
    · intro _ b _
      apply settles_forwardBlock
    · trivial
  apply Settles.of_map (·.blocks) _ _ hsweep
  · intro fn
    rw [← irForwardStoreToReads_eq_sweep]
  · intro fn
    rw [← irForwardStoreToReads_eq_sweep]

/-! ### The loop terminates -/

/-- Folding a function without a change keeps it and the next free address. -/
theorem irEvalConstantExpressions_of_eq_zero
    {fresh : Nat} {fn : IrFunction} (h : (irEvalConstantExpressions fresh fn).2.1 = 0) :
  irEvalConstantExpressions fresh fn = (fn, 0, fresh)
  := by
  simp only [irEvalConstantExpressions] at h ⊢
  rw [evalBlocks_of_eq_zero h]

/-- From every function, and whatever registers the back end declares, the loop reaches a
round in which neither folding nor forwarding reports a change. -/
theorem foldForward_terminates (pool : Option IrRegPool) (fn : IrFunction) (fresh : Nat) :
  ∃ n, (foldForward pool ((fun s => (foldForward pool s).1)^[n] (fn, fresh))).2 = 0
  := by
  show Settles (foldForward pool) (fn, fresh)
  generalize hw : blocksWeight fn.blocks = w
  induction w using Nat.strongRecOn generalizing fn fresh with
  | _ w ih =>
    obtain ⟨n, hn⟩ := settles_irForwardStoreToReads pool fn
    induction n generalizing fn fresh with
    | zero =>
      by_cases he : (irEvalConstantExpressions fresh fn).2.1 = 0
      · use 0
        have hfn := irEvalConstantExpressions_of_eq_zero he
        simp only [Function.iterate_zero, id_eq] at hn ⊢
        simp only [foldForward, hfn, hn]
      · apply Settles.of_step
        apply ih _ _ _ _ rfl
        have hlt := evalBlocks_weight ⟨[], fresh⟩ fn.blocks
        simp only [irForwardStoreToReads_weight]
        simp only [irEvalConstantExpressions] at he ⊢
        omega
    | succ n ihn =>
      apply Settles.of_step
      by_cases he : (irEvalConstantExpressions fresh fn).2.1 = 0
      · have hfn := irEvalConstantExpressions_of_eq_zero he
        rw [Function.iterate_succ_apply] at hn
        simp only [foldForward, hfn]
        apply ihn
        · rw [irForwardStoreToReads_weight, hw]
        · apply hn
      · apply ih _ _ _ _ rfl
        have hlt := evalBlocks_weight ⟨[], fresh⟩ fn.blocks
        simp only [irForwardStoreToReads_weight]
        simp only [irEvalConstantExpressions] at he ⊢
        omega

end Polyc
