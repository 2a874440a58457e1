import Polyc.Ir.SlotRuns

/-!
# Shared slots never mix two live temporaries

A temporary that is live at a point has been mentioned at or before the position of the point
and will be mentioned at or after it, because no path on which it is live leads back.  So a
temporary that is written at the position has a range in common with it and another slot.
-/

namespace Polyc

/-- A temporary is live across a step: it is live afterwards and not defined by the step, or
a phi reads it on the step. -/
def IrFunction.LiveAcross (fn : IrFunction) (p q : Point) (t : Nat) : Prop :=
  (fn.flow.Live ⟨.tmp, t⟩ q ∧ ¬ fn.flow.defines p q ⟨.tmp, t⟩)
    ∨ ∃ I, fn.instrAt p = some I ∧ ∃ c ∈ fn.edgeCopies p q I, c.2.tmpId = some t

/-- The functions that the allocator is made for: no temporary is live across a step back in
layout order, a temporary is void at all its mentions or at none, and phis lead their blocks and
read, on an edge, no temporary that a phi of the same block writes.  A temporary may be written
any number of times. -/
structure IrFunction.SlotReady (fn : IrFunction) : Prop where
  forward : ∀ p q, fn.flow.step p q → fn.Backward p q → ∀ t, ¬ fn.LiveAcross p q t
  typed : ∀ I ∈ fn.instrs, ∀ J ∈ fn.instrs, ∀ v ∈ I.refs, ∀ w ∈ J.refs,
    v.kind = .tmp → w.kind = .tmp → v.varId = w.varId → v.type ≠ .void → w.type ≠ .void
  phisLead : ∀ b ∈ fn.blocks, phisLead b.instructions
  independent : ∀ p q I, fn.instrAt p = some I → q ∈ I.nexts p →
    ∀ c ∈ fn.edgeCopies p q I, ∀ d ∈ fn.edgeCopies p q I, d.2.tmpId ≠ none →
      d.2.tmpId ≠ c.1.tmpId

/-! ### Mentions -/

/-- A temporary, void or not, is mentioned at a position. -/
def Mentions (l : List IrInstr) (t x : Nat) : Prop :=
  ∃ I, (emitted l)[x]? = some I ∧ ∃ v ∈ I.refs, v.tmpId = some t

theorem tmpId_eq_some {v : IrValue} {t : Nat} :
  v.tmpId = some t ↔ v.kind = .tmp ∧ v.varId = t
  := by
  unfold IrValue.tmpId
  split
  · rename_i hk
    rw [Option.some_inj]
    exact ⟨fun h => ⟨hk, h⟩, fun h => h.2⟩
  · rename_i hk
    constructor
    · intro h
      cases h
    · intro h
      cases hk h.1

/-- A value stands for a temporary exactly when its key is that of the temporary. -/
theorem names_iff_tmpId {v : IrValue} {t : Nat} :
  v.names ⟨.tmp, t⟩ ↔ v.tmpId = some t
  := by
  rw [tmpId_eq_some]
  unfold IrValue.names IrValue.key
  constructor
  · rintro ⟨-, hk⟩
    exact ⟨congrArg VarKey.kind hk, congrArg VarKey.id hk⟩
  · rintro ⟨hk, rfl⟩
    rw [hk]
    exact ⟨rfl, rfl⟩

/-- What an instruction reads is mentioned. -/
theorem mem_refs_of_inputs {I : IrInstr} {v : IrValue} (h : v ∈ I.inputs) :
  v ∈ I.refs ∧ I.op ≠ .nop ∧ I.op ≠ .phi
  := by
  unfold IrInstr.inputs at h
  constructor
  · simp only [List.mem_append, List.mem_ite_nil_right, Option.mem_toList] at h
    simp only [IrInstr.refs, List.mem_append, List.mem_ite_nil_right, Option.mem_toList]
    tauto
  · constructor
    · intro hop
      rw [hop] at h
      simp [IrOp.readsDst, IrOp.readsR1, IrOp.readsR2, IrOp.readsIdx] at h
    · intro hop
      rw [hop] at h
      simp [IrOp.readsDst, IrOp.readsR1, IrOp.readsR2, IrOp.readsIdx] at h

/-- A jump goes to the start of a block. -/
theorem nexts_jump {I : IrInstr} {p q : Point} (hjump : I.op.isJump) (hq : q ∈ I.nexts p) :
  q = (q.1, 0)
  := by
  unfold IrInstr.nexts at hq
  split at hq
  · rw [List.mem_singleton.mp hq]
  · simp only [List.mem_cons, List.not_mem_nil, or_false] at hq
    rcases hq with rfl | rfl <;> rfl
  · simp only [List.mem_cons, List.not_mem_nil, or_false] at hq
    rcases hq with rfl | rfl <;> rfl
  · cases hq
  · simp_all [IrOp.isJump]

/-- Any other instruction goes to the next one. -/
theorem nexts_not_jump
    {I : IrInstr} {p q : Point} (hjump : I.op.isJump = false) (hq : q ∈ I.nexts p) :
  q = (p.1, p.2 + 1)
  := by
  unfold IrInstr.nexts at hq
  split at hq
  all_goals simp_all [IrOp.isJump]

section Mentions

variable {fn : IrFunction}

theorem mentions_of_ref
    {p : Point} {I : IrInstr} (hI : fn.instrAt p = some I) (hop : I.op ≠ .nop) {v : IrValue}
    (hv : v ∈ I.refs) {t : Nat} (ht : v.tmpId = some t) :
  Mentions fn.instrs t (fn.pos p)
  := ⟨I, fn.emitted_pos hI hop, v, hv, ht⟩

/-- The copies into a block from an index on. -/
def copiesFrom (pred : Nat) (blk : IrBlock) (k : Nat) : List (IrValue × IrValue) :=
  phiCopies pred (blk.instructions.drop k)

/-- A copy is made by a phi, which mentions both values. -/
theorem mem_copiesFrom
    {pred k : Nat} {blk : IrBlock} {c : IrValue × IrValue} (h : c ∈ copiesFrom pred blk k) :
  ∃ j P, k ≤ j ∧ blk.instructions[j]? = some P ∧ P.op = .phi ∧ P.dst = some c.1
    ∧ c.2 ∈ P.phiPairs.map IrPair.irValue
  := by
  obtain ⟨P, hP, hc⟩ := List.mem_filterMap.mp h
  have hphi : P.op = .phi := by simpa using List.mem_takeWhile_imp hP
  have hmem : P ∈ blk.instructions.drop k :=
    List.mem_of_mem_filter ((List.takeWhile_sublist _).mem hP)
  obtain ⟨d, hd, hc⟩ := Option.bind_eq_some_iff.mp hc
  obtain ⟨v, hv, rfl⟩ := Option.map_eq_some_iff.mp hc
  obtain ⟨pair, hpair, rfl⟩ := Option.map_eq_some_iff.mp hv
  obtain ⟨j, hj⟩ := List.mem_iff_getElem?.mp hmem
  rw [List.getElem?_drop] at hj
  exact ⟨k + j, P, Nat.le_add_right k j, hj, hphi, hd,
    List.mem_map_of_mem (List.mem_of_find?_eq_some hpair)⟩

/-- Positions grow within a block. -/
theorem IrFunction.pos_mono (fn : IrFunction) (b : Nat) {j k : Nat} (h : j ≤ k) :
  fn.pos (b, j) ≤ fn.pos (b, k)
  := by
  obtain ⟨d, rfl⟩ := Nat.exists_eq_add_of_le h
  unfold IrFunction.pos
  dsimp only
  rw [List.take_add, width_append]
  omega

/-- Both values of a copy are mentioned at or after the index from which it is taken. -/
theorem mentions_of_copy
    {b pred k : Nat} {blk : IrBlock} (hb : fn.findBlock b = some blk) {c : IrValue × IrValue}
    (h : c ∈ copiesFrom pred blk k) :
  ∃ x, fn.pos (b, k) ≤ x ∧ (∀ t, c.1.tmpId = some t → Mentions fn.instrs t x)
    ∧ (∀ t, c.2.tmpId = some t → Mentions fn.instrs t x)
  := by
  obtain ⟨j, P, hkj, hP, hop, hdst, hval⟩ := mem_copiesFrom h
  have hat : fn.instrAt (b, j) = some P := by simp [IrFunction.instrAt, hb, hP]
  have hnop : P.op ≠ .nop := by
    rw [hop]
    decide
  refine ⟨fn.pos (b, j), fn.pos_mono b hkj, ?_, ?_⟩
  · intro t ht
    apply mentions_of_ref hat hnop _ ht
    simp [IrInstr.refs, hdst]
  · intro t ht
    apply mentions_of_ref hat hnop _ ht
    rw [IrInstr.refs, List.mem_append]
    right
    rw [if_pos hop]
    apply hval

end Mentions

/-! ### Writes -/

/-- What an instruction writes. -/
theorem writtenTmp_eq_some {I : IrInstr} {t : Nat} :
  I.writtenTmp = some t ↔ I.writes ⟨.tmp, t⟩
  := by
  unfold IrInstr.writtenTmp IrInstr.writes
  cases hw : I.op.writesDst with
  | false => simp
  | true =>
    simp only [if_true, Bool.true_and, Option.any_eq_true, decide_eq_true_eq,
      Option.bind_eq_some_iff]
    constructor
    · rintro ⟨d, hd, ht⟩
      exact ⟨d, hd, (names_iff_tmpId.mpr ht).2⟩
    · rintro ⟨d, hd, hk⟩
      exact ⟨d, hd, tmpId_eq_some.mpr ⟨congrArg VarKey.kind hk, congrArg VarKey.id hk⟩⟩

/-- An instruction that writes is neither a jump nor a phi, and it mentions what it writes. -/
theorem mentions_written
    {fn : IrFunction} {p : Point} {I : IrInstr} (hI : fn.instrAt p = some I) {u : Nat}
    (hu : I.writtenTmp = some u) :
  I.op.isJump = false ∧ I.op ≠ .nop ∧ I.op ≠ .phi ∧ Mentions fn.instrs u (fn.pos p)
  := by
  unfold IrInstr.writtenTmp at hu
  split at hu
  · rename_i hw
    obtain ⟨d, hd, hdu⟩ := Option.bind_eq_some_iff.mp hu
    have hop : I.op.isJump = false ∧ I.op ≠ .nop ∧ I.op ≠ .phi := by
      cases hop : I.op <;> rw [hop] at hw <;> first
        | decide
        | cases hw
    refine ⟨hop.1, hop.2.1, hop.2.2, mentions_of_ref hI hop.2.1 (by simp [IrInstr.refs, hd]) hdu⟩
  · cases hu

/-- What a step writes it defines. -/
theorem defines_of_write
    {fn : IrFunction} {p q : Point} {I : IrInstr} (hI : fn.instrAt p = some I) {t : Nat}
    (ht : .write t ∈ I.accesses ++ (fn.edgeCopies p q I).flatMap copyAccesses) :
  fn.flow.defines p q ⟨.tmp, t⟩
  := by
  rcases List.mem_append.mp ht with hw | hw
  · have hu : I.writtenTmp = some t := by simpa [IrInstr.accesses] using hw
    exact ⟨I, hI, .inl (writtenTmp_eq_some.mp hu)⟩
  · obtain ⟨c, hc, hw⟩ := List.mem_flatMap.mp hw
    have hct : c.1.tmpId = some t := by simpa [copyAccesses] using hw
    exact ⟨I, hI, .inr ⟨c, hc, (names_iff_tmpId.mpr hct).2⟩⟩

/-! ### Live temporaries are mentioned before and after -/

namespace IrFunction.SlotReady

variable {fn : IrFunction}

/-- A step with a temporary live across it goes forward. -/
theorem pos_step
    (h : fn.SlotReady) {p q : Point} (hs : fn.flow.step p q) {t : Nat}
    (ht : fn.LiveAcross p q t) :
  ∃ I, fn.instrAt p = some I ∧ fn.pos p ≤ fn.pos q ∧ (I.op.isJump → fn.pos p < fn.pos q)
  := by
  obtain ⟨I, hI, hq⟩ := id hs
  exact ⟨I, hI, fn.pos_step hI hq fun hb => h.forward p q hs hb t ht⟩

/-- A live temporary is mentioned at or after the point. -/
theorem mentioned_after
    (h : fn.SlotReady) {t : Nat} {q : Point} (hl : fn.flow.Live ⟨.tmp, t⟩ q) :
  ∃ x, fn.pos q ≤ x ∧ Mentions fn.instrs t x
  := by
  obtain ⟨b, hav, huse⟩ := hl
  induction hav using Relation.ReflTransGen.head_induction_on with
  | refl =>
    obtain ⟨I, hI, ⟨v, hv, hk⟩ | ⟨q, hq, c, hc, hk⟩⟩ := huse
    · obtain ⟨href, hop, -⟩ := mem_refs_of_inputs hv
      exact ⟨fn.pos b, le_refl _, mentions_of_ref hI hop href (names_iff_tmpId.mp hk)⟩
    · have hread := names_iff_tmpId.mp hk
      obtain ⟨J, hJ, hle, -⟩ := h.pos_step ⟨I, hI, hq⟩ (.inr ⟨I, hI, c, hc, hread⟩)
      obtain ⟨hjump, -⟩ := fn.edgeCopies_phi hc
      unfold IrFunction.edgeCopies at hc
      rw [if_pos hjump] at hc
      split at hc
      · rename_i blk hblk
        obtain ⟨x, hx, -, hm⟩ := mentions_of_copy (k := 0) hblk hc
        refine ⟨x, ?_, hm t hread⟩
        rw [nexts_jump hjump hq] at hle
        apply hle.trans hx
      · cases hc
  | head hstep hrest ih =>
    rename_i a c
    obtain ⟨x, hx, hm⟩ := ih
    have hlive : fn.flow.Live ⟨.tmp, t⟩ c := ⟨b, hrest, huse⟩
    obtain ⟨J, hJ, hle, -⟩ := h.pos_step hstep.1 (.inl ⟨hlive, hstep.2⟩)
    exact ⟨x, hle.trans hx, hm⟩

/-- A temporary that is live at the start of a block is live after its first phis. -/
theorem live_after_phi
    {t b k : Nat} {I : IrInstr} (hI : fn.instrAt (b, k) = some I)
    (hop : I.op = .nop ∨ I.op = .phi) (hl : fn.flow.Live ⟨.tmp, t⟩ (b, k)) :
  fn.flow.Live ⟨.tmp, t⟩ (b, k + 1)
  := by
  have hjump : I.op.isJump = false := by
    rcases hop with hop | hop <;> rw [hop] <;> rfl
  obtain ⟨c, hav, huse⟩ := hl
  rcases Relation.ReflTransGen.cases_head hav with rfl | ⟨d, ⟨⟨J, hJ, hd⟩, -⟩, hrest⟩
  · exfalso
    obtain ⟨J, hJ, ⟨v, hv, -⟩ | ⟨q, -, c, hc, -⟩⟩ := huse
    · obtain rfl := Option.some_inj.mp (hI.symm.trans hJ)
      obtain ⟨-, hnop, hphi⟩ := mem_refs_of_inputs hv
      rcases hop with hop | hop
      · contradiction
      · contradiction
    · obtain rfl := Option.some_inj.mp (hI.symm.trans hJ)
      rw [(fn.edgeCopies_phi hc).1] at hjump
      cases hjump
  · obtain rfl := Option.some_inj.mp (hI.symm.trans hJ)
    obtain rfl := nexts_not_jump hjump hd
    exact ⟨c, hrest, huse⟩

/-- In a block whose phis lead, a phi comes before any other instruction. -/
theorem lt_of_phisLead
    {l : List IrInstr} (hl : Polyc.phisLead l) {j k : Nat} {P I : IrInstr}
    (hP : l[j]? = some P) (hI : l[k]? = some I) (hphi : P.op = .phi) (hI' : I.op ≠ .phi)
    (hnop : I.op ≠ .nop) :
  j < k
  := by
  induction l generalizing j k with
  | nil => cases hP
  | cons J l ih =>
    unfold Polyc.phisLead at hl
    split at hl
    · cases k with
      | zero =>
        rw [List.getElem?_cons_zero, Option.some_inj] at hI
        subst hI
        rcases ‹J.op = .nop ∨ J.op = .phi› with h | h <;> contradiction
      | succ k =>
        cases j with
        | zero => omega
        | succ j =>
          rw [List.getElem?_cons_succ] at hP hI
          have hlt := ih hl hP hI
          omega
    · cases j with
      | zero =>
        rw [List.getElem?_cons_zero, Option.some_inj] at hP
        subst hP
        rename_i hno
        cases hno (.inr hphi)
      | succ j =>
        rw [List.getElem?_cons_succ] at hP
        cases hl P (List.mem_of_getElem? hP) hphi

/-- The copies of an edge are made in the order of the phis. -/
theorem copies_eq
    (h : fn.SlotReady) {p q : Point} {I : IrInstr} (hI : fn.instrAt p = some I)
    (hq : q ∈ I.nexts p) {cs : List (IrValue × IrValue)}
    (hcs : x86_64PhiMaterialise (fn.edgeCopies p q I) = some cs) :
  cs = fn.edgeCopies p q I
  := by
  rw [materialise_of_independent (h.independent p q I hI hq)] at hcs
  exact (Option.some_inj.mp hcs).symm

/-- A live temporary that a run has written was defined by a step that ends at or before the
point. -/
theorem defined_before
    (h : fn.SlotReady) {t : Nat} {q : Point} {log : List Access} (hrun : fn.Runs q log)
    (hw : .write t ∈ log) (hl : fn.flow.Live ⟨.tmp, t⟩ q) :
  ∃ a b, fn.flow.step a b ∧ fn.flow.defines a b ⟨.tmp, t⟩ ∧ fn.pos b ≤ fn.pos q
  := by
  induction hrun with
  | start => cases hw
  | @step b q log I cs hrun hI hq hcs ih =>
    have hs : fn.flow.step b q := ⟨I, hI, hq⟩
    by_cases hd : fn.flow.defines b q ⟨.tmp, t⟩
    · exact ⟨b, q, hs, hd, le_refl _⟩
    · have hbefore : .write t ∈ log := by
        rw [List.append_assoc, h.copies_eq hI hq hcs, List.mem_append] at hw
        exact hw.resolve_right fun hw => hd (defines_of_write hI hw)
      obtain ⟨a, c, hac, hdef, hle⟩ := ih hbefore (hl.step hs hd)
      obtain ⟨J, hJ, hpos, -⟩ := h.pos_step hs (.inl ⟨hl, hd⟩)
      exact ⟨a, c, hac, hdef, hle.trans hpos⟩

/-- A temporary that is live at an instruction other than a phi, and was written, is mentioned at
or before it. -/
theorem mentioned_before
    (h : fn.SlotReady) {t : Nat} {q : Point} {I : IrInstr} {log : List Access}
    (hrun : fn.Runs q log) (hwrite : .write t ∈ log) (hl : fn.flow.Live ⟨.tmp, t⟩ q)
    (hI : fn.instrAt q = some I) (hnop : I.op ≠ .nop) (hphi : I.op ≠ .phi) :
  ∃ x, x ≤ fn.pos q ∧ Mentions fn.instrs t x
  := by
  obtain ⟨a, b, ⟨J, hJ, hb⟩, ⟨J', hJ', hdef⟩, hle⟩ := h.defined_before hrun hwrite hl
  obtain rfl := Option.some_inj.mp (hJ.symm.trans hJ')
  rcases hdef with hw | ⟨c, hc, hk⟩
  · simp only [IrInstr.writes, Bool.and_eq_true, Option.any_eq_true, decide_eq_true_eq] at hw
    obtain ⟨hw, d, hd, hk⟩ := hw
    have hop : J.op ≠ .nop ∧ J.op.isJump = false := by
      constructor
      · intro e
        rw [e] at hw
        cases hw
      · cases hop : J.op <;> rw [hop] at hw <;> first
          | rfl
          | cases hw
    have htmp : d.tmpId = some t :=
      tmpId_eq_some.mpr ⟨congrArg VarKey.kind hk, congrArg VarKey.id hk⟩
    refine ⟨fn.pos a, ?_, mentions_of_ref hJ hop.1 (by simp [IrInstr.refs, hd]) htmp⟩
    rw [nexts_not_jump hop.2 hb] at hle
    apply (fn.pos_mono a.1 (Nat.le_succ a.2)).trans hle
  · have htmp : c.1.tmpId = some t :=
      tmpId_eq_some.mpr ⟨congrArg VarKey.kind hk, congrArg VarKey.id hk⟩
    obtain ⟨hjump, -⟩ := fn.edgeCopies_phi hc
    unfold IrFunction.edgeCopies at hc
    rw [if_pos hjump] at hc
    split at hc
    · rename_i blk hblk
      obtain ⟨j, P, -, hP, hop, hdst, -⟩ := mem_copiesFrom (k := 0) hc
      have hat : fn.instrAt (b.1, j) = some P := by simp [IrFunction.instrAt, hblk, hP]
      have hPnop : P.op ≠ .nop := by
        rw [hop]
        decide
      refine ⟨fn.pos (b.1, j), ?_, mentions_of_ref hat hPnop (by simp [IrInstr.refs, hdst]) htmp⟩
      rw [nexts_jump hjump hb] at hle
      obtain ⟨blk', hblk', hI'⟩ := Option.bind_eq_some_iff.mp hI
      rcases Nat.lt_trichotomy (fn.layoutIndex b.1) (fn.layoutIndex q.1) with hlt | heq | hgt
      · apply (fn.pos_lt_of_layoutIndex_lt (p := (b.1, j)) hat hPnop hlt).le
      · -- the phi is in the block of the point, before the instruction
        have hsame : blk = blk' := by
          have hget := fn.getElem?_layoutIndex hblk
          rw [heq, fn.getElem?_layoutIndex hblk'] at hget
          apply (Option.some_inj.mp hget).symm
        subst hsame
        have hid : b.1 = q.1 :=
          (fn.findBlock_some hblk).2.symm.trans (fn.findBlock_some hblk').2
        have hlt := lt_of_phisLead (h.phisLead blk (fn.findBlock_some hblk).1) hP hI' hop hphi
          hnop
        rw [hid]
        apply fn.pos_mono q.1 hlt.le
      · have hlt := fn.pos_lt_of_layoutIndex_lt (q := (b.1, 0)) hI hnop hgt
        omega
    · cases hc

end IrFunction.SlotReady

/-! ### Shared slots -/

/-- Temporaries that share a slot are not mentioned around each other. -/
def Apart (fn : IrFunction) (slot : Nat → Option Int) : Prop :=
  ∀ t u l, slot t = some l → slot u = some l → t ≠ u → ∀ x y z,
    Mentions fn.instrs t x → Mentions fn.instrs u y → Mentions fn.instrs t z →
    ¬ (x ≤ y ∧ y ≤ z)

/-- Every temporary that is live at a point and was written holds its slot. -/
def LiveHold (fn : IrFunction) (slot : Nat → Option Int) (p : Point) (done : List Access) :
    Prop :=
  ∀ t l, fn.flow.Live ⟨.tmp, t⟩ p → slot t = some l → .write t ∈ done →
    holders slot (fun _ => none) done l = some t

section Runs

variable {fn : IrFunction} {slot : Nat → Option Int}

/-- Writing a temporary where another is needed takes a slot that the other does not hold. -/
theorem hold_of_apart
    (hapart : Apart fn slot) {W : Int → Option Nat} {t u : Nat} {l : Int} (ht : slot t = some l)
    (htu : t ≠ u) (hW : W l = some t) {x y z : Nat} (hx : Mentions fn.instrs t x)
    (hy : Mentions fn.instrs u y) (hz : Mentions fn.instrs t z) (hxy : x ≤ y) (hyz : y ≤ z) :
  hold slot W u l = some t
  := by
  rw [hold, if_neg, hW]
  exact fun hu => hapart t u l ht hu htu x y z hx hy hz ⟨hxy, hyz⟩

/-- Reads keep what is held. -/
theorem LiveHold.append_reads {p : Point} {done : List Access} (hW : LiveHold fn slot p done)
    (ts : List Nat) :
  LiveHold fn slot p (done ++ ts.map .read)
  := by
  intro t l hlive hl hw
  rw [holders_append, holders_reads]
  exact hW t l hlive hl (write_mem_append_reads.mp hw)

/-- A jump only reads. -/
theorem accesses_of_jump {I : IrInstr} (hjump : I.op.isJump) :
  I.accesses = (I.inputs.filterMap IrValue.tmpId).map .read
  := by
  have hnone : I.writtenTmp = none := by
    unfold IrInstr.writtenTmp
    cases hop : I.op <;> rw [hop] at hjump <;> first
      | rfl
      | cases hjump
  rw [IrInstr.accesses, hnone]
  exact List.append_nil _

/-- The accesses of an instruction read what is held, and what is live afterwards is held. -/
theorem LiveHold.instr
    (h : fn.SlotReady) (hapart : Apart fn slot) {p : Point} {log : List Access}
    (hrun : fn.Runs p log) (hW : LiveHold fn slot p log) {I : IrInstr}
    (hI : fn.instrAt p = some I) :
  ReadsOwn slot log I.accesses
    ∧ (I.op.isJump = false → ∀ q ∈ I.nexts p, LiveHold fn slot q (log ++ I.accesses))
  := by
  have hreads : ReadsOwn slot log ((I.inputs.filterMap IrValue.tmpId).map .read) := by
    apply readsOwn_reads
    intro t ht hw l hl
    obtain ⟨v, hv, hvt⟩ := List.mem_filterMap.mp ht
    apply hW t l _ hl hw
    exact FlowGraph.live_of_use ⟨I, hI, .inl ⟨v, hv, names_iff_tmpId.mpr hvt⟩⟩
  -- what is live after an instruction that does not jump, and not written by it, is live before
  have hkeep : I.op.isJump = false → ∀ q ∈ I.nexts p, ∀ t, fn.flow.Live ⟨.tmp, t⟩ q →
      I.writtenTmp ≠ some t → fn.flow.Live ⟨.tmp, t⟩ p := by
    intro hjump q hq t hlive hne
    apply hlive.step ⟨I, hI, hq⟩
    rintro ⟨J, hJ, hw | ⟨c, hc, -⟩⟩
    · obtain rfl := Option.some_inj.mp (hI.symm.trans hJ)
      apply hne (writtenTmp_eq_some.mpr hw)
    · obtain rfl := Option.some_inj.mp (hI.symm.trans hJ)
      rw [(fn.edgeCopies_phi hc).1] at hjump
      cases hjump
  unfold IrInstr.accesses
  cases hu : I.writtenTmp with
  | none =>
    rw [Option.toList_none, List.map_nil, List.append_nil]
    use hreads
    intro hjump q hq t l hlive hl hw
    apply hW.append_reads _ t l _ hl hw
    apply hkeep hjump q hq t hlive
    rw [hu]
    simp
  | some u =>
    obtain ⟨hjump, hnop, hphi, hmention⟩ := mentions_written hI hu
    rw [readsOwn_append]
    use ⟨hreads, trivial⟩
    intro _ q hq t l hlive hl hw
    rw [← List.append_assoc] at hw ⊢
    rw [holders_append, holders_append, holders_reads]
    by_cases htu : t = u
    · subst htu
      simp [holders, hold, hl]
    · have hbefore : .write t ∈ log := by
        rcases List.mem_append.mp hw with hw | hw
        · exact write_mem_append_reads.mp hw
        · exact absurd (by simpa using hw) htu
      have hliveP : fn.flow.Live ⟨.tmp, t⟩ p := by
        apply hkeep hjump q hq t hlive
        rw [hu, Ne, Option.some_inj]
        exact fun heq => htu heq.symm
      obtain ⟨z, hz, hmz⟩ := h.mentioned_after hlive
      have hpos : fn.pos p ≤ fn.pos q := by
        rw [nexts_not_jump hjump hq]
        apply fn.pos_mono p.1 (Nat.le_succ p.2)
      obtain ⟨x, hx, hmx⟩ := h.mentioned_before hrun hbefore hliveP hI hnop hphi
      exact hold_of_apart hapart hl htu (hW t l hliveP hl hbefore) hmx hmention hmz hx
        (hpos.trans hz)

/-- What the copies from an index on still need: what they read, and what is live afterwards
and not written by them. -/
def NeededFrom (fn : IrFunction) (pred : Nat) (q : Point) (blk : IrBlock) (k t : Nat) : Prop :=
  (∃ c ∈ copiesFrom pred blk k, c.2.tmpId = some t)
    ∨ (fn.flow.Live ⟨.tmp, t⟩ q ∧ ∀ c ∈ copiesFrom pred blk k, c.1.tmpId ≠ some t)

/-- The copies from an index on, after the instruction at the index. -/
theorem copiesFrom_cases (pred : Nat) {blk : IrBlock} {k : Nat} {I : IrInstr}
    (hI : blk.instructions[k]? = some I) :
  ((I.op = .nop ∨ I.op = .phi) ∧ copiesFrom pred blk k = copiesFrom pred blk (k + 1))
    ∨ (I.op = .phi ∧ ∃ c, I.dst = some c.1
        ∧ copiesFrom pred blk k = c :: copiesFrom pred blk (k + 1))
    ∨ copiesFrom pred blk k = []
  := by
  have hdrop : blk.instructions.drop k = I :: blk.instructions.drop (k + 1) := by
    obtain ⟨hlt, rfl⟩ := List.getElem?_eq_some_iff.mp hI
    rw [List.getElem_cons_drop]
  unfold copiesFrom phiCopies leadingPhis
  rw [hdrop]
  by_cases hnop : I.op = .nop
  · left
    refine ⟨.inl hnop, ?_⟩
    rw [List.filter_cons_of_neg (by simpa using hnop)]
  · rw [List.filter_cons_of_pos (by simpa using hnop)]
    by_cases hphi : I.op = .phi
    · rw [List.takeWhile_cons_of_pos (by simpa using hphi)]
      cases hc : I.dst.bind fun d => (phiIncoming pred I).map (d, ·) with
      | none =>
        left
        refine ⟨.inr hphi, ?_⟩
        simp only [List.filterMap_cons, hc]
      | some c =>
        right; left
        refine ⟨hphi, c, ?_, ?_⟩
        · obtain ⟨d, hd, hc⟩ := Option.bind_eq_some_iff.mp hc
          obtain ⟨v, -, rfl⟩ := Option.map_eq_some_iff.mp hc
          apply hd
        · simp only [List.filterMap_cons, hc]
    · right; right
      rw [List.takeWhile_cons_of_neg (by simpa using hphi)]
      rfl

/-- A temporary that is still needed before a copy has been mentioned before it, and will be
mentioned after it. -/
theorem NeededFrom.mentions
    (h : fn.SlotReady) {p q : Point} {I : IrInstr} {log : List Access} (hrun : fn.Runs p log)
    (hI : fn.instrAt p = some I) (hq : q ∈ I.nexts p) (hjump : I.op.isJump) {blk : IrBlock}
    (hblk : fn.findBlock q.1 = some blk) {k : Nat}
    (hlive : ∀ t, fn.flow.Live ⟨.tmp, t⟩ q → fn.flow.Live ⟨.tmp, t⟩ (q.1, k + 1))
    (hsub : ∀ c ∈ copiesFrom p.1 blk (k + 1), c ∈ fn.edgeCopies p q I)
    (hdone : ∀ c ∈ fn.edgeCopies p q I, c ∈ copiesFrom p.1 blk (k + 1)
      ∨ ∃ x ≤ fn.pos (q.1, k), ∀ t, c.1.tmpId = some t → Mentions fn.instrs t x)
    {t : Nat} (ht : NeededFrom fn p.1 q blk (k + 1) t)
    (hw : .write t ∈ log ∨ ∃ c ∈ fn.edgeCopies p q I, c.1.tmpId = some t) :
  ∃ x z, x ≤ fn.pos (q.1, k) ∧ fn.pos (q.1, k) ≤ z ∧ Mentions fn.instrs t x
    ∧ Mentions fn.instrs t z
  := by
  have hstep : fn.flow.step p q := ⟨I, hI, hq⟩
  have hnop : I.op ≠ .nop ∧ I.op ≠ .phi := by
    constructor <;> intro e <;> rw [e] at hjump <;> cases hjump
  have hzero : fn.pos q ≤ fn.pos (q.1, k) := by
    rw [nexts_jump hjump hq]
    apply fn.pos_mono q.1 (Nat.zero_le k)
  have hsucc : fn.pos (q.1, k) ≤ fn.pos (q.1, k + 1) := fn.pos_mono q.1 (Nat.le_succ k)
  -- what is live across the edge has been mentioned before the jump
  have hbefore : fn.LiveAcross p q t → fn.flow.Live ⟨.tmp, t⟩ p → .write t ∈ log →
      ∃ x ≤ fn.pos (q.1, k), Mentions fn.instrs t x := by
    intro hacross hl hw
    obtain ⟨J, hJ, hle, -⟩ := h.pos_step hstep hacross
    obtain ⟨x, hx, hm⟩ := h.mentioned_before hrun hw hl hI hnop.1 hnop.2
    exact ⟨x, by omega, hm⟩
  rcases ht with ⟨c, hc, hct⟩ | ⟨hl, hno⟩
  · have hedge := hsub c hc
    obtain ⟨z, hz, -, hm⟩ := mentions_of_copy hblk hc
    have hread : fn.flow.Live ⟨.tmp, t⟩ p :=
      FlowGraph.live_of_use ⟨I, hI, .inr ⟨q, hq, c, hedge, names_iff_tmpId.mpr hct⟩⟩
    have hwrite : .write t ∈ log := by
      apply hw.resolve_right
      rintro ⟨d, hd, hdt⟩
      apply h.independent p q I hI hq d hd c hedge
      · simp [hct]
      · rw [hct, hdt]
    obtain ⟨x, hx, hmx⟩ := hbefore (.inr ⟨I, hI, c, hedge, hct⟩) hread hwrite
    exact ⟨x, z, hx, by omega, hmx, hm t hct⟩
  · obtain ⟨z, hz, hmz⟩ := h.mentioned_after (hlive t hl)
    by_cases hd : fn.flow.defines p q ⟨.tmp, t⟩
    · obtain ⟨J, hJ, hw | ⟨c, hc, hk⟩⟩ := hd
      · obtain rfl := Option.some_inj.mp (hI.symm.trans hJ)
        have hnot := (mentions_written hI (writtenTmp_eq_some.mpr hw)).1
        rw [hnot] at hjump
        cases hjump
      · obtain rfl := Option.some_inj.mp (hI.symm.trans hJ)
        have hct : c.1.tmpId = some t :=
          tmpId_eq_some.mpr ⟨congrArg VarKey.kind hk, congrArg VarKey.id hk⟩
        rcases hdone c hc with hlater | ⟨x, hx, hm⟩
        · cases hno c hlater hct
        · exact ⟨x, z, hx, by omega, hm t hct, hmz⟩
    · have hwrite : .write t ∈ log := by
        apply hw.resolve_right
        rintro ⟨c, hc, hct⟩
        exact hd ⟨I, hI, .inr ⟨c, hc, (names_iff_tmpId.mpr hct).2⟩⟩
      obtain ⟨x, hx, hmx⟩ := hbefore (.inl ⟨hl, hd⟩) (hl.step hstep hd) hwrite
      exact ⟨x, z, hx, by omega, hmx, hmz⟩

/-- Without further copies, what is live afterwards is needed. -/
theorem LiveHold.of_nil
    {pred k : Nat} {q : Point} {blk : IrBlock} {done : List Access}
    (hneed : ∀ t l, slot t = some l → NeededFrom fn pred q blk k t → .write t ∈ done →
      holders slot (fun _ => none) done l = some t)
    (hnil : copiesFrom pred blk k = []) :
  ReadsOwn slot done ((copiesFrom pred blk k).flatMap copyAccesses)
    ∧ LiveHold fn slot q (done ++ (copiesFrom pred blk k).flatMap copyAccesses)
  := by
  rw [hnil, List.flatMap_nil, List.append_nil]
  refine ⟨trivial, ?_⟩
  intro t l hl hs hw
  apply hneed t l hs _ hw
  right
  rw [hnil]
  refine ⟨hl, ?_⟩
  intro c hc
  cases hc

/-- The copies of an edge read what is held, and what is live afterwards is held. -/
theorem LiveHold.copies
    (h : fn.SlotReady) (hapart : Apart fn slot) {p q : Point} {I : IrInstr} {log : List Access}
    (hrun : fn.Runs p log) (hI : fn.instrAt p = some I) (hq : q ∈ I.nexts p)
    (hjump : I.op.isJump) {blk : IrBlock} (hblk : fn.findBlock q.1 = some blk) {n k : Nat}
    (hn : blk.instructions.length - k = n) {done : List Access}
    (hneed : ∀ t l, slot t = some l → NeededFrom fn p.1 q blk k t → .write t ∈ done →
      holders slot (fun _ => none) done l = some t)
    (hwritten : ∀ t, .write t ∈ done →
      .write t ∈ log ∨ ∃ c ∈ fn.edgeCopies p q I, c.1.tmpId = some t)
    (hlive : ∀ t, fn.flow.Live ⟨.tmp, t⟩ q → fn.flow.Live ⟨.tmp, t⟩ (q.1, k))
    (hsub : ∀ c ∈ copiesFrom p.1 blk k, c ∈ fn.edgeCopies p q I)
    (hdone : ∀ c ∈ fn.edgeCopies p q I, c ∈ copiesFrom p.1 blk k
      ∨ ∃ x ≤ fn.pos (q.1, k), ∀ t, c.1.tmpId = some t → Mentions fn.instrs t x) :
  ReadsOwn slot done ((copiesFrom p.1 blk k).flatMap copyAccesses)
    ∧ LiveHold fn slot q (done ++ (copiesFrom p.1 blk k).flatMap copyAccesses)
  := by
  induction n generalizing k done with
  | zero =>
    apply LiveHold.of_nil hneed
    unfold copiesFrom
    rw [List.drop_eq_nil_of_le (by omega)]
    rfl
  | succ n ih =>
    have hlt : k < blk.instructions.length := by omega
    have hget : blk.instructions[k]? = some blk.instructions[k] := List.getElem?_eq_getElem hlt
    have hat : fn.instrAt (q.1, k) = some blk.instructions[k] := by
      simp [IrFunction.instrAt, hblk]
    have hsucc : fn.pos (q.1, k) ≤ fn.pos (q.1, k + 1) := fn.pos_mono q.1 (Nat.le_succ k)
    have hfuel : blk.instructions.length - (k + 1) = n := by omega
    rcases copiesFrom_cases p.1 hget with ⟨hop, hsame⟩ | ⟨hop, c, hdst, hcons⟩ | hnil
    · -- the instruction makes no copy
      have hlive' : ∀ t, fn.flow.Live ⟨.tmp, t⟩ q → fn.flow.Live ⟨.tmp, t⟩ (q.1, k + 1) := by
        intro t hl
        apply IrFunction.SlotReady.live_after_phi hat hop (hlive t hl)
      unfold NeededFrom at hneed
      rw [hsame] at hneed hsub hdone ⊢
      apply ih hfuel hneed hwritten hlive' hsub
      intro c hc
      rcases hdone c hc with hlater | ⟨x, hx, hm⟩
      · exact .inl hlater
      · exact .inr ⟨x, hx.trans hsucc, hm⟩
    · -- the instruction makes the copy `c`
      have hnop : blk.instructions[k].op ≠ .nop := by
        rw [hop]
        decide
      have hlive' : ∀ t, fn.flow.Live ⟨.tmp, t⟩ q → fn.flow.Live ⟨.tmp, t⟩ (q.1, k + 1) := by
        intro t hl
        apply IrFunction.SlotReady.live_after_phi hat (.inr hop) (hlive t hl)
      have hsub' : ∀ d ∈ copiesFrom p.1 blk (k + 1), d ∈ fn.edgeCopies p q I := by
        intro d hd
        apply hsub
        rw [hcons]
        apply List.mem_cons_of_mem c hd
      have hwrite : ∀ t, c.1.tmpId = some t → Mentions fn.instrs t (fn.pos (q.1, k)) := by
        intro t ht
        apply mentions_of_ref hat hnop (by simp [IrInstr.refs, hdst]) ht
      have hdone' : ∀ d ∈ fn.edgeCopies p q I, d ∈ copiesFrom p.1 blk (k + 1)
          ∨ ∃ x ≤ fn.pos (q.1, k), ∀ t, d.1.tmpId = some t → Mentions fn.instrs t x := by
        intro d hd
        rcases hdone d hd with hlater | hbefore
        · rw [hcons, List.mem_cons] at hlater
          rcases hlater with rfl | hlater
          · exact .inr ⟨_, le_refl _, hwrite⟩
          · exact .inl hlater
        · exact .inr hbefore
      have hneed' : ∀ t, NeededFrom fn p.1 q blk (k + 1) t → c.1.tmpId ≠ some t →
          NeededFrom fn p.1 q blk k t := by
        intro t ht hne
        unfold NeededFrom
        rw [hcons]
        rcases ht with ⟨d, hd, hdt⟩ | ⟨hl, hno⟩
        · exact .inl ⟨d, List.mem_cons_of_mem c hd, hdt⟩
        · refine .inr ⟨hl, ?_⟩
          intro d hd
          rcases List.mem_cons.mp hd with rfl | hd
          · apply hne
          · apply hno d hd
      have hread : ReadsOwn slot done (c.2.tmpId.toList.map .read) := by
        apply readsOwn_reads
        intro t ht hw l hl
        apply hneed t l hl _ hw
        left
        rw [hcons]
        exact ⟨c, List.mem_cons_self, Option.mem_toList.mp ht⟩
      have hstep : ∀ t, .write t ∈ done ++ copyAccesses c →
          .write t ∈ done ∨ c.1.tmpId = some t := by
        intro t ht
        simpa [copyAccesses] using ht
      have hheld : ∀ t l, slot t = some l → NeededFrom fn p.1 q blk (k + 1) t →
          .write t ∈ done ++ copyAccesses c →
          holders slot (fun _ => none) (done ++ copyAccesses c) l = some t := by
        intro t l hl ht hw
        rw [holders_append]
        unfold copyAccesses
        rw [holders_append, holders_reads]
        by_cases htu : c.1.tmpId = some t
        · rw [htu]
          simp [holders, hold, hl]
        · have hw := (hstep t hw).resolve_right htu
          have hW := hneed t l hl (hneed' t ht htu) hw
          cases hu : c.1.tmpId with
          | none => exact hW
          | some u =>
            rw [hu, Option.some_inj] at htu
            obtain ⟨x, z, hx, hz, hmx, hmz⟩ :=
              ht.mentions h hrun hI hq hjump hblk hlive' hsub' hdone' (hwritten t hw)
            exact hold_of_apart hapart hl (fun heq => htu heq.symm) hW hmx (hwrite u hu) hmz hx hz
      have hwritten' : ∀ t, .write t ∈ done ++ copyAccesses c →
          .write t ∈ log ∨ ∃ c ∈ fn.edgeCopies p q I, c.1.tmpId = some t := by
        intro t ht
        rcases hstep t ht with hw | hct
        · exact hwritten t hw
        · right
          use c, hsub c (hcons ▸ List.mem_cons_self), hct
      have hdone'' : ∀ d ∈ fn.edgeCopies p q I, d ∈ copiesFrom p.1 blk (k + 1)
          ∨ ∃ x ≤ fn.pos (q.1, k + 1), ∀ t, d.1.tmpId = some t → Mentions fn.instrs t x := by
        intro d hd
        rcases hdone' d hd with hlater | ⟨x, hx, hm⟩
        · exact .inl hlater
        · exact .inr ⟨x, hx.trans hsucc, hm⟩
      have hrest := ih hfuel hheld hwritten' hlive' hsub' hdone''
      rw [hcons, List.flatMap_cons, readsOwn_append, ← List.append_assoc]
      refine ⟨⟨?_, hrest.1⟩, hrest.2⟩
      unfold copyAccesses
      rw [readsOwn_append]
      refine ⟨hread, ?_⟩
      cases c.1.tmpId <;> trivial
    · apply LiveHold.of_nil hneed hnil

/-- A jump reads what is held, and after its copies what is live is held. -/
theorem LiveHold.edge
    (h : fn.SlotReady) (hapart : Apart fn slot) {p q : Point} {I : IrInstr}
    {log : List Access} (hrun : fn.Runs p log) (hW : LiveHold fn slot p log)
    (hI : fn.instrAt p = some I) (hq : q ∈ I.nexts p) (hjump : I.op.isJump) :
  ReadsOwn slot (log ++ I.accesses) ((fn.edgeCopies p q I).flatMap copyAccesses)
    ∧ LiveHold fn slot q
        (log ++ I.accesses ++ (fn.edgeCopies p q I).flatMap copyAccesses)
  := by
  have hW := hW.append_reads (I.inputs.filterMap IrValue.tmpId)
  rw [← accesses_of_jump hjump] at hW
  -- what is live after the edge and not copied there is live before it
  have hkeep : ∀ t, fn.flow.Live ⟨.tmp, t⟩ q →
      (∀ c ∈ fn.edgeCopies p q I, c.1.tmpId ≠ some t) → fn.flow.Live ⟨.tmp, t⟩ p := by
    intro t hl hno
    apply hl.step ⟨I, hI, hq⟩
    rintro ⟨J, hJ, hw | ⟨c, hc, hk⟩⟩
    · obtain rfl := Option.some_inj.mp (hI.symm.trans hJ)
      rw [(mentions_written hI (writtenTmp_eq_some.mpr hw)).1] at hjump
      cases hjump
    · obtain rfl := Option.some_inj.mp (hI.symm.trans hJ)
      apply hno c hc
      apply tmpId_eq_some.mpr ⟨congrArg VarKey.kind hk, congrArg VarKey.id hk⟩
  cases hblk : fn.findBlock q.1 with
  | none =>
    have hnil : fn.edgeCopies p q I = [] := by
      unfold IrFunction.edgeCopies
      rw [if_pos hjump, hblk]
    rw [hnil, List.flatMap_nil, List.append_nil]
    refine ⟨trivial, ?_⟩
    intro t l hl hs hw
    apply hW t l _ hs hw
    apply hkeep t hl
    rw [hnil]
    intro c hc
    cases hc
  | some blk =>
    have hcopies : fn.edgeCopies p q I = copiesFrom p.1 blk 0 := by
      unfold IrFunction.edgeCopies
      rw [if_pos hjump, hblk]
      rfl
    rw [hcopies]
    apply LiveHold.copies h hapart hrun hI hq hjump hblk rfl
    · rintro t l hs (⟨c, hc, hct⟩ | ⟨hl, hno⟩) hw
      · apply hW t l _ hs hw
        rw [← hcopies] at hc
        exact FlowGraph.live_of_use ⟨I, hI, .inr ⟨q, hq, c, hc, names_iff_tmpId.mpr hct⟩⟩
      · apply hW t l _ hs hw
        apply hkeep t hl
        rwa [hcopies]
    · intro t hw
      rw [accesses_of_jump hjump] at hw
      exact .inl (write_mem_append_reads.mp hw)
    · intro t hl
      rwa [← nexts_jump hjump hq]
    · intro c hc
      rwa [hcopies]
    · intro c hc
      left
      rwa [← hcopies]

/-- A run reads what is held, and what is live where it has come to is held. -/
theorem runs_liveHold
    (h : fn.SlotReady) (hapart : Apart fn slot) {p : Point} {log : List Access}
    (hrun : fn.Runs p log) :
  ReadsOwn slot [] log ∧ LiveHold fn slot p log
  := by
  induction hrun with
  | start =>
    refine ⟨trivial, ?_⟩
    intro t l _ _ hw
    cases hw
  | @step p q log I cs hrun hI hq hcs ih =>
    obtain ⟨hreads, hlive⟩ := ih
    obtain ⟨hown, hnext⟩ := hlive.instr h hapart hrun hI
    obtain rfl := h.copies_eq hI hq hcs
    rw [readsOwn_append, readsOwn_append, List.nil_append, List.nil_append]
    by_cases hjump : I.op.isJump
    · obtain ⟨hcopies, hlive'⟩ := hlive.edge h hapart hrun hI hq hjump
      exact ⟨⟨⟨hreads, hown⟩, hcopies⟩, hlive'⟩
    · have hnone : fn.edgeCopies p q I = [] := by
        unfold IrFunction.edgeCopies
        rw [if_neg hjump]
      rw [hnone, List.flatMap_nil, List.append_nil]
      exact ⟨⟨⟨hreads, hown⟩, trivial⟩, hnext (by simpa using hjump) q hq⟩

/-- The accesses of a run read what is held. -/
theorem logged_readsOwn
    (h : fn.SlotReady) (hapart : Apart fn slot) {log : List Access} (hlog : fn.Logged log) :
  ReadsOwn slot [] log
  := by
  obtain ⟨p, log, hrun, rfl | ⟨I, hI, rfl⟩⟩ := hlog
  · exact (runs_liveHold h hapart hrun).1
  · obtain ⟨hreads, hlive⟩ := runs_liveHold h hapart hrun
    rw [readsOwn_append]
    exact ⟨hreads, (hlive.instr h hapart hrun hI).1⟩

end Runs

/-! ### The allocator -/

/-- The slot of the second pass that a temporary has. -/
def sharedSlot (ra ra' : IrRaCtx) (t : Nat) : Option Int :=
  if ra.has t then none else ra'.idToLoff.lookup t

theorem hasSlot_iff {ra ra' : IrRaCtx} {t : Nat} {l : Int} :
  HasSlot ra ra' t l ↔ sharedSlot ra ra' t = some l
  := by
  unfold HasSlot sharedSlot
  cases ra.has t <;> simp

section Allocator

variable {fn : IrFunction} {qsort : List IrCgRange → List IrCgRange} {start : Nat}
variable {ra ra' : IrRaCtx}

/-- All mentions of a temporary with a slot are in its range. -/
theorem HasSlot.mentionedAt
    (hready : fn.SlotReady) (hqsort : IsQsort qsort)
    (h : irCgColour start ra [] (qsort (irCgSlotRanges ra (irCgRecordRefs [] 0 fn.instrs)))
      = some ra')
    {t x : Nat} {l : Int} (ht : HasSlot ra ra' t l) (hm : Mentions fn.instrs t x) :
  MentionedAt fn.instrs t x
  := by
  obtain ⟨i, r, hr, rfl, -⟩ := ht.index h
  have hmem : r ∈ irCgRecordRefs [] 0 fn.instrs := by
    apply List.mem_of_mem_filter
    apply (hqsort.perm _).mem_iff.mp
    apply List.mem_of_getElem? hr
  obtain ⟨J, hJ, v, hv, hvt⟩ := hm
  obtain ⟨hvk, hvid⟩ := tmpId_eq_some.mp hvt
  refine ⟨J, hJ, v, hv, ?_, hvid⟩
  rcases mem_recordRefs hmem with ⟨r', hr', -⟩ | ⟨I, hI, w, hw, hrange, hwid⟩
  · cases hr'
  · have hJmem : J ∈ fn.instrs := List.mem_of_mem_filter (List.mem_of_getElem? hJ)
    simp only [IrValue.hasRange, decide_eq_true_eq] at hrange ⊢
    refine ⟨hvk, ?_⟩
    exact hready.typed I hI J hJmem w hw v hv hrange.1 hvk (hwid.trans hvid.symm) hrange.2

/-- The slots of the second pass keep temporaries apart. -/
theorem apart_of_colour
    (hready : fn.SlotReady) (hqsort : IsQsort qsort)
    (h : irCgColour start ra [] (qsort (irCgSlotRanges ra (irCgRecordRefs [] 0 fn.instrs)))
      = some ra') :
  Apart fn (sharedSlot ra ra')
  := by
  intro t u l ht hu hne x y z hx hy hz
  rintro ⟨hxy, hyz⟩
  have ht := hasSlot_iff.mpr ht
  have hu := hasSlot_iff.mpr hu
  have hx := ht.mentionedAt hready hqsort h hx
  have hy := hu.mentionedAt hready hqsort h hy
  have hz := ht.mentionedAt hready hqsort h hz
  rcases mentions_apart hqsort h ht hu hne with hlt | hlt
  · have hlt := hlt z y hz hy
    omega
  · have hlt := hlt x y hx hy
    omega

end Allocator

/-- Slots that the allocator shares hold, whenever a temporary is read that was written before, what
was last written to it; and they lie below the buffers, their aliases and all offsets from before. -/
theorem irCgAllocAllTmps_sound
    {qsort : List IrCgRange → List IrCgRange} (hqsort : IsQsort qsort) {fn : IrFunction}
    (hready : fn.SlotReady) {start : Nat} {ra ra1 ra' : IrRaCtx}
    (hbuffers : irCgAllocBuffers start ra fn.instrs = some ra1)
    (h : irCgAllocAllTmps qsort ra fn.blocks start = some ra') :
  (∀ log, fn.Logged log → ReadsOwn (sharedSlot ra1 ra') [] log)
    ∧ (ra.Above start → (∀ I ∈ fn.instrs, I.GepForward) →
        ∀ t l id l', HasSlot ra1 ra' t l → ra1.idToLoff.lookup id = some l' → l + 8 ≤ l')
  := by
  have hcolour : irCgColour start ra1 []
      (qsort (irCgSlotRanges ra1 (irCgRecordRefs [] 0 fn.instrs))) = some ra' := by
    unfold irCgAllocAllTmps at h
    obtain ⟨ra2, h2, h⟩ := Option.bind_eq_some_iff.mp h
    obtain rfl := Option.some_inj.mp (hbuffers.symm.trans h2)
    apply h
  constructor
  · intro log hlog
    apply logged_readsOwn hready (apart_of_colour hready hqsort hcolour) hlog
  · intro habove hgep t l id l' ht hid
    apply slot_below (habove.buffers hgep hbuffers) hcolour ht hid

/-- When all jumps lead to later blocks, no step leads back. -/
theorem not_backward_of_later {fn : IrFunction}
    (h : ∀ b ∈ fn.blocks, ∀ I ∈ b.instructions, I.op.isJump → ∀ q ∈ I.nexts (b.id, 0),
      fn.layoutIndex b.id < fn.layoutIndex q.1) {p q : Point} (hs : fn.flow.step p q) :
  ¬ fn.Backward p q
  := by
  rintro ⟨I, hI, hjump, hle⟩
  obtain ⟨J, hJ, hq⟩ := hs
  obtain rfl := Option.some_inj.mp (hI.symm.trans hJ)
  obtain ⟨b, hb, hmem⟩ := Option.bind_eq_some_iff.mp hI
  obtain ⟨hblock, hid⟩ := fn.findBlock_some hb
  have hnext : q ∈ I.nexts (b.id, 0) := by
    unfold IrInstr.nexts at hq ⊢
    cases hop : I.op <;> rw [hop] at hjump hq <;> first
      | exact hq
      | cases hjump
  have hlt := h b hblock I (List.mem_of_getElem? hmem) hjump q hnext
  rw [hid] at hlt
  omega

/-- Two branches that store to a field of one buffer:
`t1 = alloca 16; t2 = gep t1, 8; br l1`, `t3 = l1 + 1; store t2, t3`,
`t4 = l1 + 2; store t2, t4` and `ret t2`.  The sums share a slot. -/
def bufferFn : IrFunction where
  entryBlock := 1
  blocks :=
    [{ id := 1
       instructions :=
        [{ op := .alloca, dst := irWordVar 1 .tmp 1, r1 := irConstInt 2 .i64 16 },
         { op := .gep, dst := irWordVar 3 .tmp 2, r1 := irWordVar 1 .tmp 1,
           r2 := irConstInt 4 .i64 8 },
         { op := .br, dst := irWordVar 6 .local 10, targetBlock := 2, fallthroughBlock := 3 }] },
     { id := 2
       instructions :=
        [{ op := .iadd, dst := irWordVar 5 .tmp 3, r1 := irWordVar 6 .local 10,
           r2 := irConstInt 7 .i64 1 },
         { op := .store, dst := irWordVar 3 .tmp 2, r1 := irWordVar 5 .tmp 3 },
         { op := .jmp, targetBlock := 4 }] },
     { id := 3
       instructions :=
        [{ op := .iadd, dst := irWordVar 8 .tmp 4, r1 := irWordVar 6 .local 10,
           r2 := irConstInt 9 .i64 2 },
         { op := .store, dst := irWordVar 3 .tmp 2, r1 := irWordVar 8 .tmp 4 },
         { op := .jmp, targetBlock := 4 }] },
     { id := 4
       instructions := [{ op := .ret, dst := irWordVar 3 .tmp 2 }] }]

/-- Insertion sort is what is specified of `qsort`. -/
theorem isQsort_insertionSort : IsQsort (List.insertionSort fun a b => irCgRangeLe a b) where
  perm := List.perm_insertionSort _
  sorted := by
    have htotal : Std.Total fun a b : IrCgRange => irCgRangeLe a b = true := by
      constructor
      intro a b
      simp only [irCgRangeLe, Bool.or_eq_true, Bool.and_eq_true, decide_eq_true_eq]
      omega
    have htrans : IsTrans IrCgRange fun a b => irCgRangeLe a b = true := by
      constructor
      intro a b c
      simp only [irCgRangeLe, Bool.or_eq_true, Bool.and_eq_true, decide_eq_true_eq]
      omega
    apply List.pairwise_insertionSort

theorem irCgAllocAllTmps_bufferFn :
  ∃ ra1 ra', HasSlot ra1 ra' 3 (-32) ∧ HasSlot ra1 ra' 4 (-32)
    ∧ (∀ log, bufferFn.Logged log → ReadsOwn (sharedSlot ra1 ra') [] log)
    ∧ ∀ t l id l', HasSlot ra1 ra' t l → ra1.idToLoff.lookup id = some l' → l + 8 ≤ l'
  := by
  have hready : bufferFn.SlotReady := by
    constructor
    case forward => exact fun p q hs hb => absurd hb (not_backward_of_later (by decide) hs)
    case typed => decide
    case phisLead => simp [bufferFn, phisLead]
    case independent =>
      intro p q I _ _ c hc
      obtain ⟨-, j, P, hP, hop, -⟩ := bufferFn.edgeCopies_phi hc
      have hnone : ∀ P ∈ bufferFn.instrs, P.op ≠ .phi := by decide
      exact absurd hop (hnone P (bufferFn.mem_instrs_of_instrAt hP))
  let ra : IrRaCtx := { idToLoff := [(10, -8)] }
  obtain ⟨ra1, h1⟩ : ∃ ra1, irCgAllocBuffers 8 ra bufferFn.instrs = some ra1 := ⟨_, rfl⟩
  obtain ⟨ra', h'⟩ : ∃ ra', irCgAllocAllTmps (List.insertionSort fun a b => irCgRangeLe a b) ra
      bufferFn.blocks 8 = some ra' := ⟨_, rfl⟩
  obtain ⟨hreads, hbelow⟩ := irCgAllocAllTmps_sound isQsort_insertionSort hready h1 h'
  have hgep : ∀ I ∈ bufferFn.instrs, I.op = .gep → ∀ off ∈ I.r2.toList, off.kind = .constInt →
      0 ≤ off.toInt := by decide
  refine ⟨ra1, ra', ?_, ?_, hreads, hbelow ?_ ?_⟩
  · obtain rfl := Option.some_inj.mp h1
    obtain rfl := Option.some_inj.mp h'
    constructor <;> rfl
  · obtain rfl := Option.some_inj.mp h1
    obtain rfl := Option.some_inj.mp h'
    constructor <;> rfl
  · intro e he
    obtain rfl := List.mem_singleton.mp he
    decide
  · intro I hI hop off hoff
    apply hgep I hI hop off (Option.mem_toList.mpr hoff)

end Polyc
