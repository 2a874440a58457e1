import Mathlib.Data.List.Nodup
import Mathlib.Data.List.Pairwise
import Mathlib.Data.List.TakeWhile
import Polyc.Ir.EvalArith
import Polyc.Ir.FlowGraph

/-!
# Single assignment

Functions in which every temporary is defined once, by one instruction at one point, and in
which every use of a temporary is dominated by its definition.  Locals and parameters may be
assigned any number of times.
-/

namespace Polyc

/-! ### The temporaries that a function defines -/

/-- The temporary that an instruction defines. -/
def IrInstr.definedTmp (I : IrInstr) : Option Nat :=
  if I.op.writesDst ∨ I.op = .phi then
    I.dst.bind fun d => if d.kind = .tmp then some d.varId else none
  else none

/-- The temporaries that a list of instructions defines, in order. -/
def tmpDefs (l : List IrInstr) : List Nat := l.filterMap (·.definedTmp)

/-- The instructions of a function in list order. -/
def IrFunction.instrs (fn : IrFunction) : List IrInstr := fn.blocks.flatMap (·.instructions)

/-- The definitions of a list are those of its head and those of its tail. -/
theorem tmpDefs_cons (I : IrInstr) (l : List IrInstr) :
  tmpDefs (I :: l) = I.definedTmp.toList ++ tmpDefs l
  := by
  unfold tmpDefs
  cases h : I.definedTmp with
  | none => simp [h]
  | some t => simp [h]

/-- The definitions of an appended list. -/
theorem tmpDefs_append (l l' : List IrInstr) :
  tmpDefs (l ++ l') = tmpDefs l ++ tmpDefs l'
  := List.filterMap_append

/-! ### Functions in single-assignment form -/

/-- The phis of a block come before all other instructions. -/
def phisLead : List IrInstr → Prop
  | [] => True
  | I :: l => if I.op = .nop ∨ I.op = .phi then phisLead l else ∀ J ∈ l, J.op ≠ .phi

/-- When the phis lead a block, the leading phis are all its phis. -/
theorem leadingPhis_eq_filter {l : List IrInstr} (h : phisLead l) :
  leadingPhis l = l.filter (·.op = .phi)
  := by
  induction l with
  | nil => rfl
  | cons I l ih =>
    unfold phisLead at h
    unfold leadingPhis at ih ⊢
    by_cases hnop : I.op = .nop
    · rw [if_pos (.inl hnop)] at h
      simpa [hnop] using ih h
    by_cases hphi : I.op = .phi
    · rw [if_pos (.inr hphi)] at h
      simpa [hphi] using ih h
    · rw [if_neg (by simp [hnop, hphi])] at h
      rw [List.filter_cons_of_pos (by simp [hnop]), List.takeWhile_cons_of_neg (by simp [hphi]),
        List.filter_cons_of_neg (by simp [hphi]), eq_comm, List.filter_eq_nil_iff]
      intro J hJ
      simpa using h J hJ

/-- Instructions without phis are a block that phis lead. -/
theorem phisLead_of_noPhi {l : List IrInstr} (h : ∀ J ∈ l, J.op ≠ .phi) :
  phisLead l
  := by
  induction l with
  | nil => trivial
  | cons J l ih =>
    rw [List.forall_mem_cons] at h
    rw [phisLead]
    split
    · exact ih h.2
    · exact h.2

/-- Rewriting instructions keeps the phis at the head of their blocks when phis, and only they, become
phis. -/
theorem phisLead_of_forall₂ {R : IrInstr → IrInstr → Prop}
    (hR : ∀ {I I'}, R I I' → (I'.op = .phi ↔ I.op = .phi) ∧ (I.op = .nop → I'.op = .nop))
    {l l' : List IrInstr} (h : List.Forall₂ R l l') (hl : phisLead l) :
  phisLead l'
  := by
  have hnone : ∀ {l l' : List IrInstr}, List.Forall₂ R l l' → (∀ J ∈ l, J.op ≠ .phi) →
      ∀ J ∈ l', J.op ≠ .phi := by
    intro l l' h
    induction h with
    | nil => exact fun h => h
    | cons hI _ ih =>
      rw [List.forall_mem_cons, List.forall_mem_cons]
      exact fun hl => ⟨(hR hI).1.not.mpr hl.1, ih hl.2⟩
  induction h with
  | nil => trivial
  | @cons I I' l l' hI hrest ih =>
    rw [phisLead] at hl
    split at hl
    case isFalse =>
      have hl' := hnone hrest hl
      rw [phisLead]
      split
      · exact phisLead_of_noPhi hl'
      · exact hl'
    case isTrue hop =>
      rw [phisLead, if_pos (hop.imp (hR hI).2 (hR hI).1.mpr)]
      exact ih hl

/-- Every temporary is defined once and every use of it is dominated by its definition; phis
lead their blocks. -/
structure IrFunction.SingleAssignment (fn : IrFunction) : Prop where
  once : (tmpDefs fn.instrs).Nodup
  dominated : ∀ t, ¬ fn.flow.Live ⟨.tmp, t⟩ fn.flow.entry
  phisLead : ∀ b ∈ fn.blocks, phisLead b.instructions

/-- A function in single-assignment form whose arithmetic is over variables and integer
constants. -/
structure IrFunction.IsSSA (fn : IrFunction) : Prop extends SingleAssignment fn where
  isPlain : ∀ I ∈ fn.instrs, I.op.isArith → ∀ v ∈ I.r1.toList ++ I.r2.toList, v.isPlain

/-- Two entries of a list with the same image under a partial function are at the same place
when the images are distinct. -/
theorem getElem?_unique_of_nodup_filterMap
    {α β : Type} {f : α → Option β} {l : List α} (h : (l.filterMap f).Nodup) {i j : Nat}
    {a b : α} {t : β} (hi : l[i]? = some a) (hj : l[j]? = some b) (ha : f a = some t)
    (hb : f b = some t) :
  i = j
  := by
  induction l generalizing i j with
  | nil => simp at hi
  | cons c l ih =>
    have hmem : ∀ {k : Nat} {d : α}, l[k]? = some d → f d = some t → t ∈ l.filterMap f := by
      intro k d hk hd
      exact List.mem_filterMap.mpr ⟨d, List.mem_of_getElem? hk, hd⟩
    have htail : (l.filterMap f).Nodup := by
      rw [List.filterMap_cons] at h
      split at h
      · apply h
      · apply (List.nodup_cons.mp h).2
    have hhead : f c = some t → t ∉ l.filterMap f := by
      intro hc
      rw [List.filterMap_cons_some hc, List.nodup_cons] at h
      apply h.1
    cases i with
    | zero =>
      cases j with
      | zero => rfl
      | succ j =>
        rw [List.getElem?_cons_zero, Option.some_inj] at hi
        rw [List.getElem?_cons_succ] at hj
        subst hi
        apply absurd (hmem hj hb) (hhead ha)
    | succ i =>
      rw [List.getElem?_cons_succ] at hi
      cases j with
      | zero =>
        rw [List.getElem?_cons_zero, Option.some_inj] at hj
        subst hj
        apply absurd (hmem hi ha) (hhead hb)
      | succ j =>
        rw [List.getElem?_cons_succ] at hj
        rw [ih htail hi hj]

/-- A block that is found is in the list and has the id. -/
theorem IrFunction.findBlock_some {fn : IrFunction} {id : Nat} {b : IrBlock}
    (h : fn.findBlock id = some b) :
  b ∈ fn.blocks ∧ b.id = id
  := ⟨List.mem_of_find?_eq_some h, by simpa using List.find?_some h⟩

/-- An instruction at a point is an instruction of the function. -/
theorem IrFunction.mem_instrs_of_instrAt {fn : IrFunction} {p : Point} {I : IrInstr}
    (h : fn.instrAt p = some I) :
  I ∈ fn.instrs
  := by
  obtain ⟨b, hb, hI⟩ := Option.bind_eq_some_iff.mp h
  rw [IrFunction.instrs, List.mem_flatMap]
  exact ⟨b, (fn.findBlock_some hb).1, List.mem_of_getElem? hI⟩

/-- Instructions of the function that define the same temporary are the same. -/
theorem IrFunction.SingleAssignment.instr_unique
    {fn : IrFunction} (h : fn.SingleAssignment) {I J : IrInstr} (hI : I ∈ fn.instrs) (hJ : J ∈ fn.instrs)
    {t : Nat} (htI : I.definedTmp = some t) (htJ : J.definedTmp = some t) :
  I = J
  := by
  obtain ⟨i, hi⟩ := List.mem_iff_getElem?.mp hI
  obtain ⟨j, hj⟩ := List.mem_iff_getElem?.mp hJ
  have hij := getElem?_unique_of_nodup_filterMap h.once hi hj htI htJ
  rw [hij, hj] at hi
  apply (Option.some_inj.mp hi).symm

/-- Points whose instructions define the same temporary are the same. -/
theorem IrFunction.SingleAssignment.point_unique
    {fn : IrFunction} (h : fn.SingleAssignment) {p q : Point} {I J : IrInstr} (hI : fn.instrAt p = some I)
    (hJ : fn.instrAt q = some J) {t : Nat} (htI : I.definedTmp = some t)
    (htJ : J.definedTmp = some t) :
  p = q
  := by
  obtain ⟨b, hb, hI⟩ := Option.bind_eq_some_iff.mp hI
  obtain ⟨c, hc, hJ⟩ := Option.bind_eq_some_iff.mp hJ
  obtain ⟨hbm, hbid⟩ := fn.findBlock_some hb
  obtain ⟨hcm, hcid⟩ := fn.findBlock_some hc
  have honce := h.once
  rw [tmpDefs, IrFunction.instrs, List.filterMap_flatMap, List.nodup_flatMap] at honce
  have htb : t ∈ b.instructions.filterMap (·.definedTmp) :=
    List.mem_filterMap.mpr ⟨I, List.mem_of_getElem? hI, htI⟩
  have htc : t ∈ c.instructions.filterMap (·.definedTmp) :=
    List.mem_filterMap.mpr ⟨J, List.mem_of_getElem? hJ, htJ⟩
  have hbc : b = c := by
    by_contra hne
    have hsymm : Std.Symm (Function.onFun List.Disjoint
        fun b : IrBlock => b.instructions.filterMap (·.definedTmp)) :=
      ⟨fun _ _ hd => List.Disjoint.symm hd⟩
    apply honce.2.forall hbm hcm hne htb htc
  subst hbc
  apply Prod.ext
  · rw [← hbid, ← hcid]
  · apply getElem?_unique_of_nodup_filterMap (honce.1 b hbm) hI hJ htI htJ

/-- A copy on an edge is made by a phi of the block that the edge enters. -/
theorem IrFunction.edgeCopies_phi
    {fn : IrFunction} {p q : Point} {I : IrInstr} {c : IrValue × IrValue}
    (h : c ∈ fn.edgeCopies p q I) :
  I.op.isJump ∧ ∃ j P, fn.instrAt (q.1, j) = some P ∧ P.op = .phi ∧ P.dst = some c.1
  := by
  unfold IrFunction.edgeCopies at h
  split at h
  · rename_i hjump
    refine ⟨hjump, ?_⟩
    split at h
    · rename_i b hb
      obtain ⟨P, hP, hc⟩ := List.mem_filterMap.mp h
      have hphi : P.op = .phi := by simpa using List.mem_takeWhile_imp hP
      have hmem : P ∈ b.instructions :=
        List.mem_of_mem_filter ((List.takeWhile_sublist _).mem hP)
      obtain ⟨d, hd, hc⟩ := Option.bind_eq_some_iff.mp hc
      obtain ⟨v, -, rfl⟩ := Option.map_eq_some_iff.mp hc
      obtain ⟨j, hj⟩ := List.mem_iff_getElem?.mp hmem
      exact ⟨j, P, by simp [IrFunction.instrAt, hb, hj], hphi, hd⟩
    · cases h
  · cases h

/-- The phi of a copy defines the temporary that is written. -/
theorem definedTmp_of_phi
    {P : IrInstr} (hop : P.op = .phi) {d : IrValue} (hd : P.dst = some d) {t : Nat}
    (hk : d.key = ⟨.tmp, t⟩) :
  P.definedTmp = some t
  := by
  have hkind : d.kind = .tmp := congrArg VarKey.kind hk
  have hid : d.varId = t := congrArg VarKey.id hk
  simp [IrInstr.definedTmp, hop, hd, hkind, hid]

/-- An instruction that writes a temporary defines it. -/
theorem definedTmp_of_writes {I : IrInstr} {t : Nat} (h : I.writes ⟨.tmp, t⟩) :
  I.definedTmp = some t
  := by
  simp only [IrInstr.writes, Bool.and_eq_true, Option.any_eq_true, decide_eq_true_eq] at h
  obtain ⟨hw, d, hd, hk⟩ := h
  have hkind : d.kind = .tmp := congrArg VarKey.kind hk
  have hid : d.varId = t := congrArg VarKey.id hk
  simp [IrInstr.definedTmp, hw, hd, hkind, hid]

/-- All definitions of a temporary arrive at the same point. -/
theorem IrFunction.SingleAssignment.defines_unique
    {fn : IrFunction} (h : fn.SingleAssignment) {t : Nat} {p q p' q' : Point} (hs : fn.flow.step p q)
    (hd : fn.flow.defines p q ⟨.tmp, t⟩) (hs' : fn.flow.step p' q')
    (hd' : fn.flow.defines p' q' ⟨.tmp, t⟩) :
  q = q'
  := by
  have hdef : ∀ {p q}, fn.flow.step p q → fn.flow.defines p q ⟨.tmp, t⟩ →
      ∃ r P, fn.instrAt r = some P ∧ P.definedTmp = some t
        ∧ ((P.op ≠ .phi ∧ q = (r.1, r.2 + 1)) ∨ (P.op = .phi ∧ q = (r.1, 0))) := by
    rintro p q ⟨I, hI, hq⟩ ⟨J, hJ, hw | ⟨c, hc, hk⟩⟩
    · obtain rfl := Option.some_inj.mp (hI.symm.trans hJ)
      refine ⟨p, I, hI, definedTmp_of_writes hw, .inl ?_⟩
      have hop : I.op.writesDst := by
        rw [IrInstr.writes, Bool.and_eq_true] at hw
        apply hw.1
      unfold IrInstr.nexts at hq
      cases h : I.op <;> rw [h] at hop <;> simp only [h] at hq <;> first
        | apply absurd hop (by decide)
        | exact ⟨by decide, by simpa using hq⟩
    · obtain rfl := Option.some_inj.mp (hI.symm.trans hJ)
      obtain ⟨hjump, j, P, hP, hop, hdst⟩ := fn.edgeCopies_phi hc
      refine ⟨(q.1, j), P, hP, definedTmp_of_phi hop hdst hk, .inr ⟨hop, ?_⟩⟩
      unfold IrInstr.nexts at hq
      cases h : I.op <;> rw [h] at hjump <;> simp only [h] at hq <;> first
        | apply absurd hjump (by decide)
        | simp only [List.mem_cons, List.not_mem_nil, or_false] at hq
      case br => obtain rfl | rfl := hq <;> rfl
      case cmpBr => obtain rfl | rfl := hq <;> rfl
      case jmp =>
        rw [hq]
  obtain ⟨r, P, hr, hP, hq⟩ := hdef hs hd
  obtain ⟨r', P', hr', hP', hq'⟩ := hdef hs' hd'
  obtain rfl := h.point_unique hr hr' hP hP'
  obtain rfl := Option.some_inj.mp (hr.symm.trans hr')
  obtain ⟨hop, rfl⟩ | ⟨hop, rfl⟩ := hq
  · obtain ⟨-, rfl⟩ | ⟨hop', -⟩ := hq'
    · rfl
    · contradiction
  · obtain ⟨hop', -⟩ | ⟨-, rfl⟩ := hq'
    · contradiction
    · rfl

/-! ### Straight-line functions -/

/-- An instruction other than a phi writes the temporary that it defines. -/
theorem writes_of_definedTmp
    {I : IrInstr} {t : Nat} (h : I.definedTmp = some t) (hop : I.op ≠ .phi) :
  I.writes ⟨.tmp, t⟩
  := by
  simp only [IrInstr.definedTmp, hop, or_false] at h
  split at h
  · rename_i hw
    obtain ⟨d, hd, h⟩ := Option.bind_eq_some_iff.mp h
    split at h
    · rename_i htmp
      obtain rfl := Option.some_inj.mp h
      simp [IrInstr.writes, hw, hd, IrValue.key, htmp]
    · cases h
  · cases h

/-- A function of one block without jumps is in single-assignment form when its temporaries
are defined once, and earlier in the block than they are used. -/
theorem IrFunction.isSSA_of_straightLine
    {fn : IrFunction} {b : IrBlock} (hb : fn.blocks = [b]) (hentry : fn.entryBlock = b.id)
    (hstraight : ∀ I ∈ b.instructions, I.op.isJump = false ∧ I.op ≠ .phi)
    (honce : (tmpDefs b.instructions).Nodup)
    (huses : ∀ i : Fin b.instructions.length, ∀ v ∈ b.instructions[i].inputs, v.kind = .tmp →
      v.varId ∈ tmpDefs (b.instructions.take i))
    (hplain : ∀ I ∈ b.instructions, I.op.isArith → ∀ v ∈ I.r1.toList ++ I.r2.toList, v.isPlain) :
  fn.IsSSA
  := by
  have hinstrs : fn.instrs = b.instructions := by simp [IrFunction.instrs, hb]
  have hat : ∀ {p I}, fn.instrAt p = some I → p.1 = b.id ∧ b.instructions[p.2]? = some I := by
    intro p I hI
    simp only [IrFunction.instrAt, IrFunction.findBlock, hb, List.find?_cons,
      List.find?_nil] at hI
    split at hI
    · rename_i hid
      exact ⟨(of_decide_eq_true hid).symm, hI⟩
    · cases hI
  have hlead : ∀ l : List IrInstr, (∀ I ∈ l, I.op ≠ .phi) → Polyc.phisLead l := by
    intro l hl
    induction l with
    | nil => trivial
    | cons I l ih =>
      unfold Polyc.phisLead
      split
      · apply ih
        intro J hJ
        apply hl J (List.mem_cons_of_mem I hJ)
      · intro J hJ
        apply hl J (List.mem_cons_of_mem I hJ)
  refine ⟨⟨?_, ?_, ?_⟩, ?_⟩
  · rw [hinstrs]
    apply honce
  · intro t
    apply FlowGraph.not_live_of_closed fun p =>
      p.1 = b.id ∧ t ∉ tmpDefs (b.instructions.take p.2)
    · exact ⟨hentry, by simp [IrFunction.flow, tmpDefs]⟩
    · rintro p q ⟨hp, ht⟩ ⟨I, hI, hq⟩ hd
      obtain ⟨-, hi⟩ := hat hI
      obtain ⟨hjump, hphi⟩ := hstraight I (List.mem_of_getElem? hi)
      have hdef : I.definedTmp ≠ some t := by
        intro h
        apply hd
        exact ⟨I, hI, .inl (writes_of_definedTmp h hphi)⟩
      obtain rfl : q = (p.1, p.2 + 1) := by
        unfold IrInstr.nexts at hq
        cases hop : I.op <;> rw [hop] at hjump <;> simp only [hop] at hq <;> first
          | apply absurd hjump (by decide)
          | exact List.mem_singleton.mp hq
          | cases hq
      constructor
      · apply hp
      · rw [List.take_add_one, tmpDefs_append, List.mem_append, hi]
        rintro (h | h)
        · apply ht h
        · apply hdef
          simpa [tmpDefs_cons, tmpDefs] using h
    · rintro p ⟨-, ht⟩ ⟨I, hI, hu⟩
      obtain ⟨-, hi⟩ := hat hI
      obtain ⟨v, hv, -, hk⟩ | ⟨q, -, c, hc, -⟩ := hu
      · have htmp : v.kind = .tmp := congrArg VarKey.kind hk
        have hid : v.varId = t := congrArg VarKey.id hk
        apply ht
        rw [← hid]
        obtain ⟨hlt, rfl⟩ := List.getElem?_eq_some_iff.mp hi
        apply huses ⟨p.2, hlt⟩ v hv htmp
      · have hjump := (fn.edgeCopies_phi hc).1
        rw [(hstraight I (List.mem_of_getElem? hi)).1] at hjump
        cases hjump
  · rw [hb]
    intro c hc
    rw [List.mem_singleton] at hc
    rw [hc]
    apply hlead
    intro I hI
    apply (hstraight I hI).2
  · rw [hinstrs]
    apply hplain

end Polyc
