import Polyc.Ir.SSA

/-!
# The walk of constant folding

Constant folding uses one resolver for all blocks, in list order.  When every use of a
folded temporary comes later in that order than its definition, each instruction might as
well have been rewritten with the resolver at the end of the walk.  This turns the pass into
a relation between instructions, block by block, that no longer mentions the walk.
-/

namespace Polyc

/-! ### Uses in list order -/

/-- The operands that the pass rewrites. -/
def IrInstr.rewritten (I : IrInstr) : List IrValue :=
  I.r1.toList ++ I.r2.toList
    ++ (if I.op = .br ∨ I.op = .ret ∨ I.op = .storeDeref then I.dst.toList else [])
    ++ (if I.op = .phi then I.phiPairs.map (·.irValue) else [])
    ++ (if I.op = .call ∧ I.r1.isSome then I.args else [])

/-- The operands that the pass must not, or does not, rewrite: slots whose address is
taken, indices, the address of a fused update. -/
def IrInstr.kept (I : IrInstr) : List IrValue :=
  I.idx.toList
    ++ (if I.op = .rmwDeref then I.dst.toList else [])
    ++ (if I.op = .lea ∨ I.op = .gep then I.r1.toList else [])
    ++ (if I.op = .call ∧ I.r1.isNone then I.args else [])

/-- A value is a temporary that the resolver replaces. -/
def Resolver.has (ρ : Resolver) (v : IrValue) : Bool :=
  v.kind = .tmp && (ρ.lookup v.varId).isSome

/-- The instruction uses the temporaries that `ρ` folds only where the resolver of the walk
already has them, and in operands that are rewritten. -/
def usesFolded (ρ : Resolver) (st : EvalState) (I : IrInstr) : Bool :=
  I.rewritten.all (fun v => !ρ.has v || st.resolver.has v) && I.kept.all fun v => !ρ.has v

/-- Along the walk, every use of a temporary that `ρ` folds comes after its definition. -/
def foldsFirst (ρ : Resolver) : EvalState → List IrInstr → Bool
  | _, [] => true
  | st, I :: l => usesFolded ρ st I && foldsFirst ρ (evalInstr st I).2.2 l

/-! ### Resolvers -/

/-- One resolver extends another. -/
def Resolver.Le (ρ τ : Resolver) : Prop :=
  ∀ id v, ρ.lookup id = some v → τ.lookup id = some v

theorem Resolver.Le.refl (ρ : Resolver) :
  ρ.Le ρ
  := fun _ _ h => h

theorem Resolver.Le.trans {ρ τ υ : Resolver} (h₁ : ρ.Le τ) (h₂ : τ.Le υ) :
  ρ.Le υ
  := fun id v h => h₂ id v (h₁ id v h)

/-- What the resolver answers after an entry was added. -/
theorem Resolver.lookup_add (ρ : Resolver) (id id' : Nat) (v : IrValue) :
  (ρ.add id v).lookup id'
    = if id' = id ∧ ρ.lookup id = none then some v else ρ.lookup id'
  := by
  unfold Resolver.add
  cases h : ρ.lookup id with
  | some w => simp
  | none =>
    by_cases e : id' = id
    · simp [e]
    · simp [List.lookup_cons, beq_false_of_ne e, e]

/-- Adding an entry extends the resolver. -/
theorem Resolver.le_add (ρ : Resolver) (id : Nat) (v : IrValue) :
  ρ.Le (ρ.add id v)
  := by
  intro id' w h
  rw [lookup_add, if_neg, h]
  rintro ⟨rfl, hn⟩
  rw [hn] at h
  cases h

/-- A round keeps the resolver, and keeps the instruction, stores what it computes or turns
it into a shift; or it adds what the instruction computes and drops the instruction. -/
theorem evalResolved_kept_or_gone (st : EvalState) (I : IrInstr) :
  ((evalResolved st I).2.2.resolver = st.resolver ∧
      ((evalResolved st I).1 = I
        ∨ (∃ d v, I.dst = some d ∧ d.kind = .local ∧ I.op.isArith ∧ v.kind = .constInt
            ∧ Computes I v
            ∧ (evalResolved st I).1 = { I with op := .store, r1 := some v, r2 := none })
        ∨ (∃ v, I.op = .imul ∧ v.kind = .constInt
            ∧ (evalResolved st I).1 = { I with op := .shl, r2 := some v }
            ∧ ∀ m tr σ, effect m tr (evalResolved st I).1 ((evalResolved st I).1.operands m tr σ)
                = effect m tr I (I.operands m tr σ))))
    ∨ ∃ d v, I.dst = some d ∧ d.kind = .tmp ∧ I.op.isArith ∧ Computes I v
        ∧ (evalResolved st I).1 = I.toNop
        ∧ (v.kind = .constInt ∨ I.r1 = some v ∨ I.r2 = some v)
        ∧ (evalResolved st I).2.2.resolver = st.resolver.add d.varId v
  := by
  have hcase := evalResolved_case st I
  generalize evalResolved st I = r at hcase ⊢
  cases hcase with
  | same => exact .inl ⟨rfl, .inl rfl⟩
  | store d w hd hl hw =>
    obtain ⟨ha, hv⟩ := computes_of_evalResult hw st.fresh d.type
    exact .inl ⟨rfl, .inr (.inl ⟨d, _, hd, hl, ha, rfl, hv, rfl⟩)⟩
  | shift d c x hd ht hc hop hr hk =>
    exact .inl ⟨rfl, .inr (.inr ⟨_, hop, rfl, rfl, effect_shift hc hop hr hk st.fresh c.type⟩)⟩
  | const d w hd ht hw =>
    obtain ⟨ha, hv⟩ := computes_of_evalResult hw st.fresh d.type
    exact .inr ⟨d, _, hd, ht, ha, hv, rfl, .inl rfl, rfl⟩
  | identity d c x hd ht hc hf =>
    obtain ⟨ha, hv⟩ := computes_of_irEvalCanFold hc hf
    refine .inr ⟨d, _, hd, ht, ha, hv, rfl, .inr ?_, rfl⟩
    obtain ⟨-, ⟨h1, -⟩ | ⟨-, h2, -⟩⟩ := constOperand_cases hc
    · exact .inl h1
    · exact .inr h2
  | zero d c x hd ht hc hop hk =>
    obtain ⟨ha, hv⟩ := computes_zero hc hop hk st.fresh d.type
    exact .inr ⟨d, _, hd, ht, ha, hv, rfl, .inl rfl, rfl⟩

/-- An arithmetic opcode writes its destination. -/
theorem writesDst_of_isArith {op : IrOp} (h : op.isArith) :
  op.writesDst
  := by
  cases op <;> first
    | rfl
    | apply absurd h (by decide)

/-- An arithmetic instruction defines its destination. -/
theorem definedTmp_of_isArith
    {I : IrInstr} (hop : I.op.isArith) {d : IrValue} (hd : I.dst = some d)
    (ht : d.kind = .tmp) :
  I.definedTmp = some d.varId
  := by
  simp [IrInstr.definedTmp, writesDst_of_isArith hop, hd, ht]

/-- Resolving keeps the opcode. -/
theorem resolveOperands_op (ρ : Resolver) (I : IrInstr) :
  (resolveOperands ρ I).op = I.op
  := rfl

/-- Resolving keeps the destination of an arithmetic instruction. -/
theorem resolveOperands_dst {ρ : Resolver} {I : IrInstr} (h : I.op.isArith) :
  (resolveOperands ρ I).dst = I.dst
  := by
  simp only [resolveOperands]
  rw [if_neg]
  rintro (e | e | e) <;> rw [e] at h <;> cases h

/-- The entry that a round of the walk adds, if it adds one, is for the temporary that the
instruction defines. -/
theorem evalInstr_resolver (st : EvalState) (I : IrInstr) :
  (evalInstr st I).2.2.resolver = st.resolver
    ∨ ∃ d v, I.dst = some d ∧ d.kind = .tmp ∧ I.definedTmp = some d.varId ∧ I.op.isArith
        ∧ Computes (resolveOperands st.resolver I) v
        ∧ (evalInstr st I).1 = (resolveOperands st.resolver I).toNop
        ∧ (v.kind = .constInt ∨ (resolveOperands st.resolver I).r1 = some v
            ∨ (resolveOperands st.resolver I).r2 = some v)
        ∧ (evalInstr st I).2.2.resolver = st.resolver.add d.varId v
  := by
  obtain h | ⟨d, v, hd, ht, ha, hv, hn, hvk, hr⟩ :=
    evalResolved_kept_or_gone st (resolveOperands st.resolver I)
  · exact .inl h.1
  · rw [resolveOperands_op] at ha
    rw [resolveOperands_dst ha] at hd
    have hdef := definedTmp_of_isArith ha hd ht
    exact .inr ⟨d, v, hd, ht, hdef, ha, hv, hn, hvk, hr⟩

/-- A round extends the resolver. -/
theorem le_evalInstr (st : EvalState) (I : IrInstr) :
  st.resolver.Le (evalInstr st I).2.2.resolver
  := by
  obtain h | ⟨d, v, -, -, -, -, -, -, -, h⟩ := evalInstr_resolver st I
  · rw [h]
    apply Resolver.Le.refl
  · rw [h]
    apply Resolver.le_add

/-- The walk extends the resolver. -/
theorem le_evalInstrs (st : EvalState) (l : List IrInstr) :
  st.resolver.Le (evalInstrs st l).2.2.resolver
  := by
  induction l generalizing st with
  | nil => apply Resolver.Le.refl
  | cons I l ih => apply (le_evalInstr st I).trans (ih _)

/-- The walk folds only temporaries that its instructions define. -/
theorem evalInstrs_dom
    {st : EvalState} {l : List IrInstr} {t : Nat}
    (h : (evalInstrs st l).2.2.resolver.lookup t ≠ none) :
  st.resolver.lookup t ≠ none ∨ t ∈ tmpDefs l
  := by
  induction l generalizing st with
  | nil => exact .inl h
  | cons I l ih =>
    obtain h' | h' := ih h
    · obtain he | ⟨d, v, -, -, hdef, -, -, -, -, he⟩ := evalInstr_resolver st I
      · rw [he] at h'
        exact .inl h'
      · rw [he, Resolver.lookup_add] at h'
        split at h'
        · rename_i e
          right
          rw [tmpDefs, List.mem_filterMap]
          exact ⟨I, List.mem_cons_self, by rw [hdef, e.1]⟩
        · exact .inl h'
    · right
      rw [tmpDefs, List.mem_filterMap] at h' ⊢
      obtain ⟨J, hJ, ht⟩ := h'
      exact ⟨J, List.mem_cons_of_mem I hJ, ht⟩

/-- The walk over two lists is the walk over the first and then over the second. -/
theorem evalInstrs_append (st : EvalState) (l l' : List IrInstr) :
  (evalInstrs st (l ++ l')).2.2 = (evalInstrs (evalInstrs st l).2.2 l').2.2
  := by
  induction l generalizing st with
  | nil => rfl
  | cons I l ih => apply ih

/-! ### Instructions rewritten with the final resolver -/

/-- What the pass makes of an instruction, in terms of the final resolver: its operands are
rewritten; or it is gone, and the resolver has what it computed; or it stores what it
computed; or a multiplication has become a shift. -/
inductive Folded (ρ : Resolver) (I : IrInstr) : IrInstr → Prop where
  | same (hs : ∀ t, I.definedTmp = some t → ρ.lookup t = none) :
      Folded ρ I (resolveOperands ρ I)
  | gone (d v : IrValue) (hop : I.op.isArith) (hd : I.dst = some d) (ht : d.kind = .tmp)
      (hv : ρ.lookup d.varId = some v) (hc : Computes (resolveOperands ρ I) v) :
      Folded ρ I (resolveOperands ρ I).toNop
  | store (d v : IrValue) (hop : I.op.isArith) (hd : I.dst = some d) (hl : d.kind = .local)
      (hk : v.kind = .constInt) (hc : Computes (resolveOperands ρ I) v) :
      Folded ρ I { resolveOperands ρ I with op := .store, r1 := some v, r2 := none }
  | shift (v : IrValue) (hop : I.op.isArith) (hs : ∀ t, I.definedTmp = some t → ρ.lookup t = none)
      (hk : v.kind = .constInt)
      (he : ∀ m tr σ,
        let J := { resolveOperands ρ I with op := .shl, r2 := some v }
        effect m tr J (J.operands m tr σ)
          = effect m tr (resolveOperands ρ I) ((resolveOperands ρ I).operands m tr σ)) :
      Folded ρ I { resolveOperands ρ I with op := .shl, r2 := some v }

/-- A resolver that has the replaced temporaries resolves as every extension does. -/
theorem resolveTmp_of_le
    {ρ τ : Resolver} (hle : ρ.Le τ) {v : IrValue} (h : τ.has v → ρ.has v) :
  resolveTmp ρ v = resolveTmp τ v
  := by
  simp only [resolveTmp]
  split
  · rename_i ht
    have htmp : v.kind = .tmp := by simpa [irIsTmp] using ht
    cases hρ : ρ.lookup v.varId with
    | some w => rw [hle _ _ hρ]
    | none =>
      have hτ : τ.lookup v.varId = none := by
        by_contra hne
        have := h (by simpa [Resolver.has, htmp, Option.isSome_iff_ne_none] using hne)
        simp [Resolver.has, hρ] at this
      rw [hτ]
  · rfl

/-- An instruction that uses folded temporaries only after their definitions is rewritten as
with the final resolver. -/
theorem resolveOperands_of_usesFolded
    {ρ : Resolver} {st : EvalState} (hle : st.resolver.Le ρ) {I : IrInstr}
    (h : usesFolded ρ st I) :
  resolveOperands st.resolver I = resolveOperands ρ I
  := by
  simp only [usesFolded, Bool.and_eq_true, List.all_eq_true, Bool.or_eq_true,
    Bool.not_eq_true'] at h
  have hv : ∀ v ∈ I.rewritten, resolveTmp st.resolver v = resolveTmp ρ v := by
    intro v hv
    apply resolveTmp_of_le hle
    intro hρ
    obtain hn | hs := h.1 v hv
    · rw [hρ] at hn
      cases hn
    · apply hs
  have hopt : ∀ o : Option IrValue, (∀ v ∈ o.toList, v ∈ I.rewritten) →
      irResolveTmp st.resolver o = irResolveTmp ρ o := by
    intro o ho
    cases o with
    | none => rfl
    | some v => exact congrArg some (hv v (ho v (by simp)))
  have hr1 := hopt I.r1 (by simp +contextual [IrInstr.rewritten])
  have hr2 := hopt I.r2 (by simp +contextual [IrInstr.rewritten])
  simp only [resolveOperands, hr1, hr2, IrInstr.mk.injEq, true_and]
  refine ⟨?_, ?_, ?_⟩
  · split
    · rename_i hop
      apply hopt
      simp +contextual [IrInstr.rewritten, hop]
    · rfl
  · split
    · rename_i hop
      apply List.map_congr_left
      intro v hmem
      apply hv
      simp [IrInstr.rewritten, hop, hmem]
    · rfl
  · split
    · rename_i hop
      apply List.map_congr_left
      intro p hmem
      rw [hv]
      simp only [IrInstr.rewritten, hop, if_true, List.mem_append, List.mem_map]
      exact .inl (.inr ⟨p, hmem, rfl⟩)
    · rfl

/-- Whether a temporary is folded by the end of the walk over a list, when it was not before
and no later instruction of the list defines it, shows in the first round. -/
theorem lookup_evalInstr_of_final
    {st : EvalState} {I : IrInstr} {l : List IrInstr} {t : Nat} (ht : t ∉ tmpDefs l)
    (h : (evalInstrs (evalInstr st I).2.2 l).2.2.resolver.lookup t ≠ none) :
  (evalInstr st I).2.2.resolver.lookup t ≠ none
  := by
  obtain h' | h' := evalInstrs_dom h
  · apply h'
  · contradiction

/-- One round of the walk, in terms of the final resolver. -/
theorem folded_evalInstr
    {ρ : Resolver} {st : EvalState} {I : IrInstr}
    (hle : (evalInstr st I).2.2.resolver.Le ρ) (huse : usesFolded ρ st I)
    (hnew : ∀ t, I.definedTmp = some t → st.resolver.lookup t = none)
    (hdone : ∀ t, I.definedTmp = some t → ρ.lookup t ≠ none →
      (evalInstr st I).2.2.resolver.lookup t ≠ none) :
  Folded ρ I (evalInstr st I).1
  := by
  have hres := resolveOperands_of_usesFolded ((le_evalInstr st I).trans hle) huse
  have hkeep : (evalInstr st I).2.2.resolver = st.resolver →
      ∀ t, I.definedTmp = some t → ρ.lookup t = none := by
    intro he t ht
    by_contra hne
    apply hdone t ht hne
    rw [he]
    apply hnew t ht
  obtain he | ⟨d, v, hd, htmp, hdef, hop, hc, hgone, -, he⟩ := evalInstr_resolver st I
  · have hs := hkeep he
    simp only [evalInstr, hres] at he ⊢
    obtain ⟨-, h | ⟨d, v, hd, hl, hop, hk, hc, h⟩ | ⟨v, hop, hk, h, heff⟩⟩ |
      ⟨d, v, hd, ht, hop, -, -, -, hadd⟩ := evalResolved_kept_or_gone st (resolveOperands ρ I)
    · rw [h]
      apply Folded.same hs
    · rw [h]
      rw [resolveOperands_op] at hop
      rw [resolveOperands_dst hop] at hd
      apply Folded.store d v hop hd hl hk hc
    · rw [h] at heff ⊢
      rw [resolveOperands_op] at hop
      apply Folded.shift v (by rw [hop]; rfl) hs hk heff
    · rw [resolveOperands_op] at hop
      rw [resolveOperands_dst hop] at hd
      have hdef := definedTmp_of_isArith hop hd ht
      rw [he] at hadd
      have hl := congrArg (·.lookup d.varId) hadd
      simp [Resolver.lookup_add, hnew _ hdef] at hl
  · rw [hgone]
    rw [hres] at hc ⊢
    apply Folded.gone d v hop hd htmp _ hc
    apply hle
    rw [he, Resolver.lookup_add, if_pos ⟨rfl, hnew _ hdef⟩]

/-- The walk over a list of instructions, in terms of the final resolver. -/
theorem folded_evalInstrs
    {ρ : Resolver} {st : EvalState} {l : List IrInstr}
    (hle : (evalInstrs st l).2.2.resolver.Le ρ) (hfirst : foldsFirst ρ st l)
    (honce : (tmpDefs l).Nodup) (hnew : ∀ t ∈ tmpDefs l, st.resolver.lookup t = none)
    (hdone : ∀ t ∈ tmpDefs l, ρ.lookup t ≠ none →
      (evalInstrs st l).2.2.resolver.lookup t ≠ none) :
  List.Forall₂ (Folded ρ) l (evalInstrs st l).1
  := by
  induction l generalizing st with
  | nil => exact .nil
  | cons I l ih =>
    simp only [foldsFirst, Bool.and_eq_true] at hfirst
    rw [tmpDefs_cons, List.nodup_append] at honce
    simp only [tmpDefs_cons, List.mem_append, Option.mem_toList] at hnew hdone
    obtain ⟨-, honce', hdisj⟩ := honce
    have hhead : ∀ t, I.definedTmp = some t → t ∉ tmpDefs l := by
      intro t ht hmem
      apply hdisj t (by simp [ht]) t hmem rfl
    apply List.Forall₂.cons
    · apply folded_evalInstr _ hfirst.1
      · intro t ht
        apply hnew t (.inl ht)
      · intro t ht hne
        apply lookup_evalInstr_of_final (hhead t ht)
        apply hdone t (.inl ht) hne
      · apply (le_evalInstrs _ l).trans hle
    · apply ih hle hfirst.2 honce'
      · intro t ht
        by_contra hne
        obtain he | ⟨d, v, -, -, hdef, -, -, -, -, he⟩ := evalInstr_resolver st I
        · rw [he] at hne
          apply hne
          apply hnew t (.inr ht)
        · rw [he, Resolver.lookup_add, if_neg] at hne
          · apply hne
            apply hnew t (.inr ht)
          · rintro ⟨rfl, -⟩
            apply hhead _ hdef ht
      · intro t ht hne
        apply hdone t (.inr ht) hne

/-- What the pass makes of a block, in terms of the final resolver. -/
def FoldedBlock (ρ : Resolver) (b b' : IrBlock) : Prop :=
  b'.id = b.id ∧ List.Forall₂ (Folded ρ) b.instructions b'.instructions

/-- Uses come after definitions along an appended list when they do along both parts. -/
theorem foldsFirst_append (ρ : Resolver) (st : EvalState) (l l' : List IrInstr) :
  foldsFirst ρ st (l ++ l') = (foldsFirst ρ st l && foldsFirst ρ (evalInstrs st l).2.2 l')
  := by
  induction l generalizing st with
  | nil => rfl
  | cons I l ih => simp only [List.cons_append, foldsFirst, evalInstrs, ih, Bool.and_assoc]

/-- The walk over a list of blocks, in terms of the final resolver. -/
theorem folded_evalBlocks
    {ρ : Resolver} {st : EvalState} {bs : List IrBlock}
    (hle : (evalInstrs st (bs.flatMap (·.instructions))).2.2.resolver.Le ρ)
    (hfirst : foldsFirst ρ st (bs.flatMap (·.instructions)))
    (honce : (tmpDefs (bs.flatMap (·.instructions))).Nodup)
    (hnew : ∀ t ∈ tmpDefs (bs.flatMap (·.instructions)), st.resolver.lookup t = none)
    (hdone : ∀ t ∈ tmpDefs (bs.flatMap (·.instructions)), ρ.lookup t ≠ none →
      (evalInstrs st (bs.flatMap (·.instructions))).2.2.resolver.lookup t ≠ none) :
  List.Forall₂ (FoldedBlock ρ) bs (evalBlocks st bs).1
  := by
  induction bs generalizing st with
  | nil => exact .nil
  | cons b bs ih =>
    simp only [List.flatMap_cons, evalInstrs_append, foldsFirst_append, tmpDefs_append,
      Bool.and_eq_true, List.mem_append, List.nodup_append] at *
    obtain ⟨hb, hbs, hdisj⟩ := honce
    apply List.Forall₂.cons
    · constructor
      · rfl
      · apply folded_evalInstrs _ hfirst.1 hb
        · intro t ht
          apply hnew t (.inl ht)
        · intro t ht hne
          obtain h | h := evalInstrs_dom (hdone t (.inl ht) hne)
          · apply h
          · apply absurd rfl (hdisj t ht t h)
        · apply (le_evalInstrs _ _).trans hle
    · apply ih hle hfirst.2 hbs
      · intro t ht
        by_contra hne
        obtain h | h := evalInstrs_dom hne
        · apply h
          apply hnew t (.inr ht)
        · apply absurd rfl (hdisj t h t ht)
      · intro t ht hne
        apply hdone t (.inr ht) hne

/-- The entries of the resolver along the walk satisfy what every new entry satisfies: the
value is a constant or a resolved operand of the instruction. -/
theorem evalInstrs_entries
    {ρ : Resolver} (Q : Nat → IrValue → Prop) {st : EvalState} {l : List IrInstr}
    (hle : (evalInstrs st l).2.2.resolver.Le ρ) (hfirst : foldsFirst ρ st l)
    (hst : ∀ t v, st.resolver.lookup t = some v → Q t v)
    (hstep : ∀ I ∈ l, I.op.isArith → ∀ st' : EvalState, st'.resolver.Le ρ →
      usesFolded ρ st' I → (∀ t v, st'.resolver.lookup t = some v → Q t v) →
      ∀ t v, I.definedTmp = some t →
        (v.kind = .constInt ∨
          ∃ x ∈ I.r1.toList ++ I.r2.toList, v = resolveTmp st'.resolver x) → Q t v) :
  ∀ t v, (evalInstrs st l).2.2.resolver.lookup t = some v → Q t v
  := by
  induction l generalizing st with
  | nil => exact hst
  | cons I l ih =>
    simp only [foldsFirst, Bool.and_eq_true] at hfirst
    apply ih hle hfirst.2
    · intro t v hv
      have hle' : st.resolver.Le ρ :=
        ((le_evalInstr st I).trans (le_evalInstrs _ l)).trans hle
      obtain he | ⟨d, w, -, -, hdef, hop, -, -, hw, he⟩ := evalInstr_resolver st I
      · rw [he] at hv
        apply hst t v hv
      · rw [he, Resolver.lookup_add] at hv
        split at hv
        · rename_i e
          obtain rfl := Option.some_inj.mp hv
          rw [e.1]
          apply hstep I List.mem_cons_self hop st hle' hfirst.1 hst d.varId w hdef
          obtain hk | h1 | h2 := hw
          · exact .inl hk
          · obtain ⟨x, hx, rfl⟩ := Option.map_eq_some_iff.mp h1
            exact .inr ⟨x, by simp [hx], rfl⟩
          · obtain ⟨x, hx, rfl⟩ := Option.map_eq_some_iff.mp h2
            exact .inr ⟨x, by simp [hx], rfl⟩
        · apply hst t v hv
    · intro J hJ
      apply hstep J (List.mem_cons_of_mem I hJ)

end Polyc
