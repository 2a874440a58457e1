import Polyc.Ir.FoldsTo

/-!
# What constant folding preserves

The runs of a function and of the folded function go in step.  They agree on all variables
but the folded temporaries, and wherever a folded temporary is live its replacement has its
word.  The two functions therefore leave the same events, in the same order.
-/

namespace Polyc

/-! ### Corresponding instructions -/

/-- What a kept instruction has in common with the original: where control goes, what it
does and what it writes. -/
structure Kept (ρ : Resolver) (I I' : IrInstr) : Prop where
  next : ∀ p es, I'.next p es = I.next p es
  isJump : I'.op.isJump = I.op.isJump
  notFolded : ∀ t, I.definedTmp = some t → ρ.lookup t = none
  effect : ∀ m tr σ σ', (∀ v ∈ I.inputs, valueOf m tr σ' (resolveTmp ρ v) = valueOf m tr σ v) →
    effect m tr I' (I'.operands m tr σ') = effect m tr I (I.operands m tr σ)
  assign : ∀ m tr o r τ, Polyc.effect m tr I o = some r →
    assign I'.dst r.1 τ = assign I.dst r.1 τ

/-- A value that is not folded resolves to itself. -/
theorem resolveTmp_of_not_has {ρ : Resolver} {v : IrValue} (h : ρ.has v = false) :
  resolveTmp ρ v = v
  := by
  simp only [resolveTmp]
  split
  · rename_i ht
    have hk : v.kind = .tmp := by simpa [irIsTmp] using ht
    have hn : ρ.lookup v.varId = none := by simpa [Resolver.has, hk] using h
    rw [hn]
    rfl
  · rfl

/-- The opcodes that carry an operand in `dst`. -/
theorem IrOp.readsDst_cases {op : IrOp} (h : op.readsDst) :
  op = .br ∨ op = .ret ∨ op = .storeDeref ∨ op = .rmwDeref
  := by
  cases op <;> simp_all [readsDst]

/-- Resolved operands have the words of the original operands. -/
theorem operands_resolveOperands
    {ρ : Resolver} {I : IrInstr} (hkept : ∀ v ∈ I.kept, ρ.has v = false) {m : Machine}
    {tr : List Event} {σ σ' : Env}
    (h : ∀ v ∈ I.inputs, valueOf m tr σ' (resolveTmp ρ v) = valueOf m tr σ v) :
  (resolveOperands ρ I).operands m tr σ' = I.operands m tr σ
  := by
  have hopt : ∀ {o : Option IrValue}, (∀ v ∈ o.toList, v ∈ I.inputs) →
      (irResolveTmp ρ o).map (valueOf m tr σ') = o.map (valueOf m tr σ) := by
    intro o ho
    cases o with
    | none => rfl
    | some v => exact congrArg some (h v (ho v (by simp)))
  have hopt' : ∀ {o : Option IrValue}, (∀ v ∈ o.toList, v ∈ I.inputs ∧ v ∈ I.kept) →
      o.map (valueOf m tr σ') = o.map (valueOf m tr σ) := by
    intro o ho
    cases o with
    | none => rfl
    | some v =>
      obtain ⟨hi, hk⟩ := ho v (by simp)
      have hv := h v hi
      rw [resolveTmp_of_not_has (hkept v hk)] at hv
      exact congrArg some hv
  have hif : ∀ {c : Bool} {a b : Option Word}, (c → a = b) →
      (if c then a else none) = if c then b else none := by
    intro c a b hab
    split
    · apply hab ‹_›
    · rfl
  simp only [IrInstr.operands, Operands.mk.injEq]
  refine ⟨hif fun hr => ?_, hif fun hr => ?_, hif fun hr => ?_, hif fun hr => ?_, ?_⟩
  · rw [resolveOperands_op] at hr
    simp only [resolveOperands]
    split
    · apply hopt
      simp +contextual [IrInstr.inputs, hr]
    · rename_i hne
      have hop : I.op = .rmwDeref := by
        rcases IrOp.readsDst_cases hr with hbr | hret | hstore | hrmw
        · cases hne (.inl hbr)
        · cases hne (.inr (.inl hret))
        · cases hne (.inr (.inr hstore))
        · apply hrmw
      apply hopt'
      intro v hv
      constructor
      · simp only [IrInstr.inputs, hr, if_true, List.mem_append, hv, true_or]
      · simp only [IrInstr.kept, hop, if_true, List.mem_append, hv, true_or, or_true]
  · rw [resolveOperands_op] at hr
    apply hopt
    simp +contextual [IrInstr.inputs, hr]
  · rw [resolveOperands_op] at hr
    apply hopt
    simp +contextual [IrInstr.inputs, hr]
  · rw [resolveOperands_op] at hr
    apply hopt'
    intro v hv
    change v ∈ I.idx.toList at hv
    constructor
    · simp only [IrInstr.inputs, hr, if_true, List.mem_append, hv, true_or, or_true]
    · simp only [IrInstr.kept, List.mem_append, hv, true_or]
  · by_cases hop : I.op = .call
    · simp only [hop, if_true, resolveOperands, true_and]
      have hin : ∀ v ∈ I.args, v ∈ I.inputs := by
        intro v hv
        simp [IrInstr.inputs, hop, hv]
      split
      · rw [List.map_map]
        apply List.map_congr_left
        intro v hv
        apply h v (hin v hv)
      · rename_i hr1
        apply List.map_congr_left
        intro v hv
        have hk : ρ.has v = false := by
          apply hkept
          have hnone : I.r1.isNone := by simpa using hr1
          simp [IrInstr.kept, hop, hnone, hv]
        have hv' := h v (hin v hv)
        rwa [resolveTmp_of_not_has hk] at hv'
    · simp [resolveOperands_op, hop]

/-- Resolving the operands of an instruction does not change what its opcode does. -/
theorem effect_resolveOperands
    {ρ : Resolver} {I : IrInstr} (hkept : ∀ v ∈ I.kept, ρ.has v = false) (m : Machine)
    (tr : List Event) (o : Operands) :
  effect m tr (resolveOperands ρ I) o = effect m tr I o
  := by
  have hslot : I.op = .lea ∨ I.op = .gep → irResolveTmp ρ I.r1 = I.r1 := by
    intro hop
    cases hr1 : I.r1 with
    | none => rfl
    | some v =>
      have hk : ρ.has v = false := by
        apply hkept
        obtain hop | hop := hop <;> simp [IrInstr.kept, hop, hr1]
      exact congrArg some (resolveTmp_of_not_has hk)
  cases hop : I.op <;> simp only [effect, resolveOperands, effectiveAddress, hop, reduceCtorEq,
    or_self, or_false, false_or, if_false]
  case lea => rw [hslot (.inl hop)]
  case gep => rw [hslot (.inr hop)]

/-- An instruction is kept, or it is gone and the resolver has what it computes. -/
theorem Folded.kept_or_gone
    {ρ : Resolver} {I I' : IrInstr} (h : Folded ρ I I') (hkept : ∀ v ∈ I.kept, ρ.has v = false) :
  Kept ρ I I' ∨ ∃ d v, I.op.isArith ∧ I.dst = some d ∧ d.kind = .tmp
    ∧ ρ.lookup d.varId = some v ∧ Computes (resolveOperands ρ I) v
    ∧ I' = (resolveOperands ρ I).toNop
  := by
  have heff : ∀ m tr σ σ',
      (∀ v ∈ I.inputs, valueOf m tr σ' (resolveTmp ρ v) = valueOf m tr σ v) →
      effect m tr (resolveOperands ρ I) ((resolveOperands ρ I).operands m tr σ')
        = effect m tr I (I.operands m tr σ) := by
    intro m tr σ σ' hin
    rw [operands_resolveOperands hkept hin, effect_resolveOperands hkept]
  have harith : I.op.isArith → I.op.isJump = false ∧ ∀ p es, I.next p es = some (p.1, p.2 + 1) := by
    intro hop
    unfold IrInstr.next
    cases h : I.op <;> rw [h] at hop <;> first
      | exact ⟨rfl, fun _ _ => rfl⟩
      | apply absurd hop (by decide)
  cases h with
  | same hs =>
    left
    refine ⟨fun _ _ => rfl, rfl, hs, heff, fun m tr o r τ hr => ?_⟩
    simp only [resolveOperands]
    split
    · rename_i hop
      have hw : r.1 = none := by
        apply effect_fst_of_not_writesDst hr
        obtain hop | hop | hop := hop <;> rw [hop] <;> rfl
      rw [hw]
      cases I.dst <;> rfl
    · rfl
  | gone d v hop hd ht hv hc => exact .inr ⟨d, v, hop, hd, ht, hv, hc, rfl⟩
  | store d v hop hd hl hk hc =>
    left
    have hdst : (resolveOperands ρ I).dst = some d := by rw [resolveOperands_dst hop, hd]
    constructor
    · intro p es
      rw [(harith hop).2]
      rfl
    · rw [(harith hop).1]
      rfl
    · intro t ht
      simp [IrInstr.definedTmp, hd, hl] at ht
    · intro m tr σ σ' hin
      rw [← heff m tr σ σ' hin, hc m tr σ']
      have hvar : d.kind.isVar := by
        rw [hl]
        rfl
      simp [effect, IrInstr.operands, IrOp.readsR1, hdst, hvar]
    · intro m tr o r τ _
      rw [hd]
      show assign (resolveOperands ρ I).dst r.1 τ = _
      rw [hdst]
  | shift v hop hs hk he =>
    left
    constructor
    · intro p es
      rw [(harith hop).2]
      rfl
    · rw [(harith hop).1]
      rfl
    · apply hs
    · intro m tr σ σ' hin
      rw [he m tr σ', heff m tr σ σ' hin]
    · intro m tr o r τ _
      show assign (resolveOperands ρ I).dst r.1 τ = _
      rw [resolveOperands_dst hop]

/-! ### Corresponding points -/

/-- Related lists have related entries at the same places. -/
theorem getElem?_of_forall₂
    {α β : Type} {R : α → β → Prop} {l : List α} {l' : List β} (h : List.Forall₂ R l l')
    (i : Nat) :
  (l[i]? = none ∧ l'[i]? = none) ∨ ∃ a b, l[i]? = some a ∧ l'[i]? = some b ∧ R a b
  := by
  induction h generalizing i with
  | nil => exact .inl ⟨rfl, rfl⟩
  | @cons a b l l' hab _ ih =>
    cases i with
    | zero => exact .inr ⟨a, b, rfl, rfl, hab⟩
    | succ i => apply ih i

/-- The blocks found under an id correspond. -/
theorem findBlock_of_forall₂
    {ρ : Resolver} {fn fn' : IrFunction} (h : List.Forall₂ (FoldedBlock ρ) fn.blocks fn'.blocks)
    (id : Nat) :
  (fn.findBlock id = none ∧ fn'.findBlock id = none)
    ∨ ∃ b b', fn.findBlock id = some b ∧ fn'.findBlock id = some b' ∧ FoldedBlock ρ b b'
  := by
  unfold IrFunction.findBlock
  generalize fn.blocks = bs, fn'.blocks = bs' at h
  induction h with
  | nil => exact .inl ⟨rfl, rfl⟩
  | @cons b b' bs bs' hb _ ih =>
    by_cases hid : b.id = id
    · have hid' : b'.id = id := hb.1.trans hid
      exact .inr ⟨b, b', by simp [hid], by simp [hid'], hb⟩
    · have hid' : ¬ b'.id = id := by
        rw [hb.1]
        exact hid
      simpa [List.find?_cons, hid, hid'] using ih

/-- The instructions at a point correspond. -/
theorem instrAt_of_forall₂
    {ρ : Resolver} {fn fn' : IrFunction} (h : List.Forall₂ (FoldedBlock ρ) fn.blocks fn'.blocks)
    (p : Point) :
  (fn.instrAt p = none ∧ fn'.instrAt p = none)
    ∨ ∃ I I', fn.instrAt p = some I ∧ fn'.instrAt p = some I' ∧ Folded ρ I I'
  := by
  unfold IrFunction.instrAt
  obtain ⟨hb, hb'⟩ | ⟨b, b', hb, hb', -, hinstrs⟩ := findBlock_of_forall₂ h p.1
  · rw [hb, hb']
    exact .inl ⟨rfl, rfl⟩
  · rw [hb, hb']
    apply getElem?_of_forall₂ hinstrs

/-- The operands that the pass does not rewrite are not folded. -/
theorem kept_not_has
    {ρ : Resolver} {st : EvalState} {l : List IrInstr} (h : foldsFirst ρ st l) {I : IrInstr}
    (hI : I ∈ l) :
  ∀ v ∈ I.kept, ρ.has v = false
  := by
  induction l generalizing st with
  | nil => cases hI
  | cons J l ih =>
    simp only [foldsFirst, usesFolded, Bool.and_eq_true, List.all_eq_true,
      Bool.not_eq_true'] at h
    obtain rfl | hI := List.mem_cons.mp hI
    · apply h.1.2
    · apply ih h.2 hI

/-- A phi stays a phi with its incoming values resolved, and no other instruction becomes
one. -/
theorem Folded.phi {ρ : Resolver} {I I' : IrInstr} (h : Folded ρ I I') :
  (I.op = .phi → I' = resolveOperands ρ I) ∧ (I.op ≠ .phi → I'.op ≠ .phi)
    ∧ (I.op = .nop → I'.op = .nop)
  := by
  cases h with
  | same hs => exact ⟨fun _ => rfl, fun h => h, fun h => h⟩
  | gone d v hop hd ht hv hc =>
    refine ⟨fun h => ?_, fun _ => by simp [IrInstr.toNop], fun _ => rfl⟩
    rw [h] at hop
    cases hop
  | store d v hop hd hl hk hc =>
    refine ⟨fun h => ?_, fun _ => by simp, fun h => ?_⟩ <;>
    · rw [h] at hop
      cases hop
  | shift v hop hs hk he =>
    refine ⟨fun h => ?_, fun _ => by simp, fun h => ?_⟩ <;>
    · rw [h] at hop
      cases hop

/-- The copies on an edge are those before the pass, with the incoming values resolved. -/
theorem phiCopies_of_forall₂
    {ρ : Resolver} {l l' : List IrInstr} (h : List.Forall₂ (Folded ρ) l l') (hl : phisLead l)
    (pred : Nat) :
  phiCopies pred l' = (phiCopies pred l).map fun c => (c.1, resolveTmp ρ c.2)
  := by
  unfold phiCopies
  have hphi : ∀ {I I'}, Folded ρ I I' → (I'.op = .phi ↔ I.op = .phi) ∧ (I.op = .nop → I'.op = .nop) :=
    fun hI => ⟨⟨not_imp_not.mp hI.phi.2.1, fun hop => by rw [hI.phi.1 hop, resolveOperands_op, hop]⟩,
      hI.phi.2.2⟩
  rw [leadingPhis_eq_filter hl, leadingPhis_eq_filter (phisLead_of_forall₂ hphi h hl)]
  clear hl
  induction h with
  | nil => rfl
  | @cons I I' l l' hI _ ih =>
    by_cases hphi : I.op = .phi
    · have hI' := hI.phi.1 hphi
      have hphi' : I'.op = .phi := by rw [hI', resolveOperands_op, hphi]
      rw [List.filter_cons_of_pos (by simp [hphi']), List.filter_cons_of_pos (by simp [hphi])]
      have hdst : I'.dst = I.dst := by simp [hI', resolveOperands, hphi]
      have hinc : phiIncoming pred I' = (phiIncoming pred I).map (resolveTmp ρ) := by
        have hpairs : I'.phiPairs
            = I.phiPairs.map fun q => { q with irValue := resolveTmp ρ q.irValue } := by
          simp [hI', resolveOperands, hphi]
        simp [phiIncoming, hpairs, List.find?_map, Function.comp_def]
      rw [List.filterMap_cons, List.filterMap_cons, hdst, hinc, ih]
      cases I.dst with
      | none => rfl
      | some d =>
        cases phiIncoming pred I with
        | none => rfl
        | some v => rfl
    · rw [List.filter_cons_of_neg (by simpa using hI.phi.2.1 hphi),
        List.filter_cons_of_neg (by simp [hphi]), ih]

/-! ### The simulation -/

/-- Two functions related by folding: what the run of one needs to know to follow the run of
the other. -/
structure FoldedFunction (ρ : Resolver) (fn fn' : IrFunction) : Prop where
  entry : fn'.entryBlock = fn.entryBlock
  blocks : List.Forall₂ (FoldedBlock ρ) fn.blocks fn'.blocks
  phisLead : ∀ b ∈ fn.blocks, phisLead b.instructions
  kept : ∀ I ∈ fn.instrs, ∀ v ∈ I.kept, ρ.has v = false
  entries : ∀ t x, ρ.lookup t = some x → EntryOk fn ρ t x
  notLive : ∀ t x, ρ.lookup t = some x → x.kind.isVar → ∀ p q, fn.flow.Reachable p →
    fn.flow.step p q → fn.flow.defines p q x.key → ¬ fn.flow.Live ⟨.tmp, t⟩ q

/-- The environments at a point of the two runs: they agree on all variables but the folded
temporaries, and a folded temporary that is live has the word of its replacement. -/
structure Agrees (m : Machine) (ρ : Resolver) (fn : IrFunction) (p : Point) (σ σ' : Env) :
    Prop where
  reachable : fn.flow.Reachable p
  agree : ∀ k, (k.kind = .tmp → ρ.lookup k.id = none) → σ' k = σ k
  replaced : ∀ t x, ρ.lookup t = some x → fn.flow.Live ⟨.tmp, t⟩ p →
    ∀ tr, σ ⟨.tmp, t⟩ = valueOf m tr σ x

/-- A value that is not folded has the same word in both runs. -/
theorem Agrees.valueOf_eq
    {m : Machine} {ρ : Resolver} {fn : IrFunction} {p : Point} {σ σ' : Env}
    (h : Agrees m ρ fn p σ σ') {v : IrValue} (hv : ρ.has v = false) (tr : List Event) :
  valueOf m tr σ' v = valueOf m tr σ v
  := by
  apply valueOf_congr_env
  intro _
  apply h.agree
  intro htmp
  have hk : v.kind = .tmp := htmp
  simpa [Resolver.has, hk, IrValue.key] using hv

/-- A resolved value has in the one run the word that the value has in the other, if it is
live when it is folded. -/
theorem Agrees.valueOf_resolveTmp
    {m : Machine} {ρ : Resolver} {fn fn' : IrFunction} (hf : FoldedFunction ρ fn fn')
    {p : Point} {σ σ' : Env} (h : Agrees m ρ fn p σ σ') {v : IrValue}
    (hv : v.kind = .tmp → fn.flow.Live v.key p) (tr : List Event) :
  valueOf m tr σ' (resolveTmp ρ v) = valueOf m tr σ v
  := by
  cases hhas : ρ.has v with
  | false => rw [resolveTmp_of_not_has hhas, h.valueOf_eq hhas]
  | true =>
    simp only [Resolver.has, Bool.and_eq_true, decide_eq_true_eq, Option.isSome_iff_exists]
      at hhas
    obtain ⟨hk, x, hx⟩ := hhas
    have hkey : v.key = ⟨.tmp, v.varId⟩ := by rw [IrValue.key, hk]
    have hlive := hv hk
    rw [hkey] at hlive
    have hres : resolveTmp ρ v = x := by simp [resolveTmp, irIsTmp, hk, hx]
    rw [hres, h.valueOf_eq (hf.entries _ _ hx).notFolded, ← h.replaced _ _ hx hlive,
      valueOf_of_isVar (by rw [hk]; rfl), hkey]

/-- The inputs of the instruction at a point have the same words in both runs. -/
theorem Agrees.inputs
    {m : Machine} {ρ : Resolver} {fn fn' : IrFunction} (hf : FoldedFunction ρ fn fn')
    {p : Point} {σ σ' : Env} (h : Agrees m ρ fn p σ σ') {I : IrInstr}
    (hI : fn.instrAt p = some I) (tr : List Event) :
  ∀ v ∈ I.inputs, valueOf m tr σ' (resolveTmp ρ v) = valueOf m tr σ v
  := by
  intro v hv
  apply h.valueOf_resolveTmp hf
  intro hk
  apply FlowGraph.live_of_use
  exact ⟨I, hI, .inl ⟨v, hv, by rw [hk]; rfl, rfl⟩⟩

/-- After a step, a folded temporary that the step does not define and that is live still has
the word of its replacement. -/
theorem Agrees.replaced_step
    {m : Machine} {ρ : Resolver} {fn fn' : IrFunction} (hf : FoldedFunction ρ fn fn')
    {p q : Point} {σ σ' τ : Env} (h : Agrees m ρ fn p σ σ') (hstep : fn.flow.step p q)
    (hτ : ∀ k, ¬ fn.flow.defines p q k → τ k = σ k) {t : Nat} {x : IrValue}
    (hx : ρ.lookup t = some x) (hd : ¬ fn.flow.defines p q ⟨.tmp, t⟩)
    (hlive : fn.flow.Live ⟨.tmp, t⟩ q) (tr : List Event) :
  τ ⟨.tmp, t⟩ = valueOf m tr τ x
  := by
  rw [hτ _ hd, h.replaced t x hx (hlive.step hstep hd) tr]
  apply valueOf_congr (hf.entries t x hx).isPlain
  intro hvar
  rw [hτ]
  intro hdx
  apply hf.notLive t x hx hvar p q h.reachable hstep hdx hlive

/-- Configurations of the two runs that correspond. -/
inductive Follows (m : Machine) (ρ : Resolver) (fn : IrFunction) : Config → Config → Prop where
  | at (p : Point) (σ σ' : Env) (tr : List Event) (h : Agrees m ρ fn p σ σ') :
      Follows m ρ fn (.at p ⟨σ, tr⟩) (.at p ⟨σ', tr⟩)
  | returned (σ σ' : Env) (tr : List Event) :
      Follows m ρ fn (.returned ⟨σ, tr⟩) (.returned ⟨σ', tr⟩)
  | stuck (σ σ' : Env) (tr : List Event) :
      Follows m ρ fn (.stuck ⟨σ, tr⟩) (.stuck ⟨σ', tr⟩)

/-- Corresponding configurations have the same events. -/
theorem Follows.trace_eq
    {m : Machine} {ρ : Resolver} {fn : IrFunction} {c c' : Config} (h : Follows m ρ fn c c') :
  c'.trace = c.trace
  := by
  cases h <;> rfl

/-- Corresponding configurations return together. -/
theorem Follows.isReturned_eq
    {m : Machine} {ρ : Resolver} {fn : IrFunction} {c c' : Config} (h : Follows m ρ fn c c') :
  c'.isReturned = c.isReturned
  := by
  cases h <;> rfl

/-- A phi does not define a folded temporary. -/
theorem FoldedFunction.not_defined_by_phi
    {ρ : Resolver} {fn fn' : IrFunction} (hf : FoldedFunction ρ fn fn') {p : Point}
    {P : IrInstr} (hP : fn.instrAt p = some P) (hop : P.op = .phi) {t : Nat}
    (ht : P.definedTmp = some t) :
  ρ.lookup t = none
  := by
  obtain ⟨hn, -⟩ | ⟨I, I', hI, -, hfold⟩ := instrAt_of_forall₂ hf.blocks p
  · rw [hP] at hn
    cases hn
  · obtain rfl := Option.some_inj.mp (hP.symm.trans hI)
    obtain hk | ⟨d, v, harith, -⟩ :=
      hfold.kept_or_gone (hf.kept P (fn.mem_instrs_of_instrAt hP))
    · apply hk.notFolded t ht
    · rw [hop] at harith
      cases harith

/-- A step that defines a folded temporary writes it with an instruction that is gone. -/
theorem FoldedFunction.gone_of_defines
    {ρ : Resolver} {fn fn' : IrFunction} (hf : FoldedFunction ρ fn fn') {p q : Point}
    {I : IrInstr} (hI : fn.instrAt p = some I) {t : Nat} (ht : ρ.lookup t ≠ none)
    (hd : fn.flow.defines p q ⟨.tmp, t⟩) :
  I.definedTmp = some t
  := by
  obtain ⟨J, hJ, hw | ⟨c, hc, hk⟩⟩ := hd
  · obtain rfl := Option.some_inj.mp (hI.symm.trans hJ)
    apply definedTmp_of_writes hw
  · obtain ⟨-, j, P, hP, hop, hdst⟩ := fn.edgeCopies_phi hc
    apply absurd (hf.not_defined_by_phi hP hop (definedTmp_of_phi hop hdst hk)) ht

/-- The copies on an edge correspond. -/
theorem FoldedFunction.edgeCopies_eq
    {ρ : Resolver} {fn fn' : IrFunction} (hf : FoldedFunction ρ fn fn') {I I' : IrInstr}
    (hj : I'.op.isJump = I.op.isJump) (p q : Point) :
  fn'.edgeCopies p q I' = (fn.edgeCopies p q I).map fun c => (c.1, resolveTmp ρ c.2)
  := by
  unfold IrFunction.edgeCopies
  rw [hj]
  split
  · obtain ⟨hb, hb'⟩ | ⟨b, b', hb, hb', -, hinstrs⟩ := findBlock_of_forall₂ hf.blocks q.1
    · rw [hb, hb']
      rfl
    · rw [hb, hb']
      apply phiCopies_of_forall₂ hinstrs
      apply hf.phisLead b (fn.findBlock_some hb).1
  · rfl

/-- A jump writes no variable. -/
theorem assign_of_isJump
    {m : Machine} {tr : List Event} {I : IrInstr} {o : Operands} {r : Option Word × List Event}
    (h : effect m tr I o = some r) (hj : I.op.isJump) (σ : Env) :
  assign I.dst r.1 σ = σ
  := by
  have hw : I.op.writesDst = false := by
    cases hop : I.op <;> rw [hop] at hj <;> first
      | rfl
      | apply absurd hj (by decide)
  rw [effect_fst_of_not_writesDst h hw]
  cases I.dst <;> rfl

/-- A step through a kept instruction keeps the agreement. -/
theorem Agrees.kept
    {m : Machine} {ρ : Resolver} {fn fn' : IrFunction} (hf : FoldedFunction ρ fn fn')
    {p q : Point} {σ σ' : Env} (h : Agrees m ρ fn p σ σ') {I I' : IrInstr}
    (hI : fn.instrAt p = some I) (hk : Kept ρ I I') {tr tr' : List Event}
    {r : Option Word × List Event}
    (hr : effect m tr I (I.operands m tr σ) = some r) (hq : q ∈ I.nexts p) :
  Agrees m ρ fn q (parallelCopy m tr' (assign I.dst r.1 σ) (fn.edgeCopies p q I))
    (parallelCopy m tr' (assign I'.dst r.1 σ') (fn'.edgeCopies p q I'))
  := by
  have hstep : fn.flow.step p q := ⟨I, hI, hq⟩
  constructor
  · apply Relation.ReflTransGen.tail h.reachable hstep
  · intro k hkey
    have hwords : (fn'.edgeCopies p q I').map
          (fun c => (c.1.key, valueOf m tr' (assign I'.dst r.1 σ') c.2))
        = (fn.edgeCopies p q I).map
          (fun c => (c.1.key, valueOf m tr' (assign I.dst r.1 σ) c.2)) := by
      rw [hf.edgeCopies_eq hk.isJump, List.map_map]
      apply List.map_congr_left
      intro c hc
      have hjump := (fn.edgeCopies_phi hc).1
      rw [hk.assign m tr _ r σ' hr, assign_of_isJump hr hjump, assign_of_isJump hr hjump,
        Function.comp_apply, h.valueOf_resolveTmp hf]
      intro htmp
      apply FlowGraph.live_of_use
      exact ⟨I, hI, .inr ⟨q, hq, c, hc, by rw [htmp]; rfl, rfl⟩⟩
    rw [parallelCopy, parallelCopy, hwords]
    apply writeAll_congr
    rw [hk.assign m tr _ r σ' hr]
    cases hd : I.dst with
    | none => apply h.agree k hkey
    | some d =>
      cases hw : r.1 with
      | none => apply h.agree k hkey
      | some w =>
        by_cases e : k = d.key
        · simp [assign, e]
        · simp [assign, e, h.agree k hkey]
  · intro t x hx hlive tr''
    apply h.replaced_step hf hstep _ hx _ hlive
    · intro k hd
      apply fn.env_of_not_defines hI hr hd
    · intro hd
      have hdef := hf.gone_of_defines hI (by rw [hx]; simp) hd
      rw [hk.notFolded t hdef] at hx
      cases hx

/-- A step through an instruction that is gone keeps the agreement. -/
theorem Agrees.gone
    {m : Machine} {ρ : Resolver} {fn fn' : IrFunction} (hf : FoldedFunction ρ fn fn')
    {p : Point} {σ σ' : Env} (h : Agrees m ρ fn p σ σ') {I : IrInstr}
    (hI : fn.instrAt p = some I) (hop : I.op.isArith) {d v : IrValue} (hd : I.dst = some d)
    (ht : d.kind = .tmp) (hv : ρ.lookup d.varId = some v) {tr : List Event}
    (hr : effect m tr I (I.operands m tr σ) = some (some (valueOf m tr σ' v), [])) :
  Agrees m ρ fn (p.1, p.2 + 1) (assign I.dst (some (valueOf m tr σ' v)) σ) σ'
  := by
  have hkey : d.key = ⟨.tmp, d.varId⟩ := by rw [IrValue.key, ht]
  have hok := hf.entries _ _ hv
  have hnext : (p.1, p.2 + 1) ∈ I.nexts p := by
    unfold IrInstr.nexts
    cases h : I.op <;> rw [h] at hop <;> first
      | exact List.mem_singleton.mpr rfl
      | apply absurd hop (by decide)
  have hstep : fn.flow.step p (p.1, p.2 + 1) := ⟨I, hI, hnext⟩
  have hedge : fn.edgeCopies p (p.1, p.2 + 1) I = [] := by
    unfold IrFunction.edgeCopies
    rw [if_neg]
    cases h : I.op <;> rw [h] at hop <;> first
      | exact Bool.false_ne_true
      | apply absurd hop (by decide)
  have hne : ∀ {k : VarKey}, (k.kind = .tmp → ρ.lookup k.id = none) → k ≠ d.key := by
    rintro k hk rfl
    have hnone := hk ht
    rw [show d.key.id = d.varId from rfl, hv] at hnone
    cases hnone
  rw [hd]
  constructor
  · apply Relation.ReflTransGen.tail h.reachable hstep
  · intro k hk
    rw [assign, Function.update_of_ne (hne hk)]
    apply h.agree k hk
  · intro t x hx hlive tr''
    by_cases e : t = d.varId
    · subst e
      obtain rfl := Option.some_inj.mp (hv.symm.trans hx)
      rw [← hkey, assign, Function.update_self]
      apply valueOf_congr hok.isPlain
      intro hvar
      have hfree : v.key.kind = .tmp → ρ.lookup v.key.id = none := by
        intro hk
        have hk' : v.kind = .tmp := hk
        have hfold := hok.notFolded
        simpa [Resolver.has, hk', IrValue.key] using hfold
      rw [Function.update_of_ne (hne hfree), h.agree _ hfree]
    · apply h.replaced_step hf hstep _ hx _ hlive
      · intro k hdef
        have hframe := fn.env_of_not_defines hI hr hdef σ tr
        rw [hedge, hd] at hframe
        apply hframe
      · intro hdef
        have hdt := hf.gone_of_defines hI (by rw [hx]; simp) hdef
        rw [definedTmp_of_isArith hop hd ht, Option.some_inj] at hdt
        apply e hdt.symm

/-- One step of the two runs. -/
theorem Follows.step
    {m : Machine} {ρ : Resolver} {fn fn' : IrFunction} (hf : FoldedFunction ρ fn fn')
    {c c' : Config} (h : Follows m ρ fn c c') :
  Follows m ρ fn (Polyc.step m fn c) (Polyc.step m fn' c')
  := by
  cases h with
  | returned σ σ' tr => apply Follows.returned
  | stuck σ σ' tr => apply Follows.stuck
  | «at» p σ σ' tr h =>
    obtain ⟨hI, hI'⟩ | ⟨I, I', hI, hI', hfold⟩ := instrAt_of_forall₂ hf.blocks p
    · simp only [Polyc.step, hI, hI']
      apply Follows.stuck
    have hin := h.inputs hf hI tr
    have hops := hf.kept I (fn.mem_instrs_of_instrAt hI)
    simp only [Polyc.step, hI, hI']
    obtain hk | ⟨d, v, hop, hd, ht, hv, hc, rfl⟩ := hfold.kept_or_gone hops
    · rw [hk.effect m tr σ σ' hin]
      cases hr : effect m tr I (I.operands m tr σ) with
      | none => apply Follows.stuck
      | some r =>
        dsimp only
        rw [hk.next]
        cases hnext : I.next p r.2 with
        | none => apply Follows.returned
        | some q =>
          apply Follows.at
          apply h.kept hf hI hk hr (I.mem_nexts hnext)
    · have hr : effect m tr I (I.operands m tr σ) = some (some (valueOf m tr σ' v), []) := by
        rw [← hc m tr σ', operands_resolveOperands hops hin, effect_resolveOperands hops]
      have hnext : I.next p [] = some (p.1, p.2 + 1) := by
        unfold IrInstr.next
        cases h : I.op <;> rw [h] at hop <;> first
          | rfl
          | apply absurd hop (by decide)
      have hjump : I.op.isJump = false := by
        cases h : I.op <;> rw [h] at hop <;> first
          | rfl
          | apply absurd hop (by decide)
      have hnop : effect m tr (resolveOperands ρ I).toNop
          ((resolveOperands ρ I).toNop.operands m tr σ') = some (none, []) := rfl
      have hnop' : (resolveOperands ρ I).toNop.next p [] = some (p.1, p.2 + 1) := rfl
      rw [hr, hnop]
      dsimp only
      rw [hnext, hnop']
      have hassign : assign (resolveOperands ρ I).toNop.dst none σ' = σ' := by
        unfold assign
        split <;> simp_all
      have hedge : fn.edgeCopies p (p.1, p.2 + 1) I = [] := by
        simp [IrFunction.edgeCopies, hjump]
      have hedge' : fn'.edgeCopies p (p.1, p.2 + 1) (resolveOperands ρ I).toNop = [] := rfl
      simp only [hassign, hedge, hedge']
      apply Follows.at
      apply h.gone hf hI hop hd ht hv hr

/-- All steps of the two runs. -/
theorem Follows.run
    {m : Machine} {ρ : Resolver} {fn fn' : IrFunction} (hf : FoldedFunction ρ fn fn')
    {c c' : Config} (h : Follows m ρ fn c c') (n : Nat) :
  Follows m ρ fn (Polyc.run m fn n c) (Polyc.run m fn' n c')
  := by
  induction n generalizing c c' with
  | zero => apply h
  | succ n ih => apply ih (h.step hf)

/-! ### The pass -/

/-- All operands that an instruction refers to. -/
def IrInstr.refers (I : IrInstr) : List IrValue := I.rewritten ++ I.kept

/-- What it means that folding with a resolver preserves a function.  Every run leaves the
same events and returns when the other does; where a folded temporary is live its
replacement has its word; and every temporary that is still used is still defined. -/
structure PreservedByFolding (ρ : Resolver) (fn fn' : IrFunction) : Prop where
  trace : ∀ m σ n, (run m fn' n (start fn' σ)).trace = (run m fn n (start fn σ)).trace
  isReturned : ∀ m σ n,
    (run m fn' n (start fn' σ)).isReturned = (run m fn n (start fn σ)).isReturned
  replaced : ∀ m σ n p s, run m fn n (start fn σ) = .at p s →
    ∃ s', run m fn' n (start fn' σ) = .at p s' ∧
      ∀ t x, ρ.lookup t = some x → fn.flow.Live ⟨.tmp, t⟩ p →
        valueOf m s'.trace s'.env x = s.env ⟨.tmp, t⟩
  defined : ∀ I ∈ fn'.instrs, ∀ v ∈ I.refers, v.kind = .tmp →
    v.varId ∈ tmpDefs fn.instrs → v.varId ∈ tmpDefs fn'.instrs

/-- The pass relates a function to the folded function. -/
theorem IrFunction.FoldsSafely.foldedFunction
    {fn : IrFunction} (hs : fn.FoldsSafely) (h : fn.IsSSA) (fresh : Nat) :
  FoldedFunction (foldedResolver fresh fn) fn (irEvalConstantExpressions fresh fn).1
  := by
  have hfirst := hs.foldsFirst h fresh
  constructor
  · rfl
  · apply folded_evalBlocks (Resolver.Le.refl _) hfirst h.once
    · intro t _
      rfl
    · intro t _ ht
      apply ht
  · apply h.phisLead
  · intro I hI
    apply kept_not_has hfirst hI
  · apply entryOk h hfirst
  · intro t x hx hvar p q hp hstep hd
    apply hs.not_live h hx hvar hp hstep hd

/-- The runs of the two functions start in agreement. -/
theorem FoldedFunction.start
    {ρ : Resolver} {fn fn' : IrFunction} (hf : FoldedFunction ρ fn fn') (h : fn.IsSSA)
    (m : Machine) (σ : Env) :
  Follows m ρ fn (Polyc.start fn σ) (Polyc.start fn' σ)
  := by
  unfold Polyc.start
  rw [hf.entry]
  apply Follows.at
  constructor
  · apply Relation.ReflTransGen.refl
  · intro k _
    rfl
  · intro t x _ hlive
    apply absurd hlive (h.dominated t)

/-- The instructions of the two functions correspond. -/
theorem FoldedFunction.instrs
    {ρ : Resolver} {fn fn' : IrFunction} (hf : FoldedFunction ρ fn fn') :
  List.Forall₂ (Folded ρ) fn.instrs fn'.instrs
  := by
  have hblocks := hf.blocks
  unfold IrFunction.instrs
  generalize fn.blocks = bs, fn'.blocks = bs' at hblocks
  induction hblocks with
  | nil => apply List.Forall₂.nil
  | cons hb _ ih =>
    rw [List.flatMap_cons, List.flatMap_cons]
    apply List.rel_append hb.2 ih

/-- No operand of a folded instruction is a folded temporary. -/
theorem FoldedFunction.not_has_of_refers
    {ρ : Resolver} {fn fn' : IrFunction} (hf : FoldedFunction ρ fn fn') {I I' : IrInstr}
    (hI : I ∈ fn.instrs) (hfold : Folded ρ I I') :
  ∀ v ∈ I'.refers, ρ.has v = false
  := by
  have hkept := hf.kept I hI
  have hres : ∀ v, ρ.has (resolveTmp ρ v) = false := by
    intro v
    cases hhas : ρ.has v with
    | false => rw [resolveTmp_of_not_has hhas, hhas]
    | true =>
      simp only [Resolver.has, Bool.and_eq_true, decide_eq_true_eq,
        Option.isSome_iff_exists] at hhas
      obtain ⟨hk, x, hx⟩ := hhas
      have hv : resolveTmp ρ v = x := by simp [resolveTmp, irIsTmp, hk, hx]
      rw [hv]
      apply (hf.entries _ _ hx).notFolded
  have hopt : ∀ {o : Option IrValue} {v}, irResolveTmp ρ o = some v → ρ.has v = false := by
    intro o v hv
    obtain ⟨u, -, rfl⟩ := Option.map_eq_some_iff.mp hv
    apply hres
  have hconst : ∀ {v : IrValue}, v.kind = .constInt → ρ.has v = false := by
    intro v hk
    simp [Resolver.has, hk]
  have hidx : ∀ v, I.idx = some v → ρ.has v = false := by
    intro v hv
    apply hkept
    simp [IrInstr.kept, hv]
  intro v hv
  cases hfold with
  | gone d w hop hd ht hw hc =>
    simp [IrInstr.refers, IrInstr.rewritten, IrInstr.kept, IrInstr.toNop,
      resolveOperands] at hv
    apply hidx v hv
  | store d w hop hd hl hk hc =>
    simp [IrInstr.refers, IrInstr.rewritten, IrInstr.kept, resolveOperands] at hv
    obtain rfl | hv := hv
    · apply hconst hk
    · apply hidx v hv
  | shift w hop hs hk he =>
    simp [IrInstr.refers, IrInstr.rewritten, IrInstr.kept, resolveOperands] at hv
    obtain hv | rfl | hv := hv
    · apply hopt hv
    · apply hconst hk
    · apply hidx v hv
  | same hs =>
    simp only [IrInstr.refers, IrInstr.rewritten, IrInstr.kept, List.mem_append,
      Option.mem_toList] at hv
    rcases hv with ((((hr1 | hr2) | hdst) | hphi) | hcall) | (((hidx' | hrmw) | hlea) | hother)
    · apply hopt hr1
    · apply hopt hr2
    · split at hdst
      · rename_i hop
        rw [resolveOperands_op] at hop
        rw [Option.mem_toList, resolveOperands, if_pos hop] at hdst
        apply hopt hdst
      · cases hdst
    · split at hphi
      · rename_i hop
        rw [resolveOperands_op] at hop
        rw [resolveOperands, if_pos hop, List.map_map] at hphi
        obtain ⟨q, -, rfl⟩ := List.mem_map.mp hphi
        apply hres
      · cases hphi
    · split at hcall
      · rename_i hop
        have hop' : I.op = .call ∧ I.r1.isSome := by
          simpa [resolveOperands, irResolveTmp] using hop
        rw [resolveOperands, if_pos hop'] at hcall
        obtain ⟨u, -, rfl⟩ := List.mem_map.mp hcall
        apply hres
      · cases hcall
    · apply hidx v hidx'
    · split at hrmw
      · rename_i hop
        rw [resolveOperands_op] at hop
        have hdst : (resolveOperands ρ I).dst = I.dst := if_neg (by simp [hop])
        rw [hdst, Option.mem_toList] at hrmw
        apply hkept
        simp [IrInstr.kept, hop, hrmw]
      · cases hrmw
    · split at hlea
      · apply hopt (Option.mem_toList.mp hlea)
      · cases hlea
    · split at hother
      · rename_i hop
        have hop' : I.op = .call ∧ I.r1 = none := by
          simpa [resolveOperands, irResolveTmp] using hop
        have hargs : (resolveOperands ρ I).args = I.args := if_neg (by simp [hop'.2])
        rw [hargs] at hother
        apply hkept
        simp [IrInstr.kept, hop'.1, hop'.2, hother]
      · cases hother

/-- Resolving keeps the definition of an instruction. -/
theorem definedTmp_resolveOperands (ρ : Resolver) (I : IrInstr) :
  (resolveOperands ρ I).definedTmp = I.definedTmp
  := by
  by_cases hop : I.op.writesDst ∨ I.op = .phi
  · have hdst : ¬ (I.op = .br ∨ I.op = .ret ∨ I.op = .storeDeref) := by
      rintro (e | e | e) <;> simp [e, IrOp.writesDst] at hop
    simp only [IrInstr.definedTmp, resolveOperands, if_neg hdst]
  · rw [IrInstr.definedTmp, IrInstr.definedTmp, resolveOperands_op, if_neg hop, if_neg hop]

/-- A temporary that is not folded keeps its definition. -/
theorem FoldedFunction.mem_tmpDefs
    {ρ : Resolver} {fn fn' : IrFunction} (hf : FoldedFunction ρ fn fn') {t : Nat}
    (ht : ρ.lookup t = none) (h : t ∈ tmpDefs fn.instrs) :
  t ∈ tmpDefs fn'.instrs
  := by
  obtain ⟨I, hI, hdef⟩ := List.mem_filterMap.mp h
  obtain ⟨i, hi⟩ := List.mem_iff_getElem?.mp hI
  obtain ⟨hn, -⟩ | ⟨J, I', hJ, hI', hfold⟩ := getElem?_of_forall₂ hf.instrs i
  · rw [hi] at hn
    cases hn
  obtain rfl := Option.some_inj.mp (hi.symm.trans hJ)
  refine List.mem_filterMap.mpr ⟨I', List.mem_of_getElem? hI', ?_⟩
  cases hfold with
  | gone d w hop hd htmp hw hc =>
    rw [definedTmp_of_isArith hop hd htmp, Option.some_inj] at hdef
    rw [hdef, ht] at hw
    cases hw
  | store d w hop hd hl hk hc => simp [IrInstr.definedTmp, hd, hl] at hdef
  | shift w hop hs hk he =>
    have hw := writesDst_of_isArith hop
    simp only [IrInstr.definedTmp, hw, true_or, if_true] at hdef
    simp only [IrInstr.definedTmp, IrOp.writesDst, true_or, if_true, resolveOperands_dst hop,
      hdef]
  | same hs => rw [definedTmp_resolveOperands, hdef]

/-- Folding preserves a function whose folded temporaries are used safely. -/
theorem FoldedFunction.preserved
    {ρ : Resolver} {fn fn' : IrFunction} (hf : FoldedFunction ρ fn fn') (h : fn.IsSSA) :
  PreservedByFolding ρ fn fn'
  := by
  constructor
  · intro m σ n
    apply ((hf.start h m σ).run hf n).trace_eq
  · intro m σ n
    apply ((hf.start h m σ).run hf n).isReturned_eq
  · intro m σ n p s hs
    have hrun := (hf.start h m σ).run hf n
    rw [hs] at hrun
    generalize run m fn' n (Polyc.start fn' σ) = c' at hrun ⊢
    cases hrun with
    | «at» p τ τ' tr hagree =>
      use ⟨τ', tr⟩, rfl
      intro t x hx hlive
      rw [hagree.valueOf_eq (hf.entries t x hx).notFolded]
      apply (hagree.replaced t x hx hlive tr).symm
  · intro I' hI' v hv hk hdef
    obtain ⟨i, hi⟩ := List.mem_iff_getElem?.mp hI'
    obtain ⟨-, hn⟩ | ⟨I, J, hI, hJ, hfold⟩ := getElem?_of_forall₂ hf.instrs i
    · rw [hi] at hn
      cases hn
    obtain rfl := Option.some_inj.mp (hi.symm.trans hJ)
    apply hf.mem_tmpDefs _ hdef
    have hhas := hf.not_has_of_refers (List.mem_of_getElem? hI) hfold v hv
    simpa [Resolver.has, hk] using hhas

/-- Constant folding preserves every function in single-assignment form that uses its folded
temporaries safely. -/
theorem irEvalConstantExpressions_preserved
    {fn : IrFunction} (h : fn.IsSSA) (hs : fn.FoldsSafely) (fresh : Nat) :
  PreservedByFolding (foldedResolver fresh fn) fn (irEvalConstantExpressions fresh fn).1
  := (hs.foldedFunction h fresh).preserved h

/-! ### Folding onto a local -/

/-- `t1 = l1 * 1; t2 = t1 + t1; ret t2`. -/
def doubleFn : IrFunction where
  entryBlock := 1
  blocks :=
    [{ id := 1
       instructions :=
        [{ op := .imul, dst := irWordVar 2 .tmp 1, r1 := irWordVar 1 .local 1,
           r2 := irConstInt 3 .i64 1 },
         { op := .iadd, dst := irWordVar 4 .tmp 2, r1 := irWordVar 2 .tmp 1,
           r2 := irWordVar 2 .tmp 1 },
         { op := .ret, dst := irWordVar 4 .tmp 2 }] }]

/-- `t1 = l1 + 0; l1 = 5; ret t1`. -/
def overwriteFn : IrFunction where
  entryBlock := 1
  blocks :=
    [{ id := 1
       instructions :=
        [{ op := .iadd, dst := irWordVar 2 .tmp 1, r1 := irWordVar 1 .local 1,
           r2 := irConstInt 3 .i64 0 },
         { op := .store, dst := irWordVar 1 .local 1, r1 := irConstInt 4 .i64 5 },
         { op := .ret, dst := irWordVar 2 .tmp 1 }] }]

theorem irEvalConstantExpressions_doubleFn :
  PreservedByFolding (foldedResolver 100 doubleFn) doubleFn
    (irEvalConstantExpressions 100 doubleFn).1
  := by
  apply irEvalConstantExpressions_preserved
  · apply IrFunction.isSSA_of_straightLine rfl rfl
    all_goals decide
  constructor
  · have huses : ∀ i : Fin doubleFn.instrs.length, ∀ v ∈ doubleFn.instrs[i].rewritten,
        v.kind = .tmp → v.varId ∈ tmpDefs (doubleFn.instrs.take i) := by decide
    intro i I hI v hv hk _
    obtain ⟨hi, rfl⟩ := List.getElem?_eq_some_iff.mp hI
    apply huses ⟨i, hi⟩ v hv hk
  · have hkept : ∀ I ∈ doubleFn.instrs, I.kept = [] := by decide
    intro I hI v hv
    rw [hkept I hI] at hv
    cases hv
  · have hdst : ∀ I ∈ doubleFn.instrs, ∀ d ∈ I.dst.toList, d.kind = .tmp := by decide
    have hjump : ∀ I ∈ doubleFn.instrs, I.op.isJump = false := by decide
    rintro t x - hx p q - - ⟨I, hI, hw | ⟨c, hc, -⟩⟩
    · simp only [IrInstr.writes, Bool.and_eq_true, Option.any_eq_true, decide_eq_true_eq] at hw
      obtain ⟨-, d, hd, hkey⟩ := hw
      have hk := hdst I (doubleFn.mem_instrs_of_instrAt hI) d (Option.mem_toList.mpr hd)
      have hxk : x.kind = d.kind := (congrArg VarKey.kind hkey).symm
      rw [hxk, hk] at hx
      obtain hx | hx := hx <;> cases hx
    · have hj := (doubleFn.edgeCopies_phi hc).1
      rw [hjump I (doubleFn.mem_instrs_of_instrAt hI)] at hj
      cases hj

theorem irEvalConstantExpressions_overwriteFn :
  ¬ ∀ fn : IrFunction, fn.IsSSA → ∀ fresh,
    PreservedByFolding (foldedResolver fresh fn) fn (irEvalConstantExpressions fresh fn).1
  := by
  intro h
  have hssa : overwriteFn.IsSSA := by
    apply IrFunction.isSSA_of_straightLine rfl rfl
    all_goals decide
  have htrace := (h overwriteFn hssa 100).trace zeroMachine (fun _ => 0) 3
  revert htrace
  decide

end Polyc
