import Polyc.Ir.EvalWalk

/-!
# What constant folding folds

Which temporaries fold, and onto what, is a property of the function that does not mention
the walk of the pass.  A folded temporary keeps, wherever it is live, the word of what it
was folded onto: for another temporary this follows from dominance, but a local or a
parameter must not be assigned where the temporary is live, which the pass does not check.
-/

namespace Polyc

/-! ### What the resolver says -/

/-- The resolver at the end of the pass. -/
def foldedResolver (fresh : Nat) (fn : IrFunction) : Resolver :=
  (evalInstrs ⟨[], fresh⟩ fn.instrs).2.2.resolver

/-- What holds of an entry of the resolver: its value is a constant or a variable that is not
itself folded, and a temporary whose definition dominates that of the folded one. -/
structure EntryOk (fn : IrFunction) (ρ : Resolver) (t : Nat) (x : IrValue) : Prop where
  notFolded : ρ.has x = false
  isPlain : x.isPlain
  dominates : x.kind = .tmp → fn.flow.Dominates x.key ⟨.tmp, t⟩

/-- The step that defines a temporary folded from an operand `x` uses `x`. -/
theorem IrFunction.IsSSA.use_of_defines
    {fn : IrFunction} (h : fn.IsSSA) {I : IrInstr} (hI : I ∈ fn.instrs) (hop : I.op.isArith)
    {t : Nat} (ht : I.definedTmp = some t) {x : IrValue}
    (hx : x ∈ I.r1.toList ++ I.r2.toList) (hvar : x.kind.isVar) {p q : Point}
    (hd : fn.flow.defines p q ⟨.tmp, t⟩) :
  fn.flow.use p x.key
  := by
  obtain ⟨J, hJ, hw | ⟨c, hc, hk⟩⟩ := hd
  · obtain rfl := h.instr_unique hI (fn.mem_instrs_of_instrAt hJ) ht (definedTmp_of_writes hw)
    refine ⟨I, hJ, .inl ⟨x, ?_, hvar, rfl⟩⟩
    have hr1 : I.op.readsR1 := by
      cases h : I.op <;> rw [h] at hop <;> first
        | rfl
        | apply absurd hop (by decide)
    have hr2 : I.op.readsR2 := by
      cases h : I.op <;> rw [h] at hop <;> first
        | rfl
        | apply absurd hop (by decide)
    rw [List.mem_append] at hx
    simp only [IrInstr.inputs, hr1, hr2, if_true, List.mem_append]
    tauto
  · obtain ⟨-, j, P, hP, hphi, hdst⟩ := fn.edgeCopies_phi hc
    obtain rfl := h.instr_unique hI (fn.mem_instrs_of_instrAt hP) ht
      (definedTmp_of_phi hphi hdst hk)
    rw [hphi] at hop
    cases hop

/-- Every entry of the resolver is as it should be. -/
theorem entryOk
    {fn : IrFunction} (h : fn.IsSSA) {fresh : Nat}
    (hfirst : foldsFirst (foldedResolver fresh fn) ⟨[], fresh⟩ fn.instrs) :
  ∀ t x, (foldedResolver fresh fn).lookup t = some x → EntryOk fn (foldedResolver fresh fn) t x
  := by
  apply evalInstrs_entries (EntryOk fn (foldedResolver fresh fn)) (Resolver.Le.refl _) hfirst
  · intro t v hv
    cases hv
  intro I hI hop st' hle huse hst t v ht hv
  obtain hk | ⟨x, hx, rfl⟩ := hv
  · refine ⟨by simp [Resolver.has, hk], by simp [IrValue.isPlain, hk], fun htmp => ?_⟩
    rw [hk] at htmp
    cases htmp
  have hxplain := h.isPlain I hI hop x hx
  have hxuse : (foldedResolver fresh fn).has x = false ∨ st'.resolver.has x = true := by
    simp only [usesFolded, Bool.and_eq_true, List.all_eq_true, Bool.or_eq_true,
      Bool.not_eq_true'] at huse
    apply huse.1
    rw [List.mem_append] at hx
    simp only [IrInstr.rewritten, List.mem_append]
    tauto
  have hdom : x.kind = .tmp → fn.flow.Dominates x.key ⟨.tmp, t⟩ := by
    intro htmp
    apply FlowGraph.dominates_of_use
    · have hkey : x.key = ⟨.tmp, x.varId⟩ := by rw [IrValue.key, htmp]
      rw [hkey]
      apply h.dominated
    · intro p q _ hd
      apply h.use_of_defines hI hop ht hx _ hd
      rw [htmp]
      rfl
  cases hlook : st'.resolver.has x with
  | false =>
    have hv : resolveTmp st'.resolver x = x := by
      simp only [resolveTmp]
      split
      · rename_i htmp
        have hk : x.kind = .tmp := by simpa [irIsTmp] using htmp
        have hnone : st'.resolver.lookup x.varId = none := by
          simpa [Resolver.has, hk] using hlook
        rw [hnone]
        rfl
      · rfl
    rw [hv]
    refine ⟨?_, hxplain, hdom⟩
    obtain hu | hu := hxuse
    · apply hu
    · rw [hlook] at hu
      cases hu
  | true =>
    simp only [Resolver.has, Bool.and_eq_true, decide_eq_true_eq, Option.isSome_iff_exists]
      at hlook
    obtain ⟨htmp, w, hw⟩ := hlook
    have hv : resolveTmp st'.resolver x = w := by
      simp [resolveTmp, irIsTmp, htmp, hw]
    rw [hv]
    have hok := hst _ _ hw
    refine ⟨hok.notFolded, hok.isPlain, fun hwtmp => ?_⟩
    have hkey : x.key = ⟨.tmp, x.varId⟩ := by rw [IrValue.key, htmp]
    apply (hok.dominates hwtmp).trans
    rw [← hkey]
    apply hdom htmp

/-! ### What folds onto what -/

mutual

/-- What a function folds, told without the walk: an arithmetic definition whose operands,
read as they fold, evaluate to a number, are zero whatever the other operand is, or are an
identity in one of them. -/
inductive FoldsTo (fn : IrFunction) : Nat → IrValue → Prop where
  | const {t : Nat} {I : IrInstr} {a b : Option IrValue} {c : IrValue} (hI : I ∈ fn.instrs)
      (ht : I.definedTmp = some t) (ha : ReadsAs fn I.r1 a) (hb : ReadsAs fn I.r2 b)
      (hw : evalResult { I with r1 := a, r2 := b } = some c.as.toI64) (hc : c.kind = .constInt) :
      FoldsTo fn t c
  | zero {t : Nat} {I : IrInstr} {a b : Option IrValue} {c k x : IrValue} (hI : I ∈ fn.instrs)
      (ht : I.definedTmp = some t) (ha : ReadsAs fn I.r1 a) (hb : ReadsAs fn I.r2 b)
      (hk : constOperand { I with r1 := a, r2 := b } = some (k, x))
      (hop : I.op = .imul ∨ I.op = .and) (h0 : k.as.toI64 = 0) (hc : c.kind = .constInt)
      (hc0 : c.as.toI64 = 0) :
      FoldsTo fn t c
  | identity {t : Nat} {I : IrInstr} {a b : Option IrValue} {k x : IrValue} (hI : I ∈ fn.instrs)
      (ht : I.definedTmp = some t) (ha : ReadsAs fn I.r1 a) (hb : ReadsAs fn I.r2 b)
      (hk : constOperand { I with r1 := a, r2 := b } = some (k, x))
      (hf : irEvalCanFold { I with r1 := a, r2 := b } k k.as.toI64) :
      FoldsTo fn t x

/-- What an operand reads as: itself, or what the temporary that it is folds onto. -/
inductive ReadsAs (fn : IrFunction) : Option IrValue → Option IrValue → Prop where
  | same (o : Option IrValue) : ReadsAs fn o o
  | folded {v x : IrValue} (hv : v.kind = .tmp) (h : FoldsTo fn v.varId x) :
      ReadsAs fn (some v) (some x)

end

/-- A temporary folds. -/
def IrFunction.Folds (fn : IrFunction) (t : Nat) : Prop := ∃ x, FoldsTo fn t x

/-- An operand resolved through entries that fold reads as it folds. -/
theorem readsAs_resolve
    {fn : IrFunction} {ρ : Resolver} (h : ∀ t x, ρ.lookup t = some x → FoldsTo fn t x)
    (o : Option IrValue) :
  ReadsAs fn o (irResolveTmp ρ o)
  := by
  cases o with
  | none => apply ReadsAs.same
  | some v =>
    simp only [irResolveTmp, Option.map_some, resolveTmp]
    split
    · rename_i ht
      have htmp : v.kind = .tmp := by simpa [irIsTmp] using ht
      cases hx : ρ.lookup v.varId with
      | none => apply ReadsAs.same
      | some x => apply ReadsAs.folded htmp (h _ _ hx)
    · apply ReadsAs.same

/-- A round of the walk adds what folds. -/
theorem foldsTo_evalInstr
    {fn : IrFunction} {st : EvalState} {I : IrInstr} (hI : I ∈ fn.instrs)
    (hst : ∀ t x, st.resolver.lookup t = some x → FoldsTo fn t x) :
  ∀ t x, (evalInstr st I).2.2.resolver.lookup t = some x → FoldsTo fn t x
  := by
  intro t x hx
  have ha := readsAs_resolve hst I.r1
  have hb := readsAs_resolve hst I.r2
  have hadd : ∀ {d v}, (st.resolver.add d v).lookup t = some x →
      (I.definedTmp = some d → FoldsTo fn d v) → (I.definedTmp = some d) → FoldsTo fn t x := by
    intro d v hl hfold hdef
    rw [Resolver.lookup_add] at hl
    split at hl
    · rename_i e
      obtain rfl := Option.some_inj.mp hl
      rw [e.1]
      apply hfold hdef
    · apply hst t x hl
  have hdef : ∀ {d}, I.op.isArith → (resolveOperands st.resolver I).dst = some d →
      d.kind = .tmp → I.definedTmp = some d.varId := by
    intro d hop hd htmp
    rw [resolveOperands_dst hop] at hd
    apply definedTmp_of_isArith hop hd htmp
  have hcase := evalResolved_case st (resolveOperands st.resolver I)
  rw [evalInstr] at hx
  generalize evalResolved st (resolveOperands st.resolver I) = r at hcase hx
  cases hcase with
  | same => apply hst t x hx
  | store d w hd hl hw => apply hst t x hx
  | shift d c y hd htmp hc hop hr hk => apply hst t x hx
  | const d w hd htmp hw =>
    have hop := (computes_of_evalResult hw st.fresh d.type).1
    apply hadd hx _ (hdef hop hd htmp)
    intro ht
    apply FoldsTo.const hI ht ha hb _ (irConstInt_kind _ _ _)
    rw [irConstInt_toI64]
    apply hw
  | identity d c y hd htmp hc hf =>
    have hop := (computes_of_irEvalCanFold hc hf).1
    apply hadd hx _ (hdef hop hd htmp)
    intro ht
    apply FoldsTo.identity hI ht ha hb hc
    rw [← hf]
    have hdst : (resolveOperands st.resolver I).dst = I.dst := resolveOperands_dst hop
    unfold irEvalCanFold
    rw [hdst]
    rfl
  | zero d c y hd htmp hc hop hk =>
    have harith := (computes_zero hc hop hk st.fresh d.type).1
    apply hadd hx _ (hdef harith hd htmp)
    intro ht
    apply FoldsTo.zero hI ht ha hb hc hop hk (irConstInt_kind _ _ _) (irConstInt_toI64 _ _ _)

/-- The walk adds what folds. -/
theorem foldsTo_evalInstrs
    {fn : IrFunction} {st : EvalState} {l : List IrInstr} (hl : ∀ I ∈ l, I ∈ fn.instrs)
    (hst : ∀ t x, st.resolver.lookup t = some x → FoldsTo fn t x) :
  ∀ t x, (evalInstrs st l).2.2.resolver.lookup t = some x → FoldsTo fn t x
  := by
  induction l generalizing st with
  | nil => apply hst
  | cons I l ih =>
    apply ih
    · intro J hJ
      apply hl J (List.mem_cons_of_mem I hJ)
    · apply foldsTo_evalInstr (hl I List.mem_cons_self) hst

/-- What the pass folds, folds. -/
theorem foldsTo_foldedResolver (fresh : Nat) (fn : IrFunction) :
  ∀ t x, (foldedResolver fresh fn).lookup t = some x → FoldsTo fn t x
  := by
  apply foldsTo_evalInstrs
  · intro I hI
    apply hI
  · intro t x hx
    cases hx

/-! ### The condition for safety -/

/-- The condition under which folding is safe.  In the order of the blocks, every use of a
temporary that folds comes after its definition, and it is not used where operands are not
rewritten.  A local or parameter that a temporary folds onto is not assigned at a reachable
point where the temporary is live. -/
structure IrFunction.FoldsSafely (fn : IrFunction) : Prop where
  first : ∀ i I, fn.instrs[i]? = some I → ∀ v ∈ I.rewritten, v.kind = .tmp →
    fn.Folds v.varId → v.varId ∈ tmpDefs (fn.instrs.take i)
  kept : ∀ I ∈ fn.instrs, ∀ v ∈ I.kept, v.kind = .tmp → ¬ fn.Folds v.varId
  stable : ∀ t x, FoldsTo fn t x → (x.kind = .local ∨ x.kind = .param) → ∀ p q,
    fn.flow.Reachable p → fn.flow.step p q → fn.flow.defines p q x.key →
      ¬ fn.flow.Live ⟨.tmp, t⟩ q

/-- A temporary that the pass folds, folds. -/
theorem folds_of_has
    {fresh : Nat} {fn : IrFunction} {v : IrValue} (h : (foldedResolver fresh fn).has v) :
  v.kind = .tmp ∧ fn.Folds v.varId
  := by
  simp only [Resolver.has, Bool.and_eq_true, decide_eq_true_eq, Option.isSome_iff_exists] at h
  obtain ⟨hk, x, hx⟩ := h
  exact ⟨hk, x, foldsTo_foldedResolver fresh fn _ _ hx⟩

/-- Along the walk the uses of folded temporaries come after their definitions. -/
theorem IrFunction.FoldsSafely.foldsFirst
    {fn : IrFunction} (hs : fn.FoldsSafely) (h : fn.IsSSA) (fresh : Nat) :
  foldsFirst (foldedResolver fresh fn) ⟨[], fresh⟩ fn.instrs
  := by
  have hwalk : ∀ pre l, fn.instrs = pre ++ l →
      Polyc.foldsFirst (foldedResolver fresh fn) (evalInstrs ⟨[], fresh⟩ pre).2.2 l := by
    intro pre l
    induction l generalizing pre with
    | nil =>
      intro _
      rfl
    | cons I l ih =>
      intro hl
      have hnext := ih (pre ++ [I]) (by rw [hl, List.append_assoc, List.singleton_append])
      rw [evalInstrs_append] at hnext
      have hat : fn.instrs[pre.length]? = some I := by simp [hl]
      simp only [Polyc.foldsFirst, usesFolded, Bool.and_eq_true, List.all_eq_true,
        Bool.or_eq_true, Bool.not_eq_true']
      refine ⟨⟨fun v hv => ?_, fun v hv => ?_⟩, hnext⟩
      · cases hhas : (foldedResolver fresh fn).has v with
        | false => exact .inl rfl
        | true =>
          right
          obtain ⟨hk, hfold⟩ := folds_of_has hhas
          have hmem := hs.first _ _ hat v hv hk hfold
          rw [hl, List.take_left] at hmem
          simp only [Resolver.has, hk, decide_true, Bool.true_and,
            Option.isSome_iff_ne_none] at hhas ⊢
          rw [foldedResolver, hl, evalInstrs_append] at hhas
          obtain hlook | hlate := evalInstrs_dom hhas
          · apply hlook
          · have honce := h.once
            rw [hl, tmpDefs_append, List.nodup_append] at honce
            apply absurd rfl (honce.2.2 _ hmem _ hlate)
      · rw [Bool.eq_false_iff]
        intro hhas
        obtain ⟨hk, hfold⟩ := folds_of_has hhas
        apply hs.kept I (List.mem_of_getElem? hat) v hv hk hfold
  apply hwalk [] fn.instrs rfl

/-- What a temporary was folded onto is not assigned where the temporary is live. -/
theorem IrFunction.FoldsSafely.not_live
    {fresh : Nat} {fn : IrFunction} (hs : fn.FoldsSafely) (h : fn.IsSSA) {t : Nat}
    {x : IrValue} (hx : (foldedResolver fresh fn).lookup t = some x) (hvar : x.kind.isVar)
    {p q : Point} (hp : fn.flow.Reachable p) (hstep : fn.flow.step p q)
    (hd : fn.flow.defines p q x.key) :
  ¬ fn.flow.Live ⟨.tmp, t⟩ q
  := by
  have hok := entryOk h (hs.foldsFirst h fresh) t x hx
  have hfold := foldsTo_foldedResolver fresh fn t x hx
  cases hk : x.kind with
  | tmp =>
    apply (hok.dominates hk).not_live (h.dominated t) _ hp hstep hd
    intro p q p' q' h1 h2 h3 h4
    have hkey : x.key = ⟨.tmp, x.varId⟩ := by rw [IrValue.key, hk]
    rw [hkey] at h2 h4
    apply h.defines_unique h1 h2 h3 h4
  | «local» => apply hs.stable t x hfold (.inl hk) p q hp hstep hd
  | param => apply hs.stable t x hfold (.inr hk) p q hp hstep hd
  | _ =>
    rw [hk] at hvar
    cases hvar

end Polyc
