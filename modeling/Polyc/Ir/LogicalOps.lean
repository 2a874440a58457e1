import Polyc.Ir.EvalAdds
import Polyc.Ir.LowerExprCorrect

/-!
# The truth of logical operators

The source gives `&&`, `||` and range comparisons the truth values of their operands.  The
lowering keeps the value of a right operand in a phi of one byte, without a comparison to
zero.  A test comes out as the source says exactly when no right operand that is evaluated
has a word other than 0 whose lowest byte is 0.
-/

namespace Polyc

open IrCtx AstState

/-! ### Conditions of the source -/

/-- The truth value of a condition and the state after it, or the state at a trap. -/
abbrev Condition := AstState → Except AstState (Bool × AstState)

/-- An expression as a condition. -/
def condition (e : Eval) : Condition := fun a => do
  let (w, a) ← e a
  return (decide (w ≠ 0), a)

/-- A logical operator: the right operand is evaluated when the left one does not decide. -/
def truthShortCircuit (isOr : Bool) (left right : Condition) : Condition := fun a => do
  let (b, a) ← left a
  let a := a.branch b
  if isOr = b then return (isOr, a)
  right a

section
variable (m : Machine) (vs : Variables) (esc : Nat → Bool)

mutual

/-- The truth value of an expression, under casts and unary plus too. -/
def truth : Ast → Condition
  | .cast _ operand => truth operand
  | .unop .plus operand => truth operand
  | .binop op issigned left right =>
    truthBinOp op issigned left (truth left) (evalAst m vs esc left) (evalAst m vs esc right)
  | .logAnd left right => truthShortCircuit false (truth left) (truth right)
  | .logOr left right => truthShortCircuit true (truth left) (truth right)
  | e => condition (evalAst m vs esc e)

/-- The truth value of `a OP1 b OP2 c` is that of `a OP1 b` and `b OP2 c`. -/
def truthBinOp (op : AstBinOp) (issigned : Bool) (left : Ast) (truthLeft : Condition)
    (evalLeft evalRight : Eval) : Condition :=
  match left with
  | .binop op₁ s₁ a b =>
    if astIsRangeOperator op ∧ astIsRangeOperator op₁ then
      truthShortCircuit false truthLeft
        (truthBinOp op true b (truth b) (evalAst m vs esc b) evalRight)
    else
      condition (evalBinOp m vs esc op issigned (.binop op₁ s₁ a b) evalLeft evalRight)
  | left => condition (evalBinOp m vs esc op issigned left evalLeft evalRight)

end

/-- The word of an evaluation is 0 if its lowest byte is. -/
def lowByteDecides : Except AstState (Word × AstState) → Bool
  | .ok (w, _) => w = 0 ∨ lowByte w ≠ 0
  | .error _ => true

/-- What holds of a logical operator: of its left operand, and of its right one if that is
evaluated. -/
def checkShortCircuit (isOr : Bool) (truthLeft : Condition)
    (checkLeft checkRight : AstState → Bool) : AstState → Bool :=
  checkThen checkLeft truthLeft fun b a => isOr = b || checkRight (a.branch b)

mutual

/-- No right operand of a logical operator that the condition evaluates has a word other
than 0 whose lowest byte is 0. -/
def lowBytesDecide : Ast → AstState → Bool
  | .cast _ operand, a => lowBytesDecide operand a
  | .unop .plus operand, a => lowBytesDecide operand a
  | .binop op _ left _, a =>
    lowBytesDecideRange op left (truth m vs esc left) (lowBytesDecide left) a
  | .logAnd left right, a =>
    checkShortCircuit false (truth m vs esc left) (lowBytesDecide left)
      (fun a => lowBytesDecide right a
        && (right.isPhi || lowByteDecides (evalAst m vs esc right a))) a
  | .logOr left right, a =>
    checkShortCircuit true (truth m vs esc left) (lowBytesDecide left)
      (fun a => lowBytesDecide right a
        && (right.isPhi || lowByteDecides (evalAst m vs esc right a))) a
  | _, _ => true

/-- The same of `left OP c`, where the operands of a range comparison may be conditions
themselves. -/
def lowBytesDecideRange (op : AstBinOp) (left : Ast) (truthLeft : Condition)
    (checkLeft : AstState → Bool) (a : AstState) : Bool :=
  match left with
  | .binop op₁ _ _ b =>
    if astIsRangeOperator op ∧ astIsRangeOperator op₁ then
      checkShortCircuit false truthLeft checkLeft
        (lowBytesDecideRange op b (truth m vs esc b) (lowBytesDecide b)) a
    else true
  | _ => true

end

end

/-! ### Outcomes of conditions -/

/-- The outcomes of two conditions differ: in the truth value after the same events, or in
the direction of a branch. -/
inductive Differs (x y : Except AstState (Bool × AstState)) : Prop where
  | truth (b : Bool) (a : AstState) (hx : x = .ok (b, a)) (hy : y = .ok (!b, a))
  | branch (tr : List Event) (b : Bool)
    (hx : tr ++ [.branch (some (Word.ofBool b))] <+: (stateOf x).trace)
    (hy : tr ++ [.branch (some (Word.ofBool !b))] <+: (stateOf y).trace)

/-- The events of the two directions of a branch are not those of one run. -/
theorem branch_prefix_ne
    {tr l : List Event} {b : Bool} (h : tr ++ [.branch (some (Word.ofBool b))] <+: l) :
  ¬ tr ++ [.branch (some (Word.ofBool !b))] <+: l
  := by
  intro h'
  have heq := (List.prefix_of_prefix_length_le h h' (by simp)).eq_of_length (by simp)
  have hlast := List.append_cancel_left heq
  cases b <;> simp [Word.ofBool] at hlast

/-- Outcomes that differ are not equal. -/
theorem Differs.ne {x y : Except AstState (Bool × AstState)} (h : Differs x y) :
  x ≠ y
  := by
  rintro rfl
  cases h with
  | truth b a hx hy =>
    rw [hx] at hy
    cases b <;> cases hy
  | branch tr b hx hy => apply branch_prefix_ne hx hy

/-- A condition and its expression end in the same state. -/
theorem stateOf_condition (e : Eval) (a : AstState) :
  stateOf (condition e a) = stateOf (e a)
  := by
  rw [condition]
  cases e a <;> rfl

/-- The value of an expression in one byte. -/
def byteOf (e : Eval) : Eval := fun a => do
  let (w, a) ← e a
  return (lowByte w, a)

/-- The byte of a value is taken in the state after it. -/
theorem stateOf_byteOf (e : Eval) (a : AstState) :
  stateOf (byteOf e a) = stateOf (e a)
  := by
  rw [byteOf]
  cases e a <;> rfl

/-- The test of a short circuit. -/
theorem condition_evalShortCircuit (isOr : Bool) (left right : Eval) :
  condition (evalShortCircuit isOr left right)
    = truthShortCircuit isOr (condition left) (condition (byteOf right))
  := by
  funext a
  simp only [condition, evalShortCircuit, truthShortCircuit, byteOf]
  cases left a with
  | error b => rfl
  | ok x =>
    obtain ⟨w, b⟩ := x
    change Except.bind (if isOr = decide (w ≠ 0) then _ else _) _
      = if isOr = decide (w ≠ 0) then _ else _
    split
    · cases isOr <;> rfl
    · cases right (b.branch (decide (w ≠ 0))) <;> rfl

/-! ### Conditions that are tested -/

/-- The lowered expression tests a condition of the source exactly where the check holds. -/
structure Tests (check : AstState → Bool) (eval : Eval) (cond : Condition) : Prop where
  agrees : ∀ a, check a = true → condition eval a = cond a
  differs : ∀ a, check a = false → Differs (condition eval a) (cond a)
  adds : ∀ a, AddsTo a (stateOf (eval a))
  adds_cond : ∀ a, AddsTo a (stateOf (cond a))

/-- The events of a logical operator after those of its left operand. -/
theorem addsTo_truthShortCircuit
    {isOr b : Bool} {left right : Condition} {a c : AstState}
    (hr : ∀ a, AddsTo a (stateOf (right a))) (hl : left a = .ok (b, c)) :
  AddsTo (c.branch b) (stateOf (truthShortCircuit isOr left right a))
  := by
  rw [truthShortCircuit, hl]
  change AddsTo (c.branch b) (stateOf (if isOr = b then _ else _))
  split
  · apply AddsTo.refl
  · apply hr

/-- The events of the left operand are events of the operator. -/
theorem left_addsTo_truthShortCircuit
    {isOr : Bool} {left right : Condition} {a : AstState}
    (hr : ∀ a, AddsTo a (stateOf (right a))) :
  AddsTo (stateOf (left a)) (stateOf (truthShortCircuit isOr left right a))
  := by
  cases hl : left a with
  | error c =>
    rw [truthShortCircuit, hl]
    apply AddsTo.refl
  | ok x =>
    apply (AddsTo.branch x.2 x.1).trans
    apply addsTo_truthShortCircuit hr hl

/-- An expression that is no logical operator. -/
theorem tests_condition {eval : Eval} (h : ∀ a, AddsTo a (stateOf (eval a))) :
  Tests (fun _ => true) eval (condition eval)
  := by
  constructor
  case agrees =>
    intro a _
    rfl
  case differs =>
    intro a ha
    cases ha
  case adds => apply h
  case adds_cond =>
    intro a
    rw [stateOf_condition]
    apply h

/-- A logical operator whose right operand is tested in one byte. -/
theorem Tests.shortCircuit
    {checkLeft checkRight : AstState → Bool} {evalLeft evalRight : Eval}
    {truthLeft truthRight : Condition} (hl : Tests checkLeft evalLeft truthLeft)
    (hr : Tests checkRight (byteOf evalRight) truthRight) (isOr : Bool) :
  Tests (checkShortCircuit isOr truthLeft checkLeft checkRight)
    (evalShortCircuit isOr evalLeft evalRight) (truthShortCircuit isOr truthLeft truthRight)
  := by
  have hadds : ∀ a, AddsTo a (stateOf (condition (byteOf evalRight) a)) := by
    intro a
    rw [stateOf_condition]
    apply hr.adds
  constructor
  case agrees =>
    intro a ha
    obtain ⟨hleft, hright⟩ := Bool.and_eq_true_iff.mp ha
    rw [condition_evalShortCircuit, truthShortCircuit, truthShortCircuit, hl.agrees a hleft]
    cases hc : truthLeft a with
    | error c => rfl
    | ok x =>
      obtain ⟨b, c⟩ := x
      rw [hc] at hright
      change (if isOr = b then _ else _) = if isOr = b then _ else _
      split
      · rfl
      case isFalse h => apply hr.agrees _ (by simpa [h] using hright)
  case differs =>
    intro a ha
    rw [condition_evalShortCircuit]
    cases hleft : checkLeft a with
    | false =>
      cases hl.differs a hleft with
      | truth b c hx hy =>
        apply Differs.branch c.trace b
        · apply (addsTo_truthShortCircuit hadds hx).trace
        · apply (addsTo_truthShortCircuit hr.adds_cond hy).trace
      | branch tr b hx hy =>
        apply Differs.branch tr b
        · apply hx.trans (left_addsTo_truthShortCircuit hadds).trace
        · apply hy.trans (left_addsTo_truthShortCircuit hr.adds_cond).trace
    | true =>
      rw [checkShortCircuit, checkThen, hleft, Bool.true_and] at ha
      rw [truthShortCircuit, truthShortCircuit, hl.agrees a hleft]
      cases hc : truthLeft a with
      | error c =>
        rw [hc] at ha
        cases ha
      | ok x =>
        obtain ⟨b, c⟩ := x
        rw [hc] at ha
        obtain ⟨hne, hright⟩ := Bool.or_eq_false_iff.mp ha
        have hne : isOr ≠ b := by simpa using hne
        change Differs (if isOr = b then _ else _) (if isOr = b then _ else _)
        rw [if_neg hne, if_neg hne]
        apply hr.differs _ hright
  case adds =>
    apply adds_evalShortCircuit hl.adds
    intro a
    rw [← stateOf_byteOf]
    apply hr.adds
  case adds_cond =>
    intro a
    apply (hl.adds_cond a).trans
    apply left_addsTo_truthShortCircuit hr.adds_cond

/-! ### Bytes -/

/-- A byte is its own lowest byte. -/
theorem lowByte_lowByte (w : Word) :
  lowByte (lowByte w) = lowByte w
  := by
  rw [lowByte, lowByte]
  bv_omega

/-- A short circuit yields a byte. -/
theorem byteOf_evalShortCircuit (isOr : Bool) (left right : Eval) :
  byteOf (evalShortCircuit isOr left right) = evalShortCircuit isOr left right
  := by
  funext a
  simp only [byteOf, evalShortCircuit]
  cases left a with
  | error b => rfl
  | ok x =>
    obtain ⟨w, b⟩ := x
    change Except.bind (if isOr = decide (w ≠ 0) then _ else _) _
      = if isOr = decide (w ≠ 0) then _ else _
    split
    · cases isOr <;> rfl
    · cases right (b.branch (decide (w ≠ 0))) with
      | error c => rfl
      | ok x => exact congrArg (fun v => Except.ok (v, x.2)) (lowByte_lowByte x.1)

/-- A comparison yields a truth value. -/
theorem exec₂_of_isRangeOperator
    (m : Machine) {op : AstBinOp} (h : astIsRangeOperator op) (issigned : Bool) (v w : Word)
    (a : AstState) :
  ∃ b c, exec₂ m (op.toIr issigned).1 (op.toIr issigned).2 v w a = .ok (Word.ofBool b, c)
  := by
  cases op <;> cases h <;> cases issigned <;> exact ⟨_, _, rfl⟩

/-- So the lowest byte of a comparison is the comparison. -/
theorem byteOf_evalOperands
    {m : Machine} {op : AstBinOp} (h : astIsRangeOperator op) (issigned : Bool) (sh : Shape)
    (left right : Eval) :
  byteOf (evalOperands m op issigned sh left right) = evalOperands m op issigned sh left right
  := by
  funext a
  simp only [byteOf, evalOperands]
  cases left a with
  | error b => rfl
  | ok x =>
    change Except.bind (Except.bind (right x.2) _) _ = Except.bind (right x.2) _
    cases right x.2 with
    | error c => rfl
    | ok y =>
      change Except.bind (exec₂ m _ _ (sh.read x.1 y.2) y.1 y.2) _
        = exec₂ m _ _ (sh.read x.1 y.2) y.1 y.2
      obtain ⟨b, c, hexec⟩ := exec₂_of_isRangeOperator m h issigned (sh.read x.1 y.2) y.1 y.2
      rw [hexec]
      exact congrArg (fun v => Except.ok (v, c)) (lowByte_ofBool b)

section
variable {m : Machine} {vs : Variables} {esc : Nat → Bool}

/-- A comparison is a byte, a comparison of a comparison too. -/
theorem byteOf_evalBinOp
    {op : AstBinOp} (h : astIsRangeOperator op) (issigned : Bool) (left : Ast)
    (evalLeft evalRight : Eval) :
  byteOf (evalBinOp m vs esc op issigned left evalLeft evalRight)
    = evalBinOp m vs esc op issigned left evalLeft evalRight
  := by
  cases left
  case binop op₁ s₁ l b =>
    rw [evalBinOp]
    split
    · apply byteOf_evalShortCircuit
    · apply byteOf_evalOperands h
  all_goals apply byteOf_evalOperands h

/-- Unary plus does nothing. -/
theorem evalAst_plus (operand : Ast) :
  evalAst m vs esc (.unop .plus operand) = evalAst m vs esc operand
  := by
  funext a
  rw [evalAst, evalUnOp]
  cases evalAst m vs esc operand a <;> rfl

/-- An expression that is a phi has the value of a byte. -/
theorem byteOf_evalAst : ∀ {e : Ast}, e.isPhi →
  byteOf (evalAst m vs esc e) = evalAst m vs esc e
  | .cast _ operand, h => byteOf_evalAst (e := operand) h
  | .unop .plus operand, h => by
    rw [evalAst_plus]
    apply byteOf_evalAst (e := operand) h
  | .binop op issigned (.binop op₁ s₁ l b) right, h => by
    apply byteOf_evalBinOp
    apply (Bool.and_eq_true_iff.mp h).1
  | .logAnd _ _, _ => byteOf_evalShortCircuit _ _ _
  | .logOr _ _, _ => byteOf_evalShortCircuit _ _ _

/-- A binary operator that is no comparison of a comparison. -/
theorem truthBinOp_of_not_range
    {op : AstBinOp} {left : Ast} (h : isRange op left = false) (issigned : Bool)
    (truthLeft : Condition) (evalLeft evalRight : Eval) :
  truthBinOp m vs esc op issigned left truthLeft evalLeft evalRight
    = condition (evalBinOp m vs esc op issigned left evalLeft evalRight)
  := by
  cases left
  case binop op₁ s₁ l b =>
    rw [truthBinOp, if_neg (by simpa [isRange] using h)]
  all_goals rfl

/-- Nothing is asked of its operands. -/
theorem lowBytesDecideRange_of_not_range
    {op : AstBinOp} {left : Ast} (h : isRange op left = false) (truthLeft : Condition)
    (checkLeft : AstState → Bool) :
  lowBytesDecideRange m vs esc op left truthLeft checkLeft = fun _ => true
  := by
  funext a
  cases left
  case binop op₁ s₁ l b =>
    rw [lowBytesDecideRange, if_neg (by simpa [isRange] using h)]
  all_goals rfl

/-- An expression that is no phi is a condition by its own value. -/
theorem truth_of_not_isPhi : ∀ {e : Ast}, e.isPhi = false →
  truth m vs esc e = condition (evalAst m vs esc e)
  | .cast _ operand, h => truth_of_not_isPhi (e := operand) h
  | .unop .plus operand, h => by
    rw [evalAst_plus]
    apply truth_of_not_isPhi (e := operand) h
  | .binop _ issigned _ _, h => truthBinOp_of_not_range h issigned _ _ _
  | .unop .minus _, _ | .unop .bitNot _, _ | .unop .logNot _, _ | .literal _, _ => rfl
  | .lvar _, _ | .funcall _ _ _, _ | .incDec _ _, _ => rfl
  | .assign _ _, _ | .compoundAssign _ _ _, _ => rfl

/-- Nothing is asked of an expression that is no phi. -/
theorem lowBytesDecide_of_not_isPhi : ∀ {e : Ast}, e.isPhi = false →
  lowBytesDecide m vs esc e = fun _ => true
  | .cast _ operand, h => lowBytesDecide_of_not_isPhi (e := operand) h
  | .unop .plus operand, h => lowBytesDecide_of_not_isPhi (e := operand) h
  | .binop _ _ _ _, h => lowBytesDecideRange_of_not_range h _ _
  | .unop .minus _, _ | .unop .bitNot _, _ | .unop .logNot _, _ | .literal _, _ => rfl
  | .lvar _, _ | .funcall _ _ _, _ | .incDec _ _, _ => rfl
  | .assign _ _, _ | .compoundAssign _ _ _, _ => rfl

/-- An operand that is no logical operator, in one byte. -/
theorem tests_byteOf {eval : Eval} (h : ∀ a, AddsTo a (stateOf (eval a))) :
  Tests (fun a => lowByteDecides (eval a)) (byteOf eval) (condition eval)
  := by
  constructor
  case agrees =>
    intro a ha
    rw [condition, condition, byteOf]
    cases hx : eval a with
    | error c => rfl
    | ok x =>
      rw [hx] at ha
      have hiff : lowByte x.1 ≠ 0 ↔ x.1 ≠ 0 := by
        constructor
        · intro hlow hzero
          apply hlow
          rw [hzero]
          rfl
        · apply (of_decide_eq_true ha).resolve_left
      exact congrArg (fun b => Except.ok (b, x.2)) (decide_eq_decide.mpr hiff)
  case differs =>
    intro a ha
    rw [condition, condition, byteOf]
    cases hx : eval a with
    | error c =>
      rw [hx] at ha
      cases ha
    | ok x =>
      rw [hx] at ha
      obtain ⟨hne, hlow⟩ := not_or.mp (of_decide_eq_false ha)
      apply Differs.truth false x.2
      · exact congrArg (fun b => Except.ok (b, x.2)) (decide_eq_false hlow)
      · exact congrArg (fun b => Except.ok (b, x.2)) (decide_eq_true hne)
  case adds =>
    intro a
    rw [stateOf_byteOf]
    apply h
  case adds_cond =>
    intro a
    rw [stateOf_condition]
    apply h

/-- The right operand of `&&` and `||`, in one byte. -/
theorem Tests.right
    {e : Ast} (h : Tests (lowBytesDecide m vs esc e) (evalAst m vs esc e) (truth m vs esc e)) :
  Tests
    (fun a => lowBytesDecide m vs esc e a
      && (e.isPhi || lowByteDecides (evalAst m vs esc e a)))
    (byteOf (evalAst m vs esc e)) (truth m vs esc e)
  := by
  cases hphi : e.isPhi with
  | true =>
    simp only [Bool.true_or, Bool.and_true, byteOf_evalAst hphi]
    apply h
  | false =>
    simp only [Bool.false_or, lowBytesDecide_of_not_isPhi hphi, Bool.true_and,
      truth_of_not_isPhi hphi]
    apply tests_byteOf (adds_evalAst m vs esc e)

mutual

/-- The lowering of an expression tests its truth where the lowest bytes decide. -/
theorem tests_evalAst : ∀ e : Ast,
  Tests (lowBytesDecide m vs esc e) (evalAst m vs esc e) (truth m vs esc e)
  | .cast _ operand => tests_evalAst operand
  | .unop .plus operand => by
    rw [evalAst_plus]
    apply tests_evalAst operand
  | .binop op issigned left right =>
    tests_evalBinOp left op issigned (tests_evalAst left) (adds_evalAst m vs esc right)
  | .logAnd left right => (tests_evalAst left).shortCircuit (tests_evalAst right).right false
  | .logOr left right => (tests_evalAst left).shortCircuit (tests_evalAst right).right true
  | .unop .minus operand => tests_condition (adds_evalAst m vs esc (.unop .minus operand))
  | .unop .bitNot operand => tests_condition (adds_evalAst m vs esc (.unop .bitNot operand))
  | .unop .logNot operand => tests_condition (adds_evalAst m vs esc (.unop .logNot operand))
  | .literal i64 => tests_condition (adds_evalAst m vs esc (.literal i64))
  | .lvar var => tests_condition (adds_evalAst m vs esc (.lvar var))
  | .funcall fname s args => tests_condition (adds_evalAst m vs esc (.funcall fname s args))
  | .incDec op operand => tests_condition (adds_evalAst m vs esc (.incDec op operand))
  | .assign left right => tests_condition (adds_evalAst m vs esc (.assign left right))
  | .compoundAssign op left right =>
    tests_condition (adds_evalAst m vs esc (.compoundAssign op left right))

/-- So does the lowering of a comparison whose left operand is tested. -/
theorem tests_evalBinOp : ∀ (left : Ast) (op : AstBinOp) (issigned : Bool)
    {checkLeft : AstState → Bool} {evalLeft evalRight : Eval} {truthLeft : Condition},
    Tests checkLeft evalLeft truthLeft → (∀ a, AddsTo a (stateOf (evalRight a))) →
  Tests (lowBytesDecideRange m vs esc op left truthLeft checkLeft)
    (evalBinOp m vs esc op issigned left evalLeft evalRight)
    (truthBinOp m vs esc op issigned left truthLeft evalLeft evalRight)
  | left, op, issigned, _, _, _, _, hl, hr => by
    cases hrange : isRange op left with
    | false =>
      rw [lowBytesDecideRange_of_not_range hrange, truthBinOp_of_not_range hrange]
      apply tests_condition
      apply adds_evalBinOp m vs esc left op issigned hl.adds hr
    | true =>
      match left, hrange with
      | .binop op₁ s₁ l b, hrange =>
        have h : astIsRangeOperator op ∧ astIsRangeOperator op₁ := by
          simpa [isRange] using hrange
        have hb := tests_evalBinOp b op true (tests_evalAst b) hr
        rw [← byteOf_evalBinOp h.1] at hb
        have hcheck : ∀ check cond, lowBytesDecideRange m vs esc op (.binop op₁ s₁ l b) cond check
            = checkShortCircuit false cond check
              (lowBytesDecideRange m vs esc op b (truth m vs esc b) (lowBytesDecide m vs esc b)) := by
          intro check cond
          funext a
          rw [lowBytesDecideRange, if_pos h]
        rw [hcheck, truthBinOp, evalBinOp, if_pos h, if_pos h]
        apply hl.shortCircuit hb

end

end

/-! ### The branch on a condition -/

/-- The lowering of a statement that branches on an expression and returns on both sides. -/
def irLowerTest (e : Ast) (ctx : IrCtx) : IrCtx :=
  let (cond, ctx) := irExpr e ctx
  let (thenBlock, ctx) := ctx.irBlockNew
  let (elseBlock, ctx) := ctx.irBlockNew
  let ctx := ctx.irBranch cond thenBlock elseBlock
  let ctx := (ctx.irFnAddBlock thenBlock).irBlockAddInstr { op := .ret }
  (ctx.irFnAddBlock elseBlock).irBlockAddInstr { op := .ret }

/-- The run from the place `p` takes the branch that a condition says and returns there, or
is stuck at the trap of the condition. -/
def BranchesAs (m : Machine) (F : IrFunction) (vs : Variables) (p : Point) (s : SizedStore) :
    Except AstState (Bool × AstState) → Prop :=
  EndsAs (fun b => [.branch (some (Word.ofBool b)), .ret none]) m F vs p s

/-- A run takes one branch only. -/
theorem BranchesAs.unique
    {m : Machine} {F : IrFunction} {vs : Variables} {p : Point} {s : SizedStore}
    {x y : Except AstState (Bool × AstState)} (hx : BranchesAs m F vs p s x)
    (hy : BranchesAs m F vs p s y) :
  x = y
  := by
  apply EndsAs.unique _ _ hx hy
  · intro b b'
    rfl
  · intro b b' h
    cases b <;> cases b' <;> first | rfl | cases h

section
variable {m : Machine} {vs : Variables} {esc : Nat → Bool} {c : IrCtx}

/-- The context after the branch of a test. -/
def testBranch (e : Ast) (c : IrCtx) : IrCtx :=
  (scLeft (irExpr e c).2).irBranch (irExpr e c).1 (irExpr e c).2.blockId
    ((irExpr e c).2.blockId + 1)

/-- The context after the block of its first return. -/
def testThen (e : Ast) (c : IrCtx) : IrCtx :=
  ((testBranch e c).irFnAddBlock (irExpr e c).2.blockId).irBlockAddInstr { op := .ret }

/-- The contexts of a test, up to the two blocks that return. -/
theorem grows_irLowerTest (hc : c.For vs esc) (e : Ast) :
  Grows c.blockId c (irExpr e c).2
    ∧ Grows 0 (scLeft (irExpr e c).2) (testBranch e c)
    ∧ Grows 0 (testBranch e c) (testThen e c)
    ∧ Grows 0 (testThen e c) (irLowerTest e c)
    ∧ Reserved (testBranch e c) (irExpr e c).2.blockId
    ∧ Reserved (testThen e c) ((irExpr e c).2.blockId + 1)
  := by
  have h₁ := (@lowers_irExpr zeroMachine vs esc e).grows c hc
  obtain ⟨h₂, hthen, helse⟩ := grows_scLeft h₁.ok
  have h₃ : Grows ((irExpr e c).2.blockId + 2) (scLeft (irExpr e c).2) (testBranch e c) :=
    grows_irBranch h₂.ok _ _ _
  have hthen := hthen.grows h₃ (by omega)
  have helse := helse.grows h₃ (by omega)
  have h₄ : Grows 0 (testBranch e c) ((testBranch e c).irFnAddBlock (irExpr e c).2.blockId) :=
    grows_irFnAddBlock h₃.ok (Nat.zero_le _) hthen.lt hthen.notMem
  have h₅ : Grows ((irExpr e c).2.blockId + 2) _ (testThen e c) :=
    grows_irBlockAddInstr h₄.ok (by simp)
  have helse := (helse.irFnAddBlock (by omega)).grows h₅ (by omega)
  have h₆ : Grows 0 (testThen e c)
      ((testThen e c).irFnAddBlock ((irExpr e c).2.blockId + 1)) :=
    grows_irFnAddBlock h₅.ok (Nat.zero_le _) helse.lt helse.notMem
  constructor
  · apply h₁
  constructor
  · apply h₃.weaken (Nat.zero_le _)
  constructor
  · apply h₄.trans (h₅.weaken (Nat.zero_le _))
  constructor
  · apply h₆.trans (grows_irBlockAddInstr h₆.ok (by simp))
  constructor
  · apply hthen
  · apply helse

/-- An empty block to which a return is added returns. -/
theorem reaches_ret_of_reserved
    {F : IrFunction} {c : IrCtx} {id : Nat} (h : Reserved c id) (hc : c.Ok)
    (hF : Completes F ((c.irFnAddBlock id).irBlockAddInstr { op := .ret })) :
  (∀ p I, F.edgeCopies p (id, 0) I = [])
    ∧ ∀ s, Reaches m F (.at (id, 0) s) (.returned { s with trace := s.trace ++ [.ret none] })
  := by
  have hadd : Grows 0 c (c.irFnAddBlock id) :=
    grows_irFnAddBlock hc (Nat.zero_le _) h.lt h.notMem
  have hadd' : Grows 0 (c.irFnAddBlock id) ((c.irFnAddBlock id).irBlockAddInstr { op := .ret }) :=
    grows_irBlockAddInstr hadd.ok (by simp)
  constructor
  · intro p I
    obtain ⟨l, hl, hfind⟩ := (hadd'.completes F hF).findBlock_of_nil hadd.ok.cur_mem h.code
    apply edgeCopies_of_noPhi hfind hl
  · intro s
    have hp := hF.instrAt hadd.ok
    have hpoint : (c.irFnAddBlock id).point = (id, 0) :=
      congrArg (fun l => (id, List.length l)) h.code
    rw [hpoint] at hp
    apply reaches_ret hp

/-- A test branches on its condition. -/
theorem branchesAs_condition
    (hc : c.For vs esc) (entry : Nat) (e : Ast) (s : SizedStore) :
  BranchesAs m ((irLowerTest e c).function entry) vs c.point s
    (condition (evalAst m vs esc e) (s.view vs))
  := by
  have hl := @lowers_irExpr m vs esc e
  obtain ⟨h₁, h₃, h₅, h₇, hthen, helse⟩ := grows_irLowerTest hc e
  obtain ⟨h₂, -, -⟩ := grows_scLeft h₁.ok
  have hF₇ := completes_function (irLowerTest e c) entry
  have hF₅ := h₇.completes _ hF₇
  have hF₃ := h₅.completes _ hF₅
  have hF₁ := h₂.completes _ (h₃.completes _ hF₃)
  obtain ⟨hthenCopies, hthenRet⟩ := reaches_ret_of_reserved (m := m) hthen h₃.ok hF₅
  obtain ⟨helseCopies, helseRet⟩ := reaches_ret_of_reserved (m := m) helse h₅.ok hF₇
  have hrun := hl.runs c hc _ s hF₁
  rw [condition]
  cases hout : evalAst m vs esc e (s.view vs) with
  | error a =>
    rw [hout] at hrun
    apply hrun
  | ok x =>
    obtain ⟨w, a⟩ := x
    rw [hout] at hrun
    obtain ⟨s₁, hreach₁, hview, -, hw⟩ := hrun
    obtain ⟨σ, p, I, hp, hI, hσ, hreach₂⟩ :=
      reaches_irBranch (m := m) h₂.ok hF₃ (s := s₁) (b := decide (w ≠ 0)) (by rw [← hw])
    have hview₂ : ∀ tr, SizedStore.view vs ⟨σ, tr, s₁.log⟩ = { a with trace := tr } := by
      intro tr
      rw [← hview]
      refine congrArg (fun l => AstState.mk l tr s₁.log) (funext fun id => hσ _ ?_)
      intro hkey
      apply vs.kind_ne_tmp id
      apply congrArg VarKey.kind hkey
    have htrace : s₁.trace = a.trace := congrArg AstState.trace hview
    rw [point_scLeft h₁.ok] at hreach₂
    have hret := hreach₁.trans hreach₂
    change ∃ s', Reaches m _ _ (.returned s')
      ∧ s'.view vs
        = { a with
            trace := a.trace ++ [.branch (some (Word.ofBool (decide (w ≠ 0)))), .ret none] }
    rw [← htrace, List.append_cons]
    generalize decide (w ≠ 0) = b at hret ⊢
    cases b with
    | true =>
      rw [if_pos rfl, hthenCopies, sizedCopy_nil] at hret
      exact ⟨_, hret.trans (hthenRet _), hview₂ _⟩
    | false =>
      rw [if_neg (by simp), helseCopies, sizedCopy_nil] at hret
      exact ⟨_, hret.trans (helseRet _), hview₂ _⟩

/-- The branch that a lowered condition takes is the one that the source says, exactly when
the lowest bytes of its right operands decide. -/
theorem branchesAs_truth_iff
    (hc : c.For vs esc) (entry : Nat) (e : Ast) (s : SizedStore) :
  BranchesAs m ((irLowerTest e c).function entry) vs c.point s (truth m vs esc e (s.view vs))
    ↔ lowBytesDecide m vs esc e (s.view vs) = true
  := by
  have hrun := branchesAs_condition (m := m) hc entry e s
  have htests := @tests_evalAst m vs esc e
  constructor
  · intro h
    by_contra hlow
    apply (htests.differs _ (by simpa using hlow)).ne
    apply hrun.unique h
  · intro hlow
    rw [← htests.agrees _ hlow]
    apply hrun

/-- A test of two locals. -/
theorem branchesAs_truth_iff_locals :
  (Variables.locals.start fun _ => false).For .locals (fun _ => false)
    ∧ (BranchesAs zeroMachine
        ((irLowerTest (.logAnd (.lvar ⟨0, true⟩) (.lvar ⟨1, true⟩))
          (Variables.locals.start fun _ => false)).function 0) .locals (0, 0)
        ⟨fun _ => 1, [], []⟩
        (truth zeroMachine .locals (fun _ => false)
          (.logAnd (.lvar ⟨0, true⟩) (.lvar ⟨1, true⟩)) ⟨fun _ => 1, [], []⟩)
      ↔ lowBytesDecide zeroMachine .locals (fun _ => false)
          (.logAnd (.lvar ⟨0, true⟩) (.lvar ⟨1, true⟩)) ⟨fun _ => 1, [], []⟩ = true)
  := ⟨Variables.for_start .locals fun _ => false,
    branchesAs_truth_iff (Variables.for_start .locals fun _ => false) 0 _ ⟨fun _ => 1, [], []⟩⟩

/-- The test of `x && y` fails for `x = 1` and `y = 256`. -/
theorem not_branchesAs_truth :
  truth zeroMachine .locals (fun _ => false) (.logAnd (.lvar ⟨0, true⟩) (.lvar ⟨1, true⟩))
      ⟨fun id => if id = 0 then 1 else 256, [], []⟩
      = .ok (true, ⟨fun id => if id = 0 then 1 else 256, [.branch (some 1)], []⟩)
    ∧ ¬ BranchesAs zeroMachine
        ((irLowerTest (.logAnd (.lvar ⟨0, true⟩) (.lvar ⟨1, true⟩))
          (Variables.locals.start fun _ => false)).function 0) .locals (0, 0)
        ⟨fun k => if k.id = 0 then 1 else 256, [], []⟩
        (truth zeroMachine .locals (fun _ => false)
          (.logAnd (.lvar ⟨0, true⟩) (.lvar ⟨1, true⟩))
          ⟨fun id => if id = 0 then 1 else 256, [], []⟩)
  := by
  constructor
  · rfl
  · intro h
    have hrun := branchesAs_condition (m := zeroMachine)
      (Variables.for_start .locals fun _ => false) 0 (.logAnd (.lvar ⟨0, true⟩) (.lvar ⟨1, true⟩))
      ⟨fun k => if k.id = 0 then 1 else 256, [], []⟩
    apply ((tests_evalAst _).differs _ _).ne (hrun.unique h)
    decide

end

end Polyc
