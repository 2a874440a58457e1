import Polyc.Ast.BinaryOp
import Polyc.Ir.DirectReads
import Polyc.Ir.EvalArith

/-!
# Constant expressions

The evaluators of integer expressions that the parser has, beside the code that is lowered for
the same expression.  An expression is made of integer literals and of the operators that
`evalIntConstExprOrErr` handles.  The numbers are `s64`, whose sums, differences, products and
left shifts wrap around; a division that traps and a shift by a count that is not defined have no
result.
-/

namespace Polyc

/-- Trees of integer literals. -/
inductive ConstExpr where
  | literal (i64 : Word)
  | unop (unop : AstUnOp) (operand : ConstExpr)
  | binop (binop : AstBinOp) (left right : ConstExpr)
  | logAnd (left right : ConstExpr)
  | logOr (left right : ConstExpr)
  deriving DecidableEq

namespace ConstExpr

/-- The tree as it is lowered.  A binary operator on two integers has a signed type. -/
def toAst : ConstExpr → Ast
  | literal i64 => .literal i64
  | unop op operand => .unop op operand.toAst
  | binop op left right => .binop op true left.toAst right.toAst
  | logAnd left right => .logAnd left.toAst right.toAst
  | logOr left right => .logOr left.toAst right.toAst

end ConstExpr


/-! ### The evaluators of the parser -/

/-- A unary operator of C on `s64`. -/
def s64UnOp (op : AstUnOp) (a : Word) : Word :=
  match op with
  | .plus => a
  | .minus => -a
  | .bitNot => ~~~a
  | .logNot => Word.ofBool (a = 0)

/-- A binary operator of C on `s64`, where it is defined. -/
def s64BinOp (op : AstBinOp) (a b : Word) : Option Word :=
  match op with
  | .mul => some (a * b)
  | .div => if signedTraps a b then none else some (a.sdiv b)
  | .mod => if signedTraps a b then none else some (a.srem b)
  | .add => some (a + b)
  | .sub => some (a - b)
  | .shl => if b.toNat < 64 then some (a <<< b.toNat) else none
  | .shr => if b.toNat < 64 then some (a.sshiftRight b.toNat) else none
  | .bitAnd => some (a &&& b)
  | .bitXor => some (a ^^^ b)
  | .bitOr => some (a ||| b)
  | .lt => some (Word.ofBool (a.toInt < b.toInt))
  | .le => some (Word.ofBool (a.toInt ≤ b.toInt))
  | .gt => some (Word.ofBool (a.toInt > b.toInt))
  | .ge => some (Word.ofBool (a.toInt ≥ b.toInt))
  | .eq => some (Word.ofBool (a = b))
  | .ne => some (Word.ofBool (a ≠ b))

/-- `evalIntConstExprOrErr`: the number and the flag behind `_ok`. -/
def evalIntConstExprOrErr : ConstExpr → Bool → Option (Word × Bool)
  | .literal i64, ok => some (i64, ok)
  | .unop op operand, ok => do
    let (a, ok) ← evalIntConstExprOrErr operand ok
    return (s64UnOp op a, ok)
  | .binop op left right, ok => do
    let (a, ok) ← evalIntConstExprOrErr left ok
    let (b, ok) ← evalIntConstExprOrErr right ok
    let v ← s64BinOp op a b
    return (v, ok)
  | .logAnd left right, ok => do
    let (a, ok) ← evalIntConstExprOrErr left ok
    if a = 0 then return (0, ok)
    let (b, ok) ← evalIntConstExprOrErr right ok
    return (Word.ofBool (b ≠ 0), ok)
  | .logOr left right, ok => do
    let (a, ok) ← evalIntConstExprOrErr left ok
    if a ≠ 0 then return (1, ok)
    let (b, ok) ← evalIntConstExprOrErr right ok
    return (Word.ofBool (b ≠ 0), ok)

/-- `astCanEval`, which clears the flag when it says no: a node with two operands asks both, and
of the others only a literal can be evaluated. -/
def astCanEval : ConstExpr → Bool
  | .literal _ => true
  | .unop _ _ => false
  | .binop _ left right | .logAnd left right | .logOr left right =>
    astCanEval left && astCanEval right

/-- The operators that `evalIntArithmeticOrErr` and `evalOneIntExprOrErr` handle. -/
def AstBinOp.isArithmetic : AstBinOp → Bool
  | .mul | .div | .mod | .add | .sub | .shl | .shr | .bitAnd | .bitXor | .bitOr => true
  | .lt | .le | .gt | .ge | .eq | .ne => false

/-- `evalIntArithmeticOrErr`. -/
def evalIntArithmeticOrErr : ConstExpr → Bool → Option (Word × Bool)
  | .literal i64, ok => some (i64, ok)
  | .binop op left right, ok =>
    if !astCanEval (.binop op left right) then some (0, false)
    else if op.isArithmetic then do
      let (a, ok) ← evalIntArithmeticOrErr left ok
      let (b, ok) ← evalIntArithmeticOrErr right ok
      let v ← s64BinOp op a b
      return (v, ok)
    else some (0, false)
  | .unop _ _, _ | .logAnd _ _, _ | .logOr _ _, _ => some (0, false)

/-- `evalOneIntExprOrErr`, which sets the flag; it panics on an operator that it does not
handle. -/
def evalOneIntExprOrErr (LHS RHS : ConstExpr) (op : AstBinOp) : Option (Word × Bool) :=
  match LHS, RHS with
  | .literal left, .literal right =>
    if op.isArithmetic then (s64BinOp op left right).map (·, true) else none
  | _, _ => some (0, false)

/-- The pair of constants that `irEvalBlock` folds for an operator. -/
def irEvalPair (op : AstBinOp) (a b : Word) : Option Word :=
  if (op.toIr true).1 = .icmp then irEvalCmp (op.toIr true).2 a b
  else irEvalBinop (op.toIr true).1 a b

/-! ### What an expression is -/

/-- The result of a binary operator on all operands; where it is not defined the number does not
matter. -/
def AstBinOp.result (op : AstBinOp) (a b : Word) : Word := (s64BinOp op a b).getD 0

namespace ConstExpr

/-- The number that an expression is. -/
def value : ConstExpr → Word
  | literal i64 => i64
  | unop op operand => s64UnOp op operand.value
  | binop op left right => op.result left.value right.value
  | logAnd left right => Word.ofBool (left.value ≠ 0 ∧ right.value ≠ 0)
  | logOr left right => Word.ofBool (left.value ≠ 0 ∨ right.value ≠ 0)

/-- The nodes of an expression that are evaluated: the right operand of `&&` and `||` only when
the left one does not decide. -/
def evaluated : ConstExpr → List ConstExpr
  | literal i64 => [literal i64]
  | unop op operand => unop op operand :: operand.evaluated
  | binop op left right => binop op left right :: (left.evaluated ++ right.evaluated)
  | logAnd left right =>
    logAnd left right :: (left.evaluated ++ if left.value ≠ 0 then right.evaluated else [])
  | logOr left right =>
    logOr left right :: (left.evaluated ++ if left.value = 0 then right.evaluated else [])

/-- The operator of a node is defined on its operands: no zero divisor, not the least number by
-1, no shift count outside 0 to 63. -/
def isDefined : ConstExpr → Bool
  | binop op left right => (s64BinOp op left.value right.value).isSome
  | _ => true

/-- What lowered code computes for an operator whose left operand is a tree: a comparison of a
comparison is a conjunction of two, whose right one gives its lowest byte. -/
def chained (op : AstBinOp) : ConstExpr → Word → Word
  | binop op₁ a b, right =>
    if astIsRangeOperator op ∧ astIsRangeOperator op₁ then
      if (binop op₁ a b).value = 0 then 0 else lowByte (chained op b right)
    else op.result (binop op₁ a b).value right
  | left, right => op.result left.value right

/-- What lowered code makes of a node when it has the numbers of its operands. -/
def lowered : ConstExpr → Word
  | literal i64 => i64
  | unop op operand => s64UnOp op operand.value
  | binop op left right => chained op left right.value
  | logAnd left right => if left.value = 0 then 0 else lowByte right.value
  | logOr left right => if left.value ≠ 0 then 1 else lowByte right.value

/-- A node is defined, and lowered code makes the same of it as the source. -/
def fits (t : ConstExpr) : Bool := t.isDefined && t.lowered = t.value

/-- A comparison of a comparison. -/
def isChain : ConstExpr → Bool
  | binop op (binop op₁ _ _) _ => astIsRangeOperator op && astIsRangeOperator op₁
  | _ => false

end ConstExpr

/-! ### Agreement -/

/-- A machine that negates and complements. -/
structure Machine.Negates (m : Machine) : Prop where
  ineg : ∀ cmp w, m.arith .ineg cmp (some w) none = -w
  not : ∀ cmp w, m.arith .not cmp (some w) none = ~~~w

/-- The evaluators agree on an expression, whose code is lowered in the context `c` and runs from
the state `s`. -/
structure ConstExpr.Agrees (m : Machine) (vs : Variables) (c : IrCtx) (entry : Nat)
    (s : SizedStore) (t : ConstExpr) : Prop where
  /-- The evaluation does not trap. -/
  ends : (evalIntConstExprOrErr t true).isSome = true
  /-- The flag is cleared when an operator is not defined. -/
  clears : ∀ v, evalIntConstExprOrErr t true = some (v, true) →
    ∀ u ∈ t.evaluated, u.isDefined = true
  /-- The code that is lowered returns the number. -/
  runs : ∀ v, evalIntConstExprOrErr t true = some (v, true) →
    ∃ a, ReturnsAs m ((irLowerValue t.toAst c).function entry) vs c.point s (.ok (v, a))
  /-- The constants of two operands are folded to it. -/
  folds : ∀ op left right a b v, t = .binop op left right → t.isChain = false →
    evalIntConstExprOrErr left true = some (a, true) →
    evalIntConstExprOrErr right true = some (b, true) →
    evalIntConstExprOrErr t true = some (v, true) → irEvalPair op a b = some v
  /-- Arithmetic that can be evaluated gives it. -/
  arithmetic : ∀ v w, evalIntConstExprOrErr t true = some (v, true) →
    evalIntArithmeticOrErr t true = some (w, true) → w = v
  /-- An operator on two literals gives it. -/
  one : ∀ op left right v w, t = .binop op left right →
    evalIntConstExprOrErr t true = some (v, true) →
    evalOneIntExprOrErr left right op = some (w, true) → w = v

end Polyc

/-!
## Constant expressions agree

The evaluators agree on an expression and its evaluated parts exactly when every operator among
them is defined on its operands, and lowered code makes the same of it as the source.  The code
of an expression without variables gives a number that depends on no state, which is shown along
the tree.
-/

namespace Polyc.ConstExpr

variable {m : Machine} {vs : Variables} {esc : Nat → Bool}

/-! ### Nodes -/

/-- An expression comes before the nodes of its operands. -/
theorem evaluated_eq (t : ConstExpr) :
  t.evaluated = t :: t.evaluated.tail
  := by
  cases t <;> rfl

/-- An expression is among its nodes. -/
theorem mem_evaluated_self (t : ConstExpr) :
  t ∈ t.evaluated
  := by
  rw [evaluated_eq]
  apply List.mem_cons_self ..

/-- The nodes of a node are nodes of the expression. -/
theorem evaluated_subset {t u : ConstExpr} (h : u ∈ t.evaluated) :
  u.evaluated ⊆ t.evaluated
  := by
  induction t with
  | literal i64 =>
    rw [evaluated, List.mem_singleton] at h
    rw [h]
    apply List.Subset.refl
  | unop op operand ih =>
    rcases List.mem_cons.1 h with rfl | h
    · apply List.Subset.refl
    · apply List.subset_cons_of_subset _ (ih h)
  | binop op left right ihl ihr =>
    rcases List.mem_cons.1 h with rfl | h
    · apply List.Subset.refl
    · apply List.subset_cons_of_subset
      rcases List.mem_append.1 h with h | h
      · apply List.subset_append_of_subset_left _ (ihl h)
      · apply List.subset_append_of_subset_right _ (ihr h)
  | logAnd left right ihl ihr | logOr left right ihl ihr =>
    rcases List.mem_cons.1 h with rfl | h
    · apply List.Subset.refl
    · apply List.subset_cons_of_subset
      rcases List.mem_append.1 h with h | h
      · apply List.subset_append_of_subset_left _ (ihl h)
      · apply List.subset_append_of_subset_right
        split
        case isTrue hright =>
          rw [if_pos hright] at h
          apply ihr h
        case isFalse hright =>
          rw [if_neg hright] at h
          cases h

section
variable {P Q : ConstExpr → Prop}

/-- The nodes of a unary operator. -/
theorem forall_evaluated_unop (op : AstUnOp) (operand : ConstExpr) :
  (∀ u ∈ (unop op operand).evaluated, P u) ↔
    P (unop op operand) ∧ ∀ u ∈ operand.evaluated, P u
  := List.forall_mem_cons

/-- The nodes of a binary operator. -/
theorem forall_evaluated_binop (op : AstBinOp) (left right : ConstExpr) :
  (∀ u ∈ (binop op left right).evaluated, P u) ↔
    P (binop op left right) ∧ (∀ u ∈ left.evaluated, P u) ∧ ∀ u ∈ right.evaluated, P u
  := by
  rw [evaluated, List.forall_mem_cons, List.forall_mem_append]

/-- What holds of the nodes that are there under a condition. -/
theorem forall_mem_ite {p : Prop} [Decidable p] (ts : List ConstExpr) :
  (∀ u ∈ (if p then ts else []), P u) ↔ (p → ∀ u ∈ ts, P u)
  := by
  split
  case isTrue hp => simp [hp]
  case isFalse hp => simp [hp]

/-- The nodes of a conjunction. -/
theorem forall_evaluated_logAnd (left right : ConstExpr) :
  (∀ u ∈ (logAnd left right).evaluated, P u) ↔
    P (logAnd left right) ∧ (∀ u ∈ left.evaluated, P u) ∧
      (left.value ≠ 0 → ∀ u ∈ right.evaluated, P u)
  := by
  rw [evaluated, List.forall_mem_cons, List.forall_mem_append, forall_mem_ite]

/-- The nodes of a disjunction. -/
theorem forall_evaluated_logOr (left right : ConstExpr) :
  (∀ u ∈ (logOr left right).evaluated, P u) ↔
    P (logOr left right) ∧ (∀ u ∈ left.evaluated, P u) ∧
      (left.value = 0 → ∀ u ∈ right.evaluated, P u)
  := by
  rw [evaluated, List.forall_mem_cons, List.forall_mem_append, forall_mem_ite]

/-- What a node has from the nodes of its operands, all nodes have. -/
theorem forall_evaluated_of_step
    (step : ∀ t : ConstExpr, (∀ u ∈ t.evaluated.tail, P u) → Q t → P t) (t : ConstExpr)
    (h : ∀ u ∈ t.evaluated, Q u) :
  ∀ u ∈ t.evaluated, P u
  := by
  have hnode {t : ConstExpr} (hparts : ∀ u ∈ t.evaluated.tail, P u) (ht : Q t) :
      ∀ u ∈ t.evaluated, P u := by
    rw [evaluated_eq, List.forall_mem_cons]
    apply And.intro (step t hparts ht) hparts
  induction t with
  | literal i64 =>
    apply hnode _ (h _ (mem_evaluated_self _))
    intro u hu
    cases hu
  | unop op operand ih =>
    obtain ⟨hself, hoperand⟩ := (forall_evaluated_unop ..).1 h
    apply hnode (t := unop op operand) (ih hoperand) hself
  | binop op left right ihl ihr =>
    obtain ⟨hself, hl, hr⟩ := (forall_evaluated_binop ..).1 h
    apply hnode _ hself
    apply List.forall_mem_append.2 (And.intro (ihl hl) (ihr hr))
  | logAnd left right ihl ihr =>
    obtain ⟨hself, hl, hr⟩ := (forall_evaluated_logAnd ..).1 h
    apply hnode _ hself
    apply List.forall_mem_append.2 (And.intro (ihl hl) ((forall_mem_ite _).2 _))
    intro hne
    apply ihr (hr hne)
  | logOr left right ihl ihr =>
    obtain ⟨hself, hl, hr⟩ := (forall_evaluated_logOr ..).1 h
    apply hnode _ hself
    apply List.forall_mem_append.2 (And.intro (ihl hl) ((forall_mem_ite _).2 _))
    intro hzero
    apply ihr (hr hzero)

end

/-! ### The evaluation of the parser -/

/-- A defined operator has its result. -/
theorem s64BinOp_eq_result {op : AstBinOp} {a b : Word} (h : (s64BinOp op a b).isSome = true) :
  s64BinOp op a b = some (op.result a b)
  := by
  obtain ⟨w, hw⟩ := Option.isSome_iff_exists.1 h
  rw [AstBinOp.result, hw]
  rfl

/-- An evaluation that ends leaves the flag and gives the number. -/
theorem evalIntConstExprOrErr_eq {t : ConstExpr} {ok : Bool} {v : Word × Bool}
    (h : evalIntConstExprOrErr t ok = some v) :
  v = (t.value, ok)
  := by
  induction t generalizing ok v with
  | literal i64 =>
    cases h
    rfl
  | unop op operand ih =>
    obtain ⟨⟨a, ok₁⟩, ha, hv⟩ := Option.bind_eq_some_iff.1 h
    cases ih ha
    cases hv
    rfl
  | binop op left right ihl ihr =>
    obtain ⟨⟨a, ok₁⟩, ha, h⟩ := Option.bind_eq_some_iff.1 h
    obtain ⟨⟨b, ok₂⟩, hb, h⟩ := Option.bind_eq_some_iff.1 h
    obtain ⟨w, hw, hv⟩ := Option.bind_eq_some_iff.1 h
    cases ihl ha
    cases ihr hb
    cases hv
    rw [value, AstBinOp.result, hw]
    rfl
  | logAnd left right ihl ihr =>
    obtain ⟨⟨a, ok₁⟩, ha, h⟩ := Option.bind_eq_some_iff.1 h
    cases ihl ha
    simp only at h
    split at h
    case isTrue hzero =>
      cases h
      rw [value, hzero]
      rfl
    case isFalse hne =>
      obtain ⟨⟨b, ok₂⟩, hb, hv⟩ := Option.bind_eq_some_iff.1 h
      cases ihr hb
      cases hv
      simp only [value, ne_eq, hne, not_false_eq_true, true_and]
  | logOr left right ihl ihr =>
    obtain ⟨⟨a, ok₁⟩, ha, h⟩ := Option.bind_eq_some_iff.1 h
    cases ihl ha
    simp only at h
    split at h
    case isTrue hne =>
      cases h
      have htrue : left.value ≠ 0 ∨ right.value ≠ 0 := Or.inl hne
      rw [value, decide_eq_true htrue]
      rfl
    case isFalse hzero =>
      obtain ⟨⟨b, ok₂⟩, hb, hv⟩ := Option.bind_eq_some_iff.1 h
      cases ihr hb
      cases hv
      simp only [value, hzero, false_or]

/-- An evaluation ends when every operator that it comes to is defined. -/
theorem evalIntConstExprOrErr_of_isDefined {t : ConstExpr} (ok : Bool)
    (h : ∀ u ∈ t.evaluated, u.isDefined = true) :
  evalIntConstExprOrErr t ok = some (t.value, ok)
  := by
  have hends : ∃ v, evalIntConstExprOrErr t ok = some v := by
    induction t generalizing ok with
    | literal i64 => exact ⟨_, rfl⟩
    | unop op operand ih =>
      obtain ⟨⟨a, ok₁⟩, ha⟩ := ih ok ((forall_evaluated_unop ..).1 h).2
      rw [evalIntConstExprOrErr, ha]
      exact ⟨_, rfl⟩
    | binop op left right ihl ihr =>
      obtain ⟨hdef, hl, hr⟩ := (forall_evaluated_binop ..).1 h
      obtain ⟨v, ha⟩ := ihl ok hl
      obtain ⟨w, hb⟩ := ihr ok hr
      cases evalIntConstExprOrErr_eq ha
      cases evalIntConstExprOrErr_eq hb
      simp only [evalIntConstExprOrErr, ha, hb, s64BinOp_eq_result hdef, Option.bind_eq_bind,
        Option.bind_some]
      exact ⟨_, rfl⟩
    | logAnd left right ihl ihr =>
      obtain ⟨-, hl, hr⟩ := (forall_evaluated_logAnd ..).1 h
      obtain ⟨v, ha⟩ := ihl ok hl
      cases evalIntConstExprOrErr_eq ha
      simp only [evalIntConstExprOrErr, ha, Option.bind_eq_bind, Option.bind_some]
      split
      case isTrue hzero => exact ⟨_, rfl⟩
      case isFalse hne =>
        obtain ⟨w, hb⟩ := ihr ok (hr hne)
        rw [hb]
        exact ⟨_, rfl⟩
    | logOr left right ihl ihr =>
      obtain ⟨-, hl, hr⟩ := (forall_evaluated_logOr ..).1 h
      obtain ⟨v, ha⟩ := ihl ok hl
      cases evalIntConstExprOrErr_eq ha
      simp only [evalIntConstExprOrErr, ha, Option.bind_eq_bind, Option.bind_some]
      split
      case isTrue hne => exact ⟨_, rfl⟩
      case isFalse hzero =>
        obtain ⟨w, hb⟩ := ihr ok (hr (not_not.1 hzero))
        rw [hb]
        exact ⟨_, rfl⟩
  obtain ⟨v, hv⟩ := hends
  rw [hv, evalIntConstExprOrErr_eq hv]

/-! ### The other evaluators -/

/-- Arithmetic that succeeds gives the number. -/
theorem evalIntArithmeticOrErr_eq {t : ConstExpr} {ok : Bool} {w : Word}
    (h : evalIntArithmeticOrErr t ok = some (w, true)) :
  ok = true ∧ w = t.value
  := by
  induction t generalizing ok w with
  | literal i64 =>
    cases h
    apply And.intro rfl rfl
  | binop op left right ihl ihr =>
    rw [evalIntArithmeticOrErr] at h
    split at h
    · cases h
    split at h
    · obtain ⟨⟨a, ok₁⟩, ha, h⟩ := Option.bind_eq_some_iff.1 h
      obtain ⟨⟨b, ok₂⟩, hb, h⟩ := Option.bind_eq_some_iff.1 h
      obtain ⟨v, hv, h⟩ := Option.bind_eq_some_iff.1 h
      cases h
      obtain ⟨rfl, rfl⟩ := ihr hb
      obtain ⟨rfl, rfl⟩ := ihl ha
      constructor
      · rfl
      · rw [value, AstBinOp.result, hv]
        rfl
    · cases h
  | unop op operand ih | logAnd left right ihl ihr | logOr left right ihl ihr => cases h

/-- An operator on two literals gives the number. -/
theorem evalOneIntExprOrErr_eq {op : AstBinOp} {left right : ConstExpr} {w : Word}
    (h : evalOneIntExprOrErr left right op = some (w, true)) :
  w = (binop op left right).value
  := by
  cases left with
  | literal a =>
    cases right with
    | literal b =>
      rw [evalOneIntExprOrErr] at h
      split at h
      · obtain ⟨v, hv, hw⟩ := Option.map_eq_some_iff.1 h
        cases hw
        rw [value, AstBinOp.result, value, value, hv]
        rfl
      · cases h
    | _ => cases h
  | _ => cases h

/-- The folder computes a defined operator. -/
theorem irEvalPair_eq {op : AstBinOp} {a b : Word} (h : (s64BinOp op a b).isSome = true) :
  irEvalPair op a b = some (op.result a b)
  := by
  rw [AstBinOp.result]
  cases op with
  | div | mod =>
    rw [s64BinOp] at h
    split at h
    case isTrue htraps => cases h
    case isFalse htraps =>
      have hzero : ¬ b = 0 := fun hb => htraps (decide_eq_true (Or.inl hb))
      have hmin : ¬ (a = BitVec.intMin 64 ∧ b = -1) :=
        fun hb => htraps (decide_eq_true (Or.inr hb))
      rw [irEvalPair, if_neg (by simp [AstBinOp.toIr]), s64BinOp, if_neg htraps]
      simp only [AstBinOp.toIr, if_true, irEvalBinop, if_neg hzero, if_neg hmin]
      rfl
  | shl | shr =>
    rw [s64BinOp] at h
    split at h
    case isTrue hcount =>
      rw [irEvalPair, if_neg (by simp [AstBinOp.toIr]), s64BinOp, if_pos hcount]
      simp only [AstBinOp.toIr, if_true, irEvalBinop, if_neg ((shift_guard b).2 hcount)]
      rfl
    case isFalse hcount => cases h
  | _ => rfl

/-! ### The lowered code -/

/-- An evaluation gives a number in every state. -/
def Yields (e : Eval) (w : Word) : Prop := ∀ a, ∃ a', e a = .ok (w, a')

/-- The operand that an expression without variables is lowered to is no slot. -/
theorem read_shape (t : ConstExpr) (w : Word) (a : AstState) :
  (t.toAst.shape vs esc).read w a = w
  := by
  induction t with
  | literal i64 => rfl
  | unop op operand ih =>
    cases op with
    | plus => apply ih
    | _ => rfl
  | binop op left right ihl ihr =>
    rw [toAst, Ast.shape]
    split <;> rfl
  | logAnd left right | logOr left right => rfl

/-- An opcode that computes. -/
theorem yields_exec {op : IrOp} {cmp : IrCmpKind} {o : Operands} {w : Word}
    (h : ∀ tr, effect m tr { op := op, cmpKind := cmp } o = some (some w, [])) :
  Yields (AstState.exec m op cmp o) w
  := by
  intro a
  rw [AstState.exec, h]
  exact ⟨_, rfl⟩

/-- A pair of constants that is folded is computed to the same. -/
theorem yields_exec₂_of_irEvalPair {op : AstBinOp} {v w r : Word}
    (h : irEvalPair op v w = some r) :
  Yields (AstState.exec₂ m (op.toIr true).1 (op.toIr true).2 v w) r
  := by
  apply yields_exec
  intro tr
  rw [irEvalPair] at h
  split at h
  case isTrue hcmp =>
    rw [irEvalCmp_eq] at h
    rw [hcmp]
    simp only [effect, aluResult, h]
    rfl
  case isFalse hcmp =>
    obtain ⟨-, halu⟩ := irEvalBinop_sound h m (op.toIr true).2
    cases op <;> first
      | cases hcmp rfl
      | exact congrArg (Option.map fun w => (some w, [])) halu

/-- An operator on a number. -/
theorem Yields.unOp (hm : m.Negates) {e : Eval} {w : Word} (h : Yields e w) (op : AstUnOp) :
  Yields (evalUnOp m op e) (s64UnOp op w)
  := by
  intro a
  obtain ⟨a', ha⟩ := h a
  rw [evalUnOp, ha]
  cases op with
  | plus => exact ⟨a', rfl⟩
  | minus =>
    change ∃ a₁, AstState.exec₁ m .ineg w a' = _
    apply yields_exec
    intro tr
    change some (some (m.arith .ineg .eq (some w) none), []) = _
    rw [hm.ineg]
    rfl
  | bitNot =>
    change ∃ a₁, AstState.exec₁ m .not w a' = _
    apply yields_exec
    intro tr
    change some (some (m.arith .not .eq (some w) none), []) = _
    rw [hm.not]
    rfl
  | logNot =>
    change ∃ a₁, AstState.exec₂ m .icmp .eq w 0 a' = _
    apply yields_exec
    intro tr
    rfl

/-- A defined operator on two numbers. -/
theorem Yields.operands {e₁ e₂ : Eval} {v w : Word} (h₁ : Yields e₁ v) (h₂ : Yields e₂ w)
    {op : AstBinOp} (hop : (s64BinOp op v w).isSome = true) {sh : Shape}
    (hsh : ∀ a, sh.read v a = v) :
  Yields (evalOperands m op true sh e₁ e₂) (op.result v w)
  := by
  intro a
  obtain ⟨a₁, ha₁⟩ := h₁ a
  obtain ⟨a₂, ha₂⟩ := h₂ a₁
  have hexec := yields_exec₂_of_irEvalPair (m := m) (irEvalPair_eq hop) a₂
  obtain ⟨a₃, ha₃⟩ := hexec
  use a₃
  rw [evalOperands, ha₁]
  change (e₂ a₁ >>= _) = _
  rw [ha₂]
  change AstState.exec₂ m _ _ (sh.read v a₂) w a₂ = _
  rw [hsh, ha₃]

/-- A short circuit on two numbers, of which the right one may not be needed. -/
theorem Yields.shortCircuit {e₁ e₂ : Eval} {v w : Word} (isOr : Bool) (h₁ : Yields e₁ v)
    (h₂ : isOr ≠ decide (v ≠ 0) → Yields e₂ w) :
  Yields (evalShortCircuit isOr e₁ e₂)
    (if isOr = decide (v ≠ 0) then Word.ofBool isOr else lowByte w)
  := by
  intro a
  obtain ⟨a₁, ha₁⟩ := h₁ a
  rw [evalShortCircuit, ha₁]
  change ∃ a', (if isOr = decide (v ≠ 0) then _ else _) = _
  split
  case isTrue h => exact ⟨_, rfl⟩
  case isFalse h =>
    obtain ⟨a₂, ha₂⟩ := h₂ h (a₁.branch (v ≠ 0))
    use a₂
    rw [ha₂]
    rfl

/-- A comparison is defined on all numbers. -/
theorem isSome_of_range {op : AstBinOp} (h : astIsRangeOperator op = true) (v w : Word) :
  (s64BinOp op v w).isSome = true
  := by
  cases op <;> first
    | rfl
    | cases h

/-- A binary operator on a tree whose nodes give their numbers. -/
theorem yields_chained (left : ConstExpr)
    (hleft : ∀ u ∈ left.evaluated, Yields (evalAst m vs esc u.toAst) u.value) {op : AstBinOp}
    {e : Eval} {w : Word} (he : Yields e w) (hop : (s64BinOp op left.value w).isSome = true) :
  Yields (evalBinOp m vs esc op true left.toAst (evalAst m vs esc left.toAst) e)
    (chained op left w)
  := by
  have hself := hleft left (mem_evaluated_self left)
  induction left generalizing op with
  | binop op₁ a b iha ihb =>
    rw [toAst, evalBinOp, chained]
    split
    case isTrue hrange =>
      obtain ⟨-, -, hb⟩ := (forall_evaluated_binop ..).1 hleft
      have hright := ihb hb (isSome_of_range hrange.1 b.value w) (hb b (mem_evaluated_self b))
      have hboth := hself.shortCircuit false fun _ => hright
      have hcases : (if false = decide ((binop op₁ a b).value ≠ 0) then Word.ofBool false
          else lowByte (chained op b w))
          = if (binop op₁ a b).value = 0 then 0 else lowByte (chained op b w) := by
        apply if_congr
        · rw [eq_comm, decide_eq_false_iff_not, not_not]
        · rfl
        · rfl
      rw [← hcases]
      apply hboth
    case isFalse hrange => apply hself.operands he hop (read_shape (binop op₁ a b) _)
  | literal i64 => apply hself.operands he hop (read_shape (literal i64) _)
  | unop op₁ operand => apply hself.operands he hop (read_shape (unop op₁ operand) _)
  | logAnd a b => apply hself.operands he hop (read_shape (logAnd a b) _)
  | logOr a b => apply hself.operands he hop (read_shape (logOr a b) _)

/-- A node is computed as lowered code makes it of the numbers of its operands. -/
theorem yields_lowered (hm : m.Negates) {t : ConstExpr} (hdef : t.isDefined = true)
    (hparts : ∀ u ∈ t.evaluated.tail, Yields (evalAst m vs esc u.toAst) u.value) :
  Yields (evalAst m vs esc t.toAst) t.lowered
  := by
  cases t with
  | literal i64 =>
    intro a
    exact ⟨a, rfl⟩
  | unop op operand =>
    have hself := hparts operand (mem_evaluated_self operand)
    apply hself.unOp hm
  | binop op left right =>
    obtain ⟨hleft, hright⟩ := List.forall_mem_append.1 hparts
    apply yields_chained left hleft (hright right (mem_evaluated_self right)) hdef
  | logAnd left right =>
    obtain ⟨hleft, hright⟩ := List.forall_mem_append.1 hparts
    have hself := hleft left (mem_evaluated_self left)
    have hboth := hself.shortCircuit (w := right.value) false fun hne =>
      (forall_mem_ite _).1 hright (by simpa using hne) right (mem_evaluated_self right)
    have hcases : (if false = decide (left.value ≠ 0) then Word.ofBool false
        else lowByte right.value) = (logAnd left right).lowered := by
      rw [lowered]
      apply if_congr
      · rw [eq_comm, decide_eq_false_iff_not, not_not]
      · rfl
      · rfl
    rw [← hcases]
    apply hboth
  | logOr left right =>
    obtain ⟨hleft, hright⟩ := List.forall_mem_append.1 hparts
    have hself := hleft left (mem_evaluated_self left)
    have hboth := hself.shortCircuit (w := right.value) true fun hne =>
      (forall_mem_ite _).1 hright (by simpa using hne) right (mem_evaluated_self right)
    have hcases : (if true = decide (left.value ≠ 0) then Word.ofBool true
        else lowByte right.value) = (logOr left right).lowered := by
      rw [lowered]
      apply if_congr
      · rw [eq_comm, decide_eq_true_iff]
      · rfl
      · rfl
    rw [← hcases]
    apply hboth

/-- Nodes that fit give their numbers. -/
theorem yields_value (hm : m.Negates) {t : ConstExpr} (h : ∀ u ∈ t.evaluated, u.fits = true) :
  ∀ u ∈ t.evaluated, Yields (evalAst m vs esc u.toAst) u.value
  := by
  refine forall_evaluated_of_step (fun t hparts hfits => ?_) t h
  rw [fits, Bool.and_eq_true, decide_eq_true_eq] at hfits
  rw [← hfits.2]
  apply yields_lowered hm hfits.1 hparts

/-! ### Agreement -/

variable {c : IrCtx}

/-- What an evaluation that gives a number says of the code. -/
theorem returnsAs_iff (hc : c.For vs esc) (entry : Nat) (s : SizedStore) {t : ConstExpr} {w : Word}
    (h : Yields (evalAst m vs esc t.toAst) w) (v : Word) :
  (∃ a, ReturnsAs m ((irLowerValue t.toAst c).function entry) vs c.point s (.ok (v, a))) ↔ v = w
  := by
  obtain ⟨a', ha⟩ := h (s.view vs)
  have hreturns := returnsAs_evalAst (m := m) hc entry t.toAst s
  rw [ha] at hreturns
  constructor
  · rintro ⟨a, hv⟩
    cases hv.unique hreturns
    rfl
  · rintro rfl
    exact ⟨a', hreturns⟩

/-- Nodes that fit agree. -/
theorem agrees_of_fits (hm : m.Negates) (hc : c.For vs esc) (entry : Nat) (s : SizedStore)
    {t : ConstExpr} (h : ∀ u ∈ t.evaluated, u.fits = true) :
  Agrees m vs c entry s t
  := by
  have hself := mem_evaluated_self t
  have hdef : ∀ u ∈ t.evaluated, u.isDefined = true := by
    intro u hu
    have hfits := h u hu
    rw [fits, Bool.and_eq_true] at hfits
    apply hfits.1
  constructor
  case ends =>
    rw [evalIntConstExprOrErr_of_isDefined true hdef]
    rfl
  case clears =>
    intro v _
    apply hdef
  case runs =>
    intro v hv
    apply (returnsAs_iff hc entry s (yields_value hm h t hself) v).2
    cases evalIntConstExprOrErr_eq hv
    rfl
  case folds =>
    rintro op left right a b v rfl - ha hb hv
    cases evalIntConstExprOrErr_eq ha
    cases evalIntConstExprOrErr_eq hb
    cases evalIntConstExprOrErr_eq hv
    apply irEvalPair_eq (hdef _ hself)
  case arithmetic =>
    intro v w hv hw
    cases evalIntConstExprOrErr_eq hv
    apply (evalIntArithmeticOrErr_eq hw).2
  case one =>
    rintro op left right v w rfl hv hw
    cases evalIntConstExprOrErr_eq hv
    apply evalOneIntExprOrErr_eq hw

/-- A node that agrees fits when the nodes of its operands give their numbers. -/
theorem fits_of_agrees (hm : m.Negates) (hc : c.For vs esc) (entry : Nat) (s : SizedStore)
    {t : ConstExpr}
    (hparts : ∀ u ∈ t.evaluated.tail, Yields (evalAst m vs esc u.toAst) u.value)
    (h : Agrees m vs c entry s t) :
  t.fits = true
  := by
  obtain ⟨v, hv⟩ := Option.isSome_iff_exists.1 h.ends
  cases evalIntConstExprOrErr_eq hv
  have hdef := h.clears _ hv t (mem_evaluated_self t)
  have hlowered := yields_lowered hm hdef hparts
  have hvalue := (returnsAs_iff hc entry s hlowered t.value).1 (h.runs _ hv)
  rw [fits, Bool.and_eq_true, decide_eq_true_eq]
  apply And.intro hdef hvalue.symm

/-- The evaluators agree on an expression and its evaluated nodes exactly when each of these is
defined and lowered to what it is. -/
theorem agrees_iff_fits (hm : m.Negates) (hc : c.For vs esc) (entry : Nat) (s : SizedStore)
    (t : ConstExpr) :
  (∀ u ∈ t.evaluated, Agrees m vs c entry s u) ↔ ∀ u ∈ t.evaluated, u.fits = true
  := by
  constructor
  · intro h
    have hboth : ∀ u ∈ t.evaluated,
        u.fits = true ∧ Yields (evalAst m vs esc u.toAst) u.value := by
      refine forall_evaluated_of_step (fun t hparts hagrees => ?_) t h
      have hyields : ∀ u ∈ t.evaluated.tail, Yields (evalAst m vs esc u.toAst) u.value :=
        fun u hu => (hparts u hu).2
      have hfits := fits_of_agrees hm hc entry s hyields hagrees
      constructor
      · apply hfits
      · rw [fits, Bool.and_eq_true, decide_eq_true_eq] at hfits
        rw [← hfits.2]
        apply yields_lowered hm hfits.1 hyields
    intro u hu
    apply (hboth u hu).1
  · intro h u hu
    apply agrees_of_fits hm hc entry s
    intro w hw
    apply h w (evaluated_subset hu hw)

/-- A machine that only negates and complements. -/
def negatingMachine : Machine :=
  { zeroMachine with
    arith := fun op _ a _ =>
      match op with
      | .ineg => -a.getD 0
      | .not => ~~~a.getD 0
      | _ => 0 }

/-- It negates and complements. -/
theorem negates_negatingMachine :
  negatingMachine.Negates
  where
  ineg _ _ := rfl
  not _ _ := rfl

/-- The evaluators agree on `-(1 + 2) << 3`. -/
theorem agrees_shift :
  Agrees negatingMachine .locals (Variables.locals.start direct) 0 ⟨fun _ => 0, [], []⟩
    (binop .shl (unop .minus (binop .add (literal 1) (literal 2))) (literal 3))
  := (agrees_iff_fits negates_negatingMachine (Variables.for_start .locals direct) 0
    ⟨fun _ => 0, [], []⟩ _).2 (by decide +kernel) _ (mem_evaluated_self _)

/-- The evaluation of `1 / 0` traps, and `2 && 3` is one number for the parser and another one
when it runs. -/
theorem not_agrees :
  ¬ Agrees negatingMachine .locals (Variables.locals.start direct) 0 ⟨fun _ => 0, [], []⟩
      (binop .div (literal 1) (literal 0)) ∧
    ¬ Agrees negatingMachine .locals (Variables.locals.start direct) 0 ⟨fun _ => 0, [], []⟩
      (logAnd (literal 2) (literal 3))
  := by
  constructor
  · intro h
    cases h.ends
  · intro h
    have hruns := h.runs 1 rfl
    have hyields : Yields (evalAst negatingMachine .locals direct
        (logAnd (literal 2) (literal 3)).toAst) 3 := fun a => ⟨_, rfl⟩
    have heq := (returnsAs_iff (Variables.for_start .locals direct) 0 _ hyields 1).1 hruns
    revert heq
    decide

end Polyc.ConstExpr
