import Polyc.Ir.EvalAdds
import Polyc.Ir.LowerExprCorrect

/-!
# Direct reads of locals

A local whose address is not taken is no instruction of its own: the operator or the call
that needs its word reads the slot.  The other lowering loads every local where it is read.
The two compute the same exactly when no operand that waits for the operands to its right is
written while it waits, as far as the two lowerings tell.
-/

namespace Polyc

open IrCtx AstState

/-! ### Evaluations that agree -/

/-- After the same operators and calls, one of them receives other operands. -/
def Diverge {α : Type} (x y : Except AstState (α × AstState)) : Prop :=
  ∃ l e₁ e₂, e₁ ≠ e₂ ∧ l ++ [e₁] <+: (stateOf x).log ∧ l ++ [e₂] <+: (stateOf y).log

/-- Outcomes that diverge are not equal. -/
theorem Diverge.ne {α : Type} {x y : Except AstState (α × AstState)} (h : Diverge x y) :
  x ≠ y
  := by
  rintro rfl
  obtain ⟨l, e₁, e₂, hne, h₁, h₂⟩ := h
  have heq := (List.prefix_of_prefix_length_le h₁ h₂ (by simp)).eq_of_length (by simp)
  apply hne
  exact List.singleton_inj.mp (List.append_cancel_left heq)

/-- Outcomes that diverge still do after more operators and calls. -/
theorem Diverge.mono
    {α β : Type} {x y : Except AstState (α × AstState)} {x' y' : Except AstState (β × AstState)}
    (h : Diverge x y) (hx : AddsTo (stateOf x) (stateOf x'))
    (hy : AddsTo (stateOf y) (stateOf y')) :
  Diverge x' y'
  := by
  obtain ⟨l, e₁, e₂, hne, h₁, h₂⟩ := h
  exact ⟨l, e₁, e₂, hne, h₁.trans hx.log, h₂.trans hy.log⟩

/-- Two evaluations agree where a check holds, and diverge where it does not. -/
structure Matches {α : Type} (check : AstState → Bool)
    (f g : AstState → Except AstState (α × AstState)) : Prop where
  agrees : ∀ a, check a = true → f a = g a
  differs : ∀ a, check a = false → Diverge (f a) (g a)
  adds_left : ∀ a, AddsTo a (stateOf (f a))
  adds_right : ∀ a, AddsTo a (stateOf (g a))

namespace Matches

variable {α β : Type}

/-- An evaluation agrees with itself. -/
theorem refl {f : AstState → Except AstState (α × AstState)}
    (h : ∀ a, AddsTo a (stateOf (f a))) :
  Matches (fun _ => true) f f
  := by
  constructor
  case agrees =>
    intro a _
    rfl
  case differs =>
    intro a ha
    cases ha
  case adds_left => apply h
  case adds_right => apply h

/-- One evaluation after another. -/
theorem bind
    {check : AstState → Bool} {next : α → AstState → Bool}
    {f g : AstState → Except AstState (α × AstState)}
    {f' g' : α → AstState → Except AstState (β × AstState)} (h : Matches check f g)
    (h' : ∀ x, Matches (next x) (f' x) (g' x)) :
  Matches (checkThen check g next) (fun a => f a >>= fun x => f' x.1 x.2)
    (fun a => g a >>= fun x => g' x.1 x.2)
  := by
  constructor
  case agrees =>
    intro a ha
    obtain ⟨hcheck, hnext⟩ := Bool.and_eq_true_iff.mp ha
    simp only [h.agrees a hcheck]
    cases hg : g a with
    | error b => rfl
    | ok x =>
      rw [hg] at hnext
      apply (h' x.1).agrees x.2 hnext
  case differs =>
    intro a ha
    cases hcheck : check a with
    | false =>
      apply (h.differs a hcheck).mono
      · apply AddsTo.stateOf_bind
        intro x b _
        apply (h' x).adds_left
      · apply AddsTo.stateOf_bind
        intro x b _
        apply (h' x).adds_right
    | true =>
      rw [checkThen, hcheck, Bool.true_and] at ha
      simp only [h.agrees a hcheck]
      cases hg : g a with
      | error b =>
        rw [hg] at ha
        cases ha
      | ok x =>
        rw [hg] at ha
        apply (h' x.1).differs x.2 ha
  case adds_left =>
    intro a
    apply (h.adds_left a).bind
    intro x b _
    apply (h' x).adds_left
  case adds_right =>
    intro a
    apply (h.adds_right a).bind
    intro x b _
    apply (h' x).adds_right

/-- The same after an evaluation on both sides. -/
theorem andThen
    {check : AstState → Bool} {f g : AstState → Except AstState (α × AstState)}
    (h : Matches check f g) (next : AstState → α → AstState → Except AstState (β × AstState))
    (hnext : ∀ a x b, AddsTo b (stateOf (next a x b))) :
  Matches check (fun a => f a >>= fun x => next a x.1 x.2)
    (fun a => g a >>= fun x => next a x.1 x.2)
  := by
  have hadds : ∀ a (out : Except AstState (α × AstState)),
      AddsTo (stateOf out) (stateOf (out >>= fun x => next a x.1 x.2)) := by
    intro a out
    apply AddsTo.stateOf_bind
    intro x b _
    apply hnext
  constructor
  case agrees =>
    intro a ha
    simp only [h.agrees a ha]
  case differs =>
    intro a ha
    apply (h.differs a ha).mono (hadds a _) (hadds a _)
  case adds_left =>
    intro a
    apply (h.adds_left a).trans (hadds a _)
  case adds_right =>
    intro a
    apply (h.adds_right a).trans (hadds a _)

/-- The same after a branch on both sides. -/
theorem branch
    {check : AstState → Bool} {f g : AstState → Except AstState (α × AstState)}
    (h : Matches check f g) (b : Bool) :
  Matches (fun a => check (a.branch b)) (fun a => f (a.branch b)) (fun a => g (a.branch b))
  := by
  constructor
  case agrees =>
    intro a ha
    apply h.agrees _ ha
  case differs =>
    intro a ha
    apply h.differs _ ha
  case adds_left =>
    intro a
    apply (AddsTo.branch a b).trans (h.adds_left _)
  case adds_right =>
    intro a
    apply (AddsTo.branch a b).trans (h.adds_right _)

/-- The application of an operator or a call to operands that the check compares. -/
theorem exec
    {m : Machine} {check : AstState → Bool} {o₁ o₂ : AstState → Operands} (op : IrOp)
    (cmp : IrCmpKind) (h : ∀ a, check a = true ↔ o₁ a = o₂ a) :
  Matches check (fun a => AstState.exec m op cmp (o₁ a) a)
    (fun a => AstState.exec m op cmp (o₂ a) a)
  := by
  have hlog : ∀ o a, (stateOf (AstState.exec m op cmp o a)).log = a.log ++ [(op, o)] := by
    intro o a
    rw [AstState.exec]
    cases effect m a.trace { op := op, cmpKind := cmp } o <;> rfl
  constructor
  case agrees =>
    intro a ha
    rw [(h a).mp ha]
  case differs =>
    intro a ha
    have hne : o₁ a ≠ o₂ a := by
      intro heq
      rw [(h a).mpr heq] at ha
      cases ha
    use a.log, (op, o₁ a), (op, o₂ a)
    constructor
    · intro heq
      apply hne (Prod.mk.inj heq).2
    · rw [hlog, hlog]
      exact ⟨List.prefix_rfl, List.prefix_rfl⟩
  case adds_left =>
    intro a
    apply adds_exec
  case adds_right =>
    intro a
    apply adds_exec

end Matches

/-! ### Operands that wait -/

section
variable (m : Machine) (vs : Variables)

/-- No local is read by a load. -/
def direct : Nat → Bool := fun _ => false

/-- Every local is read by a load. -/
def loaded : Nat → Bool := fun _ => true

/-- The two lowerings read the same word from a waiting operand. -/
def readsSame (e : Ast) (w : Word) (a : AstState) : Bool :=
  (e.shape vs direct).read w a = (e.shape vs loaded).read w a

/-- The words of the arguments of a call. -/
def evalWords (esc : Nat → Bool) :
    List Ast → AstState → Except AstState (List Word × AstState)
  | [], a => return ([], a)
  | arg :: args, a => do
    let (w, a) ← evalAst m vs esc arg a
    let (ws, a) ← evalWords esc args a
    return (w :: ws, a)

/-- A check of the right operand of a logical operator, if that is evaluated. -/
def steadyShortCircuit (isOr : Bool) (steadyLeft : AstState → Bool) (evalLeft : Eval)
    (steadyRight : AstState → Bool) : AstState → Bool :=
  checkThen steadyLeft evalLeft fun w a =>
    isOr = decide (w ≠ 0) || steadyRight (a.branch (w ≠ 0))

/-- A check of two operands, and of the word of the left one after the right one. -/
def steadyOperands (left : Ast) (steadyLeft : AstState → Bool) (evalLeft : Eval)
    (steadyRight : AstState → Bool) (evalRight : Eval) : AstState → Bool :=
  checkThen steadyLeft evalLeft fun v =>
    checkThen steadyRight evalRight fun _ => readsSame vs left v

mutual

/-- Along the evaluation with loads, every operator and every call reads the same words from
its operands in the two lowerings. -/
def steady : Ast → AstState → Bool
  | .cast _ operand => steady operand
  | .unop _ operand => steady operand
  | .funcall _ _ args =>
    checkThen (steadyArgs args) (evalWords m vs loaded args) fun ws a =>
      (args.zip ws).all fun x => readsSame vs x.1 x.2 a
  | .binop op _ left right =>
    steadyBinOp op left (steady left) (evalAst m vs loaded left) (steady right)
      (evalAst m vs loaded right)
  | .logAnd left right =>
    steadyShortCircuit false (steady left) (evalAst m vs loaded left) (steady right)
  | .logOr left right =>
    steadyShortCircuit true (steady left) (evalAst m vs loaded left) (steady right)
  | .assign _ right => steady right
  | .compoundAssign _ _ right => steady right
  | _ => fun _ => true

/-- The same of `left OP right`. -/
def steadyBinOp (op : AstBinOp) (left : Ast) (steadyLeft : AstState → Bool) (evalLeft : Eval)
    (steadyRight : AstState → Bool) (evalRight : Eval) : AstState → Bool :=
  match left with
  | .binop op₁ s₁ l b =>
    if astIsRangeOperator op ∧ astIsRangeOperator op₁ then
      steadyShortCircuit false steadyLeft evalLeft
        (steadyBinOp op b (steady b) (evalAst m vs loaded b) steadyRight evalRight)
    else steadyOperands vs (.binop op₁ s₁ l b) steadyLeft evalLeft steadyRight evalRight
  | left => steadyOperands vs left steadyLeft evalLeft steadyRight evalRight

/-- The same of the arguments of a call, in order. -/
def steadyArgs : List Ast → AstState → Bool
  | [] => fun _ => true
  | arg :: args =>
    checkThen (steady arg) (evalAst m vs loaded arg) fun _ => steadyArgs args

end

end

section
variable {m : Machine} {vs : Variables}

/-- The arguments of a call are their words with their shapes. -/
theorem evalArgs_eq (esc : Nat → Bool) (args : List Ast) (a : AstState) :
  evalArgs m vs esc args a
    = evalWords m vs esc args a >>= fun x =>
        .ok ((args.map (Ast.shape vs esc)).zip x.1, x.2)
  := by
  induction args generalizing a with
  | nil => rfl
  | cons arg args ih =>
    rw [evalArgs, evalWords]
    cases evalAst m vs esc arg a with
    | error b => rfl
    | ok x =>
      have hargs := ih x.2
      cases hwords : evalWords m vs esc args x.2 with
      | error b =>
        rw [hwords] at hargs
        change Except.bind (evalArgs m vs esc args x.2) _
          = Except.bind (Except.bind (evalWords m vs esc args x.2) _) _
        rw [hargs, hwords]
        rfl
      | ok y =>
        rw [hwords] at hargs
        change Except.bind (evalArgs m vs esc args x.2) _
          = Except.bind (Except.bind (evalWords m vs esc args x.2) _) _
        rw [hargs, hwords]
        rfl

/-- An assignment of a value that is no phi is no phi. -/
theorem Shape.assigned_ne_phi {sh : Shape} (h : sh ≠ .phi) (pinned : Bool) (id : Nat) :
  sh.assigned pinned id ≠ .phi
  := by
  cases sh
  case produced => cases pinned <;> nofun
  all_goals apply h

/-- The shape of a phi, which does not depend on the lowering of reads. -/
theorem shape_eq_phi_iff (esc : Nat → Bool) : ∀ e : Ast,
  e.shape vs esc = .phi ↔ e.isPhi
  | .cast _ operand => shape_eq_phi_iff esc operand
  | .unop .plus operand => shape_eq_phi_iff esc operand
  | .binop op issigned left right => by
    rw [Ast.shape, Ast.isPhi]
    split
    case isTrue h => simp [h]
    case isFalse h => simp [h]
  | .logAnd _ _ | .logOr _ _ => ⟨fun _ => rfl, fun _ => rfl⟩
  | .assign left right => by
    constructor
    · intro h
      cases Shape.assigned_ne_phi (Shape.widened_ne_phi _) _ _ h
    · nofun
  | .compoundAssign _ left _ => by
    constructor
    · intro h
      cases @Shape.assigned_ne_phi .produced nofun _ _ h
    · nofun
  | .lvar var => by
    rw [Ast.shape]
    split
    · simp [Ast.isPhi]
    · simp [Ast.isPhi]
  | .unop .minus _ | .unop .bitNot _ | .unop .logNot _ | .literal _ => ⟨nofun, nofun⟩
  | .funcall _ _ _ | .incDec _ _ => ⟨nofun, nofun⟩

/-- The widening of an assigned value does not depend on the lowering of reads. -/
theorem evalWiden_shape (esc esc' : Nat → Bool) (e : Ast) (srcSigned : Bool) (w : Word) :
  evalWiden m (e.shape vs esc) srcSigned w = evalWiden m (e.shape vs esc') srcSigned w
  := by
  funext a
  rw [evalWiden, evalWiden]
  simp only [shape_eq_phi_iff]

/-! ### The two lowerings -/

/-- A logical operator. -/
theorem Matches.shortCircuit
    {steadyLeft steadyRight : AstState → Bool} {f g f' g' : Eval} (isOr : Bool)
    (h : Matches steadyLeft f g) (h' : Matches steadyRight f' g') :
  Matches (steadyShortCircuit isOr steadyLeft g steadyRight) (evalShortCircuit isOr f f')
    (evalShortCircuit isOr g g')
  := by
  have hright : ∀ w : Word,
      Matches (fun a => isOr = decide (w ≠ 0) || steadyRight (a.branch (w ≠ 0)))
        (fun a =>
          if isOr = decide (w ≠ 0) then .ok (Word.ofBool isOr, a.branch (w ≠ 0))
          else f' (a.branch (w ≠ 0)) >>= fun x => .ok (lowByte x.1, x.2))
        (fun a =>
          if isOr = decide (w ≠ 0) then .ok (Word.ofBool isOr, a.branch (w ≠ 0))
          else g' (a.branch (w ≠ 0)) >>= fun x => .ok (lowByte x.1, x.2)) := by
    intro w
    by_cases hdec : isOr = decide (w ≠ 0)
    · simp only [hdec, decide_true, Bool.true_or, if_true]
      apply Matches.refl
      intro a
      apply AddsTo.branch
    · simp only [hdec, decide_false, Bool.false_or, if_false]
      have hbyte := h'.andThen (fun _ w b => .ok (lowByte w, b)) fun _ _ b => AddsTo.refl b
      apply hbyte.branch
  exact h.bind hright

/-- An operator, whose left operand waits for the right one. -/
theorem Matches.operands
    {steadyLeft steadyRight : AstState → Bool} {f g f' g' : Eval} (op : AstBinOp)
    (issigned : Bool) (left : Ast) (h : Matches steadyLeft f g) (h' : Matches steadyRight f' g') :
  Matches (steadyOperands vs left steadyLeft g steadyRight g')
    (evalOperands m op issigned (left.shape vs direct) f f')
    (evalOperands m op issigned (left.shape vs loaded) g g')
  := by
  have hexec : ∀ v w : Word, Matches (readsSame vs left v)
      (fun a => exec₂ m (op.toIr issigned).1 (op.toIr issigned).2
        ((left.shape vs direct).read v a) w a)
      (fun a => exec₂ m (op.toIr issigned).1 (op.toIr issigned).2
        ((left.shape vs loaded).read v a) w a) := by
    intro v w
    apply Matches.exec
    intro a
    simp [readsSame]
  exact h.bind fun v => h'.bind fun w => hexec v w

/-- A unary operator. -/
theorem Matches.unOp
    {check : AstState → Bool} {f g : Eval} (h : Matches check f g) (op : AstUnOp) :
  Matches check (evalUnOp m op f) (evalUnOp m op g)
  := by
  cases op with
  | plus => exact h.andThen (fun _ w a => .ok (w, a)) fun _ _ a => AddsTo.refl a
  | minus => exact h.andThen (fun _ => exec₁ m .ineg) fun _ _ => adds_exec m _ _ _
  | bitNot => exact h.andThen (fun _ => exec₁ m .not) fun _ _ => adds_exec m _ _ _
  | logNot =>
    exact h.andThen (fun _ w => exec₂ m .icmp .eq w 0) fun _ _ => adds_exec m _ _ _

/-- An assignment. -/
theorem Matches.assign
    {check : AstState → Bool} {f g : Eval} (h : Matches check f g) (id : Nat) (e : Ast)
    (srcSigned : Bool) :
  Matches check (evalAssign m id (e.shape vs direct) srcSigned f)
    (evalAssign m id (e.shape vs loaded) srcSigned g)
  := by
  have hshape : evalAssign m id (e.shape vs direct) srcSigned f
      = evalAssign m id (e.shape vs loaded) srcSigned f := by
    funext a
    simp only [evalAssign, evalWiden_shape direct loaded]
  have hadds : ∀ (a : AstState) w b, AddsTo b
      (stateOf (evalWiden m (e.shape vs loaded) srcSigned w b >>= fun x =>
        .ok (x.1, x.2.setLocal id x.1))) := by
    intro a w b
    apply (adds_evalWiden m _ _ w b).bind
    intro w b _
    apply AddsTo.setLocal
  rw [hshape]
  exact h.andThen _ hadds

/-- A compound assignment. -/
theorem Matches.compoundAssign
    {check : AstState → Bool} {f g : Eval} (h : Matches check f g) (op : IrOp) (id : Nat) :
  Matches check (evalCompoundAssign m op id f) (evalCompoundAssign m op id g)
  := by
  have hadds : ∀ (a : AstState) w b, AddsTo b
      (stateOf (exec₂ m op .eq (a.locals id) w b >>= fun x =>
        .ok (x.1, x.2.setLocal id x.1))) := by
    intro a w b
    apply (adds_exec m _ _ _ b).bind
    intro w b _
    apply AddsTo.setLocal
  exact h.andThen _ hadds

/-- The operands of a call agree when every argument does. -/
theorem zip_all_iff (args : List Ast) (ws : List Word) (a : AstState) :
  (args.zip ws).all (fun x => readsSame vs x.1 x.2 a) = true
    ↔ ((args.map (Ast.shape vs direct)).zip ws).map (fun x => x.1.read x.2 a)
      = ((args.map (Ast.shape vs loaded)).zip ws).map (fun x => x.1.read x.2 a)
  := by
  induction args generalizing ws with
  | nil => simp
  | cons arg args ih =>
    cases ws with
    | nil => simp
    | cons w ws =>
      rw [List.zip_cons_cons, List.all_cons, Bool.and_eq_true_iff, ih ws]
      simp [readsSame]

/-- A call, whose arguments wait for each other. -/
theorem Matches.fnCall
    {steadyWords : AstState → Bool} {args : List Ast} (fname : Word)
    (h : Matches steadyWords (evalWords m vs direct args) (evalWords m vs loaded args)) :
  Matches
    (checkThen steadyWords (evalWords m vs loaded args) fun ws a =>
      (args.zip ws).all fun x => readsSame vs x.1 x.2 a)
    (evalFnCall m fname (evalArgs m vs direct args))
    (evalFnCall m fname (evalArgs m vs loaded args))
  := by
  have hexec : ∀ ws : List Word,
      Matches (fun a => (args.zip ws).all fun x => readsSame vs x.1 x.2 a)
        (fun a => AstState.exec m .call .eq
          ⟨none, m.operand a.trace (callWrapper fname), none, none,
            ((args.map (Ast.shape vs direct)).zip ws).map fun x => x.1.read x.2 a⟩ a)
        (fun a => AstState.exec m .call .eq
          ⟨none, m.operand a.trace (callWrapper fname), none, none,
            ((args.map (Ast.shape vs loaded)).zip ws).map fun x => x.1.read x.2 a⟩ a) := by
    intro ws
    apply Matches.exec
    intro a
    rw [zip_all_iff, Operands.mk.injEq]
    simp
  have hcall : ∀ esc, evalFnCall m fname (evalArgs m vs esc args) = fun a =>
      evalWords m vs esc args a >>= fun x => AstState.exec m .call .eq
        ⟨none, m.operand x.2.trace (callWrapper fname), none, none,
          ((args.map (Ast.shape vs esc)).zip x.1).map fun y => y.1.read y.2 x.2⟩ x.2 := by
    intro esc
    funext a
    rw [evalFnCall, evalArgs_eq]
    cases evalWords m vs esc args a <;> rfl
  rw [hcall, hcall]
  exact h.bind hexec

mutual

/-- The two lowerings of an expression agree where it is steady. -/
theorem matches_evalAst : ∀ e : Ast,
  Matches (steady m vs e) (evalAst m vs direct e) (evalAst m vs loaded e)
  | .literal i64 => Matches.refl (adds_evalAst m vs direct (.literal i64))
  | .lvar var => Matches.refl (adds_evalAst m vs direct (.lvar var))
  | .incDec op operand => Matches.refl (adds_evalAst m vs direct (.incDec op operand))
  | .cast _ operand => matches_evalAst operand
  | .funcall fname _ args => (matches_evalWords args).fnCall fname
  | .unop op operand => (matches_evalAst operand).unOp op
  | .binop op issigned left right =>
    matches_evalBinOp left op issigned (matches_evalAst left) (matches_evalAst right)
  | .logAnd left right => (matches_evalAst left).shortCircuit false (matches_evalAst right)
  | .logOr left right => (matches_evalAst left).shortCircuit true (matches_evalAst right)
  | .assign left right => (matches_evalAst right).assign left.id right right.issigned
  | .compoundAssign op left right =>
    (matches_evalAst right).compoundAssign (irCompoundAssignToIrOp op left.issigned) left.id

theorem matches_evalBinOp : ∀ (left : Ast) (op : AstBinOp) (issigned : Bool)
    {steadyLeft steadyRight : AstState → Bool} {f g f' g' : Eval},
    Matches steadyLeft f g → Matches steadyRight f' g' →
  Matches (steadyBinOp m vs op left steadyLeft g steadyRight g')
    (evalBinOp m vs direct op issigned left f f') (evalBinOp m vs loaded op issigned left g g')
  | .binop op₁ s₁ l b, op, issigned, _, _, _, _, _, _, h, h' => by
    have hb := matches_evalBinOp b op true (matches_evalAst b) h'
    rw [steadyBinOp, evalBinOp, evalBinOp]
    split
    · apply h.shortCircuit false hb
    · apply h.operands op issigned _ h'
  | .literal _, op, issigned, _, _, _, _, _, _, h, h' => h.operands op issigned _ h'
  | .lvar _, op, issigned, _, _, _, _, _, _, h, h' => h.operands op issigned _ h'
  | .cast _ _, op, issigned, _, _, _, _, _, _, h, h' => h.operands op issigned _ h'
  | .funcall _ _ _, op, issigned, _, _, _, _, _, _, h, h' => h.operands op issigned _ h'
  | .unop _ _, op, issigned, _, _, _, _, _, _, h, h' => h.operands op issigned _ h'
  | .incDec _ _, op, issigned, _, _, _, _, _, _, h, h' => h.operands op issigned _ h'
  | .logAnd _ _, op, issigned, _, _, _, _, _, _, h, h' => h.operands op issigned _ h'
  | .logOr _ _, op, issigned, _, _, _, _, _, _, h, h' => h.operands op issigned _ h'
  | .assign _ _, op, issigned, _, _, _, _, _, _, h, h' => h.operands op issigned _ h'
  | .compoundAssign _ _ _, op, issigned, _, _, _, _, _, _, h, h' => h.operands op issigned _ h'

theorem matches_evalWords : ∀ args : List Ast,
  Matches (steadyArgs m vs args) (evalWords m vs direct args) (evalWords m vs loaded args)
  | [] => Matches.refl AddsTo.refl
  | arg :: args => by
    have hargs := fun w : Word => (matches_evalWords args).andThen
      (fun _ ws b => .ok (w :: ws, b)) fun _ _ b => AddsTo.refl b
    exact (matches_evalAst arg).bind hargs

end

/-! ### The code of the two lowerings -/

/-- The lowering of an expression and a return of its value. -/
def irLowerValue (e : Ast) (ctx : IrCtx) : IrCtx :=
  let (val, ctx) := irExpr e ctx
  ctx.irBlockAddInstr { op := .ret, dst := val }

/-- The run from the place `p` returns the word of an evaluation in its state, or is stuck at
its trap. -/
def ReturnsAs (m : Machine) (F : IrFunction) (vs : Variables) (p : Point) (s : SizedStore) :
    Except AstState (Word × AstState) → Prop :=
  EndsAs (fun w => [.ret (some w)]) m F vs p s

/-- A run returns one word only. -/
theorem ReturnsAs.unique
    {F : IrFunction} {p : Point} {s : SizedStore} {x y : Except AstState (Word × AstState)}
    (hx : ReturnsAs m F vs p s x) (hy : ReturnsAs m F vs p s y) :
  x = y
  := by
  apply EndsAs.unique _ _ hx hy
  · intro v w
    rfl
  · intro v w h
    cases h
    rfl

/-- The code of an expression returns what the evaluator yields. -/
theorem returnsAs_evalAst
    {esc : Nat → Bool} {c : IrCtx} (hc : c.For vs esc) (entry : Nat) (e : Ast)
    (s : SizedStore) :
  ReturnsAs m ((irLowerValue e c).function entry) vs c.point s
    (evalAst m vs esc e (s.view vs))
  := by
  have hl := @lowers_irExpr m vs esc e
  have h₁ := hl.grows c hc
  have hF := completes_function (irLowerValue e c) entry
  have hret := hF.instrAt h₁.ok
  have hadd : Grows 0 (irExpr e c).2 (irLowerValue e c) :=
    grows_irBlockAddInstr h₁.ok (by simp)
  have hrun := hl.runs c hc _ s (hadd.completes _ hF)
  cases hout : evalAst m vs esc e (s.view vs) with
  | error a =>
    rw [hout] at hrun
    apply hrun
  | ok x =>
    obtain ⟨w, a⟩ := x
    rw [hout] at hrun
    obtain ⟨s₁, hreach, rfl, -, rfl⟩ := hrun
    exact ⟨_, hreach.trans (reaches_ret hret s₁), rfl⟩

/-- The context of the other lowering. -/
theorem for_loaded {c : IrCtx} (hc : c.For vs direct) :
  IrCtx.For vs loaded { c with escape := loaded }
  := ⟨⟨hc.ok.cur_mem, hc.ok.lt⟩, hc.vars, rfl⟩

/-- Direct reads compute what loads compute, exactly when the expression is steady. -/
theorem returnsAs_direct_iff_steady
    {c : IrCtx} (hc : c.For vs direct) (entry : Nat) (e : Ast) (s : SizedStore) :
  (∃ out, ReturnsAs m ((irLowerValue e c).function entry) vs c.point s out
      ∧ ReturnsAs m ((irLowerValue e { c with escape := loaded }).function entry) vs c.point s
          out)
    ↔ steady m vs e (s.view vs) = true
  := by
  have hdirect := returnsAs_evalAst (m := m) hc entry e s
  have hloaded := returnsAs_evalAst (m := m) (for_loaded hc) entry e s
  have hmatches := @matches_evalAst m vs e
  constructor
  · rintro ⟨out, h, h'⟩
    by_contra hsteady
    apply (hmatches.differs _ (by simpa using hsteady)).ne
    rw [hdirect.unique h]
    apply h'.unique hloaded
  · intro hsteady
    use evalAst m vs direct e (s.view vs), hdirect
    rw [hmatches.agrees _ hsteady]
    apply hloaded

/-- A sum of two locals. -/
theorem returnsAs_direct_iff_steady_locals :
  (Variables.locals.start direct).For .locals direct
    ∧ ((∃ out,
        ReturnsAs zeroMachine
          ((irLowerValue (.binop .add true (.lvar ⟨0, true⟩) (.lvar ⟨1, true⟩))
            (Variables.locals.start direct)).function 0) .locals (0, 0) ⟨fun _ => 1, [], []⟩ out
        ∧ ReturnsAs zeroMachine
          ((irLowerValue (.binop .add true (.lvar ⟨0, true⟩) (.lvar ⟨1, true⟩))
            { Variables.locals.start direct with escape := loaded }).function 0) .locals (0, 0)
          ⟨fun _ => 1, [], []⟩ out)
      ↔ steady zeroMachine .locals (.binop .add true (.lvar ⟨0, true⟩) (.lvar ⟨1, true⟩))
          ⟨fun _ => 1, [], []⟩ = true)
  := ⟨Variables.for_start .locals direct,
    returnsAs_direct_iff_steady (Variables.for_start .locals direct) 0 _ ⟨fun _ => 1, [], []⟩⟩

/-- For `x = 1` the value of `x + (x = 5)` is 10 with direct reads and 6 with loads. -/
theorem not_returnsAs_direct :
  (evalAst zeroMachine .locals direct
      (.binop .add true (.lvar ⟨0, true⟩) (.assign ⟨0, true⟩ (.literal 5)))
      ⟨fun _ => 1, [], []⟩).map Prod.fst = .ok 10
    ∧ (evalAst zeroMachine .locals loaded
      (.binop .add true (.lvar ⟨0, true⟩) (.assign ⟨0, true⟩ (.literal 5)))
      ⟨fun _ => 1, [], []⟩).map Prod.fst = .ok 6
    ∧ ¬ ∃ out,
      ReturnsAs zeroMachine
        ((irLowerValue (.binop .add true (.lvar ⟨0, true⟩) (.assign ⟨0, true⟩ (.literal 5)))
          (Variables.locals.start direct)).function 0) .locals (0, 0) ⟨fun _ => 1, [], []⟩ out
      ∧ ReturnsAs zeroMachine
        ((irLowerValue (.binop .add true (.lvar ⟨0, true⟩) (.assign ⟨0, true⟩ (.literal 5)))
          { Variables.locals.start direct with escape := loaded }).function 0) .locals (0, 0)
        ⟨fun _ => 1, [], []⟩ out
  := by
  constructor
  · rfl
  constructor
  · rfl
  · rintro ⟨out, h, h'⟩
    have hdirect := returnsAs_evalAst (m := zeroMachine)
      (Variables.for_start .locals direct) 0
      (.binop .add true (.lvar ⟨0, true⟩) (.assign ⟨0, true⟩ (.literal 5)))
      ⟨fun _ => 1, [], []⟩
    have hloaded := returnsAs_evalAst (m := zeroMachine)
      (for_loaded (Variables.for_start .locals direct)) 0
      (.binop .add true (.lvar ⟨0, true⟩) (.assign ⟨0, true⟩ (.literal 5)))
      ⟨fun _ => 1, [], []⟩
    apply ((matches_evalAst _).differs _ _).ne ((hdirect.unique h).trans (h'.unique hloaded))
    decide

end

end Polyc
