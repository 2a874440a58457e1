import Polyc.Ir.Semantics

/-!
# Runs with the widths of destinations

A value is stored at the width of its destination and read back as the back end for x86-64
reads it: one and two bytes are extended by zeros, four by the sign.  A run also keeps a log
of the operands that its operators and calls receive.  Of a branch only the direction shows.
-/

namespace Polyc

/-- What is read back after a word has been stored to a destination. -/
def IrValue.stored (d : IrValue) (w : Word) : Word :=
  match irValueByteSize (some d) with
  | 1 => (w.setWidth 8).setWidth 64
  | 2 => (w.setWidth 16).setWidth 64
  | 4 => (w.setWidth 32).signExtend 64
  | _ => w

/-- An instruction that computes a value or calls: not a move between places, not a jump,
and not the comparison with zero that makes the predicate of a branch. -/
def IrInstr.computes (I : IrInstr) : Bool :=
  match I.op with
  | .nop | .label | .phi | .jmp | .alloca | .load | .store | .br | .cmpBr | .ret => false
  | .icmp => I.dst.all fun d => d.type ≠ .i8
  | _ => true

/-- The opcode and the operands of an operator or a call. -/
abbrev LogEntry := IrOp × Operands

/-- An environment, the events and the operands so far. -/
structure SizedStore where
  env : Env
  trace : List Event
  log : List LogEntry

/-- The entry that an instruction adds to the log. -/
def IrInstr.entry (I : IrInstr) (o : Operands) : List LogEntry :=
  if I.computes then [(I.op, o)] else []

/-- The effect of an instruction; a branch shows its direction. -/
def sizedEffect (m : Machine) (tr : List Event) (I : IrInstr) (o : Operands) :
    Option (Option Word × List Event) :=
  match I.op with
  | .br => some (none, [.branch (o.dst.map fun w => Word.ofBool (w ≠ 0))])
  | _ => effect m tr I o

/-- Write a word to a destination at its width. -/
def assignSized (dst : Option IrValue) (w : Option Word) (σ : Env) : Env :=
  assign dst (dst.bind fun d => w.map d.stored) σ

/-- The copies on an edge, each at the width of its destination. -/
def sizedCopy (m : Machine) (tr : List Event) (σ : Env) (copies : List (IrValue × IrValue)) :
    Env :=
  writeAll σ (copies.map fun c => (c.1.key, c.1.stored (valueOf m tr σ c.2)))

/-- Where a run is. -/
inductive SizedConfig where
  | at (p : Point) (s : SizedStore)
  | returned (s : SizedStore)
  | stuck (s : SizedStore)

/-- One step of a run. -/
def sizedStep (m : Machine) (fn : IrFunction) : SizedConfig → SizedConfig
  | .at p s =>
    match fn.instrAt p with
    | none => .stuck s
    | some I =>
      let o := I.operands m s.trace s.env
      let log := s.log ++ I.entry o
      match sizedEffect m s.trace I o with
      | none => .stuck { s with log := log }
      | some (w, es) =>
        let σ := assignSized I.dst w s.env
        let tr := s.trace ++ es
        match I.next p es with
        | none => .returned ⟨σ, tr, log⟩
        | some q => .at q ⟨sizedCopy m tr σ (fn.edgeCopies p q I), tr, log⟩
  | c => c

/-- A run of `n` steps. -/
def sizedRun (m : Machine) (fn : IrFunction) : Nat → SizedConfig → SizedConfig
  | 0, c => c
  | n + 1, c => sizedRun m fn n (sizedStep m fn c)

/-- A run goes from one place to another. -/
def Reaches (m : Machine) (fn : IrFunction) (c c' : SizedConfig) : Prop :=
  ∃ n, sizedRun m fn n c = c'

/-- A run that is over. -/
def SizedConfig.isFinal : SizedConfig → Bool
  | .at .. => false
  | _ => true

namespace Reaches

variable {m : Machine} {fn : IrFunction}

theorem refl (c : SizedConfig) :
  Reaches m fn c c
  := by
  use 0
  rfl

/-- One step. -/
theorem step (c : SizedConfig) :
  Reaches m fn c (sizedStep m fn c)
  := by
  use 1
  rfl

theorem trans {a b c : SizedConfig} (hab : Reaches m fn a b) (hbc : Reaches m fn b c) :
  Reaches m fn a c
  := by
  obtain ⟨k, hk⟩ := hab
  obtain ⟨n, hn⟩ := hbc
  use k + n
  induction k generalizing a with
  | zero =>
    rw [Nat.zero_add, ← hn, ← hk]
    rfl
  | succ k ih =>
    rw [Nat.succ_add]
    apply ih hk

/-- A run that is over stays where it is. -/
theorem eq_of_isFinal {c c' : SizedConfig} (h : Reaches m fn c c') (hc : c.isFinal) :
  c' = c
  := by
  obtain ⟨n, rfl⟩ := h
  induction n with
  | zero => rfl
  | succ n ih =>
    cases c with
    | «at» p s => cases hc
    | returned s => apply ih
    | stuck s => apply ih

/-- Of two places that a run comes to, one comes after the other. -/
theorem total {a b c : SizedConfig} (hb : Reaches m fn a b) (hc : Reaches m fn a c) :
  Reaches m fn b c ∨ Reaches m fn c b
  := by
  obtain ⟨k, hk⟩ := hb
  obtain ⟨n, hn⟩ := hc
  induction k generalizing a n with
  | zero =>
    left
    use n
    rw [← hk, ← hn]
    rfl
  | succ k ih =>
    cases n with
    | zero =>
      right
      use k + 1
      rw [← hn, ← hk]
      rfl
    | succ n => apply ih hk n hn

/-- A run is over in one way only. -/
theorem final_unique {a b c : SizedConfig} (hb : Reaches m fn a b) (hc : Reaches m fn a c)
    (fb : b.isFinal) (fc : c.isFinal) :
  b = c
  := by
  rcases hb.total hc with h | h
  · rw [h.eq_of_isFinal fb]
  · rw [h.eq_of_isFinal fc]

end Reaches

/-! ### Steps -/

section
variable {m : Machine} {fn : IrFunction} {p : Point} {I : IrInstr}

/-- An instruction that does not leave its block. -/
theorem sizedStep_straight
    (hI : fn.instrAt p = some I) (hjump : I.op.isJump = false) (hret : I.op ≠ .ret)
    (s : SizedStore) :
  sizedStep m fn (.at p s) =
    match effect m s.trace I (I.operands m s.trace s.env) with
    | none => .stuck { s with log := s.log ++ I.entry (I.operands m s.trace s.env) }
    | some (w, es) =>
      .at (p.1, p.2 + 1)
        ⟨assignSized I.dst w s.env, s.trace ++ es,
          s.log ++ I.entry (I.operands m s.trace s.env)⟩
  := by
  have heffect : sizedEffect m s.trace I (I.operands m s.trace s.env)
      = effect m s.trace I (I.operands m s.trace s.env) := by
    cases hop : I.op <;> simp [hop, IrOp.isJump, sizedEffect] at hjump ⊢
  have hnext : ∀ es, I.next p es = some (p.1, p.2 + 1) := by
    intro es
    cases hop : I.op <;> simp [hop, IrOp.isJump, IrInstr.next] at hjump hret ⊢
  have hcopies : ∀ q, fn.edgeCopies p q I = [] := by
    intro q
    rw [IrFunction.edgeCopies, hjump]
    rfl
  simp only [sizedStep, hI, heffect]
  cases effect m s.trace I (I.operands m s.trace s.env) with
  | none => rfl
  | some r => simp only [hnext, hcopies, sizedCopy, List.map_nil, writeAll, List.foldl_nil]

/-- A jump. -/
theorem sizedStep_jmp
    {target : Nat} (hI : fn.instrAt p = some { op := .jmp, targetBlock := target })
    (s : SizedStore) :
  sizedStep m fn (.at p s) =
    .at (target, 0)
      { s with
        env := sizedCopy m s.trace s.env
          (fn.edgeCopies p (target, 0) { op := .jmp, targetBlock := target }) }
  := by
  have hentry : ∀ o, IrInstr.entry { op := .jmp, targetBlock := target } o = [] := by
    intro o
    rfl
  simp only [sizedStep, hI, sizedEffect, effect, IrInstr.next, hentry, List.append_nil]
  rfl

/-- The instruction of a branch. -/
def brInstr (cond : IrValue) (t f : Nat) : IrInstr :=
  { op := .br, dst := cond, targetBlock := t, fallthroughBlock := f }

/-- A branch, by the word of its condition. -/
theorem sizedStep_br
    {cond : IrValue} {t f : Nat} (hI : fn.instrAt p = some (brInstr cond t f)) (s : SizedStore)
    {b : Bool} (hb : decide (valueOf m s.trace s.env cond ≠ 0) = b) :
  sizedStep m fn (.at p s) =
    .at (if b then t else f, 0)
      { s with
        env := sizedCopy m (s.trace ++ [.branch (some (Word.ofBool b))]) s.env
          (fn.edgeCopies p (if b then t else f, 0) (brInstr cond t f))
        trace := s.trace ++ [.branch (some (Word.ofBool b))] }
  := by
  have hdst : ((brInstr cond t f).operands m s.trace s.env).dst
      = some (valueOf m s.trace s.env cond) := rfl
  have heffect : sizedEffect m s.trace (brInstr cond t f)
      ((brInstr cond t f).operands m s.trace s.env)
      = some (none, [.branch (some (Word.ofBool b))]) := by
    rw [← hb, sizedEffect, brInstr]
    simp only [IrInstr.operands, IrOp.readsDst, if_true, Option.map_some]
  have htaken : taken [.branch (some (Word.ofBool b))] = b := by cases b <;> rfl
  have hentry : ∀ o, (brInstr cond t f).entry o = [] := by
    intro o
    rfl
  simp only [sizedStep, hI, heffect, hentry, List.append_nil]
  simp only [IrInstr.next, brInstr, htaken, assignSized]
  rfl

/-- There are no copies on an edge into a block without phis. -/
theorem edgeCopies_of_noPhi
    {q : Point} {l : List IrInstr} (hq : fn.findBlock q.1 = some ⟨q.1, l⟩)
    (hl : ∀ J ∈ l, J.op ≠ .phi) :
  fn.edgeCopies p q I = []
  := by
  rw [IrFunction.edgeCopies, hq]
  split
  · simp only [phiCopies, leadingPhis_of_noPhi hl, List.filterMap_nil]
  · rfl

/-- The copy on an edge into a block that starts with its only phi. -/
theorem edgeCopies_of_phi
    {q : Point} {J : IrInstr} {l : List IrInstr} {d v : IrValue} (hjump : I.op.isJump)
    (hq : fn.findBlock q.1 = some ⟨q.1, J :: l⟩) (hJ : J.op = .phi)
    (hl : ∀ J ∈ l, J.op ≠ .phi) (hd : J.dst = some d) (hv : phiIncoming p.1 J = some v) :
  fn.edgeCopies p q I = [(d, v)]
  := by
  have hrest : (l.filter (·.op ≠ .nop)).takeWhile (·.op = .phi) = [] :=
    leadingPhis_of_noPhi hl
  have hphis : leadingPhis (J :: l) = [J] := by
    rw [leadingPhis, List.filter_cons_of_pos (by simp [hJ]),
      List.takeWhile_cons_of_pos (by simp [hJ]), hrest]
  rw [IrFunction.edgeCopies, if_pos hjump, hq]
  simp [phiCopies, hphis, hd, hv]

end

/-- Copies of nothing. -/
@[simp]
theorem sizedCopy_nil (m : Machine) (tr : List Event) (σ : Env) :
  sizedCopy m tr σ [] = σ
  := rfl

/-- One copy. -/
theorem sizedCopy_single (m : Machine) (tr : List Event) (σ : Env) (d v : IrValue) :
  sizedCopy m tr σ [(d, v)] = Function.update σ d.key (d.stored (valueOf m tr σ v))
  := rfl

end Polyc
