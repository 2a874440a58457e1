import Mathlib.Logic.Function.Basic
import Polyc.Ir.Types

/-!
# The meaning of the intermediate representation over 8-byte values

An environment gives every `TMP`, `LOCAL` and `PARAM` variable its word; a slot is read and
written only through its variable.  Everything a program can observe is an event: calls,
stores through pointers and to globals, branches and returns, in the order in which they
happen.  What memory, callees and the opcodes outside integer arithmetic answer is a
parameter, the `Machine`, and may depend on all events so far.

Phi copies are made on the edge, at the end of the predecessor, as the back ends
materialise them: all incoming values are read before the first phi is written.
-/

namespace Polyc

/-! ### Variables and environments -/

/-- The kinds whose values are variables. -/
def IrValueKind.isVar : IrValueKind → Bool
  | .tmp | .local | .param => true
  | _ => false

/-- A variable: a kind and an id, which is all that `irValMatchesSlot` compares. -/
structure VarKey where
  kind : IrValueKind
  id : Nat
  deriving DecidableEq

/-- The variable a value stands for. -/
def IrValue.key (v : IrValue) : VarKey := ⟨v.kind, v.varId⟩

/-- The words of the variables. -/
abbrev Env := VarKey → Word

/-! ### Events and machines -/

/-- What a run does to the outside, or shows to it. -/
inductive Event where
  | call (callee fnPtr : Option Word) (args : List Word)
  | storeDeref (addr value : Option Word)
  | rmwDeref (op : IrOp) (addr value : Option Word)
  | storeGlobal (dst : Option IrValue) (value : Option Word)
  | asm (text : Option Word)
  | branch (cond : Option Word)
  | ret (value : Option Word)
  deriving DecidableEq

/-- The outside world and the opcodes that the integer passes leave alone. -/
structure Machine where
  /-- A value that is neither a variable nor an integer constant. -/
  operand : List Event → IrValue → Word
  /-- The address of a slot, displaced. -/
  address : IrValue → Option Word → Word
  /-- The word that memory holds at an address. -/
  loadDeref : List Event → Option Word → Word
  /-- The result of the call that is the last event. -/
  callResult : List Event → Word
  /-- The result of any other opcode. -/
  arith : IrOp → IrCmpKind → Option Word → Option Word → Word

/-- A machine that answers zero. -/
def zeroMachine : Machine where
  operand _ _ := 0
  address _ _ := 0
  loadDeref _ _ := 0
  callResult _ := 0
  arith _ _ _ _ := 0

/-- The word of a value. -/
def valueOf (m : Machine) (tr : List Event) (σ : Env) (v : IrValue) : Word :=
  if v.kind = .constInt then v.as.toI64
  else if v.kind.isVar then σ v.key
  else m.operand tr v

/-! ### Integer arithmetic -/

/-- The truth values of comparisons. -/
def Word.ofBool (b : Bool) : Word := if b then 1 else 0

/-- The integer comparisons; `none` for the comparisons of floats. -/
def intCmp : IrCmpKind → Word → Word → Option Word
  | .eq, a, b => some (Word.ofBool (a = b))
  | .ne, a, b => some (Word.ofBool (a ≠ b))
  | .lt, a, b => some (Word.ofBool (a.toInt < b.toInt))
  | .le, a, b => some (Word.ofBool (a.toInt ≤ b.toInt))
  | .gt, a, b => some (Word.ofBool (b.toInt < a.toInt))
  | .ge, a, b => some (Word.ofBool (b.toInt ≤ a.toInt))
  | .ult, a, b => some (Word.ofBool (a.toNat < b.toNat))
  | .ule, a, b => some (Word.ofBool (a.toNat ≤ b.toNat))
  | .ugt, a, b => some (Word.ofBool (b.toNat < a.toNat))
  | .uge, a, b => some (Word.ofBool (b.toNat ≤ a.toNat))
  | _, _, _ => none

/-- Signed division traps on a zero divisor and on the one quotient out of range. -/
def signedTraps (a b : Word) : Bool := b = 0 ∨ (a = BitVec.intMin 64 ∧ b = -1)

/-- The result of an opcode on its operands; `none` for a trap. -/
def aluResult (m : Machine) (op : IrOp) (cmp : IrCmpKind) :
    Option Word → Option Word → Option Word
  | some a, some b =>
    match op with
    | .iadd => some (a + b)
    | .isub => some (a - b)
    | .imul => some (a * b)
    | .and => some (a &&& b)
    | .or => some (a ||| b)
    | .xor => some (a ^^^ b)
    | .idiv => if signedTraps a b then none else some (a.sdiv b)
    | .irem => if signedTraps a b then none else some (a.srem b)
    | .udiv => if b = 0 then none else some (a / b)
    | .urem => if b = 0 then none else some (a % b)
    | .shl => if b.toNat < 64 then some (a <<< b.toNat) else some (m.arith op cmp a b)
    | .shr => if b.toNat < 64 then some (a >>> b.toNat) else some (m.arith op cmp a b)
    | .sar => if b.toNat < 64 then some (a.sshiftRight b.toNat) else some (m.arith op cmp a b)
    | .icmp => some ((intCmp cmp a b).getD (m.arith op cmp a b))
    | _ => some (m.arith op cmp a b)
  | a, b => some (m.arith op cmp a b)

/-! ### Instructions -/

/-- The words of the operands of an instruction. -/
structure Operands where
  dst : Option Word
  r1 : Option Word
  r2 : Option Word
  idx : Option Word
  args : List Word
  deriving DecidableEq

/-- The opcodes that carry an operand in `dst`. -/
def IrOp.readsDst : IrOp → Bool
  | .br | .ret | .storeDeref | .rmwDeref => true
  | _ => false

/-- The opcodes that read the word of `r1`. -/
def IrOp.readsR1 : IrOp → Bool
  | .nop | .label | .phi | .jmp | .alloca | .lea | .gep | .br | .ret => false
  | _ => true

/-- The opcodes that read the word of `r2`. -/
def IrOp.readsR2 : IrOp → Bool
  | .nop | .label | .phi | .jmp | .alloca | .lea | .br | .ret => false
  | .load | .store | .loadDeref | .storeDeref | .rmwDeref | .asm => false
  | _ => true

/-- The opcodes that read the word of `idx`. -/
def IrOp.readsIdx : IrOp → Bool
  | .loadDeref | .storeDeref | .rmwDeref => true
  | _ => false

/-- The operands of an instruction in an environment, as far as its opcode reads them. -/
def IrInstr.operands (m : Machine) (tr : List Event) (σ : Env) (I : IrInstr) : Operands where
  dst := if I.op.readsDst then I.dst.map (valueOf m tr σ) else none
  r1 := if I.op.readsR1 then I.r1.map (valueOf m tr σ) else none
  r2 := if I.op.readsR2 then I.r2.map (valueOf m tr σ) else none
  idx := if I.op.readsIdx then I.idx.map (valueOf m tr σ) else none
  args := if I.op = .call then I.args.map (valueOf m tr σ) else []

/-- The effective address `disp(base, idx, scale)`. -/
def effectiveAddress (I : IrInstr) (base idx : Option Word) : Option Word :=
  base.map fun b => b + BitVec.ofInt 64 I.disp + BitVec.ofNat 64 I.scale * idx.getD 0

/-- What an instruction does with its operands: the word for its destination, if it writes
one, and its events.  `none` is a trap. -/
def effect (m : Machine) (tr : List Event) (I : IrInstr) (o : Operands) :
    Option (Option Word × List Event) :=
  match I.op with
  | .nop | .label | .phi | .jmp | .alloca => some (none, [])
  | .load => some (o.r1, [])
  | .store =>
    match I.dst with
    | some d => if d.kind.isVar then some (o.r1, []) else some (none, [.storeGlobal I.dst o.r1])
    | none => some (none, [])
  | .lea => some (I.r1.map fun v => m.address v none, [])
  | .gep => some (I.r1.map fun v => m.address v o.r2, [])
  | .loadDeref => some (some (m.loadDeref tr (effectiveAddress I o.r1 o.idx)), [])
  | .storeDeref => some (none, [.storeDeref (effectiveAddress I o.dst o.idx) o.r1])
  | .rmwDeref => some (none, [.rmwDeref I.rmwOp (effectiveAddress I o.dst o.idx) o.r1])
  | .call =>
    let e := Event.call o.r1 o.r2 o.args
    some (some (m.callResult (tr ++ [e])), [e])
  | .asm => some (none, [.asm o.r1])
  | .br => some (none, [.branch o.dst])
  | .cmpBr => (aluResult m .icmp I.cmpKind o.r1 o.r2).map fun w => (none, [.branch (some w)])
  | .ret => some (none, [.ret o.dst])
  | op => (aluResult m op I.cmpKind o.r1 o.r2).map fun w => (some w, [])

/-- Write a word to a destination, when there are both. -/
def assign (dst : Option IrValue) (w : Option Word) (σ : Env) : Env :=
  match dst, w with
  | some d, some w => Function.update σ d.key w
  | _, _ => σ

/-- An environment and the events so far. -/
structure Store where
  env : Env
  trace : List Event

/-- Execute one instruction; control transfers only leave their event.  `none` is a trap. -/
def execInstr (m : Machine) (I : IrInstr) (s : Store) : Option Store :=
  (effect m s.trace I (I.operands m s.trace s.env)).map fun r =>
    ⟨assign I.dst r.1 s.env, s.trace ++ r.2⟩

/-- Execute the instructions of a block in order; an error is the state at a trap. -/
def execInstrs (m : Machine) : List IrInstr → Store → Except Store Store
  | [], s => .ok s
  | I :: l, s =>
    match execInstr m I s with
    | none => .error s
    | some s' => execInstrs m l s'

/-! ### What an instruction leaves alone -/

/-- The opcodes that write the variable of their destination. -/
def IrOp.writesDst : IrOp → Bool
  | .nop | .label | .phi | .jmp | .alloca | .storeDeref | .rmwDeref | .asm | .br | .cmpBr
  | .ret => false
  | _ => true

/-- The instruction may change the word of a variable. -/
def IrInstr.writes (I : IrInstr) (k : VarKey) : Bool :=
  I.op.writesDst && I.dst.any (·.key = k)

/-- Variables and integer constants: the values that memory and globals do not reach. -/
def IrValue.isPlain (v : IrValue) : Bool := v.kind = .constInt || v.kind.isVar

/-- The word of a variable is what the environment says. -/
theorem valueOf_of_isVar
    {m : Machine} {tr : List Event} {σ : Env} {v : IrValue} (h : v.kind.isVar) :
  valueOf m tr σ v = σ v.key
  := by
  have hc : v.kind ≠ .constInt := by
    intro e
    rw [e] at h
    cases h
  rw [valueOf, if_neg hc, if_pos h]

/-- The word of an integer constant does not depend on the state. -/
theorem valueOf_of_constInt
    {m : Machine} {tr : List Event} {σ : Env} {v : IrValue} (h : v.kind = .constInt) :
  valueOf m tr σ v = v.as.toI64
  := if_pos h

/-- The word of a plain value depends on the environment at its variable only. -/
theorem valueOf_congr
    {m : Machine} {tr tr' : List Event} {σ τ : Env} {v : IrValue} (hv : v.isPlain)
    (h : v.kind.isVar → σ v.key = τ v.key) :
  valueOf m tr σ v = valueOf m tr' τ v
  := by
  by_cases hk : v.kind.isVar
  · rw [valueOf_of_isVar hk, valueOf_of_isVar hk, h hk]
  · have hc : v.kind = .constInt := by simpa [IrValue.isPlain, hk] using hv
    rw [valueOf_of_constInt hc, valueOf_of_constInt hc]

/-- The word of a value, after the same events, depends on the environment at its variable
only. -/
theorem valueOf_congr_env
    {m : Machine} {tr : List Event} {σ τ : Env} {v : IrValue}
    (h : v.kind.isVar → σ v.key = τ v.key) :
  valueOf m tr σ v = valueOf m tr τ v
  := by
  by_cases hk : v.kind.isVar
  · rw [valueOf_of_isVar hk, valueOf_of_isVar hk, h hk]
  · simp only [valueOf, if_neg hk]

/-- An opcode that does not write its destination yields no word. -/
theorem effect_fst_of_not_writesDst
    {m : Machine} {tr : List Event} {I : IrInstr} {o : Operands} {r : Option Word × List Event}
    (h : effect m tr I o = some r) (hw : I.op.writesDst = false) :
  r.1 = none
  := by
  unfold effect at h
  cases hop : I.op <;> simp only [hop, IrOp.writesDst, reduceCtorEq] at h hw
  case cmpBr =>
    obtain ⟨w, -, rfl⟩ := Option.map_eq_some_iff.mp h
    rfl
  all_goals
    rw [Option.some_inj] at h
    rw [← h]

/-- An instruction that is executed leaves the variables that it does not write. -/
theorem assign_of_not_writes
    {m : Machine} {tr : List Event} {I : IrInstr} {o : Operands} {r : Option Word × List Event}
    (h : effect m tr I o = some r) (σ : Env) {k : VarKey} (hk : I.writes k = false) :
  assign I.dst r.1 σ k = σ k
  := by
  by_cases hw : I.op.writesDst
  · cases hd : I.dst with
    | none => rfl
    | some d =>
      cases hr : r.1 with
      | none => rfl
      | some w =>
        have hne : k ≠ d.key := by
          rintro rfl
          simp [IrInstr.writes, hw, hd] at hk
        apply Function.update_of_ne hne
  · rw [effect_fst_of_not_writesDst h (by simpa using hw)]
    cases I.dst <;> rfl

/-- Variables that an instruction does not write keep their words. -/
theorem execInstr_env
    {m : Machine} {I : IrInstr} {s s' : Store} (h : execInstr m I s = some s') {k : VarKey}
    (hk : I.writes k = false) :
  s'.env k = s.env k
  := by
  obtain ⟨r, hr, rfl⟩ := Option.map_eq_some_iff.mp h
  apply assign_of_not_writes hr s.env hk

/-- A store to a variable writes the word of its operand. -/
theorem execInstr_store
    {m : Machine} {I : IrInstr} {s s' : Store} (h : execInstr m I s = some s')
    (hop : I.op = .store) {d v : IrValue} (hd : I.dst = some d) (hv : I.r1 = some v)
    (hvar : d.kind.isVar) :
  s'.env = Function.update s.env d.key (valueOf m s.trace s.env v)
  := by
  obtain ⟨r, hr, rfl⟩ := Option.map_eq_some_iff.mp h
  simp only [effect, hop, hd, hvar, IrInstr.operands, IrOp.readsR1, hv, if_true,
    Option.some_inj] at hr
  subst hr
  simp [assign, hd]

/-- A store without an operand writes nothing. -/
theorem execInstr_store_none
    {m : Machine} {I : IrInstr} {s s' : Store} (h : execInstr m I s = some s')
    (hop : I.op = .store) (hv : I.r1 = none) :
  s'.env = s.env
  := by
  obtain ⟨r, hr, rfl⟩ := Option.map_eq_some_iff.mp h
  have hr1 : r.1 = none := by
    cases hd : I.dst with
    | none =>
      simp only [effect, hop, hd, Option.some_inj] at hr
      rw [← hr]
    | some d =>
      simp only [effect, hop, hd, IrInstr.operands, hv, Option.map_none, ite_self] at hr
      split at hr
      all_goals
        rw [Option.some_inj] at hr
        rw [← hr]
  rw [hr1]
  cases I.dst <;> rfl

/-! ### Phi copies -/

/-- The value that a phi takes on the edge from a block. -/
def phiIncoming (pred : Nat) (I : IrInstr) : Option IrValue :=
  (I.phiPairs.find? (·.irBlock = pred)).map (·.irValue)

/-- The phis that the back ends materialise: those before the first other instruction. -/
def leadingPhis (l : List IrInstr) : List IrInstr :=
  (l.filter (·.op ≠ .nop)).takeWhile (·.op = .phi)

/-- Instructions without phis start with none. -/
theorem leadingPhis_of_noPhi
    {l : List IrInstr} (hl : ∀ J ∈ l, J.op ≠ .phi) :
  leadingPhis l = []
  := by
  rw [leadingPhis]
  cases hf : l.filter (·.op ≠ .nop) with
  | nil => rfl
  | cons J rest =>
    have hmem : J ∈ l := List.mem_of_mem_filter (hf ▸ List.mem_cons_self)
    apply List.takeWhile_cons_of_neg
    simpa using hl J hmem

/-- The copies made on the edge from `pred` into a block. -/
def phiCopies (pred : Nat) (l : List IrInstr) : List (IrValue × IrValue) :=
  (leadingPhis l).filterMap fun I => I.dst.bind fun d => (phiIncoming pred I).map (d, ·)

/-- Write words to variables, in order. -/
def writeAll (σ : Env) (ws : List (VarKey × Word)) : Env :=
  ws.foldl (fun τ w => Function.update τ w.1 w.2) σ

/-- Make all copies at once: the words are read before any is written. -/
def parallelCopy (m : Machine) (tr : List Event) (σ : Env) (copies : List (IrValue × IrValue)) :
    Env :=
  writeAll σ (copies.map fun c => (c.1.key, valueOf m tr σ c.2))

/-- A variable that is not written keeps its word. -/
theorem writeAll_of_not_mem
    {σ : Env} {ws : List (VarKey × Word)} {k : VarKey} (h : ∀ w ∈ ws, w.1 ≠ k) :
  writeAll σ ws k = σ k
  := by
  induction ws generalizing σ with
  | nil => rfl
  | cons w ws ih =>
    have htail : writeAll (Function.update σ w.1 w.2) ws k = Function.update σ w.1 w.2 k := by
      apply ih
      intro x hx
      apply h x (List.mem_cons_of_mem w hx)
    rw [writeAll, List.foldl_cons] at *
    rw [htail, Function.update_of_ne (h w List.mem_cons_self).symm]

/-- Writing the same words keeps an agreement at a variable. -/
theorem writeAll_congr
    {σ τ : Env} {k : VarKey} (h : σ k = τ k) (ws : List (VarKey × Word)) :
  writeAll σ ws k = writeAll τ ws k
  := by
  induction ws generalizing σ τ with
  | nil => apply h
  | cons w ws ih =>
    apply ih
    by_cases hk : k = w.1
    · simp only [hk, Function.update_self]
    · simp only [Function.update_of_ne hk, h]

/-! ### Functions -/

/-- Find a block by its id. -/
def IrFunction.findBlock (fn : IrFunction) (id : Nat) : Option IrBlock :=
  fn.blocks.find? (·.id = id)

/-- A place in a function: before the instruction of a block at an index. -/
abbrev Point := Nat × Nat

/-- The instruction at a point. -/
def IrFunction.instrAt (fn : IrFunction) (p : Point) : Option IrInstr :=
  (fn.findBlock p.1).bind (·.instructions[p.2]?)

/-- Whether the branch that is the last event was taken. -/
def taken : List Event → Bool
  | [.branch (some w)] => w ≠ 0
  | _ => false

/-- Where control goes after an instruction with the given events; `none` after a return. -/
def IrInstr.next (p : Point) (I : IrInstr) (es : List Event) : Option Point :=
  match I.op with
  | .jmp => some (I.targetBlock, 0)
  | .br | .cmpBr => some (if taken es then I.targetBlock else I.fallthroughBlock, 0)
  | .ret => none
  | _ => some (p.1, p.2 + 1)

/-- The opcodes that go to another block. -/
def IrOp.isJump : IrOp → Bool
  | .jmp | .br | .cmpBr => true
  | _ => false

/-- The copies made on the way from `p` to `q` after the instruction `I`. -/
def IrFunction.edgeCopies (fn : IrFunction) (p q : Point) (I : IrInstr) :
    List (IrValue × IrValue) :=
  if I.op.isJump then
    match fn.findBlock q.1 with
    | some b => phiCopies p.1 b.instructions
    | none => []
  else []

/-- Where a run is: before an instruction, after a return, or stopped by a trap or by a
missing instruction. -/
inductive Config where
  | at (p : Point) (s : Store)
  | returned (s : Store)
  | stuck (s : Store)

/-- The events of a run so far. -/
def Config.trace : Config → List Event
  | .at _ s | .returned s | .stuck s => s.trace

/-- Whether a run has returned. -/
def Config.isReturned : Config → Bool
  | .returned _ => true
  | _ => false

/-- One step of a run. -/
def step (m : Machine) (fn : IrFunction) : Config → Config
  | .at p s =>
    match fn.instrAt p with
    | none => .stuck s
    | some I =>
      match effect m s.trace I (I.operands m s.trace s.env) with
      | none => .stuck s
      | some (w, es) =>
        let σ := assign I.dst w s.env
        let tr := s.trace ++ es
        match I.next p es with
        | none => .returned ⟨σ, tr⟩
        | some q => .at q ⟨parallelCopy m tr σ (fn.edgeCopies p q I), tr⟩
  | c => c

/-- A run of `n` steps. -/
def run (m : Machine) (fn : IrFunction) : Nat → Config → Config
  | 0, c => c
  | n + 1, c => run m fn n (step m fn c)

/-- The start of a run. -/
def start (fn : IrFunction) (σ : Env) : Config := .at (fn.entryBlock, 0) ⟨σ, []⟩

end Polyc
