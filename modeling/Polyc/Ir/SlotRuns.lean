import Polyc.Ir.Positions

/-!
# Accesses to slots

What a run does with the slots of temporaries: an instruction reads its operands and then
writes its destination, and on an edge the phis of the next block are copied one after the
other.  The order of these copies is chosen so that none overwrites a temporary that another
has still to read.
-/

namespace Polyc

/-! ### Copies of phis -/

/-- The temporary that a value stands for. -/
def IrValue.tmpId (v : IrValue) : Option Nat := if v.kind = .tmp then some v.varId else none

/-- A copy writes the temporary that a pending copy reads. -/
def readByPending (c : IrValue × IrValue) (pending : List (IrValue × IrValue)) : Bool :=
  pending.any fun d => d.2.kind = .tmp ∧ c.1.kind = .tmp ∧ d.2.varId = c.1.varId

/-- One round over the pending copies: those that are made, and those that are left. -/
def phiPass (left : List (IrValue × IrValue)) :
    List (IrValue × IrValue) → List (IrValue × IrValue) × List (IrValue × IrValue)
  | [] => ([], left)
  | c :: cs =>
    if readByPending c (left ++ cs) then phiPass (left ++ [c]) cs
    else (c :: (phiPass left cs).1, (phiPass left cs).2)

/-- Rounds until no copy is pending; a round without progress is a panic. -/
def phiRounds : Nat → List (IrValue × IrValue) → Option (List (IrValue × IrValue))
  | _, [] => some []
  | 0, _ => none
  | n + 1, cs =>
    if (phiPass [] cs).1.isEmpty then none
    else (phiRounds n (phiPass [] cs).2).map ((phiPass [] cs).1 ++ ·)

/-- `x86_64PhiMaterialise` on the copies of an edge, which need not be few. -/
def x86_64PhiMaterialise (cs : List (IrValue × IrValue)) : Option (List (IrValue × IrValue)) :=
  phiRounds cs.length cs

/-- When no copy writes what one reads, all are made in one round. -/
theorem phiPass_of_independent
    {cs : List (IrValue × IrValue)}
    (h : ∀ c ∈ cs, ∀ d ∈ cs, d.2.tmpId ≠ none → d.2.tmpId ≠ c.1.tmpId) :
  phiPass [] cs = (cs, [])
  := by
  induction cs with
  | nil => rfl
  | cons c cs ih =>
    have hno : readByPending c ([] ++ cs) = false := by
      rw [List.nil_append, readByPending, List.any_eq_false]
      intro d hd hread
      obtain ⟨hdk, hck, hid⟩ := of_decide_eq_true hread
      have hne := h c List.mem_cons_self d (List.mem_cons_of_mem c hd)
      apply hne
      · simp [IrValue.tmpId, hdk]
      · simp [IrValue.tmpId, hdk, hck, hid]
    unfold phiPass
    rw [hno, if_neg Bool.false_ne_true, ih]
    intro a ha d hd
    apply h a (List.mem_cons_of_mem c ha) d (List.mem_cons_of_mem c hd)

theorem materialise_of_independent
    {cs : List (IrValue × IrValue)}
    (h : ∀ c ∈ cs, ∀ d ∈ cs, d.2.tmpId ≠ none → d.2.tmpId ≠ c.1.tmpId) :
  x86_64PhiMaterialise cs = some cs
  := by
  cases cs with
  | nil => rfl
  | cons c cs =>
    unfold x86_64PhiMaterialise
    rw [List.length_cons, phiRounds, phiPass_of_independent h]
    · simp [phiRounds]
    · simp

/-! ### Accesses -/

/-- An access to the slot of a temporary. -/
inductive Access where
  | read (id : Nat)
  | write (id : Nat)
  deriving DecidableEq

/-- The temporary that an instruction writes. -/
def IrInstr.writtenTmp (I : IrInstr) : Option Nat :=
  if I.op.writesDst then I.dst.bind IrValue.tmpId else none

/-- The accesses of an instruction. -/
def IrInstr.accesses (I : IrInstr) : List Access :=
  (I.inputs.filterMap IrValue.tmpId).map .read ++ I.writtenTmp.toList.map .write

/-- The accesses of a copy. -/
def copyAccesses (c : IrValue × IrValue) : List Access :=
  c.2.tmpId.toList.map .read ++ c.1.tmpId.toList.map .write

/-- A run has come to a point with some accesses. -/
inductive IrFunction.Runs (fn : IrFunction) : Point → List Access → Prop where
  | start : Runs fn (fn.entryBlock, 0) []
  | step {p q : Point} {log : List Access} {I : IrInstr} {cs : List (IrValue × IrValue)}
      (h : Runs fn p log) (hI : fn.instrAt p = some I) (hq : q ∈ I.nexts p)
      (hcs : x86_64PhiMaterialise (fn.edgeCopies p q I) = some cs) :
      Runs fn q (log ++ I.accesses ++ cs.flatMap copyAccesses)

/-- The accesses of a run, up to an instruction or through one. -/
def IrFunction.Logged (fn : IrFunction) (log : List Access) : Prop :=
  ∃ p log', fn.Runs p log'
    ∧ (log = log' ∨ ∃ I, fn.instrAt p = some I ∧ log = log' ++ I.accesses)

/-- The slots after a temporary is written. -/
def hold (slot : Nat → Option Int) (W : Int → Option Nat) (t : Nat) : Int → Option Nat :=
  fun l => if slot t = some l then some t else W l

/-- The temporary whose value each slot holds after some accesses. -/
def holders (slot : Nat → Option Int) : (Int → Option Nat) → List Access → Int → Option Nat
  | W, [] => W
  | W, .read _ :: as => holders slot W as
  | W, .write t :: as => holders slot (hold slot W t) as

/-- Every temporary that is read from its slot was the last that was written there, unless it has
not been written so far. -/
def ReadsOwn (slot : Nat → Option Int) : List Access → List Access → Prop
  | _, [] => True
  | done, .read t :: as =>
    (.write t ∈ done → ∀ l, slot t = some l → holders slot (fun _ => none) done l = some t)
      ∧ ReadsOwn slot (done ++ [.read t]) as
  | done, .write t :: as => ReadsOwn slot (done ++ [.write t]) as

section Accesses

variable {slot : Nat → Option Int}

theorem holders_append (W : Int → Option Nat) (as bs : List Access) :
  holders slot W (as ++ bs) = holders slot (holders slot W as) bs
  := by
  induction as generalizing W with
  | nil => rfl
  | cons a as ih => cases a <;> apply ih

theorem readsOwn_append (done as bs : List Access) :
  ReadsOwn slot done (as ++ bs) ↔ ReadsOwn slot done as ∧ ReadsOwn slot (done ++ as) bs
  := by
  induction as generalizing done with
  | nil => simp [ReadsOwn]
  | cons a as ih => cases a <;> simp [ReadsOwn, ih, and_assoc]

/-- Reads change no slot. -/
theorem holders_reads (W : Int → Option Nat) (ts : List Nat) :
  holders slot W (ts.map .read) = W
  := by
  induction ts with
  | nil => rfl
  | cons t ts ih => apply ih

/-- Reads write nothing. -/
theorem write_mem_append_reads {done : List Access} {ts : List Nat} {t : Nat} :
  .write t ∈ done ++ ts.map .read ↔ .write t ∈ done
  := by
  simp

theorem readsOwn_reads
    {done : List Access} {ts : List Nat}
    (h : ∀ t ∈ ts, .write t ∈ done → ∀ l, slot t = some l →
      holders slot (fun _ => none) done l = some t) :
  ReadsOwn slot done (ts.map .read)
  := by
  induction ts generalizing done with
  | nil => trivial
  | cons t ts ih =>
    constructor
    · apply h t List.mem_cons_self
    · apply ih
      intro u hu hw l hl
      rw [holders_append]
      apply h u (List.mem_cons_of_mem t hu) _ l hl
      simpa using hw

end Accesses

end Polyc
