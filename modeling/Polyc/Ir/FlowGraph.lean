import Polyc.Ir.Semantics
import Polyc.Lib.Flow

/-!
# The flow graph of a function

The points of the graph are the places before instructions.  Leaving a point uses the
operands of its instruction and the incoming values of the phis on the edges; a step makes
the definitions of its instruction and, on an edge to another block, those of the phis.
The paths of the graph are those that the branches allow, whatever their outcomes.
-/

namespace Polyc

/-! ### Uses and definitions -/

/-- The operands whose words an instruction reads.  A slot whose address is taken is not
read, and a phi reads on the edges into its block. -/
def IrInstr.inputs (I : IrInstr) : List IrValue :=
  (if I.op.readsDst then I.dst.toList else [])
    ++ (if I.op.readsR1 then I.r1.toList else [])
    ++ (if I.op.readsR2 then I.r2.toList else [])
    ++ (if I.op.readsIdx then I.idx.toList else [])
    ++ (if I.op = .call then I.args else [])

/-- A value stands for a variable. -/
def IrValue.names (v : IrValue) (k : VarKey) : Prop := v.kind.isVar ∧ v.key = k

/-- The points that control can reach in one step. -/
def IrInstr.nexts (p : Point) (I : IrInstr) : List Point :=
  match I.op with
  | .jmp => [(I.targetBlock, 0)]
  | .br | .cmpBr => [(I.targetBlock, 0), (I.fallthroughBlock, 0)]
  | .ret => []
  | _ => [(p.1, p.2 + 1)]

/-- The flow graph of a function. -/
def IrFunction.flow (fn : IrFunction) : FlowGraph Point VarKey where
  entry := (fn.entryBlock, 0)
  step p q := ∃ I, fn.instrAt p = some I ∧ q ∈ I.nexts p
  use p k := ∃ I, fn.instrAt p = some I ∧
    ((∃ v ∈ I.inputs, v.names k) ∨ ∃ q ∈ I.nexts p, ∃ c ∈ fn.edgeCopies p q I, c.2.names k)
  defines p q k := ∃ I, fn.instrAt p = some I ∧
    (I.writes k ∨ ∃ c ∈ fn.edgeCopies p q I, c.1.key = k)

/-! ### Runs follow the graph -/

/-- Control goes to one of the successors. -/
theorem IrInstr.mem_nexts {p q : Point} (I : IrInstr) {es : List Event}
    (h : I.next p es = some q) :
  q ∈ I.nexts p
  := by
  unfold IrInstr.next at h
  unfold IrInstr.nexts
  cases hop : I.op <;> simp only [hop, Option.some_inj, reduceCtorEq] at h ⊢
  case br => split at h <;> simp [← h]
  case cmpBr => split at h <;> simp [← h]
  all_goals simp [← h]

/-- A step leaves the variables that it does not define. -/
theorem IrFunction.env_of_not_defines
    {m : Machine} {fn : IrFunction} {p q : Point} {I : IrInstr} (hI : fn.instrAt p = some I)
    {tr : List Event} {o : Operands} {r : Option Word × List Event}
    (h : effect m tr I o = some r) {k : VarKey} (hk : ¬ fn.flow.defines p q k) (σ : Env)
    (tr' : List Event) :
  parallelCopy m tr' (assign I.dst r.1 σ) (fn.edgeCopies p q I) k = σ k
  := by
  have hw : I.writes k = false := by
    rw [Bool.eq_false_iff]
    intro hw
    apply hk
    exact ⟨I, hI, .inl hw⟩
  rw [parallelCopy, writeAll_of_not_mem, assign_of_not_writes h σ hw]
  intro w hmem e
  obtain ⟨c, hc, rfl⟩ := List.mem_map.mp hmem
  apply hk
  exact ⟨I, hI, .inr ⟨c, hc, e⟩⟩

end Polyc
