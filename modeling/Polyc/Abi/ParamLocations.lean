import Polyc.Abi.Classify
import Polyc.Backend.RegPool
import Polyc.Ir.LowerParams

/-!
# Stamping of arrival registers

The pass `irAssignAbiParamLocations` walks the parameters of the source beside the vector
`params` of the lowered function and stamps the register in which each value arrives.  It
counts the registers of aggregates by the rules of AAPCS64 on every target.
-/

namespace Polyc

/-- The counters of registers and the cursor into the vector of parameters. -/
structure StampState where
  intArgIdx : Nat
  floatArgIdx : Nat
  fnParamIdx : Nat
  params : List IrValue

namespace StampState

/-- Stamp the register numbered `idx` of a pool on a value, when there is one. -/
def stampReg (regs : List String) (idx : Nat) (v : IrValue) : IrValue :=
  match regs[idx]? with
  | some reg => { v with loc := .reg (some reg) }
  | none => v

/-- Stamp the register of a scalar on a value that arrives and has no location. -/
def stampScalar (pool : IrRegPool) (isFloat : Bool) (idx : Nat) (v : IrValue) : IrValue :=
  if v.kind = .param ∧ v.loc = .none then
    stampReg (if isFloat then pool.floatArgRegs else pool.intArgRegs) idx v
  else v

/-- The counters after an aggregate. -/
def byval (st : StampState) (type : AstType) : StampState :=
  match astAapcsClassify type with
  | .hfa _ count =>
    { st with
      floatArgIdx := if st.floatArgIdx + count ≤ 8 then st.floatArgIdx + count else 8
      fnParamIdx := st.fnParamIdx + 1 }
  | .integer =>
    let ngp := (type.size + 7) / 8
    { st with
      intArgIdx := if st.intArgIdx + ngp ≤ 8 then st.intArgIdx + ngp else 8
      fnParamIdx := st.fnParamIdx + 1 }
  | .indirect =>
    { st with
      intArgIdx := if st.intArgIdx < 8 then st.intArgIdx + 1 else st.intArgIdx
      fnParamIdx := st.fnParamIdx + 1 }

/-- The counters after a scalar. -/
def count (st : StampState) (isFloat : Bool) : StampState :=
  if isFloat then { st with floatArgIdx := st.floatArgIdx + 1 }
  else { st with intArgIdx := st.intArgIdx + 1 }

/-- The number of the register that a scalar gets. -/
def idx (st : StampState) (isFloat : Bool) : Nat :=
  if isFloat then st.floatArgIdx else st.intArgIdx

/-- The search for the pinned value of a pinned parameter, from the cursor on; the value
after it is stamped. -/
def pinned (pool : IrRegPool) (isFloat : Bool) (idx : Nat) (st : StampState) : StampState :=
  let later := (st.params.drop st.fnParamIdx).findIdx? fun v =>
    v.kind = .param ∧ v.paramKind = .pinnedReg
  { st with
    params :=
      match later with
      | some k => st.params.modify (st.fnParamIdx + k + 1) (stampScalar pool isFloat idx)
      | none => st.params
    fnParamIdx := st.fnParamIdx + 2 }

/-- Any other scalar: the value at the cursor is stamped. -/
def scalar (pool : IrRegPool) (isFloat : Bool) (idx : Nat) (st : StampState) : StampState :=
  if st.fnParamIdx < st.params.length then
    { st with
      params := st.params.modify st.fnParamIdx (stampScalar pool isFloat idx)
      fnParamIdx := st.fnParamIdx + 1 }
  else st

/-- Counting moves no cursor and changes no value. -/
@[simp]
theorem count_cursor (st : StampState) (isFloat : Bool) :
  (st.count isFloat).fnParamIdx = st.fnParamIdx
  := by
  unfold count
  split <;> rfl

@[simp]
theorem count_params (st : StampState) (isFloat : Bool) :
  (st.count isFloat).params = st.params
  := by
  unfold count
  split <;> rfl

/-- A scalar that is not pinned stamps the value at the cursor. -/
theorem scalar_params
    (pool : IrRegPool) (isFloat : Bool) (idx : Nat) (st : StampState) (k : Nat) :
  (st.scalar pool isFloat idx).params[k]?
    = if k = st.fnParamIdx then st.params[k]?.map (stampScalar pool isFloat idx)
      else st.params[k]?
  := by
  unfold scalar
  by_cases hlt : st.fnParamIdx < st.params.length
  · rw [if_pos hlt]
    dsimp only
    split
    · rename_i hk
      rw [hk, List.getElem?_modify_eq]
      rfl
    · rename_i hk
      rw [List.getElem?_modify_ne _ _ (Ne.symm hk)]
  · rw [if_neg hlt]
    split
    · rename_i hk
      rw [hk, List.getElem?_eq_none (by omega)]
      rfl
    · rfl

/-- One parameter that has a type. -/
def typed (pool : IrRegPool) (st : StampState) (p : AstParam) (type : AstType) : StampState :=
  let isFloat := decide (type.kind = .float)
  if x86_64IsByvalStruct type then st.byval type
  else if p.pinned.isSome then (st.count isFloat).pinned pool isFloat (st.idx isFloat)
  else (st.count isFloat).scalar pool isFloat (st.idx isFloat)

/-- A variadic parameter: the count is stamped, unless it is on the stack. -/
def varArgs (pool : IrRegPool) (st : StampState) : StampState :=
  let st :=
    if st.fnParamIdx < st.params.length then
      { st with
        params := st.params.modify st.fnParamIdx fun v =>
          if v.kind = .param ∧ v.paramKind = .varargsArgc ∧ !pool.variadicOnStack then
            stampReg pool.intArgRegs st.intArgIdx v
          else v
        fnParamIdx := st.fnParamIdx + 1
        intArgIdx := st.intArgIdx + 1 }
    else st
  if st.fnParamIdx < st.params.length then { st with fnParamIdx := st.fnParamIdx + 1 } else st

end StampState

/-- The loop over the parameters. -/
def stampParams (pool : IrRegPool) : StampState → List AstParam → StampState
  | st, [] => st
  | st, .varArgs _ _ :: _ => st.varArgs pool
  | st, p :: ps =>
    match p.type with
    | none => stampParams pool st ps
    | some type => stampParams pool (st.typed pool p type) ps

/-- The stamp of the hidden pointer of an indirect result. -/
def stampHiddenSret (pool : IrRegPool) (params : List IrValue) : List IrValue :=
  match params.findIdx? fun v => v.kind = .param ∧ v.paramKind = .hiddenSret with
  | some k =>
    params.modify k fun v =>
      match pool.sretReg with
      | some reg => { v with loc := .reg (some reg) }
      | none => StampState.stampReg pool.intArgRegs 0 v
  | none => params

/-- A value as it is after the stamps, which are made in place. -/
def locate (params : List IrValue) (v : IrValue) : IrValue :=
  (params.find? (·.addr = v.addr)).getD v

/-- An instruction of the entry block after the stamps.  The store of a value that arrives in
no register is dropped: the prologue of the back end copies that value. -/
def dropUnstampedStore (params : List IrValue) (I : IrInstr) : IrInstr :=
  let r1 := I.r1.map (locate params)
  if I.op = .store ∧ r1.any fun v => v.kind = .param ∧ v.loc = .none then
    { I with op := .nop, dst := none, r1 := none, r2 := none }
  else { I with r1 := r1 }

/-- `irAssignAbiParamLocations`: the vector `params` and the entry block after it. -/
def irAssignAbiParamLocations (pool : IrRegPool) (rettype : Option AstType)
    (astParams : List AstParam) (params : List IrValue) (entry : List IrInstr) :
    List IrValue × List IrInstr :=
  let hidden := irRetIsIndirect rettype
  let params := if hidden then stampHiddenSret pool params else params
  let intArgIdx := if hidden && pool.sretReg.isNone then 1 else 0
  let stamped := (stampParams pool ⟨intArgIdx, 0, 0, params⟩ astParams).params
  (stamped, entry.map (dropUnstampedStore stamped))

end Polyc
