import Polyc.Ir.LowerParams

/-!
# Lowering of bodies

The body of a function is lowered by three things: `irTmp` makes a temporary, `irLowerDecl`
makes the variable of a declaration, and instructions are added over variables that there
are.  Which of these happen, and in which order, is up to the body.
-/

namespace Polyc

/-- The variable of a declaration. -/
inductive AstDeclVar where
  | lvar (id : Nat) (type : AstType) (pinnedKind : LvarPinnedKind) (pinnedReg : Option String)
  | funptr (id : Nat)

/-- What identifies a variable in the passes: its address, its kind and its id. -/
structure VarTag where
  addr : Nat
  kind : IrValueKind
  id : Nat
  deriving DecidableEq

/-- The tag of a value. -/
def IrValue.tag (v : IrValue) : VarTag := ⟨v.addr, v.kind, v.varId⟩

/-- The kinds of values that stand for variables. -/
def IrValueKind.isVariable (kind : IrValueKind) : Bool :=
  kind = .tmp ∨ kind = .local ∨ kind = .param

/-- All values that an instruction refers to. -/
def IrInstr.values (I : IrInstr) : List IrValue :=
  I.dst.toList ++ I.r1.toList ++ I.r2.toList ++ I.idx.toList ++ I.args
    ++ I.phiPairs.map IrPair.irValue

namespace LowerState

/-- A variable that has been made. -/
def Made (st : LowerState) (v : IrValue) : Prop := v.tag ∈ st.values.map IrValue.tag

instance (st : LowerState) (v : IrValue) : Decidable (st.Made v) :=
  inferInstanceAs (Decidable (_ ∈ _))

/-- The value occurs in the function. -/
def Occurs (st : LowerState) (v : IrValue) : Prop :=
  v ∈ st.params ∨ v ∈ st.vars.map Prod.snd ∨ ∃ I ∈ st.instructions, v ∈ I.values

/-- `irMakeLocalSlot`. -/
def irMakeLocalSlot (st : LowerState) (type : IrValueType) (size varId : Nat) :
    Option LowerState :=
  let (slot, st) := st.irTmp type size .local
  st.irFnAddVar varId slot

/-- The variable of a local that is pinned to a register: it keeps the id of the source. -/
def irPinnedLocal (st : LowerState) (id : Nat) (irType : IrValueType) (size : Nat)
    (pinnedReg : Option String) : IrValue × LowerState :=
  let v : IrValue :=
    { addr := st.addr, type := irType, kind := .local, pinnedReg := pinnedReg
      as := .var id (size % 2 ^ 16) }
  (v, { st with addr := st.addr + 1, values := st.values ++ [v] })

/-- `irLowerDecl` up to the initialiser. -/
def irLowerDecl (st : LowerState) : AstDeclVar → Option LowerState
  | .lvar id type .reg pinnedReg => do
    let irType ← irConvertType type
    let (v, st) := st.irPinnedLocal id irType type.size pinnedReg
    st.irFnAddVar id v
  | .lvar id type _ _ => do
    let irType ← irConvertType type
    st.irMakeLocalSlot irType type.size id
  | .funptr id => st.irMakeLocalSlot .ptr 8 id

end LowerState

/-- A step of the lowering of a body. -/
inductive BodyStep where
  | tmp (type : IrValueType) (size : Nat)
  | decl (var : AstDeclVar)
  | instr (I : IrInstr)
  | redirect (k : Nat) (target : IrValue)

open LowerState

/-- One step.  An instruction names variables that have been made; `irRedirectLastDst` gives
an instruction that writes a temporary another destination. -/
def lowerStep (st : LowerState) : BodyStep → Option LowerState
  | .tmp type size => some (st.irTmp type size .tmp).2
  | .decl var => st.irLowerDecl var
  | .instr I =>
    if ∀ v ∈ I.values, v.kind.isVariable → st.Made v then some (st.addInstr I) else none
  | .redirect k target =>
    if st.Made target ∧ (st.instructions[k]?).any fun I => irIsTmp I.dst then
      some
        { st with
          instructions := st.instructions.modify k fun I => { I with dst := some target } }
    else none

/-- The lowering of a body. -/
def lowerBody : LowerState → List BodyStep → Option LowerState
  | st, [] => some st
  | st, s :: ss => (lowerStep st s).bind fun st => lowerBody st ss

/-- The exit block, which loads what is returned from the return slot, unless it is an
aggregate returned in registers. -/
def lowerExit (st : LowerState) (rettype : Option AstType) (isMain : Bool) :
    Option IrValue → LowerState
  | some slot =>
    if irRetIsRegisterAggregate rettype then
      let slot := { slot with byvalStructType := rettype.map AstType.size }
      st.addInstr { op := .ret, dst := some slot }
    else
      let (loadDst, st) := st.irTmp slot.type ((rettype.map AstType.size).getD 0) .tmp
      (st.addInstr { op := .load, dst := some loadDst, r1 := some slot }).addInstr
        { op := .ret, dst := some loadDst }
  | none =>
    if isMain then
      { st with addr := st.addr + 1 }.addInstr
        { op := .ret, dst := some (irConstInt st.addr .i32 0) }
    else st.addInstr { op := .ret }

/-- `irLowerFunction`, for a body that is lowered by the given steps. -/
def irLowerFunction (target : CliTarget) (st : LowerState) (ps : List AstParam)
    (rettype : Option AstType) (isMain : Bool) (body : List BodyStep) : Option LowerState := do
  let (ret, st) ← lowerSignature target st ps rettype
  let st ← lowerBody st body
  return lowerExit st rettype isMain ret

end Polyc
