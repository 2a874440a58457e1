import Polyc.Ir.Types

/-!
# Types of the source language

The record `AstType`, as far as lowering, frame layout and the calling conventions read it.
The kinds with parts of their own, arrays and aggregates, are constructors with these parts;
all others share one.  A field of an aggregate is a type of its own, which carries the
offset of the field.
-/

namespace Polyc

/-- The kinds `AstTypeKind`. -/
inductive AstTypeKind where
  | void | int | float | char | array | pointer | func | «class» | visModifier | inline | union
  | auto
  deriving DecidableEq

/-- The kinds of types without fields or elements. -/
inductive AstScalarKind where
  | void | int | float | char | pointer | func | visModifier | inline | auto
  deriving DecidableEq

/-- The record `AstType`. -/
inductive AstType where
  | scalar (kind : AstScalarKind) (size offset : Nat)
  | array (size offset : Nat) (len : Int) (ptr : AstType)
  | «class» (size offset : Nat) (isIntrinsic : Bool) (fields : List AstType)
  | union (size offset : Nat) (isIntrinsic : Bool) (fields : List AstType)

namespace AstType

/-- The kind of a type. -/
def kind : AstType → AstTypeKind
  | scalar .void _ _ => .void
  | scalar .int _ _ => .int
  | scalar .float _ _ => .float
  | scalar .char _ _ => .char
  | scalar .pointer _ _ => .pointer
  | scalar .func _ _ => .func
  | scalar .visModifier _ _ => .visModifier
  | scalar .inline _ _ => .inline
  | scalar .auto _ _ => .auto
  | array .. => .array
  | «class» .. => .class
  | union .. => .union

/-- The size of a type in bytes. -/
def size : AstType → Nat
  | scalar _ size _ | array size _ _ _ | «class» size _ _ _ | union size _ _ _ => size

/-- The offset of a field in its aggregate. -/
def offset : AstType → Nat
  | scalar _ _ offset | array _ offset _ _ | «class» _ offset _ _ | union _ offset _ _ => offset

/-- Whether an aggregate is one of the intrinsic ones. -/
def isIntrinsic : AstType → Bool
  | «class» _ _ isIntrinsic _ | union _ _ isIntrinsic _ => isIntrinsic
  | _ => false

end AstType

/-- A class or a union that is passed by value: the test of `x86_64IsByvalStruct`, of
`irLowerFunction` for its parameters and of `irFnCallTo` for its arguments. -/
def x86_64IsByvalStruct (t : AstType) : Bool :=
  (t.kind = .class ∨ t.kind = .union) ∧ !t.isIntrinsic

/-- `irRetTypeIsAggregate`. -/
def irRetTypeIsAggregate : Option AstType → Bool
  | none => false
  | some t => x86_64IsByvalStruct t ∧ 0 < t.size

/-- `irRetIsIndirect`. -/
def irRetIsIndirect (rettype : Option AstType) : Bool :=
  irRetTypeIsAggregate rettype && rettype.any fun t => 16 < t.size

/-- `irRetIsRegisterAggregate`. -/
def irRetIsRegisterAggregate (rettype : Option AstType) : Bool :=
  irRetTypeIsAggregate rettype && rettype.any fun t => t.size ≤ 16

/-- `irConvertType`; `none` where it panics. -/
def irConvertType (t : AstType) : Option IrValueType :=
  match t.kind with
  | .void => some .void
  | .int =>
    match t.size with
    | 1 => some .i8
    | 2 => some .i16
    | 4 => some .i32
    | 8 => some .i64
    | _ => none
  | .char => some .i8
  | .float => some (if t.size = 8 then .f64 else .f32)
  | .array => some .array
  | .pointer => some .ptr
  | .func => some .function
  | .class | .union => some .struct
  | .visModifier | .inline | .auto => none

/-- `irIsFloat`. -/
def irIsFloat (type : IrValueType) : Bool := type = .f64 ∨ type = .f32

/-! ### Parameters and locals -/

/-- The values of `pinned_kind` of a local variable. -/
inductive LvarPinnedKind where
  | auto | reg | noreg
  deriving DecidableEq

/-- A parameter of a function, with the id that `irGetParamId` returns for it. -/
inductive AstParam where
  | lvar (id : Nat) (type : AstType) (pinnedKind : LvarPinnedKind) (pinnedReg : Option String)
  | funptr (id : Nat) (type : AstType)
  | defaultParam (id : Nat) (type : AstType)
  | varArgs (argc argv : Nat)
  | other

/-- The register that a parameter is pinned to. -/
def AstParam.pinned : AstParam → Option String
  | lvar _ _ .reg pinnedReg => pinnedReg
  | _ => none

/-- The type of a parameter that has one. -/
def AstParam.type : AstParam → Option AstType
  | lvar _ type _ _ | funptr _ type | defaultParam _ type => some type
  | _ => none

/-- `irGetParamId`. -/
def irGetParamId : AstParam → Nat
  | .lvar id .. | .funptr id _ | .defaultParam id _ => id
  | _ => 0

/-- The targets `CliTarget`. -/
inductive CliTarget where
  | aarch64AppleDarwin | aarch64UnknownLinuxGnu | x86_64AppleDarwin | x86_64UnknownLinuxGnu
  deriving DecidableEq

/-! ### Sizes -/

/-- The rounding `(n + 7) & ~7`. -/
def alignTo8 (n : Nat) : Nat := (n + 7) / 8 * 8

end Polyc
