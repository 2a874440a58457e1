import Polyc.Ir.Types
import Polyc.Lib.Bytes

/-!
# The encoder's output

The bytes of an assembly block with its labels and its fixups, as the instruction encoders of
`asm/` leave them.  Sizes and offsets are natural numbers.
-/

namespace Polyc

open Bytes

/-- What a fixup refers to. -/
inductive AsmFixupKind where
  | «local»
  | symbol
  | classMember
  deriving DecidableEq

/-- The relocation that the patched instruction expects. -/
inductive AsmFixupReloc where
  | none
  | aarch64Call26
  | aarch64Jump26
  | aarch64Bcond19
  | aarch64Page21
  | aarch64PageOff12
  | x86Call32
  | x86Jmp32
  | x86Jcc32
  | x86Signed
  deriving DecidableEq

/-- The record `AsmFixup`; the symbol is the empty string where it is `NULL`. -/
structure AsmFixup where
  kind : AsmFixupKind
  reloc : AsmFixupReloc
  patchOffset : Nat
  width : Nat
  pcrel : Bool
  localNum : Int := 0
  sym : String := ""
  deriving DecidableEq

/-- The record `AsmLabelDef`. -/
structure AsmLabelDef where
  localNum : Int
  name : Option String
  byteOffset : Nat
  deriving DecidableEq

/-- The fields of an `AsmEnc` that the encoders and the consumers of fixups use. -/
structure AsmEnc where
  bytes : List Byte
  labels : List AsmLabelDef
  fixups : List AsmFixup
  errors : Nat

/-- `asm_enc_init`. -/
def asmEncInit : AsmEnc := ⟨[], [], [], 0⟩

/-- `asm_define_label`. -/
def asmDefineLabel (e : AsmEnc) (localNum : Int) (name : Option String) : AsmEnc :=
  { e with labels := e.labels ++ [⟨localNum, name, e.bytes.length⟩] }

/-- `put_byte` for every byte. -/
def putBytes (e : AsmEnc) (bytes : List Byte) : AsmEnc := { e with bytes := e.bytes ++ bytes }

/-- `asm_add_fixup`. -/
def asmAddFixup (e : AsmEnc) (f : AsmFixup) : AsmEnc := { e with fixups := e.fixups ++ [f] }

/-- `asm_err_at`, whose handler counts the errors. -/
def asmErrAt (e : AsmEnc) : AsmEnc := { e with errors := e.errors + 1 }

end Polyc
