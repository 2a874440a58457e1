import Polyc.Asm.JitExec

/-!
# Encoding an assembly block

`asm_encode`: the lines of a block are encoded one after another, then the references to local
labels are resolved.  A line that refers to no local label is given by what it is encoded to;
the branches and the address-forming instructions that may refer to one, and the data
directives, are encoded here.
-/

namespace Polyc

open Bytes BitField

/-! ### Lines -/

/-- What an instruction without a local label is encoded to: bytes, fixups from its beginning,
none of them local, and errors. -/
structure PlainInstr where
  bytes : List Byte
  fixups : List AsmFixup
  errors : Nat
  notLocal : ∀ f ∈ fixups, f.kind ≠ .local

/-- The instructions that may refer to a local label. -/
inductive LocalInstr : JitArch → Type where
  | branch (isBl : Bool) : LocalInstr .aarch64
  | bCond (cc : BitVec 4) : LocalInstr .aarch64
  | cbz (is64 isNonzero : Bool) (rt : BitVec 5) : LocalInstr .aarch64
  | adrp (rd : BitVec 5) : LocalInstr .aarch64
  | addImm (is64 : Bool) (rd rn : BitVec 5) : LocalInstr .aarch64
  | jmp : LocalInstr .x86
  | jcc (cc : BitVec 4) : LocalInstr .x86
  | call : LocalInstr .x86
  | lea (width : Nat) (reg : BitVec 4) : LocalInstr .x86

/-- The operands of data directives. -/
inductive DataOperand where
  | imm (v : BitVec 64)
  | local (n : Nat)
  | symbol (name : String)
  | other

/-- The lines of a block. -/
inductive AsmLine (arch : JitArch) where
  | labelLocal (n : Nat)
  | labelPublic (name : String)
  | plain (instr : PlainInstr)
  | refLocal (instr : LocalInstr arch) (n : Nat)
  | directive (mnemonic : String) (operands : List DataOperand)

/-! ### Encoding lines -/

/-- The placeholder of an instruction and the fixup of the label that it refers to; `width` 19
stands for the field of `B.cond` and `CBZ`. -/
def putLocal (e : AsmEnc) (lead word : List Byte) (width : Nat) (pcrel : Bool)
    (reloc : AsmFixupReloc) (n : Nat) : AsmEnc :=
  let e := putBytes e lead
  putBytes
    (asmAddFixup e
      { kind := .local, reloc := reloc, patchOffset := e.bytes.length, width := width,
        pcrel := pcrel, localNum := n })
    word

/-- The placeholder words of the AArch64 instructions. -/
def aarch64Placeholder : LocalInstr .aarch64 → BitVec 32
  | .branch isBl => if isBl then 0x94000000 else 0x14000000
  | .bCond cc => 0x54000000 ||| cc.setWidth 32
  | .cbz is64 isNonzero rt =>
    ((BitVec.ofBool is64).setWidth 32 <<< 31) ||| (0x1A <<< 25)
      ||| ((BitVec.ofBool isNonzero).setWidth 32 <<< 24) ||| rt.setWidth 32
  | .adrp rd => 0x90000000 ||| rd.setWidth 32
  | .addImm is64 rd rn =>
    ((BitVec.ofBool is64).setWidth 32 <<< 31) ||| (0x22 <<< 23) ||| (rn.setWidth 32 <<< 5)
      ||| rd.setWidth 32

/-- `aarch64_emit_branch_local`, `aarch64_emit_b_cond_local`, `aarch64_enc_cbz`,
`aarch64_enc_adrp_dispatch` and `aarch64_enc_add_sub`, with a local label. -/
def aarch64EncLocal (e : AsmEnc) (instr : LocalInstr .aarch64) (n : Nat) : AsmEnc :=
  let word := layout 4 (aarch64Placeholder instr)
  match instr with
  | .branch _ => putLocal e [] word 4 true .none n
  | .bCond _ | .cbz _ _ _ => putLocal e [] word 19 true .none n
  | .adrp _ => putLocal e [] word 4 true .aarch64Page21 n
  | .addImm _ _ _ => putLocal e [] word 4 false .aarch64PageOff12 n

/-- The bytes in front of the displacement of `LEA` with a label. -/
def x86LeaLead (width : Nat) (reg : BitVec 4) : List Byte :=
  let rex : Byte := (if width = 8 then 0x48 else 0) ||| (if 8 ≤ reg.toNat then 0x44 else 0)
  let modrm : Byte := ((reg &&& 7).setWidth 8 <<< 3) ||| 5
  (if width = 2 then [(0x66 : Byte)] else []) ++ (if rex = 0 then [] else [rex])
    ++ [(0x8D : Byte), modrm]

/-- `x86_64_enc_jmp_local`, `x86_64_enc_jcc_local`, `x86_64_enc_call` and `x86_64_enc_lea`, with a
local label. -/
def x86EncLocal (e : AsmEnc) (instr : LocalInstr .x86) (n : Nat) : AsmEnc :=
  let word := layout 4 (0 : BitVec 32)
  match instr with
  | .jmp => putLocal e [0xE9] word 4 true .none n
  | .jcc cc => putLocal e [0x0F, 0x80 ||| cc.setWidth 8] word 4 true .none n
  | .call => putLocal e [0xE8] word 4 true .x86Call32 n
  | .lea width reg => putLocal e (x86LeaLead width reg) word 4 true .x86Signed n

/-- An instruction with a local label. -/
def asmEncLocal : (arch : JitArch) → AsmEnc → LocalInstr arch → Nat → AsmEnc
  | .aarch64, e, instr, n => aarch64EncLocal e instr n
  | .x86, e, instr, n => x86EncLocal e instr n

/-- Two texts are the same up to case, where `strcasecmp` gives 0. -/
def sameCase (a b : String) : Bool :=
  a.toList.map Char.toLower = b.toList.map Char.toLower

/-- The width of a data directive, and 0 for any other. -/
def directiveWidth (mnemonic : String) : Nat :=
  if sameCase mnemonic "db" || sameCase mnemonic "du8" then 1
  else if sameCase mnemonic "dw" || sameCase mnemonic "du16" then 2
  else if sameCase mnemonic "dd" || sameCase mnemonic "du32" then 4
  else if sameCase mnemonic "dq" || sameCase mnemonic "du64" then 8
  else 0

/-- One operand of a directive. -/
def asmEncOperand (width : Nat) (e : AsmEnc) : DataOperand → AsmEnc
  | .imm v => putBytes e (layout width v)
  | .local n => putLocal e [] (List.replicate width 0) width false .none n
  | .symbol name =>
    putBytes
      (asmAddFixup e
        { kind := .symbol, reloc := .none, patchOffset := e.bytes.length, width := width,
          pcrel := false, sym := name })
      (List.replicate width 0)
  | .other => asmErrAt e

/-- `asm_enc_directive`. -/
def asmEncDirective (e : AsmEnc) (mnemonic : String) (operands : List DataOperand) : AsmEnc :=
  let width := directiveWidth mnemonic
  if width = 0 then asmErrAt e else operands.foldl (asmEncOperand width) e

/-- An instruction that has been encoded. -/
def asmEncPlain (e : AsmEnc) (instr : PlainInstr) : AsmEnc :=
  { e with
    bytes := e.bytes ++ instr.bytes
    fixups := e.fixups ++ instr.fixups.map fun f =>
      { f with patchOffset := f.patchOffset + e.bytes.length }
    errors := e.errors + instr.errors }

/-- One line. -/
def asmEncLine {arch : JitArch} (e : AsmEnc) : AsmLine arch → AsmEnc
  | .labelLocal n => asmDefineLabel e n none
  | .labelPublic name => asmDefineLabel e (-1) (some name)
  | .plain instr => asmEncPlain e instr
  | .refLocal instr n => asmEncLocal arch e instr n
  | .directive mnemonic operands => asmEncDirective e mnemonic operands

/-- The lines of a block, before local labels are resolved. -/
def asmEncLines {arch : JitArch} (lines : List (AsmLine arch)) : AsmEnc :=
  lines.foldl asmEncLine asmEncInit

/-! ### Resolving local labels -/

/-- The first label with the number of a fixup. -/
def findLocalNum (labels : List AsmLabelDef) (localNum : Int) : Option AsmLabelDef :=
  labels.find? fun d => d.localNum = localNum

/-- `rel_words`: the distance in bytes is cut to 32 bits, then divided. -/
def aarch64RelWords (target off : Nat) : BitVec 32 :=
  (BitVec.ofInt 32 ((target : Int) - off)).sdiv 4

/-- `aarch64_enc_patch_branch26`. -/
def aarch64EncPatchBranch26 (bytes : List Byte) (patch : Nat) (relWords : BitVec 32) :
    List Byte :=
  let w := read (ofList bytes) patch 4 &&& 0xFC000000#32
  overwrite bytes patch (layout 4 (w ||| (relWords &&& 0x03FFFFFF#32)))

/-- `aarch64_enc_patch_imm19`. -/
def aarch64EncPatchImm19 (bytes : List Byte) (patch : Nat) (relWords : BitVec 32) : List Byte :=
  let w := read (ofList bytes) patch 4 &&& ~~~(0x7FFFF#32 <<< 5)
  overwrite bytes patch (layout 4 (w ||| ((relWords &&& 0x7FFFF#32) <<< 5)))

/-- One turn of the loop of `aarch64_resolve_local_fixups`; the fixups of the encoder are those
that are kept. -/
def aarch64ResolveFixup (e : AsmEnc) (f : AsmFixup) : AsmEnc :=
  if f.kind ≠ .local then asmAddFixup e f
  else if f.reloc = .aarch64Page21 ∨ f.reloc = .aarch64PageOff12 then asmAddFixup e f
  else
    match findLocalNum e.labels f.localNum with
    | none => asmErrAt e
    | some d =>
      let relWords := aarch64RelWords d.byteOffset f.patchOffset
      if f.width = 19 then
        { e with bytes := aarch64EncPatchImm19 e.bytes f.patchOffset relWords }
      else { e with bytes := aarch64EncPatchBranch26 e.bytes f.patchOffset relWords }

/-- One turn of the loop at the end of `asm_encode_x86_64`. -/
def x86ResolveFixup (e : AsmEnc) (f : AsmFixup) : AsmEnc :=
  if f.kind ≠ .local then asmAddFixup e f
  else
    match findLocalNum e.labels f.localNum with
    | none => asmErrAt e
    | some d =>
      if f.pcrel then
        let disp : Int := (d.byteOffset : Int) - (f.patchOffset + f.width)
        if f.width = 4 then
          { e with bytes := overwrite e.bytes f.patchOffset (layout 4 (BitVec.ofInt 32 disp)) }
        else e
      else
        asmAddFixup
          { e with
            bytes := overwrite e.bytes f.patchOffset
              (layout f.width (BitVec.ofNat 64 d.byteOffset)) }
          { f with kind := .symbol, sym := "__asm_local_" ++ toString f.localNum }

/-- One turn of the loop. -/
def resolveFixup : JitArch → AsmEnc → AsmFixup → AsmEnc
  | .aarch64 => aarch64ResolveFixup
  | .x86 => x86ResolveFixup

/-- `asm_encode`. -/
def asmEncode {arch : JitArch} (lines : List (AsmLine arch)) : AsmEnc :=
  (asmEncLines lines).fixups.foldl (resolveFixup arch) { asmEncLines lines with fixups := [] }

end Polyc
