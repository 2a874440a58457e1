import Polyc.Asm.Enc

/-!
# Finalising code for the JIT

`asm_jit_finalize`: the encoded bytes are copied to a mapping, and every fixup is patched with
the distance to its target, or to a veneer behind the code that branches to the target.
Pointers are words; offsets into the mapping are natural numbers.
-/

namespace Polyc

open Bytes

/-! ### Patchers -/

/-- `aarch64_patch_branch26`. -/
def aarch64PatchBranch26 (buf : Word) (m : Mem) (off : Nat) (target : Word) (isBl : Bool) :
    Option Mem :=
  let rel := target - (buf + BitVec.ofNat 64 off)
  if rel &&& 3 ≠ 0 then none
  else
    let words := (rel.sdiv 4).setWidth 32
    if words.toInt < -(2 ^ 25) ∨ words.toInt ≥ 2 ^ 25 then none
    else
      let w := (if isBl then 0x94000000#32 else 0x14000000#32) ||| (words &&& 0x03FFFFFF#32)
      some (write m off (layout 4 w))

/-- `aarch64_patch_imm19`. -/
def aarch64PatchImm19 (buf : Word) (m : Mem) (off : Nat) (target : Word) : Option Mem :=
  let rel := target - (buf + BitVec.ofNat 64 off)
  if rel &&& 3 ≠ 0 then none
  else
    let words := (rel.sdiv 4).setWidth 32
    if words.toInt < -(2 ^ 18) ∨ words.toInt ≥ 2 ^ 18 then none
    else
      let w := (read m off 4 &&& ~~~(0x7FFFF#32 <<< 5)) ||| ((words &&& 0x7FFFF#32) <<< 5)
      some (write m off (layout 4 w))

/-- `x86_64_patch_rel32`. -/
def x86PatchRel32 (buf : Word) (m : Mem) (off : Nat) (target : Word) : Option Mem :=
  let rel := target - (buf + BitVec.ofNat 64 off + 4)
  if rel.toInt > 2 ^ 31 - 1 ∨ rel.toInt < -(2 ^ 31) then none
  else some (write m off (layout 4 (rel.setWidth 32)))

/-- `aarch64_patch_page21`. -/
def aarch64PatchPage21 (buf : Word) (m : Mem) (off : Nat) (target : Word) : Option Mem :=
  let pcPage := (buf + BitVec.ofNat 64 off) &&& ~~~0xFFF
  let tgtPage := target &&& ~~~0xFFF
  let deltaPages := (tgtPage - pcPage).sshiftRight 12
  if deltaPages.toInt < -(2 ^ 20) ∨ deltaPages.toInt ≥ 2 ^ 20 then none
  else
    let imm21 := deltaPages.setWidth 32 &&& 0x001FFFFF#32
    let immlo := imm21 &&& 0x3#32
    let immhi := (imm21 >>> 2) &&& 0x7FFFF#32
    let w := (read m off 4 &&& ~~~((0x3#32 <<< 29) ||| (0x7FFFF#32 <<< 5)))
      ||| ((immlo <<< 29) ||| (immhi <<< 5))
    some (write m off (layout 4 w))

/-- `aarch64_patch_pageoff12`, which does not fail. -/
def aarch64PatchPageOff12 (m : Mem) (off : Nat) (target : Word) : Mem :=
  let imm12 := (target &&& 0xFFF).setWidth 32
  let w := (read m off 4 &&& ~~~(0xFFF#32 <<< 10)) ||| ((imm12 &&& 0xFFF#32) <<< 10)
  write m off (layout 4 w)

/-! ### Veneers -/

/-- `AARCH64_VENEER_BYTES`. -/
def aarch64VeneerBytes : Nat := 20

/-- `X86_64_VENEER_BYTES`. -/
def x86VeneerBytes : Nat := 13

/-- `aarch64_mov_wide` on the register X16, with `sf = 1`. -/
def aarch64MovWide (opc : BitVec 32) (imm16 : BitVec 16) (hw : BitVec 32) : BitVec 32 :=
  (1#32 <<< 31) ||| (opc <<< 29) ||| (0x25#32 <<< 23) ||| ((hw &&& 3) <<< 21)
    ||| (imm16.setWidth 32 <<< 5) ||| (16#32 &&& 0x1F)

/-- The words of `aarch64_jit_emit_trampoline`. -/
def aarch64Trampoline (t : Word) : List (BitVec 32) :=
  [aarch64MovWide 2 (t.setWidth 16) 0, aarch64MovWide 3 ((t >>> 16).setWidth 16) 1,
    aarch64MovWide 3 ((t >>> 32).setWidth 16) 2, aarch64MovWide 3 ((t >>> 48).setWidth 16) 3,
    0xD61F0000#32 ||| (16#32 <<< 5)]

/-- `aarch64_emit_veneer`. -/
def aarch64EmitVeneer (m : Mem) (off : Nat) (target : Word) : Mem :=
  write m off ((aarch64Trampoline target).flatMap (layout 4))

/-- `x86_64_emit_veneer`. -/
def x86EmitVeneer (m : Mem) (off : Nat) (target : Word) : Mem :=
  write m off ([0x49, 0xBB] ++ layout 8 target ++ [0x41, 0xFF, 0xE3])

/-- The record `VeneerSlot`. -/
structure VeneerSlot where
  target : Word
  veneer : Word
  deriving DecidableEq

/-- `veneer_lookup`. -/
def veneerLookup (vmap : List VeneerSlot) (target : Word) : Option Word :=
  (vmap.find? fun slot => slot.target = target).map VeneerSlot.veneer

/-! ### Targets -/

/-- What the host gives to `asm_jit_finalize`: the size of a page, the address of the mapping
(or that `mmap` fails), whether `mprotect` succeeds, and the resolver, which gives 0 for a
symbol that it does not know. -/
structure JitHost where
  pageSize : Word
  mmap : Option Word
  mprotect : Bool
  resolver : String → Word

/-- A public label stands for a symbol, up to an underscore in front of one of them. -/
def labelMatches (name sym : String) : Bool :=
  name = sym || name = "_" ++ sym || sym = "_" ++ name

/-- The first public label that stands for a symbol. -/
def jitSymbolLabel (labels : List AsmLabelDef) (sym : String) : Option AsmLabelDef :=
  labels.find? fun d => d.name.any fun name => labelMatches name sym

/-- The first local label with a number. -/
def jitLocalLabel (labels : List AsmLabelDef) (localNum : Int) : Option AsmLabelDef :=
  labels.find? fun d => d.name.isNone && d.localNum = localNum

/-- The address of a label that is found, and 0 otherwise. -/
def labelAddress (buf : Word) (d : Option AsmLabelDef) : Word :=
  match d with
  | some d => buf + BitVec.ofNat 64 d.byteOffset
  | none => 0

/-- The target of a fixup, or 0. -/
def jitTarget (resolver : String → Word) (labels : List AsmLabelDef) (buf : Word)
    (f : AsmFixup) : Word :=
  match f.kind with
  | .symbol =>
    let target := labelAddress buf (jitSymbolLabel labels f.sym)
    if target = 0 then resolver f.sym else target
  | .local => labelAddress buf (jitLocalLabel labels f.localNum)
  | .classMember => 0

/-! ### The loop over the fixups -/

/-- The mapping with the next free veneer and the veneers that can be shared. -/
structure JitState where
  mem : Mem
  veneerOff : Nat
  vmap : List VeneerSlot

/-- The veneer of a target: one that is there, or a new one. -/
def jitVeneer (buf : Word) (emit : Mem → Nat → Word → Mem) (size : Nat) (s : JitState)
    (target : Word) : Word × JitState :=
  match veneerLookup s.vmap target with
  | some vp => (vp, s)
  | none =>
    let vp := buf + BitVec.ofNat 64 s.veneerOff
    (vp, ⟨emit s.mem s.veneerOff target, s.veneerOff + size, s.vmap ++ [⟨target, vp⟩]⟩)

/-- A branch is patched with its target or, if that fails, with a veneer of it. -/
def jitBranch (patch : Mem → Word → Option Mem) (veneer : JitState → Word → Word × JitState)
    (s : JitState) (target : Word) : Option JitState :=
  match patch s.mem target with
  | some m => some { s with mem := m }
  | none =>
    let (vp, s) := veneer s target
    (patch s.mem vp).map fun m => { s with mem := m }

/-- One turn of the loop, on a target that is not 0. -/
def jitPatch (buf : Word) (s : JitState) (f : AsmFixup) (target : Word) : Option JitState :=
  let inPlace (m : Option Mem) : Option JitState := m.map fun m => { s with mem := m }
  match f.reloc with
  | .aarch64Call26 =>
    jitBranch (fun m t => aarch64PatchBranch26 buf m f.patchOffset t true)
      (jitVeneer buf aarch64EmitVeneer aarch64VeneerBytes) s target
  | .aarch64Jump26 =>
    jitBranch (fun m t => aarch64PatchBranch26 buf m f.patchOffset t false)
      (jitVeneer buf aarch64EmitVeneer aarch64VeneerBytes) s target
  | .aarch64Bcond19 => inPlace (aarch64PatchImm19 buf s.mem f.patchOffset target)
  | .aarch64Page21 => inPlace (aarch64PatchPage21 buf s.mem f.patchOffset target)
  | .aarch64PageOff12 => inPlace (some (aarch64PatchPageOff12 s.mem f.patchOffset target))
  | .x86Call32 | .x86Jmp32 | .x86Jcc32 =>
    jitBranch (fun m t => x86PatchRel32 buf m f.patchOffset t)
      (jitVeneer buf x86EmitVeneer x86VeneerBytes) s target
  | .x86Signed => inPlace (x86PatchRel32 buf s.mem f.patchOffset target)
  | .none => none

/-- One turn of the loop: it fails on a fixup that is not resolved or cannot be patched. -/
def jitFixup (resolver : String → Word) (labels : List AsmLabelDef) (buf : Word)
    (s : JitState) (f : AsmFixup) : Option JitState :=
  if f.kind = .classMember then some s
  else
    let target := jitTarget resolver labels buf f
    if target = 0 then none else jitPatch buf s f target

/-! ### The whole -/

/-- The bytes that a fixup may need for a veneer. -/
def AsmFixup.veneerBytes (f : AsmFixup) : Nat :=
  match f.reloc with
  | .aarch64Call26 | .aarch64Jump26 => aarch64VeneerBytes
  | .x86Call32 | .x86Jmp32 | .x86Jcc32 | .x86Signed => x86VeneerBytes
  | _ => 0

/-- `asm_page_round_up`. -/
def asmPageRoundUp (p n : Word) : Word := (n + p - 1) &&& ~~~(p - 1)

/-- The record `AsmJitCode` with the bytes of the mapping at `code`, which is not there for an
empty buffer, and the veneers that were emitted. -/
structure AsmJitCode where
  code : Option Mem
  mappingSize : Nat
  veneers : List VeneerSlot

/-- The size of the veneer area. -/
def AsmEnc.veneerArea (enc : AsmEnc) : Nat := (enc.fixups.map AsmFixup.veneerBytes).sum

/-- The size of the mapping. -/
def AsmEnc.mapSize (enc : AsmEnc) (pageSize : Word) : Nat :=
  (asmPageRoundUp pageSize (BitVec.ofNat 64 (enc.bytes.length + enc.veneerArea))).toNat

/-- The loop of `asm_jit_finalize` over the fixups. -/
def jitFixups (resolver : String → Word) (enc : AsmEnc) (buf : Word) : Option JitState :=
  enc.fixups.foldlM (jitFixup resolver enc.labels buf)
    ⟨ofList enc.bytes, enc.bytes.length, []⟩

/-- The contents of `out` before code is there. -/
def AsmJitCode.empty : AsmJitCode := ⟨none, 0, []⟩

/-- `asm_jit_finalize`: what it returns, and what it leaves in `out`. -/
def asmJitFinalize (host : JitHost) (enc : AsmEnc) : Int × AsmJitCode :=
  if enc.bytes.length = 0 then (0, .empty)
  else
    match host.mmap with
    | none => (-1, .empty)
    | some buf =>
      match jitFixups host.resolver enc buf with
      | none => (-1, .empty)
      | some s =>
        if host.mprotect then
          (0,
            { code := some s.mem
              mappingSize := enc.mapSize host.pageSize
              veneers := s.vmap })
        else (-1, .empty)

end Polyc
