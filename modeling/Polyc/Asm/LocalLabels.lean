import Mathlib.Data.List.Pairwise
import Polyc.Asm.AsmEncode

/-!
# Local labels resolve to their targets

The encoded lines carry an invariant: the words of the references to local labels lie in the
code, do not overlap, and are the placeholders of their instructions.  Resolving writes each of
them as if it were alone.
-/

namespace Polyc

open Bytes BitField

/-! ### References -/

namespace LocalInstr

variable {arch : JitArch}

/-- The bytes in front of the word of a reference. -/
def lead : LocalInstr arch → List Byte
  | jmp => [0xE9]
  | jcc cc => [0x0F, 0x80 ||| cc.setWidth 8]
  | call => [0xE8]
  | lea width reg => x86LeaLead width reg
  | _ => []

/-- The word of a reference before it is resolved. -/
def placeholder : LocalInstr arch → BitVec 32
  | branch isBl => aarch64Placeholder (branch isBl)
  | bCond cc => aarch64Placeholder (bCond cc)
  | cbz is64 isNonzero rt => aarch64Placeholder (cbz is64 isNonzero rt)
  | adrp rd => aarch64Placeholder (adrp rd)
  | addImm is64 rd rn => aarch64Placeholder (addImm is64 rd rn)
  | _ => 0

/-- The width of the fixup. -/
def width : LocalInstr arch → Nat
  | bCond _ | cbz _ _ _ => 19
  | _ => 4

/-- The fixup is relative to its address. -/
def pcrel : LocalInstr arch → Bool
  | addImm _ _ _ => false
  | _ => true

/-- The relocation of the fixup. -/
def reloc : LocalInstr arch → AsmFixupReloc
  | adrp _ => .aarch64Page21
  | addImm _ _ _ => .aarch64PageOff12
  | call => .x86Call32
  | lea _ _ => .x86Signed
  | _ => .none

/-- An instruction is encoded to its word with a fixup. -/
theorem asmEncLocal_eq (e : AsmEnc) (instr : LocalInstr arch) (n : Nat) :
  asmEncLocal arch e instr n
    = putLocal e instr.lead (layout 4 instr.placeholder) instr.width instr.pcrel instr.reloc n
  := by
  cases instr <;> rfl

end LocalInstr

namespace AsmFixup

variable (f : AsmFixup)

/-- The fixup of a data directive. -/
def isData : Bool := !f.pcrel && f.reloc = .none

/-- The number of bytes that stand for the target. -/
def span : Nat := if f.isData then f.width else 4

/-- What a reference to a local label is in the code of an encoder. -/
inductive Stands (arch : JitArch) (bytes : List Byte) : Prop where
  | instr (instr : LocalInstr arch) :
    f.width = instr.width → f.pcrel = instr.pcrel → f.reloc = instr.reloc →
    read (ofList bytes) f.patchOffset 4 = instr.placeholder → Stands arch bytes
  | data : arch = .x86 → f.isData = true → f.width ≤ 8 → Stands arch bytes

end AsmFixup

/-- Two references to local labels do not overlap. -/
def LocalApart (f g : AsmFixup) : Prop :=
  f.kind = .local → g.kind = .local → Apart AsmFixup.patchOffset AsmFixup.span f g

/-- The references to local labels in the code of an encoder. -/
structure AsmEnc.Refers (arch : JitArch) (e : AsmEnc) : Prop where
  inside : ∀ f ∈ e.fixups, f.kind = .local → f.patchOffset + f.span ≤ e.bytes.length
  stands : ∀ f ∈ e.fixups, f.kind = .local → f.Stands arch e.bytes
  numbered : ∀ f ∈ e.fixups, f.kind = .local → 0 ≤ f.localNum
  apart : e.fixups.Pairwise LocalApart

section
variable {arch : JitArch} {e e' : AsmEnc}

/-- What a reference is does not depend on the code behind it. -/
theorem AsmFixup.Stands.append {f : AsmFixup} {bytes : List Byte} (h : f.Stands arch bytes)
    (hin : f.patchOffset + f.span ≤ bytes.length) (more : List Byte) :
  f.Stands arch (bytes ++ more)
  := by
  cases h with
  | instr instr hwidth hpcrel hreloc hread =>
    apply Stands.instr instr hwidth hpcrel hreloc
    rw [← hread]
    apply read_congr
    intro i _ hi
    apply ofList_append_of_lt
    have hdata : f.isData = false := by
      rw [isData, hpcrel, hreloc]
      cases instr <;> rfl
    rw [span, hdata] at hin
    apply lt_of_lt_of_le hi hin
  | data harch hdata hwidth => apply Stands.data harch hdata hwidth

/-- Code and references are added at the end. -/
theorem AsmEnc.Refers.extend (h : e.Refers arch) {more : List Byte} {fs : List AsmFixup}
    (hbytes : e'.bytes = e.bytes ++ more) (hfixups : e'.fixups = e.fixups ++ fs)
    (hnew : ∀ f ∈ fs, f.kind = .local → e.bytes.length ≤ f.patchOffset
      ∧ f.patchOffset + f.span ≤ e'.bytes.length ∧ f.Stands arch e'.bytes ∧ 0 ≤ f.localNum)
    (hapart : fs.Pairwise LocalApart) :
  e'.Refers arch
  := by
  have hlen : e.bytes.length ≤ e'.bytes.length := by
    rw [hbytes, List.length_append]
    apply Nat.le_add_right
  constructor
  case inside =>
    intro f hf hkind
    rw [hfixups, List.mem_append] at hf
    rcases hf with hf | hf
    · apply le_trans (h.inside f hf hkind) hlen
    · apply (hnew f hf hkind).2.1
  case stands =>
    intro f hf hkind
    rw [hfixups, List.mem_append] at hf
    rcases hf with hf | hf
    · rw [hbytes]
      apply (h.stands f hf hkind).append (h.inside f hf hkind)
    · apply (hnew f hf hkind).2.2.1
  case numbered =>
    intro f hf hkind
    rw [hfixups, List.mem_append] at hf
    rcases hf with hf | hf
    · apply h.numbered f hf hkind
    · apply (hnew f hf hkind).2.2.2
  case apart =>
    rw [hfixups, List.pairwise_append]
    refine ⟨h.apart, hapart, ?_⟩
    intro f hf g hg hfkind hgkind
    left
    apply le_trans (h.inside f hf hfkind) (hnew g hg hgkind).1

/-- Code is added without a reference. -/
theorem AsmEnc.Refers.skip (h : e.Refers arch) (more : List Byte) (fs : List AsmFixup)
    (hbytes : e'.bytes = e.bytes ++ more) (hfixups : e'.fixups = e.fixups ++ fs)
    (hnot : ∀ f ∈ fs, f.kind ≠ .local) :
  e'.Refers arch
  := by
  apply h.extend hbytes hfixups
  · intro f hf hkind
    apply absurd hkind (hnot f hf)
  · rw [List.pairwise_iff_forall_sublist]
    intro f g hsub hkind
    apply absurd hkind
    apply hnot f (hsub.subset List.mem_cons_self)

/-- Bytes are added without a fixup. -/
theorem AsmEnc.Refers.bytes (h : e.Refers arch) (more : List Byte)
    (hbytes : e'.bytes = e.bytes ++ more) (hfixups : e'.fixups = e.fixups) :
  e'.Refers arch
  := by
  apply h.skip more [] hbytes
  · rw [hfixups, List.append_nil]
  · apply List.forall_mem_nil

/-- Neither bytes nor fixups are added. -/
theorem AsmEnc.Refers.same (h : e.Refers arch) (hbytes : e'.bytes = e.bytes)
    (hfixups : e'.fixups = e.fixups) :
  e'.Refers arch
  := by
  apply h.bytes [] _ hfixups
  rw [hbytes, List.append_nil]

/-- A reference is added with the bytes around it. -/
theorem AsmEnc.Refers.putLocal (h : e.Refers arch) {lead word : List Byte} {width : Nat}
    {pcrel : Bool} {reloc : AsmFixupReloc} {n : Nat}
    (hspan : (AsmFixup.mk .local reloc (e.bytes ++ lead).length width pcrel n "").span
      ≤ word.length)
    (hstands : (AsmFixup.mk .local reloc (e.bytes ++ lead).length width pcrel n "").Stands arch
      (e.bytes ++ lead ++ word)) :
  (putLocal e lead word width pcrel reloc n).Refers arch
  := by
  have hbytes : (Polyc.putLocal e lead word width pcrel reloc n).bytes
      = e.bytes ++ (lead ++ word) := by
    rw [← List.append_assoc]
    rfl
  apply h.extend hbytes rfl
  · intro f hf hkind
    rw [List.mem_singleton.1 hf, hbytes, ← List.append_assoc]
    refine ⟨?_, ?_, hstands, Int.natCast_nonneg n⟩
    · change _ ≤ (e.bytes ++ lead).length
      rw [List.length_append]
      apply Nat.le_add_right
    · have hlen : (e.bytes ++ lead ++ word).length = (e.bytes ++ lead).length + word.length :=
        List.length_append
      rw [hlen]
      apply Nat.add_le_add_left hspan
  · apply List.pairwise_singleton

/-- The bytes of a line come behind the bytes before it. -/
theorem AsmEnc.Refers.operand (h : e.Refers arch) {width : Nat} (hwidth : width ≤ 8)
    (operand : DataOperand) (hdata : arch = .x86 ∨ ∀ n, operand ≠ .local n) :
  (asmEncOperand width e operand).Refers arch
  := by
  cases operand with
  | imm v => apply h.bytes (layout width v) <;> rfl
  | other => apply h.same <;> rfl
  | symbol name =>
    apply h.skip (List.replicate width 0) [_]
    case hbytes => rfl
    case hfixups => rfl
    intro f hf
    rw [List.mem_singleton.1 hf]
    rintro ⟨⟩
  | «local» n =>
    have harch : arch = .x86 := by
      rcases hdata with harch | hnot
      · apply harch
      · apply absurd rfl (hnot n)
    apply h.putLocal
    · rw [List.length_replicate]
      rfl
    · apply AsmFixup.Stands.data harch rfl hwidth

/-- The width of a data directive. -/
theorem directiveWidth_le (mnemonic : String) :
  directiveWidth mnemonic ≤ 8
  := by
  rw [directiveWidth]
  split_ifs <;> decide

/-- A line whose references can be resolved: on AArch64 no data directive refers to a local
label. -/
def AsmLine.Resolvable : AsmLine arch → Prop
  | .directive _ operands => arch = .x86 ∨ ∀ n, DataOperand.local n ∉ operands
  | _ => True

/-- A line keeps the references apart. -/
theorem AsmEnc.Refers.line (h : e.Refers arch) {line : AsmLine arch}
    (hline : line.Resolvable) :
  (asmEncLine e line).Refers arch
  := by
  cases line with
  | labelLocal n => apply h.same <;> rfl
  | labelPublic name => apply h.same <;> rfl
  | plain instr =>
    apply h.skip instr.bytes
    case hbytes => rfl
    case hfixups => rfl
    intro f hf
    obtain ⟨g, hg, rfl⟩ := List.mem_map.1 hf
    apply instr.notLocal g hg
  | refLocal instr n =>
    rw [asmEncLine, LocalInstr.asmEncLocal_eq]
    have hdata : (AsmFixup.mk .local instr.reloc (e.bytes ++ instr.lead).length instr.width
        instr.pcrel n "").isData = false := by cases instr <;> rfl
    apply h.putLocal
    · rw [AsmFixup.span, hdata, length_layout]
      apply Nat.le_refl
    · apply AsmFixup.Stands.instr instr rfl rfl rfl
      apply read_append_layout
  | directive mnemonic operands =>
    rw [asmEncLine, asmEncDirective]
    split_ifs
    · apply h.same <;> rfl
    · have hoperands : arch = .x86 ∨ ∀ n, DataOperand.local n ∉ operands := hline
      clear hline
      induction operands generalizing e with
      | nil => apply h
      | cons operand operands ih =>
        rw [List.foldl_cons]
        apply ih
        · apply h.operand (directiveWidth_le mnemonic)
          apply hoperands.imp_right
          rintro hnot n rfl
          apply hnot n List.mem_cons_self
        · apply hoperands.imp_right
          intro hnot n hn
          apply hnot n (List.mem_cons_of_mem operand hn)

/-- The encoded lines keep their references apart. -/
theorem refers_asmEncLines {lines : List (AsmLine arch)} (h : ∀ line ∈ lines, line.Resolvable) :
  (asmEncLines lines).Refers arch
  := by
  have hfold (lines : List (AsmLine arch)) (h : ∀ line ∈ lines, line.Resolvable) (e : AsmEnc)
      (he : e.Refers arch) : (lines.foldl asmEncLine e).Refers arch := by
    induction lines generalizing e with
    | nil => apply he
    | cons line lines ih =>
      rw [List.forall_mem_cons] at h
      apply ih h.2
      apply he.line h.1
  apply hfold lines h
  constructor <;> simp [asmEncInit]

/-- The number that a line gives to a label. -/
def AsmLine.localLabel : AsmLine arch → Option Nat
  | .labelLocal n => some n
  | _ => none

/-- The numbers of the labels of a line: those of public labels are -1. -/
def AsmLine.labelNum : AsmLine arch → Option Int
  | .labelLocal n => some n
  | .labelPublic _ => some (-1)
  | _ => none

/-- A line defines its label. -/
theorem labels_asmEncLine (e : AsmEnc) (line : AsmLine arch) :
  (asmEncLine e line).labels.map AsmLabelDef.localNum
    = e.labels.map AsmLabelDef.localNum ++ line.labelNum.toList
  := by
  cases line with
  | labelLocal n => simp [asmEncLine, asmDefineLabel, AsmLine.labelNum]
  | labelPublic name => simp [asmEncLine, asmDefineLabel, AsmLine.labelNum]
  | plain instr => simp [asmEncLine, asmEncPlain, AsmLine.labelNum]
  | refLocal instr n =>
    rw [asmEncLine, LocalInstr.asmEncLocal_eq]
    simp [putLocal, putBytes, asmAddFixup, AsmLine.labelNum]
  | directive mnemonic operands =>
    rw [asmEncLine, asmEncDirective]
    split_ifs
    · simp [asmErrAt, AsmLine.labelNum]
    · have hnone : (AsmLine.directive mnemonic operands : AsmLine arch).labelNum = none := rfl
      rw [hnone, Option.toList_none, List.append_nil]
      clear hnone
      induction operands generalizing e with
      | nil => rfl
      | cons operand operands ih =>
        rw [List.foldl_cons, ih]
        cases operand <;> rfl

/-- The labels of a block. -/
theorem labels_asmEncLines (lines : List (AsmLine arch)) :
  (asmEncLines lines).labels.map AsmLabelDef.localNum = lines.filterMap AsmLine.labelNum
  := by
  have hfold (lines : List (AsmLine arch)) (e : AsmEnc) :
      (lines.foldl asmEncLine e).labels.map AsmLabelDef.localNum
        = e.labels.map AsmLabelDef.localNum ++ lines.filterMap AsmLine.labelNum := by
    induction lines generalizing e with
    | nil => simp
    | cons line lines ih =>
      rw [List.foldl_cons, ih, labels_asmEncLine, List.append_assoc]
      cases h : line.labelNum <;> simp [h]
  apply hfold lines asmEncInit

/-- If no number is given twice, a label is found by its number. -/
theorem findLocalNum_of_mem {lines : List (AsmLine arch)}
    (h : (lines.filterMap AsmLine.localLabel).Nodup) {d : AsmLabelDef}
    (hd : d ∈ (asmEncLines lines).labels) (hnum : 0 ≤ d.localNum) :
  findLocalNum (asmEncLines lines).labels d.localNum = some d
  := by
  have hpair : (asmEncLines lines).labels.Pairwise fun x y =>
      x.localNum = y.localNum → x.localNum < 0 := by
    rw [← List.pairwise_map (f := AsmLabelDef.localNum)
      (R := fun x y => x = y → x < 0), labels_asmEncLines, List.pairwise_filterMap]
    rw [List.Nodup, List.pairwise_filterMap] at h
    apply h.imp
    intro x y hne a ha b hb hab
    subst hab
    cases x with
    | labelLocal n =>
      cases y with
      | labelLocal k =>
        obtain rfl := Option.some.inj ha
        have hk : (k : Int) = n := Option.some.inj hb
        apply absurd (Int.ofNat.inj hk).symm
        apply hne n rfl k rfl
      | labelPublic name =>
        obtain rfl := Option.some.inj ha
        have hk : (-1 : Int) = n := Option.some.inj hb
        omega
      | _ => cases hb
    | labelPublic name =>
      obtain rfl := Option.some.inj ha
      decide
    | _ => cases ha
  cases hfind : findLocalNum (asmEncLines lines).labels d.localNum with
  | none =>
    rw [findLocalNum, List.find?_eq_none] at hfind
    apply absurd _ (hfind d hd)
    simp
  | some d' =>
    have hd' : d' ∈ (asmEncLines lines).labels := List.mem_of_find?_eq_some hfind
    have hnum' : d'.localNum = d.localNum := by simpa using List.find?_some hfind
    by_contra hne
    have hsymm : Std.Symm fun x y : AsmLabelDef =>
        x.localNum = y.localNum → x.localNum < 0 := by
      constructor
      intro x y hxy hyx
      rw [hyx]
      apply hxy hyx.symm
    have hlt := hpair.forall hd' hd (fun heq => hne (congrArg some heq)) hnum'
    omega

end

end Polyc
