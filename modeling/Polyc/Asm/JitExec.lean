import Mathlib.Tactic.IntervalCases
import Polyc.Lib.BitField
import Polyc.Asm.Jit

/-!
# What the processor makes of patched code

The addresses that the patched fields stand for, the runs of the veneers, and what each patcher
writes.  A branch field of `n` bits counts words of four bytes; the patchers compute the count
in 32 bits.
-/

namespace Polyc

open Bytes BitField

/-! ### Reading code -/

/-- Where `B` and `BL` go. -/
def a64Branch26 (pc : Word) (w : BitVec 32) : Word :=
  pc + (w.extractLsb' 0 26).signExtend 64 <<< 2

/-- Where `B.cond` goes. -/
def a64Branch19 (pc : Word) (w : BitVec 32) : Word :=
  pc + (w.extractLsb' 5 19).signExtend 64 <<< 2

/-- What `ADRP` computes. -/
def a64Adrp (pc : Word) (w : BitVec 32) : Word :=
  (pc &&& ~~~0xFFF#64) + (w.extractLsb' 5 19 ++ w.extractLsb' 29 2).signExtend 64 <<< 12

/-- What `ADD` adds. -/
def a64AddImm (w : BitVec 32) : Word := (w.extractLsb' 10 12).setWidth 64

/-- What a displacement of 32 bits stands for, from the address behind it. -/
def x86Rel32 (next : Word) (w : BitVec 32) : Word := next + w.signExtend 64

/-- `MOVZ` and `MOVK` on the register X16. -/
def a64MovWide (x16 : Word) (w : BitVec 32) : Option Word :=
  let shift := 16 * (w.extractLsb' 21 2).toNat
  let imm : Word := (w.extractLsb' 5 16).setWidth 64 <<< shift
  if w.extractLsb' 0 5 ≠ 16 then none
  else if w.extractLsb' 23 9 = 0x1A5 then some imm
  else if w.extractLsb' 23 9 = 0x1E5 then some ((x16 &&& ~~~(0xFFFF#64 <<< shift)) ||| imm)
  else none

/-- Where moves to X16 that end with `BR X16` go, if there are at most `n` instructions. -/
def a64Run (m : Mem) : Nat → Nat → Word → Option Word
  | 0, _, _ => none
  | n + 1, off, x16 =>
    if read m off 4 = 0xD61F0200#32 then some x16
    else (a64MovWide x16 (read m off 4)).bind (a64Run m n (off + 4))

/-- Where `MOVABS R11` with `JMP R11` goes. -/
def x86Run (m : Mem) (off : Nat) : Option Word :=
  if m off = 0x49 ∧ m (off + 1) = 0xBB ∧ m (off + 10) = 0x41 ∧ m (off + 11) = 0xFF
      ∧ m (off + 12) = 0xE3 then
    some (read m (off + 2) 8)
  else none

/-! ### What the patchers write -/

/-- The number of words to a target, as a 32-bit number. -/
def wordsTo (rel : Word) : Int := (rel.toInt / 4).bmod (2 ^ 32)

/-- The patchers of branch fields of `n` bits take a distance. -/
def Encodes (n : Nat) (rel : Word) : Prop := (4 : Int) ∣ rel.toInt ∧ Fits n (wordsTo rel)

instance (n : Nat) (rel : Word) : Decidable (Encodes n rel) :=
  inferInstanceAs (Decidable (_ ∧ _))

/-- A distance that does not fit a field of `n` bits, while the number of words does fit it when
it is cut to 32 bits. -/
def Wraps (n : Nat) (rel : Word) : Prop := Encodes n rel ∧ ¬ Fits n (rel.toInt / 4)

instance (n : Nat) (rel : Word) : Decidable (Wraps n rel) := inferInstanceAs (Decidable (_ ∧ _))

/-- A number that fits a field of at most 32 bits is the same in 32 bits. -/
theorem wordsTo_of_fits {n : Nat} {rel : Word} (hn : n ≤ 32) (h : Fits n (rel.toInt / 4)) :
  wordsTo rel = rel.toInt / 4
  := by
  have hpow : (2 : Int) ^ (n - 1) ≤ 2 ^ 31 := by
    apply pow_le_pow_right₀ (by decide)
    omega
  obtain ⟨hlo, hhi⟩ := h
  apply Int.bmod_eq_of_le <;> norm_num at hpow ⊢ <;> omega

/-- A field with the number of words to a target leads to it exactly if that number has not been
cut. -/
theorem lands_iff {n : Nat} (hn : n ≤ 32) {pc target : Word} {x : BitVec n}
    (he : Encodes n (target - pc)) (hx : x.toInt = wordsTo (target - pc)) :
  pc + x.signExtend 64 <<< 2 = target ↔ Fits n ((target - pc).toInt / 4)
  := by
  rw [add_signExtend_eq_iff (by omega), hx]
  obtain ⟨hdvd, hfits⟩ := he
  constructor
  · intro h
    have hq : (target - pc).toInt / 4 = wordsTo (target - pc) := by omega
    rwa [hq]
  · intro h
    rw [wordsTo_of_fits hn h]
    omega

/-- A number that fits a field of `n` bits is read from it. -/
theorem toInt_setWidth_of_fits {n : Nat} (hn : 0 < n) (hn' : n ≤ 32) {x : BitVec 32}
    (h : Fits n x.toInt) :
  (x.setWidth n).toInt = x.toInt
  := by
  obtain ⟨hlo, hhi⟩ := h
  have hpow : (2 : Int) ^ n = 2 * 2 ^ (n - 1) := by
    rw [← pow_succ']
    congr 1
    omega
  have hdvd : (2 ^ n : Nat) ∣ 2 ^ 32 := pow_dvd_pow 2 hn'
  rw [BitVec.toInt_setWidth, ← Int.bmod_bmod_of_dvd (m := 2 ^ 32) hdvd,
    ← BitVec.toInt_eq_toNat_bmod]
  apply Int.bmod_eq_of_le <;> push_cast <;> omega

/-- The distance to a target from an offset in a mapping. -/
def relTo (buf : Word) (off : Nat) (target : Word) : Word :=
  target - (buf + BitVec.ofNat 64 off)

/-- A check of both bounds of a field. -/
theorem rangeCheck {α : Type} (n : Nat) (k : Int) (a : α) :
  (if k < -(2 ^ (n - 1)) ∨ k ≥ 2 ^ (n - 1) then none else some a)
    = if Fits n k then some a else none
  := by
  by_cases h : Fits n k
  · rw [if_pos h, if_neg]
    obtain ⟨hlo, hhi⟩ := h
    omega
  · rw [if_neg h, if_pos]
    rw [Fits] at h
    omega

/-- The checks of a branch patcher hold for the distances that can be encoded. -/
theorem branchChecks {α : Type} {n : Nat} (rel : Word) (a : α) :
  (if rel &&& 3 ≠ 0 then none
    else if ((rel.sdiv 4).setWidth 32).toInt < -(2 ^ (n - 1))
        ∨ ((rel.sdiv 4).setWidth 32).toInt ≥ 2 ^ (n - 1) then none
    else some a)
    = if Encodes n rel then some a else none
  := by
  by_cases hdvd : (4 : Int) ∣ rel.toInt
  · rw [if_neg (not_not.2 ((and_three_eq_zero_iff rel).2 hdvd)), toInt_sdiv_four hdvd, rangeCheck]
    apply if_congr _ rfl rfl
    constructor
    · intro hfits
      exact ⟨hdvd, hfits⟩
    · apply And.right
  · rw [if_pos (fun h => hdvd ((and_three_eq_zero_iff rel).1 h)),
      if_neg (fun h : Encodes n rel => hdvd h.1)]

/-- A branch word is an opcode with its field set. -/
theorem setField_opcode (isBl : Bool) (v : BitVec 32) :
  setField (if isBl then 0x94000000#32 else 0x14000000#32) 0 26 v
    = (if isBl then 0x94000000#32 else 0x14000000#32) ||| (v &&& 0x03FFFFFF#32)
  := by
  have hop : (if isBl then 0x94000000#32 else 0x14000000#32) &&& ~~~(mask 32 26 <<< 0)
      = if isBl then 0x94000000#32 else 0x14000000#32 := by
    cases isBl <;> rfl
  rw [setField, hop, BitVec.shiftLeft_zero]
  rfl

/-- `aarch64_patch_branch26` takes the distances that it can encode. -/
theorem aarch64PatchBranch26_eq (buf : Word) (m : Mem) (off : Nat) (target : Word)
    (isBl : Bool) :
  aarch64PatchBranch26 buf m off target isBl
    = if Encodes 26 (relTo buf off target) then
        some (write m off (layout 4
          (setField (if isBl then 0x94000000#32 else 0x14000000#32) 0 26
            (((relTo buf off target).sdiv 4).setWidth 32))))
      else none
  := by
  rw [← branchChecks, setField_opcode]
  rfl

/-- `aarch64_patch_imm19` takes the distances that it can encode. -/
theorem aarch64PatchImm19_eq (buf : Word) (m : Mem) (off : Nat) (target : Word) :
  aarch64PatchImm19 buf m off target
    = if Encodes 19 (relTo buf off target) then
        some (write m off (layout 4
          (setField (read m off 4) 5 19 (((relTo buf off target).sdiv 4).setWidth 32))))
      else none
  := by
  rw [← branchChecks]
  rfl

/-- `x86_64_patch_rel32` takes the distances that fit. -/
theorem x86PatchRel32_eq (buf : Word) (m : Mem) (off : Nat) (target : Word) :
  x86PatchRel32 buf m off target
    = if Fits 32 (relTo buf off target - 4).toInt then
        some (write m off (layout 4 ((relTo buf off target - 4).setWidth 32)))
      else none
  := by
  have hrel : target - (buf + BitVec.ofNat 64 off + 4) = relTo buf off target - 4 := by
    rw [relTo, BitVec.sub_sub]
  rw [x86PatchRel32, hrel]
  by_cases h : Fits 32 (relTo buf off target - 4).toInt
  · rw [if_pos h, if_neg]
    obtain ⟨hlo, hhi⟩ := h
    omega
  · rw [if_neg h, if_pos]
    rw [Fits] at h
    omega

/-- A displacement of 32 bits leads to the target that it was computed for. -/
theorem x86Rel32_eq {buf : Word} {off : Nat} {target : Word}
    (h : Fits 32 (relTo buf off target - 4).toInt) :
  x86Rel32 (buf + BitVec.ofNat 64 off + 4) ((relTo buf off target - 4).setWidth 32) = target
  := by
  have hword : ((relTo buf off target - 4).setWidth 32).signExtend 64
      = relTo buf off target - 4 := by
    obtain ⟨hlo, hhi⟩ := h
    rw [← BitVec.toInt_inj, BitVec.toInt_signExtend_of_le (by decide), BitVec.toInt_setWidth,
      ← Int.bmod_bmod_of_dvd (m := 2 ^ 64) (n := 2 ^ 32) (by decide),
      ← BitVec.toInt_eq_toNat_bmod]
    apply Int.bmod_eq_of_le <;> norm_num at hlo hhi ⊢ <;> omega
  rw [x86Rel32, hword, relTo]
  bv_omega

/-! ### Pages -/

/-- The page of an address and its offset there. -/
theorem page_add_offset (a : Word) :
  (a &&& ~~~0xFFF#64) + (a &&& 0xFFF#64) = a
  := and_not_add_and a 0xFFF#64

/-- The number of pages from the page of an offset in a mapping to that of a target. -/
def deltaPages (buf : Word) (off : Nat) (target : Word) : Word :=
  ((target &&& ~~~0xFFF#64) - ((buf + BitVec.ofNat 64 off) &&& ~~~0xFFF#64)).sshiftRight 12

/-- The word of `ADRP` with its field set. -/
def adrpWord (w imm : BitVec 32) : BitVec 32 :=
  (w &&& ~~~((0x3#32 <<< 29) ||| (0x7FFFF#32 <<< 5)))
    ||| ((((imm &&& 0x001FFFFF#32) &&& 0x3#32) <<< 29)
      ||| ((((imm &&& 0x001FFFFF#32) >>> 2) &&& 0x7FFFF#32) <<< 5))

/-- The field of `ADRP` is read as it was set. -/
theorem extract_adrpWord (w imm : BitVec 32) :
  (adrpWord w imm).extractLsb' 5 19 ++ (adrpWord w imm).extractLsb' 29 2
    = imm.setWidth 21
  := by
  apply BitVec.eq_of_getLsbD_eq
  intro i hi
  simp only [BitVec.getLsbD_append, BitVec.getLsbD_extractLsb', BitVec.getLsbD_setWidth,
    adrpWord, BitVec.getLsbD_or, BitVec.getLsbD_and, BitVec.getLsbD_not,
    BitVec.getLsbD_shiftLeft, BitVec.getLsbD_ushiftRight]
  interval_cases i <;> simp

/-- The other bits of `ADRP` are kept. -/
theorem adrpWord_and_not (w imm : BitVec 32) :
  adrpWord w imm &&& ~~~((0x3#32 <<< 29) ||| (0x7FFFF#32 <<< 5))
    = w &&& ~~~((0x3#32 <<< 29) ||| (0x7FFFF#32 <<< 5))
  := by
  apply BitVec.eq_of_getLsbD_eq
  intro i hi
  interval_cases i <;> simp [adrpWord]

/-- `aarch64_patch_page21` takes the distances that fit. -/
theorem aarch64PatchPage21_eq (buf : Word) (m : Mem) (off : Nat) (target : Word) :
  aarch64PatchPage21 buf m off target
    = if Fits 21 (deltaPages buf off target).toInt then
        some (write m off (layout 4
          (adrpWord (read m off 4) ((deltaPages buf off target).setWidth 32))))
      else none
  := by
  rw [← rangeCheck]
  rfl

/-- The bits of an offset in a page. -/
theorem getLsbD_offset (x : Word) (i : Nat) :
  (x &&& 0xFFF#64).getLsbD i = (x.getLsbD i && decide (i < 12))
  := by
  have hmask : 0xFFF#64 = mask 64 12 := rfl
  rw [hmask, BitVec.getLsbD_and, getLsbD_mask]
  cases hx : x.getLsbD i with
  | false => rfl
  | true => simp [BitVec.lt_of_getLsbD hx]

/-- An address is the beginning of a page if its offset is zero. -/
theorem and_eq_zero_iff (x : Word) :
  x &&& 0xFFF#64 = 0#64 ↔ x.toNat % 4096 = 0
  := by
  have h : (x &&& 0xFFF#64).toNat = x.toNat % 4096 := by
    rw [BitVec.toNat_and]
    apply Nat.and_two_pow_sub_one_eq_mod x.toNat 12
  rw [← BitVec.toNat_inj, h]
  rfl

/-- A page begins at a multiple of its size. -/
theorem page_mod (a : Word) :
  (a &&& ~~~0xFFF#64).toNat % 4096 = 0
  := by
  rw [← and_eq_zero_iff]
  apply BitVec.eq_of_getLsbD_eq
  intro i hi
  rw [BitVec.getLsbD_and, BitVec.getLsbD_and, BitVec.getLsbD_not]
  cases (0xFFF#64).getLsbD i <;> simp

/-- A difference of pages is made of pages. -/
theorem sshiftRight_shiftLeft_pages (a b : Word) :
  ((a &&& ~~~0xFFF#64) - (b &&& ~~~0xFFF#64)).sshiftRight 12 <<< 12
    = (a &&& ~~~0xFFF#64) - (b &&& ~~~0xFFF#64)
  := by
  have hzero : ((a &&& ~~~0xFFF#64) - (b &&& ~~~0xFFF#64)) &&& 0xFFF#64 = 0#64 := by
    rw [and_eq_zero_iff, BitVec.toNat_sub]
    have ha := page_mod a
    have hb := page_mod b
    omega
  generalize (a &&& ~~~0xFFF#64) - (b &&& ~~~0xFFF#64) = x at hzero ⊢
  apply BitVec.eq_of_getLsbD_eq
  intro i hi
  rw [BitVec.getLsbD_shiftLeft, BitVec.getLsbD_sshiftRight]
  by_cases h : i < 12
  · have hbit := getLsbD_offset x i
    rw [hzero, BitVec.getLsbD_zero, decide_eq_true h, Bool.and_true] at hbit
    rw [← hbit]
    simp [h]
  · have hsub : 12 + (i - 12) = i := by omega
    have hge : ¬ 64 ≤ i - 12 := by omega
    simp [h, hi, hsub, hge]

/-- `ADRP` computes the page of the target. -/
theorem a64Adrp_eq {buf : Word} {off : Nat} {target : Word}
    (h : Fits 21 (deltaPages buf off target).toInt) (w : BitVec 32) :
  a64Adrp (buf + BitVec.ofNat 64 off)
      (adrpWord w ((deltaPages buf off target).setWidth 32))
    = target &&& ~~~0xFFF#64
  := by
  have hword : (((deltaPages buf off target).setWidth 32).setWidth 21).signExtend 64
      = deltaPages buf off target := by
    obtain ⟨hlo, hhi⟩ := h
    rw [BitVec.setWidth_setWidth_of_le _ (by decide), ← BitVec.toInt_inj,
      BitVec.toInt_signExtend_of_le (by decide), BitVec.toInt_setWidth,
      ← Int.bmod_bmod_of_dvd (m := 2 ^ 64) (n := 2 ^ 21) (by decide),
      ← BitVec.toInt_eq_toNat_bmod]
    apply Int.bmod_eq_of_le <;> norm_num at hlo hhi ⊢ <;> omega
  rw [a64Adrp, extract_adrpWord, hword, deltaPages, sshiftRight_shiftLeft_pages, BitVec.add_comm,
    BitVec.sub_add_cancel]

/-- The word of `ADD` after `aarch64_patch_pageoff12`. -/
theorem aarch64PatchPageOff12_eq (m : Mem) (off : Nat) (target : Word) :
  aarch64PatchPageOff12 m off target
    = write m off (layout 4 (setField (read m off 4) 10 12 ((target &&& 0xFFF).setWidth 32)))
  := rfl

/-- `ADD` adds the offset of the target in its page. -/
theorem a64AddImm_eq (w : BitVec 32) (target : Word) :
  a64AddImm (setField w 10 12 ((target &&& 0xFFF#64).setWidth 32)) = target &&& 0xFFF#64
  := by
  rw [a64AddImm, extract_setField _ _ (by decide)]
  apply BitVec.eq_of_getLsbD_eq
  intro i hi
  rw [BitVec.getLsbD_setWidth, BitVec.getLsbD_setWidth, BitVec.getLsbD_setWidth,
    getLsbD_offset]
  by_cases h : i < 12
  · have hlt : i < 32 := by omega
    simp [h, hi, hlt]
  · simp [h]

/-! ### Veneers -/

/-- The register of a move to X16. -/
theorem movWide_rd (opc : BitVec 32) (imm : BitVec 16) (hw : BitVec 32) :
  (aarch64MovWide opc imm hw).extractLsb' 0 5 = 16
  := by
  apply BitVec.eq_of_getLsbD_eq
  intro i hi
  rw [BitVec.getLsbD_extractLsb', aarch64MovWide]
  interval_cases i <;> simp

/-- The number that is moved to X16. -/
theorem movWide_imm (opc : BitVec 32) (imm : BitVec 16) (hw : BitVec 32) :
  (aarch64MovWide opc imm hw).extractLsb' 5 16 = imm
  := by
  apply BitVec.eq_of_getLsbD_eq
  intro i hi
  rw [BitVec.getLsbD_extractLsb', aarch64MovWide]
  interval_cases i <;> simp

/-- The shift of a move to X16. -/
theorem movWide_hw (opc : BitVec 32) (imm : BitVec 16) (hw : BitVec 32) :
  (aarch64MovWide opc imm hw).extractLsb' 21 2 = hw.setWidth 2
  := by
  apply BitVec.eq_of_getLsbD_eq
  intro i hi
  rw [BitVec.getLsbD_extractLsb', aarch64MovWide]
  interval_cases i <;> simp

/-- The opcode of a move to X16. -/
theorem movWide_opc (opc : BitVec 32) (imm : BitVec 16) (hw : BitVec 32) :
  (aarch64MovWide opc imm hw).extractLsb' 23 9 = 0x125 ||| (opc.setWidth 9 <<< 6)
  := by
  apply BitVec.eq_of_getLsbD_eq
  intro i hi
  rw [BitVec.getLsbD_extractLsb', aarch64MovWide]
  interval_cases i <;> simp

/-- A move to X16 is no branch. -/
theorem movWide_ne_br (opc : BitVec 32) (imm : BitVec 16) (hw : BitVec 32) :
  aarch64MovWide opc imm hw ≠ 0xD61F0200#32
  := by
  intro h
  have hrd := movWide_rd opc imm hw
  rw [h] at hrd
  revert hrd
  decide

/-- A run goes on after a move to X16. -/
theorem a64Run_movWide {m : Mem} {off : Nat} {opc hw : BitVec 32} {imm : BitVec 16}
    (h : read m off 4 = aarch64MovWide opc imm hw) (n : Nat) (x16 : Word) :
  a64Run m (n + 1) off x16
    = (a64MovWide x16 (aarch64MovWide opc imm hw)).bind (a64Run m n (off + 4))
  := by
  rw [a64Run, h, if_neg (movWide_ne_br opc imm hw)]

/-- A move that clears the rest of X16. -/
theorem a64MovWide_movz (x16 : Word) (imm : BitVec 16) :
  a64MovWide x16 (aarch64MovWide 2 imm 0) = some (imm.setWidth 64)
  := by
  rw [a64MovWide, movWide_rd, movWide_imm, movWide_hw, movWide_opc]
  simp

/-- A move that keeps the rest of X16. -/
theorem a64MovWide_movk (x16 : Word) (imm : BitVec 16) (hw : BitVec 32) :
  a64MovWide x16 (aarch64MovWide 3 imm hw)
    = some ((x16 &&& ~~~(0xFFFF#64 <<< (16 * (hw.setWidth 2).toNat)))
      ||| (imm.setWidth 64 <<< (16 * (hw.setWidth 2).toNat)))
  := by
  rw [a64MovWide, movWide_rd, movWide_imm, movWide_hw, movWide_opc]
  simp

/-- Four moves of sixteen bits make up a word. -/
theorem movWide_word (t : Word) :
  (((((((t.setWidth 16).setWidth 64 : Word) &&& ~~~(0xFFFF#64 <<< 16))
      ||| (((t >>> 16).setWidth 16).setWidth 64 <<< 16)) &&& ~~~(0xFFFF#64 <<< 32))
      ||| (((t >>> 32).setWidth 16).setWidth 64 <<< 32)) &&& ~~~(0xFFFF#64 <<< 48))
      ||| (((t >>> 48).setWidth 16).setWidth 64 <<< 48) = t
  := by
  apply BitVec.eq_of_getLsbD_eq
  intro i hi
  interval_cases i <;> simp

/-- The processors that code is finalised for. -/
inductive JitArch where
  | aarch64
  | x86
  deriving DecidableEq

/-- The bytes of a veneer. -/
def JitArch.veneer (target : Word) : JitArch → List Byte
  | aarch64 => (aarch64Trampoline target).flatMap (layout 4)
  | x86 => [0x49, 0xBB] ++ layout 8 target ++ [0x41, 0xFF, 0xE3]

/-- The number of bytes of a veneer. -/
def JitArch.veneerSize : JitArch → Nat
  | aarch64 => aarch64VeneerBytes
  | x86 => x86VeneerBytes

/-- Code at an offset goes to a target. -/
def JitArch.Runs (m : Mem) (off : Nat) (target : Word) : JitArch → Prop
  | aarch64 => ∀ x16, a64Run m 5 off x16 = some target
  | x86 => x86Run m off = some target

/-- The number of bytes of a veneer. -/
@[simp] theorem JitArch.length_veneer (arch : JitArch) (target : Word) :
  (arch.veneer target).length = arch.veneerSize
  := by
  cases arch <;> rfl

/-- The bytes of a veneer are at an offset. -/
def JitArch.VeneerAt (arch : JitArch) (m : Mem) (off : Nat) (target : Word) : Prop :=
  ∀ i, off ≤ i → i < off + arch.veneerSize → m i = write m off (arch.veneer target) i

/-- The instructions of a trampoline go to its target. -/
theorem a64Run_trampoline {m : Mem} {off : Nat} {t : Word}
    (h : ∀ k < 5, read m (off + 4 * k) 4 = (aarch64Trampoline t).getD k 0) (x16 : Word) :
  a64Run m 5 off x16 = some t
  := by
  have h0 : read m off 4 = aarch64MovWide 2 (t.setWidth 16) 0 := h 0 (by decide)
  have h1 : read m (off + 4) 4 = aarch64MovWide 3 ((t >>> 16).setWidth 16) 1 :=
    h 1 (by decide)
  have h2 : read m (off + 4 + 4) 4 = aarch64MovWide 3 ((t >>> 32).setWidth 16) 2 :=
    h 2 (by decide)
  have h3 : read m (off + 4 + 4 + 4) 4 = aarch64MovWide 3 ((t >>> 48).setWidth 16) 3 :=
    h 3 (by decide)
  have h4 : read m (off + 4 + 4 + 4 + 4) 4 = 0xD61F0200#32 := h 4 (by decide)
  rw [a64Run_movWide h0, a64MovWide_movz, Option.bind_some, a64Run_movWide h1,
    a64MovWide_movk, Option.bind_some, a64Run_movWide h2, a64MovWide_movk, Option.bind_some,
    a64Run_movWide h3, a64MovWide_movk, Option.bind_some, a64Run, if_pos h4]
  apply congrArg some (movWide_word t)

/-- A veneer goes to its target. -/
theorem JitArch.VeneerAt.runs {arch : JitArch} {m : Mem} {off : Nat} {target : Word}
    (h : arch.VeneerAt m off target) :
  arch.Runs m off target
  := by
  cases arch with
  | aarch64 =>
    intro x16
    apply a64Run_trampoline
    intro k hk
    have hcongr : read m (off + 4 * k) 4
        = read (write m off ((aarch64Trampoline target).flatMap (layout 4))) (off + 4 * k) 4 := by
      apply read_congr
      intro i hlo hhi
      apply h i (by omega)
      rw [veneerSize, aarch64VeneerBytes]
      omega
    rw [hcongr]
    apply read_write_flatMap (n := 4) (aarch64Trampoline target) m off
    apply hk
  | x86 =>
    have hbyte (k : Nat) (hk : k < 13) : m (off + k) = (x86.veneer target).getD k 0 := by
      rw [h (off + k) (by omega) (Nat.add_lt_add_left hk off)]
      apply write_of_mem hk
    have hcongr : read m (off + 2) 8
        = read (write (write m off [0x49, 0xBB]) (off + 2) (layout 8 target)) (off + 2) 8 := by
      apply read_congr
      intro i hlo hhi
      rw [h i (by omega) (by rw [veneerSize, x86VeneerBytes]; omega), veneer, write_append,
        write_append]
      apply write_of_lt
      rw [List.length_append, length_layout]
      change i < off + (2 + 8)
      omega
    have hword : read m (off + 2) 8 = target := by
      rw [hcongr]
      apply read_write_layout
    rw [Runs, x86Run, if_pos, hword]
    have h0 := hbyte 0 (by decide)
    have h1 := hbyte 1 (by decide)
    have h10 := hbyte 10 (by decide)
    have h11 := hbyte 11 (by decide)
    have h12 := hbyte 12 (by decide)
    exact ⟨h0, h1, h10, h11, h12⟩

end Polyc
