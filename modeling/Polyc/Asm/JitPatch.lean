import Mathlib.Algebra.Ring.Divisibility.Basic
import Polyc.Asm.JitExec

/-!
# One fixup

What a turn of the loop of `asm_jit_finalize` does: which distances a fixup takes, the word that
is written for one, the address that this word stands for, and the veneer that takes the place
of a target that is too far.
-/

namespace Polyc

open Bytes BitField

/-! ### Words of fixups -/

/-- The processor of a relocation. -/
def AsmFixupReloc.arch : AsmFixupReloc → JitArch
  | .aarch64Call26 | .aarch64Jump26 | .aarch64Bcond19 | .aarch64Page21 | .aarch64PageOff12 =>
    .aarch64
  | _ => .x86

/-- A relocation that may lead through a veneer. -/
def AsmFixupReloc.viaVeneer : AsmFixupReloc → Bool
  | .aarch64Call26 | .aarch64Jump26 | .x86Call32 | .x86Jmp32 | .x86Jcc32 => true
  | _ => false

namespace AsmFixup

variable (f : AsmFixup) (buf : Word)

/-- The address of a fixup. -/
def address : Word := buf + BitVec.ofNat 64 f.patchOffset

/-- The patcher of a fixup takes a target. -/
def Takes (target : Word) : Prop :=
  match f.reloc with
  | .aarch64Call26 | .aarch64Jump26 => Encodes 26 (relTo buf f.patchOffset target)
  | .aarch64Bcond19 => Encodes 19 (relTo buf f.patchOffset target)
  | .aarch64Page21 => Fits 21 (deltaPages buf f.patchOffset target).toInt
  | .aarch64PageOff12 => True
  | .x86Call32 | .x86Jmp32 | .x86Jcc32 | .x86Signed =>
    Fits 32 (relTo buf f.patchOffset target - 4).toInt
  | .none => False

/-- The word that the patcher of a fixup writes over another. -/
def word (w : BitVec 32) (target : Word) : BitVec 32 :=
  match f.reloc with
  | .aarch64Call26 =>
    setField 0x94000000#32 0 26 (((relTo buf f.patchOffset target).sdiv 4).setWidth 32)
  | .aarch64Jump26 =>
    setField 0x14000000#32 0 26 (((relTo buf f.patchOffset target).sdiv 4).setWidth 32)
  | .aarch64Bcond19 => setField w 5 19 (((relTo buf f.patchOffset target).sdiv 4).setWidth 32)
  | .aarch64Page21 => adrpWord w ((deltaPages buf f.patchOffset target).setWidth 32)
  | .aarch64PageOff12 => setField w 10 12 ((target &&& 0xFFF).setWidth 32)
  | _ => (relTo buf f.patchOffset target - 4).setWidth 32

/-- What the word of a fixup stands for. -/
def lands (w : BitVec 32) : Word :=
  match f.reloc with
  | .aarch64Call26 | .aarch64Jump26 => a64Branch26 (f.address buf) w
  | .aarch64Bcond19 => a64Branch19 (f.address buf) w
  | .aarch64Page21 => a64Adrp (f.address buf) w
  | .aarch64PageOff12 => a64AddImm w
  | _ => x86Rel32 (f.address buf + 4) w

/-- What the word of a fixup should stand for: its target, or the part of it that the
relocation is for. -/
def goal (target : Word) : Word :=
  match f.reloc with
  | .aarch64Page21 => target &&& ~~~0xFFF#64
  | .aarch64PageOff12 => target &&& 0xFFF#64
  | _ => target

/-- A target cannot be reached: it is not known, or the fixup takes neither it nor a veneer
between two offsets. -/
def Unreachable (lo hi : Nat) (target : Word) : Prop :=
  target = 0 ∨ ¬ f.Takes buf target
    ∧ (f.reloc.viaVeneer = true → ∀ o, lo ≤ o → o ≤ hi → ¬ f.Takes buf (buf + BitVec.ofNat 64 o))

/-- The distance to a target is cut where it is computed in 32 bits. -/
def Cut (target : Word) : Prop :=
  match f.reloc with
  | .aarch64Call26 | .aarch64Jump26 => Wraps 26 (relTo buf f.patchOffset target)
  | .aarch64Bcond19 => Wraps 19 (relTo buf f.patchOffset target)
  | _ => False

end AsmFixup

/-- A state after the word of a fixup is written. -/
def JitState.patched (s : JitState) (f : AsmFixup) (buf target : Word) : JitState :=
  { s with
    mem := write s.mem f.patchOffset
      (layout 4 (f.word buf (read s.mem f.patchOffset 4) target)) }

/-! ### Landing -/

/-- The branch words of 26 bits lead to their target exactly if its distance is not cut. -/
theorem branch26_lands {buf : Word} {off : Nat} {target : Word} (op : BitVec 32)
    (h : Encodes 26 (relTo buf off target)) :
  a64Branch26 (buf + BitVec.ofNat 64 off)
      (setField op 0 26 (((relTo buf off target).sdiv 4).setWidth 32)) = target
    ↔ ¬ Wraps 26 (relTo buf off target)
  := by
  have hx : (((relTo buf off target).sdiv 4).setWidth 32).toInt
      = wordsTo (relTo buf off target) := toInt_sdiv_four h.1
  rw [a64Branch26, extract_setField _ _ (by decide), lands_iff (by decide) h]
  · rw [Wraps, not_and, not_not]
    apply Iff.intro (fun hf _ => hf) (fun hf => hf h)
  · rw [toInt_setWidth_of_fits (by decide) (by decide), hx]
    · rfl
    · rw [hx]
      apply h.2

/-- The branch words of 19 bits lead to their target exactly if its distance is not cut. -/
theorem branch19_lands {buf : Word} {off : Nat} {target : Word} (w : BitVec 32)
    (h : Encodes 19 (relTo buf off target)) :
  a64Branch19 (buf + BitVec.ofNat 64 off)
      (setField w 5 19 (((relTo buf off target).sdiv 4).setWidth 32)) = target
    ↔ ¬ Wraps 19 (relTo buf off target)
  := by
  have hx : (((relTo buf off target).sdiv 4).setWidth 32).toInt
      = wordsTo (relTo buf off target) := toInt_sdiv_four h.1
  rw [a64Branch19, extract_setField _ _ (by decide), lands_iff (by decide) h]
  · rw [Wraps, not_and, not_not]
    apply Iff.intro (fun hf _ => hf) (fun hf => hf h)
  · rw [toInt_setWidth_of_fits (by decide) (by decide), hx]
    · rfl
    · rw [hx]
      apply h.2

namespace AsmFixup

variable {f : AsmFixup} {buf target : Word}

/-- A fixup that takes a target has a relocation. -/
theorem Takes.reloc_ne (h : f.Takes buf target) :
  f.reloc ≠ .none
  := by
  intro hreloc
  rw [Takes, hreloc] at h
  apply h

/-- The word of a fixup stands for what it should exactly if the distance is not cut. -/
theorem lands_word_iff (h : f.Takes buf target) (w : BitVec 32) :
  f.lands buf (f.word buf w target) = f.goal target ↔ ¬ f.Cut buf target
  := by
  obtain ⟨kind, reloc, off, width, pcrel, localNum, sym⟩ := f
  cases reloc with
  | none => cases h
  | aarch64Call26 => apply branch26_lands _ h
  | aarch64Jump26 => apply branch26_lands _ h
  | aarch64Bcond19 => apply branch19_lands _ h
  | aarch64Page21 => apply iff_of_true (a64Adrp_eq h w) not_false
  | aarch64PageOff12 => apply iff_of_true (a64AddImm_eq w target) not_false
  | x86Call32 => apply iff_of_true (x86Rel32_eq h) not_false
  | x86Jmp32 => apply iff_of_true (x86Rel32_eq h) not_false
  | x86Jcc32 => apply iff_of_true (x86Rel32_eq h) not_false
  | x86Signed => apply iff_of_true (x86Rel32_eq h) not_false

end AsmFixup

/-! ### Distances that are cut -/

/-- The distances that can be encoded in 26 bits repeat every 2^34 bytes. -/
theorem encodes_congr {x y : Word} (h : (2 ^ 34 : Int) ∣ x.toInt - y.toInt) :
  Encodes 26 x ↔ Encodes 26 y
  := by
  obtain ⟨q, hq⟩ := h
  have hx : x.toInt = y.toInt + 4 * (2 ^ 32 * q) := by omega
  have hdvd : (4 : Int) ∣ x.toInt ↔ (4 : Int) ∣ y.toInt := by omega
  have hdiv : x.toInt / 4 = y.toInt / 4 + (2 ^ 32 : Nat) * q := by
    push_cast
    omega
  rw [Encodes, Encodes, wordsTo, wordsTo, hdvd, hdiv, Int.add_mul_bmod_self_left]

/-- A difference of signed numbers and that of the words leave the same remainder. -/
theorem dvd_toInt_sub_iff (x y : Word) :
  (2 ^ 34 : Int) ∣ (x - y).toInt ↔ (2 ^ 34 : Int) ∣ x.toInt - y.toInt
  := by
  have hcut : (2 ^ 34 : Int) ∣ (x.toInt - y.toInt) - (x.toInt - y.toInt).bmod (2 ^ 64) := by
    apply dvd_trans _ Int.dvd_self_sub_bmod
    decide
  rw [BitVec.toInt_sub, dvd_iff_dvd_of_dvd_sub hcut]

/-- The distances to two targets differ in the same way from all offsets. -/
theorem relTo_sub_relTo (buf : Word) (off : Nat) (x y : Word) :
  relTo buf off x - relTo buf off y = x - y
  := by
  rw [relTo, relTo]
  bv_omega

/-- A branch of 26 bits that is cut goes a multiple of 2^34 bytes wrong. -/
theorem branch26_near {buf : Word} {off : Nat} {target : Word} (op : BitVec 32)
    (h : Encodes 26 (relTo buf off target)) :
  (2 ^ 34 : Int) ∣ (target - a64Branch26 (buf + BitVec.ofNat 64 off)
    (setField op 0 26 (((relTo buf off target).sdiv 4).setWidth 32))).toInt
  := by
  have hx : (((relTo buf off target).sdiv 4).setWidth 32).toInt
      = wordsTo (relTo buf off target) := toInt_sdiv_four h.1
  have hland : 4 * wordsTo (relTo buf off target) = (relTo buf off (a64Branch26
      (buf + BitVec.ofNat 64 off)
      (setField op 0 26 (((relTo buf off target).sdiv 4).setWidth 32)))).toInt := by
    have hfits : Fits 26 (((relTo buf off target).sdiv 4).setWidth 32).toInt := by
      rw [hx]
      apply h.2
    rw [a64Branch26, extract_setField _ _ (by decide), ← hx,
      ← toInt_setWidth_of_fits (by decide) (by decide) hfits]
    apply (add_signExtend_eq_iff (by decide) _ _ _).1 rfl
  rw [← relTo_sub_relTo buf off, dvd_toInt_sub_iff, ← hland]
  have hcut : (2 ^ 32 : Int) ∣ (relTo buf off target).toInt / 4
      - wordsTo (relTo buf off target) := Int.dvd_self_sub_bmod
  obtain ⟨hdvd, -⟩ := h
  omega

/-- The fixups that take a branch of 26 bits do not tell a target from where a cut branch to it
goes. -/
theorem AsmFixup.takes_of_branch26 {f g : AsmFixup} {buf target : Word} (w : BitVec 32)
    (hf : f.reloc = .aarch64Call26 ∨ f.reloc = .aarch64Jump26)
    (hg : g.reloc = .aarch64Call26 ∨ g.reloc = .aarch64Jump26)
    (h : f.Takes buf target) (hland : g.Takes buf (f.lands buf (f.word buf w target))) :
  g.Takes buf target
  := by
  have hnear : (2 ^ 34 : Int) ∣ (target - f.lands buf (f.word buf w target)).toInt := by
    rcases hf with hf | hf <;> rw [Takes, hf] at h <;> rw [lands, word, hf] <;>
      apply branch26_near _ h
  rw [← relTo_sub_relTo buf g.patchOffset, dvd_toInt_sub_iff] at hnear
  rcases hg with hg | hg <;> rw [Takes, hg] at hland ⊢ <;> rwa [encodes_congr hnear]

/-- The distance from the code to a veneer is not cut. -/
theorem AsmFixup.not_cut_veneer {f : AsmFixup} (buf : Word) {o : Nat}
    (hf : f.patchOffset ≤ o) (ho : o < 2 ^ 33) :
  ¬ f.Cut buf (buf + BitVec.ofNat 64 o)
  := by
  have hrel : (relTo buf f.patchOffset (buf + BitVec.ofNat 64 o)).toInt = o - f.patchOffset := by
    have hsub : relTo buf f.patchOffset (buf + BitVec.ofNat 64 o)
        = BitVec.ofNat 64 (o - f.patchOffset) := by
      rw [relTo]
      apply BitVec.eq_of_toNat_eq
      simp only [BitVec.toNat_sub, BitVec.toNat_add, BitVec.toNat_ofNat]
      omega
    rw [hsub, BitVec.toInt_eq_toNat_of_lt, BitVec.toNat_ofNat]
    · omega
    · rw [BitVec.toNat_ofNat]
      omega
  have hwords : wordsTo (relTo buf f.patchOffset (buf + BitVec.ofNat 64 o))
      = (relTo buf f.patchOffset (buf + BitVec.ofNat 64 o)).toInt / 4 := by
    rw [wordsTo, hrel]
    apply Int.bmod_eq_of_le <;> omega
  have hwraps (n : Nat) : ¬ Wraps n (relTo buf f.patchOffset (buf + BitVec.ofNat 64 o)) := by
    rintro ⟨⟨-, hfits⟩, hnot⟩
    rw [hwords] at hfits
    apply hnot hfits
  rw [Cut]
  split
  · apply hwraps
  · apply hwraps
  · apply hwraps
  · apply not_false

/-! ### One turn of the loop -/

/-- A patcher writes the word of a fixup for the targets that the fixup takes. -/
def AsmFixup.PatchesAs (f : AsmFixup) (buf : Word) (patch : Mem → Word → Option Mem) : Prop :=
  ∀ m t,
    (f.Takes buf t → patch m t = some (write m f.patchOffset
      (layout 4 (f.word buf (read m f.patchOffset 4) t))))
    ∧ (¬ f.Takes buf t → patch m t = none)

/-- A patcher that checks what the fixup takes. -/
theorem AsmFixup.patchesAs_of_eq {f : AsmFixup} {buf : Word} {patch : Mem → Word → Option Mem}
    {p : Word → Prop} [DecidablePred p] (hp : ∀ t, f.Takes buf t ↔ p t)
    (h : ∀ m t, patch m t = if p t then some (write m f.patchOffset
      (layout 4 (f.word buf (read m f.patchOffset 4) t))) else none) :
  f.PatchesAs buf patch
  := by
  intro m t
  rw [hp, h]
  constructor
  · intro ht
    apply if_pos ht
  · intro ht
    apply if_neg ht

/-- The patcher of the branches of 26 bits. -/
theorem patchesAs_branch26 {f : AsmFixup} (buf : Word) (isBl : Bool)
    (h : f.reloc = if isBl then .aarch64Call26 else .aarch64Jump26) :
  f.PatchesAs buf fun m t => aarch64PatchBranch26 buf m f.patchOffset t isBl
  := by
  apply AsmFixup.patchesAs_of_eq (p := fun t => Encodes 26 (relTo buf f.patchOffset t))
  · intro t
    cases isBl <;> rw [AsmFixup.Takes, h] <;> rfl
  · intro m t
    rw [aarch64PatchBranch26_eq]
    cases isBl <;> rw [AsmFixup.word, h] <;> rfl

/-- The patcher of the branches of 19 bits. -/
theorem patchesAs_imm19 {f : AsmFixup} (buf : Word) (h : f.reloc = .aarch64Bcond19) :
  f.PatchesAs buf fun m t => aarch64PatchImm19 buf m f.patchOffset t
  := by
  apply AsmFixup.patchesAs_of_eq (p := fun t => Encodes 19 (relTo buf f.patchOffset t))
  · intro t
    rw [AsmFixup.Takes, h]
  · intro m t
    rw [aarch64PatchImm19_eq, AsmFixup.word, h]

/-- The patcher of the pages. -/
theorem patchesAs_page21 {f : AsmFixup} (buf : Word) (h : f.reloc = .aarch64Page21) :
  f.PatchesAs buf fun m t => aarch64PatchPage21 buf m f.patchOffset t
  := by
  apply AsmFixup.patchesAs_of_eq
    (p := fun t => Fits 21 (deltaPages buf f.patchOffset t).toInt)
  · intro t
    rw [AsmFixup.Takes, h]
  · intro m t
    rw [aarch64PatchPage21_eq, AsmFixup.word, h]

/-- The patcher of the offsets in a page. -/
theorem patchesAs_pageOff12 {f : AsmFixup} (buf : Word) (h : f.reloc = .aarch64PageOff12) :
  f.PatchesAs buf fun m t => some (aarch64PatchPageOff12 m f.patchOffset t)
  := by
  apply AsmFixup.patchesAs_of_eq (p := fun _ => True)
  · intro t
    rw [AsmFixup.Takes, h]
  · intro m t
    rw [aarch64PatchPageOff12_eq, AsmFixup.word, h]
    rfl

/-- The patcher of the displacements of 32 bits. -/
theorem patchesAs_rel32 {f : AsmFixup} (buf : Word)
    (h : f.reloc = .x86Call32 ∨ f.reloc = .x86Jmp32 ∨ f.reloc = .x86Jcc32
      ∨ f.reloc = .x86Signed) :
  f.PatchesAs buf fun m t => x86PatchRel32 buf m f.patchOffset t
  := by
  apply AsmFixup.patchesAs_of_eq
    (p := fun t => Fits 32 (relTo buf f.patchOffset t - 4).toInt)
  · intro t
    rcases h with h | h | h | h <;> rw [AsmFixup.Takes, h]
  · intro m t
    rcases h with h | h | h | h <;> rw [x86PatchRel32_eq, AsmFixup.word, h]

/-- A fixup that is patched in its place takes its target. -/
theorem AsmFixup.PatchesAs.inPlace {f : AsmFixup} {buf target : Word}
    {patch : Mem → Word → Option Mem} {s s' : JitState} (hpatch : f.PatchesAs buf patch)
    (h : (patch s.mem target).map (fun m => { s with mem := m }) = some s') :
  f.Takes buf target ∧ s' = s.patched f buf target
  := by
  by_cases ht : f.Takes buf target
  · rw [(hpatch s.mem target).1 ht] at h
    exact ⟨ht, (Option.some.inj h).symm⟩
  · rw [(hpatch s.mem target).2 ht] at h
    cases h

/-- A branch takes its target, or a veneer of it. -/
theorem AsmFixup.PatchesAs.branch {f : AsmFixup} {buf target : Word}
    {patch : Mem → Word → Option Mem} {veneer : JitState → Word → Word × JitState}
    {s s' : JitState} (hpatch : f.PatchesAs buf patch)
    (h : jitBranch patch veneer s target = some s') :
  (f.Takes buf target ∧ s' = s.patched f buf target)
    ∨ (¬ f.Takes buf target ∧ f.Takes buf (veneer s target).1
      ∧ s' = (veneer s target).2.patched f buf (veneer s target).1)
  := by
  rw [jitBranch] at h
  by_cases ht : f.Takes buf target
  · rw [(hpatch s.mem target).1 ht] at h
    left
    exact ⟨ht, (Option.some.inj h).symm⟩
  · rw [(hpatch s.mem target).2 ht] at h
    right
    apply And.intro ht (hpatch.inPlace h)

/-- The veneer of a target on a processor. -/
def JitArch.veneerOf (arch : JitArch) (buf : Word) (s : JitState) (target : Word) :
    Word × JitState :=
  jitVeneer buf (fun m off t => write m off (arch.veneer t)) arch.veneerSize s target

/-- What a turn of the loop does with a target. -/
theorem jitPatch_cases {buf : Word} {s s' : JitState} {f : AsmFixup} {target : Word}
    (h : jitPatch buf s f target = some s') :
  (f.Takes buf target ∧ s' = s.patched f buf target)
    ∨ (f.reloc.viaVeneer = true ∧ ¬ f.Takes buf target
      ∧ f.Takes buf (f.reloc.arch.veneerOf buf s target).1
      ∧ s' = (f.reloc.arch.veneerOf buf s target).2.patched f buf
        (f.reloc.arch.veneerOf buf s target).1)
  := by
  rw [jitPatch] at h
  cases hr : f.reloc with
  | none =>
    rw [hr] at h
    cases h
  | aarch64Bcond19 =>
    rw [hr] at h
    apply Or.inl ((patchesAs_imm19 buf hr).inPlace h)
  | aarch64Page21 =>
    rw [hr] at h
    apply Or.inl ((patchesAs_page21 buf hr).inPlace h)
  | aarch64PageOff12 =>
    rw [hr] at h
    apply Or.inl ((patchesAs_pageOff12 buf hr).inPlace h)
  | x86Signed =>
    rw [hr] at h
    apply Or.inl ((patchesAs_rel32 buf (by simp [hr])).inPlace h)
  | aarch64Call26 =>
    rw [hr] at h
    apply ((patchesAs_branch26 buf true hr).branch h).imp_right
    apply And.intro rfl
  | aarch64Jump26 =>
    rw [hr] at h
    apply ((patchesAs_branch26 buf false hr).branch h).imp_right
    apply And.intro rfl
  | _ =>
    rw [hr] at h
    apply ((patchesAs_rel32 buf (by simp [hr])).branch h).imp_right
    apply And.intro rfl

end Polyc
