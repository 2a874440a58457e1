import Polyc.Lib.Bytes
import Polyc.Lib.CString
import Polyc.Lib.Loop

/-!
# Comparison of strings

The assembly routines of `strings.HC` for the two targets: each loop as a turn on the registers
and the memory it reads, each routine as what it does before the loop and at most some turns.
-/

namespace Polyc

open Bytes (Byte)

/-- What a byte is at an address. -/
abbrev Fetch := BitVec 64 → Byte

/-! ### x86-64 -/

/-- The registers the routines use, but for those of the stack. -/
structure X86Regs where
  rax : BitVec 64
  rbx : BitVec 64
  rcx : BitVec 64
  rdx : BitVec 64
  rsi : BitVec 64
  rdi : BitVec 64

/-- The lowest byte of a register. -/
def low (x : BitVec 64) : Byte := x.setWidth 8

/-- A register after its lowest byte is set. -/
def setLow (x : BitVec 64) (b : Byte) : BitVec 64 := x.extractLsb' 8 56 ++ b

/-- `LODSB`. -/
def lodsb (mem : Fetch) (r : X86Regs) : X86Regs :=
  { r with rax := setLow r.rax (mem r.rsi), rsi := r.rsi + 1 }

/-- The comparisons with 97 and 122 and the subtraction of 32. -/
def upper (b : Byte) : Byte :=
  if b < 97 then b else if 122 < b then b else b - 32

/-- `_STRCMP` from the label of its loop: `LODSB` reads from the second string, `SCASB` compares
with the first. -/
def x86StrCmpStep (mem : Fetch) (r : X86Regs) : X86Regs ⊕ BitVec 64 :=
  let r := lodsb mem r
  let zf := low r.rax == mem r.rdi
  let r := { r with rdi := r.rdi + 1 }
  if !zf then
    let r := { r with rdi := r.rdi - 1 }
    let r := { r with rax := (low r.rax).setWidth 64 }
    let r := { r with rdx := (mem r.rdi).setWidth 64 }
    .inr (r.rax - r.rdx)
  else if low r.rax ≠ 0 then
    .inl r
  else
    .inr 0

/-- `_STRCMP`. -/
def x86StrCmp (mem : Fetch) (fuel : Nat) (r : X86Regs) : Option (BitVec 64) :=
  Loop.run (x86StrCmpStep mem) fuel r

/-- `_STRNCMP` from its `REPE CMPSB`, of which this is a turn. -/
def x86StrNCmpStep (mem : Fetch) (r : X86Regs) : X86Regs ⊕ BitVec 64 :=
  let zf := mem r.rsi == mem r.rdi
  let r := { r with rsi := r.rsi + 1, rdi := r.rdi + 1, rcx := r.rcx - 1 }
  if zf ∧ r.rcx ≠ 0 then
    .inl r
  else if zf then
    .inr 0
  else
    let r := { r with rax := (mem (r.rdi - 1)).setWidth 64 }
    let r := { r with rdx := (mem (r.rsi - 1)).setWidth 64 }
    .inr (r.rax - r.rdx)

/-- `_STRNCMP`: `RAX` is left as it is when the length is 0. -/
def x86StrNCmp (mem : Fetch) (fuel : Nat) (r : X86Regs) : Option (BitVec 64) :=
  let r := { r with rcx := r.rdx }
  if r.rcx = 0 then
    some r.rax
  else
    Loop.run (x86StrNCmpStep mem) fuel r

/-- `_STRNICMP` from the label of its loop: at the end of a string, or where the strings differ,
it returns the difference of the pointers. -/
def x86StrNICmpStep (mem : Fetch) (r : X86Regs) : X86Regs ⊕ BitVec 64 :=
  if r.rcx = 0 then
    .inr 0
  else
    let r := lodsb mem { r with rcx := r.rcx - 1 }
    if low r.rax = 0 then
      .inr (r.rsi - r.rdi)
    else
      let r := { r with rax := setLow r.rax (upper (low r.rax)) }
      let r := { r with rbx := setLow r.rbx (mem r.rdi), rdi := r.rdi + 1 }
      if low r.rbx = 0 then
        .inr (r.rsi - r.rdi)
      else
        let r := { r with rbx := setLow r.rbx (upper (low r.rbx)) }
        if low r.rax = low r.rbx then
          .inl r
        else
          .inr (r.rsi - r.rdi)

/-- `_STRNICMP`. -/
def x86StrNICmp (mem : Fetch) (fuel : Nat) (r : X86Regs) : Option (BitVec 64) :=
  Loop.run (x86StrNICmpStep mem) fuel { r with rcx := r.rdx }

/-! ### AArch64 -/

/-- The registers the routines use, but for the temporary ones of the case folding. -/
structure ArmRegs where
  x0 : BitVec 64
  x1 : BitVec 64
  x2 : BitVec 64
  w4 : BitVec 32
  w5 : BitVec 32
  w6 : BitVec 32

/-- The two `LDRB`, which move the pointers on. -/
def ldrbs (mem : Fetch) (r : ArmRegs) : ArmRegs :=
  { r with
    w4 := (mem r.x0).setWidth 32
    x0 := r.x0 + 1
    w5 := (mem r.x1).setWidth 32
    x1 := r.x1 + 1 }

/-- The `SUB`, `CMP`, `ADD` and `CSEL` of a letter. -/
def cselLower (w : BitVec 32) : BitVec 32 :=
  let w7 := w - 0x41
  let w8 := w + 0x20
  if w7 ≤ 25 then w8 else w

/-- `_STRCMP` from the label of its loop. -/
def armStrCmpStep (mem : Fetch) (r : ArmRegs) : ArmRegs ⊕ BitVec 64 :=
  let r := ldrbs mem r
  let r := { r with w6 := r.w4 - r.w5 }
  if r.w6 ≠ 0 then
    .inr (r.w6.signExtend 64)
  else if r.w4 ≠ 0 then
    .inl r
  else
    .inr 0

/-- `_STRCMP`. -/
def armStrCmp (mem : Fetch) (fuel : Nat) (r : ArmRegs) : Option (BitVec 64) :=
  Loop.run (armStrCmpStep mem) fuel r

/-- `_STRNCMP` or `_STRNICMP` from the label of its loop, by what is done with the bytes. -/
def armStrNStep (fold : BitVec 32 → BitVec 32) (mem : Fetch) (r : ArmRegs) :
    ArmRegs ⊕ BitVec 64 :=
  let r := ldrbs mem r
  let r := { r with w4 := fold r.w4, w5 := fold r.w5 }
  let r := { r with w6 := r.w4 - r.w5 }
  if r.w6 ≠ 0 then
    .inr (r.w6.signExtend 64)
  else if r.w4 = 0 then
    .inr 0
  else
    let r := { r with x2 := r.x2 - 1 }
    if r.x2 ≠ 0 then
      .inl r
    else
      .inr 0

/-- A routine with a length. -/
def armStrN (fold : BitVec 32 → BitVec 32) (mem : Fetch) (fuel : Nat) (r : ArmRegs) :
    Option (BitVec 64) :=
  if r.x2 = 0 then
    some 0
  else
    Loop.run (armStrNStep fold mem) fuel r

/-- `_STRNCMP`. -/
def armStrNCmp : Fetch → Nat → ArmRegs → Option (BitVec 64) := armStrN id

/-- `_STRNICMP`. -/
def armStrNICmp : Fetch → Nat → ArmRegs → Option (BitVec 64) := armStrN cselLower

/-!
## What the comparisons of strings return

The routines for AArch64 return the sign of the comparison of the strings.  Those for x86-64
return the opposite sign, compare what follows the strings, or return the difference of the
pointers, so they agree with the others exactly on some strings.
-/

open Bytes (Byte)
open CString

/-- The sign of a result. -/
def sign (w : BitVec 64) : Ordering := compare w.toInt 0

/-- A routine returns a result of a sign. -/
def Gives (routine : Nat → Option (BitVec 64)) (o : Ordering) : Prop :=
  ∃ fuel w, routine fuel = some w ∧ sign w = o

/-- A routine has one sign at most when it is a loop. -/
theorem gives_of_returns {σ : Type} {step : σ → σ ⊕ BitVec 64} {s : σ} {w : BitVec 64}
    (h : Loop.Returns step s w) (o : Ordering) :
  Gives (fun fuel => Loop.run step fuel s) o ↔ sign w = o
  := by
  constructor
  · rintro ⟨fuel, w', hw', rfl⟩
    rw [h.unique ⟨fuel, hw'⟩]
  · intro ho
    obtain ⟨fuel, hw⟩ := h
    use fuel, w, hw, ho

/-! ### AArch64 -/

/-- The signed difference of two bytes in 32 bits has the sign of their comparison. -/
theorem sign_signExtend (x y : Byte) :
  sign ((x.setWidth 32 - y.setWidth 32).signExtend 64) = compare x y
  := by
  rw [sign, BitVec.toInt_signExtend_of_le (by decide)]
  apply compare_sub (by decide)

/-- A byte is 0 in 32 bits when it is 0. -/
theorem setWidth_eq_zero_iff (x : Byte) :
  x.setWidth 32 = 0 ↔ x = 0
  := by
  rw [← sub_eq_zero_iff (show 8 < 32 by decide) x 0]
  show _ ↔ x.setWidth 32 - 0#32 = 0
  rw [BitVec.sub_zero]

variable {mem : Fetch}

/-- Bytes that differ end the loop of `_STRCMP`. -/
theorem armStrCmpStep_differ {r : ArmRegs} (hne : mem r.x0 ≠ mem r.x1) :
  armStrCmpStep mem r =
    .inr (((mem r.x0).setWidth 32 - (mem r.x1).setWidth 32).signExtend 64)
  := by
  apply if_pos
  apply mt (sub_eq_zero_iff (by decide) _ _).1 hne

/-- The ends of both strings end the loop of `_STRCMP`. -/
theorem armStrCmpStep_ends {r : ArmRegs} (hs : mem r.x0 = 0) (ht : mem r.x1 = 0) :
  armStrCmpStep mem r = .inr 0
  := by
  simp [armStrCmpStep, ldrbs, hs, ht]

/-- The same byte is passed in both strings by the loop of `_STRCMP`. -/
theorem armStrCmpStep_same {r : ArmRegs} (heq : mem r.x0 = mem r.x1) (hne : mem r.x0 ≠ 0) :
  ∃ r', armStrCmpStep mem r = .inl r' ∧ r'.x0 = r.x0 + 1 ∧ r'.x1 = r.x1 + 1
  := by
  refine ⟨_, (if_neg ?_).trans (if_pos ?_), rfl, rfl⟩
  · rw [not_not]
    apply (sub_eq_zero_iff (by decide) _ _).2 heq
  · apply mt (setWidth_eq_zero_iff _).1 hne

/-- `_STRCMP` compares the strings. -/
theorem armStrCmp_returns {r : ArmRegs} {l m : List Byte} (hl : Holds mem r.x0 l)
    (hm : Holds mem r.x1 m) :
  ∃ w, Loop.Returns (armStrCmpStep mem) r w ∧ sign w = compare l m
  := by
  cases hl.heads (f := id) (fun _ => Iff.rfl) hm with
  | differ hne hc hn =>
    rw [List.map_id, List.map_id] at hc
    rw [hc]
    exact ⟨_, .done (armStrCmpStep_differ hne), sign_signExtend _ _⟩
  | ends hs ht => exact ⟨_, .done (armStrCmpStep_ends hs ht), rfl⟩
  | same hs ht hx hy hf hl' hm' =>
    subst hs ht
    have hxy : mem r.x0 = mem r.x1 := hf
    obtain ⟨r', hstep, h0, h1⟩ := armStrCmpStep_same hxy hx
    rw [← h0] at hl'
    rw [← h1] at hm'
    obtain ⟨w, hw, hsign⟩ := armStrCmp_returns hl' hm'
    rw [compare_cons_of_eq hxy]
    exact ⟨w, .next hstep hw, hsign⟩
termination_by l.length

/-- Bytes that differ after folding end the loop of a routine with a length. -/
theorem armStrNStep_differ {fold : BitVec 32 → BitVec 32} {f : Byte → Byte}
    (hfold : ∀ x : Byte, fold (x.setWidth 32) = (f x).setWidth 32) {r : ArmRegs}
    (hne : f (mem r.x0) ≠ f (mem r.x1)) :
  armStrNStep fold mem r =
    .inr (((f (mem r.x0)).setWidth 32 - (f (mem r.x1)).setWidth 32).signExtend 64)
  := by
  rw [← hfold, ← hfold]
  apply if_pos
  show fold ((mem r.x0).setWidth 32) - fold ((mem r.x1).setWidth 32) ≠ 0
  rw [hfold, hfold]
  apply mt (sub_eq_zero_iff (by decide) _ _).1 hne

/-- The ends of both strings end the loop of a routine with a length, and so does its end. -/
theorem armStrNStep_ends {fold : BitVec 32 → BitVec 32} {f : Byte → Byte}
    (hfold : ∀ x : Byte, fold (x.setWidth 32) = (f x).setWidth 32) {r : ArmRegs}
    (heq : f (mem r.x0) = f (mem r.x1)) (hend : f (mem r.x0) = 0 ∨ r.x2 = 1) :
  armStrNStep fold mem r = .inr 0
  := by
  have hsub : fold ((mem r.x0).setWidth 32) - fold ((mem r.x1).setWidth 32) = 0 := by
    rw [hfold, hfold]
    apply (sub_eq_zero_iff (by decide) _ _).2 heq
  rw [armStrNStep, ldrbs]
  simp only [hsub, ne_eq, not_true, if_false]
  split
  · rfl
  case isFalse hnul =>
    rw [hfold, setWidth_eq_zero_iff] at hnul
    rw [hend.resolve_left hnul]
    rfl

/-- The same byte is passed in both strings by the loop of a routine with a length. -/
theorem armStrNStep_same {fold : BitVec 32 → BitVec 32} {f : Byte → Byte}
    (hfold : ∀ x : Byte, fold (x.setWidth 32) = (f x).setWidth 32) {r : ArmRegs}
    (heq : f (mem r.x0) = f (mem r.x1)) (hne : f (mem r.x0) ≠ 0) (hend : r.x2 ≠ 1) :
  ∃ r', armStrNStep fold mem r = .inl r' ∧ r'.x0 = r.x0 + 1 ∧ r'.x1 = r.x1 + 1 ∧
    r'.x2 = r.x2 - 1
  := by
  have hsub : fold ((mem r.x0).setWidth 32) - fold ((mem r.x1).setWidth 32) = 0 := by
    rw [hfold, hfold]
    apply (sub_eq_zero_iff (by decide) _ _).2 heq
  have hnul : fold ((mem r.x0).setWidth 32) ≠ 0 := by
    rw [hfold]
    apply mt (setWidth_eq_zero_iff _).1 hne
  have hlast : r.x2 - 1 ≠ 0 := by
    bv_omega
  refine ⟨_, (if_neg ?_).trans ((if_neg ?_).trans (if_pos ?_)), rfl, rfl, rfl⟩
  · rw [not_not]
    apply hsub
  · apply hnul
  · apply hlast

/-- A routine with a length compares the strings up to it. -/
theorem armStrN_returns {fold : BitVec 32 → BitVec 32} {f : Byte → Byte}
    (hfold : ∀ x : Byte, fold (x.setWidth 32) = (f x).setWidth 32) (hf : ∀ x, f x = 0 ↔ x = 0)
    {n : Nat} {r : ArmRegs} (hn : r.x2.toNat = n + 1) {l m : List Byte} (hl : Holds mem r.x0 l)
    (hm : Holds mem r.x1 m) :
  ∃ w, Loop.Returns (armStrNStep fold mem) r w ∧
    sign w = compare ((l.take (n + 1)).map f) ((m.take (n + 1)).map f)
  := by
  cases hl.heads hf hm with
  | differ hne hc hcn =>
    rw [hcn]
    exact ⟨_, .done (armStrNStep_differ hfold hne), sign_signExtend _ _⟩
  | ends hs ht =>
    have hnul : f (mem r.x0) = 0 := (hf _).2 hs
    exact ⟨_, .done (armStrNStep_ends hfold (by rw [hs, ht]) (.inl hnul)), rfl⟩
  | same hs ht hx hy hfxy hl' hm' =>
    subst hs ht
    rw [List.take_succ_cons, List.take_succ_cons, List.map_cons, List.map_cons,
      compare_cons_of_eq hfxy]
    cases n with
    | zero =>
      have hlast : r.x2 = 1 := by
        bv_omega
      exact ⟨_, .done (armStrNStep_ends hfold hfxy (.inr hlast)), rfl⟩
    | succ n =>
      have hne : r.x2 ≠ 1 := by
        bv_omega
      obtain ⟨r', hstep, h0, h1, h2⟩ := armStrNStep_same hfold hfxy (mt (hf _).1 hx) hne
      rw [← h0] at hl'
      rw [← h1] at hm'
      have hn' : r'.x2.toNat = n + 1 := by
        rw [h2]
        bv_omega
      obtain ⟨w, hw, hsign⟩ := armStrN_returns hfold hf hn' hl' hm'
      exact ⟨w, .next hstep hw, hsign⟩
termination_by n

/-! ### x86-64 -/

/-- The difference of two bytes in 64 bits has the sign of their comparison. -/
theorem sign_sub (x y : Byte) :
  sign (x.setWidth 64 - y.setWidth 64) = compare x y
  := by
  apply compare_sub
  decide

/-- The lowest byte of a register is the one set. -/
@[simp] theorem low_setLow (x : BitVec 64) (b : Byte) :
  low (setLow x b) = b
  := by
  rw [low, setLow, BitVec.setWidth_append]
  simp

/-- Bytes that differ end the loop of `_STRCMP`. -/
theorem x86StrCmpStep_differ {r : X86Regs} (hne : mem r.rsi ≠ mem r.rdi) :
  x86StrCmpStep mem r = .inr ((mem r.rsi).setWidth 64 - (mem r.rdi).setWidth 64)
  := by
  have hzf : (mem r.rsi == mem r.rdi) = false := beq_false_of_ne hne
  simp only [x86StrCmpStep, lodsb, low_setLow, hzf, BitVec.add_sub_cancel, Bool.not_false, if_true]

/-- The ends of both strings end the loop of `_STRCMP`. -/
theorem x86StrCmpStep_ends {r : X86Regs} (heq : mem r.rsi = mem r.rdi) (hs : mem r.rsi = 0) :
  x86StrCmpStep mem r = .inr 0
  := by
  have ht : mem r.rdi = 0 := heq.symm.trans hs
  have hzf : ((0 : Byte) == 0) = true := rfl
  simp only [x86StrCmpStep, lodsb, low_setLow, hs, ht, hzf, Bool.not_true, Bool.false_eq_true,
    if_false, ne_eq, not_true]

/-- The same byte is passed in both strings by the loop of `_STRCMP`. -/
theorem x86StrCmpStep_same {r : X86Regs} (heq : mem r.rsi = mem r.rdi) (hne : mem r.rsi ≠ 0) :
  ∃ r', x86StrCmpStep mem r = .inl r' ∧ r'.rdi = r.rdi + 1 ∧ r'.rsi = r.rsi + 1
  := by
  have hzf : (mem r.rsi == mem r.rdi) = true := beq_iff_eq.2 heq
  simp only [x86StrCmpStep, lodsb, low_setLow, hzf, hne, Bool.not_true, Bool.false_eq_true,
    if_false, ne_eq, not_false_eq_true, if_true]
  exact ⟨_, rfl, rfl, rfl⟩

/-- `_STRCMP` compares the strings the other way round. -/
theorem x86StrCmp_returns {r : X86Regs} {l m : List Byte} (hl : Holds mem r.rdi l)
    (hm : Holds mem r.rsi m) :
  ∃ w, Loop.Returns (x86StrCmpStep mem) r w ∧ sign w = compare m l
  := by
  cases hm.heads (f := id) (fun _ => Iff.rfl) hl with
  | differ hne hc hn =>
    rw [List.map_id, List.map_id] at hc
    rw [hc]
    exact ⟨_, .done (x86StrCmpStep_differ hne), sign_sub _ _⟩
  | ends hs ht => exact ⟨_, .done (x86StrCmpStep_ends (hs.trans ht.symm) hs), rfl⟩
  | same hs ht hx hy hf hm' hl' =>
    subst hs ht
    have hxy : mem r.rsi = mem r.rdi := hf
    obtain ⟨r', hstep, hrdi, hrsi⟩ := x86StrCmpStep_same hxy hx
    rw [← hrdi] at hl'
    rw [← hrsi] at hm'
    obtain ⟨w, hw, hsign⟩ := x86StrCmp_returns hl' hm'
    rw [compare_cons_of_eq hxy]
    exact ⟨w, .next hstep hw, hsign⟩
termination_by m.length

/-- Bytes that differ end the `REPE CMPSB` of `_STRNCMP`. -/
theorem x86StrNCmpStep_differ {r : X86Regs} (hne : mem r.rdi ≠ mem r.rsi) :
  x86StrNCmpStep mem r = .inr ((mem r.rdi).setWidth 64 - (mem r.rsi).setWidth 64)
  := by
  have hzf : (mem r.rsi == mem r.rdi) = false := beq_false_of_ne hne.symm
  simp only [x86StrNCmpStep, hzf, BitVec.add_sub_cancel, Bool.false_eq_true, false_and, if_false]

/-- The length ends the `REPE CMPSB` of `_STRNCMP`. -/
theorem x86StrNCmpStep_ends {r : X86Regs} (heq : mem r.rdi = mem r.rsi) (hlast : r.rcx = 1) :
  x86StrNCmpStep mem r = .inr 0
  := by
  have hzf : (mem r.rsi == mem r.rdi) = true := beq_iff_eq.2 heq.symm
  have hzero : r.rcx - 1 = 0 := by
    rw [hlast]
    rfl
  rw [x86StrNCmpStep]
  simp only [hzf, hzero, ne_eq, not_true, and_false, if_false, if_true]

/-- The same byte is passed at both addresses by the `REPE CMPSB` of `_STRNCMP`. -/
theorem x86StrNCmpStep_same {r : X86Regs} (heq : mem r.rdi = mem r.rsi) (hmore : r.rcx ≠ 1) :
  ∃ r', x86StrNCmpStep mem r = .inl r' ∧ r'.rdi = r.rdi + 1 ∧ r'.rsi = r.rsi + 1 ∧
    r'.rcx = r.rcx - 1
  := by
  have hzf : (mem r.rsi == mem r.rdi) = true := beq_iff_eq.2 heq.symm
  have hne : r.rcx - 1 ≠ 0 := by
    bv_omega
  rw [x86StrNCmpStep]
  simp only [hzf, hne, ne_eq, not_false_eq_true, and_true, if_true]
  exact ⟨_, rfl, rfl, rfl, rfl⟩

/-- `_STRNCMP` compares all the bytes up to the length. -/
theorem x86StrNCmp_returns {n : Nat} {r : X86Regs} (hn : r.rcx.toNat = n + 1) :
  ∃ w, Loop.Returns (x86StrNCmpStep mem) r w ∧
    sign w = compare (fetch mem r.rdi (n + 1)) (fetch mem r.rsi (n + 1))
  := by
  rcases em (mem r.rdi = mem r.rsi) with heq | hne
  · rw [fetch, fetch, compare_cons_of_eq heq]
    cases n with
    | zero =>
      have hlast : r.rcx = 1 := by
        bv_omega
      exact ⟨_, .done (x86StrNCmpStep_ends heq hlast), rfl⟩
    | succ n =>
      obtain ⟨r', hstep, hrdi, hrsi, hrcx⟩ := x86StrNCmpStep_same heq (show r.rcx ≠ 1 by bv_omega)
      have hn' : r'.rcx.toNat = n + 1 := by
        rw [hrcx]
        bv_omega
      obtain ⟨w, hw, hsign⟩ := x86StrNCmp_returns hn'
      rw [hrdi, hrsi] at hsign
      exact ⟨w, .next hstep hw, hsign⟩
  · rw [fetch, fetch, List.compare_cons_cons, then_of_ne hne]
    exact ⟨_, .done (x86StrNCmpStep_differ hne), sign_sub _ _⟩
termination_by n

/-! ### The folding of letters -/

/-- A letter in lower case. -/
def lower (b : Byte) : Byte :=
  if b < 65 then b else if 90 < b then b else b + 32

/-- The letters are folded to lower case in 32 bits. -/
theorem cselLower_setWidth (x : Byte) :
  cselLower (x.setWidth 32) = (lower x).setWidth 32
  := by
  revert x
  decide +kernel

/-- Only 0 is folded to 0. -/
theorem lower_eq_zero_iff (x : Byte) :
  lower x = 0 ↔ x = 0
  := by
  revert x
  decide +kernel

/-- Folding to upper case forgets folding to lower case. -/
theorem upper_lower (x : Byte) :
  upper (lower x) = upper x
  := by
  revert x
  decide +kernel

/-- Folding to lower case forgets folding to upper case. -/
theorem lower_upper (x : Byte) :
  lower (upper x) = lower x
  := by
  revert x
  decide +kernel

/-- Both foldings identify the same letters. -/
theorem upper_eq_iff (x y : Byte) :
  upper x = upper y ↔ lower x = lower y
  := by
  constructor
  · intro h
    rw [← lower_upper, h, lower_upper]
  · intro h
    rw [← upper_lower, h, upper_lower]

/-- The second string ends before the length, and the first does not differ from it there. -/
def SecondEnds (n : Nat) (l m : List Byte) : Prop :=
  m.length < n ∧ m.map lower <+: l.map lower

instance (n : Nat) (l m : List Byte) : Decidable (SecondEnds n l m) :=
  inferInstanceAs (Decidable (_ ∧ _))

/-- What `_STRNICMP` returns for strings whose addresses differ by `d`. -/
def pointerResult (d : BitVec 64) (n : Nat) (l m : List Byte) : BitVec 64 :=
  if SecondEnds n l m then d + 1
  else if (l.take n).map lower = (m.take n).map lower then 0
  else d

/-- The result is that for the rest of strings that begin with the same letter. -/
theorem pointerResult_same (d : BitVec 64) (n : Nat) {x y : Byte} (l m : List Byte)
    (h : lower x = lower y) :
  pointerResult d (n + 1) (x :: l) (y :: m) = pointerResult d n l m
  := by
  have hends : SecondEnds (n + 1) (x :: l) (y :: m) ↔ SecondEnds n l m := by
    rw [SecondEnds, SecondEnds, List.length_cons, Nat.add_lt_add_iff_right, List.map_cons,
      List.map_cons, h, List.cons_prefix_cons, and_iff_right rfl]
  rw [pointerResult, pointerResult]
  apply if_congr hends rfl
  apply if_congr _ rfl rfl
  rw [List.take_succ_cons, List.take_succ_cons, List.map_cons, List.map_cons, h,
    List.cons.injEq, and_iff_right rfl]

/-- The second string ends. -/
theorem pointerResult_second (d : BitVec 64) (n : Nat) (l : List Byte) :
  pointerResult d (n + 1) l [] = d + 1
  := by
  apply if_pos
  exact ⟨Nat.succ_pos n, List.nil_prefix⟩

/-- The first string ends. -/
theorem pointerResult_first (d : BitVec 64) (n : Nat) (y : Byte) (m : List Byte) :
  pointerResult d (n + 1) [] (y :: m) = d
  := by
  apply (if_neg _).trans (if_neg _)
  · rintro ⟨-, h⟩
    cases List.prefix_nil.1 h
  · intro h
    cases h

/-- The strings begin with different letters. -/
theorem pointerResult_differ (d : BitVec 64) (n : Nat) {x y : Byte} (l m : List Byte)
    (h : lower x ≠ lower y) :
  pointerResult d (n + 1) (x :: l) (y :: m) = d
  := by
  apply (if_neg _).trans (if_neg _)
  · rintro ⟨-, hp⟩
    apply h
    exact (List.cons_prefix_cons.1 hp).1.symm
  · intro heq
    apply h
    exact (List.cons.inj heq).1

/-- The end of the second string ends the loop of `_STRNICMP`. -/
theorem x86StrNICmpStep_second {r : X86Regs} (hne : r.rcx ≠ 0) (hs : mem r.rsi = 0) :
  x86StrNICmpStep mem r = .inr (r.rsi - r.rdi + 1)
  := by
  simp only [x86StrNICmpStep, hne, lodsb, low_setLow, hs, if_false, if_true]
  congr 1
  bv_omega

/-- The end of the first string ends the loop of `_STRNICMP`. -/
theorem x86StrNICmpStep_first {r : X86Regs} (hne : r.rcx ≠ 0) (hs : mem r.rsi ≠ 0)
    (ht : mem r.rdi = 0) :
  x86StrNICmpStep mem r = .inr (r.rsi - r.rdi)
  := by
  simp only [x86StrNICmpStep, hne, lodsb, low_setLow, hs, ht, if_false, if_true]
  congr 1
  bv_omega

/-- Different letters end the loop of `_STRNICMP`. -/
theorem x86StrNICmpStep_differ {r : X86Regs} (hne : r.rcx ≠ 0) (hs : mem r.rsi ≠ 0)
    (ht : mem r.rdi ≠ 0) (hdiff : upper (mem r.rsi) ≠ upper (mem r.rdi)) :
  x86StrNICmpStep mem r = .inr (r.rsi - r.rdi)
  := by
  simp only [x86StrNICmpStep, hne, lodsb, low_setLow, hs, ht, hdiff, if_false]
  congr 1
  bv_omega

/-- The same letter is passed in both strings by the loop of `_STRNICMP`. -/
theorem x86StrNICmpStep_same {r : X86Regs} (hne : r.rcx ≠ 0) (hs : mem r.rsi ≠ 0)
    (ht : mem r.rdi ≠ 0) (heq : upper (mem r.rsi) = upper (mem r.rdi)) :
  ∃ r', x86StrNICmpStep mem r = .inl r' ∧ r'.rdi = r.rdi + 1 ∧ r'.rsi = r.rsi + 1 ∧
    r'.rcx = r.rcx - 1
  := by
  simp only [x86StrNICmpStep, hne, lodsb, low_setLow, hs, ht, heq, if_false, if_true]
  exact ⟨_, rfl, rfl, rfl, rfl⟩

/-- `_STRNICMP` returns the difference of the pointers. -/
theorem x86StrNICmp_returns {n : Nat} {r : X86Regs} (hn : r.rcx.toNat = n) {l m : List Byte}
    (hl : Holds mem r.rdi l) (hm : Holds mem r.rsi m) :
  Loop.Returns (x86StrNICmpStep mem) r (pointerResult (r.rsi - r.rdi) n l m)
  := by
  cases n with
  | zero =>
    have hzero : r.rcx = 0 := by
      bv_omega
    exact .done (if_pos hzero)
  | succ n =>
    have hne : r.rcx ≠ 0 := by
      bv_omega
    cases m with
    | nil =>
      rw [pointerResult_second]
      exact .done (x86StrNICmpStep_second hne hm)
    | cons y m =>
      obtain ⟨rfl, hy, hm'⟩ := hm
      cases l with
      | nil =>
        rw [pointerResult_first]
        exact .done (x86StrNICmpStep_first hne hy hl)
      | cons x l =>
        obtain ⟨rfl, hx, hl'⟩ := hl
        rcases em (lower (mem r.rdi) = lower (mem r.rsi)) with heq | hdiff
        · rw [pointerResult_same _ _ _ _ heq]
          obtain ⟨r', hstep, hrdi, hrsi, hrcx⟩ :=
            x86StrNICmpStep_same hne hy hx ((upper_eq_iff _ _).2 heq.symm)
          have hn' : r'.rcx.toNat = n := by
            rw [hrcx]
            bv_omega
          have hd : r'.rsi - r'.rdi = r.rsi - r.rdi := by
            rw [hrsi, hrdi]
            bv_omega
          rw [← hrdi] at hl'
          rw [← hrsi] at hm'
          have hrec := x86StrNICmp_returns hn' hl' hm'
          rw [hd] at hrec
          exact .next hstep hrec
        · rw [pointerResult_differ _ _ _ _ hdiff]
          exact .done (x86StrNICmpStep_differ hne hy hx (mt (upper_eq_iff _ _).1 (Ne.symm hdiff)))
termination_by n

/-! ### The two targets -/

/-- The routines. -/
inductive Comparison where
  | strCmp
  | strNCmp
  | strNICmp

/-- The routines for x86-64. -/
def x86Routine : Comparison → Fetch → Nat → X86Regs → Option (BitVec 64)
  | .strCmp => x86StrCmp
  | .strNCmp => x86StrNCmp
  | .strNICmp => x86StrNICmp

/-- The routines for AArch64. -/
def armRoutine : Comparison → Fetch → Nat → ArmRegs → Option (BitVec 64)
  | .strCmp => armStrCmp
  | .strNCmp => armStrNCmp
  | .strNICmp => armStrNICmp

/-- The comparison of two strings as unsigned bytes: the whole of them, up to a length, or up to
a length with the letters folded. -/
def order (n : Nat) (l m : List Byte) : Comparison → Ordering
  | .strCmp => compare l m
  | .strNCmp => compare (l.take n) (m.take n)
  | .strNICmp => compare ((l.take n).map lower) ((m.take n).map lower)

/-- Both routines return a result with the sign of the comparison, when they are called with two
strings and a length. -/
def SameSign (f : Comparison) (mem : Fetch) (r : X86Regs) (a : ArmRegs) (s t n : BitVec 64)
    (l m : List Byte) : Prop :=
  Gives (fun fuel => x86Routine f mem fuel { r with rdi := s, rsi := t, rdx := n })
      (order n.toNat l m f) ∧
    Gives (fun fuel => armRoutine f mem fuel { a with x0 := s, x1 := t, x2 := n })
      (order n.toNat l m f)

/-- When the routine for x86-64 returns the sign of the comparison: for the same string only; for
the length 0 when `RAX` is 0, and else when bytes after strings that are the same up to the length
are the same too; when the addresses compare as the strings do. -/
def ComparesRight (mem : Fetch) (r : X86Regs) (s t n : BitVec 64) (l m : List Byte) :
    Comparison → Prop
  | .strCmp => l = m
  | .strNCmp =>
    if n = 0 then r.rax = 0
    else l.take n.toNat = m.take n.toNat → fetch mem s n.toNat = fetch mem t n.toNat
  | .strNICmp =>
    if SecondEnds n.toNat l m then
      compare (t - s + 1).toInt 0 = compare ((l.take n.toNat).map lower) ((m.take n.toNat).map lower)
    else
      (l.take n.toNat).map lower ≠ (m.take n.toNat).map lower →
        compare (t - s).toInt 0 = compare ((l.take n.toNat).map lower) ((m.take n.toNat).map lower)

/-- A routine for AArch64 with a length returns the sign of the comparison up to it. -/
theorem armStrN_gives {fold : BitVec 32 → BitVec 32} {f : Byte → Byte}
    (hfold : ∀ x : Byte, fold (x.setWidth 32) = (f x).setWidth 32) (hf : ∀ x, f x = 0 ↔ x = 0)
    {r : ArmRegs} {l m : List Byte} (hl : Holds mem r.x0 l) (hm : Holds mem r.x1 m) :
  Gives (fun fuel => armStrN fold mem fuel r)
    (compare ((l.take r.x2.toNat).map f) ((m.take r.x2.toNat).map f))
  := by
  rcases em (r.x2 = 0) with hzero | hne
  · refine ⟨0, 0, if_pos hzero, ?_⟩
    rw [hzero]
    rfl
  · obtain ⟨n, hn⟩ : ∃ n, r.x2.toNat = n + 1 := ⟨r.x2.toNat - 1, by bv_omega⟩
    obtain ⟨w, hw, hsign⟩ := armStrN_returns hfold hf hn hl hm
    simp only [armStrN, if_neg hne]
    rw [hn]
    exact (gives_of_returns hw _).2 hsign

/-- The routines for AArch64 return the sign of the comparison. -/
theorem arm_gives (f : Comparison) {a : ArmRegs} {s t n : BitVec 64} {l m : List Byte}
    (hl : Holds mem s l) (hm : Holds mem t m) :
  Gives (fun fuel => armRoutine f mem fuel { a with x0 := s, x1 := t, x2 := n })
    (order n.toNat l m f)
  := by
  cases f with
  | strCmp =>
    obtain ⟨w, hw, hsign⟩ := armStrCmp_returns (r := { a with x0 := s, x1 := t, x2 := n }) hl hm
    exact (gives_of_returns hw _).2 hsign
  | strNCmp =>
    have hid : ∀ x : Byte, id (x.setWidth 32) = (id x).setWidth 32 := fun _ => rfl
    have h := armStrN_gives hid (fun _ => Iff.rfl)
      (r := { a with x0 := s, x1 := t, x2 := n }) hl hm
    rw [List.map_id, List.map_id] at h
    exact h
  | strNICmp =>
    exact armStrN_gives cselLower_setWidth lower_eq_zero_iff
      (r := { a with x0 := s, x1 := t, x2 := n }) hl hm

/-- Comparing the other way round says the same for the same string only. -/
theorem compare_swap_iff (l m : List Byte) :
  compare m l = compare l m ↔ l = m
  := by
  constructor
  · intro h
    apply Std.LawfulEqOrd.eq_of_compare
    rw [Std.OrientedOrd.eq_swap] at h
    cases hc : compare l m with
    | eq => rfl
    | lt =>
      rw [hc] at h
      cases h
    | gt =>
      rw [hc] at h
      cases h
  · rintro rfl
    rfl

/-- `_STRNCMP` for x86-64 compares what follows the ends of strings that are the same. -/
theorem fetch_compare_iff {s t : BitVec 64} {l m : List Byte} (n : Nat) (hl : Holds mem s l)
    (hm : Holds mem t m) :
  compare (fetch mem s n) (fetch mem t n) = compare (l.take n) (m.take n) ↔
    (l.take n = m.take n → fetch mem s n = fetch mem t n)
  := by
  rcases em (l.take n = m.take n) with heq | hne
  · rw [heq, Std.ReflOrd.compare_self]
    constructor
    · intro h _
      exact Std.LawfulEqOrd.eq_of_compare h
    · intro h
      rw [h rfl, Std.ReflOrd.compare_self]
  · apply iff_of_true (compare_fetch hl hm hne)
    intro heq
    exact absurd heq hne

/-- The routines for x86-64 return the sign of the comparison when they compare right. -/
theorem x86_gives_iff (f : Comparison) {r : X86Regs} {s t n : BitVec 64} {l m : List Byte}
    (hl : Holds mem s l) (hm : Holds mem t m) :
  Gives (fun fuel => x86Routine f mem fuel { r with rdi := s, rsi := t, rdx := n })
    (order n.toNat l m f) ↔ ComparesRight mem r s t n l m f
  := by
  cases f with
  | strCmp =>
    obtain ⟨w, hw, hsign⟩ :=
      x86StrCmp_returns (r := { r with rdi := s, rsi := t, rdx := n }) hl hm
    apply (gives_of_returns hw _).trans
    rw [hsign, order, ComparesRight]
    apply compare_swap_iff
  | strNCmp =>
    rw [order, ComparesRight]
    rcases em (n = 0) with rfl | hne
    · rw [if_pos rfl]
      constructor
      · rintro ⟨fuel, w, hw, hsign⟩
        cases hw
        have hzero : r.rax.toInt = 0 := compare_eq_iff_eq.1 hsign
        exact BitVec.eq_of_toInt_eq (hzero.trans BitVec.toInt_zero.symm)
      · intro hrax
        exact ⟨0, r.rax, rfl, by rw [hrax]; rfl⟩
    · obtain ⟨k, hk⟩ : ∃ k, n.toNat = k + 1 := ⟨n.toNat - 1, by bv_omega⟩
      obtain ⟨w, hw, hsign⟩ : ∃ w, Loop.Returns (x86StrNCmpStep mem)
          { r with rdi := s, rsi := t, rdx := n, rcx := n } w ∧
            sign w = compare (fetch mem s (k + 1)) (fetch mem t (k + 1)) :=
        x86StrNCmp_returns hk
      simp only [x86Routine, x86StrNCmp, if_neg hne]
      apply (gives_of_returns hw _).trans
      rw [hsign, ← hk]
      apply fetch_compare_iff n.toNat hl hm
  | strNICmp =>
    have hw := x86StrNICmp_returns
      (r := { r with rdi := s, rsi := t, rdx := n, rcx := n }) rfl hl hm
    apply (gives_of_returns hw _).trans
    rw [order, ComparesRight, pointerResult]
    split
    · rfl
    · split
      case isTrue heq =>
        rw [heq, Std.ReflOrd.compare_self]
        apply iff_of_true rfl
        intro h
        exact absurd rfl h
      case isFalse hne =>
        rw [forall_prop_of_true hne]
        rfl

/-- The routines of both targets return the sign of the comparison of the strings exactly when
those for x86-64 compare right. -/
theorem sameSign_iff (f : Comparison) {mem : Fetch} {r : X86Regs} {a : ArmRegs}
    {s t n : BitVec 64} {l m : List Byte} (hl : Holds mem s l) (hm : Holds mem t m) :
  SameSign f mem r a s t n l m ↔ ComparesRight mem r s t n l m f
  := by
  rw [SameSign, x86_gives_iff f hl hm]
  apply and_iff_left (arm_gives f hl hm)

/-- `StrNCmp` of `abd` and `abc` up to their third letters is positive. -/
theorem sameSign_thirdLetter :
  SameSign .strNCmp (fun x => [97, 98, 100, 0, 97, 98, 99].getD x.toNat 0) ⟨0, 0, 0, 0, 0, 0⟩
    ⟨0, 0, 0, 0, 0, 0⟩ 0 4 3 [97, 98, 100] [97, 98, 99]
  := by
  apply (sameSign_iff .strNCmp _ _).2
  · exact fun h => absurd h (by decide)
  · exact ⟨rfl, by decide, rfl, by decide, rfl, by decide, rfl⟩
  · exact ⟨rfl, by decide, rfl, by decide, rfl, by decide, rfl⟩

/-- `StrCmp` of `a` and `b` is positive for x86-64. -/
theorem strCmp_differs :
  ¬ ∀ (f : Comparison) (mem : Fetch) (r : X86Regs) (a : ArmRegs) (s t n : BitVec 64)
    (l m : List Byte), Holds mem s l → Holds mem t m → SameSign f mem r a s t n l m
  := by
  intro h
  let mem : Fetch := fun x => if x = 0 then 97 else if x = 2 then 98 else 0
  have hx : ¬ Gives (fun fuel => x86StrCmp mem fuel ⟨0, 0, 0, 0, 2, 0⟩) .lt := by
    have hrun : Loop.Returns (x86StrCmpStep mem) ⟨0, 0, 0, 0, 2, 0⟩ 1 := ⟨1, by decide +kernel⟩
    intro hlt
    cases (gives_of_returns hrun _).1 hlt
  apply hx
  exact (h .strCmp mem ⟨0, 0, 0, 0, 0, 0⟩ ⟨0, 0, 0, 0, 0, 0⟩ 0 2 0 [97] [98]
    ⟨rfl, by decide, rfl⟩ ⟨rfl, by decide, rfl⟩).1

end Polyc
