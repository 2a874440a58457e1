import Mathlib.Tactic.Linarith

/-!
# Bit fields

Fields of a word, cleared by a mask and set to the lowest bits of another word, and the signed
numbers of words in which a branch displacement is counted.
-/

namespace BitField

variable {w : Nat}

/-- The mask of the lowest `n` bits. -/
def mask (w n : Nat) : BitVec w := BitVec.ofNat w (2 ^ n - 1)

/-- A word with the field of `n` bits at `p` set. -/
def setField (x : BitVec w) (p n : Nat) (v : BitVec w) : BitVec w :=
  (x &&& ~~~(mask w n <<< p)) ||| ((v &&& mask w n) <<< p)

/-- The bits of a mask. -/
@[simp] theorem getLsbD_mask (n i : Nat) :
  (mask w n).getLsbD i = (decide (i < w) && decide (i < n))
  := by
  rw [mask, BitVec.getLsbD_ofNat, Nat.testBit_two_pow_sub_one]

/-- A word is put together from the bits outside a mask and those inside. -/
theorem and_not_add_and (x m : BitVec w) :
  (x &&& ~~~m) + (x &&& m) = x
  := by
  rw [BitVec.add_eq_or_of_and_eq_zero]
  · rw [← BitVec.and_or_distrib_left, BitVec.not_or_self, BitVec.and_allOnes]
  · apply BitVec.eq_of_getLsbD_eq
    intro i hi
    rw [BitVec.getLsbD_and, BitVec.getLsbD_and, BitVec.getLsbD_and, BitVec.getLsbD_not]
    cases m.getLsbD i <;> simp

/-- The lowest bits of a word are a remainder. -/
theorem toNat_and_mask (x : BitVec w) {k : Nat} (hk : k ≤ w) :
  (x &&& mask w k).toNat = x.toNat % 2 ^ k
  := by
  have hpow : 2 ^ k ≤ 2 ^ w := Nat.pow_le_pow_right (by decide) hk
  have hpos : 0 < 2 ^ k := Nat.two_pow_pos k
  rw [BitVec.toNat_and, mask, BitVec.toNat_ofNat, Nat.mod_eq_of_lt (by omega),
    Nat.and_two_pow_sub_one_eq_mod]

/-- The bits above the lowest are what the remainder leaves. -/
theorem toNat_and_not_mask (x : BitVec w) {k : Nat} (hk : k ≤ w) :
  (x &&& ~~~(mask w k)).toNat = x.toNat - x.toNat % 2 ^ k
  := by
  have hsum := congrArg BitVec.toNat (and_not_add_and x (mask w k))
  have hle := Nat.mod_le x.toNat (2 ^ k)
  have hx := x.isLt
  have hhi := (x &&& ~~~(mask w k)).isLt
  rw [BitVec.toNat_add, toNat_and_mask x hk] at hsum
  rcases Nat.lt_or_ge ((x &&& ~~~(mask w k)).toNat + x.toNat % 2 ^ k) (2 ^ w) with h | h
  · rw [Nat.mod_eq_of_lt h] at hsum
    omega
  · rw [Nat.mod_eq_sub_mod h, Nat.mod_eq_of_lt (by omega)] at hsum
    omega

/-- The bits of a word with a field set. -/
theorem getLsbD_setField {x v : BitVec w} {p n i : Nat} (hi : i < w) :
  (setField x p n v).getLsbD i = if p ≤ i ∧ i < p + n then v.getLsbD (i - p) else x.getLsbD i
  := by
  simp only [setField, BitVec.getLsbD_or, BitVec.getLsbD_and, BitVec.getLsbD_not,
    BitVec.getLsbD_shiftLeft, getLsbD_mask, hi, decide_true, Bool.true_and]
  by_cases hlo : p ≤ i
  · have hlt : ¬ i < p := by omega
    have hsub : i - p < w := by omega
    by_cases hhi : i < p + n
    · have hn : i - p < n := by omega
      simp [hlo, hlt, hhi, hsub, hn]
    · have hn : ¬ i - p < n := by omega
      simp [hlo, hhi, hn]
  · simp [hlo, Nat.lt_of_not_le hlo]

/-- The field is read as it was set. -/
theorem extract_setField (x v : BitVec w) {p n : Nat} (h : p + n ≤ w) :
  (setField x p n v).extractLsb' p n = v.setWidth n
  := by
  apply BitVec.eq_of_getLsbD_eq
  intro i hi
  rw [BitVec.getLsbD_extractLsb', BitVec.getLsbD_setWidth, getLsbD_setField (by omega),
    if_pos (by omega), Nat.add_sub_cancel_left]

/-- Another field is kept. -/
theorem extract_setField_of_disjoint (x v : BitVec w) {p n q k : Nat} (hq : q + k ≤ w)
    (h : q + k ≤ p ∨ p + n ≤ q) :
  (setField x p n v).extractLsb' q k = x.extractLsb' q k
  := by
  apply BitVec.eq_of_getLsbD_eq
  intro i hi
  rw [BitVec.getLsbD_extractLsb', BitVec.getLsbD_extractLsb', getLsbD_setField (by omega),
    if_neg (by omega)]

/-- The other bits are kept. -/
theorem setField_and_not (x v : BitVec w) (p n : Nat) :
  setField x p n v &&& ~~~(mask w n <<< p) = x &&& ~~~(mask w n <<< p)
  := by
  apply BitVec.eq_of_getLsbD_eq
  intro i hi
  rw [BitVec.getLsbD_and, BitVec.getLsbD_and, getLsbD_setField hi]
  by_cases h : p ≤ i ∧ i < p + n
  · have hlt : ¬ i < p := by omega
    have hn : i - p < n := by omega
    have hw : i - p < w := by omega
    rw [BitVec.getLsbD_not, BitVec.getLsbD_shiftLeft, getLsbD_mask]
    simp [hlt, hn, hw]
  · rw [if_neg h]

/-! ### Displacements in words of four bytes -/

/-- A number that fits a signed field of `n` bits. -/
def Fits (n : Nat) (k : Int) : Prop := -(2 ^ (n - 1)) ≤ k ∧ k < 2 ^ (n - 1)

instance (n : Nat) (k : Int) : Decidable (Fits n k) := inferInstanceAs (Decidable (_ ∧ _))

/-- A word is divisible by four if its lowest two bits are zero. -/
theorem and_three_eq_zero_iff (x : BitVec 64) :
  x &&& 3 = 0 ↔ (4 : Int) ∣ x.toInt
  := by
  have h : (x &&& 3).toNat = x.toNat % 4 := by
    rw [BitVec.toNat_and]
    apply Nat.and_two_pow_sub_one_eq_mod x.toNat 2
  rw [← BitVec.toNat_inj, h, BitVec.toInt_eq_toNat_cond]
  change x.toNat % 4 = 0 ↔ _
  split_ifs <;> omega

/-- The truncated quotient by four, as a signed number. -/
theorem toInt_sdiv_four {x : BitVec 64} (h : (4 : Int) ∣ x.toInt) :
  ((x.sdiv 4).setWidth 32).toInt = (x.toInt / 4).bmod (2 ^ 32)
  := by
  have hfour : (4 : BitVec 64).toInt = 4 := rfl
  have hdiv : (x.sdiv 4).toInt = (x.toInt / 4).bmod (2 ^ 64) := by
    rw [BitVec.toInt_sdiv, hfour, Int.tdiv_eq_ediv_of_dvd h]
  rw [BitVec.toInt_setWidth, ← Int.bmod_bmod_of_dvd (m := 2 ^ 64) (n := 2 ^ 32) (by decide),
    ← BitVec.toInt_eq_toNat_bmod, hdiv, Int.bmod_bmod_of_dvd (by decide)]

/-- A signed field counts words from an address. -/
theorem add_signExtend_eq_iff {n : Nat} (hn : n ≤ 60) (pc target : BitVec 64) (x : BitVec n) :
  pc + x.signExtend 64 <<< 2 = target ↔ 4 * x.toInt = (target - pc).toInt
  := by
  have hfour : (4 : BitVec 64).toInt = 4 := rfl
  have hx : -(2 ^ 60) ≤ x.toInt ∧ x.toInt < 2 ^ 60 := by
    have hlo := BitVec.le_two_mul_toInt (x := x)
    have hhi := BitVec.two_mul_toInt_lt (x := x)
    have hpow : (2 : Int) ^ n ≤ 2 ^ 60 := by
      apply pow_le_pow_right₀ (by decide) hn
    norm_num at hlo hhi hpow ⊢
    omega
  have hshift : (x.signExtend 64 <<< 2 : BitVec 64).toInt = 4 * x.toInt := by
    have hmul : (x.signExtend 64 <<< 2 : BitVec 64) = x.signExtend 64 * 4 := by
      rw [BitVec.shiftLeft_eq_mul_twoPow]
      rfl
    rw [hmul, BitVec.toInt_mul, BitVec.toInt_signExtend_of_le (by omega), hfour,
      Int.mul_comm, Int.bmod_eq_of_le (by omega) (by omega)]
  constructor
  · rintro rfl
    rw [BitVec.add_comm, BitVec.add_sub_cancel, hshift]
  · intro h
    rw [← hshift, BitVec.toInt_inj] at h
    rw [h, BitVec.add_comm, BitVec.sub_add_cancel]

end BitField
