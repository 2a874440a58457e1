import Mathlib.Data.List.Basic

/-!
# Words of several widths

Two words agree below a bit; the low bits of a word are spliced into another.  Addition and
subtraction carry upwards only, so words that agree below a bit still do after they are added to the
same word.
-/

namespace Widths

variable {w n m : Nat} {a b c v : BitVec w}

/-- The word whose bits below `n` are those of `v` and whose other bits are those of `old`. -/
def splice (n : Nat) (v old : BitVec w) : BitVec w := (old >>> n <<< n) ||| (v.setWidth n).setWidth w

/-- A bit of a spliced word. -/
@[simp] theorem getLsbD_splice (n : Nat) (v old : BitVec w) (i : Nat) :
  (splice n v old).getLsbD i = if i < n then v.getLsbD i else old.getLsbD i
  := by
  rw [splice, BitVec.getLsbD_or, BitVec.getLsbD_shiftLeft, BitVec.getLsbD_ushiftRight,
    BitVec.getLsbD_setWidth, BitVec.getLsbD_setWidth]
  by_cases hn : i < n
  · by_cases hw : i < w
    · simp [hn, hw]
    · simp [hn, BitVec.getLsbD_of_ge v i (Nat.le_of_not_lt hw), hw]
  · have hsub : n + (i - n) = i := by omega
    by_cases hw : i < w
    · simp [hn, hw, hsub]
    · simp [hn, BitVec.getLsbD_of_ge old i (Nat.le_of_not_lt hw), hw]

/-- All bits are spliced. -/
theorem splice_of_le (h : w ≤ n) (v old : BitVec w) :
  splice n v old = v
  := by
  apply BitVec.eq_of_getLsbD_eq
  intro i hi
  rw [getLsbD_splice, if_pos (Nat.lt_of_lt_of_le hi h)]

/-- Two words agree below bit `n`. -/
def Agree (n : Nat) (a b : BitVec w) : Prop := ∀ i < n, a.getLsbD i = b.getLsbD i

theorem Agree.trans (hab : Agree n a b) (hbc : Agree n b c) :
  Agree n a c
  := fun i hi => (hab i hi).trans (hbc i hi)

theorem Agree.mono (h : Agree n a b) (hmn : m ≤ n) :
  Agree m a b
  := fun i hi => h i (Nat.lt_of_lt_of_le hi hmn)

/-- A spliced word agrees with what is spliced into it. -/
theorem agree_splice (n : Nat) (v old : BitVec w) :
  Agree n (splice n v old) v
  := by
  intro i hi
  rw [getLsbD_splice, if_pos hi]

/-- What is spliced depends on the low bits. -/
theorem splice_congr {old : BitVec w} (h : Agree n a b) :
  splice n a old = splice n b old
  := by
  apply BitVec.eq_of_getLsbD_eq
  intro i _
  rw [getLsbD_splice, getLsbD_splice]
  split
  case isTrue hi => exact h i hi
  case isFalse => rfl

/-- Words that agree below their length are the same. -/
theorem Agree.eq (h : Agree w a b) :
  a = b
  := BitVec.eq_of_getLsbD_eq h

/-- Words agree when their low bits are the same word. -/
theorem agree_iff_setWidth :
  Agree n a b ↔ a.setWidth n = b.setWidth n
  := by
  constructor
  · intro h
    apply BitVec.eq_of_getLsbD_eq
    intro i hi
    rw [BitVec.getLsbD_setWidth, BitVec.getLsbD_setWidth, h i hi]
  · intro h i hi
    have hbit := congrArg (·.getLsbD i) h
    simpa [BitVec.getLsbD_setWidth, hi] using hbit

/-- Carries go upwards. -/
theorem Agree.add (h : Agree n a b) (hn : n ≤ w) (c : BitVec w) :
  Agree n (a + c) (b + c)
  := by
  rw [agree_iff_setWidth] at h ⊢
  rw [BitVec.setWidth_add _ _ hn, BitVec.setWidth_add _ _ hn, h]

/-- Borrows go upwards. -/
theorem Agree.sub (h : Agree n a b) (hn : n ≤ w) (c : BitVec w) :
  Agree n (a - c) (b - c)
  := by
  rw [BitVec.sub_eq_add_neg, BitVec.sub_eq_add_neg]
  exact h.add hn (-c)

/-- Bits are combined one by one. -/
theorem Agree.and (h : Agree n a b) (c : BitVec w) :
  Agree n (a &&& c) (b &&& c)
  := by
  intro i hi
  rw [BitVec.getLsbD_and, BitVec.getLsbD_and, h i hi]

theorem Agree.or (h : Agree n a b) (c : BitVec w) :
  Agree n (a ||| c) (b ||| c)
  := by
  intro i hi
  rw [BitVec.getLsbD_or, BitVec.getLsbD_or, h i hi]

theorem Agree.xor (h : Agree n a b) (c : BitVec w) :
  Agree n (a ^^^ c) (b ^^^ c)
  := by
  intro i hi
  rw [BitVec.getLsbD_xor, BitVec.getLsbD_xor, h i hi]

/-- The low bits of a word that a word with as many zeros is added to. -/
theorem agree_add_of_zero (h : Agree n v 0) (hn : n ≤ w) (a : BitVec w) :
  Agree n (a + v) a
  := by
  have hadd := h.add hn a
  rwa [BitVec.add_comm v a, BitVec.ofNat_eq_ofNat, BitVec.zero_add] at hadd

/-- Adding a bit flips it. -/
theorem getLsbD_add_twoPow (hn : n < w) (v : BitVec w) :
  (BitVec.twoPow w n + v).getLsbD n = !v.getLsbD n
  := by
  rw [← BitVec.testBit_toNat, ← BitVec.testBit_toNat, BitVec.toNat_add, BitVec.toNat_twoPow,
    Nat.mod_eq_of_lt (Nat.pow_lt_pow_right Nat.one_lt_two hn), Nat.testBit_mod_two_pow,
    decide_eq_true hn, Bool.true_and, Nat.testBit_two_pow_add_eq]

/-- A word that, added to any word, keeps the bits from `m` to `n` has zeros below `n`. -/
theorem agree_zero_of_add (hmn : m < n) (hn : n ≤ w)
    (h : ∀ a : BitVec w, ∀ i, m ≤ i → i < n → (a + v).getLsbD i = a.getLsbD i) :
  Agree n v 0
  := by
  have hmod : ∀ (x : BitVec w) (i : Nat), i < n → (x.toNat % 2 ^ n).testBit i = x.getLsbD i := by
    intro x i hi
    rw [Nat.testBit_mod_two_pow, decide_eq_true hi, Bool.true_and, BitVec.testBit_toNat]
  have hlt : v.toNat % 2 ^ n < 2 ^ m := by
    apply Nat.lt_pow_two_of_testBit
    intro i hi
    by_cases hin : i < n
    · have hzero := h 0 i hi hin
      rw [BitVec.ofNat_eq_ofNat, BitVec.zero_add, BitVec.getLsbD_zero] at hzero
      rw [hmod v i hin, hzero]
    · rw [Nat.testBit_mod_two_pow, decide_eq_false hin, Bool.false_and]
  have hone : (BitVec.allOnes w + v).getLsbD m = true := by
    rw [h _ m (Nat.le_refl m) hmn, BitVec.getLsbD_allOnes, decide_eq_true]
    omega
  have hzero : v.toNat % 2 ^ n = 0 := by
    by_contra hpos
    have hdvd : 2 ^ n ∣ 2 ^ w := Nat.pow_dvd_pow 2 hn
    have hle : 2 ^ n ≤ 2 ^ w := Nat.le_of_dvd (Nat.two_pow_pos w) hdvd
    have hpred : (2 ^ w - 1 + v.toNat) % 2 ^ n = v.toNat % 2 ^ n - 1 := by
      obtain ⟨k, hk⟩ := hdvd
      obtain ⟨q, hq⟩ : ∃ q, v.toNat = 2 ^ n * q + v.toNat % 2 ^ n :=
        ⟨v.toNat / 2 ^ n, (Nat.div_add_mod _ _).symm⟩
      have hsum : 2 ^ w - 1 + v.toNat = 2 ^ n * (k + q) + (v.toNat % 2 ^ n - 1) := by
        rw [Nat.mul_add, ← hk]
        have hwpos := Nat.two_pow_pos w
        omega
      rw [hsum, Nat.mul_add_mod, Nat.mod_eq_of_lt]
      have hnlt := Nat.mod_lt v.toNat (Nat.two_pow_pos n)
      omega
    rw [← hmod _ m hmn, BitVec.toNat_add, BitVec.toNat_allOnes,
      Nat.mod_mod_of_dvd _ hdvd, hpred, Nat.testBit_lt_two_pow (by omega)] at hone
    cases hone
  intro i hi
  rw [← hmod v i hi, hzero, Nat.zero_testBit, BitVec.ofNat_eq_ofNat, BitVec.getLsbD_zero]

end Widths
