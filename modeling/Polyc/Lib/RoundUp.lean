import Mathlib.Data.Nat.Bitwise
import Mathlib.Tactic.Use

/-!
# Rounding up to a power of two

A word whose ones are copied down, each time as far again, becomes one of ones below its highest one.
-/

namespace RoundUp

variable {w : Nat} {u v : BitVec w} {n : Nat}

/-- The ones of a word, copied down to the places less than `n` below them. -/
def Smeared (u v : BitVec w) (n : Nat) : Prop := ∀ i, v.getLsbD i = true ↔ ∃ j < n, u.getLsbD (i + j) = true

theorem smeared_one (u : BitVec w) :
  Smeared u u 1
  := by
  intro i
  constructor
  · intro h
    use 0, Nat.one_pos, h
  · rintro ⟨j, hj, h⟩
    obtain rfl : j = 0 := by omega
    apply h

/-- Another copy reaches as far again. -/
theorem Smeared.double (h : Smeared u v n) :
  Smeared u (v ||| v >>> n) (n + n)
  := by
  intro i
  rw [BitVec.getLsbD_or, BitVec.getLsbD_ushiftRight, Bool.or_eq_true, h i, h (n + i)]
  constructor
  · rintro (⟨j, hj, hu⟩ | ⟨j, hj, hu⟩)
    · use j, by omega
    · use n + j, by omega
      rwa [Nat.add_left_comm, ← Nat.add_assoc]
  · rintro ⟨j, hj, hu⟩
    rcases Nat.lt_or_ge j n with hlt | hge
    · left
      use j
    · right
      use j - n, by omega
      have hplace : n + i + (j - n) = i + j := by omega
      rwa [hplace]

/-- A word whose ones are copied all the way down. -/
theorem Smeared.toNat_eq (h : Smeared u v w) (hu : u.toNat ≠ 0) :
  v.toNat = 2 ^ (Nat.log2 u.toNat + 1) - 1
  := by
  apply Nat.eq_of_testBit_eq
  intro i
  rw [Nat.testBit_two_pow_sub_one, Bool.eq_iff_iff, decide_eq_true_iff, BitVec.testBit_toNat, h i]
  constructor
  · rintro ⟨j, hj, hbit⟩
    have hle := Nat.ge_two_pow_of_testBit (x := u.toNat) (i := i + j) hbit
    have hlog := (Nat.le_log2 hu).mpr hle
    omega
  · intro hi
    use Nat.log2 u.toNat - i
    have hlt : Nat.log2 u.toNat < w := (Nat.log2_lt hu).mpr u.isLt
    constructor
    · omega
    · rw [Nat.add_sub_cancel' (by omega)]
      apply Nat.testBit_log2 hu

end RoundUp
