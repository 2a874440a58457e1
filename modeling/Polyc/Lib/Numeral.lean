import Mathlib.Data.Nat.Digits.Lemmas
import Mathlib.Data.List.DropRight
import Polyc.Lib.Bytes

/-!
# Numerals

The texts of numbers in a base of at most 16, padded to a width, and the numbers that are read of them.
-/

namespace Numeral

open Bytes (Byte)

/-- The sign of a digit, where `letter` is that of ten. -/
def glyph (letter : Byte) (d : Nat) : Byte :=
  if d < 10 then 0x30 + BitVec.ofNat 8 d else letter + BitVec.ofNat 8 (d - 10)

/-- The numeral of a number, with its highest digit first. -/
def numeral (letter : Byte) (base n : Nat) : List Byte :=
  if n = 0 then [0x30] else ((Nat.digits base n).map (glyph letter)).reverse

/-- Digits behind spaces, or with zeros behind their sign. -/
def filled (zero : Bool) (fill : Nat) (sign digits : List Byte) : List Byte :=
  if zero then sign ++ List.replicate fill 0x30 ++ digits
  else List.replicate fill 0x20 ++ sign ++ digits

/-- Digits that are filled up to a width. -/
def padded (zero : Bool) (width : Int) (sign digits : List Byte) : List Byte :=
  filled zero (width - digits.length - sign.length).toNat sign digits

/-- The digit of a sign. -/
def digitOf (letter ch : Byte) : Nat :=
  if ch ≤ 0x39 then ch.toNat - 0x30 else ch.toNat - letter.toNat + 10

/-- The number that digits are read as. -/
def readNat (letter : Byte) (base : Nat) (text : List Byte) : Nat :=
  Nat.ofDigits base (text.reverse.map (digitOf letter))

/-- The number that a text is read as, behind spaces and a sign. -/
def readInt (letter : Byte) (base : Nat) (text : List Byte) : Int :=
  match text.dropWhile (· = 0x20) with
  | 0x2D :: digits => -readNat letter base digits
  | digits => readNat letter base digits

/-- A letter for ten, above the decimal digits and with room for the others. -/
def IsLetter (letter : Byte) : Prop := 0x39 < letter ∧ letter ≤ 0xF0

/-- A digit is read as itself. -/
theorem digitOf_glyph {letter : Byte} (hl : IsLetter letter) {d : Nat} (hd : d < 16) :
  digitOf letter (glyph letter d) = d
  := by
  obtain ⟨hlo, hhi⟩ := hl
  rw [digitOf, glyph]
  split
  case isTrue h =>
    rw [if_pos (by bv_omega)]
    bv_omega
  case isFalse h =>
    rw [if_neg (by bv_omega)]
    bv_omega

/-- Digits are neither spaces nor signs. -/
theorem glyph_ge {letter : Byte} (hl : IsLetter letter) {d : Nat} (hd : d < 16) :
  0x30 ≤ glyph letter d
  := by
  obtain ⟨hlo, hhi⟩ := hl
  rw [glyph]
  split <;> bv_omega

/-- The digits of a number, in a base of at most 16, are below 16. -/
theorem digits_lt_sixteen {base n d : Nat} (hb : 1 < base) (hb' : base ≤ 16) (hd : d ∈ base.digits n) :
  d < 16
  := lt_of_lt_of_le (Nat.digits_lt_base hb hd) hb'

/-- A numeral is not empty, and has digits only. -/
theorem numeral_spec {letter : Byte} (hl : IsLetter letter) {base : Nat} (hb : 1 < base)
    (hb' : base ≤ 16) (n : Nat) :
  numeral letter base n ≠ [] ∧ ∀ ch ∈ numeral letter base n, 0x30 ≤ ch
  := by
  rw [numeral]
  split
  case isTrue h =>
    constructor
    · apply List.cons_ne_nil
    · intro ch hch
      rw [List.mem_singleton.mp hch]
      apply BitVec.le_refl
  case isFalse h =>
    constructor
    · rw [Ne, List.reverse_eq_nil_iff, List.map_eq_nil_iff]
      apply Nat.digits_ne_nil_iff_ne_zero.mpr h
    · intro ch hch
      obtain ⟨d, hd, rfl⟩ := List.mem_map.mp (List.mem_reverse.mp hch)
      apply glyph_ge hl (digits_lt_sixteen hb hb' hd)

/-- The first digit of a number that is not 0. -/
theorem numeral_head {letter : Byte} (hl : IsLetter letter) {base : Nat} (hb : 1 < base)
    (hb' : base ≤ 16) {n : Nat} (hn : n ≠ 0) :
  ∃ ch text, numeral letter base n = ch :: text ∧ 0x30 < ch
  := by
  have hne : base.digits n ≠ [] := Nat.digits_ne_nil_iff_ne_zero.mpr hn
  have hlast := Nat.getLast_digit_ne_zero base hn
  have hlt := digits_lt_sixteen hb hb' (List.getLast_mem hne)
  use glyph letter ((base.digits n).getLast hne), ((base.digits n).dropLast.map (glyph letter)).reverse
  constructor
  · rw [numeral, if_neg hn]
    conv_lhs => rw [← List.dropLast_append_getLast hne]
    rw [List.map_append, List.reverse_append]
    rfl
  · generalize (base.digits n).getLast hne = d at hlast hlt
    have hge := glyph_ge hl hlt
    have hread := digitOf_glyph hl hlt
    have hzero : glyph letter d ≠ 0x30 := by
      intro h
      rw [h] at hread
      apply hlast hread.symm
    bv_omega

/-- The length of a numeral. -/
theorem length_numeral_le (letter : Byte) {base : Nat} (hb : 1 < base) {n k : Nat} (hn : n < base ^ (k + 1)) :
  (numeral letter base n).length ≤ k + 1
  := by
  rw [numeral]
  split
  · apply Nat.succ_le_succ (Nat.zero_le _)
  · rw [List.length_reverse, List.length_map]
    apply (Nat.digits_length_le_iff hb _).mpr hn

/-- A numeral is read as its number, behind any number of zeros. -/
theorem readNat_numeral {letter : Byte} (hl : IsLetter letter) {base : Nat} (hb : 1 < base)
    (hb' : base ≤ 16) (fill n : Nat) :
  readNat letter base (List.replicate fill 0x30 ++ numeral letter base n) = n
  := by
  have hzero : digitOf letter 0x30 = 0 := rfl
  rw [readNat, List.reverse_append, List.map_append, List.reverse_replicate, List.map_replicate, hzero,
    Nat.ofDigits_append_replicate_zero, numeral]
  split
  case isTrue h =>
    subst h
    rw [List.reverse_singleton, List.map_singleton, hzero]
    apply Nat.ofDigits_singleton
  case isFalse h =>
    rw [List.reverse_reverse, List.map_map]
    have hmap : (base.digits n).map (digitOf letter ∘ glyph letter) = base.digits n := by
      conv_rhs => rw [← List.map_id (base.digits n)]
      apply List.map_congr_left
      intro d hd
      apply digitOf_glyph hl (digits_lt_sixteen hb hb' hd)
    rw [hmap, Nat.ofDigits_digits]

/-- Digits behind spaces and no sign. -/
theorem readInt_digits (letter : Byte) (base k : Nat) {digits : List Byte} (hne : digits ≠ [])
    (hdig : ∀ ch ∈ digits, 0x30 ≤ ch) :
  readInt letter base (List.replicate k 0x20 ++ digits) = readNat letter base digits
  := by
  obtain ⟨ch, digits, rfl⟩ := List.exists_cons_of_ne_nil hne
  have hch := hdig ch List.mem_cons_self
  have hspace : (ch :: digits).dropWhile (fun c => decide (c = 0x20)) = ch :: digits := by
    apply List.dropWhile_cons_of_neg
    rw [decide_eq_true_eq]
    rintro rfl
    revert hch
    decide
  rw [readInt, List.dropWhile_append_of_pos, hspace]
  · split
    case h_1 heq =>
      cases heq
      apply absurd hch
      decide
    case h_2 => rfl
  · intro c hc
    rw [List.eq_of_mem_replicate hc]
    rfl

/-- Digits behind spaces and a sign. -/
theorem readInt_neg (letter : Byte) (base k : Nat) (digits : List Byte) :
  readInt letter base (List.replicate k 0x20 ++ 0x2D :: digits) = -readNat letter base digits
  := by
  rw [readInt, List.dropWhile_append_of_pos]
  · rfl
  · intro c hc
    rw [List.eq_of_mem_replicate hc]
    rfl

/-- The sign of a number. -/
def signOf (i : Int) : List Byte := if i < 0 then [0x2D] else []

/-- Zeros are digits. -/
theorem digits_behind_zeros {digits : List Byte} (hdig : ∀ ch ∈ digits, 0x30 ≤ ch) (k : Nat) :
  ∀ ch ∈ List.replicate k 0x30 ++ digits, 0x30 ≤ ch
  := by
  intro ch hch
  rcases List.mem_append.mp hch with hch | hch
  · rw [List.eq_of_mem_replicate hch]
    apply BitVec.le_refl
  · apply hdig ch hch

/-- A padded numeral is read as its number. -/
theorem readInt_padded {letter : Byte} (hl : IsLetter letter) {base : Nat} (hb : 1 < base)
    (hb' : base ≤ 16) (zero : Bool) (width i : Int) :
  readInt letter base (padded zero width (signOf i) (numeral letter base i.natAbs)) = i
  := by
  obtain ⟨hne, hdig⟩ := numeral_spec hl hb hb' i.natAbs
  have hread := fun fill => readNat_numeral hl hb hb' fill i.natAbs
  rw [padded, filled, signOf]
  have hplain := hread 0
  rw [List.replicate_zero, List.nil_append] at hplain
  rcases lt_or_ge i 0 with hi | hi
  · rw [if_pos hi]
    cases zero
    · simp only [Bool.false_eq_true, if_false, List.append_assoc, List.singleton_append]
      rw [readInt_neg, hplain]
      omega
    · simp only [if_true, List.append_assoc, List.singleton_append]
      have hsign := readInt_neg letter base 0
      simp only [List.replicate_zero, List.nil_append] at hsign
      rw [List.cons_append, hsign, hread]
      omega
  · rw [if_neg (not_lt.mpr hi)]
    cases zero
    · simp only [Bool.false_eq_true, if_false, List.append_nil]
      rw [readInt_digits _ _ _ hne hdig, hplain]
      omega
    · simp only [if_true, List.nil_append]
      apply (readInt_digits _ _ 0 (List.append_ne_nil_of_right_ne_nil _ hne)
        (digits_behind_zeros hdig _)).trans
      rw [hread]
      omega

end Numeral
