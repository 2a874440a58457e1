import Mathlib.Data.Nat.Find
import Mathlib.Order.Monotone.Basic
import Mathlib.Tactic.Linarith

/-!
# Calendars

Calendars of twelve months whose second month is a day longer in leap years, for any rule of leap
years.  Days and years are counted from 0, months and days of a month from 1.
-/

namespace Calendar

/-- The days of a month. -/
def monthLength (isLeap : Bool) : Nat → Nat
  | 2 => if isLeap then 29 else 28
  | 4 | 6 | 9 | 11 => 30
  | _ => 31

/-- The days of a year. -/
def yearLength (isLeap : Bool) : Nat := if isLeap then 366 else 365

/-- The days of a year before some of its months, which are counted from 0. -/
def daysBefore (isLeap : Bool) : Nat → Nat
  | 0 => 0
  | k + 1 => daysBefore isLeap k + monthLength isLeap (k + 1)

/-- The months make up the year. -/
theorem daysBefore_twelve (isLeap : Bool) :
  daysBefore isLeap 12 = yearLength isLeap
  := by
  cases isLeap <;> rfl

/-- The days before later months are more. -/
theorem daysBefore_mono (isLeap : Bool) :
  Monotone (daysBefore isLeap)
  := monotone_nat_of_le_succ fun _ => Nat.le_add_right _ _

/-- Every month has days. -/
theorem monthLength_pos (isLeap : Bool) (m : Nat) :
  0 < monthLength isLeap m
  := by
  rw [monthLength.eq_def]
  split
  · split
    · decide
    · decide
  all_goals decide

variable (leap : Nat → Bool)

/-- The first day of a year. -/
def firstOfYear : Nat → Nat
  | 0 => 0
  | y + 1 => firstOfYear y + yearLength (leap y)

/-- The first day of a month of a year. -/
def firstOfMonth (y m : Nat) : Nat := firstOfYear leap y + daysBefore (leap y) (m - 1)

/-- Years begin one after the other. -/
theorem firstOfYear_strictMono :
  StrictMono (firstOfYear leap)
  := by
  apply strictMono_nat_of_lt_succ
  intro y
  rw [firstOfYear, yearLength]
  split <;> omega

/-- A day lies in a year. -/
def InYear (d y : Nat) : Prop := firstOfYear leap y ≤ d ∧ d < firstOfYear leap (y + 1)

/-- A day lies in a month of a year. -/
def InMonth (d y m : Nat) : Prop :=
  1 ≤ m ∧ m ≤ 12 ∧ firstOfMonth leap y m ≤ d ∧
    d < firstOfMonth leap y m + monthLength (leap y) m

variable {leap}

/-- Every day lies in a year. -/
theorem exists_inYear (d : Nat) :
  ∃ y, InYear leap d y
  := by
  induction d with
  | zero =>
    use 0
    constructor
    · apply le_refl
    · apply lt_of_le_of_lt (Nat.zero_le _) (firstOfYear_strictMono leap (Nat.lt_succ_self 0))
  | succ d ih =>
    obtain ⟨y, hlo, hhi⟩ := ih
    rcases Nat.lt_or_ge (d + 1) (firstOfYear leap (y + 1)) with h | h
    · use y
      constructor
      · apply Nat.le_succ_of_le hlo
      · apply h
    · use y + 1
      constructor
      · apply h
      · have hlt := firstOfYear_strictMono leap (Nat.lt_succ_self (y + 1))
        have heq : firstOfYear leap (y + 1) = d + 1 := by omega
        rw [← heq]
        apply hlt

/-- A day lies in one year only. -/
theorem InYear.unique {d y y' : Nat} (h : InYear leap d y) (h' : InYear leap d y') :
  y = y'
  := by
  have hle {a b : Nat} (ha : InYear leap d a) (hb : InYear leap d b) : a ≤ b :=
    Nat.lt_succ_iff.1 ((firstOfYear_strictMono leap).lt_iff_lt.1 (ha.1.trans_lt hb.2))
  apply le_antisymm (hle h h') (hle h' h)

/-- A month lies in its year. -/
theorem InMonth.inYear {d y m : Nat} (h : InMonth leap d y m) :
  InYear leap d y
  := by
  obtain ⟨hm, hm', hlo, hhi⟩ := h
  obtain ⟨k, rfl⟩ : ∃ k, m = k + 1 := ⟨m - 1, by omega⟩
  have hmono := daysBefore_mono (leap y) hm'
  rw [daysBefore_twelve] at hmono
  rw [firstOfMonth, Nat.add_sub_cancel] at hlo hhi
  constructor
  · omega
  · rw [firstOfYear]
    rw [daysBefore] at hmono
    omega

/-- A day lies in one month only. -/
theorem InMonth.unique {d y m y' m' : Nat} (h : InMonth leap d y m) (h' : InMonth leap d y' m') :
  y = y' ∧ m = m'
  := by
  obtain rfl := h.inYear.unique h'.inYear
  have hle {a b : Nat} (ha : InMonth leap d y a) (hb : InMonth leap d y b) : a ≤ b := by
    by_contra hab
    obtain ⟨hb₁, _, _, hb₂⟩ := hb
    obtain ⟨j, rfl⟩ : ∃ j, b = j + 1 := ⟨b - 1, by omega⟩
    have hmono := daysBefore_mono (leap y) (show j + 1 ≤ a - 1 by omega)
    have ha₁ := ha.2.2.1
    rw [firstOfMonth] at ha₁ hb₂
    rw [daysBefore] at hmono
    rw [Nat.add_sub_cancel] at hb₂
    omega
  exact ⟨rfl, le_antisymm (hle h h') (hle h' h)⟩

end Calendar
