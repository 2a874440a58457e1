import Mathlib.Algebra.BigOperators.Intervals
import Mathlib.Data.Int.ConditionallyCompleteOrder
import Mathlib.Data.Int.Interval
import Mathlib.Data.Int.SuccPred
import Mathlib.Tactic.Ring
import Polyc.Lib.Calendar

/-!
# Dates of all years

The calendars of `Calendar` over years below 0 as well, for any rule of leap years.  Days are counted from
the beginning of a year of one's choice.
-/

namespace Calendar

variable (leap : Int → Bool)

/-- The days from the beginning of a year to that of another, below 0 when it comes before. -/
noncomputable def daysTo (e y : Int) : Int :=
  ∑ k ∈ Finset.Ico e y, (yearLength (leap k) : Int) - ∑ k ∈ Finset.Ico y e, (yearLength (leap k) : Int)

/-- A year is as many days after itself as it has. -/
theorem daysTo_succ (e y : Int) :
  daysTo leap e (y + 1) = daysTo leap e y + yearLength (leap y)
  := by
  rcases le_or_gt e y with h | h
  · rw [daysTo, daysTo, Finset.Ico_eq_empty (a := y) (by omega), Finset.Ico_eq_empty (a := y + 1) (by omega),
      ← Finset.insert_Ico_right_eq_Ico_add_one h, Finset.sum_insert Finset.right_notMem_Ico]
    ring
  · rw [daysTo, daysTo, Finset.Ico_eq_empty (a := e) (b := y + 1) (by omega),
      Finset.Ico_eq_empty (a := e) (b := y) (by omega), ← Finset.insert_Ico_add_one_left_eq_Ico h,
      Finset.sum_insert (by simp)]
    ring

/-- The days up to the years are what begins with 0 and grows by the years. -/
theorem daysTo_unique {e : Int} {f : Int → Int} (h0 : f e = 0)
    (hs : ∀ y, f (y + 1) = f y + yearLength (leap y)) (y : Int) :
  daysTo leap e y = f y
  := by
  induction y using Int.inductionOn' (b := e) with
  | zero => rw [h0, daysTo, sub_self]
  | succ k _ ih => rw [daysTo_succ, hs, ih]
  | pred k _ ih =>
    have h := daysTo_succ leap e (k - 1)
    have h' := hs (k - 1)
    rw [sub_add_cancel] at h h'
    omega

/-- Years begin one after the other. -/
theorem daysTo_strictMono (e : Int) :
  StrictMono (daysTo leap e)
  := by
  apply strictMono_int_of_lt_succ
  intro y
  rw [daysTo_succ, yearLength]
  split <;> omega

/-! ### Dates -/

/-- A date. -/
structure Date where
  year : Int
  month : Nat
  day : Nat
  deriving DecidableEq

namespace Date

/-- The month is one of the year and the day one of the month. -/
def Valid (t : Date) : Prop :=
  (1 ≤ t.month ∧ t.month ≤ 12) ∧ 1 ≤ t.day ∧ t.day ≤ monthLength (leap t.year) t.month

/-- The days from the beginning of a year to a date. -/
noncomputable def number (e : Int) (t : Date) : Int :=
  daysTo leap e t.year + daysBefore (leap t.year) (t.month - 1) + t.day - 1

/-- The next date. -/
def next (t : Date) : Date :=
  if t.day < monthLength (leap t.year) t.month then { t with day := t.day + 1 }
  else if t.month < 12 then { t with month := t.month + 1, day := 1 }
  else { year := t.year + 1, month := 1, day := 1 }

variable {leap}

/-- A date lies in its month. -/
theorem Valid.in_month {t : Date} (h : t.Valid leap) (e : Int) :
  daysTo leap e t.year + daysBefore (leap t.year) (t.month - 1) ≤ t.number leap e ∧
    t.number leap e < daysTo leap e t.year + daysBefore (leap t.year) t.month
  := by
  obtain ⟨⟨hlo, _⟩, hday, hday'⟩ := h
  have hmonth : daysBefore (leap t.year) t.month
      = daysBefore (leap t.year) (t.month - 1) + monthLength (leap t.year) t.month := by
    obtain ⟨k, hk⟩ : ∃ k, t.month = k + 1 := ⟨t.month - 1, by omega⟩
    rw [hk]
    rfl
  rw [number, hmonth]
  omega

/-- A date lies in its year. -/
theorem Valid.in_year {t : Date} (h : t.Valid leap) (e : Int) :
  daysTo leap e t.year ≤ t.number leap e ∧ t.number leap e < daysTo leap e (t.year + 1)
  := by
  obtain ⟨hlo, hhi⟩ := h.in_month e
  have hmono := daysBefore_mono (leap t.year) h.1.2
  rw [daysBefore_twelve] at hmono
  rw [daysTo_succ]
  omega

/-- No two dates have one number. -/
theorem Valid.unique {t t' : Date} (h : t.Valid leap) (h' : t'.Valid leap) {e : Int}
    (heq : t.number leap e = t'.number leap e) :
  t = t'
  := by
  have hyear : t.year = t'.year := by
    have hlt {a b : Int} : daysTo leap e a < daysTo leap e b ↔ a < b :=
      (daysTo_strictMono leap e).lt_iff_lt
    have hin := h.in_year e
    have hin' := h'.in_year e
    have h₁ := hlt.mp (hin.1.trans_lt (heq ▸ hin'.2))
    have h₂ := hlt.mp (hin'.1.trans_lt (heq ▸ hin.2))
    omega
  have hin := h.in_month e
  have hin' := h'.in_month e
  have hmono := fun {a b : Nat} (hab : a ≤ b) => daysBefore_mono (leap t'.year) hab
  rw [hyear] at hin
  have hmonth : t.month = t'.month := by
    by_contra hne
    rcases Nat.lt_or_gt_of_ne hne with hlt | hlt
    · have := hmono (show t.month ≤ t'.month - 1 by omega)
      omega
    · have := hmono (show t'.month ≤ t.month - 1 by omega)
      omega
  have hday : t.day = t'.day := by
    rw [number, number, hyear, hmonth] at heq
    omega
  cases t
  cases t'
  simp only at hyear hmonth hday
  rw [hyear, hmonth, hday]

/-- The next date is one of the calendar. -/
theorem Valid.next {t : Date} (h : t.Valid leap) :
  (t.next leap).Valid leap
  := by
  obtain ⟨⟨hlo, hhi⟩, hday, hday'⟩ := h
  rw [Date.next]
  split
  case isTrue hlt => use ⟨hlo, hhi⟩, Nat.succ_le_succ (Nat.zero_le _), hlt
  case isFalse hlt =>
    split
    case isTrue hmonth => use ⟨Nat.succ_le_succ (Nat.zero_le _), hmonth⟩, le_refl _, monthLength_pos _ _
    case isFalse hmonth => use ⟨le_refl _, show 1 ≤ 12 by decide⟩, le_refl _, monthLength_pos _ _

/-- The next date is the next day. -/
theorem Valid.number_next {t : Date} (h : t.Valid leap) (e : Int) :
  (t.next leap).number leap e = t.number leap e + 1
  := by
  obtain ⟨⟨hlo, hhi⟩, hday, hday'⟩ := h
  obtain ⟨k, hk⟩ : ∃ k, t.month = k + 1 := ⟨t.month - 1, by omega⟩
  rw [Date.next]
  split
  case isTrue hlt =>
    simp only [number]
    omega
  case isFalse hlt =>
    have hlast : t.day = monthLength (leap t.year) t.month := by omega
    have hsucc : daysBefore (leap t.year) t.month
        = daysBefore (leap t.year) (t.month - 1) + monthLength (leap t.year) t.month := by
      rw [hk]
      rfl
    split
    case isTrue hmonth =>
      simp only [number, Nat.add_sub_cancel, hsucc]
      omega
    case isFalse hmonth =>
      have htwelve : t.month = 12 := by omega
      rw [htwelve, daysBefore_twelve] at hsucc
      rw [htwelve] at hlast
      simp only [number, daysTo_succ, htwelve, Nat.sub_self]
      rw [daysBefore]
      omega

end Date

end Calendar
