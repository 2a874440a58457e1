import Mathlib.Tactic.IntervalCases
import Mathlib.Tactic.Ring
import Polyc.HolycLib.Integers
import Polyc.Lib.Calendar
import Polyc.Lib.Loop

/-!
# Day numbers and calendar fields

The conversions of `date.HC` between day numbers counted from the start of year 0 and the fields
of a calendar date, with the tables of the first days of the months and what is read of them.
-/

namespace Polyc

/-! ### Integers -/

/-- What is kept of a value in a `U64`. -/
def toU64 (x : Int) : Nat := (x % 2 ^ 64).toNat

/-! ### Data -/

/-- `CDate`: a day number and the time of the day in units of 2⁻³² days. -/
structure CDate where
  time : Nat
  date : Int
  deriving DecidableEq

/-- `CDateStruct`, but for the time zone, which no conversion uses. -/
structure CDateStruct where
  sec10000 : Nat
  sec100 : Nat
  sec : Nat
  min : Nat
  hour : Nat
  dayOfWeek : Nat
  dayOfMon : Nat
  mon : Nat
  year : Int
  deriving DecidableEq

/-- `mon_start_days1`. -/
def monStartDays1 : List Nat := [0, 31, 59, 90, 120, 151, 181, 212, 243, 273, 304, 334]

/-- `mon_start_days2`. -/
def monStartDays2 : List Nat := [0, 31, 60, 91, 121, 152, 182, 213, 244, 274, 305, 335]

/-! ### Conversions -/

/-- `YearStartDate`: divisions round towards zero. -/
def yearStartDate (year : Int) : Int :=
  let y1 := year - 1
  year * 365 + y1.tdiv 4 - y1.tdiv 100 + y1.tdiv 400 - y1.tdiv 4000

/-- `DayOfWeek`, with its `CDATE_BASE_DAY_OF_WEEK` of 0. -/
def dayOfWeek (i : Int) : Int :=
  if 0 ≤ i then i.tmod 7 else 6 - (6 - i).tmod 7

/-- `ModU64`: the remainder, the number it is given stays as it is. -/
def modU64 (k m : Nat) : Nat := k % m

/-- A turn of the first loop of `Date2Struct`, which lowers a year that begins too late. -/
def yearStep (date year : Int) : Int ⊕ Int :=
  if date < yearStartDate year then .inl (toI32 (year - 1)) else .inr year

/-- The table for a year of 365 days, or that of all other years. -/
def monStartDays (year : Int) : List Nat :=
  if yearStartDate (year + 1) - yearStartDate year = 365 then monStartDays1 else monStartDays2

section

-- the words outside of the tables
variable (beyond : List Nat → Nat → Nat)

/-- What is read of a table. -/
def readMon (tbl : List Nat) (k : Nat) : Nat := tbl[k]?.getD (beyond tbl k)

/-- A turn of the search for the month in `Date2Struct`, along with the indexes that are read. -/
def monthStep (tbl : List Nat) (date : Int) : Nat × List Nat → Nat × List Nat ⊕ Nat × List Nat
  | (k, reads) =>
    if readMon beyond tbl (k + 1) ≤ date ∧ k < 11 then
      .inl (k + 1, reads ++ [k + 1])
    else
      .inr (k, reads ++ [k + 1])

/-- `Date2Struct`, along with the indexes read of the month tables.  The loops are bounded by the
number of values of their counters. -/
def date2Struct (cdt : CDate) : Option (CDateStruct × List Nat) := do
  let estimate := toI32 (((cdt.date + 1) * 100000).tdiv 36524225)
  let year ← Loop.run (yearStep cdt.date) (2 ^ 32) estimate
  let date := cdt.date - yearStartDate year
  let tbl := monStartDays year
  let (k, reads) ← Loop.run (monthStep beyond tbl date) 12 (0, [])
  let day := date - readMon beyond tbl k
  let t := 625 * 15 * 15 * 3 * cdt.time / 2 ^ 21 + 1
  return ({
    sec10000 := modU64 t 100
    sec100 := modU64 t 100
    sec := modU64 t 60
    min := modU64 t 60
    hour := t
    dayOfWeek := toU64 (dayOfWeek cdt.date)
    dayOfMon := toU64 (day + 1)
    mon := k + 1
    year := year }, reads ++ [k])

/-- `Struct2Date`.  The index of a month is computed without sign. -/
def struct2Date (ds : CDateStruct) : CDate where
  time :=
    ((toI64 ((ds.sec10000 + 100 * (ds.sec100 + 100 * (ds.sec + 60 * (ds.min + 60 * ds.hour))))
      * 2 ^ 21)).tdiv (15 * 15 * 3 * 625) % 2 ^ 32).toNat
  date :=
    toI32 (yearStartDate ds.year + readMon beyond (monStartDays ds.year) (toU64 (ds.mon - 1))
      + ds.dayOfMon - 1)

/-- The fields of a day number at the start of the day. -/
def fieldsOf (i : Int) : Option CDateStruct := do
  let (ds, _) ← date2Struct beyond { time := 0, date := toI32 i }
  return ds

/-- `FirstDayOfMon`. -/
def firstDayOfMon (i : Int) : Option Int := do
  let ds ← fieldsOf beyond i
  return (struct2Date beyond ds).date

/-- `LastDayOfMon`: after December comes month 0 of the next year. -/
def lastDayOfMon (i : Int) : Option Int := do
  let ds ← fieldsOf beyond i
  let ds := { ds with mon := toU64 (ds.mon + 1) }
  let ds := if ds.mon = 13 then { ds with mon := 0, year := toI32 (ds.year + 1) } else ds
  return (struct2Date beyond { ds with dayOfMon := 1 }).date - 1

/-- `FirstDayOfYear`. -/
def firstDayOfYear (i : Int) : Option Int := do
  let ds ← fieldsOf beyond i
  return (struct2Date beyond { ds with dayOfMon := 1, mon := 1 }).date

/-- `LastDayOfYear`. -/
def lastDayOfYear (i : Int) : Option Int := do
  let ds ← fieldsOf beyond i
  return (struct2Date beyond { ds with dayOfMon := 1, mon := 1, year := toI32 (ds.year + 1) }).date
    - 1

end

/-!
## When day numbers and calendar fields convert both ways

The start dates of the years follow the leap years, so the fields of a day are right exactly when
the estimate of its year is not too low and its month is not December.
-/

open Calendar

/-! ### The calendar of the source -/

/-- The leap years: those of the Gregorian calendar but for every 4000th. -/
def holycLeap (y : Nat) : Bool :=
  4 ∣ y ∧ (¬ 100 ∣ y ∨ 400 ∣ y) ∧ ¬ 4000 ∣ y

/-- The rules of leap years add and remove a day. -/
theorem yearLength_holycLeap (n : Nat) :
  (yearLength (holycLeap n) : Int) =
    365 + (if 4 ∣ n then 1 else 0) - (if 100 ∣ n then 1 else 0) + (if 400 ∣ n then 1 else 0)
      - (if 4000 ∣ n then 1 else 0)
  := by
  have h100 : 100 ∣ n → 4 ∣ n := dvd_trans (by decide)
  have h400 : 400 ∣ n → 100 ∣ n := dvd_trans (by decide)
  have h4000 : 4000 ∣ n → 400 ∣ n := dvd_trans (by decide)
  rw [yearLength, holycLeap]
  simp only [decide_eq_true_eq]
  rcases em (4000 ∣ n) with h | h
  · simp [h, h4000 h, h400 (h4000 h), h100 (h400 (h4000 h))]
  · rcases em (400 ∣ n) with h' | h'
    · simp [h, h', h400 h', h100 (h400 h')]
    · rcases em (100 ∣ n) with h'' | h''
      · simp [h, h', h'', h100 h'']
      · simp [h, h', h'']
        split <;> rfl

/-- After year 0, no division rounds up. -/
theorem yearStartDate_succ (y : Nat) :
  yearStartDate (y + 1 : Nat) =
    (y + 1) * 365 + ((y / 4 : Nat) : Int) - (y / 100 : Nat) + (y / 400 : Nat) - (y / 4000 : Nat)
  := by
  rw [yearStartDate]
  push_cast
  simp only [add_sub_cancel_right]
  rw [Int.tdiv_eq_ediv_of_nonneg, Int.tdiv_eq_ediv_of_nonneg, Int.tdiv_eq_ediv_of_nonneg,
    Int.tdiv_eq_ediv_of_nonneg] <;> apply Int.natCast_nonneg

/-- The source finds the first days of the years. -/
theorem yearStartDate_eq (y : Nat) :
  yearStartDate y = firstOfYear holycLeap y
  := by
  have hsucc (y : Nat) : yearStartDate (y + 1 : Nat) = firstOfYear holycLeap (y + 1) := by
    induction y with
    | zero => rfl
    | succ y ih =>
      rw [firstOfYear, Nat.cast_add (firstOfYear _ _), ← ih, yearLength_holycLeap, yearStartDate_succ,
        yearStartDate_succ, Nat.succ_div, Nat.succ_div, Nat.succ_div, Nat.succ_div]
      push_cast
      ring
  cases y with
  | zero => rfl
  | succ y => apply hsucc

/-- A year has 365 days when it is no leap year. -/
theorem monStartDays_eq (y : Nat) :
  monStartDays y = if holycLeap y then monStartDays2 else monStartDays1
  := by
  rw [monStartDays, ← Nat.cast_succ, yearStartDate_eq, yearStartDate_eq, firstOfYear, yearLength]
  cases holycLeap y with
  | true =>
    apply if_neg
    simp only [if_true]
    omega
  | false =>
    apply if_pos
    simp only [Bool.false_eq_true, if_false]
    omega

variable (beyond : List Nat → Nat → Nat)

/-- Inside the tables are the days before the months. -/
theorem readMon_eq {y k : Nat} (hk : k < 12) :
  readMon beyond (monStartDays y) k = daysBefore (holycLeap y) k
  := by
  rw [monStartDays_eq]
  cases holycLeap y <;> interval_cases k <;> rfl

/-! ### The loops -/

/-- The first loop lowers the estimate to the year, and leaves a lower one as it is. -/
theorem yearLoop_eq {d y e n : Nat} (h : InYear holycLeap d y) (he : e < 2 ^ 31) (hn : e < n) :
  Loop.run (yearStep d) n e = some ((min e y : Nat) : Int)
  := by
  induction e generalizing n with
  | zero =>
    obtain ⟨n, rfl⟩ : ∃ m, n = m + 1 := ⟨n - 1, by omega⟩
    rw [Loop.run, yearStep, yearStartDate_eq, firstOfYear, if_neg (by omega), Nat.zero_min]
  | succ e ih =>
    obtain ⟨n, rfl⟩ : ∃ m, n = m + 1 := ⟨n - 1, by omega⟩
    rw [Loop.run, yearStep, yearStartDate_eq]
    have hmono := (firstOfYear_strictMono holycLeap).le_iff_le (a := e + 1) (b := y)
    rcases Nat.lt_or_ge y (e + 1) with hlt | hge
    · have hstart : d < firstOfYear holycLeap (e + 1) :=
        h.2.trans_le ((firstOfYear_strictMono holycLeap).le_iff_le.2 hlt)
      have hprev : toI32 ((e + 1 : Nat) - 1) = (e : Int) := by
        rw [Nat.cast_succ, add_sub_cancel_right]
        apply toI32_of_lt <;> omega
      rw [if_pos (by omega), hprev]
      simp only
      rw [ih (by omega) (by omega)]
      congr 2
      omega
    · have hstart := hmono.2 hge
      rw [if_neg (by have := h.1; omega)]
      simp only
      congr 2
      omega

/-- What the search for the month finds. -/
structure MonthFound (isLeap : Bool) (r : Nat) (found : Nat × List Nat) : Prop where
  /-- There is such a month. -/
  le : found.1 ≤ 11
  /-- The month has begun. -/
  begun : daysBefore isLeap found.1 ≤ r
  /-- The month has not ended. -/
  ends : found.1 < 11 → r < daysBefore isLeap (found.1 + 1)
  /-- The table is read beyond its end in December. -/
  reads : (∀ i ∈ found.2, i < 12) ↔ found.1 < 11

/-- The second loop finds the month. -/
theorem monthLoop_found (y r : Nat) :
  ∃ found, Loop.run (monthStep beyond (monStartDays y) r) 12 (0, []) = some found ∧
    MonthFound (holycLeap y) r found
  := by
  let Inv : Nat × List Nat → Prop := fun s =>
    s.1 ≤ 11 ∧ daysBefore (holycLeap y) s.1 ≤ r ∧ ∀ i ∈ s.2, i < 12
  have hkeeps : Loop.Keeps (monthStep beyond (monStartDays y) r) Inv
      (MonthFound (holycLeap y) r) (fun s => 11 - s.1) := by
    rintro ⟨k, reads⟩ ⟨hk, hbegun, hreads⟩
    rw [monthStep]
    rcases Nat.lt_or_ge k 11 with hlt | hge
    · rw [readMon_eq beyond (by omega)]
      have hnext : ∀ i ∈ reads ++ [k + 1], i < 12 := by
        intro i hi
        rcases List.mem_append.1 hi with hi | hi
        · apply hreads i hi
        · rw [List.mem_singleton.1 hi]
          omega
      rcases Nat.lt_or_ge r (daysBefore (holycLeap y) (k + 1)) with hr | hr
      · rw [if_neg (by omega)]
        exact ⟨hk, hbegun, fun _ => hr, iff_of_true hnext hlt⟩
      · rw [if_pos (by omega)]
        exact ⟨⟨hlt, hr, hnext⟩, Nat.sub_lt_sub_left hlt (Nat.lt_succ_self k)⟩
    · obtain rfl : k = 11 := le_antisymm hk hge
      rw [if_neg (by omega)]
      refine ⟨hk, hbegun, fun h => absurd h (by simp only; omega), iff_of_false ?_ (by simp)⟩
      intro h
      exact absurd (h 12 (by simp)) (by omega)
  have hinit : Inv (0, []) := ⟨Nat.zero_le 11, Nat.zero_le r, fun _ hi => absurd hi List.not_mem_nil⟩
  apply hkeeps.run hinit (Nat.lt_succ_self 11)

/-! ### The fields of a day -/

/-- The estimate of the year of a day. -/
def estimate (d : Nat) : Nat := (d + 1) * 100000 / 36524225

/-- What the fields of a day are when its year is taken to be `y`. -/
structure FieldsIn (d y : Nat) (ds : CDateStruct) (reads : List Nat) : Prop where
  /-- The year is stored. -/
  year : ds.year = y
  /-- Months are counted from 1. -/
  pos : 1 ≤ ds.mon
  /-- There are twelve months. -/
  le : ds.mon ≤ 12
  /-- The days are counted from the first of the month. -/
  day : firstOfMonth holycLeap y ds.mon + ds.dayOfMon = d + 1
  /-- Days are counted from 1. -/
  day_pos : 1 ≤ ds.dayOfMon
  /-- Any month but December ends after the day. -/
  ends : ds.mon < 12 → d < firstOfMonth holycLeap y (ds.mon + 1)
  /-- The table is read beyond its end in December. -/
  reads : (∀ i ∈ reads, i < 12) ↔ ds.mon < 12

/-- The fields of a day are those in its year, or in that of the estimate when this is lower. -/
theorem date2Struct_fieldsIn {d y : Nat} (t : Nat) (h : InYear holycLeap d y) (hd : d < 2 ^ 31) :
  ∃ ds reads, date2Struct beyond ⟨t, d⟩ = some (ds, reads) ∧
    FieldsIn d (min (estimate d) y) ds reads
  := by
  have hest : toI32 (((d + 1 : Int) * 100000).tdiv 36524225) = (estimate d : Nat) := by
    rw [Int.tdiv_eq_ediv_of_nonneg (by omega), estimate]
    push_cast
    apply toI32_of_lt <;> omega
  have hlt : estimate d < 2 ^ 31 := by
    rw [estimate]
    omega
  obtain ⟨y', hy'⟩ : ∃ y', y' = min (estimate d) y := ⟨_, rfl⟩
  have hyear := yearLoop_eq h hlt (hlt.trans (show 2 ^ 31 < 2 ^ 32 by decide))
  have hstart : firstOfYear holycLeap y' ≤ d := by
    apply le_trans _ h.1
    apply (firstOfYear_strictMono holycLeap).monotone
    rw [hy']
    apply Nat.min_le_right
  have hrest : (d : Int) - firstOfYear holycLeap y' = (d - firstOfYear holycLeap y' : Nat) := by
    omega
  obtain ⟨⟨k, reads⟩, hmonth, hfound⟩ :=
    monthLoop_found beyond y' (d - firstOfYear holycLeap y')
  obtain ⟨hle, hbegun, hends, hreads⟩ := hfound
  simp only at hle hbegun hends hreads
  rw [← hy'] at hyear ⊢
  rw [date2Struct]
  simp only [hest, hyear, Option.bind_eq_bind, Option.bind_some, yearStartDate_eq, hrest, hmonth,
    readMon_eq beyond (show k < 12 by omega)]
  refine ⟨_, _, rfl, ?_⟩
  have hday : toU64 (((d - firstOfYear holycLeap y' : Nat) : Int) - daysBefore (holycLeap y') k + 1)
      = d - firstOfYear holycLeap y' - daysBefore (holycLeap y') k + 1 := by
    rw [toU64]
    omega
  constructor
  · rfl
  · apply Nat.succ_pos
  · apply Nat.succ_le_succ hle
  · simp only [hday, firstOfMonth, Nat.add_sub_cancel]
    omega
  · simp only [hday]
    omega
  · intro hk
    have hk' := hends (Nat.lt_of_succ_lt_succ hk)
    simp only [firstOfMonth, Nat.add_sub_cancel]
    omega
  · simp only [List.forall_mem_append, hreads, List.forall_mem_singleton]
    omega

/-- `Struct2Date` counts the days before the month. -/
theorem struct2Date_date {y : Nat} {ds : CDateStruct} (hyear : ds.year = y) (hpos : 1 ≤ ds.mon)
    (hle : ds.mon ≤ 12) :
  (struct2Date beyond ds).date = toI32 (firstOfMonth holycLeap y ds.mon + ds.dayOfMon - 1)
  := by
  have hidx : toU64 ((ds.mon : Int) - 1) = ds.mon - 1 := by
    rw [toU64]
    omega
  rw [struct2Date, firstOfMonth]
  simp only [hyear, yearStartDate_eq, hidx, readMon_eq beyond (show ds.mon - 1 < 12 by omega)]
  push_cast
  rfl

/-- `Struct2Date` of the first of a month. -/
theorem struct2Date_first {y m : Nat} {ds : CDateStruct} (hyear : ds.year = y) (hmon : ds.mon = m)
    (hday : ds.dayOfMon = 1) (hpos : 1 ≤ m) (hle : m ≤ 12) :
  (struct2Date beyond ds).date = toI32 (firstOfMonth holycLeap y m)
  := by
  subst hmon
  rw [struct2Date_date beyond hyear hpos hle, hday, Nat.cast_one, add_sub_cancel_right]

/-- The fields of a day name it: there is such a date, the tables are read inside their bounds,
and the date is that day. -/
def FieldsRight (cdt : CDate) : Prop :=
  ∃ ds reads, date2Struct beyond cdt = some (ds, reads) ∧ 0 ≤ ds.year ∧
    1 ≤ ds.mon ∧ ds.mon ≤ 12 ∧ 1 ≤ ds.dayOfMon ∧
    ds.dayOfMon ≤ monthLength (holycLeap ds.year.toNat) ds.mon ∧
    (∀ i ∈ reads, i < 12) ∧ (struct2Date beyond ds).date = cdt.date

/-- The first day after a month of a year. -/
theorem firstOfMonth_succ (y : Nat) {m : Nat} (hm : 1 ≤ m) :
  firstOfMonth holycLeap y (m + 1) =
    firstOfMonth holycLeap y m + monthLength (holycLeap y) m
  := by
  obtain ⟨k, rfl⟩ : ∃ k, m = k + 1 := ⟨m - 1, by omega⟩
  simp only [firstOfMonth, Nat.add_sub_cancel, daysBefore]
  omega

variable {beyond}

/-- Fields read inside the tables are those of the month. -/
theorem FieldsIn.inMonth {d y : Nat} {ds : CDateStruct} {reads : List Nat}
    (h : FieldsIn d y ds reads) (hreads : ∀ i ∈ reads, i < 12) :
  InMonth holycLeap d y ds.mon
  := by
  refine ⟨h.pos, h.le, ?_, ?_⟩
  · have hday := h.day
    have hpos := h.day_pos
    omega
  · rw [← firstOfMonth_succ y h.pos]
    apply h.ends (h.reads.1 hreads)

/-- The fields are right in every month but December of a year not estimated too low. -/
theorem fieldsRight_iff {d y m : Nat} (t : Nat) (h : InMonth holycLeap d y m) (hd : d < 2 ^ 31) :
  FieldsRight beyond ⟨t, d⟩ ↔ m ≤ 11 ∧ y ≤ estimate d
  := by
  obtain ⟨ds, reads, hds, hin⟩ := date2Struct_fieldsIn beyond t h.inYear hd
  constructor
  · rintro ⟨ds', reads', hds', -, -, -, -, -, hreads, -⟩
    rw [hds] at hds'
    cases hds'
    obtain ⟨hy, hm⟩ := (hin.inMonth hreads).unique h
    have hmon := hin.reads.1 hreads
    omega
  · rintro ⟨hm, hy⟩
    rw [Nat.min_eq_right hy] at hin
    have hlt : ds.mon < 12 := by
      apply lt_of_le_of_ne hin.le
      intro hdec
      have hdays := hin.day
      have hpos := hin.day_pos
      have hmono := daysBefore_mono (holycLeap y) hm
      have hend := h.2.2.2
      rw [← firstOfMonth_succ y h.1] at hend
      rw [hdec] at hdays
      simp only [firstOfMonth, Nat.add_sub_cancel, Nat.reduceSub] at hdays hend
      omega
    have hreads := hin.reads.2 hlt
    obtain ⟨-, -, hlo, hhi⟩ := hin.inMonth hreads
    have hday := hin.day
    refine ⟨ds, reads, hds, ?_, hin.pos, hin.le, hin.day_pos, ?_, hreads, ?_⟩
    · rw [hin.year]
      apply Int.natCast_nonneg
    · rw [hin.year, Int.toNat_natCast]
      omega
    · rw [struct2Date_date beyond hin.year hin.pos hin.le]
      rw [show (firstOfMonth holycLeap y ds.mon : Int) + ds.dayOfMon - 1 = d by omega]
      apply toI32_of_lt <;> omega

/-! ### The ends of a month and of a year -/

/-- The functions return the first and the last days of the month and of the year. -/
def EndsRight (beyond : List Nat → Nat → Nat) (d : Nat) : Prop :=
  ∀ y m, InMonth holycLeap d y m →
    firstDayOfMon beyond d = some (firstOfMonth holycLeap y m : Int) ∧
    lastDayOfMon beyond d =
      some ((firstOfMonth holycLeap y m + monthLength (holycLeap y) m : Nat) - 1 : Int) ∧
    firstDayOfYear beyond d = some (firstOfYear holycLeap y : Int) ∧
    lastDayOfYear beyond d = some (firstOfYear holycLeap (y + 1) - 1 : Int)

/-- A day is the first of a month other than December, its year is not estimated too low, and the
next year begins before day 2³¹. -/
def RegularDay (d : Nat) : Prop :=
  ∃ y m, 1 ≤ m ∧ m ≤ 11 ∧ d = firstOfMonth holycLeap y m ∧ y * 36524225 ≤ (d + 1) * 100000 ∧
    firstOfYear holycLeap (y + 1) < 2 ^ 31

/-- What the functions return for a day whose fields are right. -/
theorem ends_eq (beyond : List Nat → Nat → Nat) {d y m : Nat} (h : InMonth holycLeap d y m)
    (hd : d < 2 ^ 31) (hm : m ≤ 11) (hy : y ≤ estimate d) :
  firstDayOfMon beyond d = some (d : Int) ∧
    lastDayOfMon beyond d = some (toI32 (firstOfMonth holycLeap y (m + 1)) - 1) ∧
    firstDayOfYear beyond d = some (toI32 (firstOfYear holycLeap y)) ∧
    lastDayOfYear beyond d = some (toI32 (firstOfYear holycLeap (y + 1)) - 1)
  := by
  obtain ⟨ds, reads, hds, hin⟩ := date2Struct_fieldsIn beyond 0 h.inYear hd
  obtain ⟨ds', reads', hds', -, -, -, -, -, hreads, hback⟩ := (fieldsRight_iff 0 h hd).2 ⟨hm, hy⟩
  rw [hds] at hds'
  cases hds'
  obtain ⟨-, hmon⟩ := (hin.inMonth hreads).unique h
  rw [Nat.min_eq_right hy] at hin
  have hfields : fieldsOf beyond d = some ds := by
    rw [fieldsOf, toI32_of_lt (by omega) (by omega), hds]
    rfl
  have hyear : toI32 (ds.year + 1) = (y + 1 : Nat) := by
    rw [hin.year]
    have hle : y < 2 ^ 31 - 1 := by
      apply lt_of_le_of_lt hy
      rw [estimate]
      omega
    apply toI32_of_lt <;> omega
  have hnext : toU64 ((ds.mon : Int) + 1) = m + 1 := by
    rw [toU64, hmon]
    omega
  have hthirteen : m + 1 ≠ 13 := by omega
  simp only [firstDayOfMon, lastDayOfMon, firstDayOfYear, lastDayOfYear, hfields,
    Option.bind_eq_bind, Option.bind_some, hback, hnext, hthirteen, if_false, hyear]
  refine ⟨rfl, ?_, ?_, ?_⟩
  · rw [struct2Date_first (y := y) (m := m + 1)]
    · rfl
    · apply hin.year
    · rfl
    · rfl
    · apply Nat.succ_pos
    · apply Nat.succ_le_succ hm
  · rw [struct2Date_first (y := y) (m := 1)]
    · rfl
    · apply hin.year
    · rfl
    · rfl
    · decide
    · decide
  · rw [struct2Date_first (y := y + 1) (m := 1)]
    · rfl
    · rfl
    · rfl
    · rfl
    · decide
    · decide

/-- Nothing between 2³¹ and 2³² is kept in an `I32`. -/
theorem toI32_eq_iff {n : Nat} (hn : n < 2 ^ 32) :
  toI32 n = n ↔ n < 2 ^ 31
  := by
  constructor
  · intro h
    have hlt := Int.bmod_lt (x := n) (show 0 < 2 ^ 32 by decide)
    rw [toI32] at h
    omega
  · intro h
    apply toI32_of_lt <;> omega

/-- Every year but the first begins after its days of the year before. -/
theorem firstOfYear_succ_le (y : Nat) :
  firstOfYear holycLeap (y + 1) ≤ firstOfYear holycLeap y + 366
  := by
  rw [firstOfYear, yearLength]
  split <;> omega

/-- Some day lies in some month. -/
theorem exists_inMonth_of_fieldsRight {d : Nat} (t : Nat) (h : FieldsRight beyond ⟨t, d⟩)
    (hd : d < 2 ^ 31) :
  ∃ y m, InMonth holycLeap d y m
  := by
  obtain ⟨y, hy⟩ : ∃ y, InYear holycLeap d y := exists_inYear d
  obtain ⟨ds, reads, hds, hin⟩ := date2Struct_fieldsIn beyond t hy hd
  obtain ⟨ds', reads', hds', -, -, -, -, -, hreads, -⟩ := h
  rw [hds] at hds'
  cases hds'
  exact ⟨_, _, hin.inMonth hreads⟩

/-- Day numbers and calendar fields convert both ways, and the ends of months and years are found,
exactly for the regular days. -/
theorem date_converts_iff (beyond : List Nat → Nat → Nat) (t : Nat) {d : Nat} (hd : d < 2 ^ 31) :
  FieldsRight beyond ⟨t, d⟩ ∧ EndsRight beyond d ↔ RegularDay d
  := by
  constructor
  · rintro ⟨hfields, hends⟩
    obtain ⟨y, m, h⟩ := exists_inMonth_of_fieldsRight t hfields hd
    obtain ⟨hm, hy⟩ := (fieldsRight_iff t h hd).1 hfields
    obtain ⟨hfirst, -, -, hlast⟩ := hends y m h
    obtain ⟨hfirst', -, -, hlast'⟩ := ends_eq beyond h hd hm hy
    rw [hfirst] at hfirst'
    rw [hlast, Option.some.injEq] at hlast'
    refine ⟨y, m, h.1, hm, ?_, ?_, ?_⟩
    · simpa using hfirst'.symm
    · rw [estimate] at hy
      omega
    · have hyear := h.inYear.1
      have hle := firstOfYear_succ_le y
      apply (toI32_eq_iff (by omega)).1
      omega
  · rintro ⟨y, m, hpos, hm, hfirst, hy, hnext⟩
    have h : InMonth holycLeap d y m :=
      ⟨hpos, hm.trans (by decide), hfirst.ge, by have := monthLength_pos (holycLeap y) m; omega⟩
    have hest : y ≤ estimate d := by
      rw [estimate]
      omega
    constructor
    · apply (fieldsRight_iff t h hd).2 ⟨hm, hest⟩
    · intro y' m' h'
      obtain ⟨rfl, rfl⟩ := h.unique h'
      obtain ⟨hfirst', hlast, hyear, hyear'⟩ := ends_eq beyond h hd hm hest
      have hmonth : firstOfMonth holycLeap y (m + 1) ≤ firstOfYear holycLeap (y + 1) := by
        have hmono := daysBefore_mono (holycLeap y) (show m ≤ 12 by omega)
        rw [daysBefore_twelve] at hmono
        rw [firstOfMonth, firstOfYear, Nat.add_sub_cancel]
        omega
      have hbegin := h.inYear.1
      rw [toI32_of_lt (by omega) (by omega)] at hlast hyear hyear'
      rw [hfirst', hlast, hyear, hyear', ← firstOfMonth_succ y hpos, ← hfirst]
      exact ⟨rfl, rfl, rfl, rfl⟩

/-- The first of March of the leap year 2024 is regular. -/
theorem date_converts_march :
  FieldsRight (fun _ _ => 0) ⟨2 ^ 31, (739310 : Nat)⟩ ∧ EndsRight (fun _ _ => 0) 739310
  := by
  apply (date_converts_iff (fun _ _ => 0) (2 ^ 31) (by decide)).2
  exact ⟨2024, 3, by decide, by decide, by decide +kernel, by decide, by decide +kernel⟩

/-- The first day of year 104 is taken for the 32nd of December. -/
theorem fields_newYear :
  ¬ ∀ (beyond : List Nat → Nat → Nat) (t d : Nat), d < 2 ^ 31 →
    FieldsRight beyond ⟨t, d⟩ ∧ EndsRight beyond d
  := by
  intro h
  obtain ⟨ds, reads, hds, -, -, -, -, hday, -⟩ := (h (fun _ _ => 0) 0 37984 (by decide)).1
  have hrun : (date2Struct (fun _ _ => 0) ⟨0, (37984 : Nat)⟩).map
      (fun x => (x.1.year, x.1.mon, x.1.dayOfMon)) = some (103, 12, 32) := by
    decide +kernel
  rw [hds, Option.map_some, Option.some.injEq, Prod.mk.injEq, Prod.mk.injEq] at hrun
  obtain ⟨hyear, hmon, hdayOfMon⟩ := hrun
  rw [hyear, hmon, hdayOfMon] at hday
  revert hday
  decide

end Polyc
