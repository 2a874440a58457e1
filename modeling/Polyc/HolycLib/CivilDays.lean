import Polyc.HolycLib.StrPrint
import Polyc.Lib.CivilCalendar

/-!
# Civil dates of day counts

`CivilFromDays` and `IsoFromTimespec` of `date.HC`.  Behind the first two sums of `CivilFromDays` no value
leaves the range of an `I64`.

A year is counted from its first of March, behind the day of leap years, so that the years of an era begin
where the formula of `CivilFromDays` changes.
-/

namespace Polyc

open Bytes (Byte)

/-- `CivilFromDays`: the year, the month and the day. -/
def civilFromDays (z : Int) : Int × Int × Int :=
  let z := toI64 (z + 719468)
  let era := if z ≥ 0 then z.tdiv 146097 else (toI64 (z - 146096)).tdiv 146097
  let doe := z - era * 146097
  let yoe := (doe - doe.tdiv 1460 + doe.tdiv 36524 - doe.tdiv 146096).tdiv 365
  let yr := yoe + era * 400
  let doy := doe - (365 * yoe + yoe.tdiv 4 - yoe.tdiv 100)
  let mp := (5 * doy + 2).tdiv 153
  let d := doy - (153 * mp + 2).tdiv 5 + 1
  let m := if mp < 10 then mp + 3 else mp - 9
  (yr + (if m ≤ 2 then 1 else 0), m, d)

/-- `%04d-%02d-%02dT%02d:%02d:%02d.%09dZ`. -/
def isoFormat : List Byte :=
  [0x25, 0x30, 0x34, 0x64, 0x2D, 0x25, 0x30, 0x32, 0x64, 0x2D, 0x25, 0x30, 0x32, 0x64, 0x54,
    0x25, 0x30, 0x32, 0x64, 0x3A, 0x25, 0x30, 0x32, 0x64, 0x3A, 0x25, 0x30, 0x32, 0x64, 0x2E,
    0x25, 0x30, 0x39, 0x64, 0x5A]

/-- The arguments of a call. -/
def argvOf (args : List Int) (k : Nat) : BitVec 64 := BitVec.ofInt 64 (args.getD k 0)

section

-- the conversions that are not of integers
variable (other : Byte → PrintSpec → PrintState → Option PrintState)

/-- `IsoFromTimespec` with fuel for the turns of the loop of `StrPrintJoin`. -/
def isoFromTimespec (fuel : Nat) (sec nsec : Int) : Option (List Byte) :=
  let days := sec.tdiv 86400
  let rem := sec.tmod 86400
  let (days, rem) := if rem < 0 then (days - 1, rem + 86400) else (days, rem)
  let hh := rem.tdiv 3600
  let mm := (rem.tmod 3600).tdiv 60
  let ss := rem.tmod 60
  let (y, mo, d) := civilFromDays days
  strPrintJoin (argvOf [y, mo, d, hh, mm, ss, nsec]) other fuel isoFormat

end

open Calendar Numeral

/-! ### Years -/

/-- The leap years of the Gregorian calendar. -/
def gregorianLeap (y : Int) : Bool := 4 ∣ y ∧ (¬100 ∣ y ∨ 400 ∣ y)

/-- The days from the first of March of year 0 to that of a year. -/
def marchFirst (y : Int) : Int := 365 * y + y / 4 - y / 100 + y / 400

/-- Between two firsts of March are the days of the later year. -/
theorem marchFirst_succ (y : Int) :
  marchFirst (y + 1) = marchFirst y + yearLength (gregorianLeap (y + 1))
  := by
  rw [marchFirst, marchFirst, yearLength, gregorianLeap]
  simp only [decide_eq_true_eq]
  split <;> omega

/-- A leap year has a day more. -/
theorem yearLength_toNat (isLeap : Bool) :
  yearLength isLeap = 365 + isLeap.toNat
  := by
  cases isLeap <;> rfl

/-- The first of January of a year. -/
theorem daysTo_eq (y : Int) :
  daysTo gregorianLeap 1970 y = marchFirst (y - 1) + 306 - 719468
  := by
  apply daysTo_unique gregorianLeap (f := fun y => marchFirst (y - 1) + 306 - 719468)
  · decide
  · intro y
    have h := marchFirst_succ (y - 1)
    rw [sub_add_cancel] at h
    simp only [add_sub_cancel_right, h]
    ring

/-! ### Eras -/

/-- The year of a day of an era. -/
def yearOfEra (doe : Nat) : Nat := (doe - doe / 1460 + doe / 36524 - doe / 146096) / 365

/-- The first day of a year of an era. -/
def firstOfEra (y : Nat) : Nat := 365 * y + y / 4 - y / 100 + y / 400

/-- Later days are of later years. -/
theorem yearOfEra_mono :
  Monotone yearOfEra
  := by
  apply monotone_nat_of_le_succ
  intro n
  apply Nat.div_le_div_right
  have h : (n + 1) / 146096 = (n + 1) / 36524 / 4 := by rw [Nat.div_div_eq_div_mul]
  have h' : n / 146096 = n / 36524 / 4 := by rw [Nat.div_div_eq_div_mul]
  have hcentury : (n + 1) / 36524 = n / 36524 ∨ (n + 1) / 36524 = n / 36524 + 1 := by omega
  have hleap : (n + 1) / 1460 = n / 1460 ∨ (n + 1) / 1460 = n / 1460 + 1 := by omega
  have hle := Nat.div_le_self n 1460
  rw [h, h']
  -- the quotients are only known by what a day adds to them
  generalize n / 36524 = century at *
  generalize n / 1460 = leap at *
  rcases hcentury with hc | hc <;> rcases hleap with hl | hl <;> rw [hc, hl] <;> omega

/-- The first and the last day of a year of an era. -/
theorem yearOfEra_ends :
  ∀ y < 400, yearOfEra (firstOfEra y) = y ∧ yearOfEra (firstOfEra (y + 1) - 1) = y
  := by
  decide +kernel

/-- A day of an era lies in its year. -/
theorem yearOfEra_spec {doe : Nat} (h : doe < 146097) :
  yearOfEra doe < 400 ∧ firstOfEra (yearOfEra doe) ≤ doe ∧ doe < firstOfEra (yearOfEra doe + 1)
  := by
  have hy : yearOfEra doe < 400 := by
    have hle := yearOfEra_mono (show doe ≤ 146096 by omega)
    have hlast : yearOfEra 146096 = 399 := by decide
    omega
  use hy
  constructor
  · by_contra hlt
    have hpos : yearOfEra doe ≠ 0 := by
      intro h0
      rw [h0] at hlt
      apply hlt (Nat.zero_le _)
    have hends := (yearOfEra_ends (yearOfEra doe - 1) (by omega)).2
    rw [Nat.sub_add_cancel (by omega)] at hends
    have hle := yearOfEra_mono (show doe ≤ firstOfEra (yearOfEra doe) - 1 by omega)
    omega
  · by_contra hge
    rcases Nat.lt_or_ge (yearOfEra doe + 1) 400 with hlt | hlast
    · have hle := yearOfEra_mono (Nat.not_lt.mp hge)
      rw [(yearOfEra_ends _ hlt).1] at hle
      omega
    · obtain heq : yearOfEra doe = 399 := by omega
      rw [heq] at hge
      apply hge h

/-- A year of an era has 366 days at most. -/
theorem firstOfEra_room {doe : Nat} (h : doe < 146097) :
  doe - firstOfEra (yearOfEra doe) < 366
  := by
  obtain ⟨hy, hfirst, hlast⟩ := yearOfEra_spec h
  rw [firstOfEra] at hlast hfirst ⊢
  generalize yearOfEra doe = y at hy hfirst hlast
  rcases Nat.lt_or_ge y 399 with hlt | hge
  · have hzero : (y + 1) / 400 = 0 := Nat.div_eq_of_lt (by omega)
    have hfour : (y + 1) / 4 ≤ y / 4 + 1 := by omega
    have hcentury : y / 100 ≤ (y + 1) / 100 := Nat.div_le_div_right (Nat.le_succ y)
    omega
  · obtain rfl : y = 399 := by omega
    omega

/-! ### Months -/

/-- The month and the day of a day of a year that begins in March. -/
theorem month_spec :
  ∀ doy < 366, ∀ isLeap : Bool,
    let mp := (5 * doy + 2) / 153
    let d := doy - (153 * mp + 2) / 5 + 1
    (153 * mp + 2) / 5 ≤ doy ∧
    (mp < 10 → mp + 3 ≤ 12 ∧ d ≤ monthLength isLeap (mp + 3) ∧
      daysBefore isLeap (mp + 3 - 1) + d = 60 + isLeap.toNat + doy) ∧
    (¬mp < 10 → 10 ≤ mp ∧ mp - 9 ≤ 2 ∧ (doy < 365 ∨ isLeap → d ≤ monthLength isLeap (mp - 9)) ∧
      daysBefore isLeap (mp - 9 - 1) + d + 305 = doy)
  := by
  decide +kernel

/-! ### Dates -/

/-- A division by a number above 0 rounds down. -/
theorem tdiv_era (z : Int) :
  (if z ≥ 0 then z.tdiv 146097 else (z - 146096).tdiv 146097) = z / 146097
  := by
  split
  case isTrue h => apply Int.tdiv_eq_ediv_of_nonneg h
  case isFalse h =>
    have hneg : z - 146096 = -(146096 - z) := by omega
    rw [hneg, Int.neg_tdiv, Int.tdiv_eq_ediv_of_nonneg (by omega)]
    omega

/-- The shift of the days and the eras leave the range of an `I64` at its upper end only. -/
theorem toI64_shift {z : Int} (hlo : -2 ^ 63 ≤ z) (hhi : z + 719468 < 2 ^ 63) :
  (let z := toI64 (z + 719468)
    if z ≥ 0 then z.tdiv 146097 else (toI64 (z - 146096)).tdiv 146097) = (z + 719468) / 146097
  := by
  have hz : toI64 (z + 719468) = z + 719468 := toI64_of_bounds (by omega) hhi
  have hz' : toI64 (z + 719468 - 146096) = z + 719468 - 146096 := toI64_of_bounds (by omega) (by omega)
  simp only [hz, hz']
  apply tdiv_era

/-- The date of a day of an era. -/
def dateOfEra (era : Int) (doe : Nat) : Date :=
  let yoe := yearOfEra doe
  let doy := doe - firstOfEra yoe
  let mp := (5 * doy + 2) / 153
  let day := doy - (153 * mp + 2) / 5 + 1
  if mp < 10 then { year := yoe + era * 400, month := mp + 3, day }
  else { year := yoe + era * 400 + 1, month := mp - 9, day }

/-- `CivilFromDays` takes the days apart into eras. -/
theorem civilFromDays_eq {z : Int} (hlo : -2 ^ 63 ≤ z) (hhi : z + 719468 < 2 ^ 63) {doe : Nat}
    (hdoe : z + 719468 - (z + 719468) / 146097 * 146097 = doe) (hlt : doe < 146097) :
  civilFromDays z = ((dateOfEra ((z + 719468) / 146097) doe).year,
    ((dateOfEra ((z + 719468) / 146097) doe).month : Int), ((dateOfEra ((z + 719468) / 146097) doe).day : Int))
  := by
  have htdiv (m k : Nat) : (m : Int).tdiv k = (m / k : Nat) := rfl
  have hera := toI64_shift hlo hhi
  have hz : toI64 (z + 719468) = z + 719468 := toI64_of_bounds (by omega) hhi
  obtain ⟨hy, hfirst, hlast⟩ := yearOfEra_spec hlt
  have hyoe : ((doe : Int) - (doe : Int).tdiv 1460 + (doe : Int).tdiv 36524 - (doe : Int).tdiv 146096).tdiv 365
      = yearOfEra doe := by
    have hsum : (doe : Int) - (doe : Int).tdiv 1460 + (doe : Int).tdiv 36524 - (doe : Int).tdiv 146096
        = (doe - doe / 1460 + doe / 36524 - doe / 146096 : Nat) := by
      have h₁ := htdiv doe 1460
      have h₂ := htdiv doe 36524
      have h₃ := htdiv doe 146096
      push_cast at h₁ h₂ h₃
      rw [h₁, h₂, h₃]
      omega
    rw [hsum]
    rfl
  have hdoy : (doe : Int) - (365 * (yearOfEra doe : Int) + (yearOfEra doe : Int).tdiv 4
        - (yearOfEra doe : Int).tdiv 100) = (doe - firstOfEra (yearOfEra doe) : Nat) := by
    have h₁ := htdiv (yearOfEra doe) 4
    have h₂ := htdiv (yearOfEra doe) 100
    push_cast at h₁ h₂
    rw [firstOfEra] at hfirst ⊢
    rw [h₁, h₂]
    omega
  have hbound := firstOfEra_room hlt
  simp only [civilFromDays]
  simp only at hera
  rw [hera, hz, hdoe, hyoe, hdoy, dateOfEra]
  generalize doe - firstOfEra (yearOfEra doe) = doy at hbound
  obtain ⟨hq, hspring, hwinter⟩ := month_spec doy hbound true
  have hmp : (5 * (doy : Int) + 2).tdiv 153 = ((5 * doy + 2) / 153 : Nat) := htdiv (5 * doy + 2) 153
  have hday : (153 * ((5 * (doy : Int) + 2).tdiv 153) + 2).tdiv 5
      = ((153 * ((5 * doy + 2) / 153) + 2) / 5 : Nat) := by
    rw [hmp]
    apply htdiv (153 * ((5 * doy + 2) / 153) + 2) 5
  rw [hday, hmp]
  generalize (5 * doy + 2) / 153 = mp at hq hspring hwinter
  generalize (153 * mp + 2) / 5 = q at hq
  rcases Nat.lt_or_ge mp 10 with h | h
  · have hcast : (mp : Int) < 10 := by omega
    simp only [if_pos hcast, if_pos h]
    rw [if_neg (by omega), add_zero]
    push_cast [hq]
    rfl
  · obtain ⟨_, hmon, _⟩ := hwinter (Nat.not_lt.mpr h)
    have hcast : ¬(mp : Int) < 10 := by omega
    simp only [if_neg hcast, if_neg (Nat.not_lt.mpr h)]
    rw [if_pos (by omega)]
    push_cast [hq, show 9 ≤ mp by omega]
    rfl

/-- The date of a day of an era is a date, and is as many days after the first of March of year 0 as the
day. -/
theorem dateOfEra_spec (era : Int) {doe : Nat} (hlt : doe < 146097) :
  (dateOfEra era doe).Valid gregorianLeap ∧
    (dateOfEra era doe).number gregorianLeap 1970 = era * 146097 + doe - 719468
  := by
  obtain ⟨hy, hfirst, hlast⟩ := yearOfEra_spec hlt
  have hmarch : marchFirst (yearOfEra doe + era * 400) = era * 146097 + firstOfEra (yearOfEra doe) := by
    rw [marchFirst, firstOfEra]
    omega
  have hsucc := marchFirst_succ (yearOfEra doe + era * 400)
  have hmarch' : marchFirst (yearOfEra doe + era * 400 + 1)
      = era * 146097 + firstOfEra (yearOfEra doe + 1) := by
    rw [marchFirst, firstOfEra]
    omega
  have hbefore := marchFirst_succ (yearOfEra doe + era * 400 - 1)
  rw [sub_add_cancel] at hbefore
  have hbound := firstOfEra_room hlt
  obtain ⟨doy, hdoy⟩ : ∃ doy, doe = firstOfEra (yearOfEra doe) + doy := ⟨_, (Nat.add_sub_cancel' hfirst).symm⟩
  have hsub : doe - firstOfEra (yearOfEra doe) = doy := by omega
  rw [dateOfEra, hsub]
  rw [hsub] at hbound
  split
  case isTrue h =>
    obtain ⟨_, hspring, _⟩ := month_spec doy hbound (gregorianLeap (yearOfEra doe + era * 400))
    obtain ⟨hmon, hlen, hdays⟩ := hspring h
    constructor
    · use ⟨Nat.succ_le_succ (Nat.zero_le _), hmon⟩, Nat.succ_le_succ (Nat.zero_le _), hlen
    · have hlen' := yearLength_toNat (gregorianLeap (yearOfEra doe + era * 400))
      simp only [Date.number, daysTo_eq]
      omega
  case isFalse h =>
    obtain ⟨_, _, hwinter⟩ := month_spec doy hbound (gregorianLeap (yearOfEra doe + era * 400 + 1))
    obtain ⟨hmp, hmon, hlen, hdays⟩ := hwinter h
    constructor
    · use ⟨Nat.le_sub_of_add_le hmp, le_trans hmon (by decide)⟩, Nat.succ_le_succ (Nat.zero_le _)
      apply hlen
      rw [yearLength] at hsucc
      split at hsucc
      case isTrue hleap => right; apply hleap
      case isFalse =>
        left
        omega
    · simp only [Date.number, daysTo_eq, add_sub_cancel_right]
      omega

/-- `CivilFromDays` gives a date, that of the day. -/
theorem civilFromDays_spec {z : Int} (hlo : -2 ^ 63 ≤ z) (hhi : z + 719468 < 2 ^ 63) :
  ∃ t : Date, civilFromDays z = (t.year, (t.month : Int), (t.day : Int)) ∧ t.Valid gregorianLeap ∧
    t.number gregorianLeap 1970 = z
  := by
  obtain ⟨doe, hdoe⟩ : ∃ doe : Nat, z + 719468 - (z + 719468) / 146097 * 146097 = doe := by
    use (z + 719468 - (z + 719468) / 146097 * 146097).toNat
    omega
  have hlt : doe < 146097 := by omega
  obtain ⟨hvalid, hnumber⟩ := dateOfEra_spec ((z + 719468) / 146097) hlt
  use dateOfEra ((z + 719468) / 146097) doe, civilFromDays_eq hlo hhi hdoe hlt, hvalid
  omega

/-! ### Texts -/

/-- A decimal number behind zeros. -/
def decimal (w : Nat) (i : Int) : List Byte := padded true w (signOf i) (numeral 0x61 10 i.natAbs)

/-- The text of a date, a second of the day and nanoseconds. -/
def isoText (t : Date) (sec nsec : Int) : List Byte :=
  decimal 4 t.year ++ 0x2D :: (decimal 2 t.month ++ 0x2D :: (decimal 2 t.day ++ 0x54 ::
    (decimal 2 (sec / 3600) ++ 0x3A :: (decimal 2 (sec / 60 % 60) ++ 0x3A :: (decimal 2 (sec % 60) ++ 0x2E ::
      (decimal 9 nsec ++ [0x5A]))))))

/-- A `%0d` of a width. -/
def zeroPadded (w : Nat) : IntFormat := { left := false, zero := true, width := .digits w, conv := .signed }

/-- The parts of the format. -/
def isoPieces : List PrintPiece :=
  [.int (zeroPadded 4), .char 0x2D, .int (zeroPadded 2), .char 0x2D, .int (zeroPadded 2), .char 0x54,
    .int (zeroPadded 2), .char 0x3A, .int (zeroPadded 2), .char 0x3A, .int (zeroPadded 2), .char 0x2E,
    .int (zeroPadded 9), .char 0x5A]

/-- They make up the format. -/
theorem isoPieces_spell :
  isoPieces.flatMap PrintPiece.spell = isoFormat
  := by
  decide +kernel

/-- What a `%0d` promises for an `I64`. -/
theorem zeroPadded_spec {w : Nat} (hw : w < 2 ^ 62) {i : Int} (hlo : -2 ^ 63 < i) (hhi : i < 2 ^ 63) :
  ((zeroPadded w).conv.IsPlain (BitVec.ofInt 64 i) ∧ (zeroPadded w).Fits w (BitVec.ofInt 64 i)) ∧
    (zeroPadded w).text w (BitVec.ofInt 64 i) = decimal w i
  := by
  have hint : (BitVec.ofInt 64 i).toInt = i := by
    rw [BitVec.toInt_ofInt]
    apply toI64_of_bounds hlo.le hhi
  constructor
  · constructor
    · simp only [zeroPadded, IntConv.IsPlain, hint]
      omega
    · have hlen := length_digits_le (zeroPadded w).conv (BitVec.ofInt 64 i)
      rw [IntFormat.Fits]
      omega
  · rw [IntFormat.text, decimal, IntConv.digits]
    simp only [zeroPadded, IntConv.value, hint]
    rfl

/-- The year of a day is not far away. -/
theorem year_bounds {t : Date} (h : t.Valid gregorianLeap) {z : Int}
    (hz : t.number gregorianLeap 1970 = z) (hlo : -2 ^ 62 ≤ z) (hhi : z < 2 ^ 62) :
  -2 ^ 63 < t.year ∧ t.year < 2 ^ 63
  := by
  have hin := h.in_year 1970
  rw [hz, daysTo_eq, daysTo_eq, marchFirst, marchFirst] at hin
  omega

/-- The days and the seconds of the day of `IsoFromTimespec` are rounded down. -/
theorem floor_day (sec : Int) :
  (if sec.tmod 86400 < 0 then (sec.tdiv 86400 - 1, sec.tmod 86400 + 86400)
    else (sec.tdiv 86400, sec.tmod 86400)) = (sec / 86400, sec % 86400)
  := by
  have htmod := Int.tmod_def sec 86400
  rcases le_or_gt 0 sec with h | h
  · rw [Int.tdiv_eq_ediv_of_nonneg h, Int.tmod_eq_emod_of_nonneg h]
    apply if_neg
    omega
  · have hneg : sec.tdiv 86400 = -(-sec / 86400) := by
      conv_lhs => rw [← neg_neg sec, Int.neg_tdiv, Int.tdiv_eq_ediv_of_nonneg (by omega)]
    rw [htmod, hneg]
    split
    · ext <;> dsimp only <;> omega
    · ext <;> dsimp only <;> omega

-- the conversions that are not of integers
variable (other : Byte → PrintSpec → PrintState → Option PrintState)

/-- `IsoFromTimespec` prints the date and the time of the day. -/
theorem isoFromTimespec_spec {sec nsec : Int} (hlo : -2 ^ 63 ≤ sec) (hhi : sec < 2 ^ 63)
    (hnlo : -2 ^ 63 < nsec) (hnhi : nsec < 2 ^ 63) :
  ∃ t : Date, t.Valid gregorianLeap ∧ t.number gregorianLeap 1970 = sec / 86400 ∧
    ∀ fuel > isoPieces.length, isoFromTimespec other fuel sec nsec = some (isoText t (sec % 86400) nsec)
  := by
  obtain ⟨t, hcivil, hvalid, hnumber⟩ := civilFromDays_spec (z := sec / 86400) (by omega) (by omega)
  use t, hvalid, hnumber
  intro fuel hfuel
  obtain ⟨hylo, hyhi⟩ := year_bounds hvalid hnumber (by omega) (by omega)
  obtain ⟨⟨hm, hm'⟩, hd, hd'⟩ := hvalid
  have hd'' : monthLength (gregorianLeap t.year) t.month ≤ 31 := by
    rw [monthLength.eq_def]
    split
    · split <;> decide
    all_goals decide
  have hrlo : 0 ≤ sec % 86400 := by omega
  have hrhi : sec % 86400 < 86400 := by omega
  have hfloor := floor_day sec
  simp only [isoFromTimespec]
  rw [hfloor]
  simp only [hcivil]
  generalize sec % 86400 = rem at hrlo hrhi
  have hh : rem.tdiv 3600 = rem / 3600 := Int.tdiv_eq_ediv_of_nonneg hrlo
  have hmm : (rem.tmod 3600).tdiv 60 = rem / 60 % 60 := by
    rw [Int.tmod_eq_emod_of_nonneg hrlo, Int.tdiv_eq_ediv_of_nonneg (by omega)]
    omega
  have hss : rem.tmod 60 = rem % 60 := Int.tmod_eq_emod_of_nonneg hrlo
  rw [hh, hmm, hss]
  have hyear := zeroPadded_spec (w := 4) (by norm_num) hylo hyhi
  have hmon := zeroPadded_spec (w := 2) (i := t.month) (by norm_num) (by omega) (by omega)
  have hday := zeroPadded_spec (w := 2) (i := t.day) (by norm_num) (by omega) (by omega)
  have hhour := zeroPadded_spec (w := 2) (i := rem / 3600) (by norm_num) (by omega) (by omega)
  have hmin := zeroPadded_spec (w := 2) (i := rem / 60 % 60) (by norm_num) (by omega) (by omega)
  have hsec := zeroPadded_spec (w := 2) (i := rem % 60) (by norm_num) (by omega) (by omega)
  have hnano := zeroPadded_spec (w := 9) (by norm_num) hnlo hnhi
  let args := [t.year, (t.month : Int), (t.day : Int), rem / 3600, rem / 60 % 60, rem % 60, nsec]
  have hfit : PiecesFit (argvOf args) isoPieces 0 := by
    apply And.intro hyear.1
    apply And.intro (by decide)
    apply And.intro hmon.1
    apply And.intro (by decide)
    apply And.intro hday.1
    apply And.intro (by decide)
    apply And.intro hhour.1
    apply And.intro (by decide)
    apply And.intro hmin.1
    apply And.intro (by decide)
    apply And.intro hsec.1
    apply And.intro (by decide)
    apply And.intro hnano.1
    apply And.intro (by decide) trivial
  rw [strPrintJoin, ← isoPieces_spell, strPrintJoin_pieces _ other hfit hfuel, Option.join_some]
  rw [isoText, ← hyear.2, ← hmon.2, ← hday.2, ← hhour.2, ← hmin.2, ← hsec.2, ← hnano.2]
  rfl

/-- `CivilFromDays` gives the one date of the Gregorian calendar that is as many days after the first of
January 1970 as it is told, and the next date for the next day; `IsoFromTimespec` prints the date and the
time of the day of all seconds. -/
theorem civilFromDays_gregorian :
  (∀ z, -2 ^ 63 ≤ z → z + 719468 < 2 ^ 63 → ∃ t : Date,
    civilFromDays z = (t.year, (t.month : Int), (t.day : Int)) ∧ t.Valid gregorianLeap ∧
    t.number gregorianLeap 1970 = z ∧
    (∀ t' : Date, t'.Valid gregorianLeap → t'.number gregorianLeap 1970 = z → t' = t) ∧
    (z + 1 + 719468 < 2 ^ 63 → civilFromDays (z + 1)
      = ((t.next gregorianLeap).year, ((t.next gregorianLeap).month : Int),
        ((t.next gregorianLeap).day : Int))))
  ∧ ∀ other sec nsec, -2 ^ 63 ≤ sec → sec < 2 ^ 63 → -2 ^ 63 < nsec → nsec < 2 ^ 63 →
    ∃ t : Date, t.Valid gregorianLeap ∧ t.number gregorianLeap 1970 = sec / 86400 ∧
      ∀ fuel > isoPieces.length, isoFromTimespec other fuel sec nsec = some (isoText t (sec % 86400) nsec)
  := by
  constructor
  · intro z hlo hhi
    obtain ⟨t, hcivil, hvalid, hnumber⟩ := civilFromDays_spec hlo hhi
    use t, hcivil, hvalid, hnumber
    constructor
    · intro t' hvalid' hnumber'
      apply hvalid'.unique hvalid
      rw [hnumber', hnumber]
    · intro hhi'
      obtain ⟨u, hcivil', hvalid', hnumber'⟩ := civilFromDays_spec (z := z + 1) (by omega) hhi'
      have hnext : t.next gregorianLeap = u := by
        apply hvalid.next.unique hvalid'
        rw [hvalid.number_next, hnumber, hnumber']
      rw [hcivil', hnext]
  · intro other sec nsec hlo hhi hnlo hnhi
    apply isoFromTimespec_spec other hlo hhi hnlo hnhi

/-- The day and the second before 1970. -/
theorem civilFromDays_gregorian_before :
  (∃ t : Date, civilFromDays (-1) = (t.year, (t.month : Int), (t.day : Int)) ∧
      t.number gregorianLeap 1970 = -1 ∧ civilFromDays (-1) = (1969, 12, 31))
    ∧ ∃ t : Date, t.number gregorianLeap 1970 = -1 ∧
      isoFromTimespec (fun _ _ s => some s) 15 (-1) 0 = some (isoText t 86399 0)
  := by
  constructor
  · obtain ⟨t, hcivil, _, hnumber, _⟩ := civilFromDays_gregorian.1 (-1) (by norm_num) (by norm_num)
    use t, hcivil, hnumber
    decide
  · obtain ⟨t, _, hnumber, htext⟩ :=
      civilFromDays_gregorian.2 (fun _ _ s => s) (-1) 0 (by norm_num) (by norm_num) (by norm_num) (by norm_num)
    use t, hnumber, htext 15 (by decide)

end Polyc
