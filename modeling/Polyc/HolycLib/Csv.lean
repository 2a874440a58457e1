import Mathlib.Algebra.Group.Nat.Even
import Mathlib.Data.List.Infix
import Polyc.Lib.Bytes
import Polyc.Lib.Loop
import Polyc.Lib.Slices

/-!
# The CSV parser

`CsvParserInit` and `CsvParse` of `csv.HC`, and the calls of `CsvParse` until it gives `CSV_EOF`.  The
buffer has the bytes below `len` and no others: reading elsewhere has no result.
-/

namespace Polyc

open Bytes (Byte)

/-- What `CsvParse` returns: `CSV_EOF`, `CSV_ROW` and `CSV_FIELD`. -/
inductive CsvToken where
  | eof
  | row
  | field
  deriving DecidableEq

/-- A `CsvParser`. -/
structure CsvParser where
  csv : List Byte
  len : Nat
  off : Nat
  rowOff : Nat
  nrows : Nat
  nfields : Nat
  state : Int

/-- A `CsvSlice`. -/
structure CsvSlice where
  idx : Nat
  off : Nat
  len : Nat
  deriving DecidableEq

/-- Where a slice ends. -/
def CsvSlice.stop (s : CsvSlice) : Nat := s.off + s.len

/-- `CsvParserInit`. -/
def csvParserInit (csv : List Byte) (len : Nat) : CsvParser :=
  { csv, len, off := 0, rowOff := 0, nrows := 0, nfields := 0, state := 0 }

/-- A turn of the loop of `CsvParse` on the parser, the slice and the `state` of the loop, which is 0
between quotes. -/
def csvFieldStep :
    CsvParser × CsvSlice × BitVec 64 →
      CsvParser × CsvSlice × BitVec 64 ⊕ Option (CsvToken × CsvParser × CsvSlice)
  | (p, s, state) =>
    if p.off < p.len then
      match p.csv[p.off]? with
      | none => .inr none
      | some byte =>
        let b : BitVec 64 := byte.setWidth 64
        let p := { p with off := p.off + 1 }
        let state := state ^^^ if b = 0x22 then 1 else 0
        if -state &&& b = 0x2C then .inr (some (.field, p, s))
        else if -state &&& b = 0x0D then
          if p.off < p.len then
            match p.csv[p.off]? with
            | none => .inr none
            | some next =>
              let off := p.off + if next = 0x0A then 1 else 0
              .inr (some (.field, { p with off, state := 1 }, s))
          else .inr (some (.field, { p with state := 1 }, s))
        else if -state &&& b = 0x0A then .inr (some (.field, { p with state := 1 }, s))
        else .inl (p, { s with len := s.len + 1 }, state)
    else .inr (some (.field, { p with state := 1 }, s))

/-- `CsvParse`, with fuel for the turns of its loop. -/
def csvParse (fuel : Nat) (p : CsvParser) (s : CsvSlice) : Option (CsvToken × CsvParser × CsvSlice) :=
  if p.state = 0 then
    (Loop.run csvFieldStep fuel
      ({ p with nfields := p.nfields + 1 }, { idx := p.nfields, off := p.off, len := 0 }, 1)).join
  else if p.state = 1 then
    some (.row,
      { p with nrows := p.nrows + 1, nfields := 0, rowOff := p.off, state := if p.off < p.len then 0 else 2 },
      { idx := p.nrows, off := p.rowOff, len := p.off - p.rowOff })
  else some (.eof, p, s)

/-- What the calls of `CsvParse` return until they return `CSV_EOF`, each with its slice. -/
def csvCalls (fuel : Nat) : Nat → CsvParser → CsvSlice → Option (List (CsvToken × CsvSlice))
  | 0, _, _ => none
  | n + 1, p, s => do
    let (token, p, s) ← csvParse fuel p s
    if token = .eof then some []
    else return (token, s) :: (← csvCalls fuel n p s)

/-!
## The CSV parser partitions its buffer

A byte is unquoted when an even number of quotes comes before it.  The loop of `CsvParse` goes to the
next unquoted comma or end of a line; from that the fields of a row are those between its unquoted
commas, and the rows follow each other to the end of the buffer.
-/

open Bytes (Byte)
open Slices

/-! ### Unquoted bytes -/

/-- The number of quotes below an offset. -/
def quotesBelow (csv : List Byte) (k : Nat) : Nat := (csv.take k).count 0x22

/-- There is a byte `b` at the offset, and it is not between quotes. -/
def UnquotedAt (csv : List Byte) (b : Byte) (k : Nat) : Prop :=
  csv[k]? = some b ∧ Even (quotesBelow csv k)

/-- The fields of a line end here, and the line with them at `stop`: at a line feed, a carriage return, one
after the other, or the end of the buffer. -/
def LineEnds (csv : List Byte) (k stop : Nat) : Prop :=
  UnquotedAt csv 0x0A k ∧ stop = k + 1
    ∨ UnquotedAt csv 0x0D k ∧ stop = k + (if csv[k + 1]? = some 0x0A then 2 else 1)
    ∨ k = csv.length ∧ stop = k

variable {csv : List Byte}

theorem quotesBelow_succ {k : Nat} {byte : Byte} (h : csv[k]? = some byte) :
  quotesBelow csv (k + 1) = quotesBelow csv k + if byte = 0x22 then 1 else 0
  := by
  rw [quotesBelow, List.take_add_one, h, List.count_append, quotesBelow, Option.toList_some,
    List.count_singleton]
  rcases eq_or_ne byte 0x22 with rfl | hne
  · rfl
  · rw [if_neg hne, if_neg]
    simpa using hne

/-- The quotes below the offset after a byte that is not a quote. -/
theorem UnquotedAt.succ {k : Nat} {b : Byte} (h : UnquotedAt csv b k) (hb : b ≠ 0x22) :
  Even (quotesBelow csv (k + 1))
  := by
  rw [quotesBelow_succ h.1, if_neg hb]
  apply h.2

/-- There is one byte at an offset. -/
theorem UnquotedAt.unique {k : Nat} {b c : Byte} (h : UnquotedAt csv b k) (hbc : b ≠ c) :
  ¬UnquotedAt csv c k
  := by
  intro h'
  apply hbc (Option.some_inj.mp (h.1.symm.trans h'.1))

/-- The `state` of the loop at an offset. -/
def quoteState (csv : List Byte) (k : Nat) : BitVec 64 := if Even (quotesBelow csv k) then 1 else 0

/-- A byte in 64 bits is that byte. -/
theorem setWidth_eq_iff (b c : Byte) :
  b.setWidth 64 = c.setWidth 64 ↔ b = c
  := by
  rw [← BitVec.toNat_inj, BitVec.toNat_setWidth, BitVec.toNat_setWidth, ← BitVec.toNat_inj]
  have hb := b.isLt
  have hc := c.isLt
  omega

/-- What the loop makes of its `state` at a byte. -/
theorem quoteState_succ {k : Nat} {byte : Byte} (h : csv[k]? = some byte) :
  quoteState csv k ^^^ (if byte.setWidth 64 = 0x22 then 1 else 0) = quoteState csv (k + 1)
  := by
  have hquote : byte.setWidth 64 = 0x22 ↔ byte = 0x22 := setWidth_eq_iff byte 0x22
  rw [quoteState, quoteState, quotesBelow_succ h, if_congr hquote rfl rfl]
  rcases eq_or_ne byte 0x22 with rfl | hne
  · rw [if_pos rfl, if_pos rfl]
    rcases em (Even (quotesBelow csv k)) with he | he
    · rw [if_pos he, if_neg (fun h => Nat.even_add_one.mp h he)]
      rfl
    · rw [if_neg he, if_pos (Nat.even_add_one.mpr he)]
      rfl
  · rw [if_neg hne, if_neg hne]
    apply BitVec.xor_zero

/-- Where the loop finds a byte other than a quote. -/
theorem quoteState_and {k : Nat} {byte : Byte} (h : csv[k]? = some byte) (c : Byte) (hc : c ≠ 0)
    (hq : c ≠ 0x22) :
  -quoteState csv (k + 1) &&& byte.setWidth 64 = c.setWidth 64 ↔ UnquotedAt csv c k
  := by
  have hneg : -(1 : BitVec 64) = BitVec.allOnes 64 := rfl
  have hzero : -(0 : BitVec 64) = 0#64 := rfl
  rw [UnquotedAt, h, Option.some_inj, quoteState]
  rcases em (Even (quotesBelow csv (k + 1))) with he | he
  · rw [if_pos he, hneg, BitVec.allOnes_and, setWidth_eq_iff]
    constructor
    · rintro rfl
      rw [quotesBelow_succ h, if_neg hq] at he
      constructor
      · rfl
      · apply he
    · apply And.left
  · rw [if_neg he, hzero, BitVec.zero_and]
    constructor
    · intro h0
      cases hc ((setWidth_eq_iff 0 c).mp h0).symm
    · rintro ⟨rfl, he'⟩
      rw [quotesBelow_succ h, if_neg hq] at he
      cases he he'

/-! ### The fields -/

/-- No field goes over the byte at the offset. -/
def EndsField (csv : List Byte) (k : Nat) : Prop :=
  UnquotedAt csv 0x2C k ∨ UnquotedAt csv 0x0D k ∨ UnquotedAt csv 0x0A k

section

variable {p : CsvParser} {k : Nat} (s : CsvSlice) (hcsv : p.csv = csv) (hlen : p.len = csv.length)
  (hoff : p.off = k)

include hlen hoff in
/-- The loop is at the end of the buffer. -/
theorem csvFieldStep_end (state : BitVec 64) (h : csv.length ≤ k) :
  csvFieldStep (p, s, state) = .inr (some (.field, { p with state := 1 }, s))
  := by
  rw [csvFieldStep, if_neg (by omega)]

include hcsv hlen hoff

/-- The loop is at an unquoted comma. -/
theorem csvFieldStep_comma (hk : k < csv.length) (h : UnquotedAt csv 0x2C k) :
  csvFieldStep (p, s, quoteState csv k) = .inr (some (.field, { p with off := k + 1 }, s))
  := by
  have hcomma := (quoteState_and h.1 0x2C (by simp) (by simp)).mpr h
  subst hcsv hoff
  simp only [csvFieldStep, hlen, if_pos hk, h.1, quoteState_succ h.1]
  apply if_pos hcomma

/-- The loop is at an unquoted line feed. -/
theorem csvFieldStep_feed (hk : k < csv.length) (h : UnquotedAt csv 0x0A k) :
  csvFieldStep (p, s, quoteState csv k)
    = .inr (some (.field, { p with off := k + 1, state := 1 }, s))
  := by
  have hfeed : -quoteState csv (k + 1) &&& BitVec.setWidth 64 (0x0A : Byte) = 0x0A :=
    (quoteState_and h.1 0x0A (by simp) (by simp)).mpr h
  subst hcsv hoff
  simp only [csvFieldStep, hlen, if_pos hk, h.1, quoteState_succ h.1, hfeed]
  rfl

/-- The loop is at an unquoted carriage return, after which a line feed may come. -/
theorem csvFieldStep_return (hk : k < csv.length) (h : UnquotedAt csv 0x0D k) :
  csvFieldStep (p, s, quoteState csv k) = .inr (some (.field,
    { p with off := k + (if csv[k + 1]? = some 0x0A then 2 else 1), state := 1 }, s))
  := by
  have hreturn : -quoteState csv (k + 1) &&& BitVec.setWidth 64 (0x0D : Byte) = 0x0D :=
    (quoteState_and h.1 0x0D (by simp) (by simp)).mpr h
  subst hcsv hoff
  simp only [csvFieldStep, hlen, if_pos hk, h.1, quoteState_succ h.1, hreturn]
  rcases Nat.lt_or_ge (p.off + 1) p.csv.length with hnext | hnext
  · rw [if_pos hnext, List.getElem?_eq_getElem hnext]
    rcases eq_or_ne p.csv[p.off + 1] 0x0A with heq | hne
    · simp [heq]
    · have hne' : ¬p.csv[p.off + 1] = 10#8 := hne
      simp [hne']
  · rw [if_neg (Nat.not_lt.mpr hnext), List.getElem?_eq_none hnext]
    simp

/-- The loop goes over a byte. -/
theorem csvFieldStep_other (hk : k < csv.length) (h : ¬EndsField csv k) :
  csvFieldStep (p, s, quoteState csv k)
    = .inl ({ p with off := k + 1 }, { s with len := s.len + 1 }, quoteState csv (k + 1))
  := by
  have hbyte := List.getElem?_eq_getElem hk
  have hcomma : ¬-quoteState csv (k + 1) &&& BitVec.setWidth 64 csv[k] = 0x2C :=
    fun hc => h (.inl ((quoteState_and hbyte 0x2C (by simp) (by simp)).mp hc))
  have hreturn : ¬-quoteState csv (k + 1) &&& BitVec.setWidth 64 csv[k] = 0x0D :=
    fun hc => h (.inr (.inl ((quoteState_and hbyte 0x0D (by simp) (by simp)).mp hc)))
  have hfeed : ¬-quoteState csv (k + 1) &&& BitVec.setWidth 64 csv[k] = 0x0A :=
    fun hc => h (.inr (.inr ((quoteState_and hbyte 0x0A (by simp) (by simp)).mp hc)))
  subst hcsv hoff
  simp only [csvFieldStep, hlen, if_pos hk, hbyte, quoteState_succ hbyte, if_neg hcomma,
    if_neg hreturn, if_neg hfeed]

end

/-- What the loop of `CsvParse` has come to from the parser `p₀`. -/
structure FieldInv (csv : List Byte) (p₀ : CsvParser) (idx : Nat)
    (now : CsvParser × CsvSlice × BitVec 64) : Prop where
  parser : now.1 = { p₀ with off := now.2.1.stop }
  slice : now.2.1.idx = idx ∧ now.2.1.off = p₀.off
  state : now.2.2 = quoteState csv now.2.1.stop
  le_len : now.2.1.stop ≤ csv.length
  clean : ∀ k, p₀.off ≤ k → k < now.2.1.stop → ¬EndsField csv k

/-- What a call of `CsvParse` gives for a field: its slice has no end of a field in it and one after it,
and the parser goes on behind that. -/
structure FieldPost (csv : List Byte) (p₀ : CsvParser) (idx : Nat) (p : CsvParser) (s : CsvSlice) :
    Prop where
  slice : s.idx = idx ∧ s.off = p₀.off
  le_len : s.stop ≤ csv.length
  clean : ∀ k, s.off ≤ k → k < s.stop → ¬EndsField csv k
  ends : UnquotedAt csv 0x2C s.stop ∧ p = { p₀ with off := s.stop + 1 }
    ∨ ∃ stop, LineEnds csv s.stop stop ∧ p = { p₀ with off := stop, state := 1 }

/-- A turn of the loop. -/
theorem csvFieldStep_keeps (p₀ : CsvParser) (hcsv : p₀.csv = csv) (hlen : p₀.len = csv.length) (idx : Nat) :
  Loop.Keeps csvFieldStep (FieldInv csv p₀ idx)
    (fun r => ∃ p s, r = some (.field, p, s) ∧ FieldPost csv p₀ idx p s)
    (fun now => csv.length - now.2.1.stop)
  := by
  rintro ⟨p, s, state⟩ ⟨hp, hslice, hstate, hle, hclean⟩
  simp only at hp hslice hstate hle hclean
  subst hstate
  have hoff : p.off = s.stop := by
    rw [hp]
  have hcsv' : p.csv = csv := by
    rw [hp]
    apply hcsv
  have hlen' : p.len = csv.length := by
    rw [hp]
    apply hlen
  have hpost : ∀ p', (UnquotedAt csv 0x2C s.stop ∧ p' = { p₀ with off := s.stop + 1 }
      ∨ ∃ stop, LineEnds csv s.stop stop ∧ p' = { p₀ with off := stop, state := 1 }) →
      ∃ p'' s', some (CsvToken.field, p', s) = some (.field, p'', s')
        ∧ FieldPost csv p₀ idx p'' s' := by
    intro p' hends
    use p', s, rfl
    constructor
    case slice => apply hslice
    case le_len => apply hle
    case clean =>
      rw [hslice.2]
      apply hclean
    case ends => apply hends
  rcases Nat.lt_or_eq_of_le hle with hlt | heq
  · rcases em (EndsField csv s.stop) with h | h
    · rcases h with h | h | h
      · rw [csvFieldStep_comma s hcsv' hlen' hoff hlt h]
        apply hpost
        apply Or.inl
        use h
        rw [hp]
      · rw [csvFieldStep_return s hcsv' hlen' hoff hlt h]
        apply hpost
        apply Or.inr
        rw [hp]
        use s.stop + (if csv[s.stop + 1]? = some 0x0A then 2 else 1), .inr (.inl ⟨h, rfl⟩)
      · rw [csvFieldStep_feed s hcsv' hlen' hoff hlt h]
        apply hpost
        apply Or.inr
        use s.stop + 1, .inl ⟨h, rfl⟩
        rw [hp]
    · rw [csvFieldStep_other s hcsv' hlen' hoff hlt h]
      constructor
      case left =>
        constructor
        case parser =>
          rw [hp]
          rfl
        case slice => apply hslice
        case state => rfl
        case le_len => apply hlt
        case clean =>
          intro k hk hks
          rcases Nat.lt_or_eq_of_le (Nat.lt_succ_iff.mp hks) with hks | rfl
          · apply hclean k hk hks
          · apply h
      case right =>
        simp only [CsvSlice.stop] at hlt ⊢
        omega
  · rw [csvFieldStep_end s hlen' hoff _ (Nat.le_of_eq heq.symm)]
    apply hpost
    apply Or.inr
    use s.stop, .inr (.inr ⟨heq, rfl⟩)
    rw [hp]

/-- A call of `CsvParse` within a row. -/
theorem csvParse_field {p : CsvParser} (s : CsvSlice) (hcsv : p.csv = csv) (hlen : p.len = csv.length)
    (hstate : p.state = 0) (hoff : p.off ≤ csv.length) (heven : Even (quotesBelow csv p.off)) :
  ∃ p' s', (∀ fuel > csv.length, csvParse fuel p s = some (.field, p', s'))
    ∧ FieldPost csv { p with nfields := p.nfields + 1 } p.nfields p' s'
  := by
  have hkeeps := csvFieldStep_keeps { p with nfields := p.nfields + 1 } hcsv hlen p.nfields
  have hinv : FieldInv csv { p with nfields := p.nfields + 1 } p.nfields
      ({ p with nfields := p.nfields + 1 }, { idx := p.nfields, off := p.off, len := 0 }, 1) := by
    constructor
    case parser => rfl
    case slice => use rfl
    case state => exact (if_pos heven).symm
    case le_len => apply hoff
    case clean =>
      intro k hk hks
      cases Nat.lt_irrefl _ (Nat.lt_of_le_of_lt hk hks)
  obtain ⟨r, hrun, p', s', rfl, hpost⟩ :=
    hkeeps.run hinv (Nat.lt_succ_of_le (Nat.sub_le csv.length _))
  use p', s'
  constructor
  · intro fuel hfuel
    rw [csvParse, if_pos hstate, Loop.run_mono hrun hfuel, Option.join_some]
  · apply hpost

/-! ### The rows -/

/-- The fields of a row, and the slice of the row. -/
structure CsvRow where
  fields : List CsvSlice
  row : CsvSlice

/-- What the calls of `CsvParse` return for a row. -/
def CsvRow.calls (r : CsvRow) : List (CsvToken × CsvSlice) :=
  r.fields.map (fun f => (.field, f)) ++ [(.row, r.row)]

/-- The fields of a row are numbered in order, do not overlap and lie in the row; they begin where it does,
there is one unquoted comma between each and the next and no other one in the row; no field has an
unquoted end of a line in it, and behind the last one there is nothing but the end of the line. -/
structure CsvRow.Splits (csv : List Byte) (r : CsvRow) : Prop where
  nonempty : r.fields ≠ []
  numbered : r.fields.map CsvSlice.idx = List.range r.fields.length
  disjoint : r.fields.Pairwise fun f g => f.stop < g.off
  inside : ∀ f ∈ r.fields, r.row.off ≤ f.off ∧ f.stop ≤ r.row.stop
  first : ∀ f, r.fields.head? = some f → f.off = r.row.off
  next : ∀ f g, [f, g] <:+: r.fields → g.off = f.stop + 1
  separated : ∀ k, r.row.off ≤ k → k < r.row.stop →
    (UnquotedAt csv 0x2C k ↔ ∃ f g, [f, g] <:+: r.fields ∧ f.stop = k)
  clean : ∀ f ∈ r.fields, ∀ k, f.off ≤ k → k < f.stop → ¬EndsField csv k
  last : ∀ f, r.fields.getLast? = some f → LineEnds csv f.stop r.row.stop

/-- The commas of the fields of a row. -/
abbrev FieldsOf (csv : List Byte) (off : Nat) (fs : List CsvSlice) (stop : Nat) : Prop :=
  Separated CsvSlice.off CsvSlice.stop (UnquotedAt csv 0x2C) off fs stop

/-- Behind the end of a line the parser is not between quotes, and it is further if it is not at the end
of the buffer; there are no commas up to there. -/
theorem LineEnds.next {k stop : Nat} (h : LineEnds csv k stop) (hk : k ≤ csv.length) :
  k ≤ stop ∧ stop ≤ csv.length ∧ (stop < csv.length → k < stop ∧ Even (quotesBelow csv stop))
    ∧ ∀ j, k ≤ j → j < stop → ¬UnquotedAt csv 0x2C j
  := by
  rcases h with ⟨h, rfl⟩ | ⟨h, hstop⟩ | ⟨rfl, rfl⟩
  · have hlt := (List.getElem?_eq_some_iff.mp h.1).1
    use Nat.le_succ k, hlt
    constructor
    · intro _
      constructor
      · apply Nat.lt_succ_self
      · apply h.succ (by simp)
    · intro j hkj hj
      obtain rfl : j = k := by omega
      apply h.unique (by simp)
  · have hlt := (List.getElem?_eq_some_iff.mp h.1).1
    rcases em (csv[k + 1]? = some 0x0A) with hnext | hnext
    · rw [if_pos hnext] at hstop
      subst hstop
      have hfeed : UnquotedAt csv 0x0A (k + 1) := by
        constructor
        · apply hnext
        · apply h.succ (by simp)
      have hlt' := (List.getElem?_eq_some_iff.mp hnext).1
      use by omega, hlt'
      constructor
      · intro _
        constructor
        · omega
        · apply hfeed.succ (by simp)
      · intro j hkj hj
        obtain rfl | rfl : j = k ∨ j = k + 1 := by omega
        · apply h.unique (by simp)
        · apply hfeed.unique (by simp)
    · rw [if_neg hnext] at hstop
      subst hstop
      use Nat.le_succ k, hlt
      constructor
      · intro _
        constructor
        · apply Nat.lt_succ_self
        · apply h.succ (by simp)
      · intro j hkj hj
        obtain rfl : j = k := by omega
        apply h.unique (by simp)
  · use Nat.le_refl _, Nat.le_refl _
    constructor
    · intro h
      cases Nat.lt_irrefl _ h
    · intro j hkj hj
      omega

/-- The fields of a row from a call on: their slices, and where the last of them and the line end. -/
structure FieldsFrom (csv : List Byte) (off nfields : Nat) (fs : List CsvSlice) (stop stop' : Nat) :
    Prop where
  separated : FieldsOf csv off fs stop
  le_len : stop ≤ csv.length
  ends : LineEnds csv stop stop'
  numbered : fs.map CsvSlice.idx = List.range' nfields fs.length
  clean : ∀ f ∈ fs, ∀ k, f.off ≤ k → k < f.stop → ¬EndsField csv k

/-- A field within a row, as one of the fields of the row. -/
theorem FieldPost.le {p₀ p : CsvParser} {idx : Nat} {s : CsvSlice} (h : FieldPost csv p₀ idx p s) :
  s.off ≤ s.stop ∧ ∀ k, s.off ≤ k → k < s.stop → ¬UnquotedAt csv 0x2C k
  := by
  constructor
  · apply Nat.le_add_right
  · intro k hk hks hcomma
    apply h.clean k hk hks (.inl hcomma)

/-- The first calls of `CsvParse` return the fields of a row. -/
theorem csvCalls_fields (m : Nat) :
  ∀ (p : CsvParser) (s : CsvSlice), p.csv = csv → p.len = csv.length → p.state = 0 →
    p.off ≤ csv.length → Even (quotesBelow csv p.off) → csv.length - p.off < m →
    ∃ fs stop stop' s', FieldsFrom csv p.off p.nfields fs stop stop'
      ∧ ∀ fuel > csv.length, ∀ n, csvCalls fuel (n + fs.length) p s
        = (csvCalls fuel n { p with off := stop', nfields := p.nfields + fs.length, state := 1 } s').map
            (fs.map (fun f => (CsvToken.field, f)) ++ ·)
  := by
  induction m with
  | zero =>
    intro p s hcsv hlen hstate hoff heven hm
    cases hm
  | succ m ih =>
    intro p s hcsv hlen hstate hoff heven hm
    obtain ⟨p', f, hcall, hpost⟩ := csvParse_field s hcsv hlen hstate hoff heven
    obtain ⟨hidx, hbegin⟩ := hpost.slice
    obtain ⟨hle, hclean⟩ := hpost.le
    simp only at hbegin
    rcases hpost.ends with ⟨hcomma, rfl⟩ | ⟨stop', hends, rfl⟩
    · -- a comma: the other fields of the row are those from behind it
      have hlt := (List.getElem?_eq_some_iff.mp hcomma.1).1
      obtain ⟨fs, stop, stop', s', hfs, hcalls⟩ := ih
        { p with nfields := p.nfields + 1, off := f.stop + 1 } f hcsv hlen hstate hlt
        (hcomma.succ (by simp)) (by simp only; omega)
      use f :: fs, stop, stop', s'
      constructor
      case left =>
        constructor
        case separated =>
          rw [← hbegin]
          apply Separated.cons hle hclean hcomma hfs.separated
        case le_len => apply hfs.le_len
        case ends => apply hfs.ends
        case numbered =>
          rw [List.map_cons, hidx, hfs.numbered]
          rfl
        case clean =>
          intro g hg
          rcases List.mem_cons.mp hg with rfl | hg
          · apply hpost.clean
          · apply hfs.clean g hg
      case right =>
        intro fuel hfuel n
        have hadd : p.nfields + 1 + fs.length = p.nfields + (fs.length + 1) := by omega
        rw [List.length_cons, ← Nat.add_assoc, csvCalls, hcall fuel hfuel, Option.bind_eq_bind,
          Option.bind_some]
        simp only [reduceCtorEq, if_false, hcalls fuel hfuel n, hadd]
        cases csvCalls fuel n _ s' <;> rfl
    · -- the end of the line
      use [f], f.stop, stop', f
      constructor
      case left =>
        constructor
        case separated =>
          rw [← hbegin]
          apply Separated.last hle hclean
        case le_len => apply hpost.le_len
        case ends => apply hends
        case numbered =>
          rw [List.map_singleton, hidx]
          rfl
        case clean =>
          intro g hg
          rw [List.mem_singleton.mp hg]
          apply hpost.clean
      case right =>
        intro fuel hfuel n
        rw [List.length_singleton, csvCalls, hcall fuel hfuel, Option.bind_eq_bind, Option.bind_some]
        simp only [reduceCtorEq, if_false]
        cases csvCalls fuel n _ f <;> rfl

/-- The fields of a row with the slice of the row. -/
theorem FieldsFrom.splits (idx : Nat) {off : Nat} {fs : List CsvSlice} {stop stop' : Nat}
    (h : FieldsFrom csv off 0 fs stop stop') :
  CsvRow.Splits csv ⟨fs, idx, off, stop' - off⟩
  := by
  have hsep := h.separated
  obtain ⟨hstop, -, -, hcommas⟩ := h.ends.next h.le_len
  have hoff := hsep.le
  have hrow : CsvSlice.stop ⟨idx, off, stop' - off⟩ = stop' := by
    simp only [CsvSlice.stop]
    omega
  obtain ⟨f, fs', hcons, hfirst⟩ := hsep.exists_cons
  obtain ⟨l, hlast, hlstop⟩ := hsep.getLast
  constructor
  case nonempty =>
    rw [hcons]
    apply List.cons_ne_nil
  case numbered => rw [h.numbered, List.range_eq_range']
  case disjoint => apply hsep.pairwise
  case inside =>
    intro g hg
    obtain ⟨hlow, -, hhigh⟩ := hsep.inside g hg
    use hlow
    rw [hrow]
    apply Nat.le_trans hhigh hstop
  case first =>
    intro g hg
    simp only [hcons, List.head?_cons, Option.some_inj] at hg
    rw [← hg]
    apply hfirst
  case next =>
    intro f g hfg
    apply hsep.off_eq hfg
  case separated =>
    intro k hk hks
    rw [hrow] at hks
    rcases Nat.lt_or_ge k stop with hlt | hge
    · rw [hsep.sep_iff hk hlt]
      constructor
      · rintro ⟨f, g, hfg, hf, -⟩
        use f, g
      · rintro ⟨f, g, hfg, hf⟩
        use f, g, hfg, hf
        rw [hsep.off_eq hfg, hf]
    · constructor
      · intro hcomma
        cases hcommas k hge hks hcomma
      · rintro ⟨f, g, hfg, rfl⟩
        have hg := hsep.inside g (hfg.subset (by simp))
        rw [hsep.off_eq hfg] at hg
        omega
  case clean => apply h.clean
  case last =>
    intro g hg
    simp only [hlast, Option.some_inj] at hg
    rw [hrow, ← hg, hlstop]
    apply h.ends

/-- The call of `CsvParse` behind a row. -/
theorem csvCalls_row {p : CsvParser} (hstate : p.state = 1) (fuel n : Nat) (s : CsvSlice) :
  csvCalls fuel (n + 1) p s
    = (csvCalls fuel n
        { p with
          nrows := p.nrows + 1
          nfields := 0
          rowOff := p.off
          state := if p.off < p.len then 0 else 2 }
        ⟨p.nrows, p.rowOff, p.off - p.rowOff⟩).map
      ((.row, ⟨p.nrows, p.rowOff, p.off - p.rowOff⟩) :: ·)
  := by
  rw [csvCalls, csvParse, hstate, if_neg (by simp), if_pos rfl, Option.bind_eq_bind, Option.bind_some]
  simp only [reduceCtorEq, if_false]
  cases csvCalls fuel n _ ⟨p.nrows, p.rowOff, p.off - p.rowOff⟩ <;> rfl

/-- The last call of `CsvParse`. -/
theorem csvCalls_eof {p : CsvParser} (hstate : p.state = 2) (fuel : Nat) (s : CsvSlice) :
  csvCalls fuel 1 p s = some []
  := by
  rw [csvCalls, csvParse, hstate, if_neg (by simp), if_neg (by simp)]
  rfl

/-- The rows from a call on. -/
structure RowsFrom (csv : List Byte) (off nrows : Nat) (rows : List CsvRow) : Prop where
  consecutive : Consecutive (fun r => r.row.off) (fun r => r.row.stop) off rows csv.length
  numbered : rows.map (fun r => r.row.idx) = List.range' nrows rows.length
  splits : ∀ r ∈ rows, r.Splits csv

/-- From the beginning of a row on, the calls return rows up to the end of the buffer. -/
theorem csvCalls_rows (m : Nat) :
  ∀ (p : CsvParser) (s : CsvSlice), p.csv = csv → p.len = csv.length → p.state = 0 →
    p.off ≤ csv.length → p.rowOff = p.off → p.nfields = 0 → Even (quotesBelow csv p.off) →
    csv.length - p.off < m →
    ∃ rows n, RowsFrom csv p.off p.nrows rows
      ∧ ∀ fuel > csv.length, csvCalls fuel n p s = some (rows.flatMap CsvRow.calls)
  := by
  induction m with
  | zero =>
    intro p s hcsv hlen hstate hoff hrow hfields heven hm
    cases hm
  | succ m ih =>
    intro p s hcsv hlen hstate hoff hrow hfields heven hm
    obtain ⟨fs, stop, stop', s', hfs, hcalls⟩ :=
      csvCalls_fields (csv.length - p.off + 1) p s hcsv hlen hstate hoff heven (Nat.lt_succ_self _)
    obtain ⟨hle, hlen', hnext, -⟩ := hfs.ends.next hfs.le_len
    have hbegin := hfs.separated.le
    rw [hfields] at hfs
    have hslice : CsvSlice.stop ⟨p.nrows, p.off, stop' - p.off⟩ = stop' := by
      simp only [CsvSlice.stop]
      omega
    have hfirst := hfs.splits p.nrows
    rcases Nat.lt_or_eq_of_le hlen' with hlt | heq
    · obtain ⟨hprogress, heven'⟩ := hnext hlt
      obtain ⟨rows, n, hrows, hrest⟩ := ih
        { p with off := stop', nrows := p.nrows + 1, nfields := 0, rowOff := stop', state := 0 }
        ⟨p.nrows, p.off, stop' - p.off⟩ hcsv hlen rfl hlen' rfl rfl heven' (by simp only; omega)
      use ⟨fs, p.nrows, p.off, stop' - p.off⟩ :: rows, n + 1 + fs.length
      constructor
      case left =>
        constructor
        case consecutive =>
          apply Consecutive.cons (s := (⟨fs, p.nrows, p.off, stop' - p.off⟩ : CsvRow))
          · apply Nat.le_add_right
          · simp only [hslice]
            apply hrows.consecutive
        case numbered =>
          rw [List.map_cons, hrows.numbered]
          rfl
        case splits =>
          intro r hr
          rcases List.mem_cons.mp hr with rfl | hr
          · apply hfirst
          · apply hrows.splits r hr
      case right =>
        intro fuel hfuel
        have hlt' : stop' < p.len := hlen ▸ hlt
        rw [hcalls fuel hfuel, csvCalls_row rfl]
        simp only [hrow, if_pos hlt', hrest fuel hfuel, Option.map_some, List.flatMap_cons,
          CsvRow.calls, List.append_assoc, List.singleton_append]
    · use [⟨fs, p.nrows, p.off, stop' - p.off⟩], 1 + 1 + fs.length
      constructor
      case left =>
        constructor
        case consecutive =>
          apply Consecutive.cons (s := (⟨fs, p.nrows, p.off, stop' - p.off⟩ : CsvRow))
          · apply Nat.le_add_right
          · simp only [hslice]
            rw [heq]
            apply Consecutive.nil
        case numbered => rfl
        case splits =>
          intro r hr
          rw [List.mem_singleton.mp hr]
          apply hfirst
      case right =>
        intro fuel hfuel
        rw [hcalls fuel hfuel, csvCalls_row rfl, csvCalls_eof]
        · simp only [hrow, Option.map_some, List.flatMap_cons, List.flatMap_nil, CsvRow.calls,
            List.append_nil]
        · simp only [hlen, heq, Nat.lt_irrefl, if_false]

/-- The calls of `CsvParse` on a buffer come to `CSV_EOF` and never read beyond the buffer; they return the
fields of each row and then the row, and the rows follow each other from the beginning of the buffer to its
end. -/
theorem csvParse_partitions (csv : List Byte) (s : CsvSlice) :
  ∃ rows n, (∀ fuel > csv.length,
      csvCalls fuel n (csvParserInit csv csv.length) s = some (rows.flatMap CsvRow.calls))
    ∧ Consecutive (fun r => r.row.off) (fun r => r.row.stop) 0 rows csv.length
    ∧ rows.map (fun r => r.row.idx) = List.range rows.length
    ∧ ∀ r ∈ rows, r.Splits csv
  := by
  obtain ⟨rows, n, hrows, hcalls⟩ := csvCalls_rows (csv.length + 1) (csvParserInit csv csv.length) s
    rfl rfl rfl (Nat.zero_le _) rfl rfl Even.zero (Nat.lt_succ_self _)
  use rows, n, hcalls, hrows.consecutive
  constructor
  · rw [hrows.numbered, List.range_eq_range']
    rfl
  · apply hrows.splits

-- a quoted comma, a line that ends with CR and LF, and a comma at the end
example : csvCalls 9 9
    (csvParserInit [0x22, 0x2C, 0x22, 0x2C, 0x61, 0x0D, 0x0A, 0x2C] 8) ⟨0, 0, 0⟩
  = some [(.field, ⟨0, 0, 3⟩), (.field, ⟨1, 4, 1⟩), (.row, ⟨0, 0, 7⟩),
      (.field, ⟨0, 7, 0⟩), (.field, ⟨1, 8, 0⟩), (.row, ⟨1, 7, 1⟩)]
  := by decide +kernel

end Polyc
