import Polyc.HolycLib.OutStr
import Polyc.Lib.Loop
import Polyc.Lib.Numeral

/-!
# Printing integers

`I64ToStr`, `U64ToStr` and the loop of `StrPrintJoin` of `strings.HC`, which puts its characters into a
buffer of the caller's that is trusted to be big enough.  An operator on two integers gives an `I64`
whatever they are, so that `U64ToStr` divides as signed numbers are divided and `uintarg >>= 4`, which is
parsed as `uintarg = uintarg >> 4`, shifts as signed numbers are shifted.
-/

namespace Polyc

open Bytes (Byte)

/-! ### Digits -/

/-- What is kept of a value in a `U8`. -/
def toU8 (x : Int) : Byte := BitVec.ofInt 8 x

/-- The loop of `I64ToStr` and of `U64ToStr`: the digits of a number, the lowest one first, and `_len` at
most. -/
def strDigits : Nat → Int → List Byte
  | 0, _ => []
  | len + 1, num =>
    if num = 0 then []
    else
      let rem := num.tmod 10
      let ch := if rem > 9 then toU8 (rem - 10 + 0x61) else toU8 (rem + 0x30)
      ch :: strDigits len (num.tdiv 10)

/-- `I64ToStr`: what is in its buffer. -/
def i64ToStr (num : BitVec 64) (len : Nat) : List Byte :=
  if num = 0 then [0x30]
  else strDigits len (if num.toInt < 0 then toI64 (-num.toInt) else num.toInt)

/-- `U64ToStr`: what is in its buffer. -/
def u64ToStr (num : BitVec 64) (len : Nat) : List Byte :=
  if num = 0 then [0x30] else strDigits len num.toInt

/-- The size of `buf` in `StrPrintJoin`. -/
def strPrintBufSize : Nat := 256

/-- The loop for the hexadecimal digits, the lowest one first, with the room that is left in the buffer.
A number below 0 is shifted to -1 and the loop writes beyond the buffer: `none`. -/
def hexDigits (u8arg : Byte) : Nat → BitVec 64 → Option (List Byte)
  | 0, _ => none
  | room + 1, uintarg =>
    let ch := (uintarg &&& 15).setWidth 8 + 0x30
    let ch := if ch > 0x39 then ch + (u8arg - 0x3A) else ch
    let uintarg := uintarg.sshiftRight 4
    if uintarg = 0 then some [ch] else (hexDigits u8arg room uintarg).map (ch :: ·)

/-! ### Formats -/

/-- `PRTF_PAD_ZERO`. -/
def prtfPadZero : BitVec 64 := 0x001

/-- `PRTF_DECIMAL`. -/
def prtfDecimal : BitVec 64 := 0x100

/-- `PRTF_NEG`. -/
def prtfNeg : BitVec 64 := 0x200

/-- A decimal digit. -/
def isDecDigit (ch : Byte) : Bool := 0x30 ≤ ch ∧ ch ≤ 0x39

/-- The loop that reads a number of a format. -/
def readLen : List Byte → Int → List Byte × Int
  | [], len => ([], len)
  | ch :: fmt, len =>
    if isDecDigit ch then readLen fmt (toI64 (len * 10 + ch.toNat - 0x30)) else (ch :: fmt, len)

/-- What is between a `%` and the letter behind it.  The precision is for the conversions that are not of
integers. -/
structure PrintSpec where
  flags : BitVec 64
  tlen : Int
  decLen : Int
  deriving DecidableEq

section

variable (argv : Nat → BitVec 64)

/-- The flags of a format: the rest of it and the flags. -/
def readFlags (fmt : List Byte) : List Byte × BitVec 64 :=
  let flags : BitVec 64 := 0
  let (fmt, flags) := if fmt.head? = some 0x2D then (fmt.tail, flags ||| prtfLeftJustify) else (fmt, flags)
  if fmt.head? = some 0x30 then (fmt.tail, flags ||| prtfPadZero) else (fmt, flags)

/-- The width of a format: the rest of it, the next argument and the width. -/
def readWidth (fmt : List Byte) (sp : Nat) : List Byte × Nat × Int :=
  let (fmt, tlen) := readLen fmt 0
  if fmt.head? = some 0x2A then (fmt.tail, sp + 1, (argv sp).toInt) else (fmt, sp, tlen)

/-- The precision of a format: the rest of it, the next argument, the flags and the precision. -/
def readPrecision (fmt : List Byte) (sp : Nat) (flags : BitVec 64) :
    List Byte × Nat × BitVec 64 × Int :=
  if fmt.head? = some 0x2E then
    let (fmt, decLen) := readLen fmt.tail (-1)
    if fmt.head? = some 0x2A then
      (fmt.tail, sp + 1, flags ||| prtfTruncate ||| prtfDecimal, (argv sp).toInt)
    else (fmt, sp, flags ||| prtfDecimal, decLen)
  else (fmt, sp, flags, -1)

/-- What is between a `%` and the letter behind it: the rest of the format, the next argument and the
specification. -/
def readSpec (fmt : List Byte) (sp : Nat) : List Byte × Nat × PrintSpec :=
  let (fmt, flags) := readFlags fmt
  let (fmt, sp, tlen) := readWidth argv fmt sp
  let (fmt, sp, flags, decLen) := readPrecision argv fmt sp flags
  (fmt, sp, { flags, tlen, decLen })

/-! ### Conversions -/

/-- What is put for `%d` and `%u` with the digits in the buffer: `idx` is 1 for a number below 0, and then
counts. -/
def putDecimal (spec : PrintSpec) (idx : Nat) (buf : List Byte) : List Byte :=
  let flags := if idx ≠ 0 then spec.flags ||| prtfNeg else spec.flags
  let len : Int :=
    if flags &&& prtfTruncate ≠ 0 ∧ (buf.length : Int) + idx > spec.tlen then toI64 (spec.tlen - idx)
    else buf.length
  let sign : List Byte := if flags &&& prtfNeg ≠ 0 then [0x2D] else []
  let fill := (toI64 (spec.tlen - len) - idx).toNat
  (if flags &&& prtfPadZero ≠ 0 then sign ++ List.replicate fill 0x30
    else List.replicate fill chSpace ++ sign) ++ (buf.take len.toNat).reverse

/-- What is put for `%x` and `%X` with the digits in the buffer. -/
def putHex (spec : PrintSpec) (buf : List Byte) : List Byte :=
  let len : Int :=
    if spec.flags &&& prtfTruncate ≠ 0 ∧ (buf.length : Int) > spec.tlen then spec.tlen else buf.length
  let fill := (toI64 (spec.tlen - len)).toNat
  List.replicate fill (if spec.flags &&& prtfPadZero ≠ 0 then 0x30 else chSpace)
    ++ (buf.take len.toNat).reverse

/-- The loop of `StrPrintJoin`: what is left of the format, the next argument, and the characters that
were put. -/
structure PrintState where
  fmt : List Byte
  sp : Nat
  out : List Byte
  deriving DecidableEq

-- the conversions that are not of integers, from the state behind their letters
variable (other : Byte → PrintSpec → PrintState → Option PrintState)

/-- The case `place_hex`. -/
def placeHex (u8arg : Byte) (spec : PrintSpec) (s : PrintState) : Option PrintState := do
  let buf ← hexDigits u8arg strPrintBufSize (argv s.sp)
  return { s with sp := s.sp + 1, out := s.out ++ putHex spec buf }

/-- The case of a letter behind a specification. -/
def putConversion (ch : Byte) (spec : PrintSpec) (s : PrintState) : Option PrintState :=
  let uintarg := argv s.sp
  if ch = 0x25 then some { s with out := s.out ++ [0x25] }
  else if ch = 0x75 then
    some { s with sp := s.sp + 1, out := s.out ++ putDecimal spec 0 (u64ToStr uintarg 5000) }
  else if ch = 0x64 then
    let idx := if uintarg.toInt < 0 then 1 else 0
    some { s with sp := s.sp + 1, out := s.out ++ putDecimal spec idx (i64ToStr uintarg 5000) }
  else if ch = 0x78 then placeHex argv 0x61 spec s
  else if ch = 0x58 then placeHex argv 0x41 spec s
  else other ch spec s

/-- A turn of the loop of `StrPrintJoin`.  A format that ends behind a `%` is read beyond its end. -/
def strPrintStep (s : PrintState) : PrintState ⊕ Option (List Byte) :=
  match s.fmt with
  | [] => .inr (some s.out)
  | ch :: fmt =>
    if ch = 0x25 then
      match readSpec argv fmt s.sp with
      | ([], _, _) => .inr none
      | (ch :: fmt, sp, spec) =>
        (putConversion argv other ch spec { s with fmt, sp }).elim (.inr none) .inl
    else .inl { s with fmt, out := s.out ++ [ch] }

/-- `StrPrintJoin` with fuel for the turns of its loop: the characters that are put, before the 0. -/
def strPrintJoin (fuel : Nat) (fmt : List Byte) : Option (List Byte) :=
  (Loop.run (strPrintStep argv other) fuel { fmt, sp := 0, out := [] }).join

end

/-!
## Printed integers are numerals

A conversion of `StrPrintJoin` puts the numeral of its argument, filled up to its width, unless the
argument is one whose digits are computed as those of a number below 0.
-/

open Bytes (Byte)
open Numeral

/-! ### Digits -/

/-- The digits of a number that is not below 0. -/
theorem strDigits_natCast (letter : Byte) {len n : Nat} (h : n < 10 ^ len) :
  strDigits len n = (Nat.digits 10 n).map (glyph letter)
  := by
  induction len generalizing n with
  | zero =>
    obtain rfl : n = 0 := by omega
    rfl
  | succ len ih =>
    rw [strDigits]
    rcases Nat.eq_zero_or_pos n with rfl | hn
    · rfl
    · have hrem : (n : Int).tmod 10 = (n % 10 : Nat) := rfl
      have hdiv : (n : Int).tdiv 10 = (n / 10 : Nat) := rfl
      have hlt : n % 10 < 10 := Nat.mod_lt _ (by norm_num)
      rw [if_neg (by omega), Nat.digits_def' (by norm_num) hn, List.map_cons, hdiv, ih (by omega), hrem]
      dsimp only
      rw [if_neg (by omega), glyph, if_pos hlt, toU8, BitVec.ofInt_add, BitVec.add_comm]
      rfl

/-- The digits of a number that is not above 0 are not above those of 0. -/
theorem strDigits_neg (len n : Nat) :
  ∀ ch ∈ strDigits len (-n), ch ≤ 0x30
  := by
  induction len generalizing n with
  | zero =>
    intro ch hch
    cases hch
  | succ len ih =>
    have hrem : (-(n : Int)).tmod 10 = -(n % 10 : Nat) := by
      rw [Int.neg_tmod]
      rfl
    have hdiv : (-(n : Int)).tdiv 10 = -(n / 10 : Nat) := by
      rw [Int.neg_tdiv]
      rfl
    have hlt : n % 10 < 10 := Nat.mod_lt _ (by norm_num)
    rw [strDigits, hrem, hdiv]
    split
    · intro ch hch
      cases hch
    · intro ch hch
      rcases List.mem_cons.mp hch with rfl | hch
      · rw [if_neg (by omega)]
        generalize n % 10 = k at hlt
        interval_cases k <;> decide
      · apply ih _ ch hch

/-- The lowest hexadecimal digit of a number. -/
theorem hexDigit_eq (letter : Byte) (u : BitVec 64) :
  (let ch := (u &&& 15).setWidth 8 + 0x30
    if ch > 0x39 then ch + (letter - 0x3A) else ch) = glyph letter (u.toNat % 16)
  := by
  have hlt : u.toNat % 16 < 16 := Nat.mod_lt _ (by norm_num)
  have hch : (u &&& 15).setWidth 8 = BitVec.ofNat 8 (u.toNat % 16) := by
    apply BitVec.eq_of_toNat_eq
    rw [BitVec.toNat_setWidth, BitVec.toNat_and, BitVec.toNat_ofNat]
    congr 1
    apply Nat.and_two_pow_sub_one_eq_mod _ 4
  rw [hch, glyph]
  generalize u.toNat % 16 = k at hlt
  dsimp only
  rcases Nat.lt_or_ge k 10 with hk | hk
  · rw [if_pos hk, if_neg (by bv_omega), BitVec.add_comm]
  · have hgt : BitVec.ofNat 8 k + 0x30 > 0x39 := by
      clear hch
      interval_cases k <;> decide
    rw [if_pos hgt, if_neg (Nat.not_lt.mpr hk)]
    clear hch
    bv_omega

/-- The hexadecimal digits of a number that is not below 0. -/
theorem hexDigits_eq (letter : Byte) {room : Nat} {u : BitVec 64} (hu : u.toNat < 16 ^ (room + 1))
    (hmsb : u.msb = false) :
  hexDigits letter (room + 1) u
    = some (if u = 0 then [0x30] else (Nat.digits 16 u.toNat).map (glyph letter))
  := by
  have hcons {u : BitVec 64} (hu : u ≠ 0) :
      Nat.digits 16 u.toNat = u.toNat % 16 :: Nat.digits 16 (u >>> 4).toNat := by
    have hpos : 0 < u.toNat := by bv_omega
    rw [Nat.digits_def' (by norm_num) hpos, BitVec.toNat_ushiftRight, Nat.shiftRight_eq_div_pow]
  induction room generalizing u with
  | zero =>
    have hzero : u >>> 4 = 0 := by bv_omega
    rw [hexDigits, hexDigit_eq, BitVec.sshiftRight_eq_of_msb_false hmsb, if_pos hzero]
    split
    case isTrue h =>
      subst h
      rfl
    case isFalse h =>
      rw [hcons h, hzero]
      rfl
  | succ room ih =>
    rw [hexDigits, hexDigit_eq, BitVec.sshiftRight_eq_of_msb_false hmsb]
    rcases eq_or_ne u 0 with rfl | hne
    · rfl
    · rw [if_neg hne, hcons hne]
      rcases eq_or_ne (u >>> 4) 0 with hzero | hshift
      · rw [if_pos hzero, hzero]
        rfl
      · have hlt : (u >>> 4).toNat < 16 ^ (room + 1) := by
          rw [BitVec.toNat_ushiftRight, Nat.shiftRight_eq_div_pow]
          omega
        have hmsb' : (u >>> 4).msb = false := by
          rw [← BitVec.sshiftRight_eq_of_msb_false hmsb, BitVec.msb_sshiftRight, hmsb]
        rw [if_neg hshift, ih hlt hmsb', if_neg hshift]
        rfl

/-- A number below 0 stays below 0, and no room is enough for its digits. -/
theorem hexDigits_of_msb (letter : Byte) (room : Nat) {u : BitVec 64} (hmsb : u.msb = true) :
  hexDigits letter room u = none
  := by
  induction room generalizing u with
  | zero => rfl
  | succ room ih =>
    have hmsb' : (u.sshiftRight 4).msb = true := by rw [BitVec.msb_sshiftRight, hmsb]
    have hne : u.sshiftRight 4 ≠ 0 := by
      intro h
      rw [h] at hmsb'
      cases hmsb'
    rw [hexDigits, if_neg hne, ih hmsb']
    rfl

/-! ### Conversions -/

/-- The conversions of integers: `%u`, `%d`, `%x` and `%X`. -/
inductive IntConv where
  | unsigned
  | signed
  | hex
  | upperHex
  deriving DecidableEq

namespace IntConv

/-- The letter of a conversion. -/
def letter : IntConv → Byte
  | unsigned => 0x75
  | signed => 0x64
  | hex => 0x78
  | upperHex => 0x58

/-- The base of its numerals. -/
def base : IntConv → Nat
  | unsigned | signed => 10
  | hex | upperHex => 16

/-- The letter of the digit ten. -/
def ten : IntConv → Byte
  | unsigned | signed | hex => 0x61
  | upperHex => 0x41

/-- The number that it prints. -/
def value (conv : IntConv) (v : BitVec 64) : Int :=
  match conv with
  | signed => v.toInt
  | unsigned | hex | upperHex => v.toNat

/-- The numeral of the number, without its sign. -/
def digits (conv : IntConv) (v : BitVec 64) : List Byte :=
  numeral conv.ten conv.base (conv.value v).natAbs

/-- The digits are computed on a number that is not below 0. -/
def IsPlain (conv : IntConv) (v : BitVec 64) : Prop :=
  match conv with
  | unsigned | hex | upperHex => v.toNat < 2 ^ 63
  | signed => v.toInt ≠ -2 ^ 63

/-- What the conversion has in its buffer. -/
def buf (conv : IntConv) (v : BitVec 64) : Option (List Byte) :=
  match conv with
  | unsigned => some (u64ToStr v 5000)
  | signed => some (i64ToStr v 5000)
  | hex | upperHex => hexDigits conv.ten strPrintBufSize v

/-- The base is one of numerals. -/
theorem base_spec (conv : IntConv) :
  1 < conv.base ∧ conv.base ≤ 16
  := by
  cases conv <;> decide

/-- The letter for ten is one of numerals. -/
theorem isLetter_ten (conv : IntConv) :
  IsLetter conv.ten
  := by
  cases conv <;> constructor <;> decide

/-- The decimal digits of a word are its numeral. -/
theorem strDigits_numeral (letter : Byte) {len n : Nat} (hlen : 20 ≤ len) (hn : n ≠ 0)
    (hlt : n < 2 ^ 64) :
  strDigits len n = (numeral letter 10 n).reverse
  := by
  have hlt' : n < 10 ^ len :=
    calc n < 2 ^ 64 := hlt
      _ ≤ 10 ^ 20 := by norm_num
      _ ≤ 10 ^ len := Nat.pow_le_pow_right (by norm_num) hlen
  rw [strDigits_natCast letter hlt', numeral, if_neg hn, List.reverse_reverse]

/-- The hexadecimal digits of a number that is not below 0 are its numeral. -/
theorem hexDigits_numeral (letter : Byte) {v : BitVec 64} (h : v.toNat < 2 ^ 63) :
  hexDigits letter strPrintBufSize v = some (numeral letter 16 v.toNat).reverse
  := by
  have hlt : v.toNat < 16 ^ (255 + 1) :=
    calc v.toNat < 2 ^ 63 := h
      _ ≤ 16 ^ (255 + 1) := by norm_num
  rw [strPrintBufSize, hexDigits_eq letter hlt (BitVec.msb_eq_false_iff_two_mul_lt.mpr (by omega)), numeral]
  rcases eq_or_ne v 0 with rfl | hne
  · rfl
  · rw [if_neg hne, if_neg (by bv_omega), List.reverse_reverse]

/-- The buffer has the numeral from behind. -/
theorem buf_of_isPlain {conv : IntConv} {v : BitVec 64} (h : conv.IsPlain v) :
  conv.buf v = some (conv.digits v).reverse
  := by
  have hlt := v.isLt
  cases conv with
  | unsigned =>
    have hint : v.toInt = v.toNat := BitVec.toInt_eq_toNat_of_lt (by rw [IsPlain] at h; omega)
    rw [buf, u64ToStr, digits, value, hint]
    rcases eq_or_ne v 0 with rfl | hne
    · rfl
    · rw [if_neg hne, strDigits_numeral 0x61 (by norm_num) (by bv_omega) hlt]
      rfl
  | signed =>
    have hge := v.le_toInt
    have hlt' := v.toInt_lt
    rw [IsPlain] at h
    rw [buf, i64ToStr, digits, value]
    rcases eq_or_ne v 0 with rfl | hne
    · rfl
    · have hne' : v.toInt ≠ 0 := fun hzero => hne (BitVec.eq_of_toInt_eq hzero)
      have habs : (if v.toInt < 0 then toI64 (-v.toInt) else v.toInt) = v.toInt.natAbs := by
        split
        · rw [toI64_of_bounds (by omega) (by omega)]
          omega
        · omega
      rw [if_neg hne, habs, strDigits_numeral 0x61 (by norm_num) (by omega) (by omega)]
      rfl
  | hex => apply hexDigits_numeral _ h
  | upperHex => apply hexDigits_numeral _ h

/-- Or it is overrun, or has digits that are not above 0, of a number that is not 0. -/
theorem buf_of_not_isPlain {conv : IntConv} {v : BitVec 64} (h : ¬conv.IsPlain v) {buf : List Byte}
    (hbuf : conv.buf v = some buf) :
  (∀ ch ∈ buf, ch ≤ 0x30) ∧ (conv.value v).natAbs ≠ 0
  := by
  cases conv with
  | unsigned =>
    rw [IsPlain, not_lt] at h
    have hneg : v.toInt < 0 := by
      rw [BitVec.toInt_eq_toNat_cond]
      have := v.isLt
      omega
    obtain ⟨n, hn⟩ := Int.exists_eq_neg_ofNat hneg.le
    cases hbuf
    rw [u64ToStr, if_neg (by rintro rfl; revert hneg; decide), hn, value]
    constructor
    · apply strDigits_neg
    · omega
  | signed =>
    rw [IsPlain, not_not] at h
    have habs : toI64 (- -2 ^ 63) = -(2 ^ 63 : Nat) := by decide
    cases hbuf
    rw [i64ToStr, if_neg (by rintro rfl; revert h; decide), value, h, if_pos (by norm_num), habs]
    constructor
    · apply strDigits_neg 5000 (2 ^ 63)
    · decide
  | hex | upperHex =>
    have hmsb : v.msb = true := BitVec.msb_eq_true_iff_two_mul_ge.mpr (by rw [IsPlain] at h; omega)
    rw [IntConv.buf, hexDigits_of_msb _ _ hmsb] at hbuf
    cases hbuf

end IntConv

/-! ### Formats -/

/-- A width: a number in the format, or the next argument. -/
inductive IntWidth where
  | digits (n : Nat)
  | star

/-- The text of a width. -/
def IntWidth.spell : IntWidth → List Byte
  | digits n => if n = 0 then [] else numeral 0x61 10 n
  | star => [0x2A]

/-- The number of a width. -/
def IntWidth.value (argv : Nat → BitVec 64) (sp : Nat) : IntWidth → Int
  | digits n => n
  | star => (argv sp).toInt

/-- The argument behind a width. -/
def IntWidth.next (sp : Nat) : IntWidth → Nat
  | digits _ => sp
  | star => sp + 1

/-- A format of integers: a `-`, which has no effect on them, a `0`, the width and the conversion. -/
structure IntFormat where
  left : Bool
  zero : Bool
  width : IntWidth
  conv : IntConv

namespace IntFormat

/-- What is behind the `%` of a format. -/
def body (f : IntFormat) : List Byte :=
  (if f.left then [0x2D] else []) ++ ((if f.zero then [0x30] else []) ++ (f.width.spell ++ [f.conv.letter]))

/-- The flags of a format. -/
def flags (f : IntFormat) : BitVec 64 :=
  (if f.left then prtfLeftJustify else 0) ||| (if f.zero then prtfPadZero else 0)

end IntFormat

/-- The end of a number in a format. -/
theorem readLen_of_head {fmt : List Byte} (h : ∀ ch, fmt.head? = some ch → ¬isDecDigit ch) (len : Int) :
  readLen fmt len = (fmt, len)
  := by
  cases fmt with
  | nil => rfl
  | cons ch fmt => rw [readLen, if_neg (h ch rfl)]

/-- Decimal digits in a format. -/
theorem readLen_digits (letter : Byte) (ds : List Nat) (hds : ∀ d ∈ ds, d < 10) (rest : List Byte)
    (len : Int) :
  readLen (ds.map (glyph letter) ++ rest) (toI64 len)
    = readLen rest (toI64 (ds.foldl (fun (a : Int) (d : Nat) => a * 10 + d) len))
  := by
  induction ds generalizing len with
  | nil => rfl
  | cons d ds ih =>
    have hd := hds d List.mem_cons_self
    have hdig : isDecDigit (glyph letter d) = true ∧ (glyph letter d).toNat = 0x30 + d := by
      rw [glyph, if_pos hd]
      interval_cases d <;> decide
    have hlen : toI64 (toI64 len * 10 + (glyph letter d).toNat - 0x30) = toI64 (len * 10 + d) := by
      rw [hdig.2, toI64, toI64, toI64]
      have hsub : len.bmod (2 ^ 64) * 10 + (0x30 + d : Nat) - 0x30 = len.bmod (2 ^ 64) * 10 + d := by omega
      rw [hsub, Int.add_bmod, Int.bmod_mul_bmod, ← Int.add_bmod]
    rw [List.map_cons, List.cons_append, readLen, if_pos hdig.1, hlen,
      ih (fun d hd => hds d (List.mem_cons_of_mem _ hd))]
    rfl

/-- The digits of a number make it up. -/
theorem foldl_digits (n : Nat) :
  (Nat.digits 10 n).reverse.foldl (fun (a : Int) (d : Nat) => a * 10 + d) 0 = n
  := by
  have h : ∀ ds : List Nat, ds.foldr (fun (d : Nat) (a : Int) => a * 10 + d) 0 = (Nat.ofDigits 10 ds : Nat) := by
    intro ds
    induction ds with
    | nil => rfl
    | cons d ds ih =>
      rw [List.foldr_cons, ih, Nat.ofDigits_cons]
      push_cast
      ring
  rw [List.foldl_reverse, h, Nat.ofDigits_digits]

/-- The letter of a conversion is none of the other characters of a format. -/
theorem letter_spec (conv : IntConv) :
  ¬isDecDigit conv.letter ∧ conv.letter ≠ 0x2A ∧ conv.letter ≠ 0x2E ∧ conv.letter ≠ 0x2D
    ∧ conv.letter ≠ 0x30
  := by
  cases conv <;> decide

variable (argv : Nat → BitVec 64)

/-- A width is not below the range of an `I64`. -/
theorem IntWidth.value_ge (w : IntWidth) (sp : Nat) :
  -2 ^ 63 ≤ w.value argv sp
  := by
  cases w with
  | digits n =>
    rw [IntWidth.value]
    omega
  | star => apply (argv sp).le_toInt

/-- The width of a format is read. -/
theorem readWidth_spell (w : IntWidth) (conv : IntConv) (rest : List Byte) (sp : Nat) :
  readWidth argv (w.spell ++ conv.letter :: rest) sp
    = (conv.letter :: rest, w.next sp, toI64 (w.value argv sp))
  := by
  obtain ⟨hdig, hstar, _⟩ := letter_spec conv
  have hend : ∀ ch, (conv.letter :: rest).head? = some ch → ¬isDecDigit ch := by
    intro ch hch
    cases hch
    apply hdig
  cases w with
  | digits n =>
    have hread : readLen ((IntWidth.digits n).spell ++ conv.letter :: rest) 0
        = (conv.letter :: rest, toI64 n) := by
      rw [IntWidth.spell]
      split
      case isTrue h =>
        subst h
        apply readLen_of_head hend
      case isFalse h =>
        have h0 : (0 : Int) = toI64 0 := rfl
        rw [numeral, if_neg h, ← List.map_reverse, h0, readLen_digits, foldl_digits, readLen_of_head hend]
        intro d hd
        apply Nat.digits_lt_base (by norm_num) (List.mem_reverse.mp hd)
    rw [readWidth, hread]
    simp only [List.head?_cons, Option.some.injEq, hstar, if_false, IntWidth.next, IntWidth.value]
  | star =>
    have hread : readLen (IntWidth.star.spell ++ conv.letter :: rest) 0
        = (0x2A :: conv.letter :: rest, 0) := by
      apply readLen_of_head
      intro ch hch
      cases hch
      decide
    have hge := (argv sp).le_toInt
    have hlt := (argv sp).toInt_lt
    have htlen : toI64 (argv sp).toInt = (argv sp).toInt := toI64_of_bounds (by omega) (by omega)
    rw [readWidth, hread, IntWidth.value, htlen]
    simp only [List.head?_cons, if_true, List.tail_cons, IntWidth.next]

/-- The flags of a format are read. -/
theorem readFlags_body (f : IntFormat) (rest : List Byte) :
  readFlags (f.body ++ rest) = (f.width.spell ++ f.conv.letter :: rest, f.flags)
  := by
  obtain ⟨_, _, _, hminus, hzero⟩ := letter_spec f.conv
  have hhead : (f.width.spell ++ f.conv.letter :: rest).head? ≠ some 0x2D
      ∧ (f.width.spell ++ f.conv.letter :: rest).head? ≠ some 0x30 := by
    cases f.width with
    | digits n =>
      rw [IntWidth.spell]
      split
      case isTrue h =>
        simp only [List.nil_append, List.head?_cons, ne_eq, Option.some.injEq]
        use hminus, hzero
      case isFalse h =>
        obtain ⟨ch, text, htext, hch⟩ :=
          numeral_head (IntConv.isLetter_ten .hex) (IntConv.base_spec .signed).1 (IntConv.base_spec .signed).2 h
        simp only [IntConv.ten, IntConv.base] at htext
        simp only [htext, List.cons_append, List.head?_cons, ne_eq, Option.some.injEq]
        constructor
        · rintro rfl
          revert hch
          decide
        · rintro rfl
          revert hch
          decide
    | star =>
      simp only [IntWidth.spell, List.cons_append, List.head?_cons, ne_eq, Option.some.injEq]
      decide
  rw [IntFormat.body, IntFormat.flags, List.append_assoc, List.append_assoc, List.append_assoc,
    List.singleton_append, readFlags]
  generalize f.width.spell ++ f.conv.letter :: rest = fmt at hhead
  obtain ⟨hhead, hhead'⟩ := hhead
  have hne : (0x30 : Byte) ≠ 0x2D := by decide
  cases f.left <;> cases f.zero <;>
    simp only [Bool.false_eq_true, if_true, if_false, List.nil_append, List.singleton_append,
      List.head?_cons, List.tail_cons, Option.some.injEq, hhead, hhead', hne] <;>
    rfl

/-- The specification of a format is read. -/
theorem readSpec_body (f : IntFormat) (rest : List Byte) (sp : Nat) :
  readSpec argv (f.body ++ rest) sp
    = (f.conv.letter :: rest, f.width.next sp,
      { flags := f.flags, tlen := toI64 (f.width.value argv sp), decLen := -1 })
  := by
  obtain ⟨_, _, hdot, _⟩ := letter_spec f.conv
  simp only [readSpec, readFlags_body, readWidth_spell, readPrecision, List.head?_cons, Option.some.injEq,
    hdot, if_false]

/-! ### What is put -/

/-- What the flags of a format say, also with that of a number below 0. -/
theorem flags_spec (f : IntFormat) (neg : Prop) [Decidable neg] :
  let flags := if neg then f.flags ||| prtfNeg else f.flags
  flags &&& prtfTruncate = 0 ∧ (flags &&& prtfNeg ≠ 0 ↔ neg) ∧ (flags &&& prtfPadZero ≠ 0 ↔ f.zero)
  := by
  rw [IntFormat.flags]
  split
  case isTrue h =>
    simp only [h]
    cases f.left <;> cases f.zero <;> decide
  case isFalse h =>
    simp only [h]
    cases f.left <;> cases f.zero <;> decide

/-- What is put for a decimal number. -/
theorem putDecimal_eq (f : IntFormat) (tlen decLen : Int) (idx : Nat) (buf : List Byte) :
  putDecimal { flags := f.flags, tlen, decLen } idx buf
    = filled f.zero (toI64 (tlen - buf.length) - idx).toNat (if idx ≠ 0 then [0x2D] else []) buf.reverse
  := by
  obtain ⟨htrunc, hneg, hzero⟩ := flags_spec f (idx ≠ 0)
  rw [putDecimal, filled]
  simp only [htrunc, ne_eq, not_true_eq_false, false_and, if_false, Int.toNat_natCast, List.take_length]
  simp only [← ne_eq, hneg, hzero]
  split <;> rfl

/-- What is put for a hexadecimal number. -/
theorem putHex_eq (f : IntFormat) (tlen decLen : Int) (buf : List Byte) :
  putHex { flags := f.flags, tlen, decLen } buf
    = filled f.zero (toI64 (tlen - buf.length)).toNat [] buf.reverse
  := by
  obtain ⟨htrunc, _, hzero⟩ := flags_spec f False
  rw [if_neg not_false] at htrunc hzero
  rw [putHex, filled]
  simp only [htrunc, ne_eq, not_true_eq_false, false_and, if_false, Int.toNat_natCast, List.take_length,
    List.nil_append, List.append_nil]
  simp only [hzero]
  split <;> rfl

/-- What a conversion puts. -/
def IntConv.put (conv : IntConv) (spec : PrintSpec) (v : BitVec 64) : Option (List Byte) :=
  match conv with
  | unsigned => (conv.buf v).map (putDecimal spec 0)
  | signed => (conv.buf v).map (putDecimal spec (if v.toInt < 0 then 1 else 0))
  | hex | upperHex => (conv.buf v).map (putHex spec)

/-- What a conversion puts in a format. -/
theorem put_eq (f : IntFormat) (tlen decLen : Int) (v : BitVec 64) :
  f.conv.put { flags := f.flags, tlen, decLen } v
    = (f.conv.buf v).map fun buf =>
        filled f.zero (toI64 (tlen - buf.length) - (signOf (f.conv.value v)).length).toNat
          (signOf (f.conv.value v)) buf.reverse
  := by
  have hsign (n : Nat) : signOf n = [] := if_neg (by omega)
  have hdecimal (idx : Nat) :
      putDecimal { flags := f.flags, tlen, decLen } idx
        = fun buf => filled f.zero (toI64 (tlen - buf.length) - idx).toNat
            (if idx ≠ 0 then [0x2D] else []) buf.reverse :=
    funext (putDecimal_eq f tlen decLen idx)
  have hhex :
      putHex { flags := f.flags, tlen, decLen }
        = fun buf => filled f.zero (toI64 (tlen - buf.length)).toNat [] buf.reverse :=
    funext (putHex_eq f tlen decLen)
  rw [IntConv.put.eq_def, IntConv.value.eq_def]
  cases f.conv with
  | unsigned =>
    simp only [hdecimal, hsign]
    rfl
  | signed =>
    simp only [hdecimal, signOf]
    split <;> rfl
  | hex | upperHex =>
    simp only [hhex, hsign, List.length_nil, Nat.cast_zero, sub_zero]

-- the conversions that are not of integers
variable (other : Byte → PrintSpec → PrintState → Option PrintState)

/-- What `place_hex` puts. -/
theorem placeHex_eq (letter : Byte) (spec : PrintSpec) (s : PrintState) :
  placeHex argv letter spec s
    = ((hexDigits letter strPrintBufSize (argv s.sp)).map (putHex spec)).map
        fun text => { s with sp := s.sp + 1, out := s.out ++ text }
  := by
  rw [placeHex]
  generalize hexDigits letter strPrintBufSize (argv s.sp) = buf
  cases buf <;> rfl

/-- The case of the letter of a conversion. -/
theorem putConversion_letter (conv : IntConv) (spec : PrintSpec) (s : PrintState) :
  putConversion argv other conv.letter spec s
    = (conv.put spec (argv s.sp)).map fun text => { s with sp := s.sp + 1, out := s.out ++ text }
  := by
  cases conv with
  | unsigned | signed => rfl
  | hex =>
    rw [putConversion, if_neg (by decide), if_neg (by decide), if_neg (by decide), if_pos (by decide)]
    apply placeHex_eq
  | upperHex =>
    rw [putConversion, if_neg (by decide), if_neg (by decide), if_neg (by decide), if_neg (by decide),
      if_pos (by decide)]
    apply placeHex_eq

/-- A turn of the loop at a format of integers. -/
theorem strPrintStep_format (f : IntFormat) (rest : List Byte) (sp : Nat) (out : List Byte) :
  strPrintStep argv other { fmt := 0x25 :: f.body ++ rest, sp, out }
    = ((f.conv.put { flags := f.flags, tlen := toI64 (f.width.value argv sp), decLen := -1 }
          (argv (f.width.next sp))).map fun text =>
        { fmt := rest, sp := f.width.next sp + 1, out := out ++ text }).elim (.inr none) .inl
  := by
  rw [List.cons_append, strPrintStep]
  simp only [if_true, readSpec_body, putConversion_letter]

/-! ### Numerals -/

/-- The room for filling is computed right exactly when it is in the range of an `I64`. -/
theorem fill_iff {x : Int} {s : Nat} (hs : s ≤ 1) (hx : -2 ^ 63 - 2 ^ 6 ≤ x) :
  (toI64 x - s).toNat = (x - s).toNat ↔ -2 ^ 63 ≤ x ∧ x < 2 ^ 63
  := by
  constructor
  · intro h
    constructor
    · by_contra hlo
      have hadd : toI64 x = toI64 (x + (2 ^ 64 : Nat)) := (Int.add_bmod_right _ _).symm
      rw [hadd, toI64_of_bounds (by omega) (by omega)] at h
      omega
    · by_contra hhi
      have hlt : toI64 x < 2 ^ 63 := lt_of_lt_of_le (Int.bmod_lt (by norm_num)) (by norm_num)
      omega
  · rintro ⟨hlo, hhi⟩
    rw [toI64_of_bounds hlo hhi]

/-- Digits that are filled have one length for each number of fillers. -/
theorem length_filled (zero : Bool) (fill : Nat) (sign digits : List Byte) :
  (filled zero fill sign digits).length = fill + sign.length + digits.length
  := by
  rw [filled]
  split
  · rw [List.length_append, List.length_append, List.length_replicate, Nat.add_comm fill]
  · rw [List.length_append, List.length_append, List.length_replicate]

/-- What is filled is of the digits and of characters that are not above 0. -/
theorem mem_filled {zero : Bool} {fill : Nat} {sign digits : List Byte} {ch : Byte}
    (h : ch ∈ filled zero fill sign digits) :
  ch ∈ sign ∨ ch ≤ 0x30 ∨ ch ∈ digits
  := by
  rw [filled] at h
  split at h
  · rcases List.mem_append.mp h with h | h
    · rcases List.mem_append.mp h with h | h
      · left
        apply h
      · right
        left
        rw [List.eq_of_mem_replicate h]
        decide
    · right
      right
      apply h
  · rcases List.mem_append.mp h with h | h
    · rcases List.mem_append.mp h with h | h
      · right
        left
        rw [List.eq_of_mem_replicate h]
        decide
      · left
        apply h
    · right
      right
      apply h

/-- The text that a format promises. -/
def IntFormat.text (f : IntFormat) (w : Int) (v : BitVec 64) : List Byte :=
  padded f.zero w (signOf (f.conv.value v)) (f.conv.digits v)

/-- The difference of a width and the digits is in the range of an `I64`. -/
def IntFormat.Fits (f : IntFormat) (w : Int) (v : BitVec 64) : Prop :=
  -2 ^ 63 ≤ w - (f.conv.digits v).length ∧ w - (f.conv.digits v).length < 2 ^ 63

/-- A word has 20 digits at most. -/
theorem length_digits_le (conv : IntConv) (v : BitVec 64) :
  (conv.digits v).length ≤ 20
  := by
  have habs : (conv.value v).natAbs < 2 ^ 64 := by
    have hlt := v.isLt
    have hge := v.le_toInt
    have hlt' := v.toInt_lt
    rw [IntConv.value.eq_def]
    split <;> omega
  apply length_numeral_le _ conv.base_spec.1
  apply lt_of_lt_of_le habs
  calc 2 ^ 64 ≤ 10 ^ (19 + 1) := by norm_num
    _ ≤ conv.base ^ (19 + 1) := by
      apply Nat.pow_le_pow_left
      cases conv <;> decide

/-- What a conversion puts is the text that is promised exactly when the digits are computed on a number
that is not below 0 and the width leaves no overflow. -/
theorem put_eq_text_iff (f : IntFormat) {w : Int} (hw : -2 ^ 63 ≤ w) (decLen : Int) (v : BitVec 64) :
  f.conv.put { flags := f.flags, tlen := toI64 w, decLen } v = some (f.text w v)
    ↔ f.conv.IsPlain v ∧ f.Fits w v
  := by
  have hsub (y : Int) : toI64 (toI64 w - y) = toI64 (w - y) := Int.bmod_sub_bmod
  rw [put_eq, IntFormat.text]
  simp only [hsub]
  by_cases hplain : f.conv.IsPlain v
  · have hbuf := IntConv.buf_of_isPlain hplain
    have hsign : (signOf (f.conv.value v)).length ≤ 1 := by
      rw [signOf]
      split
      · apply le_refl
      · apply Nat.zero_le
    have hle := length_digits_le f.conv v
    rw [hbuf, Option.map_some, Option.some.injEq, List.length_reverse, List.reverse_reverse, padded,
      and_iff_right hplain, IntFormat.Fits, ← fill_iff hsign (by omega)]
    constructor
    · intro h
      have hlen := congrArg List.length h
      rw [length_filled, length_filled] at hlen
      omega
    · intro h
      rw [h]
  · apply iff_of_false
    · intro h
      obtain ⟨buf, hbuf, h⟩ := Option.map_eq_some_iff.mp h
      obtain ⟨hle, hne⟩ := IntConv.buf_of_not_isPlain hplain hbuf
      obtain ⟨ch, text, htext, hch⟩ :=
        numeral_head f.conv.isLetter_ten f.conv.base_spec.1 f.conv.base_spec.2 hne
      have hmem : ch ∈ padded f.zero w (signOf (f.conv.value v)) (f.conv.digits v) := by
        rw [padded, filled, IntConv.digits, htext]
        split
        · simp
        · simp
      rw [← h] at hmem
      have hle : ch ≤ 0x30 := by
        rcases mem_filled hmem with hmem | hmem | hmem
        · rw [signOf] at hmem
          split at hmem
          · rw [List.mem_singleton.mp hmem]
            decide
          · cases hmem
        · apply hmem
        · apply hle ch (List.mem_reverse.mp hmem)
      apply absurd hch (BitVec.not_lt.mpr hle)
    · rintro ⟨h, _⟩
      apply hplain h

/-- A turn of the loop of `StrPrintJoin` at a format of integers puts the numeral of its argument, filled
up to the width, which is read as the argument, exactly when the digits are computed on a number that is
not below 0 and the difference of the width and the digits is in the range of an `I64`. -/
theorem strPrintStep_numeral_iff (f : IntFormat) (rest : List Byte) (sp : Nat) (out : List Byte) :
  (∃ text, strPrintStep argv other { fmt := 0x25 :: f.body ++ rest, sp, out }
      = .inl { fmt := rest, sp := f.width.next sp + 1, out := out ++ text } ∧
    text = f.text (f.width.value argv sp) (argv (f.width.next sp)) ∧
    readInt f.conv.ten f.conv.base text = f.conv.value (argv (f.width.next sp)))
    ↔ f.conv.IsPlain (argv (f.width.next sp)) ∧ f.Fits (f.width.value argv sp) (argv (f.width.next sp))
  := by
  rw [strPrintStep_format, ← put_eq_text_iff f (f.width.value_ge argv sp) (-1)]
  generalize f.conv.put _ _ = put
  constructor
  · rintro ⟨text, hstep, rfl, -⟩
    cases put with
    | none => cases hstep
    | some text =>
      rw [Option.map_some, Option.elim_some, Sum.inl.injEq, PrintState.mk.injEq] at hstep
      rw [List.append_cancel_left hstep.2.2]
  · rintro rfl
    use f.text (f.width.value argv sp) (argv (f.width.next sp)), rfl, rfl
    apply readInt_padded f.conv.isLetter_ten f.conv.base_spec.1 f.conv.base_spec.2

/-- `%d` of the most negative number and `%u` of the greatest one are not read as these, and `%x` of the
greatest one writes beyond the buffer. -/
theorem not_strPrintStep_numeral :
  (∃ text, strPrintStep (fun _ => BitVec.intMin 64) (fun _ _ => some)
        { fmt := [0x25, 0x64], sp := 0, out := [] } = .inl { fmt := [], sp := 1, out := text }
      ∧ readInt 0x61 10 text ≠ -2 ^ 63)
    ∧ (∃ text, strPrintStep (fun _ => BitVec.allOnes 64) (fun _ _ => some)
        { fmt := [0x25, 0x75], sp := 0, out := [] } = .inl { fmt := [], sp := 1, out := text }
      ∧ readInt 0x61 10 text ≠ 2 ^ 64 - 1)
    ∧ strPrintStep (fun _ => BitVec.allOnes 64) (fun _ _ => some)
        { fmt := [0x25, 0x78], sp := 0, out := [] } = .inr none
  := by
  refine ⟨?_, ?_, ?_⟩
  · use [0x2D, 0x27, 0x2E, 0x2E, 0x2D, 0x2D, 0x29, 0x2E, 0x30, 0x2D, 0x2A, 0x28, 0x2B, 0x2C, 0x29, 0x29,
      0x2B, 0x28, 0x30, 0x28]
    constructor
    · decide +kernel
    · decide
  · use [0x2F]
    constructor
    · decide +kernel
    · decide
  · decide +kernel

/-! ### Whole formats -/

/-- A part of a format: a character or a format of an integer. -/
inductive PrintPiece where
  | char (ch : Byte)
  | int (f : IntFormat)

/-- The text of a part of a format. -/
def PrintPiece.spell : PrintPiece → List Byte
  | char ch => [ch]
  | int f => 0x25 :: f.body

/-- The text that a format promises for the arguments from `sp` on. -/
def piecesText : List PrintPiece → Nat → List Byte
  | [], _ => []
  | .char ch :: ps, sp => ch :: piecesText ps sp
  | .int f :: ps, sp =>
    f.text (f.width.value argv sp) (argv (f.width.next sp)) ++ piecesText ps (f.width.next sp + 1)

/-- The parts of a format that keep what they promise for the arguments from `sp` on. -/
def PiecesFit : List PrintPiece → Nat → Prop
  | [], _ => True
  | .char ch :: ps, sp => ch ≠ 0x25 ∧ PiecesFit ps sp
  | .int f :: ps, sp =>
    (f.conv.IsPlain (argv (f.width.next sp)) ∧ f.Fits (f.width.value argv sp) (argv (f.width.next sp)))
      ∧ PiecesFit ps (f.width.next sp + 1)

/-- `StrPrintJoin` puts what its format promises. -/
theorem strPrintJoin_pieces {ps : List PrintPiece} {sp : Nat} (h : PiecesFit argv ps sp) {n : Nat}
    (hn : ps.length < n) (out : List Byte) :
  Loop.run (strPrintStep argv other) n { fmt := ps.flatMap PrintPiece.spell, sp, out }
    = some (some (out ++ piecesText argv ps sp))
  := by
  induction ps generalizing sp n out with
  | nil =>
    obtain ⟨n, rfl⟩ := Nat.exists_eq_succ_of_ne_zero hn.ne'
    rw [piecesText, List.append_nil]
    rfl
  | cons p ps ih =>
    obtain ⟨n, rfl⟩ := Nat.exists_eq_succ_of_ne_zero (Nat.ne_zero_of_lt hn)
    have hn' := Nat.lt_of_succ_lt_succ hn
    rw [Loop.run, List.flatMap_cons]
    cases p with
    | char ch =>
      obtain ⟨hch, hps⟩ := h
      have hstep : strPrintStep argv other
            { fmt := (PrintPiece.char ch).spell ++ ps.flatMap PrintPiece.spell, sp, out }
          = .inl { fmt := ps.flatMap PrintPiece.spell, sp, out := out ++ [ch] } := if_neg hch
      rw [hstep]
      apply (ih hps hn' _).trans
      rw [List.append_assoc]
      rfl
    | int f =>
      obtain ⟨hf, hps⟩ := h
      rw [PrintPiece.spell, strPrintStep_format, (put_eq_text_iff f (f.width.value_ge argv sp) _ _).mpr hf,
        Option.map_some, Option.elim_some]
      apply (ih hps hn' _).trans
      rw [List.append_assoc]
      rfl

end Polyc
