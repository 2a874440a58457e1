import Mathlib.Data.List.TakeWhile
import Mathlib.Data.Nat.Digits.Defs

/-!
# Numeric literals

The scanner of numeric literals: how many characters it takes, which kind of token they are, and
what the conversions of the C library make of the text.  A text is the characters from the start
of the literal to the terminating null character.  The number that a float token has is left to
the conversion; the token keeps the text that is converted.
-/

namespace Polyc.Numeric

/-! ### Characters -/

/-- `isNum`. -/
def isNum (ch : Char) : Bool := '0' ≤ ch && ch ≤ '9'

/-- `isHex`. -/
def isHex (ch : Char) : Bool :=
  isNum ch || ('a' ≤ ch && ch ≤ 'f') || ('A' ≤ ch && ch ≤ 'F')

/-- `isNumTerminator`. -/
def isNumTerminator (ch : Char) : Bool :=
  !isNum ch && !isHex ch && ch != '.' && ch != 'x' && ch != 'X' && ch != '\\'

/-! ### The length of a literal -/

/-- The variables of `countNumberLen`: the flags it is given, `seen_e` and how far `ptr` is from
`start`. -/
structure Count where
  isfloat : Bool
  ishex : Bool
  seenE : Bool
  len : Nat
  deriving DecidableEq

/-- The body of the loop of `countNumberLen` at a character, but for `f32` and `f64`; there is no
result where it sets `err`. -/
def Count.step (s : Count) (ch : Char) : Option Count :=
  if ch = 'e' ∨ ch = 'E' then
    if s.ishex then some { s with len := s.len + 1 }
    else if s.seenE then none
    else some { s with seenE := true, len := s.len + 1 }
  else if ch = 'x' ∨ ch = 'X' then
    if s.ishex then none else some { s with ishex := true, len := s.len + 1 }
  else if ch = '-' ∨ ch = '+' then some { s with len := s.len + 1 }
  else if ch = '.' then
    if s.isfloat then none else some { s with isfloat := true, len := s.len + 1 }
  else if ch ≠ 'f' ∧ !isHex ch then none
  else some { s with len := s.len + 1 }

/-- The end of `countNumberLen`. -/
def Count.finish (s : Count) : Option Count :=
  if s.isfloat && s.ishex then none
  else if s.ishex && s.seenE then none
  else some s

/-- `countNumberLen`. -/
def countNumberLen (s : Count) : List Char → Option Count
  | [] => s.finish
  | 'f' :: '3' :: '2' :: rest => countNumberLen { s with isfloat := true, len := s.len + 3 } rest
  | 'f' :: '6' :: '4' :: rest => countNumberLen { s with isfloat := true, len := s.len + 3 } rest
  | ch :: rest =>
    if isNumTerminator ch then s.finish
    else
      match s.step ch with
      | none => none
      | some s => countNumberLen s rest

/-! ### The conversions -/

/-- The number that a character is as a digit. -/
def digit (ch : Char) : Nat :=
  if isNum ch then ch.toNat - '0'.toNat
  else if 'a' ≤ ch then ch.toNat - 'a'.toNat + 10
  else ch.toNat - 'A'.toNat + 10

/-- The number that digits are. -/
def number (base : Nat) (digits : List Char) : Nat :=
  Nat.ofDigits base (digits.reverse.map digit)

/-- `strtoll` to base 10, on a text that begins with a digit: the digits as far as they go, and
the greatest number when they are more. -/
def strtoll (text : List Char) : BitVec 64 :=
  BitVec.ofNat 64 (min (number 10 (text.takeWhile isNum)) (2 ^ 63 - 1))

/-- The digits that `strtoull` to base 16 converts, after a `0x` that comes before one. -/
def hexSubject : List Char → List Char
  | '0' :: x :: ch :: rest =>
    if (x = 'x' ∨ x = 'X') ∧ isHex ch then (ch :: rest).takeWhile isHex
    else ('0' :: x :: ch :: rest).takeWhile isHex
  | text => text.takeWhile isHex

/-- `strtoull` to base 16, on a text that begins with a digit. -/
def strtoull (text : List Char) : BitVec 64 :=
  BitVec.ofNat 64 (min (number 16 (hexSubject text)) (2 ^ 64 - 1))

/-- The exponent of a decimal number. -/
def exponentSubject : List Char → List Char
  | e :: sign :: rest =>
    if e = 'e' ∨ e = 'E' then
      if sign = '+' ∨ sign = '-' then
        if (rest.takeWhile isNum).isEmpty then [] else e :: sign :: rest.takeWhile isNum
      else if isNum sign then e :: (sign :: rest).takeWhile isNum
      else []
    else []
  | _ => []

/-- The text that `strtold` converts, of one that begins with a digit or with a point and a
digit; hexadecimal numbers do not come to it. -/
def strtoldSubject (text : List Char) : List Char :=
  match text.dropWhile isNum with
  | '.' :: rest =>
    text.takeWhile isNum ++ '.' :: rest.takeWhile isNum ++ exponentSubject (rest.dropWhile isNum)
  | rest => text.takeWhile isNum ++ exponentSubject rest

/-! ### The token -/

/-- A numeric token: the number and `ishex`, or the text whose number is taken. -/
inductive Token where
  | i64 (value : BitVec 64) (ishex : Bool)
  | f64 (converted : List Char)
  deriving DecidableEq

/-- `lexNumeric`: the token and the characters that are taken, unless the literal is malformed. -/
def lexNumeric (text : List Char) : Option (Token × List Char) :=
  (countNumberLen ⟨false, false, false, 0⟩ text).map fun s =>
    (if s.isfloat then .f64 (strtoldSubject text)
      else if s.ishex then .i64 (strtoull text) true
      else .i64 (strtoll text) false,
      text.take s.len)

/-! ### What a literal spells -/

/-- Decimal digits. -/
def isDecimal (run : List Char) : Bool := !run.isEmpty && run.all isNum

/-- The digits of a hexadecimal number. -/
def hexDigits : List Char → Option (List Char)
  | '0' :: x :: ch :: rest =>
    if (x = 'x' ∨ x = 'X') ∧ (ch :: rest).all isHex then some (ch :: rest) else none
  | _ => none

/-- A token means what the run of characters it was taken from spells: decimal digits or `0x` with
hexadecimal digits, up to multiples of two to the power of 64, or the text that is converted. -/
def Token.Spells (run : List Char) : Token → Prop
  | .i64 value _ =>
    (isDecimal run = true ∧ value = BitVec.ofNat 64 (number 10 run)) ∨
      ∃ digits, hexDigits run = some digits ∧ value = BitVec.ofNat 64 (number 16 digits)
  | .f64 converted => converted = run

/-! ### Literals that are converted well -/

/-- The run of characters that a literal is scanned over. -/
def numberRun (text : List Char) : List Char := text.takeWhile fun ch => !isNumTerminator ch

/-- A decimal number that the conversion keeps up to multiples of two to the power of 64. -/
def decimalFits (run : List Char) : Bool :=
  isDecimal run && (number 10 run < 2 ^ 63 || number 10 run % 2 ^ 64 = 2 ^ 63 - 1)

/-- A hexadecimal number that the conversion keeps up to multiples of two to the power of 64. -/
def hexFits (run : List Char) : Bool :=
  (hexDigits run).any fun digits =>
    number 16 digits < 2 ^ 64 || number 16 digits % 2 ^ 64 = 2 ^ 64 - 1

/-- Decimal digits, or `e` with such digits, or nothing. -/
def isExponent : List Char → Bool
  | [] => true
  | e :: digits => (e = 'e' || e = 'E') && isDecimal digits

/-- Digits with a point, and an exponent without a sign. -/
def floatFits (run : List Char) : Bool :=
  match run.dropWhile isNum with
  | '.' :: rest => isExponent (rest.dropWhile isNum)
  | _ => false

/-- The run at the start of a text is a literal that is converted well. -/
def fits (text : List Char) : Bool :=
  decimalFits (numberRun text) || hexFits (numberRun text) || floatFits (numberRun text)

end Polyc.Numeric

/-!
## Numeric literals mean what they spell

The scanner takes the maximal run of characters of a literal.  Which kind of token it is shows in
the characters of the run, and the conversions, which look at the text by themselves, agree with
the run exactly when it is a literal of the right form whose number they keep.
-/

namespace Polyc.Numeric

/-! ### Characters -/

/-- A terminator is no digit. -/
theorem isNum_of_isNumTerminator {ch : Char} (h : isNumTerminator ch = true) :
  isNum ch = false
  := by
  simp only [isNumTerminator, Bool.and_eq_true, Bool.not_eq_true'] at h
  apply h.1.1.1.1.1

/-- A terminator is no hexadecimal digit. -/
theorem isHex_of_isNumTerminator {ch : Char} (h : isNumTerminator ch = true) :
  isHex ch = false
  := by
  simp only [isNumTerminator, Bool.and_eq_true, Bool.not_eq_true'] at h
  apply h.1.1.1.1.2

/-! ### The scan -/

/-- The characters that make a number hexadecimal. -/
def isX (ch : Char) : Bool := ch = 'x' || ch = 'X'

/-- What a scan says of the run `run` that it goes over. -/
structure Scanned (s s' : Count) (run : List Char) : Prop where
  len : s'.len = s.len + run.length
  ishex : s'.ishex = (s.ishex || run.any isX)
  isfloat : '.' ∈ run → s'.isfloat = true
  keeps : s.isfloat = true → s'.isfloat = true
  float : s'.isfloat = true → s.isfloat = true ∨ '.' ∈ run ∨ 'f' ∈ run

/-- A scan of nothing. -/
theorem Scanned.refl (s : Count) :
  Scanned s s []
  where
  len := rfl
  ishex := by rw [List.any_nil, Bool.or_false]
  isfloat h := by cases h
  keeps h := h
  float h := Or.inl h

/-- Scans one after the other. -/
theorem Scanned.trans {s₁ s₂ s₃ : Count} {run₁ run₂ : List Char} (h₁ : Scanned s₁ s₂ run₁)
    (h₂ : Scanned s₂ s₃ run₂) :
  Scanned s₁ s₃ (run₁ ++ run₂)
  where
  len := by rw [h₂.len, h₁.len, List.length_append, Nat.add_assoc]
  ishex := by rw [h₂.ishex, h₁.ishex, List.any_append, Bool.or_assoc]
  isfloat h := by
    rcases List.mem_append.1 h with h | h
    · apply h₂.keeps (h₁.isfloat h)
    · apply h₂.isfloat h
  keeps h := h₂.keeps (h₁.keeps h)
  float h := by
    rcases h₂.float h with h | h | h
    · rcases h₁.float h with h | h | h
      · apply Or.inl h
      · apply Or.inr (Or.inl (List.mem_append_left _ h))
      · apply Or.inr (Or.inr (List.mem_append_left _ h))
    · apply Or.inr (Or.inl (List.mem_append_right _ h))
    · apply Or.inr (Or.inr (List.mem_append_right _ h))

/-- The suffixes `f32` and `f64`. -/
theorem Scanned.suffix (s : Count) {suffix : List Char}
    (h : suffix = ['f', '3', '2'] ∨ suffix = ['f', '6', '4']) :
  Scanned s { s with isfloat := true, len := s.len + 3 } suffix
  := by
  constructor
  case len => rcases h with rfl | rfl <;> rfl
  case ishex =>
    have hany : suffix.any isX = false := by rcases h with rfl | rfl <;> rfl
    rw [hany, Bool.or_false]
  case isfloat =>
    intro _
    rfl
  case keeps =>
    intro _
    rfl
  case float =>
    intro _
    right
    right
    rcases h with rfl | rfl <;> apply List.mem_cons_self ..

/-- A character that sets no flag. -/
theorem Scanned.plain (s : Count) {ch : Char} (seenE : Bool) (hx : isX ch = false)
    (hpoint : ch ≠ '.') :
  Scanned s { s with seenE := seenE, len := s.len + 1 } [ch]
  := by
  constructor
  case len => rfl
  case ishex => rw [List.any_cons, List.any_nil, hx, Bool.or_false, Bool.or_false]
  case isfloat =>
    intro h
    cases hpoint (List.mem_singleton.1 h).symm
  case keeps =>
    intro h
    apply h
  case float =>
    intro h
    apply Or.inl h

/-- One character. -/
theorem Scanned.step {s s' : Count} {ch : Char} (h : s.step ch = some s') :
  Scanned s s' [ch]
  := by
  rw [Count.step] at h
  split at h
  case isTrue he =>
    have hx : isX ch = false := by rcases he with rfl | rfl <;> rfl
    have hpoint : ch ≠ '.' := by rcases he with rfl | rfl <;> decide
    split at h
    · cases h
      apply Scanned.plain s s.seenE hx hpoint
    split at h
    · cases h
    · cases h
      apply Scanned.plain s true hx hpoint
  case isFalse he =>
    split at h
    case isTrue hx =>
      split at h
      · cases h
      · cases h
        have hany : [ch].any isX = true := by rcases hx with rfl | rfl <;> rfl
        constructor
        case len => rfl
        case ishex => rw [hany, Bool.or_true]
        case isfloat =>
          intro hpoint
          rcases hx with rfl | rfl <;> cases (List.mem_singleton.1 hpoint)
        case keeps =>
          intro h
          apply h
        case float =>
          intro h
          apply Or.inl h
    case isFalse hx =>
      have hx' : isX ch = false := by
        rw [isX, Bool.or_eq_false_iff, decide_eq_false_iff_not, decide_eq_false_iff_not]
        apply not_or.1 hx
      split at h
      case isTrue hsign =>
        cases h
        apply Scanned.plain s s.seenE hx'
        rcases hsign with rfl | rfl <;> decide
      case isFalse hsign =>
        split at h
        case isTrue hpoint =>
          split at h
          · cases h
          · cases h
            constructor
            case len => rfl
            case ishex => rw [List.any_cons, List.any_nil, hx', Bool.or_false, Bool.or_false]
            case isfloat =>
              intro _
              rfl
            case keeps =>
              intro _
              rfl
            case float =>
              intro _
              right
              left
              rw [hpoint]
              apply List.mem_cons_self ..
        case isFalse hpoint =>
          split at h
          · cases h
          · cases h
            apply Scanned.plain s s.seenE hx' hpoint

/-- The end of a scan. -/
theorem Count.finish_eq_some {s s' : Count} (h : s.finish = some s') :
  s' = s ∧ (s.isfloat && s.ishex) = false
  := by
  rw [Count.finish] at h
  split at h
  · cases h
  case isFalse hboth =>
    split at h
    · cases h
    · cases h
      apply And.intro rfl (Bool.eq_false_iff.2 hboth)

/-- A literal is scanned over its run. -/
theorem countNumberLen_eq_some {s s' : Count} {text : List Char}
    (h : countNumberLen s text = some s') :
  Scanned s s' (numberRun text) ∧ (s'.isfloat && s'.ishex) = false
  := by
  fun_induction countNumberLen s text with
  | case1 s =>
    obtain ⟨rfl, hboth⟩ := Count.finish_eq_some h
    apply And.intro (Scanned.refl _) hboth
  | case2 s rest ih =>
    obtain ⟨hrest, hboth⟩ := ih h
    apply And.intro ((Scanned.suffix s (Or.inl rfl)).trans hrest) hboth
  | case3 s rest ih =>
    obtain ⟨hrest, hboth⟩ := ih h
    apply And.intro ((Scanned.suffix s (Or.inr rfl)).trans hrest) hboth
  | case4 s ch rest h32 h64 hend =>
    obtain ⟨rfl, hboth⟩ := Count.finish_eq_some h
    rw [numberRun, List.takeWhile_cons_of_neg (by simp [hend])]
    apply And.intro (Scanned.refl _) hboth
  | case5 s ch rest h32 h64 hend hstep => cases h
  | case6 s ch rest h32 h64 hend s₁ hstep ih =>
    obtain ⟨hrest, hboth⟩ := ih h
    rw [numberRun, List.takeWhile_cons_of_pos (by simp [hend])]
    apply And.intro ((Scanned.step hstep).trans hrest) hboth

/-! ### The text after the run -/

/-- A text begins with its run, after which it ends or goes on with a terminator. -/
theorem exists_after (text : List Char) :
  ∃ after, text = numberRun text ++ after ∧ ∀ ch, after.head? = some ch → isNumTerminator ch = true
  := by
  use text.dropWhile fun ch => !isNumTerminator ch
  constructor
  · rw [numberRun, List.takeWhile_append_dropWhile]
  · intro ch hch
    have hnot := List.head?_dropWhile_not (fun ch => !isNumTerminator ch) text
    rw [hch] at hnot
    simpa using hnot

/-- Nothing of what comes after is taken by a scan for characters that are no terminators. -/
theorem takeWhile_append_after {p : Char → Bool} {after : List Char}
    (hp : ∀ ch, isNumTerminator ch = true → p ch = false)
    (hafter : ∀ ch, after.head? = some ch → isNumTerminator ch = true) (run : List Char) :
  (run ++ after).takeWhile p = run.takeWhile p ∧
    (run ++ after).dropWhile p = run.dropWhile p ++ after
  := by
  have hstop : after.takeWhile p = [] ∧ after.dropWhile p = after := by
    cases after with
    | nil => apply And.intro rfl rfl
    | cons ch after =>
      have hch := hp ch (hafter ch rfl)
      rw [List.takeWhile_cons_of_neg (by simp [hch]), List.dropWhile_cons_of_neg (by simp [hch])]
      apply And.intro rfl rfl
  induction run with
  | nil => apply hstop
  | cons ch run ih =>
    rw [List.cons_append]
    cases hch : p ch with
    | true =>
      rw [List.takeWhile_cons_of_pos hch, List.takeWhile_cons_of_pos hch,
        List.dropWhile_cons_of_pos hch, List.dropWhile_cons_of_pos hch, ih.1, ih.2]
      apply And.intro rfl rfl
    | false =>
      have hneg : ¬ p ch = true := by simp [hch]
      rw [List.takeWhile_cons_of_neg hneg, List.takeWhile_cons_of_neg hneg,
        List.dropWhile_cons_of_neg hneg, List.dropWhile_cons_of_neg hneg]
      apply And.intro rfl rfl

/-! ### Forms of runs -/

/-- A decimal number has digits only. -/
theorem isNum_of_isDecimal {run : List Char} (h : isDecimal run = true) {ch : Char}
    (hch : ch ∈ run) :
  isNum ch = true
  := by
  rw [isDecimal, Bool.and_eq_true, List.all_eq_true] at h
  apply h.2 ch hch

/-- A hexadecimal number has an `x`. -/
theorem any_isX_of_hexDigits {run digits : List Char} (h : hexDigits run = some digits) :
  run.any isX = true ∧ '.' ∉ run
  := by
  rw [hexDigits.eq_def] at h
  split at h
  case h_1 x ch rest =>
    split at h
    case isTrue hform =>
      obtain ⟨hx, hall⟩ := hform
      rw [List.all_eq_true] at hall
      constructor
      · rcases hx with rfl | rfl <;> rfl
      · intro hpoint
        rcases List.mem_cons.1 hpoint with hpoint | hpoint
        · cases hpoint
        rcases List.mem_cons.1 hpoint with rfl | hpoint
        · rcases hx with hx | hx <;> cases hx
        · cases hall '.' hpoint
    case isFalse => cases h
  case h_2 => cases h

/-- A float has a point. -/
theorem point_mem_of_floatFits {run : List Char} (h : floatFits run = true) :
  '.' ∈ run
  := by
  rw [floatFits] at h
  split at h
  case h_1 rest hrest =>
    apply List.dropWhile_subset isNum
    rw [hrest]
    apply List.mem_cons_self ..
  case h_2 => cases h

/-- The greatest number in place of a greater one is the same only up to multiples. -/
theorem ofNat_min_eq_iff {n k : Nat} (hk : k ≤ 2 ^ 64) (hpos : 0 < k) :
  BitVec.ofNat 64 (min n (k - 1)) = BitVec.ofNat 64 n ↔ n < k ∨ n % 2 ^ 64 = k - 1
  := by
  rw [← BitVec.toNat_inj, BitVec.toNat_ofNat, BitVec.toNat_ofNat]
  rcases Nat.lt_or_ge n k with hlt | hge
  · rw [Nat.min_eq_left (by omega)]
    simp [hlt]
  · rw [Nat.min_eq_right (by omega), Nat.mod_eq_of_lt (show k - 1 < 2 ^ 64 by omega), eq_comm]
    constructor
    · apply Or.inr
    · intro h
      apply h.resolve_left
      omega

/-! ### Integers -/

/-- The decimal digits at the start of a text are its run when this is a decimal number. -/
theorem takeWhile_isNum {text : List Char} (h : isDecimal (numberRun text) = true) :
  text.takeWhile isNum = numberRun text
  := by
  obtain ⟨after, htext, hafter⟩ := exists_after text
  have hscan := takeWhile_append_after (fun ch => isNum_of_isNumTerminator) hafter (numberRun text)
  rw [← htext] at hscan
  rw [hscan.1, List.takeWhile_eq_self_iff]
  intro ch hch
  apply isNum_of_isDecimal h hch

/-- A token from a run without an `x` and a point spells it exactly when it is a decimal number
that fits. -/
theorem spells_strtoll_iff {text : List Char} (hx : (numberRun text).any isX = false)
    (hpoint : '.' ∉ numberRun text) :
  (Token.i64 (strtoll text) false).Spells (numberRun text) ↔ fits text = true
  := by
  have hhex : ∀ digits, hexDigits (numberRun text) ≠ some digits := by
    intro digits h
    rw [(any_isX_of_hexDigits h).1] at hx
    cases hx
  have hhexFits : hexFits (numberRun text) = false := by
    rw [hexFits, Option.eq_none_iff_forall_ne_some.2 hhex]
    rfl
  have hfloat : floatFits (numberRun text) = false := by
    apply Bool.eq_false_iff.2
    intro h
    apply hpoint (point_mem_of_floatFits h)
  rw [fits, hhexFits, hfloat, Bool.or_false, Bool.or_false, decimalFits, Bool.and_eq_true,
    Token.Spells, Bool.or_eq_true, decide_eq_true_eq, decide_eq_true_eq,
    ← ofNat_min_eq_iff (by omega) (by omega)]
  constructor
  · rintro (⟨hdecimal, hvalue⟩ | ⟨digits, hdigits, -⟩)
    · rw [strtoll, takeWhile_isNum hdecimal] at hvalue
      apply And.intro hdecimal hvalue
    · cases hhex digits hdigits
  · rintro ⟨hdecimal, hvalue⟩
    left
    rw [strtoll, takeWhile_isNum hdecimal]
    apply And.intro hdecimal hvalue

/-- The hexadecimal digits of a text are those of its run. -/
theorem hexSubject_eq {text digits : List Char} (h : hexDigits (numberRun text) = some digits) :
  hexSubject text = digits
  := by
  obtain ⟨after, htext, hafter⟩ := exists_after text
  generalize hrun : numberRun text = run at h htext
  rw [hexDigits.eq_def] at h
  split at h
  case h_1 x ch rest =>
    split at h
    case isTrue hform =>
      cases h
      have hch : isHex ch = true := by
        rw [List.all_cons, Bool.and_eq_true] at hform
        apply hform.2.1
      have hscan := takeWhile_append_after (fun ch => isHex_of_isNumTerminator) hafter (ch :: rest)
      rw [htext, List.cons_append, List.cons_append, List.cons_append, hexSubject,
        if_pos (And.intro hform.1 hch), ← List.cons_append, hscan.1, List.takeWhile_eq_self_iff]
      rw [List.all_eq_true] at hform
      apply hform.2
    case isFalse => cases h
  case h_2 => cases h

/-- A token from a run with an `x` spells it exactly when it is a hexadecimal number that fits. -/
theorem spells_strtoull_iff {text : List Char} (hx : (numberRun text).any isX = true)
    (hpoint : '.' ∉ numberRun text) :
  (Token.i64 (strtoull text) true).Spells (numberRun text) ↔ fits text = true
  := by
  have hdecimal : isDecimal (numberRun text) = false := by
    apply Bool.eq_false_iff.2
    intro h
    obtain ⟨ch, hch, hisX⟩ := List.any_eq_true.1 hx
    have hnum := isNum_of_isDecimal h hch
    rw [isX, Bool.or_eq_true, decide_eq_true_eq, decide_eq_true_eq] at hisX
    rcases hisX with rfl | rfl <;> cases hnum
  have hfloat : floatFits (numberRun text) = false := by
    apply Bool.eq_false_iff.2
    intro h
    apply hpoint (point_mem_of_floatFits h)
  rw [fits, decimalFits, hdecimal, hfloat, Bool.false_and, Bool.false_or, Bool.or_false, hexFits,
    Token.Spells, hdecimal]
  cases hdigits : hexDigits (numberRun text) with
  | none => simp
  | some digits =>
    rw [Option.any_some, Bool.or_eq_true, decide_eq_true_eq, decide_eq_true_eq,
      ← ofNat_min_eq_iff (Nat.le_refl _) (by omega), strtoull, hexSubject_eq hdigits]
    simp

/-! ### Floats -/

/-- The digits at the start of a text have no point and no `f`. -/
theorem ne_of_mem_takeWhile_isNum {text : List Char} {ch : Char}
    (h : ch ∈ text.takeWhile isNum) :
  ch ≠ '.' ∧ ch ≠ 'f'
  := by
  have hnum := List.mem_takeWhile_imp h
  constructor
  · rintro rfl
    cases hnum
  · rintro rfl
    cases hnum

/-- An exponent has no point and no `f`. -/
theorem ne_of_mem_exponentSubject {text : List Char} {ch : Char}
    (h : ch ∈ exponentSubject text) :
  ch ≠ '.' ∧ ch ≠ 'f'
  := by
  rw [exponentSubject.eq_def] at h
  split at h
  case h_2 => cases h
  case h_1 e sign rest =>
    split at h
    case isFalse => cases h
    case isTrue he =>
      have hcons {ds : List Char} (hds : ∀ d ∈ ds, d ≠ '.' ∧ d ≠ 'f') (hch : ch ∈ e :: ds) :
          ch ≠ '.' ∧ ch ≠ 'f' := by
        rcases List.mem_cons.1 hch with rfl | hch
        · rcases he with rfl | rfl <;> decide
        · apply hds ch hch
      have hdigits (text : List Char) : ∀ d ∈ text.takeWhile isNum, d ≠ '.' ∧ d ≠ 'f' :=
        fun d hd => ne_of_mem_takeWhile_isNum hd
      split at h
      case isTrue hsign =>
        split at h
        · cases h
        · apply hcons _ h
          rw [List.forall_mem_cons]
          constructor
          · rcases hsign with rfl | rfl <;> decide
          · apply hdigits
      case isFalse hsign =>
        split at h
        · apply hcons (hdigits _) h
        · cases h

/-- The exponent at the start of a text is the rest of a run exactly when the rest is one. -/
theorem exponentSubject_eq_iff {rest after : List Char}
    (hrest : ∀ ch ∈ rest, isNumTerminator ch = false)
    (hafter : ∀ ch, after.head? = some ch → isNumTerminator ch = true) :
  exponentSubject (rest ++ after) = rest ↔ isExponent rest = true
  := by
  have hscan := takeWhile_append_after (fun ch => isNum_of_isNumTerminator) hafter
  have hnoE {e : Char} (h : isNumTerminator e = true) : ¬ (e = 'e' ∨ e = 'E') := by
    rintro (rfl | rfl) <;> cases h
  match rest with
  | [] =>
    rw [isExponent, eq_self_iff_true, iff_true, List.nil_append]
    match after with
    | [] | [_] => rfl
    | e :: sign :: after => rw [exponentSubject, if_neg (hnoE (hafter e rfl))]
  | [e] =>
    rw [isExponent, isDecimal, List.isEmpty_nil, Bool.not_true, Bool.false_and, Bool.and_false]
    match after with
    | [] => simp [exponentSubject]
    | sign :: after =>
      have hsign := isNum_of_isNumTerminator (hafter sign rfl)
      rw [List.cons_append, List.nil_append, exponentSubject, hsign]
      split
      · split
        · split <;> simp
        · simp
      · simp
  | e :: d :: rest =>
    have hd : ¬ (d = '+' ∨ d = '-') := by
      have := hrest d (List.mem_cons_of_mem _ (List.mem_cons_self ..))
      rintro (rfl | rfl) <;> cases this
    rw [List.cons_append, List.cons_append, exponentSubject, if_neg hd, isExponent,
      ← List.cons_append, (hscan (d :: rest)).1]
    simp only [Bool.and_eq_true, Bool.or_eq_true, decide_eq_true_eq, isDecimal, List.isEmpty_cons,
      Bool.not_false, true_and, List.all_cons]
    split
    case isFalse he => simp [he]
    case isTrue he =>
      cases hnum : isNum d with
      | false => simp
      | true =>
        simp only [if_true, List.cons.injEq, true_and, he, List.takeWhile_eq_self_iff,
          List.forall_mem_cons, hnum, List.all_eq_true]

/-- What `strtold` converts of digits and what comes after them. -/
theorem strtoldSubject_eq {text rest : List Char} (h : text.dropWhile isNum = rest)
    (hpoint : ∀ rest', rest ≠ '.' :: rest') :
  strtoldSubject text = text.takeWhile isNum ++ exponentSubject rest
  := by
  rw [strtoldSubject, h]
  split
  case h_1 rest' => cases hpoint rest' rfl
  case h_2 => rfl

/-- A token that is converted as a float spells its run exactly when this is a float. -/
theorem spells_strtold_iff {text : List Char} (hx : (numberRun text).any isX = false)
    (hfloat : '.' ∈ numberRun text ∨ 'f' ∈ numberRun text) :
  (Token.f64 (strtoldSubject text)).Spells (numberRun text) ↔ fits text = true
  := by
  have hdecimal : isDecimal (numberRun text) = false := by
    apply Bool.eq_false_iff.2
    intro h
    rcases hfloat with hch | hch <;> cases isNum_of_isDecimal h hch
  have hhexFits : hexFits (numberRun text) = false := by
    rw [hexFits, Option.any_eq_false]
    intro digits hdigits
    rw [(any_isX_of_hexDigits hdigits).1] at hx
    cases hx
  rw [fits, decimalFits, hdecimal, hhexFits, Bool.false_and, Bool.false_or, Bool.false_or,
    Token.Spells]
  obtain ⟨after, htext, hafter⟩ := exists_after text
  have hrun : ∀ ch ∈ numberRun text, isNumTerminator ch = false := by
    intro ch hch
    have hnot := List.mem_takeWhile_imp hch
    simpa using hnot
  have hscan := takeWhile_append_after (fun ch => isNum_of_isNumTerminator) hafter
  have hsplit := List.takeWhile_append_dropWhile (p := isNum) (l := numberRun text)
  generalize numberRun text = run at *
  obtain ⟨htake, hdrop⟩ := hscan run
  rw [← htext] at htake hdrop
  rw [floatFits]
  cases hrest : run.dropWhile isNum with
  | nil =>
    -- a run of digits alone is no float
    rw [hrest, List.append_nil] at hsplit
    rw [← hsplit] at hfloat
    rcases hfloat with hch | hch
    · cases (ne_of_mem_takeWhile_isNum hch).1 rfl
    · cases (ne_of_mem_takeWhile_isNum hch).2 rfl
  | cons ch rest =>
    rw [hrest] at hdrop hsplit
    by_cases hpoint : ch = '.'
    · subst hpoint
      have hmem : ∀ ch ∈ rest.dropWhile isNum, isNumTerminator ch = false := by
        intro ch hch
        apply hrun
        rw [← hsplit]
        apply List.mem_append_right _ (List.mem_cons_of_mem _ (List.dropWhile_subset isNum hch))
      rw [strtoldSubject, hdrop, htake]
      change run.takeWhile isNum ++ '.' :: (rest ++ after).takeWhile isNum
          ++ exponentSubject ((rest ++ after).dropWhile isNum) = run
        ↔ isExponent (rest.dropWhile isNum) = true
      rw [(hscan rest).1, (hscan rest).2, ← exponentSubject_eq_iff hmem hafter]
      conv =>
        lhs
        rhs
        rw [← hsplit, ← List.takeWhile_append_dropWhile (p := isNum) (l := rest)]
      rw [List.append_assoc, List.cons_append, List.append_cancel_left_eq, List.cons.injEq,
        List.append_cancel_left_eq, eq_self_iff_true, true_and]
    · -- what is converted stops before the point or the `f`
      have hne : ∀ rest', ch :: rest ++ after ≠ '.' :: rest' := by
        intro rest' h
        cases hpoint (List.cons.inj h).1
      rw [strtoldSubject_eq hdrop hne, htake]
      split
      case h_1 rest' heq => cases hpoint (List.cons.inj heq).1
      case h_2 =>
        simp only [Bool.false_eq_true, iff_false]
        intro heq
        rw [← heq] at hfloat
        have hall : ∀ c ∈ run.takeWhile isNum ++ exponentSubject (ch :: rest ++ after),
            c ≠ '.' ∧ c ≠ 'f' := by
          rw [List.forall_mem_append]
          constructor
          · intro c hc
            apply ne_of_mem_takeWhile_isNum hc
          · intro c hc
            apply ne_of_mem_exponentSubject hc
        rcases hfloat with hch | hch
        · cases (hall _ hch).1 rfl
        · cases (hall _ hch).2 rfl

/-! ### The token -/

/-- A numeric token means what its run of characters spells exactly when the run is a literal that
is converted well. -/
theorem lexNumeric_spells_iff {text taken : List Char} {token : Token}
    (h : lexNumeric text = some (token, taken)) :
  taken = numberRun text ∧ (token.Spells taken ↔ fits text = true)
  := by
  obtain ⟨s, hs, heq⟩ := Option.map_eq_some_iff.1 h
  obtain ⟨hscan, hboth⟩ := countNumberLen_eq_some hs
  have htaken : taken = numberRun text := by
    obtain ⟨after, htext, -⟩ := exists_after text
    have htake := congrArg (List.take (numberRun text).length) htext
    rw [List.take_left] at htake
    rw [← (Prod.mk.inj heq).2, hscan.len, Nat.zero_add, htake]
  have hx := hscan.ishex
  have hpoint := hscan.isfloat
  have hfloat := hscan.float
  rw [Bool.false_or] at hx
  constructor
  · apply htaken
  · rw [htaken, ← (Prod.mk.inj heq).1]
    cases hisfloat : s.isfloat with
    | true =>
      rw [if_pos rfl]
      rw [hisfloat, Bool.true_and] at hboth
      apply spells_strtold_iff (by rw [← hx, hboth])
      apply (hfloat hisfloat).resolve_left
      apply Bool.false_ne_true
    | false =>
      rw [if_neg Bool.false_ne_true]
      have hno : '.' ∉ numberRun text := by
        intro hmem
        rw [hpoint hmem] at hisfloat
        cases hisfloat
      cases hishex : s.ishex with
      | true =>
        rw [if_pos rfl]
        apply spells_strtoull_iff (by rw [← hx, hishex]) hno
      | false =>
        rw [if_neg Bool.false_ne_true]
        apply spells_strtoll_iff (by rw [← hx, hishex]) hno

/-- A float without the sign of an exponent is one token. -/
theorem lexNumeric_spells_float :
  lexNumeric "1.5e3;".toList = some (.f64 "1.5e3".toList, "1.5e3".toList) ∧
    ((Token.f64 "1.5e3".toList).Spells "1.5e3".toList ↔ fits "1.5e3;".toList = true)
  := by
  have h : lexNumeric "1.5e3;".toList = some (.f64 "1.5e3".toList, "1.5e3".toList) := by
    decide +kernel
  apply And.intro h (lexNumeric_spells_iff h).2

/-- A number that is no hexadecimal one is misread when its digits do not give the value. -/
theorem not_spells_i64 {run : List Char} {value : BitVec 64} (ishex : Bool)
    (hhex : hexDigits run = none)
    (hdecimal : isDecimal run = false ∨ value ≠ BitVec.ofNat 64 (number 10 run)) :
  ¬ (Token.i64 value ishex).Spells run
  := by
  rintro (⟨hform, hvalue⟩ | ⟨digits, hdigits, -⟩)
  · rcases hdecimal with h | h
    · rw [hform] at h
      cases h
    · apply h hvalue
  · rw [hhex] at hdigits
    cases hdigits

/-- The least number that is too great for `strtoll`, digits with letters and a float whose
exponent has a sign are accepted as something else than they spell. -/
theorem not_lexNumeric_spells :
  (∃ token run, lexNumeric "9223372036854775808;".toList = some (token, run) ∧
      ¬ token.Spells run) ∧
    (∃ token run, lexNumeric "12ab;".toList = some (token, run) ∧ ¬ token.Spells run) ∧
    (∃ token run, lexNumeric "0b11;".toList = some (token, run) ∧ ¬ token.Spells run) ∧
    ∃ token run, lexNumeric "1.5e-3;".toList = some (token, run) ∧ ¬ token.Spells run
  := by
  have hlong : lexNumeric "9223372036854775808;".toList
      = some (.i64 0x7FFFFFFFFFFFFFFF false, "9223372036854775808".toList) := by decide +kernel
  have hletters : lexNumeric "12ab;".toList = some (.i64 12 false, "12ab".toList) := by
    decide +kernel
  have hbinary : lexNumeric "0b11;".toList = some (.i64 0 false, "0b11".toList) := by
    decide +kernel
  have hsign : lexNumeric "1.5e-3;".toList = some (.f64 "1.5e-3".toList, "1.5e".toList) := by
    decide +kernel
  constructor
  · refine ⟨_, _, hlong, not_spells_i64 _ (by decide +kernel) (Or.inr (by decide +kernel))⟩
  constructor
  · refine ⟨_, _, hletters, not_spells_i64 _ (by decide +kernel) (Or.inl (by decide +kernel))⟩
  constructor
  · refine ⟨_, _, hbinary, not_spells_i64 _ (by decide +kernel) (Or.inl (by decide +kernel))⟩
  · refine ⟨_, _, hsign, ?_⟩
    intro h
    have hlength := congrArg List.length h
    cases hlength

end Polyc.Numeric
