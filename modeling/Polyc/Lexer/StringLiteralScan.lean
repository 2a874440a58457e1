import Mathlib.Data.List.Induction
import Polyc.Lexer.StringLiteral

/-!
# The scan of string literals

The scanner takes the elements of a literal one by one.  What it stores, its counters and the
room that is left in its buffer are read off the elements.
-/

namespace Polyc.StringLiteral

open Numeric

/-! ### What is stored of an element -/

/-- What is stored of a typed character. -/
def storedTyped (ch : Char) : List Char :=
  match ch with
  | '\n' => ['\\', 'n']
  | '\t' => ['\\', 't']
  | '\r' => ['\\', 'r']
  | '\x0C' => ['\\', 'f']
  | '\x0B' => ['\\', 'x', '0', 'B']
  | ch => [ch]

/-- What is stored of an element. -/
def Elem.stored : Elem → List Char
  | typed ch _ => storedTyped ch
  | escape .verticalTab => ['\\', 'x', '0', 'B']
  | escape e => ['\\', e.letter]
  | bytes _ h₁ h₂ => ['\\', 'x', h₁.val.toUpper, h₂.val.toUpper]

/-- What is stored of a literal. -/
def stored (lit : List Elem) : List Char := lit.flatMap Elem.stored

/-- The control characters one by one. -/
theorem isControl_cases {ch : Char} (h : isControl ch = true) :
  ch = '\n' ∨ ch = '\t' ∨ ch = '\r' ∨ ch = '\x0C' ∨ ch = '\x0B'
  := by
  simpa only [isControl, Bool.or_eq_true, decide_eq_true_eq, or_assoc] using h

/-- A character that is no control character is stored as it is. -/
theorem storedTyped_of_not_isControl {ch : Char} (h : isControl ch = false) :
  storedTyped ch = [ch]
  := by
  simp only [isControl, Bool.or_eq_false_iff, decide_eq_false_iff_not] at h
  obtain ⟨⟨⟨⟨hn, ht⟩, hr⟩, hf⟩, hv⟩ := h
  simp only [storedTyped]

/-- The scanner stores a typed character. -/
theorem lexTyped_eq (b : Buffer) (ch : Char) :
  lexTyped b ch = b.puts (storedTyped ch)
  := by
  cases hc : isControl ch with
  | false =>
    rw [storedTyped_of_not_isControl hc]
    simp only [isControl, Bool.or_eq_false_iff, decide_eq_false_iff_not] at hc
    obtain ⟨⟨⟨⟨hn, ht⟩, hr⟩, hf⟩, hv⟩ := hc
    simp only [lexTyped]
    rfl
  | true =>
    rcases isControl_cases hc with rfl | rfl | rfl | rfl | rfl <;> rfl

/-- An element is stored with its width. -/
theorem Elem.stored_length (e : Elem) :
  e.stored.length = e.width
  := by
  cases e with
  | typed ch h =>
    cases hc : isControl ch with
    | false =>
      simp only [stored, storedTyped_of_not_isControl hc, width, isPlain, hc]
      rfl
    | true =>
      rcases isControl_cases hc with rfl | rfl | rfl | rfl | rfl <;> rfl
  | escape e => cases e <;> rfl
  | bytes capital h₁ h₂ => rfl

/-- A literal is stored with the sum of the widths. -/
theorem stored_length (lit : List Elem) :
  (stored lit).length = (lit.map Elem.width).sum
  := by
  rw [stored, List.length_flatMap]
  congr 1
  apply List.map_congr_left
  rintro e -
  apply e.stored_length

/-! ### The scan -/

/-- The scanner after an element. -/
def Buffer.absorb (b : Buffer) (e : Elem) : Buffer :=
  { b.next.puts e.stored with isBytes := b.isBytes || e.isBytes }

@[simp]
theorem Buffer.puts_text (b : Buffer) (chs : List Char) :
  (b.puts chs).text = b.text ++ chs
  := by
  induction chs generalizing b with
  | nil => simp [puts]
  | cons ch chs ih =>
    apply (ih (b.put ch)).trans
    simp [put]

@[simp]
theorem Buffer.puts_capacity (b : Buffer) (chs : List Char) :
  (b.puts chs).capacity = b.capacity
  := by
  induction chs generalizing b with
  | nil => rfl
  | cons ch chs ih => apply ih (b.put ch)

@[simp]
theorem Buffer.puts_realLen (b : Buffer) (chs : List Char) :
  (b.puts chs).realLen = b.realLen
  := by
  induction chs generalizing b with
  | nil => rfl
  | cons ch chs ih => apply ih (b.put ch)

@[simp]
theorem Buffer.puts_isBytes (b : Buffer) (chs : List Char) :
  (b.puts chs).isBytes = b.isBytes
  := by
  induction chs generalizing b with
  | nil => rfl
  | cons ch chs ih => apply ih (b.put ch)

/-- An element that is no byte by its digits leaves the flag. -/
theorem Buffer.absorb_of_not_isBytes (b : Buffer) {e : Elem} (h : e.isBytes = false) :
  b.absorb e = b.next.puts e.stored
  := by
  have hflag : (b.next.puts e.stored).isBytes = b.isBytes := b.next.puts_isBytes e.stored
  rw [absorb, h, Bool.or_false, ← hflag]

/-- Writes that there is room for are inside of the buffer. -/
theorem Buffer.puts_overrun {b : Buffer} {chs : List Char}
    (h : b.text.length + chs.length ≤ b.capacity) :
  (b.puts chs).overrun = b.overrun
  := by
  induction chs generalizing b with
  | nil => rfl
  | cons ch chs ih =>
    rw [List.length_cons] at h
    have hput : (b.put ch).text.length + chs.length ≤ (b.put ch).capacity := by
      simp only [put, List.length_append, List.length_singleton]
      omega
    apply (ih hput).trans
    simp only [put, Bool.or_eq_left_iff_imp, decide_eq_true_eq]
    omega

/-- A write beyond the buffer is not undone. -/
theorem Buffer.overrun_puts {b : Buffer} (h : b.overrun = true) (chs : List Char) :
  (b.puts chs).overrun = true
  := by
  induction chs generalizing b with
  | nil => apply h
  | cons ch chs ih =>
    apply ih
    rw [put, h, Bool.true_or]

/-- A buffer of no capacity has no room for a character. -/
theorem Buffer.overrun_of_capacity {b : Buffer} (h : b.capacity = 0) {chs : List Char}
    (hne : chs ≠ []) :
  (b.puts chs).overrun = true
  := by
  cases chs with
  | nil => cases hne rfl
  | cons ch chs =>
    have hwrite : (b.put ch).overrun = true := by simp [put, h]
    exact Buffer.overrun_puts hwrite chs

/-- The branch of the scanner for an escape of one letter. -/
theorem lexEscape_letter (permissive : Bool) (b : Buffer) (e : Escape) (src : List Char) :
  lexEscape permissive b (e.letter :: src) = some (b.puts (Elem.escape e).stored, src)
  := by
  cases e <;> rfl

/-- The branch of the scanner for a byte by its digits. -/
theorem lexEscape_bytes (permissive : Bool) (b : Buffer) (capital : Bool) (h₁ h₂ : HexDigit)
    (src : List Char) :
  lexEscape permissive b ((if capital then 'X' else 'x') :: h₁.val :: h₂.val :: src)
    = some ({ b.puts (Elem.bytes capital h₁ h₂).stored with isBytes := true }, src)
  := by
  cases capital <;> rfl

/-- The loop takes an element. -/
theorem lexStringLoop_elem (permissive : Bool) (b : Buffer) (e : Elem) (src : List Char) :
  lexStringLoop permissive '\x22' b (e.spell ++ src)
    = lexStringLoop permissive '\x22' (b.absorb e) src
  := by
  cases e with
  | typed ch h =>
    rw [Elem.spell, List.singleton_append, lexStringLoop.eq_def]
    simp only [h.1, h.2.1, if_false, lexTyped_eq]
    rw [Buffer.absorb_of_not_isBytes b rfl]
    rfl
  | escape e =>
    rw [Elem.spell, List.cons_append, List.singleton_append, lexStringLoop.eq_def]
    simp only [Char.reduceEq, if_false, if_true]
    split
    case h_1 h => simp [lexEscape_letter] at h
    case h_2 h =>
      simp only [lexEscape_letter, Option.some.injEq, Prod.mk.injEq] at h
      rw [← h.1, ← h.2, Buffer.absorb_of_not_isBytes b rfl]
  | bytes capital h₁ h₂ =>
    rw [Elem.spell, lexStringLoop.eq_def]
    simp only [List.cons_append, List.nil_append, Char.reduceEq, if_false, if_true]
    split
    case h_1 h => simp [lexEscape_bytes] at h
    case h_2 h =>
      simp only [lexEscape_bytes, Option.some.injEq, Prod.mk.injEq] at h
      rw [← h.1, ← h.2]
      congr 1
      simp [Buffer.absorb, Elem.isBytes]

/-- The loop takes the elements of a literal and its closing quote. -/
theorem lexStringLoop_spell (permissive : Bool) (b : Buffer) (lit : List Elem)
    (rest : List Char) :
  lexStringLoop permissive '\x22' b (spell lit ++ rest) = some (lit.foldl Buffer.absorb b, rest)
  := by
  induction lit generalizing b with
  | nil =>
    rw [lexStringLoop.eq_def]
    rfl
  | cons e lit ih =>
    have hspell : spell (e :: lit) ++ rest = e.spell ++ (spell lit ++ rest) := by
      simp [spell]
    rw [hspell, lexStringLoop_elem, ih]
    rfl

/-! ### The counters -/

/-- The scanner has stored what is stored of the elements. -/
theorem foldl_absorb_text (b : Buffer) (lit : List Elem) :
  (lit.foldl Buffer.absorb b).text = b.text ++ stored lit
  := by
  induction lit generalizing b with
  | nil => simp [stored]
  | cons e lit ih =>
    rw [List.foldl_cons, ih]
    simp [Buffer.absorb, Buffer.next, stored]

/-- The scanner has counted the elements. -/
theorem foldl_absorb_realLen (b : Buffer) (lit : List Elem) :
  (lit.foldl Buffer.absorb b).realLen = b.realLen + lit.length
  := by
  induction lit generalizing b with
  | nil => simp
  | cons e lit ih =>
    rw [List.foldl_cons, ih, List.length_cons]
    simp only [Buffer.absorb, Buffer.puts_realLen, Buffer.next]
    push_cast
    ring

/-- The scanner has seen whether there are bytes by their digits. -/
theorem foldl_absorb_isBytes (b : Buffer) (lit : List Elem) :
  (lit.foldl Buffer.absorb b).isBytes = (b.isBytes || lit.any Elem.isBytes)
  := by
  induction lit generalizing b with
  | nil => simp
  | cons e lit ih =>
    rw [List.foldl_cons, ih, List.any_cons, ← Bool.or_assoc]
    rfl

/-! ### The room in the buffer -/

/-- The capacity of a buffer was doubled only when the text, of length `len`, came close. -/
def Grown (capacity len : Nat) : Prop :=
  ∃ k ≤ 25, capacity = 64 * 2 ^ k ∧ (k = 0 ∨ capacity ≤ 2 * (len + 3))

/-- A buffer whose writes were all inside of it. -/
structure Buffer.Fits (b : Buffer) : Prop where
  inside : b.overrun = false
  length_le : b.text.length ≤ b.capacity
  grown : Grown b.capacity b.text.length

/-- There is room for four characters before an element. -/
theorem Buffer.Fits.next {b : Buffer} (h : b.Fits) (hshort : b.text.length + 3 < 2 ^ 31) :
  b.text.length + 3 < b.next.capacity ∧ Grown b.next.capacity b.text.length
  := by
  obtain ⟨k, hk, hcap, hgrown⟩ := h.grown
  have hpos : 0 < 2 ^ k := Nat.two_pow_pos k
  have hle := h.length_le
  have hlen : (b.text.length + 3) % 2 ^ 32 = b.text.length + 3 := Nat.mod_eq_of_lt (by omega)
  simp only [Buffer.next, hlen]
  split
  case isTrue hfull =>
    have hdouble : b.capacity * 2 % 2 ^ 32 = b.capacity * 2 := Nat.mod_eq_of_lt (by omega)
    have hk' : k < 25 := by
      rw [← Nat.pow_lt_pow_iff_right (a := 2) (by omega)]
      omega
    rw [hdouble]
    constructor
    · omega
    · use k + 1, hk'
      rw [pow_succ]
      omega
  case isFalse hroom =>
    constructor
    · omega
    · use k

/-- When the text comes close to 2³¹ characters, the capacity becomes zero. -/
theorem Buffer.Fits.next_of_long {b : Buffer} (h : b.Fits) (hlong : 2 ^ 31 ≤ b.text.length + 3) :
  b.next.capacity = 0
  := by
  obtain ⟨k, hk, hcap, -⟩ := h.grown
  have hle := h.length_le
  have hk' : 24 < k := by
    rw [← Nat.pow_lt_pow_iff_right (a := 2) (by omega)]
    omega
  obtain rfl : k = 25 := by omega
  have hlen : (b.text.length + 3) % 2 ^ 32 = b.text.length + 3 := Nat.mod_eq_of_lt (by omega)
  simp only [Buffer.next, hlen, hcap]
  rw [if_pos (by omega)]
  rfl

/-- An element is at most four characters wide. -/
theorem Elem.width_le (e : Elem) :
  e.width ≤ 4
  := by
  simp only [width]
  split
  · omega
  · split <;> omega

/-- The writes of an element are inside of the buffer. -/
theorem Buffer.Fits.absorb {b : Buffer} (h : b.Fits) (hshort : b.text.length + 3 < 2 ^ 31)
    (e : Elem) :
  (b.absorb e).Fits ∧ (b.absorb e).capacity = b.next.capacity
  := by
  obtain ⟨hroom, k, hk, hbound, hgrown⟩ := h.next hshort
  have hle := e.width_le
  have hlen : e.stored.length = e.width := e.stored_length
  have htext : (b.absorb e).text.length = b.text.length + e.width := by
    rw [Buffer.absorb, Buffer.puts_text, List.length_append, hlen]
    rfl
  have hcap : (b.absorb e).capacity = b.next.capacity := b.next.puts_capacity e.stored
  refine ⟨⟨?_, ?_, k, hk, ?_⟩, hcap⟩
  · have hputs : (b.next.puts e.stored).overrun = b.overrun := by
      apply Buffer.puts_overrun
      rw [hlen]
      change b.text.length + e.width ≤ _
      omega
    apply hputs.trans h.inside
  · omega
  · omega

/-- Something is stored of an element. -/
theorem Elem.stored_ne_nil (e : Elem) :
  e.stored ≠ []
  := by
  apply List.ne_nil_of_length_pos
  rw [e.stored_length, width]
  split
  · omega
  · split <;> omega

/-- The first write of an element is beyond a buffer that came close to 2³¹ characters. -/
theorem Buffer.Fits.overrun_absorb {b : Buffer} (h : b.Fits)
    (hlong : 2 ^ 31 ≤ b.text.length + 3) (e : Elem) :
  (b.absorb e).overrun = true
  := Buffer.overrun_of_capacity (h.next_of_long hlong) e.stored_ne_nil

/-- The buffer that a scan starts with. -/
theorem fits_start :
  Buffer.Fits ⟨[], 64, 0, false, false⟩
  where
  inside := rfl
  length_le := Nat.zero_le _
  grown := ⟨0, Nat.zero_le _, rfl, Or.inl rfl⟩

/-- The scanner has stored a literal. -/
theorem foldl_absorb_length (lit : List Elem) :
  (lit.foldl Buffer.absorb ⟨[], 64, 0, false, false⟩).text.length = (lit.map Elem.width).sum
  := by
  rw [foldl_absorb_text, List.nil_append, stored_length]

/-- Of a literal with one more element. -/
theorem short_append (lit : List Elem) (e : Elem) :
  Short (lit ++ [e]) ↔ (lit.map Elem.width).sum + 3 < 2 ^ 31
  := by
  rw [Short, List.dropLast_concat]

/-- A literal without its last element is short when its text is. -/
theorem short_of_sum {lit : List Elem} (h : (lit.map Elem.width).sum + 3 < 2 ^ 31) :
  Short lit
  := by
  cases lit using List.reverseRecOn with
  | nil => apply h
  | append_singleton lit e =>
    rw [List.map_append, List.sum_append] at h
    rw [short_append]
    omega

/-- The writes of a short literal are inside of the buffer, and one of a long literal is not. -/
theorem foldl_absorb_fits (lit : List Elem) :
  (Short lit → (lit.foldl Buffer.absorb ⟨[], 64, 0, false, false⟩).Fits)
    ∧ (¬ Short lit → (lit.foldl Buffer.absorb ⟨[], 64, 0, false, false⟩).overrun = true)
  := by
  induction lit using List.reverseRecOn with
  | nil => exact ⟨fun _ => fits_start, fun h => absurd (short_of_sum (by decide)) h⟩
  | append_singleton lit e ih =>
    have hlen := foldl_absorb_length lit
    rw [short_append, List.foldl_append, List.foldl_cons, List.foldl_nil]
    constructor
    · intro h
      exact ((ih.1 (short_of_sum h)).absorb (by rwa [hlen]) e).1
    · intro h
      by_cases hlit : Short lit
      · exact (ih.1 hlit).overrun_absorb (by omega) e
      · exact Buffer.overrun_puts (b := Buffer.next _) (ih.2 hlit) e.stored

/-- A wide element is four characters wide, and no other one is. -/
theorem Elem.width_eq_four (e : Elem) :
  e.width = 4 ↔ e.isWide = true
  := by
  cases e with
  | typed ch h =>
    simp only [width, isPlain, isWide, isControl, Bool.not_eq_true', Bool.or_eq_false_iff,
      decide_eq_false_iff_not, decide_eq_true_eq]
    split <;> rename_i hc
    · simp [hc.2]
    · split <;> simp_all
  | escape e => cases e <;> simp [width, isPlain, isWide]
  | bytes capital h₁ h₂ => simp [width, isPlain, isWide]

/-- There is no room for the terminator exactly after a wide element that fills the buffer. -/
theorem foldl_absorb_full_iff {lit : List Elem} (hshort : Short lit) :
  (lit.foldl Buffer.absorb ⟨[], 64, 0, false, false⟩).capacity
      ≤ (lit.foldl Buffer.absorb ⟨[], 64, 0, false, false⟩).text.length
    ↔ FillsBuffer lit
  := by
  induction lit using List.reverseRecOn with
  | nil => simp [FillsBuffer]
  | append_singleton lit e _ =>
    rw [short_append] at hshort
    have hfits := (foldl_absorb_fits lit).1 (short_of_sum hshort)
    have hlen := foldl_absorb_length lit
    rw [← hlen] at hshort
    rw [foldl_absorb_length, List.foldl_append, List.foldl_cons, List.foldl_nil,
      (hfits.absorb hshort e).2, FillsBuffer]
    obtain ⟨hroom, k, -, hk, hgrown⟩ := hfits.next hshort
    have hle := e.width_le
    have hwide := e.width_eq_four
    rw [hlen] at hroom hgrown
    simp only [List.getLast?_append, List.getLast?_singleton, Option.some_or, Option.any_some,
      List.map_append, List.map_cons, List.map_nil, List.sum_append, List.sum_singleton]
    constructor
    · intro h
      constructor
      · apply hwide.1
        omega
      · use k
        omega
    · rintro ⟨he, j, hj⟩
      have h4 := hwide.2 he
      have hjk : ¬ j < k := by
        intro hjk
        have hpow : 2 ^ (j + 1) ≤ 2 ^ k := Nat.pow_le_pow_right (by omega) hjk
        rw [pow_succ] at hpow
        omega
      have hpow : 2 ^ k ≤ 2 ^ j := Nat.pow_le_pow_right (by omega) (Nat.le_of_not_lt hjk)
      omega

end Polyc.StringLiteral
