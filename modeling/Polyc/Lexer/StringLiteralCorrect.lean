import Mathlib.Data.List.Chain
import Polyc.Lexer.StringLiteralScan

/-!
# String literals keep one length and one content

What is stored of an element decodes to the character that the element stands for, unless it is
the null character and an octal digit comes next, which the decoder takes for a digit of the
escape.  Then fewer characters come out than the literal has.
-/

namespace Polyc.StringLiteral

open Numeric

/-! ### Digits -/

/-- A hexadecimal digit is one of the first characters. -/
theorem toNat_lt_of_isHex {ch : Char} (h : isHex ch = true) :
  ch.toNat < 103
  := by
  simp only [isHex, isNum, Bool.or_eq_true, Bool.and_eq_true, decide_eq_true_eq] at h
  have hle {c d : Char} (h : c ≤ d) : c.toNat ≤ d.toNat := h
  rcases h with (h | h) | h
  · apply lt_of_le_of_lt (hle h.2)
    decide
  · apply lt_of_le_of_lt (hle h.2)
    decide
  · apply lt_of_le_of_lt (hle h.2)
    decide

/-- A hexadecimal digit stays one with the same number when it is made a capital. -/
theorem isHex_toUpper {ch : Char} (h : isHex ch = true) :
  isHex ch.toUpper = true ∧ digit ch.toUpper = digit ch ∧ digit ch < 16
  := by
  have hall : ∀ n < 103, isHex (Char.ofNat n) = true →
      isHex (Char.ofNat n).toUpper = true ∧
        digit (Char.ofNat n).toUpper = digit (Char.ofNat n) ∧ digit (Char.ofNat n) < 16 := by
    decide +kernel
  have hch := hall ch.toNat (toNat_lt_of_isHex h)
  rw [Char.ofNat_toNat] at hch
  apply hch h

/-- Two hexadecimal digits are read as the number that they are. -/
theorem readDigits_hex (h₁ h₂ : HexDigit) (s : List Char) :
  readDigits 16 isHex 2 0 (h₁.val.toUpper :: h₂.val.toUpper :: s)
    = (digit h₁.val * 16 + digit h₂.val, s)
  := by
  obtain ⟨hx₁, hd₁, -⟩ := isHex_toUpper h₁.property
  obtain ⟨hx₂, hd₂, -⟩ := isHex_toUpper h₂.property
  simp only [readDigits, hx₁, hx₂, hd₁, hd₂, if_true, Nat.zero_mul, Nat.zero_add]

/-- No digit is read where none comes. -/
theorem readDigits_of_head (base n v : Nat) (p : Char → Bool) {s : List Char}
    (h : ∀ ch ∈ s.head?, p ch = false) :
  readDigits base p n v s = (v, s)
  := by
  cases n with
  | zero => rfl
  | succ n =>
    cases s with
    | nil => rfl
    | cons ch s =>
      have hp := h ch rfl
      rw [readDigits, hp]
      rfl

/-- An octal digit is no control character and no backslash. -/
theorem isControl_of_isOctal {ch : Char} (h : isOctal ch = true) :
  isControl ch = false
  := by
  cases hc : isControl ch with
  | false => rfl
  | true => rcases isControl_cases hc with rfl | rfl | rfl | rfl | rfl <;> cases h

/-! ### An element -/

/-- The null character, or the digit that would be taken for a digit of its escape. -/
theorem Elem.apart_zero (e : Elem) :
  (Elem.Apart (.escape .zero) e ∧ ∀ ch ∈ e.stored.head?, isOctal ch = false) ∨
    (¬ Elem.Apart (.escape .zero) e ∧ ∃ ch, isOctal ch = true ∧ e.stored = [ch])
  := by
  cases e with
  | typed ch h =>
    cases ho : isOctal ch with
    | true =>
      right
      constructor
      · rw [Apart, ho]
        intro h
        cases h
      · use ch, ho
        apply storedTyped_of_not_isControl (isControl_of_isOctal ho)
    | false =>
      left
      use ho
      cases hc : isControl ch with
      | false =>
        rw [stored, storedTyped_of_not_isControl hc]
        rintro _ ⟨⟩
        apply ho
      | true =>
        rcases isControl_cases hc with rfl | rfl | rfl | rfl | rfl <;> rintro _ ⟨⟩ <;> rfl
  | escape e =>
    left
    use trivial
    cases e <;> rintro _ ⟨⟩ <;> rfl
  | bytes capital h₁ h₂ =>
    left
    use trivial
    rintro _ ⟨⟩
    rfl

/-- A character that is no backslash decodes to itself. -/
theorem decode_cons_of_ne {ch : Char} (h : ch ≠ '\\') (s : List Char) :
  decode (ch :: s) = ch :: decode s
  := by
  cases s with
  | nil => rw [decode, decode]
  | cons n s => rw [decode, if_pos h]

/-- A backslash and the character after it are an escape. -/
theorem decode_escape (n : Char) (s : List Char) :
  decode ('\\' :: n :: s) = (decodeEscape n s).1 :: decode (decodeEscape n s).2
  := by
  rw [decode, if_neg (not_not_intro rfl)]

/-- The escape of a null character is read as an octal number. -/
theorem decode_zero_cons (s : List Char) :
  decode ('\\' :: '0' :: s)
    = byte (readDigits 8 isOctal 2 0 s).1 :: decode (readDigits 8 isOctal 2 0 s).2
  := decode_escape '0' s

/-- What is stored of an element decodes to the character that it stands for, unless it is the
null character before a digit. -/
theorem decode_elem (e : Elem) {s : List Char}
    (h : e = .escape .zero → ∀ ch ∈ s.head?, isOctal ch = false) :
  decode (e.stored ++ s) = e.value :: decode s
  := by
  cases e with
  | typed ch hch =>
    cases hc : isControl ch with
    | false =>
      rw [Elem.stored, storedTyped_of_not_isControl hc]
      apply decode_cons_of_ne hch.2.1
    | true =>
      rcases isControl_cases hc with rfl | rfl | rfl | rfl | rfl <;> apply decode_escape
  | escape e =>
    cases e
    case zero =>
      apply (decode_zero_cons s).trans
      rw [readDigits_of_head 8 2 0 isOctal (h rfl)]
      rfl
    all_goals apply decode_escape
  | bytes capital h₁ h₂ =>
    apply (decode_escape 'x' _).trans
    have hescape : decodeEscape 'x' (h₁.val.toUpper :: h₂.val.toUpper :: s)
        = (byte (digit h₁.val * 16 + digit h₂.val), s) := by
      apply (congrArg (fun r : Nat × List Char => (byte r.1, r.2)) (readDigits_hex h₁ h₂ s))
    have hlt₁ := (isHex_toUpper h₁.property).2.2
    have hlt₂ := (isHex_toUpper h₂.property).2.2
    apply (congrArg (fun r : Char × List Char => r.1 :: decode r.2) hescape).trans
    rw [byte, Nat.mod_eq_of_lt (by omega)]
    rfl

/-! ### A literal -/

/-- What is stored of a literal is not empty where it has an element. -/
theorem head?_stored_cons (e : Elem) (lit : List Elem) :
  (stored (e :: lit)).head? = e.stored.head?
  := by
  rw [stored, List.flatMap_cons, List.head?_append_of_ne_nil]
  apply List.ne_nil_of_length_pos
  rw [e.stored_length, Elem.width]
  split_ifs <;> omega

/-- Octal digits are read up to the end of an element. -/
theorem readDigits_stored (n v : Nat) (lit : List Elem) :
  ∃ k v', readDigits 8 isOctal n v (stored lit) = (v', stored (lit.drop k))
  := by
  induction n generalizing v lit with
  | zero => use 0, v; rfl
  | succ n ih =>
    cases lit with
    | nil => use 0, v; rfl
    | cons e lit =>
      rcases e.apart_zero with ⟨-, hhead⟩ | ⟨-, ch, ho, hstored⟩
      · use 0, v
        apply readDigits_of_head
        rw [head?_stored_cons]
        apply hhead
      · obtain ⟨k, v', hk⟩ := ih (v * 8 + digit ch) lit
        use k + 1, v'
        rw [stored, List.flatMap_cons, hstored, List.singleton_append, readDigits, if_pos ho]
        apply hk

/-- The decoder at the null character. -/
theorem decode_zero (lit : List Elem) :
  ∃ k ch, decode (stored (.escape .zero :: lit)) = ch :: decode (stored (lit.drop k))
  := by
  obtain ⟨k, v, hk⟩ := readDigits_stored 2 0 lit
  use k, byte v
  apply (decode_zero_cons (stored lit)).trans
  rw [hk]

/-- No more characters come out than the literal has. -/
theorem decode_stored_length_le (lit : List Elem) :
  (decode (stored lit)).length ≤ lit.length
  := by
  induction hn : lit.length using Nat.strong_induction_on generalizing lit with
  | _ n ih =>
    cases lit with
    | nil =>
      rw [stored, List.flatMap_nil, decode]
      apply Nat.zero_le
    | cons e lit =>
      rw [List.length_cons] at hn
      by_cases hz : e = .escape .zero
      · obtain ⟨k, ch, hk⟩ := decode_zero lit
        have hdrop := List.length_drop (i := k) (l := lit)
        have hle := ih _ (by omega) (lit.drop k) rfl
        rw [hz, hk, List.length_cons]
        omega
      · have hle := ih _ (by omega) lit rfl
        rw [stored, List.flatMap_cons, decode_elem e fun h => absurd h hz, List.length_cons]
        rw [stored] at hle
        omega

/-- A digit after the null character is lost. -/
theorem decode_stored_length_lt {e : Elem} (lit : List Elem)
    (h : ¬ Elem.Apart (.escape .zero) e) :
  (decode (stored (.escape .zero :: e :: lit))).length < lit.length + 2
  := by
  rcases e.apart_zero with ⟨happ, -⟩ | ⟨-, ch, ho, hstored⟩
  · cases h happ
  · obtain ⟨k, v, hk⟩ := readDigits_stored 1 (0 * 8 + digit ch) lit
    have hread : readDigits 8 isOctal 2 0 (stored (e :: lit))
        = (v, stored (lit.drop k)) := by
      rw [stored, List.flatMap_cons, hstored, List.singleton_append, readDigits, if_pos ho]
      apply hk
    have hdecode : decode (stored (.escape .zero :: e :: lit))
        = byte v :: decode (stored (lit.drop k)) := by
      apply (decode_zero_cons (stored (e :: lit))).trans
      rw [hread]
    have hle := decode_stored_length_le (lit.drop k)
    rw [List.length_drop] at hle
    rw [hdecode, List.length_cons]
    omega

/-- What is stored of a literal decodes to the characters that it denotes exactly when no octal
digit comes after the null character. -/
theorem decode_stored_iff (lit : List Elem) :
  decode (stored lit) = lit.map Elem.value ↔ lit.IsChain Elem.Apart
  := by
  induction lit with
  | nil =>
    rw [stored, List.flatMap_nil, decode]
    simp
  | cons e lit ih =>
    have htail (hhead : e = .escape .zero → ∀ ch ∈ (stored lit).head?, isOctal ch = false) :
        decode (stored (e :: lit)) = (e :: lit).map Elem.value
          ↔ decode (stored lit) = lit.map Elem.value := by
      have hcons : decode (stored (e :: lit)) = e.value :: decode (stored lit) :=
        decode_elem e hhead
      rw [hcons, List.map_cons, List.cons_inj_right]
    rw [List.isChain_cons]
    by_cases hz : e = .escape .zero
    · subst hz
      cases lit with
      | nil =>
        rw [htail, ih]
        · simp
        · rintro - ch ⟨⟩
      | cons e lit =>
        rcases e.apart_zero with ⟨happ, hhead⟩ | ⟨happ, -⟩
        · rw [htail, ih]
          · simp [happ]
          · rintro -
            rw [head?_stored_cons]
            apply hhead
        · have hlt := decode_stored_length_lt lit happ
          constructor
          · intro h
            rw [h] at hlt
            simp at hlt
          · rintro ⟨h, -⟩
            cases happ (h e rfl)
    · have hapart : ∀ e' ∈ lit.head?, Elem.Apart e e' := by
        rintro e' -
        cases e with
        | typed ch h => trivial
        | bytes capital h₁ h₂ => trivial
        | escape e =>
          cases e
          case zero => cases hz rfl
          all_goals trivial
      rw [htail fun h => absurd h hz, ih, and_iff_right hapart]

/-! ### Tokens -/

/-- The token of a literal. -/
def strTok (lit : List Elem) : StrTok :=
  ⟨stored lit, if lit.any Elem.isBytes then lit.length else lit.length + 1⟩

/-- The scanner takes a literal, and writes beyond its buffer exactly when the literal is too long
or ends in a wide element that fills it. -/
theorem lexString_spell (permissive : Bool) (lit : List Elem) (rest : List Char) :
  ∃ overrun,
    lexString permissive '\x22' (spell lit ++ rest) = some ⟨strTok lit, overrun, rest⟩ ∧
      (overrun = false ↔ Short lit ∧ ¬ FillsBuffer lit)
  := by
  rw [lexString, lexStringLoop_spell, Option.map_some]
  have htext := foldl_absorb_text ⟨[], 64, 0, false, false⟩ lit
  have hlen := foldl_absorb_realLen ⟨[], 64, 0, false, false⟩ lit
  have hbytes := foldl_absorb_isBytes ⟨[], 64, 0, false, false⟩ lit
  obtain ⟨hfits, hlong⟩ := foldl_absorb_fits lit
  rw [List.nil_append] at htext
  rw [zero_add] at hlen
  rw [Bool.false_or] at hbytes
  use ((lit.foldl Buffer.absorb ⟨[], 64, 0, false, false⟩).put '\x00').overrun
  constructor
  · simp only [htext, hlen, hbytes, strTok]
  · by_cases hshort : Short lit
    · rw [and_iff_right hshort, ← foldl_absorb_full_iff hshort, Buffer.put, (hfits hshort).inside,
        Bool.false_or, decide_eq_false_iff_not]
    · simp only [Buffer.put, hlong hshort, hshort, Bool.true_or, Bool.true_eq_false, false_and]

/-- The scanner takes literals one by one. -/
theorem mapM_lexString (permissive : Bool) (lits : List (List Elem × List Char)) :
  lits.mapM (fun lit => (lexString permissive '\x22' (spell lit.1 ++ lit.2)).map Lexed.tok)
    = some ((lits.map Prod.fst).map strTok)
  := by
  induction lits with
  | nil => rfl
  | cons lit lits ih =>
    obtain ⟨overrun, hlex, -⟩ := lexString_spell permissive lit.1 lit.2
    rw [List.mapM_cons, hlex, ih]
    rfl

/-! ### Nodes -/

/-- The text of a node does not depend on the table. -/
theorem cctrlGetOrSetString_sval (strs : Strs) (str : List Char) (realLen : Int) :
  (cctrlGetOrSetString strs str realLen).1.sval = if str = [] then ['\\', '0'] else str
  := by
  have hnew (n : Int) : (astString str n).sval = if str = [] then ['\\', '0'] else str := by
    cases str <;> rfl
  cases hget : strs.get str with
  | none =>
    rw [cctrlGetOrSetString, hget]
    apply hnew
  | some ast =>
    obtain ⟨before, after, hentries, -⟩ := List.lookup_eq_some_iff.1 hget
    have hmem : (str, ast) ∈ strs.entries := by
      rw [hentries]
      apply List.mem_append_right _ List.mem_cons_self
    have hmade : ast = astString str ast.realLen := strs.made (str, ast) hmem
    rw [cctrlGetOrSetString, hget, ← hnew ast.realLen, ← hmade]

/-- Adjacent strings are joined. -/
theorem catStrings_map (toks : List StrTok) (rest : List Lexeme) (str : List Char) (n : Int) :
  catStrings (toks.map Lexeme.str ++ .other :: rest) str n
    = (str ++ toks.flatMap StrTok.text, n + (toks.map fun tok => tok.i64 - 1).sum, .other :: rest)
  := by
  induction toks generalizing str n with
  | nil => simp [catStrings]
  | cons tok toks ih =>
    rw [List.map_cons, List.cons_append, catStrings, ih]
    simp [add_assoc]

/-- Joined strings are as long as their literals exactly when none has a byte by its digits. -/
theorem sum_i64_iff (lits : List (List Elem)) :
  (lits.map fun lit => (strTok lit).i64 - 1).sum ≤ lits.flatten.length ∧
    ((lits.map fun lit => (strTok lit).i64 - 1).sum = lits.flatten.length
      ↔ ∀ lit ∈ lits, ∀ e ∈ lit, e.isBytes = false)
  := by
  induction lits with
  | nil => simp
  | cons lit lits ih =>
    rw [List.map_cons, List.sum_cons, List.flatten_cons, List.length_append, List.forall_mem_cons,
      ← ih.2]
    push_cast
    cases hany : lit.any Elem.isBytes with
    | true =>
      have hnot : ¬ ∀ e ∈ lit, e.isBytes = false := by
        obtain ⟨e, he, hbytes⟩ := List.any_eq_true.1 hany
        intro h
        rw [h e he] at hbytes
        cases hbytes
      have hi : (strTok lit).i64 = lit.length := by
        rw [strTok, hany]
        rfl
      simp only [hi, hnot, false_and, iff_false]
      omega
    | false =>
      have hall : ∀ e ∈ lit, e.isBytes = false := by
        simpa only [List.any_eq_false, Bool.not_eq_true] using hany
      have hi : (strTok lit).i64 = lit.length + 1 := by
        rw [strTok, hany]
        rfl
      rw [hi, and_iff_right hall]
      omega

/-- A literal is stored with as many characters as it has exactly when it is plain. -/
theorem sum_width_iff (lit : List Elem) :
  lit.length ≤ (lit.map Elem.width).sum ∧
    ((lit.map Elem.width).sum = lit.length ↔ ∀ e ∈ lit, e.isPlain = true)
  := by
  induction lit with
  | nil => simp
  | cons e lit ih =>
    rw [List.map_cons, List.sum_cons, List.length_cons, List.forall_mem_cons, ← ih.2, Elem.width]
    cases e.isPlain with
    | true =>
      simp only [if_true, true_and]
      omega
    | false =>
      simp only [Bool.false_eq_true, if_false, false_and, iff_false]
      split_ifs <;> omega

/-! ### Literals -/

/-- The length that is recorded for adjacent literals: the table has no node for their text yet,
and none of them has a byte by its digits, or it has one with the right length. -/
def Recorded (strs : Strs) (lits : List (List Elem)) : Prop :=
  match strs.get (stored lits.flatten) with
  | some ast => ast.realLen = lits.flatten.length + 1
  | none => ∀ lit ∈ lits, ∀ e ∈ lit, e.isBytes = false

/-- Nothing is stored of the empty literal only. -/
theorem stored_eq_nil_iff (lit : List Elem) :
  stored lit = [] ↔ lit = []
  := by
  rw [← List.length_eq_zero_iff, ← List.length_eq_zero_iff, stored_length]
  cases lit with
  | nil => rfl
  | cons e lit =>
    have hle := (sum_width_iff (e :: lit)).1
    rw [List.length_cons] at hle ⊢
    omega

/-- Adjacent literals are joined, and their lengths are added. -/
theorem parsePrimary_strTok (strs : Strs) (lits : List (List Elem)) (rest : List Lexeme) :
  parsePrimary strs ((lits.map strTok).map Lexeme.str ++ .other :: rest)
    = ((cctrlGetOrSetString strs (stored lits.flatten)
          ((lits.map fun lit => (strTok lit).i64 - 1).sum + 1)).1,
        (cctrlGetOrSetString strs (stored lits.flatten)
          ((lits.map fun lit => (strTok lit).i64 - 1).sum + 1)).2, .other :: rest)
  := by
  have htext : (lits.map strTok).flatMap StrTok.text = stored lits.flatten := by
    induction lits with
    | nil => rfl
    | cons lit lits ih =>
      rw [List.map_cons, List.flatMap_cons, ih, List.flatten_cons, stored, stored,
        List.flatMap_append]
      rfl
  rw [parsePrimary, catStrings_map, htext, List.nil_append, zero_add, List.map_map]
  rfl

/-- The node of a literal decodes to its characters exactly when it has some and no octal digit
comes after the null character. -/
theorem decode_sval_iff (strs : Strs) (lit : List Elem) (n : Int) :
  decode (cctrlGetOrSetString strs (stored lit) n).1.sval = lit.map Elem.value
    ↔ lit ≠ [] ∧ lit.IsChain Elem.Apart
  := by
  rw [cctrlGetOrSetString_sval]
  simp only [stored_eq_nil_iff]
  split
  case isTrue h =>
    have hzero : decode ['\\', '0'] = byte 0 :: decode [] := decode_zero_cons []
    simp [h, hzero]
  case isFalse h => rw [decode_stored_iff, and_iff_right h]

/-- The node of adjacent literals has the right length exactly when it is recorded so. -/
theorem realLen_iff (strs : Strs) (lits : List (List Elem)) :
  (cctrlGetOrSetString strs (stored lits.flatten)
      ((lits.map fun lit => (strTok lit).i64 - 1).sum + 1)).1.realLen = lits.flatten.length + 1
    ↔ Recorded strs lits
  := by
  cases hget : strs.get (stored lits.flatten) with
  | some ast =>
    rw [cctrlGetOrSetString, hget, Recorded, hget]
  | none =>
    have hsum := (sum_i64_iff lits).2
    rw [cctrlGetOrSetString, hget, Recorded, hget]
    simp only [astString, List.length_eq_zero_iff, stored_eq_nil_iff]
    split
    case isTrue h =>
      simp only [h, List.length_nil, Nat.cast_zero, zero_add, true_iff]
      intro lit hlit e he
      have hmem : e ∈ lits.flatten := List.mem_flatten_of_mem hlit he
      rw [h] at hmem
      cases hmem
    case isFalse h =>
      rw [← hsum, add_left_inj]

/-- String literals keep one length and one content exactly so far: the writes of the scanner are
inside of its buffer unless the literal comes close to 2³¹ characters or ends in four characters
that fill it.  With an `int` for its length, the length of a literal is right unless it has a byte
by its digits, and the count of an array is right for plain literals only.  While the growth of the
joined text does not pass a `u32`, the node of adjacent literals decodes to their characters unless
there are none or an octal digit comes after the null character, and its length is right when it is
recorded so. -/
theorem keeps_iff (permissive : Bool) :
  (∀ (lit : List Elem) (rest : List Char), ∃ lexed,
    lexString permissive '\x22' (spell lit ++ rest) = some lexed ∧ lexed.rest = rest ∧
      (lexed.overrun = false ↔ Short lit ∧ ¬ FillsBuffer lit) ∧
      ((lit.map Elem.width).sum + 1 < 2 ^ 31 →
        (lexed.tok.i64 = lit.length + 1 ↔ ∀ e ∈ lit, e.isBytes = false) ∧
        ∀ strs, ((parseVariableAssignment strs none lexed.tok).map Prod.fst = some (lit.length + 1)
          ↔ lit ≠ [] ∧ ∀ e ∈ lit, e.isPlain = true))) ∧
  ∀ (lits : List (List Elem × List Char)) (strs : Strs) (rest : List Lexeme),
    ((lits.map Prod.fst).flatten.map Elem.width).sum < 2 ^ 30 → ∃ toks,
    lits.mapM (fun lit => (lexString permissive '\x22' (spell lit.1 ++ lit.2)).map Lexed.tok)
        = some toks ∧
      let r := parsePrimary strs (toks.map Lexeme.str ++ .other :: rest)
      let elems := (lits.map Prod.fst).flatten
      r.2.2 = .other :: rest ∧
        (decode r.1.sval = elems.map Elem.value ↔ elems ≠ [] ∧ elems.IsChain Elem.Apart) ∧
        (r.1.realLen = elems.length + 1 ↔ Recorded strs (lits.map Prod.fst))
  := by
  constructor
  · intro lit rest
    obtain ⟨overrun, hlex, hinside⟩ := lexString_spell permissive lit rest
    refine ⟨_, hlex, rfl, hinside, fun _ => ⟨?_, ?_⟩⟩
    · have hsum := (sum_i64_iff [lit]).2
      simp only [List.map_cons, List.map_nil, List.sum_singleton, List.flatten_cons,
        List.flatten_nil, List.append_nil, List.forall_mem_singleton] at hsum
      rw [← hsum, sub_eq_iff_eq_add]
    · intro strs
      have hsum := sum_width_iff lit
      simp only [parseVariableAssignment, cctrlGetOrSetString_sval, strTok, Option.map_some,
        Option.some.injEq, Nat.add_right_cancel_iff, ← hsum.2]
      cases lit with
      | nil => simp [stored]
      | cons e lit =>
        have hne : stored (e :: lit) ≠ [] := by
          apply List.ne_nil_of_length_pos
          rw [stored_length]
          apply lt_of_lt_of_le _ hsum.1
          simp
        rw [if_neg hne, stored_length]
        simp
  · intro lits strs rest _
    refine ⟨_, mapM_lexString permissive lits, ?_⟩
    rw [parsePrimary_strTok]
    refine ⟨rfl, ?_, ?_⟩
    · apply decode_sval_iff
    · apply realLen_iff

/-- The literal `"\012"` has three characters, which decode to a newline. -/
theorem not_keeps :
  ¬ ∀ (permissive : Bool) (lit : List Elem) (rest : List Char) (strs : Strs), ∃ lexed,
    lexString permissive '\x22' (spell lit ++ rest) = some lexed ∧ lexed.overrun = false ∧
      decode (parsePrimary strs [.str lexed.tok, .other]).1.sval = lit.map Elem.value ∧
      (parsePrimary strs [.str lexed.tok, .other]).1.realLen = lit.length + 1 ∧
      (parseVariableAssignment strs none lexed.tok).map Prod.fst = some (lit.length + 1)
  := by
  intro h
  obtain ⟨lexed, hlex, -, hdecode, -⟩ :=
    h false [.escape .zero, .typed '1' (by decide), .typed '2' (by decide)] [] ⟨[], nofun⟩
  have hrun : lexString false '\x22' ['\\', '0', '1', '2', '\x22']
      = some ⟨⟨['\\', '0', '1', '2'], 4⟩, false, []⟩ := by
    decide +kernel
  cases hrun.symm.trans hlex
  revert hdecode
  decide +kernel

end Polyc.StringLiteral
