import Polyc.Json.JsonReader

/-!
# JSON strings

The texts that `jsonString` accepts are sequences of elements: bytes, escapes, code units and pairs of
surrogates.  What they denote is not longer than they are, and is read of them when it has room in the
buffer.
-/

namespace Polyc

open Bytes (Byte)

/-! ### Elements -/

/-- Four hexadecimal digits. -/
def IsHex4 (hex : List Byte) : Prop := hex.length = 4 ∧ ∀ c ∈ hex, (jsonHexDigit c).isSome

/-- The number of hexadecimal digits. -/
def hexValue (hex : List Byte) : Nat := hex.foldl (fun n c => n * 16 + (jsonHexDigit c).getD 0) 0

/-- An element of a string: a byte, an escape with a letter, one of a code unit and one of a pair. -/
inductive JsonElem where
  | plain (c : Byte)
  | letter (e : Byte)
  | unit (hex : List Byte)
  | pair (hi lo : List Byte)

namespace JsonElem

/-- The text of an element. -/
def spell : JsonElem → List Byte
  | plain c => [c]
  | letter e => [0x5C, e]
  | unit hex => 0x5C :: 0x75 :: hex
  | pair hi lo => 0x5C :: 0x75 :: (hi ++ 0x5C :: 0x75 :: lo)

/-- The bytes that an element denotes. -/
def bytes : JsonElem → List Byte
  | plain c => [c]
  | letter e => (jsonLetter e).toList
  | unit hex => jsonUtf8Encode (hexValue hex)
  | pair hi lo => jsonUtf8Encode (0x10000 + ((hexValue hi - 0xD800) <<< 10) + (hexValue lo - 0xDC00))

/-- The elements of JSON. -/
def Valid : JsonElem → Prop
  | plain c => c ≠ 0x22 ∧ c ≠ 0x5C
  | letter e => (jsonLetter e).isSome
  | unit hex => IsHex4 hex
  | pair hi lo =>
    (IsHex4 hi ∧ isHighSurrogate (hexValue hi)) ∧ IsHex4 lo ∧ 0xDC00 ≤ hexValue lo ∧ hexValue lo ≤ 0xDFFF

/-- A unit that begins a pair when another one follows. -/
def IsHigh : JsonElem → Prop
  | unit hex => isHighSurrogate (hexValue hex)
  | _ => False

/-- An element that begins with a unit. -/
def IsUnit : JsonElem → Prop
  | unit _ | pair _ _ => True
  | _ => False

instance (hex : List Byte) : Decidable (IsHex4 hex) := inferInstanceAs (Decidable (_ ∧ _))

instance : (a : JsonElem) → Decidable a.Valid
  | plain c => inferInstanceAs (Decidable (c ≠ 0x22 ∧ c ≠ 0x5C))
  | letter e => inferInstanceAs (Decidable ((jsonLetter e).isSome))
  | unit hex => inferInstanceAs (Decidable (IsHex4 hex))
  | pair hi lo =>
    inferInstanceAs (Decidable ((IsHex4 hi ∧ isHighSurrogate (hexValue hi)) ∧
      IsHex4 lo ∧ 0xDC00 ≤ hexValue lo ∧ hexValue lo ≤ 0xDFFF))

instance : (a : JsonElem) → Decidable a.IsHigh
  | unit hex => inferInstanceAs (Decidable (isHighSurrogate (hexValue hex)))
  | plain _ | letter _ | pair _ _ => inferInstanceAs (Decidable False)

end JsonElem

/-- No unit that begins a pair comes before another one. -/
def Separate : List JsonElem → Prop
  | [] => True
  | a :: es => (a.IsHigh → ∀ b ∈ es.head?, ¬b.IsUnit) ∧ Separate es

/-- The text of elements. -/
def spellOf (es : List JsonElem) : List Byte := es.flatMap JsonElem.spell

/-- The bytes that elements denote. -/
def bytesOf (es : List JsonElem) : List Byte := es.flatMap JsonElem.bytes

/-- The text of elements by the first one. -/
@[simp] theorem spellOf_cons (a : JsonElem) (es : List JsonElem) :
  spellOf (a :: es) = a.spell ++ spellOf es
  := List.flatMap_cons

/-- The bytes of elements by the first one. -/
@[simp] theorem bytesOf_cons (a : JsonElem) (es : List JsonElem) :
  bytesOf (a :: es) = a.bytes ++ bytesOf es
  := List.flatMap_cons

/-! ### Hexadecimal digits -/

/-- Hexadecimal digits are neither quotes nor backslashes, and below 16. -/
theorem jsonHexDigit_spec {c : Byte} {d : Nat} (h : jsonHexDigit c = some d) :
  (c ≠ 0x22 ∧ c ≠ 0x5C) ∧ d < 16
  := by
  rw [jsonHexDigit] at h
  split at h
  case isTrue hc =>
    cases h
    bv_omega
  case isFalse =>
    split at h
    case isTrue hc =>
      cases h
      bv_omega
    case isFalse =>
      split at h
      case isTrue hc =>
        cases h
        bv_omega
      case isFalse => cases h

/-- Four hexadecimal digits are read. -/
theorem jsonHex4_append {hex : List Byte} (h : IsHex4 hex) (rest : List Byte) :
  jsonHex4 (hex ++ rest) = some (hexValue hex, rest)
  := by
  obtain ⟨hlen, hdig⟩ := h
  obtain ⟨a, b, c, d, rfl⟩ := List.length_eq_four.mp hlen
  obtain ⟨a', ha⟩ := Option.isSome_iff_exists.mp (hdig a (by simp))
  obtain ⟨b', hb⟩ := Option.isSome_iff_exists.mp (hdig b (by simp))
  obtain ⟨c', hc⟩ := Option.isSome_iff_exists.mp (hdig c (by simp))
  obtain ⟨d', hd⟩ := Option.isSome_iff_exists.mp (hdig d (by simp))
  simp only [List.cons_append, List.nil_append, jsonHex4, hexValue, List.foldl_cons, List.foldl_nil, ha, hb,
    hc, hd, Option.getD_some, zero_mul, zero_add]
  rfl

/-- What is read as four hexadecimal digits begins with them. -/
theorem exists_of_jsonHex4 {text rest : List Byte} {v : Nat} (h : jsonHex4 text = some (v, rest)) :
  ∃ hex, IsHex4 hex ∧ text = hex ++ rest ∧ v = hexValue hex
  := by
  match text with
  | [] | [_] | [_, _] | [_, _, _] => cases h
  | a :: b :: c :: d :: text =>
    simp only [jsonHex4, Option.bind_eq_bind, Option.bind_eq_some_iff] at h
    obtain ⟨a', ha, b', hb, c', hc, d', hd, heq⟩ := h
    cases heq
    use [a, b, c, d]
    constructor
    · constructor
      · rfl
      · simp [ha, hb, hc, hd]
    · use rfl
      simp only [hexValue, List.foldl_cons, List.foldl_nil, ha, hb, hc, hd, Option.getD_some, zero_mul, zero_add]

/-- Four hexadecimal digits make up 16 bits. -/
theorem hexValue_lt {hex : List Byte} (h : IsHex4 hex) :
  hexValue hex < 0x10000
  := by
  have hstep (n : Nat) (c : Byte) : n * 16 + (jsonHexDigit c).getD 0 < 16 * (n + 1) := by
    cases hc : jsonHexDigit c with
    | none =>
      rw [Option.getD_none]
      omega
    | some d =>
      have hd := (jsonHexDigit_spec hc).2
      rw [Option.getD_some]
      omega
  obtain ⟨a, b, c, d, rfl⟩ := List.length_eq_four.mp h.1
  simp only [hexValue, List.foldl_cons, List.foldl_nil]
  have ha := hstep 0 a
  generalize 0 * 16 + (jsonHexDigit a).getD 0 = x at ha
  have hb := hstep x b
  generalize x * 16 + (jsonHexDigit b).getD 0 = y at hb
  have hc := hstep y c
  generalize y * 16 + (jsonHexDigit c).getD 0 = z at hc
  have hd := hstep z d
  omega

/-- Hexadecimal digits do not end a string. -/
theorem plain_of_isHex4 {hex : List Byte} (h : IsHex4 hex) :
  ∀ c ∈ hex, c ≠ 0x22 ∧ c ≠ 0x5C
  := by
  intro c hc
  obtain ⟨d, hd⟩ := Option.isSome_iff_exists.mp (h.2 c hc)
  apply (jsonHexDigit_spec hd).1

/-! ### Lengths -/

/-- The bytes of a code point. -/
theorem length_jsonUtf8Encode (cp : Nat) :
  (jsonUtf8Encode cp).length = if cp < 0x80 then 1 else if cp < 0x800 then 2 else if cp < 0x10000 then 3 else 4
  := by
  rw [jsonUtf8Encode]
  split_ifs <;> rfl

/-- An element denotes no more bytes than it has. -/
theorem JsonElem.Valid.length_bytes_le {a : JsonElem} (h : a.Valid) :
  a.bytes.length ≤ a.spell.length
  := by
  cases a with
  | plain c => apply le_refl
  | letter e =>
    rw [JsonElem.bytes, JsonElem.spell]
    apply le_trans Option.length_toList_le
    apply Nat.succ_le_succ (Nat.zero_le _)
  | unit hex =>
    have hlt := hexValue_lt h
    have hlen : (JsonElem.unit hex).spell.length = 6 := by
      simp only [JsonElem.spell, List.length_cons]
      have := h.1
      omega
    rw [hlen, JsonElem.bytes, length_jsonUtf8Encode]
    split_ifs <;> omega
  | pair hi lo =>
    have hlen : (JsonElem.pair hi lo).spell.length = 12 := by
      simp only [JsonElem.spell, List.length_cons, List.length_append]
      have := h.1.1.1
      have := h.2.1.1
      omega
    rw [hlen, JsonElem.bytes, length_jsonUtf8Encode]
    split_ifs <;> omega

/-- Elements denote no more bytes than they have. -/
theorem length_bytesOf_le {es : List JsonElem} (h : ∀ a ∈ es, a.Valid) :
  (bytesOf es).length ≤ (spellOf es).length
  := by
  induction es with
  | nil => apply le_refl
  | cons a es ih =>
    have ha := (h a List.mem_cons_self).length_bytes_le
    have hes := ih fun b hb => h b (List.mem_cons_of_mem _ hb)
    rw [bytesOf_cons, spellOf_cons, List.length_append, List.length_append]
    apply Nat.add_le_add ha hes

/-! ### The closing quote -/

/-- The search goes through bytes that are neither quotes nor backslashes. -/
theorem jsonScan_plain {l : List Byte} (h : ∀ c ∈ l, c ≠ 0x22 ∧ c ≠ 0x5C) (rest : List Byte) (n : Nat) :
  jsonScan (l ++ rest) n = jsonScan rest (n + l.length)
  := by
  induction l generalizing n with
  | nil => rfl
  | cons c l ih =>
    obtain ⟨hq, hb⟩ := h c List.mem_cons_self
    rw [List.cons_append, jsonScan.eq_def]
    dsimp only
    rw [if_neg hq, if_neg hb, ih fun c hc => h c (List.mem_cons_of_mem _ hc), List.length_cons,
      Nat.add_right_comm, Nat.add_assoc]

/-- The search goes over an escape. -/
theorem jsonScan_escape (e : Byte) (rest : List Byte) (n : Nat) :
  jsonScan (0x5C :: e :: rest) n = jsonScan rest (n + 2)
  := rfl

/-- The search goes over an element. -/
theorem jsonScan_spell {a : JsonElem} (h : a.Valid) (rest : List Byte) (n : Nat) :
  jsonScan (a.spell ++ rest) n = jsonScan rest (n + a.spell.length)
  := by
  cases a with
  | plain c =>
    apply jsonScan_plain
    intro d hd
    rw [List.mem_singleton.mp hd]
    apply h
  | letter e => rfl
  | unit hex =>
    rw [JsonElem.spell, List.cons_append, List.cons_append, jsonScan_escape, jsonScan_plain (plain_of_isHex4 h),
      List.length_cons, List.length_cons]
    congr 1
    omega
  | pair hi lo =>
    rw [JsonElem.spell, List.cons_append, List.cons_append, jsonScan_escape, List.append_assoc,
      jsonScan_plain (plain_of_isHex4 h.1.1), List.cons_append, List.cons_append, jsonScan_escape,
      jsonScan_plain (plain_of_isHex4 h.2.1), List.length_cons, List.length_cons, List.length_append,
      List.length_cons, List.length_cons]
    congr 1
    omega

/-- The search finds the quote behind elements. -/
theorem jsonScan_spellOf {es : List JsonElem} (h : ∀ a ∈ es, a.Valid) (after : List Byte) (n : Nat) :
  jsonScan (spellOf es ++ 0x22 :: after) n = some (n + (spellOf es).length)
  := by
  induction es generalizing n with
  | nil =>
    rw [spellOf, List.flatMap_nil, List.nil_append, jsonScan.eq_def]
    apply if_pos rfl
  | cons a es ih =>
    rw [spellOf_cons, List.append_assoc, jsonScan_spell (h a List.mem_cons_self),
      ih fun b hb => h b (List.mem_cons_of_mem _ hb), List.length_append, Nat.add_assoc]

end Polyc
