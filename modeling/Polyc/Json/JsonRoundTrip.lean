import Polyc.Json.JsonStrings
import Polyc.Json.JsonWriter
import Polyc.Lib.BitField

/-!
# Escaped strings are read back

What `jsonEscapeInto` writes is a sequence of elements that denote the string, which `jsonParse` reads.  Any
string that `jsonString` accepts is read as what it denotes exactly when that has room in the buffer, whose
size is computed from the text in 32 bits.
-/

namespace Polyc

open Bytes (Byte)

/-! ### Turns of the loop -/

/-- A text that begins with another unit. -/
def BeginsUnit (text : List Byte) : Prop := 6 ≤ text.length ∧ text.take 2 = [0x5C, 0x75]

/-- A unit that no other one has to follow. -/
theorem jsonUEscape_unit {hex : List Byte} (h : IsHex4 hex) {text : List Byte}
    (hnext : isHighSurrogate (hexValue hex) → ¬BeginsUnit text) :
  jsonUEscape (hex ++ text) = .ok (jsonUtf8Encode (hexValue hex), text)
  := by
  simp only [jsonUEscape, jsonHex4_append h]
  apply if_neg
  rintro ⟨hhigh, hbegin⟩
  apply hnext hhigh hbegin

/-- A pair of units. -/
theorem jsonUEscape_pair {hi lo : List Byte} (h : (JsonElem.pair hi lo).Valid) (text : List Byte) :
  jsonUEscape (hi ++ 0x5C :: 0x75 :: (lo ++ text)) = .ok ((JsonElem.pair hi lo).bytes, text)
  := by
  obtain ⟨⟨hhi, hhigh⟩, hlo, hge, hle⟩ := h
  have hlen : 6 ≤ (0x5C :: 0x75 :: (lo ++ text)).length := by
    simp only [List.length_cons, List.length_append, hlo.1]
    omega
  simp only [jsonUEscape, jsonHex4_append hhi]
  rw [if_pos ⟨hhigh, hlen, rfl⟩]
  simp only [List.drop_succ_cons, List.drop_zero, jsonHex4_append hlo]
  apply if_neg
  omega

/-- A turn of the loop at an escape. -/
theorem jsonStringStep_escape {e : Byte} {text text' bytes : List Byte}
    (h : jsonEscape e text = .ok (bytes, text')) (cap : Nat) (buf : List Byte) :
  jsonStringStep cap (0x5C :: e :: text, buf)
    = if buf.length + bytes.length ≤ cap then .inl (text', buf ++ bytes) else .inr (.error .overrun)
  := by
  have hq : (0x5C : Byte) ≠ 0x22 := by decide
  rw [jsonStringStep.eq_def]
  simp only [hq, if_false, ne_eq, not_true_eq_false, h]

/-- A turn of the loop at an element. -/
theorem jsonStringStep_elem {a : JsonElem} (h : a.Valid) (cap : Nat) {text : List Byte}
    (hnext : a.IsHigh → ¬BeginsUnit text) (buf : List Byte) :
  jsonStringStep cap (a.spell ++ text, buf)
    = if buf.length + a.bytes.length ≤ cap then .inl (text, buf ++ a.bytes) else .inr (.error .overrun)
  := by
  have hletter : jsonLetter 0x75 = none := rfl
  cases a with
  | plain c =>
    obtain ⟨hq, hb⟩ := h
    rw [JsonElem.spell, List.singleton_append, jsonStringStep.eq_def]
    dsimp only
    rw [if_neg hq, if_pos hb]
    rfl
  | letter e =>
    apply jsonStringStep_escape
    obtain ⟨b, hb⟩ := Option.isSome_iff_exists.mp h
    simp only [jsonEscape, JsonElem.bytes, hb]
    rfl
  | unit hex =>
    apply jsonStringStep_escape
    simp only [jsonEscape, hletter, if_true]
    apply jsonUEscape_unit h hnext
  | pair hi lo =>
    rw [JsonElem.spell, List.cons_append, List.cons_append, List.append_assoc, List.cons_append, List.cons_append]
    apply jsonStringStep_escape
    simp only [jsonEscape, hletter, if_true]
    apply jsonUEscape_pair h

/-- What comes behind a unit that begins a pair is no unit. -/
theorem not_beginsUnit {es : List JsonElem} (h : ∀ a ∈ es, a.Valid) (hunit : ∀ b ∈ es.head?, ¬b.IsUnit)
    (after : List Byte) :
  ¬BeginsUnit (spellOf es ++ 0x22 :: after)
  := by
  rintro ⟨_, htake⟩
  cases es with
  | nil => cases htake
  | cons a es =>
    have ha := h a List.mem_cons_self
    have hnot := hunit a rfl
    cases a with
    | plain c =>
      apply ha.2
      apply (List.cons.inj htake).1
    | letter e =>
      have he : e = 0x75 := (List.cons.inj (List.cons.inj htake).2).1
      rw [JsonElem.Valid, he] at ha
      revert ha
      decide
    | unit | pair => apply hnot trivial

/-- A unit is one at the beginning of a text. -/
theorem beginsUnit_spell {a : JsonElem} (h : a.Valid) (hunit : a.IsUnit) (text : List Byte) :
  BeginsUnit (a.spell ++ text)
  := by
  cases a with
  | plain | letter => cases hunit
  | unit hex =>
    constructor
    · simp only [JsonElem.spell, List.length_append, List.length_cons, h.1]
      omega
    · rfl
  | pair hi lo =>
    constructor
    · simp only [JsonElem.spell, List.length_append, List.length_cons, h.1.1.1]
      omega
    · rfl

/-- The loop reads elements, unless they denote more than there is room for. -/
theorem jsonString_loop {es : List JsonElem} (h : ∀ a ∈ es, a.Valid) (hsep : Separate es) (cap : Nat)
    (after : List Byte) {n : Nat} (hn : es.length < n) (buf : List Byte) :
  Loop.run (jsonStringStep cap) n (spellOf es ++ 0x22 :: after, buf)
    = some (if (buf ++ bytesOf es).length < cap then .ok (buf ++ bytesOf es, after) else .error .overrun)
  := by
  induction es generalizing n buf with
  | nil =>
    obtain ⟨n, rfl⟩ := Nat.exists_eq_succ_of_ne_zero (Nat.ne_zero_of_lt hn)
    rw [bytesOf, List.flatMap_nil, List.append_nil, spellOf, List.flatMap_nil, List.nil_append, Loop.run,
      jsonStringStep.eq_def]
    dsimp only
    rw [if_pos rfl]
  | cons a es ih =>
    obtain ⟨n, rfl⟩ := Nat.exists_eq_succ_of_ne_zero (Nat.ne_zero_of_lt hn)
    have hes : ∀ b ∈ es, b.Valid := fun b hb => h b (List.mem_cons_of_mem _ hb)
    have hnext : a.IsHigh → ¬BeginsUnit (spellOf es ++ 0x22 :: after) :=
      fun hhigh => not_beginsUnit hes (hsep.1 hhigh) after
    rw [spellOf_cons, bytesOf_cons, List.append_assoc, Loop.run,
      jsonStringStep_elem (h a List.mem_cons_self) cap hnext]
    rcases le_or_gt (buf.length + a.bytes.length) cap with hfits | hfits
    · rw [if_pos hfits]
      apply (ih hes hsep.2 (Nat.lt_of_succ_lt_succ hn) _).trans
      rw [List.append_assoc]
    · rw [if_neg (not_le.mpr hfits), if_neg]
      rw [List.length_append, List.length_append]
      omega

/-- An element is taken off a text. -/
structure TakesElem (a : JsonElem) (text text' bytes : List Byte) : Prop where
  valid : a.Valid
  text : text = a.spell ++ text'
  bytes : bytes = a.bytes
  next : a.IsHigh → ¬BeginsUnit text'

/-- What the case of `u` takes. -/
theorem exists_of_jsonUEscape {text text' bytes : List Byte} (h : jsonUEscape text = .ok (bytes, text')) :
  ∃ a, TakesElem a (0x5C :: 0x75 :: text) text' bytes
  := by
  rw [jsonUEscape] at h
  cases hhex : jsonHex4 text with
  | none =>
    rw [hhex] at h
    cases h
  | some r =>
    obtain ⟨cp, rest⟩ := r
    obtain ⟨hi, hhi, rfl, rfl⟩ := exists_of_jsonHex4 hhex
    rw [hhex] at h
    dsimp only at h
    split at h
    case isTrue hpair =>
      obtain ⟨hhigh, hlen, htake⟩ := hpair
      cases hlo : jsonHex4 (rest.drop 2) with
      | none =>
        rw [hlo] at h
        cases h
      | some r =>
        obtain ⟨lo, rest'⟩ := r
        obtain ⟨lohex, hlohex, hdrop, rfl⟩ := exists_of_jsonHex4 hlo
        rw [hlo] at h
        dsimp only at h
        split at h
        case isTrue => cases h
        case isFalse hrange =>
          simp only [Except.ok.injEq, Prod.mk.injEq] at h
          obtain ⟨rfl, rfl⟩ := h
          have hrest : rest = 0x5C :: 0x75 :: (lohex ++ rest') := by
            rw [← List.take_append_drop 2 rest, htake, hdrop]
            rfl
          use .pair hi lohex
          constructor
          case valid =>
            have hrange' : 0xDC00 ≤ hexValue lohex ∧ hexValue lohex ≤ 0xDFFF := by omega
            apply And.intro (And.intro hhi hhigh) (And.intro hlohex hrange')
          case text =>
            rw [hrest, JsonElem.spell, List.cons_append, List.cons_append, List.append_assoc]
            rfl
          case bytes => rfl
          case next =>
            intro hfalse
            cases hfalse
    case isFalse hpair =>
      cases h
      use .unit hi
      constructor
      case valid => apply hhi
      case text => rfl
      case bytes => rfl
      case next =>
        rintro hhigh ⟨hlen, htake⟩
        apply hpair ⟨hhigh, hlen, htake⟩

/-- What an escape takes. -/
theorem exists_of_jsonEscape {e : Byte} {text text' bytes : List Byte}
    (h : jsonEscape e text = .ok (bytes, text')) :
  ∃ a, TakesElem a (0x5C :: e :: text) text' bytes
  := by
  rw [jsonEscape] at h
  cases he : jsonLetter e with
  | some b =>
    rw [he] at h
    cases h
    use .letter e
    constructor
    case valid =>
      rw [JsonElem.Valid, he]
      rfl
    case text => rfl
    case bytes =>
      rw [JsonElem.bytes, he]
      rfl
    case next =>
      intro hfalse
      cases hfalse
  | none =>
    rw [he] at h
    dsimp only at h
    split at h
    case isTrue hu =>
      rw [hu]
      apply exists_of_jsonUEscape h
    case isFalse => cases h

/-- A turn of the loop that goes on takes an element. -/
theorem exists_of_jsonStringStep_inl {cap : Nat} {text buf text' buf' : List Byte}
    (h : jsonStringStep cap (text, buf) = .inl (text', buf')) :
  ∃ a bytes, TakesElem a text text' bytes ∧ buf' = buf ++ bytes
  := by
  cases text with
  | nil => cases h
  | cons c text =>
    rw [jsonStringStep.eq_def] at h
    dsimp only at h
    split at h
    case isTrue => cases h
    case isFalse hq =>
      split at h
      case isTrue hb =>
        split at h
        case isTrue =>
          cases h
          use .plain c, [c]
          constructor
          · constructor
            case valid => use hq, hb
            case text => rfl
            case bytes => rfl
            case next =>
              intro hfalse
              cases hfalse
          · rfl
        case isFalse => cases h
      case isFalse hb =>
        obtain rfl : c = 0x5C := not_not.mp hb
        cases text with
        | nil => cases h
        | cons e text =>
          dsimp only at h
          cases he : jsonEscape e text with
          | error err =>
            rw [he] at h
            cases h
          | ok r =>
            obtain ⟨bytes, rest⟩ := r
            rw [he] at h
            dsimp only at h
            split at h
            case isFalse => cases h
            case isTrue =>
              cases h
              obtain ⟨a, ha⟩ := exists_of_jsonEscape he
              use a, bytes, ha

/-- A turn of the loop that ends it with a string is at the closing quote. -/
theorem eq_of_jsonStringStep_inr {cap : Nat} {text buf out after : List Byte}
    (h : jsonStringStep cap (text, buf) = .inr (.ok (out, after))) :
  text = 0x22 :: after ∧ out = buf
  := by
  cases text with
  | nil => cases h
  | cons c text =>
    rw [jsonStringStep.eq_def] at h
    dsimp only at h
    split at h
    case isTrue hq =>
      split at h
      case isTrue =>
        cases h
        use congrArg (· :: after) hq
      case isFalse => cases h
    case isFalse =>
      split at h
      case isTrue => split at h <;> cases h
      case isFalse =>
        cases text with
        | nil => cases h
        | cons e text =>
          dsimp only at h
          split at h
          · cases h
          · split at h <;> cases h

/-- What the loop accepts with any buffer is a text of elements, and the string what they denote. -/
theorem exists_of_jsonString_loop {cap n : Nat} {text buf out after : List Byte}
    (h : Loop.run (jsonStringStep cap) n (text, buf) = some (.ok (out, after))) :
  ∃ es, (∀ a ∈ es, JsonElem.Valid a) ∧ Separate es ∧ text = spellOf es ++ 0x22 :: after ∧
    out = buf ++ bytesOf es
  := by
  induction n generalizing text buf with
  | zero => cases h
  | succ n ih =>
    rw [Loop.run] at h
    cases hstep : jsonStringStep cap (text, buf) with
    | inl s =>
      obtain ⟨text', buf'⟩ := s
      rw [hstep] at h
      obtain ⟨a, bytes, ha, rfl⟩ := exists_of_jsonStringStep_inl hstep
      obtain ⟨es, hes, hsep, rfl, rfl⟩ := ih h
      use a :: es
      constructor
      · intro b hb
        rcases List.mem_cons.mp hb with rfl | hb
        · apply ha.valid
        · apply hes b hb
      · constructor
        · constructor
          · intro hhigh b hb hunit
            apply ha.next hhigh
            obtain ⟨es, rfl⟩ : ∃ es', es = b :: es' := List.head?_eq_some_iff.mp hb
            rw [spellOf_cons, List.append_assoc]
            apply beginsUnit_spell (hes b List.mem_cons_self) hunit
          · apply hsep
        · rw [ha.text, ha.bytes, spellOf_cons, bytesOf_cons, List.append_assoc, List.append_assoc]
          use rfl
    | inr r =>
      rw [hstep] at h
      cases h
      obtain ⟨rfl, rfl⟩ := eq_of_jsonStringStep_inr hstep
      use []
      simp [Separate, spellOf, bytesOf]

/-- `jsonString` reads elements when what they denote, and a 0, have room in the buffer. -/
theorem jsonString_spellOf {es : List JsonElem} (h : ∀ a ∈ es, a.Valid) (hsep : Separate es)
    (after : List Byte) {fuel : Nat} (hfuel : es.length < fuel) :
  jsonString fuel (spellOf es ++ 0x22 :: after)
    = if (bytesOf es).length < jsonCapacity (spellOf es).length then .ok (bytesOf es, after)
      else .error .overrun
  := by
  rw [jsonString, jsonScan_spellOf h, zero_add]
  dsimp only
  rw [jsonString_loop h hsep _ _ hfuel, List.nil_append, Option.getD_some]

/-! ### Escaped strings -/

/-- The element that a byte is written as. -/
def elemOf (c : Byte) : JsonElem :=
  if c = 0x22 then .letter 0x22
  else if c = 0x5C then .letter 0x5C
  else if c = 0x08 then .letter 0x62
  else if c = 0x0C then .letter 0x66
  else if c = 0x0A then .letter 0x6E
  else if c = 0x0D then .letter 0x72
  else if c = 0x09 then .letter 0x74
  else if c < 0x20 then .unit [0x30, 0x30, jsonHexChar (c.toNat / 16), jsonHexChar (c.toNat % 16)]
  else .plain c

theorem jsonHexDigit_jsonHexChar :
  ∀ d < 16, jsonHexDigit (jsonHexChar d) = some d
  := by
  decide

/-- The digits of a byte are those of its number. -/
theorem hexValue_byte (c : Byte) :
  IsHex4 [0x30, 0x30, jsonHexChar (c.toNat / 16), jsonHexChar (c.toNat % 16)]
    ∧ hexValue [0x30, 0x30, jsonHexChar (c.toNat / 16), jsonHexChar (c.toNat % 16)] = c.toNat
  := by
  have hlt := c.isLt
  have hzero : jsonHexDigit 0x30 = some 0 := rfl
  have hhi := jsonHexDigit_jsonHexChar (c.toNat / 16) (by omega)
  have hlo := jsonHexDigit_jsonHexChar (c.toNat % 16) (by omega)
  constructor
  · use rfl
    intro d hd
    simp only [List.mem_cons, List.not_mem_nil, or_false] at hd
    rcases hd with rfl | rfl | rfl | rfl
    · rfl
    · rfl
    · rw [hhi]
      rfl
    · rw [hlo]
      rfl
  · simp only [hexValue, List.foldl_cons, List.foldl_nil, hzero, hhi, hlo, Option.getD_some]
    omega

/-- A byte is written as an element that denotes it. -/
theorem elemOf_spec (c : Byte) :
  ((elemOf c).Valid ∧ ¬(elemOf c).IsHigh) ∧ (elemOf c).spell = jsonEscapeByte c ∧ (elemOf c).bytes = [c]
  := by
  rw [elemOf, jsonEscapeByte]
  split_ifs with hquote hslash hb hf hn hr ht hcontrol
  case pos =>
    rw [hquote]
    decide
  case pos =>
    rw [hslash]
    decide
  case pos =>
    rw [hb]
    decide
  case pos =>
    rw [hf]
    decide
  case pos =>
    rw [hn]
    decide
  case pos =>
    rw [hr]
    decide
  case pos =>
    rw [ht]
    decide
  case pos =>
    -- a control character is its own code unit
    obtain ⟨hhex, hvalue⟩ := hexValue_byte c
    have hlt : c.toNat < 0x20 := BitVec.lt_def.mp hcontrol
    have hlow : isHighSurrogate c.toNat = false := by
      rw [isHighSurrogate, decide_eq_false_iff_not]
      omega
    refine ⟨⟨hhex, ?_⟩, rfl, ?_⟩
    · rw [JsonElem.IsHigh, hvalue, hlow]
      decide
    · rw [JsonElem.bytes, hvalue, jsonUtf8Encode, if_pos (by omega), BitVec.ofNat_toNat, BitVec.setWidth_eq]
  case neg => exact ⟨⟨⟨hquote, hslash⟩, id⟩, rfl, rfl⟩

/-- A string is written as elements that denote it. -/
theorem jsonEscaped_eq (s : List Byte) :
  jsonEscaped s = spellOf (s.map elemOf) ∧ bytesOf (s.map elemOf) = s ∧
    (∀ a ∈ s.map elemOf, a.Valid) ∧ Separate (s.map elemOf)
  := by
  induction s with
  | nil => simp [jsonEscaped, spellOf, bytesOf, Separate]
  | cons c s ih =>
    obtain ⟨hspell, hbytes, hvalid, hsep⟩ := ih
    obtain ⟨⟨hv, hhigh⟩, hs, hb⟩ := elemOf_spec c
    rw [List.map_cons, spellOf_cons, bytesOf_cons, hs, hb, ← hspell, hbytes]
    use rfl, rfl
    constructor
    · intro a ha
      rcases List.mem_cons.mp ha with rfl | ha
      · apply hv
      · apply hvalid a ha
    · use fun h => absurd h hhigh, hsep

/-- A text of elements between quotes is read as what they denote when that, and a 0, have room in the
buffer. -/
theorem jsonParse_spellOf (beyond : List Byte) {es : List JsonElem} (h : ∀ a ∈ es, a.Valid)
    (hsep : Separate es) {fuel : Nat} (hfuel : es.length < fuel) :
  jsonParse beyond (fuel + 1) (0x22 :: (spellOf es ++ [0x22]))
    = if (bytesOf es).length < jsonCapacity (spellOf es).length then .ok (.string (bytesOf es))
      else .error .overrun
  := by
  have hstring := jsonString_spellOf h hsep [] hfuel
  have hws : jsonSkipWs (0x22 :: (spellOf es ++ [0x22])) = 0x22 :: (spellOf es ++ [0x22]) := rfl
  have hobject : (0x22 : Byte) ≠ 0x7B ∧ (0x22 : Byte) ≠ 0x5B := by decide
  rw [jsonParse, jsonValue, if_neg (by decide), hws]
  dsimp only
  rw [if_neg hobject.1, if_neg hobject.2, jsonScalar, if_pos rfl, List.tail_cons, hstring]
  split
  · rfl
  · rfl

/-- A string that has a text is not longer than it. -/
theorem length_le_jsonEscaped (s : List Byte) :
  s.length ≤ (jsonEscaped s).length
  := by
  obtain ⟨hspell, hbytes, hvalid, -⟩ := jsonEscaped_eq s
  have hle := length_bytesOf_le hvalid
  rwa [hbytes, ← hspell] at hle

/-- The text that is written of a string is read as the string. -/
theorem jsonParse_escaped (beyond : List Byte) {s : List Byte} (h : NeverCut s) {fuel : Nat}
    (hfuel : s.length < fuel) :
  jsonParse beyond (fuel + 1) (0x22 :: (jsonEscaped s ++ [0x22])) = .ok (.string s)
  := by
  obtain ⟨hspell, hbytes, hvalid, hsep⟩ := jsonEscaped_eq s
  have hlen : (s.map elemOf).length < fuel := by
    rw [List.length_map]
    apply hfuel
  have hroom : s.length < jsonCapacity (jsonEscaped s).length := by
    have hle := length_le_jsonEscaped s
    have hlt := length_jsonEscaped_of_neverCut h
    rw [jsonCapacity, arenaAlignMemorySize_toNat, BitVec.toNat_add, BitVec.toNat_ofNat]
    have hone : (1 : BitVec 32).toNat = 1 := rfl
    omega
  rw [hspell] at hroom ⊢
  rw [jsonParse_spellOf beyond hvalid hsep hlen, hbytes, if_pos hroom]

/-! ### The buffer -/

/-- A string is read back as it was escaped exactly when the buffer of its text is never extended beyond
2³¹ bytes, which holds for every text of fewer than 2³¹ - 10 characters and for none of 2³¹ + 11 * 2¹⁶ or
more; and any string that is accepted with some buffer is a text of elements, what it denotes is not longer,
and it is written within that buffer exactly when it and a 0 have room. -/
theorem jsonEscapeInto_roundTrips_iff (beyond s text out after : List Byte) :
  ((∃ buf, jsonEscapeInto .new s = some buf
      ∧ ∃ n, ∀ fuel ≥ n, jsonParse beyond fuel (0x22 :: (buf.data ++ [0x22])) = .ok (.string s))
    ↔ NeverCut s)
  ∧ ((jsonEscaped s).length + 10 < 2 ^ 31 → NeverCut s)
  ∧ (NeverCut s → (jsonEscaped s).length < 2 ^ 31 + 11 * 2 ^ 16)
  ∧ ((∃ cap fuel, Loop.run (jsonStringStep cap) fuel (text, []) = some (.ok (out, after))) →
    ∃ es, (∀ a ∈ es, JsonElem.Valid a) ∧ Separate es ∧ text = spellOf es ++ 0x22 :: after ∧
      out = bytesOf es ∧ (bytesOf es).length ≤ (spellOf es).length ∧
      ((∃ n, ∀ fuel ≥ n, jsonString fuel text = .ok (out, after))
        ↔ (bytesOf es).length < jsonCapacity (spellOf es).length))
  := by
  refine ⟨⟨?_, ?_⟩, neverCut_of_length, length_jsonEscaped_of_neverCut, ?_⟩
  · rintro ⟨buf, hbuf, -⟩
    exact (jsonEscapeInto_isSome_iff s).mp ⟨buf, hbuf⟩
  · intro hnever
    obtain ⟨buf, hbuf⟩ := (jsonEscapeInto_isSome_iff s).mpr hnever
    obtain ⟨hdata, -⟩ := jsonEscapeInto_doubled JsonOut.doubled_new hbuf
    refine ⟨buf, hbuf, s.length + 2, ?_⟩
    intro fuel hfuel
    obtain ⟨fuel, rfl⟩ : ∃ k, fuel = k + 1 := ⟨fuel - 1, by omega⟩
    rw [hdata]
    exact jsonParse_escaped beyond hnever (by omega)
  · rintro ⟨cap, fuel, h⟩
    obtain ⟨es, hvalid, hsep, htext, hout⟩ := exists_of_jsonString_loop h
    rw [List.nil_append] at hout
    use es, hvalid, hsep, htext, hout, length_bytesOf_le hvalid
    constructor
    · rintro ⟨n, hn⟩
      have h := hn (max n (es.length + 1)) (by omega)
      rw [htext, jsonString_spellOf hvalid hsep after (by omega)] at h
      by_contra hroom
      rw [if_neg hroom] at h
      cases h
    · intro hroom
      use es.length + 1
      intro fuel hfuel
      rw [htext, jsonString_spellOf hvalid hsep after (by omega), if_pos hroom, hout]

/-- A string of two bytes is read back, and so is a text of two escapes. -/
theorem jsonEscapeInto_roundTrips_two :
  (∃ buf, jsonEscapeInto .new [0x22, 0x61] = some buf
      ∧ ∃ n, ∀ fuel ≥ n, jsonParse [] fuel (0x22 :: (buf.data ++ [0x22])) = .ok (.string [0x22, 0x61]))
    ∧ ∃ es, [0x5C, 0x75, 0x30, 0x30, 0x30, 0x37, 0x22] = spellOf es ++ [0x22] ∧ bytesOf es = [0x07]
  := by
  obtain ⟨hwriter, hshort, -, hreader⟩ := jsonEscapeInto_roundTrips_iff [] [0x22, 0x61]
    [0x5C, 0x75, 0x30, 0x30, 0x30, 0x37, 0x22] [0x07] []
  constructor
  · exact hwriter.mpr (hshort (by decide))
  · obtain ⟨es, _, _, htext, hout, _⟩ := hreader ⟨8, 3, by decide⟩
    use es, htext, hout.symm

/-- Letters are elements that are written as they are. -/
theorem plain_replicate (n : Nat) :
  (∀ a ∈ List.replicate n (JsonElem.plain 0x61), a.Valid) ∧ Separate (List.replicate n (.plain 0x61))
    ∧ (spellOf (List.replicate n (.plain 0x61))).length = n
    ∧ (bytesOf (List.replicate n (.plain 0x61))).length = n
  := by
  induction n with
  | zero => simp [Separate, spellOf, bytesOf]
  | succ n ih =>
    obtain ⟨hvalid, hsep, hspell, hbytes⟩ := ih
    rw [List.replicate_succ, spellOf_cons, bytesOf_cons, List.length_append, List.length_append, hspell, hbytes]
    refine ⟨List.forall_mem_cons.mpr ⟨by decide, hvalid⟩, ⟨?_, hsep⟩, Nat.add_comm 1 n, Nat.add_comm 1 n⟩
    intro hhigh
    cases hhigh

/-- Four gigabytes of letters have no text, and a text of four gigabytes but for eight bytes is written
behind a buffer of none. -/
theorem not_jsonEscapeInto_roundTrips :
  (¬∃ buf, jsonEscapeInto .new (List.replicate (2 ^ 32) 0x61) = some buf)
    ∧ ∃ n, ∀ fuel ≥ n,
      jsonParse [] fuel (0x22 :: (spellOf (List.replicate (2 ^ 32 - 8) (.plain 0x61)) ++ [0x22]))
        = .error .overrun
  := by
  constructor
  · rw [jsonEscapeInto_isSome_iff]
    intro hnever
    have hlt := length_jsonEscaped_of_neverCut hnever
    have hle := length_le_jsonEscaped (List.replicate (2 ^ 32) 0x61)
    rw [List.length_replicate] at hle
    omega
  · use 2 ^ 32
    intro fuel hfuel
    obtain ⟨fuel, rfl⟩ : ∃ k, fuel = k + 1 := ⟨fuel - 1, by omega⟩
    obtain ⟨hvalid, hsep, hspell, hbytes⟩ := plain_replicate (2 ^ 32 - 8)
    rw [jsonParse_spellOf [] hvalid hsep (by rw [List.length_replicate]; omega), hspell, hbytes]
    apply if_neg
    decide

end Polyc
