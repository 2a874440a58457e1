import Polyc.Lib.Loop
import Polyc.Memory.Arena

/-!
# The JSON reader

The reader of `json.c`.  The place in the text is given by the bytes from it up to the
length, so that nothing is read behind it but by `strtoll`, which goes on with the bytes behind the length.
A string is written to a buffer of the arena, and writing behind that is told apart from an error.
-/

namespace Polyc

open Bytes (Byte)

/-! ### Results -/

/-- The texts of `err`. -/
inductive JsonErr where
  | unterminatedString
  | badUEscape
  | badSurrogatePair
  | badEscape
  | badNumber
  | expectedCommaOrBracket
  | expectedObjectKey
  | expectedColon
  | expectedCommaOrBrace
  | nestingTooDeep
  | badLiteral
  | unexpectedEndOfInput
  | unexpectedCharacter
  | trailingBytes
  deriving DecidableEq

/-- What ends the reading before there is a value: an error, a byte written behind a buffer, or no more
fuel. -/
inductive JsonStop where
  | err (e : JsonErr)
  | overrun
  | fuel
  deriving DecidableEq

/-- A value; a float is the text that `strtod` is given. -/
inductive Json where
  | null
  | bool (boolean : Bool)
  | int (i : Int)
  | float (text : List Byte)
  | string (str : List Byte)
  | array (elems : List Json)
  | object (members : List (List Byte × Json))

/-! ### Strings -/

/-- `jsonSkipWs`. -/
def jsonSkipWs (text : List Byte) : List Byte :=
  text.dropWhile fun c => c = 0x20 ∨ c = 0x09 ∨ c = 0x0A ∨ c = 0x0D

/-- The value of a hexadecimal digit. -/
def jsonHexDigit (c : Byte) : Option Nat :=
  if 0x30 ≤ c ∧ c ≤ 0x39 then some (c.toNat - 0x30)
  else if 0x61 ≤ c ∧ c ≤ 0x66 then some (c.toNat - 0x61 + 10)
  else if 0x41 ≤ c ∧ c ≤ 0x46 then some (c.toNat - 0x41 + 10)
  else none

/-- `jsonHex4`. -/
def jsonHex4 : List Byte → Option (Nat × List Byte)
  | a :: b :: c :: d :: rest => do
    let a ← jsonHexDigit a
    let b ← jsonHexDigit b
    let c ← jsonHexDigit c
    let d ← jsonHexDigit d
    return (((a * 16 + b) * 16 + c) * 16 + d, rest)
  | _ => none

/-- `jsonUtf8Encode`. -/
def jsonUtf8Encode (cp : Nat) : List Byte :=
  if cp < 0x80 then [BitVec.ofNat 8 cp]
  else if cp < 0x800 then [0xC0 ||| BitVec.ofNat 8 (cp >>> 6), 0x80 ||| BitVec.ofNat 8 (cp &&& 0x3F)]
  else if cp < 0x10000 then
    [0xE0 ||| BitVec.ofNat 8 (cp >>> 12), 0x80 ||| BitVec.ofNat 8 (cp >>> 6 &&& 0x3F),
      0x80 ||| BitVec.ofNat 8 (cp &&& 0x3F)]
  else
    [0xF0 ||| BitVec.ofNat 8 (cp >>> 18), 0x80 ||| BitVec.ofNat 8 (cp >>> 12 &&& 0x3F),
      0x80 ||| BitVec.ofNat 8 (cp >>> 6 &&& 0x3F), 0x80 ||| BitVec.ofNat 8 (cp &&& 0x3F)]

/-- The loop of `jsonString` that looks for the closing quote: how many bytes come before it. -/
def jsonScan : List Byte → Nat → Option Nat
  | [], _ => none
  | c :: rest, n =>
    if c = 0x22 then some n
    else if c = 0x5C then
      match rest with
      | [] => none
      | _ :: rest => jsonScan rest (n + 2)
    else jsonScan rest (n + 1)

/-- The size of the buffer that `jsonString` allocates. -/
def jsonCapacity (span : Nat) : Nat := (arenaAlignMemorySize (BitVec.ofNat 32 span + 1)).toNat

/-- A surrogate that begins a pair. -/
def isHighSurrogate (cp : Nat) : Bool := 0xD800 ≤ cp ∧ cp ≤ 0xDBFF

/-- The cases of the escapes with one letter in `jsonString`. -/
def jsonLetter (e : Byte) : Option Byte :=
  if e = 0x22 then some 0x22
  else if e = 0x5C then some 0x5C
  else if e = 0x2F then some 0x2F
  else if e = 0x62 then some 0x08
  else if e = 0x66 then some 0x0C
  else if e = 0x6E then some 0x0A
  else if e = 0x72 then some 0x0D
  else if e = 0x74 then some 0x09
  else none

/-- The case of `u` in `jsonString`: what is written, and the text behind it. -/
def jsonUEscape (text : List Byte) : Except JsonErr (List Byte × List Byte) :=
  match jsonHex4 text with
  | none => .error .badUEscape
  | some (cp, text) =>
    if isHighSurrogate cp ∧ 6 ≤ text.length ∧ text.take 2 = [0x5C, 0x75] then
      match jsonHex4 (text.drop 2) with
      | none => .error .badSurrogatePair
      | some (lo, text) =>
        if lo < 0xDC00 ∨ 0xDFFF < lo then .error .badSurrogatePair
        else .ok (jsonUtf8Encode (0x10000 + ((cp - 0xD800) <<< 10) + (lo - 0xDC00)), text)
    else .ok (jsonUtf8Encode cp, text)

/-- The `switch` of `jsonString` behind a `\`. -/
def jsonEscape (e : Byte) (text : List Byte) : Except JsonErr (List Byte × List Byte) :=
  match jsonLetter e with
  | some b => .ok ([b], text)
  | none => if e = 0x75 then jsonUEscape text else .error .badEscape

/-- A turn of the loop of `jsonString` on the text and what is in the buffer of `cap` bytes. -/
def jsonStringStep (cap : Nat) :
    List Byte × List Byte → List Byte × List Byte ⊕ Except JsonStop (List Byte × List Byte)
  | ([], _) => .inr (.error (.err .unterminatedString))
  | (c :: text, buf) =>
    if c = 0x22 then .inr (if buf.length < cap then .ok (buf, text) else .error .overrun)
    else if c ≠ 0x5C then
      if buf.length < cap then .inl (text, buf ++ [c]) else .inr (.error .overrun)
    else
      match text with
      | [] => .inr (.error (.err .unterminatedString))
      | e :: text =>
        match jsonEscape e text with
        | .error e => .inr (.error (.err e))
        | .ok (bytes, text) =>
          if buf.length + bytes.length ≤ cap then .inl (text, buf ++ bytes) else .inr (.error .overrun)

/-- `jsonString` behind the opening quote: the string and the text behind it. -/
def jsonString (fuel : Nat) (text : List Byte) : Except JsonStop (List Byte × List Byte) :=
  match jsonScan text 0 with
  | none => .error (.err .unterminatedString)
  | some span =>
    (Loop.run (jsonStringStep (jsonCapacity span)) fuel (text, [])).getD (.error .fuel)

/-! ### Values -/

/-- A decimal digit. -/
def isJsonDigit (c : Byte) : Bool := 0x30 ≤ c ∧ c ≤ 0x39

/-- A byte that `jsonNumber` takes for one of a number. -/
def isJsonNumber (c : Byte) : Bool :=
  isJsonDigit c || (c = 0x2E || c = 0x65 || c = 0x45 || c = 0x2B || c = 0x2D)

/-- `strtoll` to base 10 on a text that begins with a `-` or a digit. -/
def jsonStrtoll (text : List Byte) : Int :=
  let value (digits : List Byte) : Nat := digits.foldl (fun n c => n * 10 + (c.toNat - 0x30)) 0
  match text with
  | 0x2D :: text => max (-2 ^ 63) (-(value (text.takeWhile isJsonDigit) : Int))
  | text => min (2 ^ 63 - 1) (value (text.takeWhile isJsonDigit) : Int)

/-- `jsonLiteral`. -/
def jsonLiteral (text lit : List Byte) : Option (List Byte) :=
  if text.take lit.length = lit then some (text.drop lit.length) else none

section

-- what is in memory behind the length
variable (beyond : List Byte)

/-- `jsonNumber`. -/
def jsonNumber (text : List Byte) : Except JsonErr (Json × List Byte) :=
  let sign : List Byte := if text.head? = some 0x2D then [0x2D] else []
  let body := text.drop sign.length
  let digits := body.takeWhile isJsonNumber
  if digits = [] then .error .badNumber
  else if digits.all isJsonDigit then
    .ok (.int (jsonStrtoll (text ++ beyond)), body.dropWhile isJsonNumber)
  else .ok (.float (text ++ beyond), body.dropWhile isJsonNumber)

/-- The case of a value that is neither an object nor an array. -/
def jsonScalar (fuel : Nat) (c : Byte) (text : List Byte) : Except JsonStop (Json × List Byte) :=
  if c = 0x22 then do
    let (str, text) ← jsonString fuel text.tail
    return (.string str, text)
  else if c = 0x74 then
    match jsonLiteral text [0x74, 0x72, 0x75, 0x65] with
    | some text => .ok (.bool true, text)
    | none => .error (.err .badLiteral)
  else if c = 0x66 then
    match jsonLiteral text [0x66, 0x61, 0x6C, 0x73, 0x65] with
    | some text => .ok (.bool false, text)
    | none => .error (.err .badLiteral)
  else if c = 0x6E then
    match jsonLiteral text [0x6E, 0x75, 0x6C, 0x6C] with
    | some text => .ok (.null, text)
    | none => .error (.err .badLiteral)
  else if c = 0x2D ∨ isJsonDigit c then
    match jsonNumber beyond text with
    | .ok r => .ok r
    | .error e => .error (.err e)
  else .error (.err .unexpectedCharacter)

mutual

/-- `jsonValue` at a depth of nesting. -/
def jsonValue : Nat → Nat → List Byte → Except JsonStop (Json × List Byte)
  | 0, _, _ => .error .fuel
  | fuel + 1, depth, text =>
    if depth + 1 > 128 then .error (.err .nestingTooDeep)
    else
      match jsonSkipWs text with
      | [] => .error (.err .unexpectedEndOfInput)
      | c :: text =>
        if c = 0x7B then
          match jsonSkipWs text with
          | 0x7D :: text => .ok (.object [], text)
          | text => do
            let (members, text) ← jsonMembers fuel (depth + 1) text
            return (.object members, text)
        else if c = 0x5B then
          match jsonSkipWs text with
          | 0x5D :: text => .ok (.array [], text)
          | text => do
            let (elems, text) ← jsonElems fuel (depth + 1) text
            return (.array elems, text)
        else jsonScalar beyond fuel c (c :: text)

/-- The loop of `jsonArray`. -/
def jsonElems : Nat → Nat → List Byte → Except JsonStop (List Json × List Byte)
  | 0, _, _ => .error .fuel
  | fuel + 1, depth, text => do
    let (v, text) ← jsonValue fuel depth text
    match jsonSkipWs text with
    | 0x2C :: text =>
      let (vs, text) ← jsonElems fuel depth text
      return (v :: vs, text)
    | 0x5D :: text => return ([v], text)
    | _ => .error (.err .expectedCommaOrBracket)

/-- The loop of `jsonObject`. -/
def jsonMembers : Nat → Nat → List Byte → Except JsonStop (List (List Byte × Json) × List Byte)
  | 0, _, _ => .error .fuel
  | fuel + 1, depth, text =>
    match jsonSkipWs text with
    | 0x22 :: text => do
      let (key, text) ← jsonString fuel text
      match jsonSkipWs text with
      | 0x3A :: text =>
        let (v, text) ← jsonValue fuel depth text
        match jsonSkipWs text with
        | 0x2C :: text =>
          let (ms, text) ← jsonMembers fuel depth text
          return ((key, v) :: ms, text)
        | 0x7D :: text => return ([(key, v)], text)
        | _ => .error (.err .expectedCommaOrBrace)
      | _ => .error (.err .expectedColon)
    | _ => .error (.err .expectedObjectKey)

end

/-- `jsonParse`. -/
def jsonParse (fuel : Nat) (text : List Byte) : Except JsonStop Json := do
  let (j, text) ← jsonValue beyond fuel 0 text
  if jsonSkipWs text = [] then return j else .error (.err .trailingBytes)

end

end Polyc
