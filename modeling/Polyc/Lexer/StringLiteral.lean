import Polyc.Lexer.Numeric

/-!
# String literals

The scanner of string literals, which stores escapes in their textual form, the places that join
and count what it stores, and the decoder that turns it into the bytes of the program.  A source
is the characters from the cursor to the terminating null character, a buffer what was written to
it so far, whose capacity is a `u32`.
-/

namespace Polyc.StringLiteral

open Numeric

/-! ### The scanner -/

/-- The variables of `lexString`; `text` is the first `len` characters of `buffer`, and `overrun`
says that a write was at or beyond the capacity.  Before `len`, an `int`, passes its bound there was
such a write. -/
structure Buffer where
  text : List Char
  capacity : Nat
  realLen : Int
  isBytes : Bool
  overrun : Bool
  deriving DecidableEq

/-- A write at the end of the text. -/
def Buffer.put (b : Buffer) (ch : Char) : Buffer :=
  { b with
    text := b.text ++ [ch]
    overrun := b.overrun || decide (b.capacity ≤ b.text.length) }

/-- Writes one after the other. -/
def Buffer.puts (b : Buffer) (chs : List Char) : Buffer := chs.foldl Buffer.put b

/-- What the loop of `lexString` does before it looks at a character: it counts it, and doubles
the buffer when there are three characters or fewer left, to nothing at 2³¹. -/
def Buffer.next (b : Buffer) : Buffer :=
  { b with
    realLen := b.realLen + 1
    capacity :=
      if b.capacity ≤ (b.text.length + 3) % 2 ^ 32 then b.capacity * 2 % 2 ^ 32 else b.capacity }

/-- `lexNextChar`, which stays at the end of the source. -/
def lexNextChar : List Char → Char × List Char
  | [] => ('\x00', [])
  | ch :: src => (ch, src)

/-- The branch of `lexString` after a backslash; there is no result for an invalid escape
character. -/
def lexEscape (permissive : Bool) (b : Buffer) (src : List Char) : Option (Buffer × List Char) :=
  let ch := (lexNextChar src).1
  let src := (lexNextChar src).2
  let b := b.put '\\'
  match ch with
  | '\\' | '\x27' | '0' | '\x60' | '\x22' | 'n' | 'r' | 't' | 'b' | 'f' => some (b.put ch, src)
  | 'v' => some (b.puts ['x', '0', 'B'], src)
  | 'x' | 'X' =>
    let h₁ := lexNextChar src
    let h₂ := lexNextChar h₁.2
    some ({ b with isBytes := true }.puts ['x', h₁.1.toUpper, h₂.1.toUpper], h₂.2)
  | ch => if permissive then some (b.put ch, src) else none

/-- The branch of `lexString` for any other character. -/
def lexTyped (b : Buffer) (ch : Char) : Buffer :=
  match ch with
  | '\n' => b.puts ['\\', 'n']
  | '\t' => b.puts ['\\', 't']
  | '\r' => b.puts ['\\', 'r']
  | '\x0C' => b.puts ['\\', 'f']
  | '\x0B' => b.puts ['\\', 'x', '0', 'B']
  | ch => b.put ch

/-- A character less is left. -/
theorem lexNextChar_length_le (src : List Char) :
  (lexNextChar src).2.length ≤ src.length
  := by
  cases src with
  | nil => apply Nat.le_refl
  | cons ch src => apply Nat.le_succ

/-- An escape takes characters of the source only. -/
theorem lexEscape_length_le {permissive : Bool} {b b' : Buffer} {src rest : List Char}
    (h : lexEscape permissive b src = some (b', rest)) :
  rest.length ≤ src.length
  := by
  have h₁ := lexNextChar_length_le src
  have h₂ := lexNextChar_length_le (lexNextChar src).2
  have h₃ := lexNextChar_length_le (lexNextChar (lexNextChar src).2).2
  simp only [lexEscape] at h
  split at h <;> simp only [Option.ite_none_right_eq_some, Option.some.injEq, Prod.mk.injEq] at h
  all_goals grind

/-- The loop of `lexString`. -/
def lexStringLoop (permissive : Bool) (terminator : Char) (b : Buffer) (src : List Char) :
    Option (Buffer × List Char) :=
  match src with
  | [] => some (b.next, [])
  | ch :: src =>
    if ch = terminator then some (b, src)
    else if ch = '\\' then
      match _ : lexEscape permissive b.next src with
      | none => none
      | some (b, rest) => lexStringLoop permissive terminator b rest
    else lexStringLoop permissive terminator (lexTyped b.next ch) src
  termination_by src.length
  decreasing_by
  · apply Nat.lt_succ_of_le
    apply lexEscape_length_le ‹_›
  · apply Nat.lt_succ_self

/-- A string token: its text and `i64`. -/
structure StrTok where
  text : List Char
  i64 : Int
  deriving DecidableEq

/-- What a call of `lexString` leaves behind: the token, whether it wrote at or beyond the
capacity of its buffer, and the source that is left. -/
structure Lexed where
  tok : StrTok
  overrun : Bool
  rest : List Char
  deriving DecidableEq

/-- `lexString` with its cursor after the opening quote; there is no result for an invalid escape
character. -/
def lexString (permissive : Bool) (terminator : Char) (src : List Char) : Option Lexed :=
  (lexStringLoop permissive terminator ⟨[], 64, 0, false, false⟩ src).map fun (b, rest) =>
    ⟨⟨b.text, if b.isBytes then b.realLen else b.realLen + 1⟩, (b.put '\x00').overrun, rest⟩

/-! ### The users of the text -/

/-- A string node: `sval` and `real_len`. -/
structure StrAst where
  sval : List Char
  realLen : Int
  deriving DecidableEq

/-- `astString`. -/
def astString (str : List Char) (realLen : Int) : StrAst :=
  if str.length = 0 then ⟨['\\', '0'], 1⟩ else ⟨str, realLen⟩

/-- The table `strs`: string nodes by the text that they were made for. -/
structure Strs where
  entries : List (List Char × StrAst)
  made : ∀ entry ∈ entries, entry.2 = astString entry.1 entry.2.realLen

/-- The node of a text in the table. -/
def Strs.get (strs : Strs) (str : List Char) : Option StrAst := strs.entries.lookup str

/-- A node made anew. -/
theorem astString_realLen (str : List Char) (realLen : Int) :
  astString str realLen = astString str (astString str realLen).realLen
  := by
  simp only [astString]
  split <;> rfl

/-- The table with a new node for a text. -/
def Strs.add (strs : Strs) (str : List Char) (realLen : Int) : Strs where
  entries := (str, astString str realLen) :: strs.entries
  made entry h := by
    rcases List.mem_cons.1 h with rfl | h
    · apply astString_realLen
    · apply strs.made entry h

/-- `cctrlGetOrSetString`. -/
def cctrlGetOrSetString (strs : Strs) (str : List Char) (realLen : Int) : StrAst × Strs :=
  match strs.get str with
  | some ast => (ast, strs)
  | none => (astString str realLen, strs.add str realLen)

/-- A token of the parser: a string, or another one. -/
inductive Lexeme where
  | str (tok : StrTok)
  | other
  deriving DecidableEq

/-- The loop of `parsePrimary` over adjacent strings. -/
def catStrings : List Lexeme → List Char → Int → List Char × Int × List Lexeme
  | .str tok :: toks, str, realLen => catStrings toks (str ++ tok.text) (realLen + (tok.i64 - 1))
  | toks, str, realLen => (str, realLen, toks)

/-- `parsePrimary` at a string. -/
def parsePrimary (strs : Strs) (toks : List Lexeme) : StrAst × Strs × List Lexeme :=
  let (str, realLen, toks) := catStrings toks [] 0
  let (ast, strs) := cctrlGetOrSetString strs str (realLen + 1)
  (ast, strs, toks)

/-- `parseVariableAssignment` for an array of `U8` at a string: the length of the array after it,
unless the one that it was declared with is another. -/
def parseVariableAssignment (strs : Strs) (declared : Option Nat) (tok : StrTok) :
    Option (Nat × StrAst × Strs) :=
  let (init, strs) := cctrlGetOrSetString strs tok.text tok.i64
  let len := init.sval.length + 1
  match declared with
  | none => some (len, init, strs)
  | some declared => if declared ≠ len then none else some (declared, init, strs)

/-! ### The decoder -/

/-- A digit to base eight. -/
def isOctal (ch : Char) : Bool := '0' ≤ ch && ch ≤ '7'

/-- Digits of the kind `p` that are read after each other, `n` at most, with the number that they
add to `v` and what is left. -/
def readDigits (base : Nat) (p : Char → Bool) : Nat → Nat → List Char → Nat × List Char
  | 0, v, s => (v, s)
  | _ + 1, v, [] => (v, [])
  | n + 1, v, ch :: s =>
    if p ch then readDigits base p n (v * base + digit ch) s else (v, ch :: s)

/-- The byte of a number. -/
def byte (v : Nat) : Char := Char.ofNat (v % 256)

/-- An escape of `jitAllocateGlobals`, whose character after the backslash is `n`: the byte that
it stands for and the text that is left. -/
def decodeEscape (n : Char) (s : List Char) : Char × List Char :=
  if isOctal n then
    let (v, s) := readDigits 8 isOctal 2 (digit n) s
    (byte v, s)
  else
    match n with
    | 'n' => ('\n', s)
    | 't' => ('\t', s)
    | 'r' => ('\r', s)
    | 'b' => ('\x08', s)
    | 'f' => ('\x0C', s)
    | 'v' => ('\x0B', s)
    | 'a' => ('\x07', s)
    | 'e' => ('\x1B', s)
    | '\\' => ('\\', s)
    | '\x22' => ('\x22', s)
    | '\x27' => ('\x27', s)
    | '?' => ('?', s)
    | 'x' | 'X' =>
      let (v, s) := readDigits 16 isHex 2 0 s
      (byte v, s)
    | n => (n, s)

/-- Reading digits leaves no more than there was. -/
theorem readDigits_length_le (base : Nat) (p : Char → Bool) (n v : Nat) (s : List Char) :
  (readDigits base p n v s).2.length ≤ s.length
  := by
  induction n, v, s using readDigits.induct base p with
  | case1 => apply Nat.le_refl
  | case2 => apply Nat.le_refl
  | case3 n v ch s hp ih =>
    rw [readDigits, if_pos hp]
    apply le_trans ih
    apply Nat.le_succ
  | case4 n v ch s hp =>
    rw [readDigits, if_neg hp]

/-- An escape leaves no more than there was. -/
theorem decodeEscape_length_le (n : Char) (s : List Char) :
  (decodeEscape n s).2.length ≤ s.length
  := by
  have h₁ := readDigits_length_le 8 isOctal 2 (digit n) s
  have h₂ := readDigits_length_le 16 isHex 2 0 s
  simp only [decodeEscape]
  split
  · apply h₁
  · split
    all_goals first | apply Nat.le_refl | apply h₂

/-- The loop of `jitAllocateGlobals` over the text of a string. -/
def decode : List Char → List Char
  | [] => []
  | [c] => [c]
  | c :: n :: s =>
    if c ≠ '\\' then c :: decode (n :: s)
    else (decodeEscape n s).1 :: decode (decodeEscape n s).2
  termination_by s => s.length
  decreasing_by
  · apply Nat.lt_succ_self
  · have h := decodeEscape_length_le n s
    simp only [List.length_cons]
    omega

/-! ### What a literal denotes -/

/-- The escapes of one letter. -/
inductive Escape where
  | backslash
  | quote
  | zero
  | backtick
  | doubleQuote
  | newline
  | carriageReturn
  | tab
  | backspace
  | formFeed
  | verticalTab
  deriving DecidableEq

/-- The letter of an escape. -/
def Escape.letter : Escape → Char
  | backslash => '\\'
  | quote => '\x27'
  | zero => '0'
  | backtick => '\x60'
  | doubleQuote => '\x22'
  | newline => 'n'
  | carriageReturn => 'r'
  | tab => 't'
  | backspace => 'b'
  | formFeed => 'f'
  | verticalTab => 'v'

/-- The character that an escape stands for. -/
def Escape.value : Escape → Char
  | backslash => '\\'
  | quote => '\x27'
  | zero => '\x00'
  | backtick => '\x60'
  | doubleQuote => '\x22'
  | newline => '\n'
  | carriageReturn => '\r'
  | tab => '\t'
  | backspace => '\x08'
  | formFeed => '\x0C'
  | verticalTab => '\x0B'

/-- A hexadecimal digit. -/
abbrev HexDigit := { ch : Char // isHex ch = true }

/-- An element of a literal: a typed character, an escape of one letter, or a byte by its two
hexadecimal digits. -/
inductive Elem where
  | typed (ch : Char) (h : ch ≠ '\x22' ∧ ch ≠ '\\' ∧ ch ≠ '\x00')
  | escape (e : Escape)
  | bytes (capital : Bool) (h₁ h₂ : HexDigit)

/-- The characters of an element in the source. -/
def Elem.spell : Elem → List Char
  | typed ch _ => [ch]
  | escape e => ['\\', e.letter]
  | bytes capital h₁ h₂ => ['\\', if capital then 'X' else 'x', h₁.val, h₂.val]

/-- The character that an element stands for. -/
def Elem.value : Elem → Char
  | typed ch _ => ch
  | escape e => e.value
  | bytes _ h₁ h₂ => Char.ofNat (digit h₁.val * 16 + digit h₂.val)

/-- The source of a literal after its opening quote. -/
def spell (lit : List Elem) : List Char := lit.flatMap Elem.spell ++ ['\x22']

/-! ### Literals that are kept -/

/-- The characters of a typed element that are stored as an escape. -/
def isControl (ch : Char) : Bool :=
  ch = '\n' || ch = '\t' || ch = '\r' || ch = '\x0C' || ch = '\x0B'

/-- A typed character that is stored as it is. -/
def Elem.isPlain : Elem → Bool
  | typed ch _ => !isControl ch
  | _ => false

/-- An element that is stored as four characters. -/
def Elem.isWide : Elem → Bool
  | typed ch _ => ch = '\x0B'
  | escape e => e = .verticalTab
  | bytes _ _ _ => true

/-- A byte by its hexadecimal digits. -/
def Elem.isBytes : Elem → Bool
  | bytes _ _ _ => true
  | _ => false

/-- The number of characters that an element is stored as. -/
def Elem.width (e : Elem) : Nat := if e.isPlain then 1 else if e.isWide then 4 else 2

/-- The null character is not followed by a typed octal digit. -/
def Elem.Apart : Elem → Elem → Prop
  | escape .zero, typed ch _ => isOctal ch = false
  | _, _ => True

/-- Before the last element of a literal its buffer need not pass 2³¹ characters. -/
def Short (lit : List Elem) : Prop := (lit.dropLast.map Elem.width).sum + 3 < 2 ^ 31

/-- A literal that ends in an element stored as four characters, the last of which is the last
one that its buffer has room for. -/
def FillsBuffer (lit : List Elem) : Prop :=
  (lit.getLast?.any Elem.isWide) = true ∧ ∃ k, (lit.map Elem.width).sum = 64 * 2 ^ k

end Polyc.StringLiteral
