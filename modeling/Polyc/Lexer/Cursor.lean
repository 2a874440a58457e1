import Polyc.Lexer.StringLiteral

/-!
# The cursor of the lexer

The files that the lexer reads, one of them current and the others suspended, and the loops that
move the cursor over the characters of a token.  A program of the lexer changes its state and
stops when it raises an exception, when it touches memory beyond a buffer, or when its bound on
the steps of a loop is used up.  The lexer is the one of a compilation, which keeps neither white
space nor comments and is not permissive.
-/

namespace Polyc.Lex

open Numeric StringLiteral

/-! ### The lexer -/

/-- A source file: its name and its text up to the first null character. -/
structure SrcFile where
  filename : List Char
  src : List Char
  deriving DecidableEq

/-- The record `LexFile`: a file, where the cursor is in it, the number of the line and where that
begins. -/
structure LexFile where
  file : SrcFile
  ptr : Nat
  lineno : Nat
  lineStart : Nat
  deriving DecidableEq

/-- The types of tokens. -/
inductive TkType where
  | sentinal | ident | i64 | charConst | f64 | str | punct | keyword
  deriving DecidableEq

/-- The place of a character: its file, where it is in it, and how often the lexer had gone to
another file and had lost count of the lines before it.  Nothing in the lexer reads it. -/
structure Place where
  file : SrcFile
  offset : Nat
  switches : Nat
  miscounts : Nat
  deriving DecidableEq

/-- The record `Lexeme`, with the place of the first character of the token. -/
structure Lexeme where
  tkType : TkType
  text : List Char
  i64 : BitVec 64
  line : Nat
  col : Nat
  place : Place
  deriving DecidableEq

/-- The record `Lexer`: the current file, those that are suspended, the last one first, the files
that were seen, the flags, where the token begins, and the macros.  Its place, and how often it has
gone to another file and lost count of the lines, is kept beside them. -/
structure Lexer where
  cur : LexFile
  files : List LexFile
  seen : List (List Char)
  acceptNewlines : Bool
  multiColon : Bool
  asmBlock : Bool
  collecting : Bool
  skipElse : Bool
  tokStartLine : Nat
  tokStartCol : Nat
  place : Place
  switches : Nat
  miscounts : Nat
  macroDefs : List (List Char × Lexeme)
  deriving DecidableEq

/-- Why a program of the lexer stops. -/
inductive Stop where
  | raise | overrun | fuel
  deriving DecidableEq

/-- A program of the lexer. -/
abbrev LexM := StateT Lexer (Except Stop)

/-! ### Characters -/

/-- The character at a place of the current file; its text ends with the null character. -/
def LexFile.char (f : LexFile) : Option Char :=
  if f.ptr < f.file.src.length then f.file.src[f.ptr]?
  else if f.ptr = f.file.src.length then some '\x00'
  else none

/-- `lexPeek`. -/
def lexPeek : LexM Char := fun l =>
  match l.cur.char with
  | some ch => .ok (ch, l)
  | none => .error .overrun

/-- The cursor moves by some characters. -/
def advance (n : Nat) : LexM Unit :=
  modify fun l => { l with cur := { l.cur with ptr := l.cur.ptr + n } }

/-- `lexNextChar`: at the end of a file it goes on in the last one that is suspended, and moves
the cursor of that one in any case. -/
def lexNextChar : LexM Char := do
  let ch ← lexPeek
  if ch = '\x00' then
    match (← get).files with
    | [] => return '\x00'
    | f :: files =>
      modify fun l => { l with cur := f, files := files, switches := l.switches + 1 }
      let ch ← lexPeek
      advance 1
      return ch
  else
    advance 1
    return ch

/-- `lexRewindChar`. -/
def lexRewindChar : LexM Unit :=
  modify fun l => { l with cur := { l.cur with ptr := l.cur.ptr - 1 } }

/-- The number of a character that is read as a signed byte and widened. -/
def charCode (ch : Char) : BitVec 64 :=
  if ch.toNat < 128 then BitVec.ofNat 64 ch.toNat
  else (BitVec.ofNat 8 ch.toNat).signExtend 64

/-- A new line begins at the cursor. -/
def LexFile.newline (f : LexFile) : LexFile :=
  { f with lineno := f.lineno + 1, lineStart := f.ptr }

/-- What the lexer does when it has taken the end of a line. -/
def newline : LexM Unit := modify fun l => { l with cur := l.cur.newline }

/-- The lexer loses count of the lines, under a condition. -/
def miscount (c : Bool) : LexM Unit :=
  modify fun l => { l with miscounts := l.miscounts + c.toNat }

/-- `lexNextChar` where an end of a line is not counted. -/
def lexUncounted : LexM Char := do
  let ch ← lexNextChar
  miscount (ch = '\n')
  return ch

/-! ### Comments -/

/-- The loop of `lexSkipCodeComment` over a comment to the end of the line. -/
def skipLine (f : LexFile) : LexFile :=
  { f with ptr := f.ptr + ((f.file.src.drop f.ptr).takeWhile (· ≠ '\n')).length }

/-- The loop of `lexSkipCodeComment` over a block comment, on the text from the cursor on. -/
def skipBlock : List Char → LexFile → LexFile
  | [], f => f
  | ch :: rest, f =>
    if ch = '*' ∧ rest.head? = some '/' then { f with ptr := f.ptr + 2 }
    else if ch = '\n' then
      skipBlock rest { f with ptr := f.ptr + 1, lineno := f.lineno + 1, lineStart := f.ptr + 1 }
    else skipBlock rest { f with ptr := f.ptr + 1 }

/-- `lexSkipCodeComment`, at the second character of a comment. -/
def lexSkipCodeComment : LexM Unit := do
  let ch ← lexPeek
  if ch = '/' then modify fun l => { l with cur := skipLine l.cur }
  else if ch = '*' then
    modify fun l => { l with cur := skipBlock (l.cur.file.src.drop l.cur.ptr) l.cur }

/-! ### Words -/

/-- The characters of an identifier. -/
def isIdent (ch : Char) : Bool := ch.isAlphanum || ch = '_' || ch = '$'

/-- The loop of `lexIdentifier`: the length of an identifier, of which `i` characters come before
`ch`. -/
def identLoop : Nat → Char → Nat → LexM Nat
  | 0, _, _ => throw .fuel
  | fuel + 1, ch, i => do
    if ch ≠ '\x00' ∧ isIdent ch then
      let next ← lexNextChar
      identLoop fuel next (i + 1)
    else
      if ch ≠ '\x00' then lexRewindChar
      return i

/-- The loop of `lexString`, whose terminator is a double quote. -/
def strLoop : Nat → Buffer → LexM Buffer
  | 0, _ => throw .fuel
  | fuel + 1, b => do
    let ch ← lexNextChar
    if ch = '\x22' then return b
    else
      if ch = '\n' then newline
      if ch = '\x00' then return b.next
      else if ch = '\\' then
        let ch ← lexNextChar
        if ch = 'x' ∨ ch = 'X' then
          let h₁ ← lexUncounted
          let h₂ ← lexUncounted
          match lexEscape false b.next [ch, h₁, h₂] with
          | some (b, _) => strLoop fuel b
          | none => throw .raise
        else
          match lexEscape false b.next [ch] with
          | some (b, _) => strLoop fuel b
          | none => throw .raise
      else strLoop fuel (lexTyped b.next ch)

/-- The number of a character after a backslash in a character constant. -/
def charEscape (ch : Char) : BitVec 64 :=
  match ch with
  | '0' => charCode '\x00'
  | '\x27' => charCode '\x27'
  | '\x60' => charCode '\x60'
  | '\x22' => charCode '\x22'
  | 'd' => charCode '$'
  | 'n' => charCode '\n'
  | 'r' => charCode '\r'
  | 't' => charCode '\t'
  | 'v' => charCode '\x0B'
  | 'f' => charCode '\x0C'
  | _ => charCode '\\'

/-- The loop of `lexCharConst` over the digits of a hexadecimal escape. -/
def hexLoop : Nat → BitVec 64 → LexM (BitVec 64)
  | 0, num => return num
  | n + 1, num => do
    let ch := (← lexPeek).toUpper
    if isHex ch then
      let _ ← lexNextChar
      hexLoop n (num * 16 + BitVec.ofNat 64 (digit ch))
    else return num

/-- `LEX_CHAR_CONST_LEN`. -/
def lexCharConstLen : Nat := 8

/-- The loop of `lexCharConst`: the number and the length of a constant; it raises an exception
after it where the constant is too long or does not end. -/
def charLoop : Nat → Nat → BitVec 64 → Bool → LexM (BitVec 64 × Nat)
  | 0, _, _, _ => throw .fuel
  | fuel + 1, len, value, overflowed => do
    let ch ← lexUncounted
    if ch = '\x00' ∨ ch = '\x27' then
      if overflowed then throw .raise
      if ch = '\x00' then throw .raise
      return (value, len)
    else if lexCharConstLen ≤ len then
      if ch = '\\' then let _ ← lexUncounted
      charLoop fuel (len + 1) value true
    else if ch = '\\' then
      let ch ← lexUncounted
      if ch = 'x' ∨ ch = 'X' then
        let num ← hexLoop 2 0
        charLoop fuel (len + 1) (value ||| num <<< (len * 8)) overflowed
      else charLoop fuel (len + 1) (value ||| charEscape ch <<< (len * 8)) overflowed
    else charLoop fuel (len + 1) (value ||| charCode ch <<< (len * 8)) overflowed

end Polyc.Lex
