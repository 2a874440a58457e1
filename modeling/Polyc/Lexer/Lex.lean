import Polyc.Lexer.Cursor

/-!
# Tokens of a source

The lexer up to its directives: which characters make a token, and what the token has.  What is
outside of the sources is a parameter: the bits of a float that is converted from a text, the
files, the parser that evaluates what stands in a directive, and what is found in memory where
nothing was written yet.
-/

namespace Polyc.Lex

open Numeric StringLiteral

/-! ### Constants -/

/-- The numbers of the operators that are longer than a character. -/
inductive TkOp where
  | plusPlus | minusMinus | dblColon | shl | shr | equEqu | notEqu | lessEqu | greaterEqu | andAnd
  | orOr | shlEqu | shrEqu | mulEqu | divEqu | andEqu | orEqu | xorEqu | addEqu | subEqu | modEqu
  | ellipsis | arrow
  deriving DecidableEq

/-- The number of an operator. -/
def TkOp.code : TkOp → Nat
  | plusPlus => 0x305
  | minusMinus => 0x306
  | dblColon => 0x308
  | shl => 0x309
  | shr => 0x30A
  | equEqu => 0x30B
  | notEqu => 0x30C
  | lessEqu => 0x30D
  | greaterEqu => 0x30E
  | andAnd => 0x30F
  | orOr => 0x310
  | shlEqu => 0x312
  | shrEqu => 0x313
  | mulEqu => 0x314
  | divEqu => 0x315
  | andEqu => 0x316
  | orEqu => 0x317
  | xorEqu => 0x318
  | addEqu => 0x319
  | subEqu => 0x31A
  | modEqu => 0x322
  | ellipsis => 0x324
  | arrow => 0x328

/-- The keywords that the lexer looks at. -/
inductive Kw where
  | asm | defined | ppInclude | ppIf | ppElse | ppDefine | ppIfNDef | ppIfDef | ppElifDef | ppEndif
  | ppElif | ppUndef | ppError | ppLink | ppIfJit | ppIfAot
  deriving DecidableEq

/-- The number of a keyword. -/
def Kw.code : Kw → Nat
  | ppInclude => 12
  | asm => 28
  | defined => 58
  | ppIf => 69
  | ppElse => 70
  | ppDefine => 71
  | ppIfNDef => 72
  | ppIfDef => 73
  | ppElifDef => 74
  | ppEndif => 75
  | ppElif => 76
  | ppUndef => 78
  | ppError => 79
  | ppLink => 87
  | ppIfJit => 88
  | ppIfAot => 89

/-- The entries of `lexer_types`, keywords with their numbers. -/
def lexerTypes : List (String × Nat) :=
  [("U0", 0), ("Bool", 3), ("I8", 5), ("U8", 7), ("I16", 9), ("U16", 11), ("I32", 13), ("U32", 15),
    ("I64", 17), ("U64", 19), ("F32", 85), ("F64", 4), ("auto", 62), ("_extern", 30),
    ("extern", 32), ("asm", 28), ("switch", 20), ("case", 22), ("break", 24), ("continue", 26),
    ("while", 40), ("do", 66), ("for", 38), ("goto", 44), ("default", 64), ("return", 18),
    ("try", 80), ("catch", 81), ("throw", 82), ("reg", 83), ("noreg", 84), ("if", 46),
    ("else", 48), ("define", 10), ("ifndef", 52), ("ifdef", 54), ("elifdef", 68), ("endif", 56),
    ("elif", 50), ("defined", 58), ("undef", 60), ("#if", 69), ("#else", 70), ("#define", 71),
    ("#ifndef", 72), ("#ifdef", 73), ("#elifdef", 74), ("#endif", 75), ("#elif", 76),
    ("#defined", 77), ("#undef", 78), ("#error", 79), ("#include", 12), ("#link", 87),
    ("#ifjit", 88), ("#ifaot", 89), ("sizeof", 16), ("alignof", 86), ("typeof", 90),
    ("inline", 36), ("atomic", 8), ("volatile", 42), ("public", 6), ("private", 34), ("class", 1),
    ("union", 2), ("static", 67)]

/-- The number of a text in the symbol table. -/
def symbolTable (text : List Char) : Option Nat := lexerTypes.lookup (String.ofList text)

/-! ### Tokens -/

/-- What is outside of the sources: what stands in memory after the null character of a text, the
conversion to a float, the directory of `#include <..>`, the files, the value of the tokens of a
`#if`, the macro of the tokens of a `#define`, and what is in memory before anything is written.
The parser gives nothing where it raises an exception. -/
structure Outside where
  memory : SrcFile → List Char
  f64Bits : List Char → BitVec 64
  builtinRoot : List Char
  openFile : List Char → Option (List Char)
  evalIf : TkType → List Lexeme → Option Bool
  evalDefine : TkType → List Lexeme → Option Lexeme
  unset : Lexeme

/-- `tokenPunctIs`. -/
def tokenPunctIs (tok : Lexeme) (ch : Char) : Bool := tok.tkType = .punct && tok.i64 = charCode ch

/-- A token that is a keyword. -/
def Lexeme.isKw (le : Lexeme) (kw : Kw) : Bool :=
  le.tkType = .keyword && le.i64 = BitVec.ofNat 64 kw.code

/-- The text of the current file from the last character that was taken on. -/
def Lexer.here (l : Lexer) : List Char := l.cur.file.src.drop (l.cur.ptr - 1)

/-- What stands in memory from the last character that was taken on.  A token that goes on in the
file that includes its own has a length that reaches beyond the text. -/
def Lexer.bytes (o : Outside) (l : Lexer) : List Char := l.here ++ '\x00' :: o.memory l.cur.file

/-- The place of the token that begins with the last character that was taken. -/
def Lexer.mark (l : Lexer) (ch : Char) : Lexer :=
  let start := if ch = '\x00' then l.cur.ptr else l.cur.ptr - 1
  { l with
    tokStartLine := l.cur.lineno
    tokStartCol := if l.cur.lineStart ≤ start then start - l.cur.lineStart + 1 else 1
    place := ⟨l.cur.file, start, l.switches, l.miscounts⟩ }

/-- `lexemeAssignOp` for an operator of `n` characters. -/
def Lexeme.assignOp (le : Lexeme) (l : Lexer) (n : Nat) (op : BitVec 64) : Lexeme :=
  { le with tkType := .punct, text := l.here.take n, i64 := op }

/-- `lexClassifyOperator`: the number and the length of the operator that begins with `ch`, with
the two characters after it. -/
def lexClassifyOperator (multiColon : Bool) (ch p₁ p₂ : Char) : Option (BitVec 64 × Nat) :=
  let op (tk : TkOp) (n : Nat) : Option (BitVec 64 × Nat) := some (BitVec.ofNat 64 tk.code, n)
  let single : Option (BitVec 64 × Nat) := some (charCode ch, 1)
  match ch with
  | '=' => if p₁ = '=' then op .equEqu 2 else single
  | '<' =>
    if p₁ = '=' then op .lessEqu 2
    else if p₁ = '<' then if p₂ = '=' then op .shlEqu 3 else op .shl 2
    else single
  | '>' =>
    if p₁ = '=' then op .greaterEqu 2
    else if p₁ = '>' then if p₂ = '=' then op .shrEqu 3 else op .shr 2
    else single
  | '+' => if p₁ = '+' then op .plusPlus 2 else if p₁ = '=' then op .addEqu 2 else single
  | '-' =>
    if p₁ = '-' then op .minusMinus 2
    else if p₁ = '>' then op .arrow 2
    else if p₁ = '=' then op .subEqu 2
    else single
  | '!' => if p₁ = '=' then op .notEqu 2 else single
  | '&' => if p₁ = '&' then op .andAnd 2 else if p₁ = '=' then op .andEqu 2 else single
  | '|' => if p₁ = '|' then op .orOr 2 else if p₁ = '=' then op .orEqu 2 else single
  | '*' => if p₁ = '=' then op .mulEqu 2 else single
  | '%' => if p₁ = '=' then op .modEqu 2 else single
  | '^' => if p₁ = '=' then op .xorEqu 2 else single
  | ':' => if multiColon ∧ p₁ = ':' then op .dblColon 2 else single
  | '~' | '(' | ')' | ',' | ';' | '[' | ']' | '{' | '}' | '\\' => single
  | _ => none

/-- A number at the last character that was taken: the branches of `lexCore` for a digit, and for
a point before one. -/
def lexNumber (o : Outside) (le : Lexeme) : LexM Lexeme := do
  let l ← get
  match lexNumeric l.here with
  | none => throw .raise
  | some (token, taken) =>
    advance (taken.length - 1)
    match token with
    | .i64 value _ => return { le with tkType := .i64, text := taken, i64 := value }
    | .f64 converted => return { le with tkType := .f64, text := taken, i64 := o.f64Bits converted }

/-- The directives that are skipped to the end of the line. -/
def isSkipped (text : List Char) : Bool :=
  text = "help_index".toList || text = "help_file".toList || text = "assert".toList

/-- `lexPreProcDirective`, with the lexer that it calls: the number of the directive, or nothing
for one that is skipped or that does not come. -/
def lexPreProcDirective (o : Outside) (lex : Lexeme → LexM (Bool × Lexeme)) :
    LexM (Option Nat) := do
  let (ok, le) ← lex o.unset
  if !ok then return none
  else if isSkipped le.text then
    modify fun l => { l with cur := skipLine l.cur }
    return none
  else
    match symbolTable ('#' :: le.text) with
    | some kind => return some kind
    | none => throw .raise

/-- `lex`, after the loop of `lexCore`: the place of the token. -/
def lexWith (core : Lexeme → LexM (Bool × Lexeme)) (le : Lexeme) : LexM (Bool × Lexeme) := do
  let (ok, le) ← core le
  if !ok then return (ok, le)
  else
    let l ← get
    return (ok, { le with line := l.tokStartLine, col := l.tokStartCol, place := l.place })

/-- `lexCore`: whether there is a token, and the token that it is written to. -/
def lexCore (o : Outside) : Nat → Lexeme → LexM (Bool × Lexeme)
  | 0, _ => throw .fuel
  | fuel + 1, le => do
    let ch ← lexNextChar
    modify fun l => l.mark ch
    let l ← get
    if ch = '\r' ∨ ch = '\n' then
      newline
      miscount (ch = '\r')
      if l.acceptNewlines then return (true, le.assignOp l 1 (charCode ch))
      else lexCore o fuel le
    else if ch = '\t' ∨ ch = ' ' then lexCore o fuel le
    else if ch = '\x00' then return (false, le)
    else if isNum ch then
      let le ← lexNumber o le
      return (true, le)
    else if ch = '\x22' then
      let b ← strLoop fuel ⟨[], 64, 0, false, false⟩
      return (true, { le with
        tkType := .str
        text := b.text
        i64 := BitVec.ofInt 64 (if b.isBytes then b.realLen else b.realLen + 1) })
    else if ch = '\x27' then
      let (value, len) ← charLoop fuel 0 0 false
      return (true, { le with
        tkType := .charConst
        text := ((l.bytes o).drop 1).take len
        i64 := value })
    else if ch = '/' then
      let p ← lexPeek
      if p = '/' ∨ p = '*' then
        lexSkipCodeComment
        lexCore o fuel le
      else if p = '=' then
        advance 1
        return (true, le.assignOp l 2 (BitVec.ofNat 64 TkOp.divEqu.code))
      else return (true, le.assignOp l 1 (charCode ch))
    else if ch = '$' ∨ ch = '@' then lexCore o fuel le
    else if ch = '.' then
      let p ← lexPeek
      if isNum p then
        let le ← lexNumber o le
        return (true, le)
      else if p = '.' then
        advance 1
        let p ← lexPeek
        if p = '.' then
          advance 1
          return (true, le.assignOp l 3 (BitVec.ofNat 64 TkOp.ellipsis.code))
        else throw .raise
      else return (true, le.assignOp l 1 (charCode ch))
    else if ch = '#' then
      match ← lexPreProcDirective o (lexWith (lexCore o fuel)) with
      | none => lexWith (lexCore o fuel) le
      | some kind =>
        modify fun l' => { l' with place := l.place }
        return (true, { le with tkType := .keyword, i64 := BitVec.ofNat 64 kind })
    else if ch.isAlpha ∨ ch = '_' then
      let len ← identLoop fuel ch 0
      let text := (l.bytes o).take len
      match symbolTable text with
      | some kind =>
        return (true, { le with tkType := .keyword, text := text, i64 := BitVec.ofNat 64 kind })
      | none => return (true, { le with tkType := .ident, text := text })
    else
      let p ← lexPeek
      match lexClassifyOperator l.multiColon ch p ((l.here.drop 2).headD '\x00') with
      | some (op, n) =>
        advance (n - 1)
        return (true, le.assignOp l n op)
      | none => lexCore o fuel le

/-- `lex`. -/
def lex (o : Outside) (fuel : Nat) (le : Lexeme) : LexM (Bool × Lexeme) :=
  lexWith (lexCore o fuel) le

end Polyc.Lex
