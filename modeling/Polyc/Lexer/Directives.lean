import Polyc.Lexer.Lex

/-!
# Directives of a source

`lexToken` and the directives that it reads, over the characters of the files.  Every loop has a
bound on its steps.
-/

namespace Polyc.Lex

/-! ### Macros -/

/-- `lexemeSentinal`. -/
def lexemeSentinal : Lexeme where
  tkType := .sentinal
  text := "(-sentinal-)".toList
  i64 := 0
  line := 1
  col := 0
  place := ⟨⟨[], []⟩, 0, 0, 0⟩

/-- The macro of a name. -/
def macroOf (name : List Char) : LexM (Option Lexeme) := fun l =>
  .ok (l.macroDefs.lookup name, l)

/-- `mapAdd` on the macros. -/
def addMacro (name : List Char) (le : Lexeme) : LexM Unit :=
  modify fun l => { l with macroDefs := (name, le) :: l.macroDefs }

/-- `mapRemove` on the macros. -/
def removeMacro (name : List Char) : LexM Unit :=
  modify fun l => { l with macroDefs := l.macroDefs.filter fun entry => entry.1 ≠ name }

/-- The flag for ends of lines. -/
def setAcceptNewlines (accept : Bool) : LexM Unit :=
  modify fun l => { l with acceptNewlines := accept }

/-! ### Files -/

/-- `lexReadfile`: a first line that is a shebang is blank. -/
def lexReadfile (text : List Char) : List Char :=
  if text.take 2 = ['#', '!'] then
    (text.takeWhile (· ≠ '\n')).map (fun _ => ' ') ++ text.dropWhile (· ≠ '\n')
  else text

/-- `lexPushFile`, with the text that the file has up to its first null character. -/
def lexPushFile (o : Outside) (path : List Char) : LexM Unit := do
  match o.openFile path with
  | none => throw .raise
  | some text =>
    let file : SrcFile := ⟨path, (lexReadfile text).takeWhile (· ≠ '\x00')⟩
    modify fun l => { l with
      cur := ⟨file, 0, 1, 0⟩
      files := l.cur :: l.files
      seen := path :: l.seen
      switches := l.switches + 1 }

/-- The path of `#include ".."`: a relative one is in the directory of the file that includes
it. -/
def resolve (base path : List Char) : List Char :=
  if path.head? ≠ some '/' ∧ '/' ∈ base then
    let directory := (base.reverse.dropWhile (· ≠ '/')).reverse
    let rel := if path.take 2 = ['.', '/'] then path.drop 2 else path
    directory ++ rel
  else path

/-- The loop of `lexInclude` over the tokens of `<..>`: it ends at a token whose number is that of
`>`. -/
def includeLoop (lex : Lexeme → LexM (Bool × Lexeme)) :
    Nat → List Char → Lexeme → LexM (List Char)
  | 0, _, _ => throw .fuel
  | fuel + 1, ident, next => do
    let (_, next') ← lex next
    if next'.i64 = charCode '>' then return ident ++ next.text
    else includeLoop lex fuel (ident ++ next.text) next'

/-- `lexInclude` up to the path of the file. -/
def includePath (o : Outside) (fuel : Nat) : LexM (List Char) := do
  let (_, next) ← lex o fuel o.unset
  if tokenPunctIs next '<' then
    let (_, next) ← lex o fuel next
    let ident ← includeLoop (lex o fuel) fuel [] next
    return o.builtinRoot ++ '/' :: ident
  else if next.tkType = .str then
    let l ← get
    return resolve l.cur.file.filename next.text
  else throw .raise

/-- `lexInclude`. -/
def lexInclude (o : Outside) (fuel : Nat) : LexM Unit := do
  let path ← includePath o fuel
  let l ← get
  if path ∉ l.seen then lexPushFile o path

/-- The loop of `lexLink` over the tokens of `<..>`. -/
def linkLoop (lex : Lexeme → LexM (Bool × Lexeme)) : Nat → Lexeme → LexM Unit
  | 0, _ => throw .fuel
  | fuel + 1, next => do
    let (ok, next) ← lex next
    if !ok then throw .raise
    if tokenPunctIs next '>' then return ()
    else linkLoop lex fuel next

/-- `lexLink`. -/
def lexLink (o : Outside) (fuel : Nat) : LexM Unit := do
  let (ok, next) ← lex o fuel o.unset
  if !ok then throw .raise
  if tokenPunctIs next '<' then linkLoop (lex o fuel) fuel next
  else if next.tkType ≠ .str then throw .raise

/-! ### Definitions -/

/-- The end of the line of a directive. -/
def isLineEnd (next : Lexeme) : Bool := tokenPunctIs next '\n' || tokenPunctIs next '\x00'

/-- The types of tokens that an expression or a string begins with. -/
def isValue : TkType → Bool
  | .f64 | .i64 | .str | .charConst => true
  | _ => false

/-- The loop of `lexDefine`: the tokens of the line, macros replaced, and the type that it finds
for them. -/
def defineLoop (lex : Lexeme → LexM (Bool × Lexeme)) :
    Nat → TkType → List Lexeme → Lexeme → LexM (TkType × List Lexeme)
  | 0, _, _, _ => throw .fuel
  | fuel + 1, tkType, tokens, next => do
    let (ok, next) ← lex next
    if !ok then return (tkType, tokens)
    match next.tkType, ← macroOf next.text with
    | .ident, some m => defineLoop lex fuel m.tkType (tokens ++ [m]) next
    | _, _ =>
      let tkType :=
        if tkType = .sentinal ∧ isValue next.tkType then next.tkType else tkType
      if isLineEnd next then return (tkType, tokens)
      else defineLoop lex fuel tkType (tokens ++ [next]) next

/-- `lexDefine`. -/
def lexDefine (o : Outside) (fuel : Nat) : LexM Unit := do
  let (_, next) ← lex o fuel o.unset
  if next.tkType ≠ .ident then throw .raise
  let ident := next.text
  setAcceptNewlines true
  let (tkType, tokens) ← defineLoop (lex o fuel) fuel .sentinal [] next
  setAcceptNewlines false
  match tokens with
  | [] => addMacro ident lexemeSentinal
  | start :: rest =>
    if tkType = .sentinal then throw .raise
    else if rest = [] then addMacro ident start
    else
      match o.evalDefine tkType tokens with
      | some expanded => addMacro ident expanded
      | none => throw .raise

/-- The size of the buffer `tmp` of `lexUndef`. -/
def undefBufferSize : Nat := 256

/-- `lexUndef`, which writes a terminator after a name of any length. -/
def lexUndef (o : Outside) (fuel : Nat) : LexM Unit := do
  let (_, next) ← lex o fuel o.unset
  if next.tkType ≠ .ident then throw .raise
  if undefBufferSize ≤ next.text.length then throw .overrun
  removeMacro next.text

/-! ### Conditions -/

/-- The literal that stands for a name in a condition. -/
def flagLiteral (next : Lexeme) (defined : Bool) : Lexeme :=
  { next with tkType := .i64, i64 := if defined then 1 else 0 }

/-- A backslash of a condition and the end of its line are taken, and the token after them comes
next; there is none at the end of the input. -/
def lexContinued (lex : Lexeme → LexM (Bool × Lexeme)) (next : Lexeme) :
    LexM (Option Lexeme) := do
  if tokenPunctIs next '\\' then
    let (ok, next) ← lex next
    if !ok then return none
    else if !tokenPunctIs next '\n' then throw .raise
    else
      let (ok, next) ← lex next
      return if ok then some next else none
  else return some next

/-- What `lexPreProcIf` collects: the type that it finds, whether it is in `defined(..)`, and the
tokens. -/
structure Condition where
  tkType : TkType
  inDefined : Bool
  tokens : List Lexeme

/-- What `lexPreProcIf` collects with one more token, whose macro is `m`. -/
def Condition.collect (c : Condition) (next : Lexeme) (m : Option Lexeme) : Condition :=
  let value := if c.tkType = .sentinal then TkType.i64 else c.tkType
  if next.tkType = .ident then
    if c.inDefined then { c with tokens := c.tokens ++ m.toList }
    else
      match m with
      | none => { c with tkType := value, tokens := c.tokens ++ [flagLiteral next false] }
      | some m =>
        if m.tkType = .sentinal then
          { c with tkType := value, tokens := c.tokens ++ [flagLiteral next true] }
        else { c with tkType := m.tkType, tokens := c.tokens ++ [m] }
  else
    let tkType :=
      if c.tkType = .sentinal ∧ isValue next.tkType ∧ next.tkType ≠ .str then next.tkType
      else c.tkType
    if isLineEnd next then { c with tkType := tkType }
    else
      { tkType := tkType
        inDefined :=
          if next.isKw .defined then true
          else if tokenPunctIs next ')' then false
          else c.inDefined
        tokens := c.tokens ++ [next] }

/-- The loop of `lexPreProcIf`. -/
def ifLoop (lex : Lexeme → LexM (Bool × Lexeme)) : Nat → Condition → Lexeme → LexM Condition
  | 0, _, _ => throw .fuel
  | fuel + 1, c, next => do
    if isLineEnd next then return c
    else
      match ← lexContinued lex next with
      | none => return c
      | some next =>
        let c := c.collect next (← macroOf next.text)
        let (ok, next) ← lex next
        if !ok then return c
        else ifLoop lex fuel c next

/-- `lexPreProcIf`. -/
def lexPreProcIf (o : Outside) (fuel : Nat) : LexM Bool := do
  setAcceptNewlines true
  let (ok, next) ← lex o fuel o.unset
  if !ok then throw .raise
  let c ← ifLoop (lex o fuel) fuel ⟨.sentinal, false, []⟩ next
  setAcceptNewlines false
  if c.tokens = [] then throw .raise
  match o.evalIf c.tkType c.tokens with
  | some ok => return ok
  | none => throw .raise

/-- The flags that a condition sets. -/
def setSkip (collecting skipElse : Bool) : LexM Unit :=
  modify fun l => { l with collecting := collecting, skipElse := skipElse }

/-- `lexPreProcBoolean`. -/
def lexPreProcBoolean (o : Outside) (fuel : Nat) (le : Lexeme) : LexM Bool := do
  let l ← get
  if le.isKw .ppIf then
    let ok ← lexPreProcIf o fuel
    setSkip ok ok
    return ok
  else if le.isKw .ppIfDef then
    let (_, next) ← lex o fuel o.unset
    let defined := (← macroOf next.text).isSome
    setSkip defined defined
    return defined
  else if le.isKw .ppIfJit ∨ le.isKw .ppIfAot then
    let flag := if le.isKw .ppIfJit then "__HCC_JIT__" else "__HCC_AOT__"
    let defined := (← macroOf flag.toList).isSome
    setSkip defined defined
    return defined
  else if le.isKw .ppIfNDef then
    let (_, next) ← lex o fuel o.unset
    let defined := (← macroOf next.text).isSome
    setSkip defined (!defined)
    return !defined
  else if le.isKw .ppElif then
    if l.skipElse then return false
    else
      let ok ← lexPreProcIf o fuel
      modify fun l => { l with skipElse := ok }
      return ok
  else if le.isKw .ppElifDef then
    if l.skipElse then return false
    else
      let (_, next) ← lex o fuel o.unset
      let defined := (← macroOf next.text).isSome
      setSkip defined defined
      return defined
  else if le.isKw .ppElse then
    if l.skipElse then return false
    else
      modify fun l => { l with collecting := true }
      return true
  else if le.isKw .ppEndif then
    setSkip true false
    return true
  else return false

/-- The loop of `lexToken` over a group that is left out. -/
def skipLoop (o : Outside) (fuel : Nat) : Nat → Lexeme → LexM Unit
  | 0, _ => throw .fuel
  | n + 1, le => do
    if ← lexPreProcBoolean o fuel le then return ()
    else
      let (ok, le) ← lex o fuel le
      if !ok then throw .raise
      skipLoop o fuel n le

/-- The loop of `lexToken` up to the end of a group of which a branch was taken. -/
def endifLoop (lex : Lexeme → LexM (Bool × Lexeme)) : Nat → Lexeme → LexM Unit
  | 0, _ => throw .fuel
  | fuel + 1, le => do
    let (ok, le) ← lex le
    if !ok then return ()
    if le.isKw .ppEndif then return ()
    else endifLoop lex fuel le

/-! ### The lexer -/

/-- What `lexToken` does with a lexeme: it returns a token, or it goes on. -/
inductive Turn where
  | token (le : Lexeme)
  | null
  | next

/-- The body of the loop of `lexToken`. -/
def lexTokenTurn (o : Outside) (fuel : Nat) : LexM Turn := do
  let (ok, le) ← lex o fuel o.unset
  if !ok then return .null
  let l ← get
  if l.asmBlock ∧ tokenPunctIs le '}' then
    modify fun l => { l with multiColon := false, acceptNewlines := false, asmBlock := false }
    return .token le
  else if le.isKw .asm then
    modify fun l => { l with multiColon := true, acceptNewlines := true, asmBlock := true }
    return .token le
  else if le.isKw .ppInclude then
    lexInclude o fuel
    return .next
  else if le.isKw .ppLink then
    lexLink o fuel
    return .next
  else if le.isKw .ppDefine then
    lexDefine o fuel
    return .next
  else if le.isKw .ppUndef then
    lexUndef o fuel
    return .next
  else if le.isKw .ppElifDef ∨ le.isKw .ppElif ∨ le.isKw .ppElse then
    if l.skipElse then
      endifLoop (lex o fuel) fuel le
      modify fun l => { l with skipElse := false }
      return .next
    else
      skipLoop o fuel fuel le
      return .next
  else if le.isKw .ppIfDef ∨ le.isKw .ppIfNDef ∨ le.isKw .ppIfJit ∨ le.isKw .ppIfAot ∨
      le.isKw .ppIf then
    skipLoop o fuel fuel le
    return .next
  else if le.isKw .ppEndif then
    modify fun l => { l with skipElse := false }
    return .next
  else if le.isKw .ppError then
    let _ ← lex o fuel o.unset
    throw .raise
  else return .token le

/-- `lexToken`: a token, or nothing at the end of the input. -/
def lexToken (o : Outside) (fuel : Nat) : Nat → LexM (Option Lexeme)
  | 0 => throw .fuel
  | n + 1 => do
    match ← lexTokenTurn o fuel with
    | .token le => return some le
    | .null => return none
    | .next => lexToken o fuel n

/-- The tokens that `lexToken` returns until there are no more. -/
def lexTokens (o : Outside) (fuel : Nat) : Nat → LexM (List Lexeme)
  | 0 => throw .fuel
  | n + 1 => do
    match ← lexToken o fuel fuel with
    | none => return []
    | some le => return le :: (← lexTokens o fuel n)

/-- The lexer at the start of the input: a file that is current, and files that were pushed before
it. -/
def Lexer.start (file : SrcFile) (suspended : List SrcFile)
    (macroDefs : List (List Char × Lexeme)) : Lexer where
  cur := ⟨file, 0, 1, 0⟩
  files := suspended.map fun file => ⟨file, 0, 1, 0⟩
  seen := (file :: suspended).map SrcFile.filename
  acceptNewlines := false
  multiColon := false
  asmBlock := false
  collecting := true
  skipElse := true
  tokStartLine := 1
  tokStartCol := 1
  place := ⟨file, 0, 0, 0⟩
  switches := 0
  miscounts := 0
  macroDefs := macroDefs

end Polyc.Lex
