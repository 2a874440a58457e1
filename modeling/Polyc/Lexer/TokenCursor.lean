import Polyc.Lexer.TokenBuffer

/-!
# The token ring as a cursor

The four calls by which the parser moves over its tokens: the next one, a look at it, a look
further ahead, and one step back.  The tokens come from a lexer that may also give comments,
which the calls pass over.  Beside them stands the list of the tokens that are no comments, with
a position in it.
-/

namespace Polyc.TokenStream

variable {τ : Type} (isComment : τ → Bool)

/-! ### The ring, looked at from its tail -/

/-- The entry that is `offset` places after the tail. -/
def entryAt (b : TokenRingBuffer τ) (offset : Nat) : Option τ :=
  b.entries.getD ((b.tail + offset) &&& (b.capacity - 1)) none

/-- `tokenRingBufferPeekBy`; `tokenRingBufferGetIdx` adds one to the index it is given. -/
def tokenRingBufferPeekBy (b : TokenRingBuffer τ) (offset : Nat) : Option τ :=
  if b.size = 0 then none
  else b.entries.getD (tokenRingBufferGetIdx (b.tail + offset) b.capacity) none

/-- The new tail in the loop of `tokenRingBufferRewind`; the capacity is a power of two, so that
the mask leaves the remainder. -/
def rewindIndex (capacity tail offset : Nat) : Nat :=
  (((tail : Int) - offset + capacity) % capacity).toNat

/-- The loop of `tokenRingBufferRewind`, whose offset grows at each turn; the tail it ends
with, if it ends within the given number of turns. -/
def rewindLoop (b : TokenRingBuffer τ) : Nat → Nat → Nat → Option Nat
  | 0, _, _ => none
  | fuel + 1, tail, offset =>
    let tail := rewindIndex b.capacity tail offset
    if (b.entries.getD tail none).any isComment then rewindLoop b fuel tail (offset + 1)
    else some tail

/-- The turns after which the loop of `tokenRingBufferRewind` is where it was: as the offset goes
once over the capacity, the tail comes back, or stays half of the ring behind. -/
def rewindTurns (b : TokenRingBuffer τ) : Nat := 2 * b.capacity

/-- `tokenRingBufferRewind`; there is no result when it does not end. -/
def tokenRingBufferRewind (b : TokenRingBuffer τ) : Option (TokenRingBuffer τ) :=
  (rewindLoop isComment b (rewindTurns b) b.tail 1).map fun tail =>
    { b with tail := tail, size := b.size + 1 }

/-! ### The calls of the parser -/

/-- The fields of a `Cctrl` that its tokens come from: the buffer and the tokens that the lexer
gives next. -/
structure Cctrl (τ : Type) where
  tokenBuffer : TokenRingBuffer τ
  lexer : List τ

/-- `cctrLoadNextTokens`. -/
def cctrLoadNextTokens : Nat → Cctrl τ → Cctrl τ
  | 0, cc => cc
  | n + 1, cc =>
    match cc.lexer with
    | [] => cc
    | token :: lexer =>
      cctrLoadNextTokens n
        { tokenBuffer := tokenRingBufferPush cc.tokenBuffer token, lexer := lexer }

/-- `cctrlInitParse`. -/
def cctrlInitParse (stream : List τ) : Cctrl τ :=
  cctrLoadNextTokens cctrlTokenBufferSize
    { tokenBuffer := tokenRingBufferStaticNew, lexer := stream }

/-- `cctrlTokenPeekBy`; its assertion fails on a count of zero. -/
def cctrlTokenPeekBy (cc : Cctrl τ) (cnt : Nat) : Option (Option τ) :=
  if 0 < cnt then some (tokenRingBufferPeekBy cc.tokenBuffer (cnt - 1)) else none

/-- The loop of `cctrlTokenPeek` over comments, if it ends within the given number of turns. -/
def peekLoop (b : TokenRingBuffer τ) : Nat → Nat → Option τ → Option (Option τ)
  | 0, _, _ => none
  | _ + 1, _, none => some none
  | fuel + 1, offset, some token =>
    if isComment token then peekLoop b fuel (offset + 1) (tokenRingBufferPeekBy b offset)
    else some (some token)

/-- `cctrlTokenPeek`, without the macro that may be put in the place of the token; there is no
result when it does not end.  So many turns see every entry. -/
def cctrlTokenPeek (cc : Cctrl τ) : Option (Option τ) :=
  peekLoop isComment cc.tokenBuffer (cc.tokenBuffer.capacity + 1) 0
    (tokenRingBufferPeek cc.tokenBuffer)

/-- `cctrlTokenRewind`. -/
def cctrlTokenRewind (cc : Cctrl τ) : Option (Cctrl τ) :=
  (tokenRingBufferRewind isComment cc.tokenBuffer).map fun b => { cc with tokenBuffer := b }

/-- The load of `cctrlTokenGet`, when few tokens are left. -/
def cctrlRefill (cc : Cctrl τ) : Cctrl τ :=
  if cc.tokenBuffer.size < 3 then cctrLoadNextTokens 5 cc else cc

/-- The loop of `cctrlTokenGet`; each turn takes a token away, so that there are no more turns
than tokens. -/
def getLoop : Nat → Cctrl τ → Option τ × Cctrl τ
  | 0, cc => (none, cc)
  | fuel + 1, cc =>
    match tokenRingBufferPeek cc.tokenBuffer with
    | none => (none, cc)
    | some token =>
      let cc := { cc with tokenBuffer := tokenRingBufferPop cc.tokenBuffer }
      if isComment token then getLoop fuel cc else (some token, cctrlRefill cc)

/-- `cctrlTokenGet`, without the macro that may be put in the place of the token. -/
def cctrlTokenGet (cc : Cctrl τ) : Option τ × Cctrl τ :=
  getLoop isComment cc.tokenBuffer.size cc

/-! ### Runs -/

/-- A call of the parser. -/
inductive Call where
  | get
  | peek
  | peekBy (cnt : Nat)
  | rewind
  deriving DecidableEq

/-- What a call gives and leaves, unless it fails or does not end. -/
def Call.step (cc : Cctrl τ) : Call → Option (Option τ × Cctrl τ)
  | .get => some (cctrlTokenGet isComment cc)
  | .peek => (cctrlTokenPeek isComment cc).map (·, cc)
  | .peekBy cnt => (cctrlTokenPeekBy cc cnt).map (·, cc)
  | .rewind => (cctrlTokenRewind isComment cc).map (none, ·)

/-- What a sequence of calls gives and leaves. -/
def Call.run : List Call → Cctrl τ → Option (List (Option τ) × Cctrl τ)
  | [], cc => some ([], cc)
  | call :: calls, cc => do
    let (token, cc) ← call.step isComment cc
    let (tokens, cc) ← Call.run calls cc
    return (token :: tokens, cc)

/-! ### The cursor -/

/-- A position in a list, and the furthest one that was reached. -/
structure Cursor where
  position : Nat
  furthest : Nat
  deriving DecidableEq

/-- The start of a list. -/
def Cursor.start : Cursor := ⟨0, 0⟩

/-- A call on a list of tokens with a position. -/
def Cursor.step (code : List τ) (c : Cursor) : Call → Option τ × Cursor
  | .get =>
    (code[c.position]?,
      if c.position < code.length then ⟨c.position + 1, max c.furthest (c.position + 1)⟩ else c)
  | .peek => (code[c.position]?, c)
  | .peekBy cnt => (code[c.position + cnt]?, c)
  | .rewind => (none, { c with position := c.position - 1 })

/-- A sequence of calls on a list of tokens with a position. -/
def Cursor.run (code : List τ) : List Call → Cursor → List (Option τ)
  | [], _ => []
  | call :: calls, c => (c.step code call).1 :: Cursor.run code calls (c.step code call).2

/-- The position does not go before the start or more than eight tokens behind the furthest one,
and a look ahead goes by at least one. -/
def Cursor.allows (c : Cursor) : Call → Bool
  | .rewind => 0 < c.position && c.furthest ≤ c.position - 1 + 8
  | .peekBy cnt => 0 < cnt
  | _ => true

/-- All calls of a sequence are allowed. -/
def Cursor.allowsAll (code : List τ) : List Call → Cursor → Bool
  | [], _ => true
  | call :: calls, c => c.allows call && Cursor.allowsAll code calls (c.step code call).2

/-- The tokens of a stream that are no comments. -/
def code (stream : List τ) : List τ := stream.filter fun t => !isComment t

/-- The calls are those of a cursor, and the ring is never overfull. -/
def IsCursor (stream : List τ) (calls : List Call) : Prop :=
  ∃ tokens cc, Call.run isComment calls (cctrlInitParse stream) = some (tokens, cc) ∧
    tokens = Cursor.run (code isComment stream) calls .start ∧
    cc.tokenBuffer.size ≤ cc.tokenBuffer.capacity

/-! ### Where comments are in the way -/

/-- The tokens that the ring holds. -/
def held (b : TokenRingBuffer τ) : List (Option τ) :=
  Ring.window b.entries none b.capacity b.tail b.size

/-- A token that is no comment, or an entry where none was written. -/
def isCode (token : Option τ) : Bool := !token.any isComment

/-- The state before a call lets it do what it is for.

* `get`: the ring holds a token that is no comment, or the lexer gives no such token any more.
* `peek`: the ring holds a token that is no comment, or no token at all, or nothing was ever
  written after the last one.
* `peekBy`: the ring holds as many tokens, and none of these is a comment, or it holds none at
  all, or nothing was ever written at that place.
* `rewind`: the token before the tail is no comment. -/
def Call.clear (cc : Cctrl τ) : Call → Bool
  | .get => (held cc.tokenBuffer).any (isCode isComment) || cc.lexer.all isComment
  | .peek =>
    (held cc.tokenBuffer).any (isCode isComment) || cc.tokenBuffer.size = 0 ||
      (entryAt cc.tokenBuffer cc.tokenBuffer.size).isNone
  | .peekBy cnt =>
    (cnt < cc.tokenBuffer.size && ((held cc.tokenBuffer).take (cnt + 1)).all (isCode isComment)) ||
      cc.tokenBuffer.size = 0 || (entryAt cc.tokenBuffer cnt).isNone
  | .rewind =>
    isCode isComment
      (cc.tokenBuffer.entries.getD
        (rewindIndex cc.tokenBuffer.capacity cc.tokenBuffer.tail 1) none)

/-- The state before each call of a sequence lets it do what it is for. -/
def Call.clearAll : List Call → Cctrl τ → Bool
  | [], _ => true
  | call :: calls, cc =>
    call.clear isComment cc &&
      match call.step isComment cc with
      | none => true
      | some (_, cc) => Call.clearAll calls cc

end Polyc.TokenStream
