import Polyc.Lib.RingWindow
import Polyc.Lexer.PreProc

/-!
# The token buffer

The ring of tokens that `cctrl.c` keeps between the lexer and the parser, and the calls that
fill it and take a token from it.  The lexer of a compilation gives no comment tokens.
-/

namespace Polyc

/-! ### The ring -/

/-- `CCTRL_TOKEN_BUFFER_SIZE`. -/
def cctrlTokenBufferSize : Nat := 16

/-- The record `TokenRingBuffer`. -/
structure TokenRingBuffer (α : Type) where
  tail : Nat
  head : Nat
  size : Nat
  capacity : Nat
  entries : List (Option α)

section
variable {α : Type}

/-- `tokenRingBufferStaticNew`. -/
def tokenRingBufferStaticNew : TokenRingBuffer α where
  tail := 0
  head := 0
  size := 0
  capacity := cctrlTokenBufferSize
  entries := List.replicate cctrlTokenBufferSize none

/-- `tokenRingBufferGetIdx`. -/
def tokenRingBufferGetIdx (idx capacity : Nat) : Nat := (idx + 1) &&& (capacity - 1)

/-- `tokenRingBufferPush`: a full buffer loses its oldest token. -/
def tokenRingBufferPush (b : TokenRingBuffer α) (token : α) : TokenRingBuffer α :=
  let b := { b with
    entries := b.entries.set b.head (some token)
    head := tokenRingBufferGetIdx b.head b.capacity }
  if b.size = b.capacity then { b with tail := tokenRingBufferGetIdx b.tail b.capacity }
  else { b with size := b.size + 1 }

/-- `tokenRingBufferPeek`. -/
def tokenRingBufferPeek (b : TokenRingBuffer α) : Option α :=
  if b.size = 0 then none else b.entries.getD b.tail none

/-- `tokenRingBufferPop`, without the token. -/
def tokenRingBufferPop (b : TokenRingBuffer α) : TokenRingBuffer α :=
  if b.size = 0 then b
  else { b with tail := tokenRingBufferGetIdx b.tail b.capacity, size := b.size - 1 }

end

/-! ### What it holds -/

/-- A buffer holds some tokens. -/
structure TokenRingBuffer.Holds {α : Type} (b : TokenRingBuffer α) (q : List α) : Prop where
  capacity : b.capacity = 16
  length : b.entries.length = 16
  tail : b.tail < 16
  head : b.head = (b.tail + b.size) % 16
  size : b.size = q.length
  fits : q.length ≤ 16
  window : Ring.window b.entries none 16 b.tail b.size = q.map some

/-- The next index goes round. -/
theorem tokenRingBufferGetIdx_eq (idx : Nat) :
  tokenRingBufferGetIdx idx 16 = (idx + 1) % 16
  := Nat.and_two_pow_sub_one_eq_mod (idx + 1) 4

namespace TokenRingBuffer.Holds

variable {α : Type} {b : TokenRingBuffer α} {q : List α}

/-- A new buffer holds nothing. -/
theorem new :
  (tokenRingBufferStaticNew : TokenRingBuffer α).Holds []
  where
  capacity := rfl
  length := rfl
  tail := Nat.succ_pos 15
  head := rfl
  size := rfl
  fits := Nat.zero_le 16
  window := rfl

/-- A token that is pushed is held last. -/
theorem push (h : b.Holds q) (hq : q.length < 16) (t : α) :
  (tokenRingBufferPush b t).Holds (q ++ [t])
  := by
  have hsize : b.size ≠ b.capacity := by
    rw [h.size, h.capacity]
    omega
  rw [tokenRingBufferPush, if_neg hsize, h.capacity, tokenRingBufferGetIdx_eq]
  constructor
  case capacity => rfl
  case length => rw [List.length_set, h.length]
  case tail => apply h.tail
  case head =>
    change (b.head + 1) % 16 = (b.tail + (b.size + 1)) % 16
    rw [h.head, Nat.mod_add_mod, Nat.add_assoc]
  case size =>
    change b.size + 1 = _
    rw [h.size, List.length_append, List.length_singleton]
  case fits =>
    rw [List.length_append, List.length_singleton]
    omega
  case window =>
    change Ring.window (b.entries.set b.head (some t)) none 16 b.tail (b.size + 1) = _
    rw [h.head, Ring.window_set none b.tail h.length (by rw [h.size]; apply hq), h.window,
      List.map_append]
    rfl

/-- Tokens that are pushed are held last. -/
theorem pushes (h : b.Holds q) (ts : List α) (hq : q.length + ts.length ≤ 16) :
  (ts.foldl tokenRingBufferPush b).Holds (q ++ ts)
  := by
  induction ts generalizing b q with
  | nil =>
    rw [List.append_nil]
    apply h
  | cons t ts ih =>
    rw [List.length_cons] at hq
    rw [List.foldl_cons, List.append_cons]
    apply ih (h.push (by omega) t)
    rw [List.length_append, List.length_singleton]
    omega

/-- The first token is seen. -/
theorem peek (h : b.Holds q) :
  tokenRingBufferPeek b = q.head?
  := by
  cases q with
  | nil =>
    have hsize : b.size = 0 := h.size
    rw [tokenRingBufferPeek, if_pos hsize, List.head?_nil]
  | cons t q =>
    have hw := h.window
    rw [h.size, List.length_cons, Ring.window_succ, Nat.mod_eq_of_lt h.tail] at hw
    rw [tokenRingBufferPeek, if_neg (by simp [h.size]), (List.cons.inj hw).1]
    rfl

/-- The first token is taken away. -/
theorem pop {t : α} (h : b.Holds (t :: q)) :
  (tokenRingBufferPop b).Holds q
  := by
  have hsize : b.size = q.length + 1 := h.size
  have hw := h.window
  rw [hsize, Ring.window_succ] at hw
  rw [tokenRingBufferPop, if_neg (by omega), h.capacity, tokenRingBufferGetIdx_eq]
  constructor
  case capacity => rfl
  case length => apply h.length
  case tail => apply Nat.mod_lt _ (by decide)
  case head =>
    change b.head = ((b.tail + 1) % 16 + (b.size - 1)) % 16
    rw [h.head, Nat.mod_add_mod, hsize, Nat.add_sub_cancel, Nat.add_right_comm, Nat.add_assoc]
  case size =>
    change b.size - 1 = _
    rw [hsize, Nat.add_sub_cancel]
  case fits =>
    have := h.fits
    rw [List.length_cons] at this
    omega
  case window =>
    change Ring.window b.entries none 16 ((b.tail + 1) % 16) (b.size - 1) = _
    rw [Ring.window_mod, hsize, Nat.add_sub_cancel, (List.cons.inj hw).2]

end TokenRingBuffer.Holds

/-! ### The calls of the parser -/

/-- The fields of a `Cctrl` that its tokens come from, with those of its lexer and the text
that this has not read yet; `pasteDefines` is the flag `CCTRL_PASTE_DEFINES`. -/
structure Cctrl (τ δ : Type) where
  pasteDefines : Bool
  tokenBuffer : TokenRingBuffer (Token τ)
  text : List (Lexeme τ)
  lexFlags : LexFlags
  macroDefs : δ

/-- What the parser is given: the value of a macro or a token as it stands. -/
inductive Delivered (τ μ : Type) where
  | macroValue (value : μ)
  | asIs (t : Token τ)
  deriving DecidableEq

section
variable {τ δ μ : Type} [MacroMap δ μ] (ev : PPEval τ δ μ)

/-- `cctrLoadNextTokens`. -/
def cctrLoadNextTokens : Nat → Cctrl τ δ → Option (Cctrl τ δ)
  | 0, cc => some cc
  | n + 1, cc =>
    match lexToken ev cc.text cc.lexFlags cc.macroDefs with
    | .token t rest l defs =>
      cctrLoadNextTokens n
        { cc with
          tokenBuffer := tokenRingBufferPush cc.tokenBuffer t
          text := rest
          lexFlags := l
          macroDefs := defs }
    | .eof l defs => some { cc with text := [], lexFlags := l, macroDefs := defs }
    | .abort => none

/-- `cctrlInitParse`, on a text and the macros that are there before. -/
def cctrlInitParse (pasteDefines : Bool) (text : List (Lexeme τ)) (defs : δ) :
    Option (Cctrl τ δ) :=
  cctrLoadNextTokens ev cctrlTokenBufferSize
    { pasteDefines := pasteDefines
      tokenBuffer := tokenRingBufferStaticNew
      text := text
      lexFlags := .init
      macroDefs := defs }

/-- The macro that `cctrlMaybeExpandToken` puts in the place of an identifier. -/
def cctrlMacro (pasteDefines : Bool) (defs : δ) (name : String) : Option μ :=
  if pasteDefines then none else mapGetLen defs name

/-- A token for which a macro may be put. -/
def Token.expand (lookup : String → Option μ) : Token τ → Delivered τ μ
  | .ident name => ((lookup name).map .macroValue).getD (.asIs (.ident name))
  | .other t => .asIs (.other t)

/-- `cctrlMaybeExpandToken`. -/
def cctrlMaybeExpandToken (cc : Cctrl τ δ) (t : Token τ) : Delivered τ μ :=
  t.expand (cctrlMacro cc.pasteDefines cc.macroDefs)

/-- The load of `cctrlTokenGet`, when few tokens are left. -/
def cctrlRefill (cc : Cctrl τ δ) : Option (Cctrl τ δ) :=
  if cc.tokenBuffer.size < 3 then cctrLoadNextTokens ev 5 cc else some cc

/-- `cctrlTokenGet`. -/
def cctrlTokenGet (cc : Cctrl τ δ) : Option (Option (Delivered τ μ) × Cctrl τ δ) :=
  match tokenRingBufferPeek cc.tokenBuffer with
  | none => some (none, cc)
  | some t =>
    (cctrlRefill ev { cc with tokenBuffer := tokenRingBufferPop cc.tokenBuffer }).map
      fun cc => (some (cctrlMaybeExpandToken cc t), cc)

/-- What `n` calls of `cctrlTokenGet` return before the first `NULL`. -/
def cctrlTokenGets : Nat → Cctrl τ δ → Option (List (Delivered τ μ))
  | 0, _ => some []
  | n + 1, cc => do
    match ← cctrlTokenGet ev cc with
    | (none, _) => return []
    | (some d, cc) => return d :: (← cctrlTokenGets n cc)

/-- What is delivered of a text: one call for each lexeme and one for the `NULL` are enough. -/
def cctrlDelivered (pasteDefines : Bool) (text : List (Lexeme τ)) (defs : δ) :
    Option (List (Delivered τ μ)) := do
  cctrlTokenGets ev (text.length + 1) (← cctrlInitParse ev pasteDefines text defs)

end

end Polyc
