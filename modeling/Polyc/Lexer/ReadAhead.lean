import Polyc.Lexer.TokenBuffer

/-!
# Macros and read-ahead

The lexer enters the directives of a text into the macros as it reads them, and the parser asks
for the macro of an identifier when it takes it.  Between the two lie the tokens that are in the
token buffer.  What is delivered is compared with the macros in the order of the source.
-/

namespace Polyc

section
variable {τ δ μ : Type} [MacroMap δ μ] (ev : PPEval τ δ μ)

/-! ### The source -/

/-- What a text without conditional compilation is made of. -/
def Lexeme.isCode : Lexeme τ → Prop
  | .tok _ | .ppDefine _ _ | .ppUndef _ => True
  | _ => False

/-- The name of an `#undef` fits the buffer of `lexUndef`. -/
def Lexeme.undefFits : Lexeme τ → Bool
  | .ppUndef ident => ident.utf8ByteSize < undefBufferSize
  | _ => true

/-- The macros after a lexeme. -/
def Lexeme.enter (defs : δ) : Lexeme τ → δ
  | .ppDefine ident value => lexDefine ev defs ident value
  | .ppUndef ident => MacroMap.mapRemove defs ident
  | _ => defs

/-- The macros after a text. -/
def entered (defs : δ) (text : List (Lexeme τ)) : δ := text.foldl (Lexeme.enter ev) defs

/-- The latest directive on each name, after a lexeme. -/
def Lexeme.latest (defs : δ) (lookup : String → Option μ) : Lexeme τ → String → Option μ
  | .ppDefine ident value => Function.update lookup ident (some (ev.expanded defs value))
  | .ppUndef ident => Function.update lookup ident none
  | _ => lookup

/-- The latest directive on each name, after a text. -/
def latest : δ → (String → Option μ) → List (Lexeme τ) → String → Option μ
  | _, lookup, [] => lookup
  | defs, lookup, le :: rest => latest (le.enter ev defs) (le.latest ev defs lookup) rest

/-- The tokens of a text, each with the macros that stand before it. -/
def inSource : δ → (String → Option μ) → List (Lexeme τ) → List (Delivered τ μ)
  | _, _, [] => []
  | defs, lookup, .tok t :: rest => t.expand lookup :: inSource defs lookup rest
  | defs, lookup, le :: rest => inSource (le.enter ev defs) (le.latest ev defs lookup) rest

/-- The tokens of a text. -/
def tokensOf (text : List (Lexeme τ)) : List (Token τ) :=
  text.filterMap fun le => match le with | .tok t => some t | _ => none

/-- What is read of a text for `n` tokens. -/
def lexedPrefix : Nat → List (Lexeme τ) → List (Lexeme τ)
  | 0, _ => []
  | _, [] => []
  | n + 1, .tok t :: rest => .tok t :: lexedPrefix n rest
  | n + 1, le :: rest => le :: lexedPrefix (n + 1) rest

/-- What is left of a text after `n` tokens. -/
def lexedRest : Nat → List (Lexeme τ) → List (Lexeme τ)
  | 0, text => text
  | _, [] => []
  | n + 1, .tok _ :: rest => lexedRest n rest
  | n + 1, _ :: rest => lexedRest (n + 1) rest

/-- The number of tokens that have been read when token `i`, counted from zero, is delivered:
sixteen at first, and five more with the fourteenth token and every fifth after it. -/
def readAhead (i : Nat) : Nat := if i < 13 then 16 else 16 + 5 * ((i - 13) / 5 + 1)

/-! ### Prefixes -/

/-- A text is what is read of it and what is left. -/
theorem lexedPrefix_append_lexedRest (n : Nat) (text : List (Lexeme τ)) :
  lexedPrefix n text ++ lexedRest n text = text
  := by
  induction text generalizing n with
  | nil => cases n <;> rfl
  | cons le rest ih =>
    cases n with
    | zero => rfl
    | succ n => cases le <;> simp [lexedPrefix, lexedRest, ih]

/-- Nothing is read for no token. -/
@[simp] theorem lexedPrefix_zero (text : List (Lexeme τ)) :
  lexedPrefix 0 text = []
  := by
  cases text <;> rfl

/-- All is left after no token. -/
@[simp] theorem lexedRest_zero (text : List (Lexeme τ)) :
  lexedRest 0 text = text
  := by
  cases text <;> rfl

/-- Reading goes on where it stopped. -/
theorem lexedPrefix_add (n k : Nat) (text : List (Lexeme τ)) :
  lexedPrefix (n + k) text = lexedPrefix n text ++ lexedPrefix k (lexedRest n text)
  := by
  induction text generalizing n with
  | nil => cases n <;> cases k <;> rfl
  | cons le rest ih =>
    cases n with
    | zero => simp [lexedPrefix, lexedRest]
    | succ n =>
      rw [Nat.add_right_comm]
      cases le with
      | tok t => simp [lexedPrefix, lexedRest, ih]
      | _ => simp [lexedPrefix, lexedRest, ← ih, Nat.add_right_comm]

/-- What is left after reading goes on. -/
theorem lexedRest_add (n k : Nat) (text : List (Lexeme τ)) :
  lexedRest (n + k) text = lexedRest k (lexedRest n text)
  := by
  rw [← List.append_right_inj (lexedPrefix (n + k) text)]
  rw [lexedPrefix_append_lexedRest, lexedPrefix_add, List.append_assoc,
    lexedPrefix_append_lexedRest, lexedPrefix_append_lexedRest]

/-- The tokens that are read are the first ones. -/
theorem tokensOf_lexedPrefix (n : Nat) (text : List (Lexeme τ)) :
  tokensOf (lexedPrefix n text) = (tokensOf text).take n
  := by
  induction text generalizing n with
  | nil => cases n <;> rfl
  | cons le rest ih =>
    cases n with
    | zero => rfl
    | succ n =>
      cases le with
      | tok t =>
        rw [lexedPrefix]
        apply congrArg (t :: ·) (ih n)
      | _ => apply ih (n + 1)

/-- A text with fewer tokens is read to its end. -/
theorem lexedRest_eq_nil {n : Nat} {text : List (Lexeme τ)} (h : (tokensOf text).length < n) :
  lexedRest n text = []
  := by
  induction text generalizing n with
  | nil => cases n <;> rfl
  | cons le rest ih =>
    cases n with
    | zero => cases h
    | succ n =>
      cases le with
      | tok t => apply ih (Nat.lt_of_succ_lt_succ h)
      | _ => apply ih (n := n + 1) h

/-- All of a text with fewer tokens is read. -/
theorem lexedPrefix_eq_self {n : Nat} {text : List (Lexeme τ)}
    (h : (tokensOf text).length < n) :
  lexedPrefix n text = text
  := by
  have := lexedPrefix_append_lexedRest n text
  rwa [lexedRest_eq_nil h, List.append_nil] at this

/-! ### Loading -/

/-- What a load of `n` tokens does on code: it fails on an `#undef` that does not fit. -/
theorem cctrLoadNextTokens_eq (pasteDefines : Bool) {text : List (Lexeme τ)}
    (h : ∀ le ∈ text, le.isCode) (n : Nat) (b : TokenRingBuffer (Token τ)) (l : LexFlags)
    (defs : δ) :
  cctrLoadNextTokens ev n ⟨pasteDefines, b, text, l, defs⟩
    = if (lexedPrefix n text).all Lexeme.undefFits then
        some ⟨pasteDefines, (tokensOf (lexedPrefix n text)).foldl tokenRingBufferPush b,
          lexedRest n text, l, entered ev defs (lexedPrefix n text)⟩
      else none
  := by
  induction text generalizing n b defs with
  | nil => cases n <;> rfl
  | cons le rest ih =>
    have ih := ih (fun le hle => h le (List.mem_cons_of_mem _ hle))
    cases n with
    | zero => rfl
    | succ n =>
      cases le with
      | tok t =>
        rw [cctrLoadNextTokens, lexToken]
        apply ih
      | ppDefine ident value =>
        have hload : cctrLoadNextTokens ev (n + 1)
              ⟨pasteDefines, b, .ppDefine ident value :: rest, l, defs⟩
            = cctrLoadNextTokens ev (n + 1)
              ⟨pasteDefines, b, rest, l, lexDefine ev defs ident value⟩ := by
          rw [cctrLoadNextTokens, cctrLoadNextTokens, lexToken]
        rw [hload, ih]
        rfl
      | ppUndef ident =>
        have hload : cctrLoadNextTokens ev (n + 1)
              ⟨pasteDefines, b, .ppUndef ident :: rest, l, defs⟩
            = if ident.utf8ByteSize < undefBufferSize then
                cctrLoadNextTokens ev (n + 1)
                  ⟨pasteDefines, b, rest, l, MacroMap.mapRemove defs ident⟩
              else none := by
          rw [cctrLoadNextTokens, cctrLoadNextTokens, lexToken, lexUndef]
          split_ifs <;> rfl
        rw [hload, ih, lexedPrefix, List.all_cons, lexedRest]
        · cases hfits : decide (ident.utf8ByteSize < undefBufferSize) with
          | true =>
            rw [if_pos (of_decide_eq_true hfits), Lexeme.undefFits, hfits, Bool.true_and]
            rfl
          | false =>
            rw [if_neg (of_decide_eq_false hfits), Lexeme.undefFits, hfits, Bool.false_and]
            rfl
        all_goals rintro t ⟨⟩
      | _ => cases h _ List.mem_cons_self

/-! ### Runs -/

/-- The number of tokens that have been read before token `i` is asked for. -/
def loadedBefore : Nat → Nat
  | 0 => 16
  | i + 1 => readAhead i

/-- More tokens have been read than were taken. -/
theorem lt_loadedBefore (i : Nat) :
  i + 2 < loadedBefore i
  := by
  cases i with
  | zero => decide
  | succ i =>
    rw [loadedBefore, readAhead]
    split_ifs <;> omega

/-- When a token is taken, five more are read if fewer than three are left. -/
theorem readAhead_eq (i : Nat) :
  readAhead i = if loadedBefore i < i + 4 then loadedBefore i + 5 else loadedBefore i
  := by
  cases i with
  | zero => decide
  | succ i =>
    simp only [loadedBefore, readAhead]
    split_ifs <;> omega

/-- The state before token `i` is asked for: as many tokens are held as have been read and not
taken. -/
structure Loaded (pasteDefines : Bool) (text : List (Lexeme τ)) (defs : δ) (i n : Nat)
    (cc : Cctrl τ δ) : Prop where
  paste : cc.pasteDefines = pasteDefines
  holds : cc.tokenBuffer.Holds (((tokensOf text).take n).drop i)
  rest : cc.text = lexedRest n text
  macros : cc.macroDefs = entered ev defs (lexedPrefix n text)
  fits : (lexedPrefix n text).all Lexeme.undefFits = true

/-- What is read of a text comes from it. -/
theorem mem_of_mem_lexedRest {n : Nat} {text : List (Lexeme τ)} {le : Lexeme τ}
    (h : le ∈ lexedRest n text) :
  le ∈ text
  := by
  rw [← lexedPrefix_append_lexedRest n text]
  apply List.mem_append_right _ h

variable {ev}

/-- A load in a state that has room for it. -/
theorem Loaded.load {pasteDefines : Bool} {text : List (Lexeme τ)} {defs : δ} {i n : Nat}
    {cc : Cctrl τ δ} (hcode : ∀ le ∈ text, le.isCode)
    (h : Loaded ev pasteDefines text defs i n cc) (hi : i ≤ ((tokensOf text).take n).length)
    {k : Nat} (hroom : (((tokensOf text).take n).drop i).length + k ≤ 16) :
  if (lexedPrefix (n + k) text).all Lexeme.undefFits then
    ∃ cc', cctrLoadNextTokens ev k cc = some cc'
      ∧ Loaded ev pasteDefines text defs i (n + k) cc'
  else cctrLoadNextTokens ev k cc = none
  := by
  obtain ⟨pd, b, rest, l, ds⟩ := cc
  obtain ⟨rfl, hb, rfl, rfl, hfits⟩ := h
  have hrest : ∀ le ∈ lexedRest n text, le.isCode := by
    intro le hle
    apply hcode le (mem_of_mem_lexedRest hle)
  rw [cctrLoadNextTokens_eq ev pd hrest]
  simp only [lexedPrefix_add, List.all_append, hfits, Bool.true_and]
  split_ifs with hk
  · refine ⟨_, rfl, rfl, ?_, (lexedRest_add n k text).symm, ?_, ?_⟩
    · have htokens : ((tokensOf text).take (n + k)).drop i
          = ((tokensOf text).take n).drop i ++ tokensOf (lexedPrefix k (lexedRest n text)) := by
        rw [← tokensOf_lexedPrefix, lexedPrefix_add, tokensOf, List.filterMap_append,
          ← tokensOf, ← tokensOf, tokensOf_lexedPrefix, List.drop_append_of_le_length hi]
      rw [htokens]
      apply hb.pushes
      have hlen : (tokensOf (lexedPrefix k (lexedRest n text))).length ≤ k := by
        rw [tokensOf_lexedPrefix, List.length_take]
        apply Nat.min_le_left
      omega
    · change entered ev (entered ev defs _) _ = _
      rw [entered, entered, ← List.foldl_append, ← lexedPrefix_add]
      rfl
    · rw [lexedPrefix_add, List.all_append, hfits, hk]
      rfl
  · rfl

/-- When the text has been read to its end, it does not matter how many tokens were asked
for. -/
theorem Loaded.widen {pasteDefines : Bool} {text : List (Lexeme τ)} {defs : δ} {i n k : Nat}
    {cc : Cctrl τ δ} (h : Loaded ev pasteDefines text defs i n cc)
    (hn : (tokensOf text).length < n) (hk : (tokensOf text).length < k) :
  Loaded ev pasteDefines text defs i k cc
  := by
  constructor
  case paste => apply h.paste
  case holds =>
    rw [List.take_of_length_le hk.le, ← List.take_of_length_le hn.le]
    apply h.holds
  case rest => rw [h.rest, lexedRest_eq_nil hn, lexedRest_eq_nil hk]
  case macros => rw [h.macros, lexedPrefix_eq_self hn, lexedPrefix_eq_self hk]
  case fits =>
    have hfits := h.fits
    rw [lexedPrefix_eq_self hn] at hfits
    rwa [lexedPrefix_eq_self hk]

variable (ev) in
/-- What is delivered for a token, when `n` tokens have been read. -/
def deliveredAt (pasteDefines : Bool) (text : List (Lexeme τ)) (defs : δ) (n : Nat)
    (t : Token τ) : Delivered τ μ :=
  t.expand (cctrlMacro pasteDefines (entered ev defs (lexedPrefix n text)))

/-- The state after a token is taken and, if few are left, more are read. -/
theorem Loaded.refill {pasteDefines : Bool} {text : List (Lexeme τ)} {defs : δ} {i : Nat}
    {cc : Cctrl τ δ} (hcode : ∀ le ∈ text, le.isCode)
    (h : Loaded ev pasteDefines text defs (i + 1) (loadedBefore i) cc)
    (hi : i < (tokensOf text).length) :
  if (lexedPrefix (readAhead i) text).all Lexeme.undefFits then
    ∃ cc', cctrlRefill ev cc = some cc' ∧ Loaded ev pasteDefines text defs (i + 1) (readAhead i) cc'
  else cctrlRefill ev cc = none
  := by
  have hL := lt_loadedBefore i
  have hR := readAhead_eq i
  have hsize : cc.tokenBuffer.size
      = min (loadedBefore i) (tokensOf text).length - (i + 1) := by
    rw [h.holds.size, List.length_drop, List.length_take]
  rw [cctrlRefill]
  by_cases hfew : cc.tokenBuffer.size < 3
  · have hload := h.load hcode (k := 5)
      (by rw [List.length_take]; omega) (by rw [← h.holds.size]; omega)
    rw [if_pos hfew]
    by_cases hcap : loadedBefore i < i + 4
    · rw [if_pos hcap] at hR
      rwa [hR]
    · have hall : (tokensOf text).length < loadedBefore i := by omega
      rw [if_neg hcap] at hR
      rw [lexedPrefix_eq_self (by omega : (tokensOf text).length < loadedBefore i + 5)] at hload
      rw [lexedPrefix_eq_self (by omega : (tokensOf text).length < readAhead i)]
      split_ifs at hload ⊢ with hfits
      · obtain ⟨cc', hcc, hl⟩ := hload
        exact ⟨cc', hcc, hl.widen (by omega) (by omega)⟩
      · apply hload
  · have hcap : ¬ loadedBefore i < i + 4 := by omega
    rw [if_neg hcap] at hR
    rw [if_neg hfew, hR, if_pos h.fits]
    exact ⟨cc, rfl, h⟩

/-- One call: it delivers the next token, unless an `#undef` that is read for it does not
fit. -/
theorem Loaded.get {pasteDefines : Bool} {text : List (Lexeme τ)} {defs : δ} {i : Nat}
    {cc : Cctrl τ δ} (hcode : ∀ le ∈ text, le.isCode)
    (h : Loaded ev pasteDefines text defs i (loadedBefore i) cc)
    (hi : i < (tokensOf text).length) :
  if (lexedPrefix (readAhead i) text).all Lexeme.undefFits then
    ∃ cc', cctrlTokenGet ev cc = some
        (some (deliveredAt ev pasteDefines text defs (readAhead i) (tokensOf text)[i]), cc')
      ∧ Loaded ev pasteDefines text defs (i + 1) (readAhead i) cc'
  else cctrlTokenGet ev cc = none
  := by
  have hL := lt_loadedBefore i
  have htake : i < ((tokensOf text).take (loadedBefore i)).length := by
    rw [List.length_take]
    omega
  have hq := h.holds
  rw [List.drop_eq_getElem_cons htake, List.getElem_take] at hq
  have hpopped : Loaded ev pasteDefines text defs (i + 1) (loadedBefore i)
      { cc with tokenBuffer := tokenRingBufferPop cc.tokenBuffer } :=
    { h with holds := hq.pop }
  have hrefill := hpopped.refill hcode hi
  rw [cctrlTokenGet, hq.peek]
  simp only [List.head?_cons]
  by_cases hfits : (lexedPrefix (readAhead i) text).all Lexeme.undefFits = true
  · rw [if_pos hfits] at hrefill ⊢
    obtain ⟨cc', hcc, hl⟩ := hrefill
    refine ⟨cc', ?_, hl⟩
    rw [hcc, Option.map_some, cctrlMaybeExpandToken, hl.paste, hl.macros]
    rfl
  · rw [if_neg hfits] at hrefill ⊢
    rw [hrefill]
    rfl

/-- The calls from a state on deliver the tokens that are left. -/
theorem Loaded.gets {pasteDefines : Bool} {text : List (Lexeme τ)} {defs : δ}
    (hcode : ∀ le ∈ text, le.isCode) (n i : Nat) {cc : Cctrl τ δ}
    (h : Loaded ev pasteDefines text defs i (loadedBefore i) cc)
    (hi : i ≤ (tokensOf text).length) (hn : (tokensOf text).length < n + i) :
  cctrlTokenGets ev n cc
    = if text.all Lexeme.undefFits then
        some (((tokensOf text).mapIdx fun i t =>
          deliveredAt ev pasteDefines text defs (readAhead i) t).drop i)
      else none
  := by
  induction n generalizing i cc with
  | zero => omega
  | succ n ih =>
    rw [cctrlTokenGets]
    rcases Nat.lt_or_ge i (tokensOf text).length with hlt | hge
    · have hget := h.get hcode hlt
      rw [List.drop_eq_getElem_cons (by rwa [List.length_mapIdx]), List.getElem_mapIdx]
      split_ifs at hget with hfits
      · obtain ⟨cc', hcc, hl⟩ := hget
        rw [hcc]
        simp only [Option.bind_eq_bind, Option.bind_some, Option.pure_def]
        rw [ih (i + 1) hl hlt (by omega)]
        split_ifs <;> rfl
      · have hall : ¬ text.all Lexeme.undefFits = true := by
          intro hall
          apply hfits
          rw [← lexedPrefix_append_lexedRest (readAhead i) text, List.all_append,
            Bool.and_eq_true] at hall
          apply hall.1
        rw [hget, if_neg hall]
        rfl
    · have hL := lt_loadedBefore i
      have hpeek : tokenRingBufferPeek cc.tokenBuffer = none := by
        rw [h.holds.peek, List.drop_eq_nil_of_le (by rw [List.length_take]; omega)]
        rfl
      have hfits := h.fits
      rw [lexedPrefix_eq_self (by omega)] at hfits
      rw [cctrlTokenGet, hpeek, if_pos hfits, List.drop_eq_nil_of_le
        (by rw [List.length_mapIdx]; omega)]
      rfl

variable (ev) in
/-- What is delivered of a text: each token with the macros after what has been read then. -/
theorem cctrlDelivered_eq {text : List (Lexeme τ)} (hcode : ∀ le ∈ text, le.isCode)
    (pasteDefines : Bool) (defs : δ) :
  cctrlDelivered ev pasteDefines text defs
    = if text.all Lexeme.undefFits then
        some ((tokensOf text).mapIdx fun i t =>
          deliveredAt ev pasteDefines text defs (readAhead i) t)
      else none
  := by
  have hempty : Loaded ev pasteDefines text defs 0 0
      ⟨pasteDefines, tokenRingBufferStaticNew, text, .init, defs⟩ :=
    ⟨rfl, TokenRingBuffer.Holds.new, by simp, by simp [entered], by simp⟩
  have hload := hempty.load hcode (Nat.zero_le _) (k := 16) (by simp)
  rw [Nat.zero_add] at hload
  rw [cctrlDelivered, cctrlInitParse, cctrlTokenBufferSize]
  have hlength : (tokensOf text).length ≤ text.length := List.length_filterMap_le ..
  split_ifs at hload with hfits
  · obtain ⟨cc, hcc, hl⟩ := hload
    rw [hcc]
    apply hl.gets hcode _ 0 (Nat.zero_le _)
    omega
  · have hall : ¬ text.all Lexeme.undefFits = true := by
      intro hall
      apply hfits
      rw [← lexedPrefix_append_lexedRest 16 text, List.all_append, Bool.and_eq_true] at hall
      apply hall.1
    rw [hload, if_neg hall]
    rfl

/-! ### What is delivered and what the source says -/

/-- The tokens of the source, each with the latest directives before it. -/
theorem inSource_eq (defs : δ) (lookup : String → Option μ) (text : List (Lexeme τ)) :
  inSource ev defs lookup text
    = (tokensOf text).mapIdx fun i t =>
        t.expand (latest ev defs lookup (lexedPrefix (i + 1) text))
  := by
  induction text generalizing defs lookup with
  | nil => rfl
  | cons le rest ih =>
    cases le with
    | tok t =>
      have htokens : tokensOf (.tok t :: rest) = t :: tokensOf rest := rfl
      rw [inSource, ih, htokens, List.mapIdx_cons, lexedPrefix, lexedPrefix_zero]
      rfl
    | _ =>
      rw [inSource, ih]
      · rfl
      · rintro t ⟨⟩

/-- Two macros that are put for an identifier give the same exactly if they are the same. -/
theorem Token.expand_ident_inj {lookup lookup' : String → Option μ} {name : String} :
  (Token.ident name : Token τ).expand lookup = (Token.ident name).expand lookup'
    ↔ lookup name = lookup' name
  := by
  rw [Token.expand, Token.expand]
  cases lookup name <;> cases lookup' name <;> simp

variable (ev) in
/-- Macros are put in the order of the source exactly if every `#undef` fits and, for every
identifier, the macros after what has been read when it is delivered are those of the latest
directives before it. -/
theorem cctrlDelivered_iff {text : List (Lexeme τ)} (hcode : ∀ le ∈ text, le.isCode)
    (pasteDefines : Bool) (defs : δ) :
  cctrlDelivered ev pasteDefines text defs = some (inSource ev defs (mapGetLen defs) text)
    ↔ text.all Lexeme.undefFits = true ∧
      ∀ i name, (tokensOf text)[i]? = some (.ident name) →
        cctrlMacro pasteDefines (entered ev defs (lexedPrefix (readAhead i) text)) name
          = latest ev defs (mapGetLen defs) (lexedPrefix (i + 1) text) name
  := by
  rw [cctrlDelivered_eq ev hcode]
  by_cases hfits : text.all Lexeme.undefFits = true
  · rw [if_pos hfits, Option.some.injEq, inSource_eq, List.ext_getElem?_iff]
    simp only [List.getElem?_mapIdx, hfits, true_and]
    apply forall_congr'
    intro i
    cases (tokensOf text)[i]? with
    | none => simp
    | some t =>
      cases t with
      | ident name =>
        simp only [Option.map_some, Option.some.injEq, deliveredAt, Token.ident.injEq,
          forall_eq', Token.expand_ident_inj]
      | other t => simp [deliveredAt, Token.expand]
  · rw [if_neg hfits]
    simp [hfits]

end

/-- Macros whose value is the number of tokens on their line. -/
def countingEval : PPEval Nat (String → Option Nat) Nat where
  lexPreProcIf _ _ := false
  expanded _ value := value.length

/-- `#define A 1` before `A`. -/
def defineFirst : List (Lexeme Nat) := [.ppDefine "A" [.other 1], .tok (.ident "A")]

theorem cctrlDelivered_iff_defineFirst :
  cctrlDelivered countingEval false defineFirst (fun _ => none)
    = some (inSource countingEval (fun _ => none) (fun _ => none) defineFirst)
  := by
  apply (cctrlDelivered_iff countingEval _ false (fun _ => none)).2
  · apply And.intro rfl
    intro i name h
    cases i with
    | zero =>
      obtain ⟨rfl⟩ : "A" = name := by simpa [defineFirst, tokensOf] using h
      rfl
    | succ i => cases h
  · simp [defineFirst, Lexeme.isCode]

/-- `A` before `#define A 1`. -/
def defineLast : List (Lexeme Nat) := [.tok (.ident "A"), .ppDefine "A" [.other 1]]

/-- The macro of a later `#define` is put for an identifier that stands before it. -/
theorem cctrlDelivered_defineLast :
  cctrlDelivered countingEval false defineLast (fun _ => none)
    ≠ some (inSource countingEval (fun _ => none) (fun _ => none) defineLast)
  := by
  decide

end Polyc
