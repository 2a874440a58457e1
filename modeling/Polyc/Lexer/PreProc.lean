import Mathlib.Data.List.Chain
import Polyc.Ir.Types

/-!
# The preprocessor

`lexToken` with its directives, over the lexemes that `lex` finds in a text.  The tokens of a
line that a directive reads belong to its lexeme.  What the parser makes of the tokens of a
`#if` or of a `#define` is a parameter, and so are the map of the macros and their values.
-/

namespace Polyc

/-- Tokens: identifiers and everything else. -/
inductive Token (τ : Type) where
  | ident (name : String)
  | other (t : τ)
  deriving DecidableEq

/-- The directives that open a group. -/
inductive PPIf (τ : Type) where
  | «if» (expr : List (Token τ))
  | ifDef (ident : String)
  | ifNDef (ident : String)
  | ifJit
  | ifAot
  deriving DecidableEq

/-- The directives that go on with a group under a condition. -/
inductive PPElif (τ : Type) where
  | elif (expr : List (Token τ))
  | elifDef (ident : String)
  deriving DecidableEq

/-- What `lex` finds: a token or a directive. -/
inductive Lexeme (τ : Type) where
  | tok (t : Token τ)
  | ppIf (d : PPIf τ)
  | ppElif (d : PPElif τ)
  | ppElse
  | ppEndif
  | ppDefine (ident : String) (value : List (Token τ))
  | ppUndef (ident : String)
  deriving DecidableEq

/-- The map `macro_defs`, to macro values of type `μ`, with what the lexer asks of it. -/
class MacroMap (δ : Type) (μ : outParam Type) where
  mapGetLen : δ → String → Option μ
  mapAdd : δ → String → μ → δ
  mapRemove : δ → String → δ

export MacroMap (mapGetLen)

/-- A finite map of macros. -/
instance (μ : Type) : MacroMap (String → Option μ) μ where
  mapGetLen defs := defs
  mapAdd defs name value := Function.update defs name (some value)
  mapRemove defs name := Function.update defs name none

/-- What the parser makes of the tokens of a line: whether a `#if` holds, and the lexeme that a
`#define` adds. -/
structure PPEval (τ δ μ : Type) where
  lexPreProcIf : δ → List (Token τ) → Bool
  expanded : δ → List (Token τ) → μ

/-- The fields `collecting` and `skip_else` of a lexer. -/
structure LexFlags where
  collecting : Bool
  skipElse : Bool
  deriving DecidableEq

/-- The flags that `lexInit` sets. -/
def LexFlags.init : LexFlags := ⟨true, true⟩

section
variable {τ δ μ : Type} [MacroMap δ μ] (ev : PPEval τ δ μ)

/-- Whether the condition of a directive that opens a group holds. -/
def PPIf.holds (defs : δ) : PPIf τ → Bool
  | .«if» expr => ev.lexPreProcIf defs expr
  | .ifDef ident => (mapGetLen defs ident).isSome
  | .ifNDef ident => (mapGetLen defs ident).isNone
  | .ifJit => (mapGetLen defs "__HCC_JIT__").isSome
  | .ifAot => (mapGetLen defs "__HCC_AOT__").isSome

/-- Whether the condition of a directive that goes on with a group holds. -/
def PPElif.holds (defs : δ) : PPElif τ → Bool
  | .elif expr => ev.lexPreProcIf defs expr
  | .elifDef ident => (mapGetLen defs ident).isSome

/-- `lexPreProcBoolean`: whether to collect what follows, and the flags. -/
def lexPreProcBoolean (defs : δ) (le : Lexeme τ) (l : LexFlags) : Bool × LexFlags :=
  match le with
  | .ppIf (.ifNDef ident) =>
    if (mapGetLen defs ident).isNone then (true, ⟨false, true⟩) else (false, ⟨true, false⟩)
  | .ppIf d => if d.holds ev defs then (true, ⟨true, true⟩) else (false, ⟨false, false⟩)
  | .ppElif (.elif expr) =>
    if l.skipElse then (false, l)
    else if ev.lexPreProcIf defs expr then (true, { l with skipElse := true })
    else (false, { l with skipElse := false })
  | .ppElif (.elifDef ident) =>
    if l.skipElse then (false, l)
    else if (mapGetLen defs ident).isSome then (true, ⟨true, true⟩)
    else (false, ⟨false, false⟩)
  | .ppElse => if l.skipElse then (false, l) else (true, { l with collecting := true })
  | .ppEndif => (true, ⟨true, false⟩)
  | _ => (false, l)

/-- The size of the buffer that `lexUndef` copies a name to. -/
def undefBufferSize : Nat := 256

/-- `lexUndef`; a name that does not fit its buffer is written past the end. -/
def lexUndef (defs : δ) (ident : String) : Option δ :=
  if ident.utf8ByteSize < undefBufferSize then some (MacroMap.mapRemove defs ident) else none

/-- `lexDefine`. -/
def lexDefine (defs : δ) (ident : String) (value : List (Token τ)) : δ :=
  MacroMap.mapAdd defs ident (ev.expanded defs value)

/-- What a call of `lexToken` comes to: a token, with the text that is left, the end of the
text, or an abort. -/
inductive LexResult (τ δ : Type) where
  | token (t : Token τ) (rest : List (Lexeme τ)) (l : LexFlags) (defs : δ)
  | eof (l : LexFlags) (defs : δ)
  | abort

mutual

/-- `lexToken`. -/
def lexToken : List (Lexeme τ) → LexFlags → δ → LexResult τ δ
  | [], l, defs => .eof l defs
  | .tok t :: rest, l, defs => .token t rest l defs
  | .ppDefine ident value :: rest, l, defs => lexToken rest l (lexDefine ev defs ident value)
  | .ppUndef ident :: rest, l, defs =>
    match lexUndef defs ident with
    | some defs => lexToken rest l defs
    | none => .abort
  | .ppEndif :: rest, l, defs => lexToken rest { l with skipElse := false } defs
  | .ppIf d :: rest, l, defs =>
    let (ok, l) := lexPreProcBoolean ev defs (.ppIf d) l
    if ok then lexToken rest l defs else lexSkip rest l defs
  | .ppElif d :: rest, l, defs =>
    if l.skipElse then lexSkipToEndif rest l defs
    else
      let (ok, l) := lexPreProcBoolean ev defs (.ppElif d) l
      if ok then lexToken rest l defs else lexSkip rest l defs
  | .ppElse :: rest, l, defs =>
    if l.skipElse then lexSkipToEndif rest l defs
    else
      let (ok, l) := lexPreProcBoolean ev defs .ppElse l
      if ok then lexToken rest l defs else lexSkip rest l defs

/-- The loop of `lexToken` that looks for something to collect; it aborts at the end of the
text. -/
def lexSkip : List (Lexeme τ) → LexFlags → δ → LexResult τ δ
  | [], _, _ => .abort
  | le :: rest, l, defs =>
    let (ok, l) := lexPreProcBoolean ev defs le l
    if ok then lexToken rest l defs else lexSkip rest l defs

/-- The loop of `lexToken` that looks for a `#endif`. -/
def lexSkipToEndif : List (Lexeme τ) → LexFlags → δ → LexResult τ δ
  | [], l, defs => .eof { l with skipElse := false } defs
  | .ppEndif :: rest, l, defs => lexToken rest { l with skipElse := false } defs
  | _ :: rest, l, defs => lexSkipToEndif rest l defs

end

/-- What `n` calls of `lexToken` return before the first `NULL`. -/
def lexTokens : Nat → List (Lexeme τ) → LexFlags → δ → Option (List (Token τ))
  | 0, _, _, _ => some []
  | n + 1, text, l, defs =>
    match lexToken ev text l defs with
    | .token t rest l defs => (lexTokens n rest l defs).map (t :: ·)
    | .eof _ _ => some []
    | .abort => none

/-- The tokens of a text: one call for each lexeme and one for the `NULL` are enough. -/
def lexAll (text : List (Lexeme τ)) (defs : δ) : Option (List (Token τ)) :=
  lexTokens ev (text.length + 1) text .init defs

end

/-!
## Conditional compilation

Nested groups of conditional compilation, the tokens that they select, and the tokens that
`lexToken` returns.  It returns every selected token.  The others it leaves out when its two
flags say so, and these remember only the directives since the last `#endif`.
-/

/-! ### Texts -/

mutual

/-- Texts of tokens and groups. -/
inductive Text (τ : Type) where
  | nil
  | tok (t : Token τ) (rest : Text τ)
  | group (d : PPIf τ) (body : Text τ) (branches : Branches τ) (rest : Text τ)

/-- What follows the first branch of a group, up to its `#endif`. -/
inductive Branches (τ : Type) where
  | endif
  | els (body : Text τ)
  | elif (d : PPElif τ) (body : Text τ) (branches : Branches τ)

end

section
variable {τ δ μ : Type} [MacroMap δ μ] (ev : PPEval τ δ μ) (defs : δ)

mutual

/-- The lexemes of a text. -/
def Text.render : Text τ → List (Lexeme τ)
  | .nil => []
  | .tok t rest => .tok t :: rest.render
  | .group d body branches rest => .ppIf d :: (body.render ++ (branches.render ++ rest.render))

/-- The lexemes of branches. -/
def Branches.render : Branches τ → List (Lexeme τ)
  | .endif => [.ppEndif]
  | .els body => .ppElse :: (body.render ++ [.ppEndif])
  | .elif d body branches => .ppElif d :: (body.render ++ branches.render)

end

mutual

/-- The tokens that lie in the branch taken of every group around them. -/
def Text.selected : Text τ → List (Token τ)
  | .nil => []
  | .tok t rest => t :: rest.selected
  | .group d body branches rest =>
    (if d.holds ev defs then body.selected else branches.selected) ++ rest.selected

/-- The tokens of the branch taken, if no branch before has been. -/
def Branches.selected : Branches τ → List (Token τ)
  | .endif => []
  | .els body => body.selected
  | .elif d body branches => if d.holds ev defs then body.selected else branches.selected

end

mutual

/-- The lexemes of a text, each with whether it is selected. -/
def Text.marked (live : Bool) : Text τ → List (Lexeme τ × Bool)
  | .nil => []
  | .tok t rest => (.tok t, live) :: rest.marked live
  | .group d body branches rest =>
    (.ppIf d, live) :: (body.marked (live && d.holds ev defs)
      ++ (branches.marked (live && !d.holds ev defs) ++ rest.marked live))

/-- The lexemes of branches, where `live` is false if one has been taken before. -/
def Branches.marked (live : Bool) : Branches τ → List (Lexeme τ × Bool)
  | .endif => [(.ppEndif, live)]
  | .els body => (.ppElse, live) :: (body.marked live ++ [(.ppEndif, live)])
  | .elif d body branches =>
    (.ppElif d, live) :: (body.marked (live && d.holds ev defs)
      ++ branches.marked (live && !d.holds ev defs))

end

/-- The tokens of a text, each with whether it is selected and the directives between the last
`#endif` and it.  The ones in `ds` stand before the text. -/
def places : List (Lexeme τ) → List (Lexeme τ × Bool) → List (Token τ × Bool × List (Lexeme τ))
  | _, [] => []
  | ds, (.tok t, live) :: rest => (t, live, ds) :: places ds rest
  | _, (.ppEndif, _) :: rest => places [] rest
  | ds, (d, _) :: rest => places (ds ++ [d]) rest

/-- A condition that holds. -/
def Lexeme.holds : Lexeme τ → Bool
  | .ppIf d => d.holds ev defs
  | .ppElif d => d.holds ev defs
  | _ => false

/-- A directive that goes on with a group. -/
def Lexeme.goesOn : Lexeme τ → Bool
  | .ppElif _ | .ppElse => true
  | _ => false

/-- What the directives since the last `#endif` say of a token: no `#elif` or `#else` follows
a condition that holds right away, and the last of them, if there is one, is a condition that
holds or a `#else`. -/
def Reached (ds : List (Lexeme τ)) : Prop :=
  ds.IsChain (fun a b => ¬ (a.holds ev defs ∧ b.goesOn))
    ∧ ∀ d, ds.getLast? = some d → d.holds ev defs ∨ d = .ppElse

/-! ### Modes -/

/-- Which loop of `lexToken` reads a lexeme, with `skip_else` where it matters. -/
inductive LexMode where
  | collect (skipElse : Bool)
  | skip
  | toEndif
  deriving DecidableEq

/-- The loop that tokens are collected in. -/
def LexMode.collects : LexMode → Bool
  | collect _ => true
  | _ => false

/-- The mode after a lexeme. -/
def LexMode.step : LexMode → Lexeme τ → LexMode
  | _, .ppEndif => collect false
  | toEndif, _ => toEndif
  | _, .ppIf d => if d.holds ev defs then collect true else skip
  | collect true, .ppElif _ => toEndif
  | _, .ppElif d => if d.holds ev defs then collect true else skip
  | collect true, .ppElse => toEndif
  | _, .ppElse => collect false
  | m, _ => m

/-! ### Runs of the lexer -/

/-- The mode after some lexemes. -/
def LexMode.after (m : LexMode) (text : List (Lexeme τ)) : LexMode :=
  text.foldl (LexMode.step ev defs) m

/-- The tokens that are collected from a mode on. -/
def LexMode.collected : LexMode → List (Lexeme τ) → List (Token τ)
  | _, [] => []
  | m, .tok t :: rest => if m.collects then t :: m.collected rest else m.collected rest
  | m, le :: rest => (m.step ev defs le).collected rest

/-- What a run from a mode returns: the loop that skips must find a token before the end. -/
def LexMode.result (m : LexMode) (text : List (Lexeme τ)) : Option (List (Token τ)) :=
  if m.after ev defs text = .skip then none else some (m.collected ev defs text)

/-- A lexeme that leaves the macros as they are. -/
def Lexeme.keepsDefs : Lexeme τ → Prop
  | .ppDefine _ _ | .ppUndef _ => False
  | _ => True

/-- What a call returns, and `n` calls after it. -/
def LexResult.run (n : Nat) : LexResult τ δ → Option (List (Token τ))
  | .token t rest l defs => (lexTokens ev n rest l defs).map (t :: ·)
  | .eof _ _ => some []
  | .abort => none

/-- The tokens of the first call, and of the others. -/
theorem lexTokens_succ (n : Nat) (text : List (Lexeme τ)) (l : LexFlags) :
  lexTokens ev (n + 1) text l defs = (lexToken ev text l defs).run ev n
  := by
  rw [lexTokens]
  cases lexToken ev text l defs <;> rfl

variable {ev defs}

/-- A mode reads one lexeme after another. -/
theorem LexMode.after_cons (m : LexMode) (le : Lexeme τ) (text : List (Lexeme τ)) :
  m.after ev defs (le :: text) = (m.step ev defs le).after ev defs text
  := rfl

/-- A mode reads one text after another. -/
theorem LexMode.after_append (m : LexMode) (text rest : List (Lexeme τ)) :
  m.after ev defs (text ++ rest) = (m.after ev defs text).after ev defs rest
  := List.foldl_append

/-- A token leaves the mode as it is. -/
@[simp] theorem LexMode.step_tok (m : LexMode) (t : Token τ) :
  m.step ev defs (.tok t) = m
  := by
  rcases m with (_ | _) | _ | _ <;> rfl

/-- After an `#endif` tokens are collected. -/
@[simp] theorem LexMode.step_endif (m : LexMode) :
  m.step ev defs (.ppEndif : Lexeme τ) = .collect false
  := by
  rcases m with (_ | _) | _ | _ <;> rfl

/-- A lexeme that is collected goes before the result for the rest. -/
theorem LexMode.result_tok (m : LexMode) (t : Token τ) (text : List (Lexeme τ)) :
  m.result ev defs (.tok t :: text)
    = if m.collects then (m.result ev defs text).map (t :: ·) else m.result ev defs text
  := by
  simp only [result, after_cons, step_tok, collected]
  split_ifs <;> rfl

variable (ev defs) in
/-- A directive changes the mode for the rest. -/
theorem LexMode.result_step (m : LexMode) (le : Lexeme τ) (text : List (Lexeme τ))
    (hle : ∀ t, le ≠ .tok t) :
  m.result ev defs (le :: text) = (m.step ev defs le).result ev defs text
  := by
  cases le with
  | tok t => apply absurd rfl (hle t)
  | _ => rfl

/-- A condition that opens a group, read where directives are read. -/
theorem lexPreProcBoolean_ppIf (d : PPIf τ) (l : LexFlags) :
  (d.holds ev defs = true ∧ (lexPreProcBoolean ev defs (.ppIf d) l).1 = true
      ∧ (lexPreProcBoolean ev defs (.ppIf d) l).2.skipElse = true)
    ∨ (d.holds ev defs = false ∧ (lexPreProcBoolean ev defs (.ppIf d) l).1 = false
      ∧ (lexPreProcBoolean ev defs (.ppIf d) l).2.skipElse = false)
  := by
  cases d <;> simp only [lexPreProcBoolean, PPIf.holds] <;> split_ifs <;>
    simp_all [Option.isSome_iff_ne_none]

/-- A condition that goes on with a group, read where directives are read. -/
theorem lexPreProcBoolean_ppElif (d : PPElif τ) (l : LexFlags) (hl : l.skipElse = false) :
  (d.holds ev defs = true ∧ (lexPreProcBoolean ev defs (.ppElif d) l).1 = true
      ∧ (lexPreProcBoolean ev defs (.ppElif d) l).2.skipElse = true)
    ∨ (d.holds ev defs = false ∧ (lexPreProcBoolean ev defs (.ppElif d) l).1 = false
      ∧ (lexPreProcBoolean ev defs (.ppElif d) l).2.skipElse = false)
  := by
  cases d <;> simp only [lexPreProcBoolean, PPElif.holds, hl] <;> split_ifs <;> simp_all

/-- The call that follows a condition: it collects if the condition holds. -/
theorem run_condition {n : Nat} {text : List (Lexeme τ)}
    (ih : ∀ l : LexFlags,
      (lexToken ev text l defs).run ev n = (LexMode.collect l.skipElse).result ev defs text
        ∧ (l.skipElse = false →
          (lexSkip ev text l defs).run ev n = LexMode.skip.result ev defs text))
    {holds : Bool} {r : Bool × LexFlags}
    (hr : holds = true ∧ r.1 = true ∧ r.2.skipElse = true
      ∨ holds = false ∧ r.1 = false ∧ r.2.skipElse = false) :
  (if r.1 then lexToken ev text r.2 defs else lexSkip ev text r.2 defs).run ev n
    = (if holds then LexMode.collect true else .skip).result ev defs text
  := by
  rcases hr with ⟨rfl, h1, h2⟩ | ⟨rfl, h1, h2⟩
  · rw [h1, if_pos rfl, if_pos rfl, (ih r.2).1, h2]
  · rw [h1, if_neg (by simp), if_neg (by simp), (ih r.2).2 h2]

/-- The three loops of `lexToken` are the three modes. -/
theorem run_eq_result (text : List (Lexeme τ)) (htext : ∀ le ∈ text, le.keepsDefs) :
    ∀ (n : Nat) (l : LexFlags), text.length ≤ n →
  (lexToken ev text l defs).run ev n = (LexMode.collect l.skipElse).result ev defs text
    ∧ (l.skipElse = false →
      (lexSkip ev text l defs).run ev n = LexMode.skip.result ev defs text)
    ∧ (lexSkipToEndif ev text l defs).run ev n = LexMode.toEndif.result ev defs text
  := by
  induction text with
  | nil =>
    intro n l _
    simp [lexToken, lexSkip, lexSkipToEndif, LexResult.run, LexMode.result, LexMode.after,
      LexMode.collected]
  | cons le rest ih =>
    intro n l hn
    have ih : ∀ n l, rest.length ≤ n → _ := ih (fun le hle => htext le (by simp [hle]))
    have hn' : rest.length ≤ n := by simp at hn; omega
    have both : ∀ l : LexFlags,
        (lexToken ev rest l defs).run ev n = (LexMode.collect l.skipElse).result ev defs rest
          ∧ (l.skipElse = false →
            (lexSkip ev rest l defs).run ev n = LexMode.skip.result ev defs rest) := by
      intro l
      apply And.intro (ih n l hn').1 (ih n l hn').2.1
    cases le with
    | tok t =>
      simp only [LexMode.result_tok, LexMode.collects, lexToken, lexSkip, lexPreProcBoolean,
        lexSkipToEndif]
      refine ⟨?_, (ih n l hn').2⟩
      obtain ⟨k, rfl⟩ : ∃ k, n = k + 1 := ⟨n - 1, by simp at hn; omega⟩
      rw [LexResult.run, lexTokens_succ, (ih k l (by simp at hn; omega)).1]
      rfl
    | ppDefine ident value => cases htext (.ppDefine ident value) (by simp)
    | ppUndef ident => cases htext (.ppUndef ident) (by simp)
    | ppIf d =>
      have step := fun m => LexMode.result_step ev defs m (.ppIf d) rest (by simp)
      simp only [step, lexToken, lexSkip,
        lexSkipToEndif]
      refine ⟨?_, fun _ => ?_, (ih n l hn').2.2⟩
      · rw [run_condition both (lexPreProcBoolean_ppIf d l)]
        cases l.skipElse <;> rfl
      · rw [run_condition both (lexPreProcBoolean_ppIf d l)]
        rfl
    | ppElif d =>
      have step := fun m => LexMode.result_step ev defs m (.ppElif d) rest (by simp)
      simp only [step, lexToken, lexSkip,
        lexSkipToEndif]
      refine ⟨?_, fun hl => ?_, (ih n l hn').2.2⟩
      · cases hl : l.skipElse with
        | true => apply (ih n l hn').2.2
        | false =>
          rw [if_neg (by simp), run_condition both (lexPreProcBoolean_ppElif d l hl)]
          rfl
      · rw [run_condition both (lexPreProcBoolean_ppElif d l hl)]
        rfl
    | ppElse =>
      have step := fun m => LexMode.result_step ev defs m (.ppElse) rest (by simp)
      simp only [step, lexToken, lexSkip,
        lexSkipToEndif, lexPreProcBoolean]
      refine ⟨?_, fun hl => ?_, (ih n l hn').2.2⟩
      · obtain ⟨collecting, skipElse⟩ := l
        cases skipElse with
        | true =>
          simp only [if_true, (ih n _ hn').2.2]
          rfl
        | false =>
          simp only [Bool.false_eq_true, if_false, if_true, (both _).1]
          rfl
      · simp only [hl, Bool.false_eq_true, if_false, if_true, (both _).1]
        rfl
    | ppEndif =>
      have step := fun m => LexMode.result_step ev defs m (.ppEndif) rest (by simp)
      simp only [step, LexMode.step_endif,
        lexToken, lexSkip, lexSkipToEndif, lexPreProcBoolean, if_true, (both _).1]
      simp

/-- All the tokens of a text. -/
theorem lexAll_eq_result (text : List (Lexeme τ)) (htext : ∀ le ∈ text, le.keepsDefs) :
  lexAll ev text defs = (LexMode.collect true).result ev defs text
  := by
  rw [lexAll, lexTokens_succ, (run_eq_result text htext _ _ (Nat.le_refl _)).1]
  rfl

/-! ### Texts and modes -/

variable (ev defs) in
/-- Tokens that are live are read where tokens are collected. -/
def LexMode.Covers : LexMode → List (Lexeme τ × Bool) → Prop
  | _, [] => True
  | m, (.tok _, live) :: rest => (live → m.collects) ∧ m.Covers rest
  | m, (le, _) :: rest => (m.step ev defs le).Covers rest

/-- One text after another is covered. -/
theorem LexMode.covers_append (m : LexMode) (text rest : List (Lexeme τ × Bool)) :
  m.Covers ev defs (text ++ rest)
    ↔ m.Covers ev defs text ∧ (m.after ev defs (text.map Prod.fst)).Covers ev defs rest
  := by
  induction text generalizing m with
  | nil => simp [Covers, after]
  | cons p text ih =>
    obtain ⟨le, live⟩ := p
    cases le with
    | tok t =>
      simp only [List.cons_append, Covers, List.map_cons, after_cons, step_tok, ih, and_assoc]
    | _ => simp only [List.cons_append, Covers, List.map_cons, after_cons, ih]

mutual

/-- The marks stand on the lexemes of the text. -/
@[simp] theorem Text.map_marked : ∀ (text : Text τ) (live : Bool),
  (text.marked ev defs live).map Prod.fst = text.render
  | .nil, _ => rfl
  | .tok t rest, live => by
    simp only [Text.marked, Text.render, List.map_cons, rest.map_marked]
  | .group d body branches rest, live => by
    simp only [Text.marked, Text.render, List.map_cons, List.map_append, body.map_marked,
      branches.map_marked, rest.map_marked]

/-- The marks stand on the lexemes of the branches. -/
@[simp] theorem Branches.map_marked : ∀ (branches : Branches τ) (live : Bool),
  (branches.marked ev defs live).map Prod.fst = branches.render
  | .endif, _ => rfl
  | .els body, live => by
    simp only [Branches.marked, Branches.render, List.map_cons, List.map_append,
      body.map_marked, List.map_nil]
  | .elif d body branches, live => by
    simp only [Branches.marked, Branches.render, List.map_cons, List.map_append,
      body.map_marked, branches.map_marked]

end

/-- After the branches of a group tokens are collected. -/
theorem Branches.after_render : ∀ (branches : Branches τ) (m : LexMode),
  m.after ev defs branches.render = .collect false
  | .endif, m => by rw [Branches.render, LexMode.after_cons, LexMode.step_endif]; rfl
  | .els body, m => by
    rw [Branches.render, LexMode.after_cons, LexMode.after_append, LexMode.after_cons,
      LexMode.step_endif]
    rfl
  | .elif d body branches, m => by
    rw [Branches.render, LexMode.after_cons, LexMode.after_append, branches.after_render]

variable (ev defs) in
/-- A text leaves the mode as it is or ends with a group. -/
theorem Text.after_render : ∀ (text : Text τ) (m : LexMode),
  m.after ev defs text.render = m ∨ m.after ev defs text.render = .collect false
  | .nil, m => Or.inl rfl
  | .tok t rest, m => by
    rw [Text.render, LexMode.after_cons, LexMode.step_tok]
    apply rest.after_render
  | .group d body branches rest, m => by
    rw [Text.render, LexMode.after_cons, LexMode.after_append, LexMode.after_append,
      branches.after_render]
    rcases rest.after_render (LexMode.collect false) with h | h
    · apply Or.inr h
    · apply Or.inr h

/-- Where a branch may still be taken: no condition since the last `#endif`, or a false one. -/
def LexMode.isOpen : LexMode → Prop
  | skip => True
  | collect skipElse => skipElse = false
  | toEndif => False

/-- A text in a branch not taken leaves the next one open. -/
theorem Text.isOpen_after {text : Text τ} {m : LexMode} (hm : m.isOpen) :
  (m.after ev defs text.render).isOpen
  := by
  rcases text.after_render ev defs m with h | h
  · rwa [h]
  · rw [h]
    rfl

/-- A group may be opened wherever it is live. -/
theorem LexMode.step_ppIf {m : LexMode} (hm : m.collects = true) (d : PPIf τ) :
  m.step ev defs (.ppIf d) = if d.holds ev defs then collect true else skip
  := by
  rcases m with (_ | _) | _ | _
  · rfl
  · rfl
  · cases hm
  · cases hm

/-- A condition decides where a branch may still be taken. -/
theorem LexMode.step_ppElif {m : LexMode} (hm : m.isOpen) (d : PPElif τ) :
  m.step ev defs (.ppElif d) = if d.holds ev defs then collect true else skip
  := by
  rcases m with (_ | _) | _ | _
  · rfl
  · cases hm
  · rfl
  · cases hm

/-- The last branch is taken where it may still be. -/
theorem LexMode.step_ppElse {m : LexMode} (hm : m.isOpen) :
  m.step ev defs (.ppElse : Lexeme τ) = collect false
  := by
  rcases m with (_ | _) | _ | _
  · rfl
  · cases hm
  · rfl
  · cases hm

mutual

/-- Every live token of a text is collected. -/
theorem Text.covers_marked : ∀ (text : Text τ) (live : Bool) (m : LexMode),
    (live = true → m.collects = true) →
  m.Covers ev defs (text.marked ev defs live)
  | .nil, _, _, _ => trivial
  | .tok t rest, live, m, hm => by
    apply And.intro hm
    apply rest.covers_marked live m hm
  | .group d body branches rest, live, m, hm => by
    rw [Text.marked, LexMode.Covers, LexMode.covers_append, LexMode.covers_append,
      body.map_marked, branches.map_marked, branches.after_render]
    · refine ⟨?_, ?_, ?_⟩
      · apply body.covers_marked
        intro h
        rw [Bool.and_eq_true] at h
        rw [LexMode.step_ppIf (hm h.1), if_pos h.2]
        rfl
      · apply branches.covers_marked
        intro h
        rw [Bool.and_eq_true, Bool.not_eq_true'] at h
        rw [LexMode.step_ppIf (hm h.1), if_neg (by simp [h.2])]
        apply Text.isOpen_after
        trivial
      · apply rest.covers_marked
        intro _
        rfl
    · rintro t ⟨⟩

/-- Every live token of a group is collected. -/
theorem Branches.covers_marked : ∀ (branches : Branches τ) (live : Bool) (m : LexMode),
    (live = true → m.isOpen) →
  m.Covers ev defs (branches.marked ev defs live)
  | .endif, _, _, _ => trivial
  | .els body, live, m, hm => by
    rw [Branches.marked, LexMode.Covers, LexMode.covers_append]
    · apply And.intro
      · apply body.covers_marked
        intro h
        rw [LexMode.step_ppElse (hm h)]
        rfl
      · trivial
    · rintro t ⟨⟩
  | .elif d body branches, live, m, hm => by
    rw [Branches.marked, LexMode.Covers, LexMode.covers_append, body.map_marked]
    · apply And.intro
      · apply body.covers_marked
        intro h
        rw [Bool.and_eq_true] at h
        rw [LexMode.step_ppElif (hm h.1), if_pos h.2]
        rfl
      · apply branches.covers_marked
        intro h
        rw [Bool.and_eq_true, Bool.not_eq_true'] at h
        rw [LexMode.step_ppElif (hm h.1), if_neg (by simp [h.2])]
        apply Text.isOpen_after
        trivial
    · rintro t ⟨⟩

end

/-! ### Places -/

/-- The tokens that are marked are those of the places that are. -/
theorem map_filter_places (ds : List (Lexeme τ)) (text : List (Lexeme τ × Bool)) :
  ((places ds text).filter (·.2.1)).map Prod.fst
    = text.filterMap (fun p => match p with | (.tok t, true) => some t | _ => none)
  := by
  induction text generalizing ds with
  | nil => rfl
  | cons p text ih =>
    obtain ⟨le, live⟩ := p
    cases le with
    | tok t => cases live <;> simp [places, ih]
    | _ => simp [places, ih]

mutual

/-- The selected tokens are the live ones. -/
theorem Text.selected_eq : ∀ (text : Text τ) (live : Bool),
  (text.marked ev defs live).filterMap
      (fun p => match p with | (.tok t, true) => some t | _ => none)
    = if live then text.selected ev defs else []
  | .nil, live => by cases live <;> rfl
  | .tok t rest, live => by
    cases live <;> simp [Text.marked, Text.selected, rest.selected_eq]
  | .group d body branches rest, live => by
    cases live <;> cases h : d.holds ev defs <;>
      simp [Text.marked, Text.selected, body.selected_eq, branches.selected_eq,
        rest.selected_eq, h]

/-- The tokens of the branch taken are the live ones. -/
theorem Branches.selected_eq : ∀ (branches : Branches τ) (live : Bool),
  (branches.marked ev defs live).filterMap
      (fun p => match p with | (.tok t, true) => some t | _ => none)
    = if live then branches.selected ev defs else []
  | .endif, live => by cases live <;> rfl
  | .els body, live => by
    cases live <;> simp [Branches.marked, Branches.selected, body.selected_eq]
  | .elif d body branches, live => by
    cases live <;> cases h : d.holds ev defs <;>
      simp [Branches.marked, Branches.selected, body.selected_eq, branches.selected_eq, h]

end

/-- The tokens that are collected stand in the places whose mode collects. -/
theorem LexMode.collected_eq_places (ds : List (Lexeme τ)) (text : List (Lexeme τ × Bool)) :
  ((collect false).after ev defs ds).collected ev defs (text.map Prod.fst)
    = ((places ds text).filter
        (fun p => ((collect false).after ev defs p.2.2).collects)).map Prod.fst
  := by
  induction text generalizing ds with
  | nil => rfl
  | cons p text ih =>
    obtain ⟨le, live⟩ := p
    cases le with
    | tok t =>
      simp only [List.map_cons, collected, places, List.filter_cons, ih]
      split_ifs <;> rfl
    | ppEndif =>
      rw [List.map_cons, collected, step_endif, places, ← ih []]
      · rfl
      · rintro t ⟨⟩
    | _ =>
      rw [List.map_cons, collected, places, ← ih, after_append]
      · rfl
      all_goals simp

/-- Where live tokens are covered, the modes of their places collect. -/
theorem LexMode.Covers.places {ds : List (Lexeme τ)} {text : List (Lexeme τ × Bool)}
    (h : ((collect false).after ev defs ds).Covers ev defs text) :
  ∀ p ∈ places ds text, p.2.1 = true →
    ((collect false).after ev defs p.2.2).collects = true
  := by
  induction text generalizing ds with
  | nil => simp [Polyc.places]
  | cons p text ih =>
    obtain ⟨le, live⟩ := p
    cases le with
    | tok t =>
      rw [Polyc.places]
      intro p hp
      rcases List.mem_cons.1 hp with rfl | hp
      · apply h.1
      · apply ih h.2 p hp
    | ppEndif =>
      rw [Polyc.places]
      apply ih
      rw [Covers, step_endif] at h
      · apply h
      · rintro t ⟨⟩
    | _ =>
      rw [Polyc.places]
      · apply ih
        rw [after_append]
        apply h
      all_goals simp

/-- A directive that a group has before its `#endif`. -/
def Lexeme.isCondition : Lexeme τ → Prop
  | .ppIf _ | .ppElif _ | .ppElse => True
  | _ => False

mutual

/-- The lexemes of a text leave the macros as they are. -/
theorem Text.keepsDefs : ∀ (text : Text τ), ∀ le ∈ text.render, le.keepsDefs
  | .nil => by simp [Text.render]
  | .tok t rest => by
    intro le h
    rcases List.mem_cons.1 h with rfl | h
    · trivial
    · apply rest.keepsDefs le h
  | .group d body branches rest => by
    intro le h
    rw [Text.render, List.mem_cons, List.mem_append, List.mem_append] at h
    rcases h with rfl | h | h | h
    · trivial
    · apply body.keepsDefs le h
    · apply branches.keepsDefs le h
    · apply rest.keepsDefs le h

/-- The lexemes of branches leave the macros as they are. -/
theorem Branches.keepsDefs : ∀ (branches : Branches τ), ∀ le ∈ branches.render, le.keepsDefs
  | .endif => by
    intro le h
    rw [Branches.render, List.mem_singleton] at h
    rw [h]
    trivial
  | .els body => by
    intro le h
    rw [Branches.render, List.mem_cons, List.mem_append, List.mem_singleton] at h
    rcases h with rfl | h | rfl
    · trivial
    · apply body.keepsDefs le h
    · trivial
  | .elif d body branches => by
    intro le h
    rw [Branches.render, List.mem_cons, List.mem_append] at h
    rcases h with rfl | h | h
    · trivial
    · apply body.keepsDefs le h
    · apply branches.keepsDefs le h

end

/-- What stands since the last `#endif` before a place are conditions. -/
theorem isCondition_places {ds : List (Lexeme τ)} {text : List (Lexeme τ × Bool)}
    (hds : ∀ d ∈ ds, d.isCondition) (htext : ∀ le ∈ text.map Prod.fst, le.keepsDefs) :
  ∀ p ∈ places ds text, ∀ d ∈ p.2.2, d.isCondition
  := by
  induction text generalizing ds with
  | nil => simp [places]
  | cons p text ih =>
    obtain ⟨le, live⟩ := p
    have htext' : ∀ le ∈ text.map Prod.fst, le.keepsDefs := by
      intro le hle
      apply htext le (List.mem_cons_of_mem _ hle)
    have hle : le.keepsDefs := htext le (by simp)
    have hsnoc (hc : le.isCondition) : ∀ d ∈ ds ++ [le], d.isCondition := by
      intro d hd
      rcases List.mem_append.1 hd with hd | hd
      · apply hds d hd
      · rwa [List.mem_singleton.1 hd]
    cases le with
    | tok t =>
      rw [places]
      intro p hp
      rcases List.mem_cons.1 hp with rfl | hp
      · apply hds
      · apply ih hds htext' p hp
    | ppEndif =>
      rw [places]
      apply ih (by simp) htext'
    | ppDefine ident value => cases hle
    | ppUndef ident => cases hle
    | ppIf d => apply ih (hsnoc trivial) htext'
    | ppElif d => apply ih (hsnoc trivial) htext'
    | ppElse => apply ih (hsnoc trivial) htext'

variable (ev defs) in
/-- No `#elif` or `#else` follows a condition that holds right away. -/
def Unbroken (ds : List (Lexeme τ)) : Prop :=
  ds.IsChain (fun a b => ¬ (a.holds ev defs ∧ b.goesOn))

/-- A further directive leaves a list unbroken. -/
theorem unbroken_snoc (ds : List (Lexeme τ)) (d : Lexeme τ) :
  Unbroken ev defs (ds ++ [d])
    ↔ Unbroken ev defs ds ∧ ∀ a, ds.getLast? = some a → a.holds ev defs = true → d.goesOn = false
  := by
  rw [Unbroken, List.isChain_append]
  simp [Unbroken]

/-- A condition decides alone where a branch may still be taken. -/
theorem LexMode.step_isOpen {m : LexMode} (hm : m.isOpen) {d : Lexeme τ} (hd : d.isCondition) :
  m.step ev defs d = (collect false).step ev defs d
  := by
  cases d with
  | ppIf d =>
    rcases m with (_ | _) | _ | _
    · rfl
    · rfl
    · rfl
    · cases hm
  | ppElif d => rw [step_ppElif hm, step_ppElif (m := collect false) rfl]
  | ppElse => rw [step_ppElse hm, step_ppElse (m := collect false) rfl]
  | _ => cases hd

/-- Whether tokens are collected after one condition. -/
theorem Lexeme.collects_step {d : Lexeme τ} (hd : d.isCondition) :
  ((LexMode.collect false).step ev defs d).collects = true
    ↔ d.holds ev defs = true ∨ d = .ppElse
  := by
  cases d with
  | ppIf d => cases h : d.holds ev defs <;> simp [LexMode.step, LexMode.collects, holds, h]
  | ppElif d => cases h : d.holds ev defs <;> simp [LexMode.step, LexMode.collects, holds, h]
  | ppElse => simp [LexMode.step, LexMode.collects]
  | _ => cases hd

variable (ev defs) in
/-- After a condition that holds no branch may be taken; after another one it may. -/
theorem Lexeme.step_condition {d : Lexeme τ} (hd : d.isCondition) :
  (d.holds ev defs = true ∧ (LexMode.collect false).step ev defs d = .collect true)
    ∨ (d.holds ev defs = false ∧ ((LexMode.collect false).step ev defs d).isOpen)
  := by
  cases d with
  | ppIf d => cases h : d.holds ev defs <;> simp [LexMode.step, LexMode.isOpen, holds, h]
  | ppElif d => cases h : d.holds ev defs <;> simp [LexMode.step, LexMode.isOpen, holds, h]
  | ppElse => simp [LexMode.step, LexMode.isOpen, holds]
  | _ => cases hd

variable (ev defs) in
/-- The mode after some conditions: their loop looks for the `#endif` if they are broken, and
else the last of them decides. -/
theorem after_conditions (ds : List (Lexeme τ)) (hds : ∀ d ∈ ds, d.isCondition) :
  (¬ Unbroken ev defs ds ∧ (LexMode.collect false).after ev defs ds = .toEndif)
    ∨ (Unbroken ev defs ds ∧
      ((ds = [] ∧ (LexMode.collect false).after ev defs ds = .collect false)
        ∨ ∃ d ∈ ds, ds.getLast? = some d ∧
          (LexMode.collect false).after ev defs ds = (LexMode.collect false).step ev defs d))
  := by
  induction ds using List.reverseRecOn with
  | nil => simp [Unbroken, LexMode.after]
  | append_singleton ds d ih =>
    have hd : d.isCondition := hds d (by simp)
    have last : d ∈ ds ++ [d] := by simp
    rw [LexMode.after_append, unbroken_snoc, List.getLast?_concat]
    rcases ih (fun d hd => hds d (by simp [hd])) with
      ⟨hu, ha⟩ | ⟨hu, ⟨rfl, ha⟩ | ⟨e, hmem, he, ha⟩⟩
    · left
      rw [ha]
      constructor
      · rintro ⟨h, -⟩
        apply hu h
      · cases d with
        | tok t => cases hd
        | ppEndif => cases hd
        | _ => rfl
    · right
      rw [ha]
      exact ⟨⟨hu, by simp⟩, Or.inr ⟨d, last, rfl, rfl⟩⟩
    · rw [ha, he]
      have hcond : e.isCondition := hds e (by simp [hmem])
      rcases e.step_condition ev defs hcond with ⟨hh, hs⟩ | ⟨hh, hs⟩
      · rw [hs]
        cases d with
        | ppIf d =>
          right
          exact ⟨⟨hu, by simp [Lexeme.goesOn]⟩, Or.inr ⟨_, last, rfl, rfl⟩⟩
        | ppElif d =>
          left
          exact ⟨fun h => Bool.noConfusion (h.2 e rfl hh), rfl⟩
        | ppElse =>
          left
          exact ⟨fun h => Bool.noConfusion (h.2 e rfl hh), rfl⟩
        | _ => cases hd
      · right
        constructor
        · apply And.intro hu
          rintro a ⟨⟩ ht
          rw [hh] at ht
          cases ht
        · exact Or.inr ⟨d, last, rfl, LexMode.step_isOpen hs hd⟩

/-- The places that are reached are those whose mode collects. -/
theorem reached_iff (ds : List (Lexeme τ)) (hds : ∀ d ∈ ds, d.isCondition) :
  Reached ev defs ds ↔ ((LexMode.collect false).after ev defs ds).collects = true
  := by
  rw [Reached]
  rcases after_conditions ev defs ds hds with
    ⟨hu, ha⟩ | ⟨hu, ⟨rfl, ha⟩ | ⟨e, hmem, he, ha⟩⟩
  · rw [ha]
    simp only [LexMode.collects, Bool.false_eq_true, iff_false]
    rintro ⟨h, -⟩
    apply hu h
  · rw [ha]
    simp [LexMode.collects]
  · rw [ha, he, Lexeme.collects_step (hds e hmem)]
    constructor
    · rintro ⟨-, h⟩
      apply h e rfl
    · intro h
      apply And.intro hu
      rintro d ⟨⟩
      apply h

/-! ### What the lexer returns -/

/-- A text begins with no directive that goes on with a group. -/
theorem Text.collected_init (text : Text τ) :
  (LexMode.collect true).collected ev defs text.render
    = (LexMode.collect false).collected ev defs text.render
  := by
  match text with
  | .nil => rfl
  | .tok t rest =>
    rw [Text.render, LexMode.collected, LexMode.collected, rest.collected_init]
    rfl
  | .group d body branches rest => rfl

/-- A text is read to its end. -/
theorem Text.result_init (text : Text τ) :
  (LexMode.collect true).result ev defs text.render
    = some ((LexMode.collect false).collected ev defs text.render)
  := by
  rw [LexMode.result, if_neg, text.collected_init]
  rcases text.after_render ev defs (.collect true) with h | h <;> simp [h]

variable (ev defs) in
/-- The tokens that the lexer returns are those of the places reached. -/
theorem Text.lexAll_render (text : Text τ) :
  lexAll ev text.render defs
    = some (((places [] (text.marked ev defs true)).filter
      (fun p => ((LexMode.collect false).after ev defs p.2.2).collects)).map Prod.fst)
  := by
  have hmarked : (text.marked ev defs true).map Prod.fst = text.render := text.map_marked true
  rw [lexAll_eq_result _ text.keepsDefs, text.result_init, ← hmarked,
    ← LexMode.collected_eq_places]
  rfl

variable (ev defs) in
/-- The selected tokens are those of the places that are live. -/
theorem Text.selected_eq_places (text : Text τ) :
  text.selected ev defs
    = ((places [] (text.marked ev defs true)).filter (·.2.1)).map Prod.fst
  := by
  rw [map_filter_places, text.selected_eq, if_pos rfl]

/-- Two filters, one of which keeps what the other does, keep the same if their lists agree
after a map. -/
theorem map_filter_eq_iff {α β : Type} (f : α → β) (p q : α → Bool) (l : List α)
    (h : ∀ a ∈ l, p a = true → q a = true) :
  (l.filter q).map f = (l.filter p).map f ↔ ∀ a ∈ l, p a = false → ¬ q a = true
  := by
  have hsub : (l.filter p).Sublist (l.filter q) := by
    have hp : l.filter p = (l.filter q).filter p := by
      rw [List.filter_filter]
      apply List.filter_congr
      intro a ha
      cases hpa : p a
      · rfl
      · rw [h a ha hpa]
        rfl
    rw [hp]
    apply List.filter_sublist
  constructor
  · intro heq a ha hpa hqa
    have hlen : (l.filter p).length = (l.filter q).length := by
      have := congrArg List.length heq
      rw [List.length_map, List.length_map] at this
      apply this.symm
    have hmem : a ∈ l.filter p := by
      rw [hsub.eq_of_length hlen]
      apply List.mem_filter.2 ⟨ha, hqa⟩
    rw [(List.mem_filter.1 hmem).2] at hpa
    cases hpa
  · intro hq
    congr 1
    apply List.filter_congr
    intro a ha
    cases hpa : p a
    · simpa using hq a ha hpa
    · apply h a ha hpa

variable (ev defs) in
/-- The lexer returns the selected tokens exactly if, by the directives since the last `#endif`,
no other token is reached. -/
theorem lexAll_render_iff (text : Text τ) :
  lexAll ev text.render defs = some (text.selected ev defs)
    ↔ ∀ p ∈ places [] (text.marked ev defs true), p.2.1 = false → ¬ Reached ev defs p.2.2
  := by
  have covers : ∀ p ∈ places [] (text.marked ev defs true), p.2.1 = true →
      ((LexMode.collect false).after ev defs p.2.2).collects = true := by
    apply LexMode.Covers.places
    apply text.covers_marked true (LexMode.collect false) (fun _ => rfl)
  rw [text.lexAll_render, text.selected_eq_places, Option.some.injEq,
    map_filter_eq_iff _ _ _ _ covers]
  have conditions : ∀ p ∈ places [] (text.marked ev defs true), ∀ d ∈ p.2.2,
      Lexeme.isCondition d := by
    apply isCondition_places (by simp)
    rw [text.map_marked]
    apply text.keepsDefs
  constructor
  · intro h p hp hlive
    rw [reached_iff _ (conditions p hp)]
    apply h p hp hlive
  · intro h p hp hlive
    rw [← reached_iff _ (conditions p hp)]
    apply h p hp hlive

end

/-- The text `#if 0`, `#if 1`, `A`, `#endif`, `#endif`: the lexer returns `A`, which lies in a
branch that is not taken. -/
theorem lexAll_nested_skipped :
  ∃ (ev : PPEval Nat (String → Option Nat) Nat) (text : Text Nat),
    lexAll ev text.render (fun _ => none) ≠ some (text.selected ev (fun _ => none))
  := by
  use { lexPreProcIf := fun _ expr => decide (expr ≠ [.other 0]), expanded := fun _ _ => 0 },
    .group (.«if» [.other 0])
      (.group (.«if» [.other 1]) (.tok (.ident "A") .nil) .endif .nil) .endif .nil
  decide

end Polyc
