import Polyc.Lexer.CursorEnds
import Polyc.Lexer.Directives

/-!
# The directives end

Every loop of a directive over the tokens of the lexer looks whether there is a token, but the one
of `lexInclude`.  A token has a character, so the characters that are left bound its steps.
-/

namespace Polyc.Lex

open StateRuns

/-! ### The loops of the directives -/

/-- A lexer that ends on the last `n` characters, and takes a character of a token. -/
def Reads (lex : Lexeme → LexM (Bool × Lexeme)) (n : Nat) : Prop :=
  ∀ {le : Lexeme} {l : Lexer}, l.Fits → l.left ≤ n →
    Ends (lex le) l fun r l' => Spent r.1.toNat l l'

/-- `lex` reads with its bound on the steps. -/
theorem lex_reads {o : Outside} {fuel n : Nat} (hfuel : n + 1 < fuel) :
  Reads (lex o fuel) n
  := by
  intro le l h hn
  apply lex_ends h (by omega)

/-- The macros are not changed where one is looked up. -/
theorem macroOf_ends {name : List Char} {l : Lexer} :
  Ends (macroOf name) l fun _ l' => l = l'
  := rfl

/-- A change of the flags takes no character. -/
theorem flags_ends {f : Lexer → Lexer} {l : Lexer} (h : l.Fits) (hcur : (f l).cur = l.cur)
    (hfiles : (f l).files = l.files) (hseen : (f l).seen = l.seen) :
  Ends (modify f) l fun _ l' => Spent 0 l l'
  := by
  apply Ensures.modify
  apply Spent.of_cursors h
  case hfile => rw [hcur]
  case hptr => rw [hcur]
  case hfiles => apply hfiles
  case hseen => apply hseen

/-- What a program takes after one that takes something. -/
theorem Spent.then_ends {α : Type} {m : LexM α} {k : Nat} {f : α → Nat} {l l₁ : Lexer}
    (h : Spent k l l₁) (hm : Ends m l₁ fun a l' => Spent (f a) l₁ l') :
  Ends m l₁ fun _ l' => Spent 0 l l'
  := by
  apply Ensures.mono hm
  intro a l' h'
  apply (h.trans h').zero

section Loops

variable {lex : Lexeme → LexM (Bool × Lexeme)} {n : Nat}

/-- The loop of `lexLink` ends. -/
theorem linkLoop_ends (hlex : Reads lex n) {fuel : Nat} :
  ∀ {next : Lexeme} {l : Lexer}, l.Fits → l.left ≤ n → l.left < fuel →
    Ends (linkLoop lex fuel next) l fun _ l' => Spent 0 l l'
  := by
  induction fuel with
  | zero =>
    intro next l _ _ hfuel
    omega
  | succ fuel ih =>
    intro next l h hn hfuel
    rw [linkLoop]
    apply Ensures.bind (hlex h hn)
    rintro ⟨ok, next'⟩ l₁ h₁
    apply raise_or_ends
    intro hok
    obtain rfl : ok = true := by simpa using hok
    have hleft : l₁.left + 1 ≤ l.left := h₁.left
    apply Ensures.ite
    · intro _
      apply Ensures.pure
      apply h₁.zero
    · intro _
      apply h₁.then_ends (ih h₁.fits (by omega) (by omega))

/-- The loop of `lexDefine` ends. -/
theorem defineLoop_ends (hlex : Reads lex n) {fuel : Nat} :
  ∀ {tkType : TkType} {tokens : List Lexeme} {next : Lexeme} {l : Lexer},
    l.Fits → l.left ≤ n → l.left < fuel →
    Ends (defineLoop lex fuel tkType tokens next) l fun _ l' => Spent 0 l l'
  := by
  induction fuel with
  | zero =>
    intro tkType tokens next l _ _ hfuel
    omega
  | succ fuel ih =>
    intro tkType tokens next l h hn hfuel
    rw [defineLoop]
    apply Ensures.bind (hlex h hn)
    rintro ⟨ok, next'⟩ l₁ h₁
    have returns {a : TkType × List Lexeme} :
        Ends (pure a) l₁ fun _ l' => Spent 0 l l' := by
      apply Ensures.pure
      apply h₁.zero
    apply Ensures.ite
    · intro _
      apply returns
    intro hok
    obtain rfl : ok = true := by simpa using hok
    have hleft : l₁.left + 1 ≤ l.left := h₁.left
    have goesOn {tkType : TkType} {tokens : List Lexeme} :
        Ends (defineLoop lex fuel tkType tokens next') l₁ fun _ l' => Spent 0 l l' := by
      apply h₁.then_ends (ih h₁.fits (by omega) (by omega))
    apply Ensures.bind macroOf_ends
    rintro found _ rfl
    split
    case h_1 => apply goesOn
    case h_2 =>
      apply Ensures.ite
      · intro _
        apply returns
      · intro _
        apply goesOn

/-- The loop of `lexToken` up to the end of a group ends. -/
theorem endifLoop_ends (hlex : Reads lex n) {fuel : Nat} :
  ∀ {le : Lexeme} {l : Lexer}, l.Fits → l.left ≤ n → l.left < fuel →
    Ends (endifLoop lex fuel le) l fun _ l' => Spent 0 l l'
  := by
  induction fuel with
  | zero =>
    intro le l _ _ hfuel
    omega
  | succ fuel ih =>
    intro le l h hn hfuel
    rw [endifLoop]
    apply Ensures.bind (hlex h hn)
    rintro ⟨ok, le'⟩ l₁ h₁
    have returns : Ends (pure PUnit.unit) l₁ fun _ l' => Spent 0 l l' := by
      apply Ensures.pure
      apply h₁.zero
    apply Ensures.ite
    · intro _
      apply returns
    intro hok
    obtain rfl : ok = true := by simpa using hok
    have hleft : l₁.left + 1 ≤ l.left := h₁.left
    apply Ensures.ite
    · intro _
      apply returns
    · intro _
      apply h₁.then_ends (ih h₁.fits (by omega) (by omega))

/-- `lexContinued` ends. -/
theorem lexContinued_ends (hlex : Reads lex n) {next : Lexeme} {l : Lexer} (h : l.Fits)
    (hn : l.left ≤ n) :
  Ends (lexContinued lex next) l fun _ l' => Spent 0 l l'
  := by
  rw [lexContinued]
  apply Ensures.ite
  · intro _
    apply Ensures.bind (hlex h hn)
    rintro ⟨ok, next₁⟩ l₁ h₁
    have hleft := h₁.left
    apply Ensures.ite
    · intro _
      apply Ensures.pure
      apply h₁.zero
    intro _
    apply Ensures.ite
    · intro _
      apply raise_ends
    · intro _
      apply Ensures.bind (hlex h₁.fits (by omega))
      rintro ⟨ok₂, next₂⟩ l₂ h₂
      apply Ensures.pure
      apply (h₁.trans h₂).zero
  · intro _
    apply Ensures.pure
    apply Spent.refl h

/-- The loop of `lexPreProcIf` ends. -/
theorem ifLoop_ends (hlex : Reads lex n) {fuel : Nat} :
  ∀ {c : Condition} {next : Lexeme} {l : Lexer}, l.Fits → l.left ≤ n → l.left < fuel →
    Ends (ifLoop lex fuel c next) l fun _ l' => Spent 0 l l'
  := by
  induction fuel with
  | zero =>
    intro c next l _ _ hfuel
    omega
  | succ fuel ih =>
    intro c next l h hn hfuel
    rw [ifLoop]
    apply Ensures.ite
    · intro _
      apply Ensures.pure
      apply Spent.refl h
    intro _
    apply Ensures.bind (lexContinued_ends hlex h hn)
    intro continued l₁ h₁
    cases continued with
    | none =>
      apply Ensures.pure
      apply h₁
    | some next₁ =>
      apply Ensures.bind macroOf_ends
      rintro found _ rfl
      have hleft₁ := h₁.left
      apply Ensures.bind (hlex h₁.fits (by omega))
      rintro ⟨ok, next₂⟩ l₂ h₂
      apply Ensures.ite
      · intro _
        apply Ensures.pure
        apply (h₁.trans h₂).zero
      · intro hok
        obtain rfl : ok = true := by simpa using hok
        have hleft₂ : l₂.left + 1 ≤ l₁.left := h₂.left
        apply (h₁.trans h₂).then_ends (ih h₂.fits (by omega) (by omega))

end Loops

/-! ### The directives -/

section Directives

variable {o : Outside} {fuel : Nat} {l : Lexer}

/-- `lexLink` ends. -/
theorem lexLink_ends (h : l.Fits) (hfuel : l.left + 1 < fuel) :
  Ends (lexLink o fuel) l fun _ l' => Spent 0 l l'
  := by
  rw [lexLink]
  apply Ensures.bind (lex_ends h hfuel)
  rintro ⟨ok, next⟩ l₁ h₁
  apply raise_or_ends
  intro _
  have hleft := h₁.left
  apply Ensures.ite
  · intro _
    apply h₁.then_ends (linkLoop_ends (lex_reads hfuel) h₁.fits (by omega) (by omega))
  · intro _
    apply Ensures.ite
    · intro _
      apply raise_ends
    · intro _
      apply Ensures.pure
      apply h₁.zero

/-- The flag for ends of lines takes no character. -/
theorem setAcceptNewlines_ends {accept : Bool} (h : l.Fits) :
  Ends (setAcceptNewlines accept) l fun _ l' => Spent 0 l l'
  := by
  apply flags_ends h <;> rfl

/-- A macro takes no character. -/
theorem addMacro_ends {name : List Char} {le : Lexeme} (h : l.Fits) :
  Ends (addMacro name le) l fun _ l' => Spent 0 l l'
  := by
  apply flags_ends h <;> rfl

/-- `lexDefine` ends. -/
theorem lexDefine_ends (h : l.Fits) (hfuel : l.left + 1 < fuel) :
  Ends (lexDefine o fuel) l fun _ l' => Spent 0 l l'
  := by
  rw [lexDefine]
  apply Ensures.bind (lex_ends h hfuel)
  rintro ⟨ok, next⟩ l₁ h₁
  apply raise_or_ends
  intro _
  apply Ensures.bind (setAcceptNewlines_ends h₁.fits)
  intro _ l₂ h₂
  have h₂ := h₁.trans h₂
  have hleft := h₂.left
  apply Ensures.bind (defineLoop_ends (lex_reads hfuel) h₂.fits (by omega) (by omega))
  rintro ⟨tkType, tokens⟩ l₃ h₃
  apply Ensures.bind (setAcceptNewlines_ends h₃.fits)
  intro _ l₄ h₄
  have h₄ := h₂.trans (h₃.trans h₄)
  have adds {name : List Char} {le : Lexeme} :
      Ends (addMacro name le) l₄ fun _ l' => Spent 0 l l' := by
    apply h₄.then_ends (addMacro_ends h₄.fits)
  cases tokens with
  | nil => apply adds
  | cons start rest =>
    apply Ensures.ite
    · intro _
      apply raise_ends
    intro _
    apply Ensures.ite
    · intro _
      apply adds
    · intro _
      split
      case h_1 => apply adds
      case h_2 => apply raise_ends

/-- The name of `#undef` fits the buffer. -/
def UndefFits (o : Outside) (fuel : Nat) (l : Lexer) : Prop :=
  ∀ ok next l', lex o fuel o.unset l = .ok ((ok, next), l') → next.tkType = .ident →
    next.text.length < undefBufferSize

/-- `lexUndef` ends where the name fits the buffer. -/
theorem lexUndef_ends (h : l.Fits) (hfuel : l.left + 1 < fuel) (hname : UndefFits o fuel l) :
  Ends (lexUndef o fuel) l fun _ l' => Spent 0 l l'
  := by
  rw [lexUndef]
  apply Ensures.bind (lex_ends h hfuel).with_eq
  rintro ⟨ok, next⟩ l₁ ⟨hrun, h₁⟩
  apply raise_or_ends
  intro htype
  dsimp only
  rw [if_neg (by have := hname ok next l₁ hrun (not_not.mp htype); omega)]
  apply h₁.then_ends (flags_ends h₁.fits rfl rfl rfl)

/-- `lexPreProcIf` ends. -/
theorem lexPreProcIf_ends (h : l.Fits) (hfuel : l.left + 1 < fuel) :
  Ends (lexPreProcIf o fuel) l fun _ l' => Spent 0 l l'
  := by
  rw [lexPreProcIf]
  apply Ensures.bind (setAcceptNewlines_ends h)
  intro _ l₁ h₁
  have hleft₁ := h₁.left
  apply Ensures.bind (lex_ends h₁.fits (by omega))
  rintro ⟨ok, next⟩ l₂ h₂
  apply raise_or_ends
  intro _
  have hleft₂ := h₂.left
  apply Ensures.bind (ifLoop_ends (lex_reads hfuel) h₂.fits (by omega) (by omega))
  intro c l₃ h₃
  apply Ensures.bind (setAcceptNewlines_ends h₃.fits)
  intro _ l₄ h₄
  apply raise_or_ends
  intro _
  split
  case h_1 =>
    apply Ensures.pure
    apply ((h₁.trans h₂).trans (h₃.trans h₄)).zero
  case h_2 => apply raise_ends

/-- The flags of a condition take no character. -/
theorem setSkip_ends {collecting skipElse : Bool} (h : l.Fits) :
  Ends (setSkip collecting skipElse) l fun _ l' => Spent 0 l l'
  := by
  apply flags_ends h <;> rfl

/-- `lexPreProcBoolean` ends. -/
theorem lexPreProcBoolean_ends {le : Lexeme} (h : l.Fits) (hfuel : l.left + 1 < fuel) :
  Ends (lexPreProcBoolean o fuel le) l fun _ l' => Spent 0 l l'
  := by
  rw [lexPreProcBoolean]
  apply Ensures.bind (P := fun s l' => l = s ∧ l = l') (Ensures.get ⟨rfl, rfl⟩)
  rintro _ _ ⟨rfl, rfl⟩
  have gives {ok : Bool} {l₁ : Lexer} (h₁ : Spent 0 l l₁) :
      Ends (pure ok) l₁ fun _ l' => Spent 0 l l' := by
    apply Ensures.pure
    apply h₁
  have sets {k : Nat} {collecting skipElse ok : Bool} {l₁ : Lexer} (h₁ : Spent k l l₁) :
      Ends (setSkip collecting skipElse >>= fun _ => pure ok) l₁ fun _ l' => Spent 0 l l' := by
    apply Ensures.bind (setSkip_ends h₁.fits)
    intro _ l₂ h₂
    apply gives (h₁.trans h₂).zero
  have stays := Spent.refl h
  apply Ensures.ite
  · intro _
    apply Ensures.bind (lexPreProcIf_ends h hfuel)
    intro ok l₁ h₁
    apply sets h₁
  intro _
  apply Ensures.ite
  · intro _
    apply Ensures.bind (lex_ends h hfuel)
    rintro ⟨ok, next⟩ l₁ h₁
    apply Ensures.bind macroOf_ends
    rintro found _ rfl
    apply sets h₁
  intro _
  apply Ensures.ite
  · intro _
    apply Ensures.bind macroOf_ends
    rintro found _ rfl
    apply sets stays
  intro _
  apply Ensures.ite
  · intro _
    apply Ensures.bind (lex_ends h hfuel)
    rintro ⟨ok, next⟩ l₁ h₁
    apply Ensures.bind macroOf_ends
    rintro found _ rfl
    apply sets h₁
  intro _
  apply Ensures.ite
  · intro _
    apply Ensures.ite
    · intro _
      apply gives stays
    · intro _
      apply Ensures.bind (lexPreProcIf_ends h hfuel)
      intro ok l₁ h₁
      apply Ensures.bind (flags_ends h₁.fits rfl rfl rfl)
      intro _ l₂ h₂
      apply gives (h₁.trans h₂)
  intro _
  apply Ensures.ite
  · intro _
    apply Ensures.ite
    · intro _
      apply gives stays
    · intro _
      apply Ensures.bind (lex_ends h hfuel)
      rintro ⟨ok, next⟩ l₁ h₁
      apply Ensures.bind macroOf_ends
      rintro found _ rfl
      apply sets h₁
  intro _
  apply Ensures.ite
  · intro _
    apply Ensures.ite
    · intro _
      apply gives stays
    · intro _
      apply Ensures.bind (flags_ends h rfl rfl rfl)
      intro _ l₁ h₁
      apply gives h₁
  intro _
  apply Ensures.ite
  · intro _
    apply sets stays
  · intro _
    apply gives stays

/-- The loop of `lexToken` over a group ends. -/
theorem skipLoop_ends {n : Nat} :
  ∀ {le : Lexeme} {l : Lexer}, l.Fits → l.left + 1 < fuel → l.left < n →
    Ends (skipLoop o fuel n le) l fun _ l' => Spent 0 l l'
  := by
  induction n with
  | zero =>
    intro le l _ _ hn
    omega
  | succ n ih =>
    intro le l h hfuel hn
    rw [skipLoop]
    apply Ensures.bind (lexPreProcBoolean_ends h hfuel)
    intro ok l₁ h₁
    have hleft₁ := h₁.left
    apply Ensures.ite
    · intro _
      apply Ensures.pure
      apply h₁
    · intro _
      apply Ensures.bind (lex_ends h₁.fits (by omega))
      rintro ⟨ok', le'⟩ l₂ h₂
      apply raise_or_ends
      intro hok
      obtain rfl : ok' = true := by simpa using hok
      have hleft₂ : l₂.left + 1 ≤ l₁.left := h₂.left
      apply (h₁.trans h₂).then_ends (ih h₂.fits (by omega) (by omega))

end Directives

end Polyc.Lex
