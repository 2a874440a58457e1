import Polyc.Lib.StateRuns
import Polyc.Lexer.Lex

/-!
# The bound on the steps of the lexer

A bound on the steps of the loops does not change what `lex` gives where it gives something: with
more steps it gives the same.
-/

namespace Polyc.Lex

open Numeric StringLiteral StateRuns

/-- The loop of `lexIdentifier` with one more step. -/
theorem identLoop_upto (fuel : Nat) :
  ∀ ch i, Upto .fuel (identLoop fuel ch i) (identLoop (fuel + 1) ch i)
  := by
  induction fuel with
  | zero =>
    intro ch i
    apply Upto.throw
  | succ fuel ih =>
    intro ch i
    rw [identLoop, identLoop]
    apply Upto.ite
    · apply Upto.bind (Upto.refl _)
      intro next
      apply ih
    · apply Upto.refl

/-- The loop of `lexString` with one more step. -/
theorem strLoop_upto (fuel : Nat) :
  ∀ b, Upto .fuel (strLoop fuel b) (strLoop (fuel + 1) b)
  := by
  induction fuel with
  | zero =>
    intro b
    apply Upto.throw
  | succ fuel ih =>
    intro b
    rw [strLoop, strLoop]
    apply Upto.bind (Upto.refl _)
    intro ch
    apply Upto.ite (Upto.refl _)
    apply Upto.ite_bind
    intro _
    apply Upto.ite (Upto.refl _)
    apply Upto.ite
    · apply Upto.bind (Upto.refl _)
      intro ch'
      apply Upto.ite
      · apply Upto.bind (Upto.refl _)
        intro h₁
        apply Upto.bind (Upto.refl _)
        intro h₂
        split
        case h_1 => apply ih
        case h_2 => apply Upto.refl
      · split
        case h_1 => apply ih
        case h_2 => apply Upto.refl
    · apply ih

/-- The loop of `lexCharConst` with one more step. -/
theorem charLoop_upto (fuel : Nat) :
  ∀ len value overflowed,
    Upto .fuel (charLoop fuel len value overflowed) (charLoop (fuel + 1) len value overflowed)
  := by
  induction fuel with
  | zero =>
    intro len value overflowed
    apply Upto.throw
  | succ fuel ih =>
    intro len value overflowed
    rw [charLoop, charLoop]
    apply Upto.bind (Upto.refl _)
    intro ch
    apply Upto.ite (Upto.refl _)
    apply Upto.ite
    · apply Upto.ite
      · apply Upto.bind (Upto.refl _)
        intro _
        apply ih
      · apply ih
    apply Upto.ite
    · apply Upto.bind (Upto.refl _)
      intro ch'
      apply Upto.ite
      · apply Upto.bind (Upto.refl _)
        intro num
        apply ih
      · apply ih
    · apply ih

/-- `lexPreProcDirective` gives up where the lexer that it calls does. -/
theorem lexPreProcDirective_upto (o : Outside) {lex lex' : Lexeme → LexM (Bool × Lexeme)}
    (h : ∀ le, Upto .fuel (lex le) (lex' le)) :
  Upto .fuel (lexPreProcDirective o lex) (lexPreProcDirective o lex')
  := by
  apply Upto.bind (h o.unset)
  intro r
  apply Upto.refl

/-- `lex` gives up where the loop of `lexCore` does. -/
theorem lexWith_upto {core core' : Lexeme → LexM (Bool × Lexeme)}
    (h : ∀ le, Upto .fuel (core le) (core' le)) (le : Lexeme) :
  Upto .fuel (lexWith core le) (lexWith core' le)
  := by
  apply Upto.bind (h le)
  intro r
  apply Upto.refl

/-- `lexCore` with one more step. -/
theorem lexCore_upto_succ (o : Outside) (fuel : Nat) :
  ∀ le, Upto .fuel (lexCore o fuel le) (lexCore o (fuel + 1) le)
  := by
  induction fuel with
  | zero =>
    intro le
    apply Upto.throw
  | succ fuel ih =>
    intro le
    rw [lexCore, lexCore]
    apply Upto.bind (Upto.refl _)
    intro ch
    apply Upto.bind (Upto.refl _)
    intro _
    apply Upto.bind (Upto.refl _)
    intro l
    apply Upto.ite
    · apply Upto.bind (Upto.refl _)
      intro _
      apply Upto.bind (Upto.refl _)
      intro _
      apply Upto.ite (Upto.refl _) (ih le)
    apply Upto.ite (ih le)
    apply Upto.ite (Upto.refl _)
    apply Upto.ite (Upto.refl _)
    apply Upto.ite
    · apply Upto.bind (strLoop_upto fuel _)
      intro b
      apply Upto.refl
    apply Upto.ite
    · apply Upto.bind (charLoop_upto fuel _ _ _)
      intro r
      apply Upto.refl
    apply Upto.ite
    · apply Upto.bind (Upto.refl _)
      intro p
      apply Upto.ite
      · apply Upto.bind (Upto.refl _)
        intro _
        apply ih le
      · apply Upto.refl
    apply Upto.ite (ih le)
    apply Upto.ite (Upto.refl _)
    apply Upto.ite
    · apply Upto.bind (lexPreProcDirective_upto o (lexWith_upto ih))
      intro kind
      cases kind with
      | none => apply lexWith_upto ih
      | some kind => apply Upto.refl
    apply Upto.ite
    · apply Upto.bind (identLoop_upto fuel _ _)
      intro len
      apply Upto.refl
    · apply Upto.bind (Upto.refl _)
      intro p
      split
      case h_1 => apply Upto.refl
      case h_2 => apply ih le

/-- `lex` with more steps gives the same, where it does not give up. -/
theorem lex_upto (o : Outside) {n m : Nat} (h : n ≤ m) (le : Lexeme) :
  Upto .fuel (lex o n le) (lex o m le)
  := by
  induction h with
  | refl => apply Upto.refl
  | step _ ih =>
    apply ih.trans
    apply lexWith_upto (lexCore_upto_succ o _)

/-- What `lex` gives with some bound, it gives with every other one, or it gives up. -/
theorem lex_runs {o : Outside} {n : Nat} {le : Lexeme} {l : Lexer} {p : (Bool × Lexeme) × Lexer}
    (h : lex o n le l = .ok p) (m : Nat) :
  Ensures (· = Stop.fuel) (lex o m le) l fun r l' => (r, l') = p
  := by
  rcases Nat.le_total m n with hle | hle
  · apply (lex_upto o hle le).runs h
  · rw [Ensures, (lex_upto o hle le).eq_ok h]

end Polyc.Lex
