import Mathlib.Data.List.Basic
import Polyc.Lib.StateRuns
import Polyc.Lexer.Lex

/-!
# The loops over characters end

The characters of the files that were pushed and are not taken bound the steps of every loop over
characters.  A loop that has as many steps ends with its cursor in the text, as long as no file is
suspended at its end: the cursor of such a file is moved past its null character.
-/

namespace Polyc.Lex

open Numeric StringLiteral StateRuns

/-! ### The characters that are left -/

/-- The characters of a file that are not taken. -/
def LexFile.left (f : LexFile) : Nat := f.file.src.length - f.ptr

/-- The characters that are not taken. -/
def Lexer.left (l : Lexer) : Nat := l.cur.left + (l.files.map LexFile.left).sum

/-- The cursor is in its text, and the files that are suspended go on. -/
def Lexer.Fits (l : Lexer) : Prop :=
  l.cur.ptr ≤ l.cur.file.src.length ∧ ∀ f ∈ l.files, f.ptr < f.file.src.length

/-- A run of the lexer takes at least `k` characters and pushes no file. -/
structure Spent (k : Nat) (l l' : Lexer) : Prop where
  fits : l'.Fits
  seen : l'.seen = l.seen
  left : l'.left + k ≤ l.left

/-- A run that takes nothing. -/
theorem Spent.refl {l : Lexer} (h : l.Fits) :
  Spent 0 l l
  := ⟨h, rfl, le_rfl⟩

/-- One run after another. -/
theorem Spent.trans {j k : Nat} {l l' l'' : Lexer} (h : Spent j l l') (h' : Spent k l' l'') :
  Spent (j + k) l l''
  := by
  constructor
  case fits => apply h'.fits
  case seen => rw [h'.seen, h.seen]
  case left => have := h.left; have := h'.left; omega

/-- A run that takes at least `k` characters takes at least as many as fewer. -/
theorem Spent.weaken {j k : Nat} {l l' : Lexer} (h : Spent k l l') (hjk : j ≤ k) :
  Spent j l l'
  := ⟨h.fits, h.seen, by have := h.left; omega⟩

/-- A run that takes something takes at least nothing. -/
theorem Spent.zero {k : Nat} {l l' : Lexer} (h : Spent k l l') :
  Spent 0 l l'
  := h.weaken (Nat.zero_le k)

/-- A change of the lexer that leaves its cursors where they are. -/
theorem Spent.of_cursors {l l' : Lexer} (h : l.Fits) (hfile : l'.cur.file = l.cur.file)
    (hptr : l'.cur.ptr = l.cur.ptr) (hfiles : l'.files = l.files) (hseen : l'.seen = l.seen) :
  Spent 0 l l'
  := by
  constructor
  case fits =>
    rw [Lexer.Fits, hfile, hptr, hfiles]
    apply h
  case seen => apply hseen
  case left => simp only [Lexer.left, LexFile.left, hfile, hptr, hfiles, Nat.add_zero, le_refl]

/-- The cursor goes on in its text. -/
theorem Spent.of_ptr {l l' : Lexer} {n : Nat} (h : l.Fits)
    (hn : l.cur.ptr + n ≤ l.cur.file.src.length) (hfile : l'.cur.file = l.cur.file)
    (hptr : l'.cur.ptr = l.cur.ptr + n) (hfiles : l'.files = l.files) (hseen : l'.seen = l.seen) :
  Spent n l l'
  := by
  constructor
  case fits =>
    rw [Lexer.Fits, hfile, hptr, hfiles]
    exact ⟨hn, h.2⟩
  case seen => apply hseen
  case left =>
    simp only [Lexer.left, LexFile.left, hfile, hptr, hfiles]
    omega

/-- A program of the lexer ends: it gives a value, or it raises an exception. -/
abbrev Ends {α : Type} (m : LexM α) (l : Lexer) (Q : α → Lexer → Prop) : Prop :=
  Ensures (· = Stop.raise) m l Q

/-- An exception ends a program. -/
theorem raise_ends {α : Type} {l : Lexer} {Q : α → Lexer → Prop} :
  Ends (throw .raise) l Q
  := rfl

/-- An exception under a condition, and what comes after it otherwise. -/
theorem raise_or_ends {α : Type} {c : Prop} [Decidable c] {f : PUnit → LexM α} {l : Lexer}
    {Q : α → Lexer → Prop} (h : ¬ c → Ends (f ⟨⟩) l Q) :
  Ends (if c then throw .raise >>= f else f ⟨⟩) l Q
  := by
  split
  case isTrue => rfl
  case isFalse hc => apply h hc

/-! ### Characters -/

/-- A character that is not null is in the text. -/
theorem LexFile.ptr_lt {f : LexFile} {ch : Char} (h : f.char = some ch) (hch : ch ≠ '\x00') :
  f.ptr < f.file.src.length
  := by
  rw [LexFile.char] at h
  split at h
  case isTrue hlt => apply hlt
  case isFalse =>
    split at h
    case isTrue => simp only [Option.some.injEq] at h; exact absurd h.symm hch
    case isFalse => simp only [reduceCtorEq] at h

/-- There is a character wherever the cursor is in its text. -/
theorem LexFile.exists_char {f : LexFile} (h : f.ptr ≤ f.file.src.length) :
  ∃ ch, f.char = some ch
  := by
  rw [LexFile.char]
  split
  case isTrue hlt => use f.file.src[f.ptr], List.getElem?_eq_getElem hlt
  case isFalse hlt => rw [if_pos (by omega)]; use '\x00'

/-- `lexPeek` does not change the lexer. -/
theorem lexPeek_ends {l : Lexer} (h : l.Fits) :
  Ends lexPeek l fun ch l' => l = l' ∧ l.cur.char = some ch
  := by
  obtain ⟨ch, hch⟩ := LexFile.exists_char h.1
  rw [Ends, Ensures, lexPeek, hch]
  exact ⟨rfl, rfl⟩

/-- The cursor moves in its text. -/
theorem advance_ends {l : Lexer} {n : Nat} (h : l.Fits)
    (hn : l.cur.ptr + n ≤ l.cur.file.src.length) :
  Ends (advance n) l fun _ l' => Spent n l l'
  := by
  apply Ensures.modify
  apply Spent.of_ptr h hn <;> rfl

/-- A new line takes no character. -/
theorem newline_ends {l : Lexer} (h : l.Fits) :
  Ends newline l fun _ l' => Spent 0 l l'
  := by
  apply Ensures.modify
  apply Spent.of_cursors h <;> rfl

/-- The characters that a character stands for: the null character is not taken. -/
def cost (ch : Char) : Nat := if ch = '\x00' then 0 else 1

/-- The last file that is suspended is current. -/
theorem Spent.of_pop {l : Lexer} {f : LexFile} {files : List LexFile} (h : l.Fits)
    (hfiles : l.files = f :: files) :
  Spent 0 l { l with cur := f, files := files, switches := l.switches + 1 }
  := by
  have hfits := h.2
  rw [hfiles] at hfits
  constructor
  case fits =>
    constructor
    · apply Nat.le_of_lt (hfits f List.mem_cons_self)
    · intro g hg
      apply hfits g (List.mem_cons_of_mem f hg)
  case seen => rfl
  case left =>
    simp only [Lexer.left, hfiles, List.map_cons, List.sum_cons]
    omega

/-- `lexNextChar` takes a character that is not null, and the cursor is after it. -/
theorem lexNextChar_ends {l : Lexer} (h : l.Fits) :
  Ends lexNextChar l fun ch l' => Spent (cost ch) l l' ∧ (ch ≠ '\x00' → 0 < l'.cur.ptr)
  := by
  rw [lexNextChar]
  apply Ensures.bind (lexPeek_ends h)
  rintro ch _ ⟨rfl, hch⟩
  split
  case isFalse hnul =>
    have hlt := LexFile.ptr_lt hch hnul
    apply Ensures.bind (P := fun _ l' => Spent 1 l l' ∧ 0 < l'.cur.ptr)
    · apply Ensures.modify
      refine ⟨Spent.of_ptr h hlt ?_ ?_ ?_ ?_, Nat.succ_pos _⟩ <;> rfl
    · rintro _ l' ⟨hspent, hpos⟩
      apply Ensures.pure
      rw [cost, if_neg hnul]
      exact ⟨hspent, fun _ => hpos⟩
  case isTrue hnul =>
    apply Ensures.bind (P := fun s l' => l = s ∧ l = l') (Ensures.get ⟨rfl, rfl⟩)
    rintro _ _ ⟨rfl, rfl⟩
    split
    case h_1 =>
      apply Ensures.pure
      exact ⟨Spent.refl h, fun h => absurd rfl h⟩
    case h_2 f files hfiles =>
      have hpop := Spent.of_pop h hfiles
      have hlt : f.ptr < f.file.src.length := h.2 f (by rw [hfiles]; apply List.mem_cons_self)
      apply Ensures.bind (P := fun _ l' => l' = { l with
        cur := f, files := files, switches := l.switches + 1 }) (Ensures.modify rfl)
      rintro _ _ rfl
      apply Ensures.bind (lexPeek_ends hpop.fits)
      rintro ch' _ ⟨rfl, -⟩
      apply Ensures.bind (P := fun _ l' => Spent 1 l l' ∧ 0 < l'.cur.ptr)
      · apply Ensures.modify
        constructor
        · rw [← Nat.zero_add 1]
          apply hpop.trans
          apply Spent.of_ptr hpop.fits hlt <;> rfl
        · apply Nat.succ_pos
      · rintro _ l' ⟨hspent, hpos⟩
        apply Ensures.pure
        constructor
        · apply hspent.weaken
          rw [cost]
          split <;> omega
        · intro _
          apply hpos

/-- Losing count takes no character. -/
theorem miscount_ends {c : Bool} {l : Lexer} (h : l.Fits) :
  Ends (miscount c) l fun _ l' => Spent 0 l l'
  := by
  apply Ensures.modify
  apply Spent.of_cursors h <;> rfl

/-- A character that is not counted is taken as one that is. -/
theorem lexUncounted_ends {l : Lexer} (h : l.Fits) :
  Ends lexUncounted l fun ch l' => Spent (cost ch) l l'
  := by
  apply Ensures.bind (lexNextChar_ends h)
  rintro ch l₁ ⟨h₁, -⟩
  apply Ensures.bind (miscount_ends h₁.fits)
  intro _ l₂ h₂
  apply Ensures.pure
  apply h₁.trans h₂

/-! ### Words -/

/-- The loop of `lexIdentifier` ends; it gives back a character that is none of an identifier. -/
theorem identLoop_ends {fuel : Nat} :
  ∀ {ch : Char} {i : Nat} {l : Lexer}, l.Fits → l.left + cost ch < fuel →
    Ends (identLoop fuel ch i) l fun _ l' =>
      l'.Fits ∧ l'.seen = l.seen ∧ l'.left ≤ l.left + if isIdent ch then 0 else cost ch
  := by
  induction fuel with
  | zero =>
    intro ch i l _ hfuel
    omega
  | succ fuel ih =>
    intro ch i l h hfuel
    rw [identLoop]
    split
    case isTrue hch =>
      rw [cost, if_neg hch.1] at hfuel
      apply Ensures.bind (lexNextChar_ends h)
      rintro next l' ⟨hspent, -⟩
      have hleft := hspent.left
      apply Ensures.mono (ih hspent.fits (by omega))
      rintro _ l'' ⟨hfits, hseen, hleft'⟩
      use hfits, hseen.trans hspent.seen
      have hcost : (if isIdent next then 0 else cost next) ≤ cost next := by split <;> omega
      omega
    case isFalse hch =>
      apply Ensures.ite_bind (P := fun l' =>
        l'.Fits ∧ l'.seen = l.seen ∧ l'.left ≤ l.left + if isIdent ch then 0 else cost ch)
      · intro hnul
        have hident : ¬ isIdent ch = true := fun hident => hch ⟨hnul, hident⟩
        rw [if_neg hident, cost, if_neg hnul]
        apply Ensures.modify
        obtain ⟨hptr, hfiles⟩ := h
        simp only [Lexer.Fits, Lexer.left, LexFile.left]
        refine ⟨⟨by omega, hfiles⟩, trivial, by omega⟩
      · intro _
        exact ⟨h, rfl, Nat.le_add_right _ _⟩
      · intro l' hl'
        apply Ensures.pure
        apply hl'

/-- The loop of `lexString` ends: it takes a character at each step but the last. -/
theorem strLoop_ends {fuel : Nat} :
  ∀ {b : Buffer} {l : Lexer}, l.Fits → l.left < fuel →
    Ends (strLoop fuel b) l fun _ l' => Spent 0 l l'
  := by
  induction fuel with
  | zero =>
    intro b l _ hfuel
    omega
  | succ fuel ih =>
    intro b l h hfuel
    rw [strLoop]
    apply Ensures.bind (lexNextChar_ends h)
    rintro ch l₁ ⟨h₁, -⟩
    have goesOn {b : Buffer} {l₂ : Lexer} (hch : ch ≠ '\x00') (h₂ : Spent 0 l₁ l₂) :
        Ends (strLoop fuel b) l₂ fun _ l' => Spent 0 l l' := by
      rw [cost, if_neg hch] at h₁
      have hspent := h₁.trans h₂
      have hleft := hspent.left
      apply Ensures.mono (ih hspent.fits (by omega))
      intro _ l' h'
      apply (hspent.trans h').zero
    split
    case isTrue =>
      apply Ensures.pure
      apply h₁.zero
    case isFalse =>
      apply Ensures.ite_bind (P := fun l' => Spent 0 l₁ l')
      · intro _
        apply newline_ends h₁.fits
      · intro _
        apply Spent.refl h₁.fits
      · intro l₂ h₂
        split
        case isTrue =>
          apply Ensures.pure
          apply (h₁.trans h₂).zero
        case isFalse hnul =>
          split
          case isFalse => apply goesOn hnul h₂
          case isTrue =>
            apply Ensures.bind (lexNextChar_ends h₂.fits)
            rintro ch' l₃ ⟨h₃, -⟩
            have h₁₃ := h₂.trans h₃
            split
            case isTrue =>
              apply Ensures.bind (lexUncounted_ends h₃.fits)
              intro d₁ l₄ h₄
              apply Ensures.bind (lexUncounted_ends h₄.fits)
              intro d₂ l₅ h₅
              split
              case h_1 => apply goesOn hnul (((h₁₃.trans h₄).trans h₅).zero)
              case h_2 => apply raise_ends
            case isFalse =>
              split
              case h_1 => apply goesOn hnul (h₁₃.zero)
              case h_2 => apply raise_ends

/-- The loop over the digits of an escape takes what it takes. -/
theorem hexLoop_ends (n : Nat) :
  ∀ {num : BitVec 64} {l : Lexer}, l.Fits → Ends (hexLoop n num) l fun _ l' => Spent 0 l l'
  := by
  induction n with
  | zero =>
    intro num l h
    apply Ensures.pure
    apply Spent.refl h
  | succ n ih =>
    intro num l h
    rw [hexLoop]
    apply Ensures.bind (lexPeek_ends h)
    rintro ch _ ⟨rfl, -⟩
    dsimp only
    split
    case isTrue =>
      apply Ensures.bind (lexNextChar_ends h)
      rintro _ l₁ ⟨h₁, -⟩
      apply Ensures.mono (ih h₁.fits)
      intro _ l' h'
      apply (h₁.trans h').zero
    case isFalse =>
      apply Ensures.pure
      apply Spent.refl h

/-- The loop of `lexCharConst` ends: it takes a character at each step but the last. -/
theorem charLoop_ends {fuel : Nat} :
  ∀ {len : Nat} {value : BitVec 64} {overflowed : Bool} {l : Lexer}, l.Fits → l.left < fuel →
    Ends (charLoop fuel len value overflowed) l fun _ l' => Spent 0 l l'
  := by
  induction fuel with
  | zero =>
    intro len value overflowed l _ hfuel
    omega
  | succ fuel ih =>
    intro len value overflowed l h hfuel
    rw [charLoop]
    apply Ensures.bind (lexUncounted_ends h)
    intro ch l₁ h₁
    split
    case isTrue =>
      apply raise_or_ends
      intro _
      apply raise_or_ends
      intro _
      apply Ensures.pure
      apply h₁.zero
    case isFalse hch =>
      rw [cost, if_neg (fun hnul => hch (Or.inl hnul))] at h₁
      have goesOn {len : Nat} {value : BitVec 64} {overflowed : Bool} {l₂ : Lexer} {k : Nat}
          (h₂ : Spent k l₁ l₂) :
          Ends (charLoop fuel len value overflowed) l₂ fun _ l' => Spent 0 l l' := by
        have hspent := h₁.trans h₂
        have hleft := hspent.left
        apply Ensures.mono (ih hspent.fits (by omega))
        intro _ l' h'
        apply (hspent.trans h').zero
      split
      case isTrue =>
        split
        case isTrue =>
          apply Ensures.bind (lexUncounted_ends h₁.fits)
          intro _ l₂ h₂
          apply goesOn h₂
        case isFalse => apply goesOn (Spent.refl h₁.fits)
      case isFalse =>
        split
        case isFalse => apply goesOn (Spent.refl h₁.fits)
        case isTrue =>
          apply Ensures.bind (lexUncounted_ends h₁.fits)
          intro ch' l₂ h₂
          split
          case isTrue =>
            apply Ensures.bind (hexLoop_ends 2 h₂.fits)
            intro _ l₃ h₃
            apply goesOn (h₂.trans h₃)
          case isFalse => apply goesOn h₂

/-! ### Comments, numbers and operators -/

/-- The cursor goes on in its text, some way. -/
theorem Spent.of_le {l l' : Lexer} (h : l.Fits) (hle : l.cur.ptr ≤ l'.cur.ptr)
    (hlen : l'.cur.ptr ≤ l.cur.file.src.length) (hfile : l'.cur.file = l.cur.file)
    (hfiles : l'.files = l.files) (hseen : l'.seen = l.seen) :
  Spent 0 l l'
  := by
  have hptr : l'.cur.ptr = l.cur.ptr + (l'.cur.ptr - l.cur.ptr) := by omega
  apply (Spent.of_ptr h (by omega) hfile hptr hfiles hseen).zero

/-- A comment to the end of the line is in the text. -/
theorem skipLine_ends {l : Lexer} (h : l.Fits) :
  Spent 0 l { l with cur := skipLine l.cur }
  := by
  have hlen := (List.takeWhile_prefix (fun ch : Char => decide (ch ≠ '\n'))
    (l := l.cur.file.src.drop l.cur.ptr)).length_le
  rw [List.length_drop] at hlen
  have hptr := h.1
  apply Spent.of_le h
  case hle => apply Nat.le_add_right
  case hlen => rw [skipLine]; dsimp only; omega
  all_goals rfl

/-- A block comment is in the text. -/
theorem skipBlock_ptr {rest : List Char} :
  ∀ {f : LexFile}, f.ptr + rest.length = f.file.src.length →
    (skipBlock rest f).file = f.file ∧ f.ptr ≤ (skipBlock rest f).ptr ∧
      (skipBlock rest f).ptr ≤ f.file.src.length
  := by
  induction rest with
  | nil =>
    intro f h
    exact ⟨rfl, le_rfl, Nat.le.intro h⟩
  | cons ch rest ih =>
    intro f h
    rw [List.length_cons] at h
    rw [skipBlock]
    split
    case isTrue hend =>
      have hrest : 0 < rest.length := by
        apply List.length_pos_of_ne_nil
        rintro rfl
        simp only [List.head?_nil, reduceCtorEq, and_false] at hend
      use rfl, Nat.le_add_right _ _
      dsimp only
      omega
    case isFalse =>
      have hstep : f.ptr + 1 + rest.length = f.file.src.length := by omega
      split
      case isTrue =>
        obtain ⟨hfile, hle, hlen⟩ := ih (f := ⟨f.file, f.ptr + 1, f.lineno + 1, f.ptr + 1⟩) hstep
        exact ⟨hfile, Nat.le_of_succ_le hle, hlen⟩
      case isFalse =>
        obtain ⟨hfile, hle, hlen⟩ := ih (f := { f with ptr := f.ptr + 1 }) hstep
        exact ⟨hfile, Nat.le_of_succ_le hle, hlen⟩

/-- `lexSkipCodeComment` stays in the text. -/
theorem lexSkipCodeComment_ends {l : Lexer} (h : l.Fits) :
  Ends lexSkipCodeComment l fun _ l' => Spent 0 l l'
  := by
  rw [lexSkipCodeComment]
  apply Ensures.bind (lexPeek_ends h)
  rintro ch _ ⟨rfl, -⟩
  split
  case isTrue =>
    apply Ensures.modify
    apply skipLine_ends h
  case isFalse =>
    split
    case isTrue =>
      apply Ensures.modify
      have hptr := h.1
      have hrest : l.cur.ptr + (l.cur.file.src.drop l.cur.ptr).length = l.cur.file.src.length := by
        rw [List.length_drop]
        omega
      obtain ⟨hfile, hle, hlen⟩ := skipBlock_ptr hrest
      apply Spent.of_le h hle hlen hfile <;> rfl
    case isFalse =>
      apply Ensures.pure
      apply Spent.refl h

/-- A number is in the text. -/
theorem lexNumber_ends {o : Outside} {le : Lexeme} {l : Lexer} (h : l.Fits)
    (hpos : 0 < l.cur.ptr) :
  Ends (lexNumber o le) l fun _ l' => Spent 0 l l'
  := by
  rw [lexNumber]
  apply Ensures.bind (P := fun s l' => l = s ∧ l = l') (Ensures.get ⟨rfl, rfl⟩)
  rintro _ _ ⟨rfl, rfl⟩
  split
  case h_1 => apply raise_ends
  case h_2 token taken hnumeric =>
    have htaken : taken.length ≤ l.here.length := by
      rw [lexNumeric] at hnumeric
      obtain ⟨s, -, hs⟩ := Option.map_eq_some_iff.mp hnumeric
      obtain rfl : l.here.take s.len = taken := congrArg Prod.snd hs
      apply List.length_take_le'
    rw [Lexer.here, List.length_drop] at htaken
    have hptr := h.1
    apply Ensures.bind (advance_ends h (n := taken.length - 1) (by omega))
    intro _ l' h'
    split
    all_goals
      apply Ensures.pure
      apply h'.zero

/-- The characters of an operator after its first one are not null. -/
theorem lexClassifyOperator_length {multiColon : Bool} {ch p₁ p₂ : Char} {op : BitVec 64} {n : Nat}
    (h : lexClassifyOperator multiColon ch p₁ p₂ = some (op, n)) :
  n = 1 ∨ n = 2 ∧ p₁ ≠ '\x00' ∨ n = 3 ∧ p₂ ≠ '\x00'
  := by
  unfold lexClassifyOperator at h
  split at h
  all_goals grind

/-- An operator is in the text. -/
theorem Lexer.operator_le {l : Lexer} {multiColon : Bool} {ch p : Char} {op : BitVec 64} {n : Nat}
    (h : l.Fits) (hpos : 0 < l.cur.ptr) (hp : l.cur.char = some p)
    (hop : lexClassifyOperator multiColon ch p ((l.here.drop 2).headD '\x00') = some (op, n)) :
  l.cur.ptr + (n - 1) ≤ l.cur.file.src.length
  := by
  have hptr := h.1
  rcases lexClassifyOperator_length hop with rfl | ⟨rfl, hnul⟩ | ⟨rfl, hnul⟩
  case inl => omega
  case inr.inl => apply LexFile.ptr_lt hp hnul
  case inr.inr =>
    rw [Lexer.here, List.drop_drop] at hnul
    by_contra hlen
    rw [List.drop_eq_nil_of_le (by omega)] at hnul
    apply hnul rfl

/-! ### Tokens -/

/-- The place of a token takes no character. -/
theorem Spent.mark {l : Lexer} (ch : Char) (h : l.Fits) :
  Spent 0 l (l.mark ch)
  := by
  apply Spent.of_cursors h <;> rfl

/-- `lex` ends where the loop of `lexCore` does. -/
theorem lexWith_ends {core : Lexeme → LexM (Bool × Lexeme)} {le : Lexeme} {l l₀ : Lexer}
    (h : Ends (core le) l fun r l' => Spent r.1.toNat l₀ l') :
  Ends (lexWith core le) l fun r l' => Spent r.1.toNat l₀ l'
  := by
  rw [lexWith]
  apply Ensures.bind h
  rintro ⟨ok, le'⟩ l' h'
  dsimp only
  split
  case isTrue =>
    apply Ensures.pure
    apply h'
  case isFalse =>
    apply Ensures.bind (P := fun s l'' => l' = s ∧ l' = l'') (Ensures.get ⟨rfl, rfl⟩)
    rintro _ _ ⟨rfl, rfl⟩
    apply Ensures.pure
    apply h'

/-- `lexPreProcDirective` ends where the lexer that it calls does. -/
theorem lexPreProcDirective_ends {o : Outside} {lex : Lexeme → LexM (Bool × Lexeme)} {l : Lexer}
    (h : Ends (lex o.unset) l fun r l' => Spent r.1.toNat l l') :
  Ends (lexPreProcDirective o lex) l fun _ l' => Spent 0 l l'
  := by
  rw [lexPreProcDirective]
  apply Ensures.bind h
  rintro ⟨ok, le⟩ l₁ h₁
  have h₁ := h₁.zero
  dsimp only
  split
  case isTrue =>
    apply Ensures.pure
    apply h₁
  case isFalse =>
    split
    case isTrue =>
      apply Ensures.bind (P := fun _ l' => Spent 0 l l')
      · apply Ensures.modify
        apply h₁.trans (skipLine_ends h₁.fits)
      · intro _ l' h'
        apply Ensures.pure
        apply h'
    case isFalse =>
      split
      case h_1 =>
        apply Ensures.pure
        apply h₁
      case h_2 => apply raise_ends

/-- `lexCore` ends, and takes a character of a token. -/
theorem lexCore_ends {o : Outside} {fuel : Nat} :
  ∀ {le : Lexeme} {l : Lexer}, l.Fits → l.left + 1 < fuel →
    Ends (lexCore o fuel le) l fun r l' => Spent r.1.toNat l l'
  := by
  induction fuel with
  | zero =>
    intro le l _ hfuel
    omega
  | succ fuel ih =>
    intro le l h hfuel
    rw [lexCore]
    apply Ensures.bind (lexNextChar_ends h)
    rintro ch l₀ ⟨h₀, hpos⟩
    apply Ensures.bind (P := fun _ l' => l' = l₀.mark ch) (Ensures.modify rfl)
    rintro _ l₁ hl₁
    have h₁ : Spent (cost ch) l l₁ := by
      rw [hl₁]
      apply h₀.trans (Spent.mark ch h₀.fits)
    have hpos : ch ≠ '\x00' → 0 < l₁.cur.ptr := by
      rw [hl₁]
      apply hpos
    apply Ensures.bind (P := fun s l' => l₁ = s ∧ l₁ = l') (Ensures.get ⟨rfl, rfl⟩)
    rintro _ _ ⟨rfl, rfl⟩
    -- Every branch but the end of the input has taken the character.
    have taken {k : Nat} {l' : Lexer} (hch : ch ≠ '\x00') (h' : Spent k l₁ l') :
        Spent 1 l l' := by
      rw [cost, if_neg hch] at h₁
      apply (h₁.trans h').weaken (Nat.le_add_right _ _)
    have goesOn {k : Nat} {l₂ : Lexer} (hch : ch ≠ '\x00') (h₂ : Spent k l₁ l₂) :
        Ends (lexCore o fuel le) l₂ fun r l' => Spent r.1.toNat l l' := by
      have hspent := taken hch h₂
      have hleft := hspent.left
      apply Ensures.mono (ih hspent.fits (by omega))
      intro r l' h'
      apply (hspent.trans h').weaken (Nat.le_add_left _ _)
    have returns {k : Nat} {l₂ : Lexer} {le : Lexeme} (hch : ch ≠ '\x00') (h₂ : Spent k l₁ l₂) :
        Ends (pure (true, le)) l₂ fun r l' => Spent r.1.toNat l l' := by
      apply Ensures.pure
      apply taken hch h₂
    have stays := Spent.refl h₁.fits
    apply Ensures.ite
    · intro hline
      have hch : ch ≠ '\x00' := by
        rintro rfl
        simp at hline
      apply Ensures.bind (newline_ends h₁.fits)
      intro _ l₂ h₂
      apply Ensures.bind (miscount_ends h₂.fits)
      intro _ l₃ h₃
      apply Ensures.ite
      · intro _
        apply returns hch (h₂.trans h₃)
      · intro _
        apply goesOn hch (h₂.trans h₃)
    intro _
    apply Ensures.ite
    · intro hblank
      have hch : ch ≠ '\x00' := by
        rintro rfl
        simp at hblank
      apply goesOn hch stays
    intro _
    apply Ensures.ite
    · intro _
      apply Ensures.pure
      apply h₁.zero
    intro hch
    have hleft := (taken hch stays).left
    have number : Ends (lexNumber o le >>= fun le => pure (true, le)) l₁ fun r l' =>
        Spent r.1.toNat l l' := by
      apply Ensures.bind (lexNumber_ends h₁.fits (hpos hch))
      intro _ l₂ h₂
      apply returns hch h₂
    apply Ensures.ite
    · intro _
      apply number
    intro _
    apply Ensures.ite
    · intro _
      apply Ensures.bind (strLoop_ends h₁.fits (by omega))
      intro _ l₂ h₂
      apply returns hch h₂
    intro _
    apply Ensures.ite
    · intro _
      apply Ensures.bind (charLoop_ends h₁.fits (by omega))
      intro _ l₂ h₂
      apply returns hch h₂
    intro _
    apply Ensures.ite
    · intro _
      apply Ensures.bind (lexPeek_ends h₁.fits)
      rintro p _ ⟨rfl, hp⟩
      apply Ensures.ite
      · intro _
        apply Ensures.bind (lexSkipCodeComment_ends h₁.fits)
        intro _ l₂ h₂
        apply goesOn hch h₂
      intro _
      apply Ensures.ite
      · intro hequ
        have hlt := LexFile.ptr_lt hp (by rw [hequ]; simp)
        apply Ensures.bind (advance_ends h₁.fits hlt)
        intro _ l₂ h₂
        apply returns hch h₂
      · intro _
        apply returns hch stays
    intro _
    apply Ensures.ite
    · intro _
      apply goesOn hch stays
    intro _
    apply Ensures.ite
    · intro _
      apply Ensures.bind (lexPeek_ends h₁.fits)
      rintro p _ ⟨rfl, hp⟩
      apply Ensures.ite
      · intro _
        apply number
      intro _
      apply Ensures.ite
      · intro hpoint
        have hlt := LexFile.ptr_lt hp (by rw [hpoint]; simp)
        apply Ensures.bind (advance_ends h₁.fits hlt)
        intro _ l₂ h₂
        apply Ensures.bind (lexPeek_ends h₂.fits)
        rintro p' _ ⟨rfl, hp'⟩
        apply Ensures.ite
        · intro hpoint'
          have hlt' := LexFile.ptr_lt hp' (by rw [hpoint']; simp)
          apply Ensures.bind (advance_ends h₂.fits hlt')
          intro _ l₃ h₃
          apply returns hch (h₂.trans h₃)
        · intro _
          apply raise_ends
      · intro _
        apply returns hch stays
    intro _
    apply Ensures.ite
    · intro _
      have core {le : Lexeme} {l₂ : Lexer} (h₂ : Spent 0 l₁ l₂) :
          Ends (lexWith (lexCore o fuel) le) l₂ fun r l' => Spent r.1.toNat l₂ l' := by
        have hleft₂ := h₂.left
        apply lexWith_ends (ih h₂.fits (by omega))
      apply Ensures.bind (lexPreProcDirective_ends (core stays))
      intro kind l₂ h₂
      cases kind with
      | none =>
        apply Ensures.mono (core h₂)
        intro r l' h'
        apply ((taken hch h₂).trans h').weaken (Nat.le_add_left _ _)
      | some kind =>
        apply Ensures.bind (P := fun _ l' => Spent 0 l₂ l')
        · apply Ensures.modify
          apply Spent.of_cursors h₂.fits <;> rfl
        · intro _ l₃ h₃
          apply returns hch (h₂.trans h₃)
    intro _
    apply Ensures.ite
    · intro hword
      have hident : isIdent ch = true := by
        rcases hword with hword | rfl
        · rw [isIdent, Char.isAlphanum, hword]; rfl
        · rfl
      apply Ensures.bind (identLoop_ends h₁.fits (by rw [cost, if_neg hch]; omega))
      rintro len l₂ ⟨hfits, hseen, hleft₂⟩
      rw [if_pos hident, Nat.add_zero] at hleft₂
      have h₂ : Spent 0 l₁ l₂ := ⟨hfits, hseen, hleft₂⟩
      dsimp only
      split
      case h_1 => apply returns hch h₂
      case h_2 => apply returns hch h₂
    · intro _
      apply Ensures.bind (lexPeek_ends h₁.fits)
      rintro p _ ⟨rfl, hp⟩
      split
      case h_2 => apply goesOn hch stays
      case h_1 op n hop =>
        apply Ensures.bind (advance_ends h₁.fits (l₁.operator_le h₁.fits (hpos hch) hp hop))
        intro _ l₂ h₂
        apply returns hch h₂

/-- `lex` ends, and takes a character of a token. -/
theorem lex_ends {o : Outside} {fuel : Nat} {le : Lexeme} {l : Lexer} (h : l.Fits)
    (hfuel : l.left + 1 < fuel) :
  Ends (lex o fuel le) l fun r l' => Spent r.1.toNat l l'
  := lexWith_ends (lexCore_ends h hfuel)

end Polyc.Lex
