import Mathlib.Algebra.Order.BigOperators.Group.List
import Polyc.Lexer.DirectivesEnd
import Polyc.Lexer.LexSteps

/-!
# Lexing ends

The characters that are left in the files that were pushed, and those of the files that were not,
bound the steps of every loop of the lexer but one.  The loop of `lexInclude` over the tokens of
`<..>` does not look whether there is a token, and at the end of the input it goes on for ever
unless a token had the number of `>`.
-/

namespace Polyc.Lex

open StateRuns Relation

/-! ### Files -/

/-- A token after `next` has the number of `>` before the input ends, or an exception comes
before. -/
inductive Closes (lex : Lexeme → LexM (Bool × Lexeme)) : Lexeme → Lexer → Prop
  | found {next next' : Lexeme} {l l' : Lexer} {ok : Bool} :
    lex next l = .ok ((ok, next'), l') → next'.i64 = charCode '>' → Closes lex next l
  | later {next next' : Lexeme} {l l' : Lexer} :
    lex next l = .ok ((true, next'), l') → Closes lex next' l' → Closes lex next l
  | raised {next : Lexeme} {l : Lexer} :
    lex next l = .error .raise → Closes lex next l

/-- The loop of `lexInclude` ends where the brackets are closed. -/
theorem includeLoop_ends {lex : Lexeme → LexM (Bool × Lexeme)} {n : Nat} (hlex : Reads lex n)
    {next : Lexeme} {l : Lexer} (hcloses : Closes lex next l) :
  ∀ {fuel : Nat} {ident : List Char}, l.Fits → l.left ≤ n → l.left < fuel →
    Ends (includeLoop lex fuel ident next) l fun _ l' => Spent 0 l l'
  := by
  induction hcloses with
  | @found next next' l l' ok hrun hclose =>
    intro fuel ident h hn hfuel
    obtain ⟨fuel, rfl⟩ := Nat.exists_eq_succ_of_ne_zero (Nat.ne_zero_of_lt hfuel)
    rw [includeLoop]
    apply Ensures.bind (hlex h hn).with_eq
    rintro ⟨ok', next''⟩ l₁ ⟨hrun', h₁⟩
    obtain ⟨⟨rfl, rfl⟩, rfl⟩ : (ok = ok' ∧ next' = next'') ∧ l' = l₁ := by
      simpa using hrun.symm.trans hrun'
    dsimp only
    rw [if_pos hclose]
    apply Ensures.pure
    apply h₁.zero
  | @later next next' l l' hrun _ ih =>
    intro fuel ident h hn hfuel
    obtain ⟨fuel, rfl⟩ := Nat.exists_eq_succ_of_ne_zero (Nat.ne_zero_of_lt hfuel)
    rw [includeLoop]
    apply Ensures.bind (hlex h hn).with_eq
    rintro ⟨ok', next''⟩ l₁ ⟨hrun', h₁⟩
    obtain ⟨⟨rfl, rfl⟩, rfl⟩ : (true = ok' ∧ next' = next'') ∧ l' = l₁ := by
      simpa using hrun.symm.trans hrun'
    have hleft : l'.left + 1 ≤ l.left := h₁.left
    apply Ensures.ite
    · intro _
      apply Ensures.pure
      apply h₁.zero
    · intro _
      apply h₁.then_ends (ih h₁.fits (by omega) (by omega))
  | @raised next l hrun =>
    intro fuel ident h hn hfuel
    obtain ⟨fuel, rfl⟩ := Nat.exists_eq_succ_of_ne_zero (Nat.ne_zero_of_lt hfuel)
    rw [includeLoop]
    apply Ensures.bind (hlex h hn).with_eq
    rintro ⟨ok', next''⟩ l₁ ⟨hrun', -⟩
    simp only [hrun, reduceCtorEq] at hrun'

section Files

variable {o : Outside} {paths : List (List Char)} {fuel : Nat} {l : Lexer}

/-- The characters of a file. -/
def Outside.size (o : Outside) (path : List Char) : Nat :=
  match o.openFile path with
  | some text => ((lexReadfile text).takeWhile (· ≠ '\x00')).length
  | none => 0

/-- The characters of the files that were not pushed. -/
def Outside.unseen (o : Outside) (paths seen : List (List Char)) : Nat :=
  ((paths.filter fun path => !seen.contains path).map o.size).sum

/-- A file that is pushed leaves no more that were not. -/
theorem Outside.unseen_cons_le (paths : List (List Char)) (path : List Char)
    (seen : List (List Char)) :
  o.unseen paths (path :: seen) ≤ o.unseen paths seen
  := by
  apply List.Sublist.sum_le_sum
  · apply List.Sublist.map
    apply List.monotone_filter_right
    intro p hp
    rw [List.contains_cons, Bool.not_or, Bool.and_eq_true] at hp
    apply hp.2
  · intro _ _
    apply Nat.zero_le

/-- A file that is pushed is not one that was not. -/
theorem Outside.unseen_cons {path : List Char} {seen : List (List Char)} (hseen : path ∉ seen) :
  path ∈ paths → o.unseen paths (path :: seen) + o.size path ≤ o.unseen paths seen
  := by
  induction paths with
  | nil =>
    intro hpath
    cases hpath
  | cons p paths ih =>
    intro hpath
    by_cases hp : p = path
    · subst hp
      have hle := unseen_cons_le (o := o) paths p seen
      have hseen' : seen.contains p = false := by simpa using hseen
      simp only [unseen, List.filter_cons, List.contains_cons, beq_self_eq_true, Bool.true_or,
        Bool.not_true, Bool.false_eq_true, if_false, hseen', Bool.not_false, if_true,
        List.map_cons, List.sum_cons] at hle ⊢
      omega
    · have ih := ih ((List.mem_cons.mp hpath).resolve_left (Ne.symm hp))
      have hne : (p == path) = false := beq_false_of_ne hp
      rw [unseen, unseen, List.filter_cons, List.filter_cons, List.contains_cons, hne,
        Bool.false_or]
      split
      · rw [List.map_cons, List.sum_cons, List.map_cons, List.sum_cons]
        rw [unseen, unseen] at ih
        omega
      · apply ih

/-- The characters that the lexer may still take. -/
def Lexer.remaining (o : Outside) (paths : List (List Char)) (l : Lexer) : Nat :=
  l.left + o.unseen paths l.seen

/-- A run of the lexer takes at least `k` characters, of files that it pushes too. -/
structure Takes (o : Outside) (paths : List (List Char)) (k : Nat) (l l' : Lexer) : Prop where
  fits : l'.Fits
  remaining : l'.remaining o paths + k ≤ l.remaining o paths

/-- A run that pushes no file. -/
theorem Spent.takes {k : Nat} {l l' : Lexer} (h : Spent k l l') :
  Takes o paths k l l'
  := by
  constructor
  case fits => apply h.fits
  case remaining =>
    have := h.left
    rw [Lexer.remaining, Lexer.remaining, h.seen]
    omega

/-- One run after another. -/
theorem Takes.trans {j k : Nat} {l l' l'' : Lexer} (h : Takes o paths j l l')
    (h' : Takes o paths k l' l'') :
  Takes o paths (j + k) l l''
  := by
  constructor
  case fits => apply h'.fits
  case remaining => have := h.remaining; have := h'.remaining; omega

/-- `lexPushFile` takes nothing from a file that goes on. -/
theorem lexPushFile_ends {path : List Char} (hpaths : ∀ path, o.openFile path ≠ none → path ∈ paths)
    (h : l.Fits) (hpath : path ∉ l.seen) (hgoesOn : l.cur.ptr < l.cur.file.src.length) :
  Ends (lexPushFile o path) l fun _ l' => Takes o paths 0 l l'
  := by
  rw [lexPushFile]
  split
  case h_1 => apply raise_ends
  case h_2 text htext =>
    have hmem := hpaths path (by rw [htext]; simp)
    have hunseen := Outside.unseen_cons (o := o) hpath hmem
    apply Ensures.modify
    constructor
    case fits =>
      constructor
      · apply Nat.zero_le
      · rintro f (_ | ⟨_, hf⟩)
        · apply hgoesOn
        · apply h.2 f hf
    case remaining =>
      rw [Outside.size, htext] at hunseen
      simp only [Lexer.remaining, Lexer.left, LexFile.left, List.map_cons, List.sum_cons]
      dsimp only at hunseen
      omega

/-- The name of a file in angle brackets is closed. -/
def IncludeCloses (o : Outside) (fuel : Nat) (l : Lexer) : Prop :=
  ∀ ok₁ next₁ l₁, lex o fuel o.unset l = .ok ((ok₁, next₁), l₁) → tokenPunctIs next₁ '<' →
    ∀ ok₂ next₂ l₂, lex o fuel next₁ l₁ = .ok ((ok₂, next₂), l₂) → Closes (lex o fuel) next₂ l₂

/-- The file that includes another one goes on after the directive. -/
def IncludeGoesOn (o : Outside) (fuel : Nat) (l : Lexer) : Prop :=
  ∀ path l', includePath o fuel l = .ok (path, l') → path ∉ l'.seen →
    l'.cur.ptr < l'.cur.file.src.length

/-- `lexInclude` ends up to the path where the brackets are closed. -/
theorem includePath_ends (h : l.Fits) (hfuel : l.left + 1 < fuel)
    (hcloses : IncludeCloses o fuel l) :
  Ends (includePath o fuel) l fun _ l' => Spent 0 l l'
  := by
  rw [includePath]
  apply Ensures.bind (lex_ends h hfuel).with_eq
  rintro ⟨ok₁, next₁⟩ l₁ ⟨hrun₁, h₁⟩
  have hleft₁ := h₁.left
  apply Ensures.ite
  · intro hopen
    apply Ensures.bind (lex_ends h₁.fits (by omega)).with_eq
    rintro ⟨ok₂, next₂⟩ l₂ ⟨hrun₂, h₂⟩
    have hleft₂ := h₂.left
    have hclose := hcloses ok₁ next₁ l₁ hrun₁ hopen ok₂ next₂ l₂ hrun₂
    apply Ensures.bind (includeLoop_ends (lex_reads hfuel) hclose h₂.fits (by omega) (by omega))
    intro ident l₃ h₃
    apply Ensures.pure
    apply ((h₁.trans h₂).trans h₃).zero
  intro _
  apply Ensures.ite
  · intro _
    apply Ensures.bind (P := fun s l' => l₁ = s ∧ l₁ = l') (Ensures.get ⟨rfl, rfl⟩)
    rintro _ _ ⟨rfl, rfl⟩
    apply Ensures.pure
    apply h₁.zero
  · intro _
    apply raise_ends

/-- `lexInclude` ends where the brackets are closed and the file goes on. -/
theorem lexInclude_ends (hpaths : ∀ path, o.openFile path ≠ none → path ∈ paths) (h : l.Fits)
    (hfuel : l.left + 1 < fuel) (hcloses : IncludeCloses o fuel l)
    (hgoesOn : IncludeGoesOn o fuel l) :
  Ends (lexInclude o fuel) l fun _ l' => Takes o paths 0 l l'
  := by
  rw [lexInclude]
  apply Ensures.bind (includePath_ends h hfuel hcloses).with_eq
  rintro path l₁ ⟨hrun, h₁⟩
  apply Ensures.bind (P := fun s l' => l₁ = s ∧ l₁ = l') (Ensures.get ⟨rfl, rfl⟩)
  rintro _ _ ⟨rfl, rfl⟩
  apply Ensures.ite
  · intro hpath
    apply Ensures.mono (lexPushFile_ends hpaths h₁.fits hpath (hgoesOn path l₁ hrun hpath))
    intro _ l' h'
    apply h₁.takes.trans h'
  · intro _
    apply Ensures.pure
    apply h₁.takes

/-! ### Ensures -/

/-- A turn meets what its directive needs: the name of a `#include` with angle brackets is closed
before the input ends, the file with a `#include` goes on after it, and the name of a `#undef` fits
its buffer. -/
def Meets (o : Outside) (fuel : Nat) (l : Lexer) : Prop :=
  ∀ le l', lex o fuel o.unset l = .ok ((true, le), l') →
    (le.isKw .ppInclude → IncludeCloses o fuel l' ∧ IncludeGoesOn o fuel l') ∧
      (le.isKw .ppUndef → UndefFits o fuel l')

/-- A turn of the loop of `lexToken` goes from a lexer to the next one. -/
def Step (o : Outside) (fuel : Nat) (l l' : Lexer) : Prop :=
  ∃ turn, lexTokenTurn o fuel l = .ok (turn, l')

/-- What a turn takes at least. -/
def Turn.taken : Turn → Nat
  | token _ => 1
  | null => 0
  | next => 1

/-- A turn ends where it meets what its directive needs. -/
theorem lexTokenTurn_ends (hpaths : ∀ path, o.openFile path ≠ none → path ∈ paths) (h : l.Fits)
    (hfuel : l.left + 1 < fuel) (hmeets : Meets o fuel l) :
  Ends (lexTokenTurn o fuel) l fun turn l' => Takes o paths turn.taken l l'
  := by
  rw [lexTokenTurn]
  apply Ensures.bind (lex_ends h hfuel).with_eq
  rintro ⟨ok, le⟩ l₁ ⟨hrun, h₁⟩
  apply Ensures.ite
  · intro _
    apply Ensures.pure
    apply h₁.zero.takes
  intro hok
  obtain rfl : ok = true := by simpa using hok
  have hleft : l₁.left + 1 ≤ l.left := h₁.left
  obtain ⟨hinclude, hundef⟩ := hmeets le l₁ hrun
  have h₁ : Takes o paths 1 l l₁ := h₁.takes
  have gives {turn : Turn} {l₂ : Lexer} (hturn : turn.taken = 1) (h₂ : Takes o paths 0 l₁ l₂) :
      Ends (pure turn) l₂ fun turn l' => Takes o paths turn.taken l l' := by
    apply Ensures.pure
    rw [hturn]
    apply h₁.trans h₂
  have goesOn {turn : Turn} {m : LexM Unit} (hturn : turn.taken = 1)
      (hm : Ends m l₁ fun _ l' => Spent 0 l₁ l') :
      Ends (m >>= fun _ => pure turn) l₁ fun turn l' => Takes o paths turn.taken l l' := by
    apply Ensures.bind hm
    intro _ l₂ h₂
    apply gives hturn h₂.takes
  have hfits := h₁.fits
  have hskip : Ends (skipLoop o fuel fuel le) l₁ fun _ l' => Spent 0 l₁ l' :=
    skipLoop_ends hfits (by omega) (by omega)
  apply Ensures.bind (P := fun s l' => l₁ = s ∧ l₁ = l') (Ensures.get ⟨rfl, rfl⟩)
  rintro _ _ ⟨rfl, rfl⟩
  apply Ensures.ite
  · intro _
    apply goesOn rfl (flags_ends hfits rfl rfl rfl)
  intro _
  apply Ensures.ite
  · intro _
    apply goesOn rfl (flags_ends hfits rfl rfl rfl)
  intro _
  apply Ensures.ite
  · intro hkw
    obtain ⟨hcloses, hgoes⟩ := hinclude hkw
    apply Ensures.bind (lexInclude_ends hpaths hfits (by omega) hcloses hgoes)
    intro _ l₂ h₂
    apply gives rfl h₂
  intro _
  apply Ensures.ite
  · intro _
    apply goesOn rfl (lexLink_ends hfits (by omega))
  intro _
  apply Ensures.ite
  · intro _
    apply goesOn rfl (lexDefine_ends hfits (by omega))
  intro _
  apply Ensures.ite
  · intro hkw
    apply goesOn rfl (lexUndef_ends hfits (by omega) (hundef hkw))
  intro _
  apply Ensures.ite
  · intro _
    apply Ensures.ite
    · intro _
      apply Ensures.bind (endifLoop_ends (lex_reads hfuel) hfits (by omega) (by omega))
      intro _ l₂ h₂
      apply Ensures.bind (flags_ends h₂.fits rfl rfl rfl)
      intro _ l₃ h₃
      apply gives rfl (h₂.trans h₃).takes
    · intro _
      apply goesOn rfl hskip
  intro _
  apply Ensures.ite
  · intro _
    apply goesOn rfl hskip
  intro _
  apply Ensures.ite
  · intro _
    apply goesOn rfl (flags_ends hfits rfl rfl rfl)
  intro _
  apply Ensures.ite
  · intro _
    apply Ensures.bind (lex_ends hfits (by omega))
    intro _ _ _
    apply raise_ends
  · intro _
    apply gives rfl (Spent.refl hfits).takes

/-- Every turn from a lexer on meets what its directive needs. -/
def AllMeet (o : Outside) (fuel : Nat) (l : Lexer) : Prop :=
  ∀ l', ReflTransGen (Step o fuel) l l' → Meets o fuel l'

/-- What every turn from a lexer on meets, every turn from a later one on does. -/
theorem AllMeet.after {l' : Lexer} (h : AllMeet o fuel l)
    (hsteps : ReflTransGen (Step o fuel) l l') :
  AllMeet o fuel l'
  := fun l'' h' => h l'' (hsteps.trans h')

/-- `lexToken` ends where all turns meet what their directives need. -/
theorem lexToken_ends (hpaths : ∀ path, o.openFile path ≠ none → path ∈ paths) {n : Nat} :
  ∀ {l : Lexer}, l.Fits → l.remaining o paths + 1 < fuel → l.remaining o paths < n →
    AllMeet o fuel l →
    Ends (lexToken o fuel n) l fun token l' =>
      ReflTransGen (Step o fuel) l l' ∧ Takes o paths token.isSome.toNat l l'
  := by
  induction n with
  | zero =>
    intro l _ _ hn
    omega
  | succ n ih =>
    intro l h hfuel hn hmeet
    have hleft : l.left ≤ l.remaining o paths := Nat.le_add_right _ _
    rw [lexToken]
    apply Ensures.bind (lexTokenTurn_ends hpaths h (by omega) (hmeet l .refl)).with_eq
    rintro turn l₁ ⟨hrun, h₁⟩
    have hstep : ReflTransGen (Step o fuel) l l₁ := .single ⟨turn, hrun⟩
    have hremaining := h₁.remaining
    cases turn with
    | token le =>
      apply Ensures.pure
      exact ⟨hstep, h₁⟩
    | null =>
      apply Ensures.pure
      exact ⟨hstep, h₁⟩
    | next =>
      rw [Turn.taken] at hremaining
      apply Ensures.mono (ih h₁.fits (by omega) (by omega) (hmeet.after hstep))
      rintro token l' ⟨hsteps, h'⟩
      use hstep.trans hsteps, h'.fits
      have := h'.remaining
      omega

/-- The repeated calls of `lexToken` end where all turns meet what their directives need. -/
theorem lexTokens_ends (hpaths : ∀ path, o.openFile path ≠ none → path ∈ paths) {n : Nat} :
  ∀ {l : Lexer}, l.Fits → l.remaining o paths + 1 < fuel → l.remaining o paths < n →
    AllMeet o fuel l → Ends (lexTokens o fuel n) l fun _ _ => True
  := by
  induction n with
  | zero =>
    intro l _ _ hn
    omega
  | succ n ih =>
    intro l h hfuel hn hmeet
    rw [lexTokens]
    apply Ensures.bind (lexToken_ends hpaths h hfuel (by omega) hmeet)
    rintro token l₁ ⟨hsteps, h₁⟩
    have hremaining := h₁.remaining
    cases token with
    | none => apply Ensures.pure trivial
    | some le =>
      rw [Option.isSome_some, Bool.toNat_true] at hremaining
      apply Ensures.bind (ih h₁.fits (by omega) (by omega) (hmeet.after hsteps))
      intro _ _ _
      apply Ensures.pure trivial

/-- A lexer that is reached fits, and no more is left. -/
theorem Takes.of_steps (hpaths : ∀ path, o.openFile path ≠ none → path ∈ paths) (h : l.Fits)
    (hfuel : l.remaining o paths + 1 < fuel) (hmeet : AllMeet o fuel l) {l' : Lexer}
    (hsteps : ReflTransGen (Step o fuel) l l') :
  Takes o paths 0 l l'
  := by
  induction hsteps with
  | refl => apply (Spent.refl h).takes
  | @tail l₁ l₂ hsteps hstep ih =>
    obtain ⟨turn, hrun⟩ := hstep
    have hremaining := ih.remaining
    have hleft : l₁.left ≤ l₁.remaining o paths := Nat.le_add_right _ _
    have hturn := lexTokenTurn_ends hpaths ih.fits (by omega) (hmeet l₁ hsteps)
    have h₂ := Ensures.of_ok hturn hrun
    use h₂.fits
    have := h₂.remaining
    omega

/-- Lexing ends when it is reached by turns that meet what their directives need: in every lexer of
the run, the repeated calls of `lexToken` give the tokens up to the end of the input or raise an
exception, and the steps of every loop are bounded by the characters of the files. -/
theorem lexing_ends (hpaths : ∀ path, o.openFile path ≠ none → path ∈ paths) {file : SrcFile}
    {suspended : List SrcFile} (hsuspended : ∀ file ∈ suspended, file.src ≠ [])
    {macroDefs : List (List Char × Lexeme)}
    (hfuel : (Lexer.start file suspended macroDefs).remaining o paths + 1 < fuel)
    (hmeet : AllMeet o fuel (Lexer.start file suspended macroDefs)) {l : Lexer}
    (hsteps : ReflTransGen (Step o fuel) (Lexer.start file suspended macroDefs) l) :
  lexTokens o fuel fuel l = .error .raise ∨
    ∃ tokens l', lexTokens o fuel fuel l = .ok (tokens, l')
  := by
  have hfits : (Lexer.start file suspended macroDefs).Fits := by
    constructor
    · apply Nat.zero_le
    · intro f hf
      obtain ⟨file, hfile, rfl⟩ := List.mem_map.mp hf
      apply List.length_pos_of_ne_nil (hsuspended file hfile)
  have htakes := Takes.of_steps hpaths hfits hfuel hmeet hsteps
  have hremaining := htakes.remaining
  have hends := lexTokens_ends hpaths htakes.fits (by omega) (n := fuel) (by omega)
    (hmeet.after hsteps)
  cases hrun : lexTokens o fuel fuel l with
  | ok result =>
    right
    use result.1, result.2
  | error stop =>
    left
    rw [Ensures.of_error hends hrun]

/-- A set of lexers that turns do not leave has every lexer that is reached. -/
theorem mem_of_steps {S : List Lexer} (hstart : l ∈ S)
    (hclosed : ∀ s ∈ S, ∀ r, lexTokenTurn o fuel s = .ok r → r.2 ∈ S) {l' : Lexer}
    (hsteps : ReflTransGen (Step o fuel) l l') :
  l' ∈ S
  := by
  induction hsteps with
  | refl => apply hstart
  | tail _ hstep ih =>
    obtain ⟨turn, hrun⟩ := hstep
    apply hclosed _ ih _ hrun

end Files

/-- An outside with no files. -/
def Outside.noFiles : Outside where
  memory _ := []
  f64Bits _ := 0
  builtinRoot := []
  openFile _ := none
  evalIf _ _ := none
  evalDefine _ _ := none
  unset := lexemeSentinal

/-- An outside with one file. -/
def Outside.oneFile : Outside :=
  { noFiles with openFile := fun path => if path = ['/', 'a'] then some ['1'] else none }

/-- A file of which the name that it includes is closed, and that goes on. -/
def closedInclude : SrcFile := ⟨['b'], "#include <a>\n".toList⟩

/-- The lexers of a run, up to some turns. -/
def visits (o : Outside) (fuel : Nat) : Nat → Lexer → List Lexer
  | 0, l => [l]
  | n + 1, l =>
    match lexTokenTurn o fuel l with
    | .ok (_, l') => l :: visits o fuel n l'
    | .error _ => [l]

/-- Lexing a file that includes another one ends. -/
theorem lexing_ends_closedInclude :
  lexTokens .oneFile 20 20 (Lexer.start closedInclude [] []) = .error .raise ∨
    ∃ tokens l', lexTokens .oneFile 20 20 (Lexer.start closedInclude [] []) = .ok (tokens, l')
  := by
  let l₀ := Lexer.start closedInclude [] []
  let l₁ : Lexer := { l₀ with cur := ⟨closedInclude, 8, 1, 0⟩, tokStartCol := 2, place := ⟨closedInclude, 0, 0, 0⟩ }
  let l₂ : Lexer := { l₀ with cur := ⟨closedInclude, 10, 1, 0⟩, tokStartCol := 10, place := ⟨closedInclude, 9, 0, 0⟩ }
  let l₃ : Lexer := { l₀ with cur := ⟨closedInclude, 11, 1, 0⟩, tokStartCol := 11, place := ⟨closedInclude, 10, 0, 0⟩ }
  let l₄ : Lexer := { l₀ with cur := ⟨closedInclude, 12, 1, 0⟩, tokStartCol := 12, place := ⟨closedInclude, 11, 0, 0⟩ }
  let directive : Lexeme := ⟨.keyword, lexemeSentinal.text, 12, 1, 2, ⟨closedInclude, 0, 0, 0⟩⟩
  let less : Lexeme := ⟨.punct, ['<'], 60, 1, 10, ⟨closedInclude, 9, 0, 0⟩⟩
  let name : Lexeme := ⟨.ident, ['a'], 60, 1, 11, ⟨closedInclude, 10, 0, 0⟩⟩
  let greater : Lexeme := ⟨.punct, ['>'], 62, 1, 12, ⟨closedInclude, 11, 0, 0⟩⟩
  have h₁ : lex .oneFile 20 lexemeSentinal l₀ = .ok ((true, directive), l₁) := by decide +kernel
  have h₂ : lex .oneFile 20 lexemeSentinal l₁ = .ok ((true, less), l₂) := by decide +kernel
  have h₃ : lex .oneFile 20 less l₂ = .ok ((true, name), l₃) := by decide +kernel
  have h₄ : lex .oneFile 20 name l₃ = .ok ((true, greater), l₄) := by decide +kernel
  have hpath : includePath .oneFile 20 l₁ = .ok (['/', 'a'], l₄) := by decide +kernel
  have hvisits : (visits .oneFile 20 4 l₀).all fun s =>
      (match lexTokenTurn .oneFile 20 s with
        | .ok r => decide (r.2 ∈ visits .oneFile 20 4 l₀)
        | .error _ => true) &&
      (decide (s = l₀) ||
        match lex .oneFile 20 lexemeSentinal s with
        | .ok ((_, le), _) => !le.isKw .ppInclude && !le.isKw .ppUndef
        | .error _ => true) := by decide +kernel
  have hvisit := List.all_eq_true.mp hvisits
  have hmeet : AllMeet .oneFile 20 l₀ := by
    intro l hsteps
    have hmem : l ∈ visits .oneFile 20 4 l₀ := by
      apply mem_of_steps _ _ hsteps
      · decide +kernel
      · intro s hs r hr
        have hstep := (Bool.and_eq_true_iff.mp (hvisit s hs)).1
        rw [hr] at hstep
        apply of_decide_eq_true hstep
    intro le l' hrun
    rcases Bool.or_eq_true_iff.mp (Bool.and_eq_true_iff.mp (hvisit l hmem)).2 with hl | hl
    · obtain rfl := of_decide_eq_true hl
      obtain ⟨⟨-, rfl⟩, rfl⟩ : (true = true ∧ directive = le) ∧ l₁ = l' := by
        simpa using h₁.symm.trans hrun
      constructor
      · intro _
        constructor
        · intro ok₁ next₁ l' hrun₁ _ ok₂ next₂ l'' hrun₂
          obtain ⟨⟨-, rfl⟩, rfl⟩ : (true = ok₁ ∧ less = next₁) ∧ l₂ = l' := by
            simpa using h₂.symm.trans hrun₁
          obtain ⟨⟨-, rfl⟩, rfl⟩ : (true = ok₂ ∧ name = next₂) ∧ l₃ = l'' := by
            simpa using h₃.symm.trans hrun₂
          apply Closes.found h₄ rfl
        · intro path l' hrun' _
          obtain ⟨-, rfl⟩ : ['/', 'a'] = path ∧ l₄ = l' := by
            simpa using hpath.symm.trans hrun'
          decide +kernel
      · intro hkw
        exact absurd hkw (by decide)
    · rw [show Outside.oneFile.unset = lexemeSentinal from rfl] at hrun
      rw [hrun] at hl
      simp only [Bool.and_eq_true, Bool.not_eq_true'] at hl
      constructor
      · intro hkw
        simp only [hl.1, Bool.false_eq_true] at hkw
      · intro hkw
        simp only [hl.2, Bool.false_eq_true] at hkw
  have hpaths : ∀ path, Outside.oneFile.openFile path ≠ none → path ∈ [['/', 'a']] := by
    intro path hopen
    by_contra hmem
    apply hopen
    exact if_neg (by simpa using hmem)
  apply lexing_ends hpaths _ _ hmeet .refl
  · intro file hfile
    cases hfile
  · decide +kernel

/-! ### A name that is not closed -/

/-- At the end of the input there is no token. -/
theorem lex_end {o : Outside} {fuel : Nat} {le : Lexeme} {l : Lexer}
    (hptr : l.cur.ptr = l.cur.file.src.length) (hfiles : l.files = []) :
  lex o (fuel + 1) le l = .ok ((false, le), l.mark '\x00')
  := by
  have hpeek : lexPeek l = .ok ('\x00', l) := by
    rw [lexPeek, LexFile.char, if_neg (by omega), if_pos hptr]
  have hnext : lexNextChar l = .ok ('\x00', l) := by
    obtain ⟨cur, files, _⟩ := l
    obtain rfl : files = [] := hfiles
    change (lexPeek _ >>= _) = _
    rw [hpeek]
    rfl
  change (lexNextChar l >>= _) >>= _ = _
  rw [hnext]
  rfl

/-- The loop of `lexInclude` goes on for ever at the end of the input. -/
theorem includeLoop_forever {o : Outside} {fuel : Nat} {next : Lexeme}
    (hnext : next.i64 ≠ charCode '>') (n : Nat) :
  ∀ {l : Lexer} {ident : List Char}, l.cur.ptr = l.cur.file.src.length → l.files = [] →
    Ensures (· = Stop.fuel) (includeLoop (lex o fuel) n ident next) l fun _ _ => False
  := by
  induction n with
  | zero =>
    intro l ident _ _
    exact (rfl : Stop.fuel = .fuel)
  | succ n ih =>
    intro l ident hptr hfiles
    rw [includeLoop]
    cases fuel with
    | zero => exact (rfl : Stop.fuel = .fuel)
    | succ fuel =>
      apply Ensures.bind (P := fun r l' => r = (false, next) ∧ l' = l.mark '\x00')
      · rw [Ensures, lex_end hptr hfiles]
        exact ⟨rfl, rfl⟩
      · rintro _ _ ⟨rfl, rfl⟩
        dsimp only
        rw [if_neg hnext]
        apply ih
        · apply hptr
        · apply hfiles

/-- A file of which the name that it includes is not closed. -/
def unclosedInclude : SrcFile := ⟨"a.HC".toList, "#include <".toList⟩

/-- Lexing does not end for every file: at an `#include <` that is not closed it is still in its loop
after any number of steps. -/
theorem not_lexing_ends :
  ¬ ∀ (o : Outside) (paths : List (List Char)) (file : SrcFile)
    (macroDefs : List (List Char × Lexeme)),
    (∀ path, o.openFile path ≠ none → path ∈ paths) →
    ∃ fuel, lexTokens o fuel fuel (Lexer.start file [] macroDefs) = .error .raise ∨
      ∃ tokens l', lexTokens o fuel fuel (Lexer.start file [] macroDefs) = .ok (tokens, l')
  := by
  intro hends
  obtain ⟨fuel, hend⟩ := hends .noFiles [] unclosedInclude [] (fun _ h => absurd rfl h)
  let l₀ := Lexer.start unclosedInclude [] []
  let l₁ : Lexer := { l₀ with cur := ⟨unclosedInclude, 8, 1, 0⟩, tokStartCol := 2, place := ⟨unclosedInclude, 0, 0, 0⟩ }
  let l₂ : Lexer := { l₀ with cur := ⟨unclosedInclude, 10, 1, 0⟩, tokStartCol := 10, place := ⟨unclosedInclude, 9, 0, 0⟩ }
  let directive : Lexeme := ⟨.keyword, lexemeSentinal.text, 12, 1, 2, ⟨unclosedInclude, 0, 0, 0⟩⟩
  let less : Lexeme := ⟨.punct, ['<'], 60, 1, 10, ⟨unclosedInclude, 9, 0, 0⟩⟩
  have h₁ : lex .noFiles 16 lexemeSentinal l₀ = .ok ((true, directive), l₁) := by decide +kernel
  have h₂ : lex .noFiles 16 lexemeSentinal l₁ = .ok ((true, less), l₂) := by decide +kernel
  have h₃ : lex .noFiles 16 less l₂ = .ok ((false, less), l₂.mark '\x00') := by decide +kernel
  have hinclude : Ensures (· = Stop.fuel) (lexInclude .noFiles fuel) l₁ fun _ _ => False := by
    rw [lexInclude, includePath]
    apply Ensures.never_bind
    apply Ensures.bind (lex_runs h₂ fuel)
    rintro _ _ ⟨rfl, rfl⟩
    apply Ensures.ite
    · intro _
      apply Ensures.bind (lex_runs h₃ fuel)
      rintro _ _ ⟨rfl, rfl⟩
      apply Ensures.never_bind
      apply includeLoop_forever (by decide) fuel rfl rfl
    · intro hless
      exact absurd (by decide) hless
  have hturn : Ensures (· = Stop.fuel) (lexTokenTurn .noFiles fuel) l₀ fun _ _ => False := by
    rw [lexTokenTurn]
    apply Ensures.bind (lex_runs h₁ fuel)
    rintro _ _ ⟨rfl, rfl⟩
    apply Ensures.ite
    · intro hok
      exact absurd hok (by decide)
    intro _
    apply Ensures.bind (P := fun s l' => l₁ = s ∧ l₁ = l') (Ensures.get ⟨rfl, rfl⟩)
    rintro _ _ ⟨rfl, rfl⟩
    apply Ensures.ite
    · intro hasm
      exact absurd hasm (by decide)
    intro _
    apply Ensures.ite
    · intro hasm
      exact absurd hasm (by decide)
    intro _
    apply Ensures.ite
    · intro _
      apply Ensures.never_bind hinclude
    · intro hother
      exact absurd (by decide) hother
  have hrun : Ensures (· = Stop.fuel) (lexTokens .noFiles fuel fuel) l₀ fun _ _ => False := by
    cases hfuel : fuel with
    | zero => exact (rfl : Stop.fuel = .fuel)
    | succ n =>
      rw [hfuel] at hturn
      rw [lexTokens, lexToken]
      apply Ensures.never_bind
      apply Ensures.never_bind hturn
  rcases hend with hend | ⟨tokens, l', hend⟩
  · have hstop := Ensures.of_error hrun hend
    simp only [reduceCtorEq] at hstop
  · apply Ensures.of_ok hrun hend

end Polyc.Lex
