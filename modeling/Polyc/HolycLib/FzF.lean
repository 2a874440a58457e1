import Polyc.HolycLib.Integers
import Polyc.Lib.Bytes
import Polyc.Lib.Loop

/-!
# Fuzzy matching

The matchers of `fzf.HC` with what they use.  Texts and patterns are bytes at offsets from their `data`;
where nothing can be read there is no result.  The loops with a fixed number of turns are recursions on
the turns that are left.  `I64` values are integers: the ones that occur count bytes in memory.
-/

namespace Polyc

open Bytes (Byte)

/-- `FzFString`, and `FzFStrSlice`. -/
structure FzFString where
  data : Int → Option Byte
  size : Int

/-- `FzFResult`. -/
structure FzFResult where
  start : Int
  end_ : Int
  score : Int
  deriving DecidableEq

/-- What the matchers report when nothing matches. -/
def FzFResult.noMatch : FzFResult := ⟨-1, -1, 0⟩

/-! ### Characters -/

/-- `ToLower`. -/
def toLower (ch : Byte) : Byte := if 0x41 ≤ ch ∧ ch ≤ 0x5A then ch + 32 else ch

/-- `IsSpace`. -/
def isSpace (ch : Byte) : Bool :=
  ch = 0x20 || ch = 0x09 || ch = 0x0A || ch = 0x0B || ch = 0x0C || ch = 0x0D

/-- `if (!case_sensitive) c = ToLower(c);` -/
def foldCase (caseSensitive : Bool) (c : Byte) : Byte := if caseSensitive then c else toLower c

/-! ### Slices and searches -/

/-- `slice_str`. -/
def sliceStr (data : Int → Option Byte) (from_ to_ : Int) : FzFString :=
  ⟨fun i => data (from_ + i), to_ - from_⟩

/-- `slice_str_right`. -/
def sliceStrRight (data : Int → Option Byte) (to_ : Int) : FzFString := sliceStr data 0 to_

/-- The loop of `index_byte` from `i` on. -/
def indexByteLoop (str : FzFString) (b : Byte) : Nat → Int → Option Int
  | 0, _ => some (-1)
  | n + 1, i => do
    if (← str.data i) = b then return toI32 i else indexByteLoop str b n (i + 1)

/-- `index_byte`. -/
def indexByte (str : FzFString) (b : Byte) : Option Int := indexByteLoop str b str.size.toNat 0

/-- The loop of `leading_whitespaces` from `i` on. -/
def leadingLoop (str : FzFString) : Nat → Int → Int → Option Int
  | 0, _, whitespaces => some whitespaces
  | n + 1, i, whitespaces => do
    if isSpace (← str.data i) then leadingLoop str n (i + 1) (whitespaces + 1) else return whitespaces

/-- `leading_whitespaces`. -/
def leadingWhitespaces (str : FzFString) : Option Int := leadingLoop str str.size.toNat 0 0

/-- The loop of `trailing_whitespaces` from `i` down. -/
def trailingLoop (str : FzFString) : Nat → Int → Int → Option Int
  | 0, _, whitespaces => some whitespaces
  | n + 1, i, whitespaces => do
    if isSpace (← str.data i) then trailingLoop str n (i - 1) (whitespaces + 1) else return whitespaces

/-- `trailing_whitespaces`. -/
def trailingWhitespaces (str : FzFString) : Option Int := trailingLoop str str.size.toNat (str.size - 1) 0

/-- The search of `try_skip` for a capital before the place of its small letter. -/
def skipCapital (byteArray : FzFString) (b : Byte) (idx : Int) : Option Int := do
  let byteArray := if idx > 0 then sliceStrRight byteArray.data idx else byteArray
  let uidx ← indexByte byteArray (b - 32)
  return if uidx ≥ 0 then uidx else idx

/-- `try_skip`. -/
def trySkip (input : FzFString) (caseSensitive : Bool) (b : Byte) (from_ : Int) : Option Int := do
  let byteArray := sliceStr input.data from_ input.size
  let idx ← indexByte byteArray b
  if idx = 0 then return from_
  else
    let idx ← if ¬caseSensitive ∧ 0x61 ≤ b ∧ b ≤ 0x7A then skipCapital byteArray b idx else pure idx
    return if idx < 0 then -1 else toI32 (from_ + idx)

/-- The loop of `ascii_fuzzy_index` from `pidx` on. -/
def asciiFuzzyLoop (input : FzFString) (pattern : Int → Option Byte) (caseSensitive : Bool) :
    Nat → Int → Int → Int → Option Int
  | 0, _, firstIdx, _ => some firstIdx
  | n + 1, pidx, firstIdx, idx => do
    let idx ← trySkip input caseSensitive (← pattern pidx) idx
    if idx < 0 then return -1
    else
      let firstIdx := if pidx = 0 ∧ idx > 0 then toI32 (idx - 1) else firstIdx
      asciiFuzzyLoop input pattern caseSensitive n (pidx + 1) firstIdx (toI32 (idx + 1))

/-- `ascii_fuzzy_index`. -/
def asciiFuzzyIndex (input : FzFString) (pattern : Int → Option Byte) (size : Int) (caseSensitive : Bool) :
    Option Int :=
  asciiFuzzyLoop input pattern caseSensitive size.toNat 0 0 0

/-! ### Positions -/

/-- `FzFPosition`, whose `data` has the words that are allocated. -/
structure FzFPosition where
  data : List Int
  size : Nat
  cap : Nat

section

-- what is in memory that was allocated
variable (fresh : Nat → Int)

/-- `ReAlloc` of an array of words. -/
def reAllocWords (data : List Int) (n : Nat) : List Int := (List.range n).map fun i => data.getD i (fresh i)

/-- `resize_pos` of positions that are not `NULL`. -/
def FzFPosition.resize (pos : FzFPosition) (addLen comp : Int) : FzFPosition :=
  if pos.size + comp > pos.cap then
    let cap := if addLen > 0 then pos.cap + addLen.toNat else pos.cap + 1
    { pos with cap, data := reAllocWords fresh pos.data cap }
  else pos

/-- `resize_pos`. -/
def resizePos (pos : Option FzFPosition) (addLen comp : Int) : Option FzFPosition :=
  pos.map fun pos => pos.resize fresh addLen comp

/-- `pos->data[pos->size] = value; pos->size++;`, which has no result outside of the array. -/
def FzFPosition.put (pos : FzFPosition) (value : Int) : Option FzFPosition :=
  if pos.size < pos.data.length then
    some { pos with data := pos.data.set pos.size value, size := pos.size + 1 }
  else none

/-- `append_pos`. -/
def appendPos (pos : Option FzFPosition) (value : Int) : Option (Option FzFPosition) :=
  match pos with
  | none => some none
  | some pos => ((pos.resize fresh pos.cap 10).put value).map some

/-- The loop of `insert_range` from `i` on. -/
def insertLoop : Nat → Int → FzFPosition → Option FzFPosition
  | 0, _, pos => some pos
  | n + 1, i, pos => do
    let pos ← pos.put i
    insertLoop n (i + 1) pos

/-- `insert_range`. -/
def insertRange (pos : Option FzFPosition) (start end_ : Int) : Option (Option FzFPosition) :=
  match pos with
  | none => some none
  | some pos =>
    let diff := toI32 (toI32 end_ - toI32 start)
    if diff ≤ 0 then some (some pos)
    else (insertLoop (end_ - start).toNat start (pos.resize fresh diff diff)).map some

/-! ### Scores -/

/-- The classes of characters, `FZF_CHAR_NON_WORD` and so on. -/
inductive FzFCharClass where
  | nonWord
  | lower
  | upper
  | letter
  | number
  deriving DecidableEq

/-- `FZF_SCORE_MATCH`. -/
def fzfScoreMatch : Int := 16

/-- `FZF_SCORE_GAP_START`. -/
def fzfScoreGapStart : Int := -3

/-- `FZF_SCORE_GAP_EXTENTION`. -/
def fzfScoreGapExtention : Int := -1

/-- `FZF_BONUS_BOUNDARY`. -/
def fzfBonusBoundary : Int := fzfScoreMatch / 2

/-- `FZF_BONUS_NON_WORD`. -/
def fzfBonusNonWord : Int := fzfScoreMatch / 2

/-- `FZF_BONUS_CAMEL_123`. -/
def fzfBonusCamel123 : Int := fzfBonusBoundary + fzfScoreGapExtention

/-- `FZF_BONUS_CONSECUTIVE`. -/
def fzfBonusConsecutive : Int := -(fzfScoreGapStart + fzfScoreGapExtention)

/-- `FZF_BONUS_FIRST_CHAR_MULTIPLIER`. -/
def fzfBonusFirstCharMultiplier : Int := 2

/-- `char_cls_of` and `char_cls_of_ascii`. -/
def charClsOf (ch : Byte) : FzFCharClass :=
  if 0x61 ≤ ch ∧ ch ≤ 0x7A then .lower
  else if 0x41 ≤ ch ∧ ch ≤ 0x5A then .upper
  else if 0x30 ≤ ch ∧ ch ≤ 0x39 then .number
  else .nonWord

/-- `bonus_for`. -/
def bonusFor (prevCls cls : FzFCharClass) : Int :=
  if prevCls = .nonWord ∧ cls ≠ .nonWord then fzfBonusBoundary
  else if prevCls = .lower ∧ cls = .upper ∨ prevCls ≠ .number ∧ cls = .number then fzfBonusCamel123
  else if cls = .nonWord then fzfBonusNonWord
  else 0

/-- `bonus_at`. -/
def bonusAt (input : FzFString) (idx : Int) : Option Int := do
  if idx = 0 then return fzfBonusBoundary
  else return bonusFor (charClsOf (← input.data (idx - 1))) (charClsOf (← input.data idx))

/-- The variables of `FzFCalculateScore`. -/
structure ScoreState where
  pidx : Int
  score : Int
  consecutive : Int
  inGap : Bool
  firstBonus : Int
  prevCls : FzFCharClass
  pos : Option FzFPosition

/-- What `FzFCalculateScore` adds for a character that matches, and the new `first_bonus`. -/
def ScoreState.bonus (s : ScoreState) (cls : FzFCharClass) : Int × Int :=
  let bonus := bonusFor s.prevCls cls
  let (firstBonus, bonus) :=
    if s.consecutive = 0 then (bonus, bonus)
    else
      let firstBonus := if bonus = fzfBonusBoundary then bonus else s.firstBonus
      (firstBonus, max (max bonus firstBonus) fzfBonusConsecutive)
  (if s.pidx = 0 then bonus * fzfBonusFirstCharMultiplier else bonus, firstBonus)

/-- A turn of the loop of `FzFCalculateScore`. -/
def scoreTurn (caseSensitive : Bool) (text pattern : FzFString) (idx : Int) (s : ScoreState) :
    Option ScoreState := do
  let c ← text.data idx
  let cls := charClsOf c
  if foldCase caseSensitive c = (← pattern.data s.pidx) then
    let pos ← appendPos fresh s.pos idx
    let (bonus, firstBonus) := s.bonus cls
    return { pidx := s.pidx + 1
             score := s.score + fzfScoreMatch + bonus
             consecutive := s.consecutive + 1
             inGap := false
             firstBonus
             prevCls := cls
             pos }
  else
    return { s with
      score := s.score + if s.inGap then fzfScoreGapExtention else fzfScoreGapStart
      consecutive := 0
      inGap := true
      firstBonus := 0
      prevCls := cls }

/-- The loop of `FzFCalculateScore` from `idx` on. -/
def scoreLoop (caseSensitive : Bool) (text pattern : FzFString) : Nat → Int → ScoreState → Option ScoreState
  | 0, _, s => some s
  | n + 1, idx, s => do
    let s ← scoreTurn fresh caseSensitive text pattern idx s
    scoreLoop caseSensitive text pattern n (idx + 1) s

/-- The class before the characters that `FzFCalculateScore` goes over. -/
def prevClsOf (text : FzFString) (sidx : Int) : Option FzFCharClass :=
  if sidx > 0 then (text.data (sidx - 1)).map charClsOf else some .nonWord

/-- `FzFCalculateScore`: the score, and the positions. -/
def fzfCalculateScore (caseSensitive : Bool) (text pattern : FzFString) (sidx eidx : Int)
    (pos : Option FzFPosition) : Option (Int × Option FzFPosition) := do
  let pos := resizePos fresh pos pattern.size pattern.size
  let prevCls ← prevClsOf text sidx
  let s ← scoreLoop fresh caseSensitive text pattern (eidx - sidx).toNat sidx
    { pidx := 0, score := 0, consecutive := 0, inGap := false, firstBonus := 0, prevCls, pos }
  return (toI32 s.score, s.pos)

/-! ### Exact and anchored matchers -/

/-- The loop that compares `M` characters of a text from `off` on with a pattern, from `i` on. -/
def compareLoop (caseSensitive : Bool) (text pattern : FzFString) (off : Int) : Nat → Int → Option Bool
  | 0, _ => some true
  | n + 1, i => do
    if foldCase caseSensitive (← text.data (off + i)) = (← pattern.data i) then
      compareLoop caseSensitive text pattern off n (i + 1)
    else return false

/-- What the matchers do with the place of a match. -/
def reportMatch (caseSensitive : Bool) (text pattern : FzFString) (pos : Option FzFPosition)
    (start end_ : Int) : Option (FzFResult × Option FzFPosition) := do
  let (score, _) ← fzfCalculateScore fresh caseSensitive text pattern start end_ none
  let pos ← insertRange fresh pos start end_
  return (⟨start, end_, score⟩, pos)

/-- `trimmed_len` of `FzFPrefixMatch`. -/
def prefixTrimmed (text pattern : FzFString) : Option Int := do
  if isSpace (← pattern.data 0) then leadingWhitespaces text else return 0

/-- `FzFPrefixMatch`. -/
def fzfPrefixMatch (caseSensitive : Bool) (text pattern : FzFString) (pos : Option FzFPosition) :
    Option (FzFResult × Option FzFPosition) := do
  let M := pattern.size
  if M = 0 then return (.noMatch, pos)
  else
    let trimmedLen ← prefixTrimmed text pattern
    if text.size - trimmedLen < M then return (.noMatch, pos)
    else if ← compareLoop caseSensitive text pattern trimmedLen M.toNat 0 then
      reportMatch fresh caseSensitive text pattern pos trimmedLen (trimmedLen + M)
    else return (.noMatch, pos)

/-- `trimmed_len` of `FzFSuffixMatch`: a pattern of no characters is not looked into. -/
def suffixTrimmed (text pattern : FzFString) : Option Int := do
  if pattern.size = 0 then return text.size - (← trailingWhitespaces text)
  else if isSpace (← pattern.data (pattern.size - 1)) then return text.size
  else return text.size - (← trailingWhitespaces text)

/-- `FzFSuffixMatch`. -/
def fzfSuffixMatch (caseSensitive : Bool) (text pattern : FzFString) (pos : Option FzFPosition) :
    Option (FzFResult × Option FzFPosition) := do
  let M := pattern.size
  let trimmedLen ← suffixTrimmed text pattern
  if M = 0 then return (.noMatch, pos)
  else
    let diff := trimmedLen - M
    if diff < 0 then return (.noMatch, pos)
    else if ← compareLoop caseSensitive text pattern diff M.toNat 0 then
      reportMatch fresh caseSensitive text pattern pos (trimmedLen - M) trimmedLen
    else return (.noMatch, pos)

/-- The variables of the loop of `FzFEqNaiveMatch`. -/
structure NaiveState where
  i : Int
  pidx : Int
  bonus : Int
  bestPos : Int
  bestBonus : Int

/-- `bonus` where a character of the text is that of the pattern. -/
def NaiveState.bonusOf (s : NaiveState) (text : FzFString) : Option Int :=
  if s.pidx = 0 then bonusAt text s.i else some s.bonus

/-- A turn of the loop of `FzFEqNaiveMatch`: it goes on, or leaves with `best_pos`. -/
def naiveTurn (caseSensitive : Bool) (text pattern : FzFString) (s : NaiveState) :
    Option (NaiveState ⊕ Int) := do
  if s.i < text.size then
    if foldCase caseSensitive (← text.data s.i) = (← pattern.data s.pidx) then
      let bonus ← s.bonusOf text
      let pidx := s.pidx + 1
      let (bestPos, bestBonus) :=
        if pidx = pattern.size ∧ bonus > s.bestBonus then (toI32 s.i, bonus) else (s.bestPos, s.bestBonus)
      if bonus = fzfBonusBoundary then return .inr bestPos
      else return .inl { i := s.i - (pidx - 1) + 1, pidx := 0, bonus := 0, bestPos, bestBonus }
    else return .inl { s with i := s.i - s.pidx + 1, pidx := 0, bonus := 0 }
  else return .inr s.bestPos

/-- The loop of `FzFEqNaiveMatch`; a read that has no result ends it. -/
def naiveStep (caseSensitive : Bool) (text pattern : FzFString) (s : NaiveState) :
    NaiveState ⊕ Option Int :=
  match naiveTurn caseSensitive text pattern s with
  | some (.inl s) => .inl s
  | some (.inr bestPos) => .inr (some bestPos)
  | none => .inr none

/-- `FzFEqNaiveMatch`, with fuel for the turns of its loop. -/
def fzfEqNaiveMatch (fuel : Nat) (caseSensitive : Bool) (text pattern : FzFString)
    (pos : Option FzFPosition) : Option (FzFResult × Option FzFPosition) := do
  let M := pattern.size
  let N := text.size
  if M = 0 then return (.noMatch, pos)
  else if N < M then return (.noMatch, pos)
  else if (← asciiFuzzyIndex text pattern.data M caseSensitive) < 0 then return (.noMatch, pos)
  else
    let bestPos ← (Loop.run (naiveStep caseSensitive text pattern) fuel ⟨0, 0, 0, -1, -1⟩).join
    if bestPos ≥ 0 then
      reportMatch fresh caseSensitive text pattern pos (bestPos - M + 1) (bestPos + 1)
    else return (.noMatch, pos)

/-- `FzFEqMatch`. -/
def fzfEqMatch (caseSensitive : Bool) (text pattern : FzFString) (pos : Option FzFPosition) :
    Option (FzFResult × Option FzFPosition) := do
  let M := pattern.size
  if M = 0 then return (.noMatch, pos)
  else
    let trimmedLen ← leadingWhitespaces text
    let trimmedEndLen ← trailingWhitespaces text
    if text.size - trimmedLen - trimmedEndLen ≠ 0 then return (.noMatch, pos)
    else if ← compareLoop caseSensitive text pattern trimmedLen M.toNat 0 then
      let pos ← insertRange fresh pos trimmedLen (trimmedLen + M)
      let score := (fzfScoreMatch + fzfBonusBoundary) * M +
        (fzfBonusFirstCharMultiplier - 1) * fzfBonusBoundary
      return (⟨trimmedLen, trimmedLen + M, toI32 score⟩, pos)
    else return (.noMatch, pos)

/-! ### The fuzzy matcher -/

/-- The loop of `FzFFuzzyMatchV1` that goes forward from `idx`: `pidx`, `sidx` and `eidx` behind it. -/
def forwardLoop (caseSensitive : Bool) (text pattern : FzFString) :
    Nat → Int → Int → Int → Option (Int × Int × Int)
  | 0, _, pidx, sidx => some (pidx, sidx, -1)
  | n + 1, idx, pidx, sidx => do
    if foldCase caseSensitive (← text.data idx) = (← pattern.data pidx) then
      let sidx := if sidx < 0 then idx else sidx
      let pidx := pidx + 1
      if pidx = pattern.size then return (pidx, sidx, toI32 (idx + 1))
      else forwardLoop caseSensitive text pattern n (idx + 1) pidx sidx
    else forwardLoop caseSensitive text pattern n (idx + 1) pidx sidx

/-- The loop of `FzFFuzzyMatchV1` that goes back from `idx`: `start` behind it. -/
def backwardLoop (caseSensitive : Bool) (text pattern : FzFString) (start : Int) :
    Nat → Int → Int → Option Int
  | 0, _, _ => some start
  | n + 1, idx, pidx => do
    if foldCase caseSensitive (← text.data idx) = (← pattern.data pidx) then
      let pidx := pidx - 1
      if pidx < 0 then return idx
      else backwardLoop caseSensitive text pattern start n (idx - 1) pidx
    else backwardLoop caseSensitive text pattern start n (idx - 1) pidx

/-- `FzFFuzzyMatchV1`, which leaves the result as it was for an empty pattern. -/
def fzfFuzzyMatchV1 (res : FzFResult) (caseSensitive : Bool) (text pattern : FzFString)
    (pos : Option FzFPosition) : Option (FzFResult × Option FzFPosition) := do
  let M := pattern.size
  let N := text.size
  if M = 0 then return (res, pos)
  else if (← asciiFuzzyIndex text pattern.data M caseSensitive) < 0 then return (.noMatch, pos)
  else
    let (pidx, sidx, eidx) ← forwardLoop caseSensitive text pattern N.toNat 0 0 (-1)
    if sidx ≥ 0 ∧ eidx ≥ 0 then
      let start ← backwardLoop caseSensitive text pattern sidx (eidx - sidx).toNat (eidx - 1) (pidx - 1)
      let (score, pos) ← fzfCalculateScore fresh caseSensitive text pattern start eidx pos
      return (⟨start, eidx, score⟩, pos)
    else return (.noMatch, pos)

end

end Polyc
