import Mathlib.Data.List.DropRight
import Polyc.HolycLib.FzFSearch

/-!
# Exact and anchored matchers

What `FzFEqNaiveMatch`, `FzFPrefixMatch`, `FzFSuffixMatch` and `FzFEqMatch` decide, each compared with the
relation between texts and patterns that it is for.
-/

namespace Polyc

open Bytes (Byte)
open Subsequence (Ends)

/-! ### The relations -/

/-- A pattern is what a text has from `s` up to `e`. -/
structure OccursAt (cs : Bool) (l p : List Byte) (s e : Nat) : Prop where
  stop : e = s + p.length
  spells : ((l.drop s).take p.length).map (foldCase cs) = p

instance (cs : Bool) (l p : List Byte) (s e : Nat) : Decidable (OccursAt cs l p s e) :=
  decidable_of_iff (e = s + p.length ∧ ((l.drop s).take p.length).map (foldCase cs) = p)
    ⟨fun h => ⟨h.1, h.2⟩, fun h => ⟨h.stop, h.spells⟩⟩

/-- A text begins with a pattern, behind its white space unless the pattern starts with white space. -/
def FrontOccurs (cs : Bool) (l p : List Byte) (s e : Nat) : Prop :=
  s = (if p.head?.any isSpace then 0 else (l.takeWhile isSpace).length) ∧ OccursAt cs l p s e

/-- A text ends with a pattern, before its white space unless the pattern ends with white space. -/
def BackOccurs (cs : Bool) (l p : List Byte) (s e : Nat) : Prop :=
  e = (if p.getLast?.any isSpace then l.length else (l.rdropWhile isSpace).length) ∧ OccursAt cs l p s e

/-- A text is a pattern between its white space. -/
def WholeOccurs (cs : Bool) (l p : List Byte) (s e : Nat) : Prop :=
  s = (l.takeWhile isSpace).length ∧ e = (l.rdropWhile isSpace).length ∧ OccursAt cs l p s e

/-- A matcher reports a match exactly when there is an occurrence, and then it is one. -/
def Decides (run : Option (FzFResult × Option FzFPosition)) (occurs : Nat → Nat → Prop) : Prop :=
  ∃ res pos', run = some (res, pos') ∧ (0 ≤ res.start ↔ ∃ s e, occurs s e)
    ∧ (0 ≤ res.start → ∃ s e : Nat, res.start = s ∧ res.end_ = e ∧ occurs s e)

/-- Each matcher decides its relation, and reads nothing around the text. -/
structure MatchersDecide (fresh : Nat → Int) (cs : Bool) (l p : List Byte) (pos : Option FzFPosition) : Prop where
  naive : ∃ n, ∀ fuel ≥ n, Decides (fzfEqNaiveMatch fresh fuel cs (.ofList l fun _ => none)
    (.ofList p fun _ => none) pos) (OccursAt cs l p)
  front : Decides (fzfPrefixMatch fresh cs (.ofList l fun _ => none) (.ofList p fun _ => none) pos)
    (FrontOccurs cs l p)
  back : Decides (fzfSuffixMatch fresh cs (.ofList l fun _ => none) (.ofList p fun _ => none) pos)
    (BackOccurs cs l p)
  whole : Decides (fzfEqMatch fresh cs (.ofList l fun _ => none) (.ofList p fun _ => none) pos)
    (WholeOccurs cs l p)

section

variable {run : Option (FzFResult × Option FzFPosition)} {occurs : Nat → Nat → Prop}
  {pos pos' : Option FzFPosition} {s e : Nat} {score : Int}

/-- A matcher reports the occurrence of the pattern at a place, or that there is none. -/
structure ReportsAt (run : Option (FzFResult × Option FzFPosition)) (pos : Option FzFPosition) (cs : Bool)
    (l p : List Byte) (s : Nat) : Prop where
  found : OccursAt cs l p s (s + p.length) →
    ∃ score pos', run = some (⟨s, (s + p.length : Nat), score⟩, pos')
  noMatch : ¬OccursAt cs l p s (s + p.length) → run = some (.noMatch, pos)

theorem Decides.of_found (h : run = some (⟨s, e, score⟩, pos')) (hocc : occurs s e) :
  Decides run occurs
  := by
  refine ⟨_, _, h, ?_, ?_⟩
  · constructor
    · intro _
      use s, e
    · intro _
      apply Int.natCast_nonneg
  · intro _
    use s, e

/-- What reports no match decides exactly what never occurs. -/
theorem decides_noMatch_iff (h : run = some (.noMatch, pos)) :
  Decides run occurs ↔ ¬∃ s e, occurs s e
  := by
  constructor
  · rintro ⟨res, pos', hrun, hiff, -⟩ hocc
    rw [h] at hrun
    cases hrun
    cases hiff.mpr hocc
  · intro hnot
    refine ⟨_, _, h, ?_, ?_⟩
    · simp [hnot, FzFResult.noMatch]
    · intro hstart
      cases hstart

end

variable {cs : Bool} {l p w : List Byte} {s e n : Nat} {b c : Byte}

/-! ### Occurrences -/

theorem OccursAt.length_eq (h : OccursAt cs l p s e) :
  ((l.drop s).take p.length).length = p.length
  := by
  rw [← List.length_map (f := foldCase cs), h.spells]

/-- An occurrence is in the text. -/
theorem OccursAt.le (h : OccursAt cs l p s e) (hne : p ≠ []) :
  e ≤ l.length
  := by
  have hlen := h.length_eq
  have hpos := List.length_pos_of_ne_nil hne
  have hstop := h.stop
  rw [List.length_take, List.length_drop] at hlen
  omega

/-- The first character of an occurrence. -/
theorem OccursAt.head (h : OccursAt cs l (b :: p) s e) :
  ∃ c, (l.drop s).head? = some c ∧ foldCase cs c = b
  := by
  have hspells := h.spells
  cases hd : l.drop s with
  | nil =>
    rw [hd] at hspells
    cases hspells
  | cons c rest =>
    rw [hd, List.length_cons, List.take_succ_cons, List.map_cons] at hspells
    use c, rfl
    injection hspells

/-- What occurs is a subsequence. -/
theorem OccursAt.sublist (h : OccursAt cs l p s e) :
  p.Sublist (l.map (foldCase cs))
  := by
  rw [← h.spells]
  apply List.Sublist.map
  apply (List.take_sublist _ _).trans (List.drop_sublist _ _)

/-- A pattern of one character occurs where its character is. -/
theorem occursAt_singleton (hc : l[s]? = some c) (hfold : foldCase cs c = b) :
  OccursAt cs l [b] s (s + 1)
  := by
  constructor
  · rfl
  · rw [List.length_singleton, List.take_one, List.head?_drop, hc, ← hfold]
    rfl

/-- White space is white space in either case. -/
theorem isSpace_foldCase (cs : Bool) (c : Byte) :
  isSpace (foldCase cs c) = isSpace c
  := by
  cases cs with
  | true => rfl
  | false =>
    show isSpace (toLower c) = isSpace c
    rw [toLower]
    split
    case isTrue hupper =>
      revert c
      decide
    case isFalse => rfl

/-- What is behind the white space in front of a text. -/
theorem drop_takeWhile_length (f : Byte → Bool) (l : List Byte) :
  l.drop (l.takeWhile f).length = l.dropWhile f
  := by
  have h : (l.takeWhile f ++ l.dropWhile f).drop (l.takeWhile f).length = l.dropWhile f := List.drop_left
  rwa [List.takeWhile_append_dropWhile] at h

/-! ### The loops -/

section

variable {text pat : FzFString} {i k : Int}

/-- The comparison of as many characters as the pattern has. -/
theorem compareLoop_eq {off : Int} (hw : Reads text.data (off + i) w) (hp : Reads pat.data i p)
    (hlen : w.length = p.length) :
  compareLoop cs text pat off p.length i = some (decide (w.map (foldCase cs) = p))
  := by
  induction p generalizing w i with
  | nil =>
    obtain rfl := List.length_eq_zero_iff.mp hlen
    rfl
  | cons b p ih =>
    cases w with
    | nil => cases hlen
    | cons c w =>
      have hnext : Reads text.data (off + (i + 1)) w := by
        rw [← Int.add_assoc]
        apply hw.tail
      rw [List.length_cons, compareLoop, hw.head, hp.head]
      simp only [Option.bind_eq_bind, Option.bind_some]
      rw [ih hnext hp.tail (Nat.succ.inj hlen), List.map_cons]
      rcases eq_or_ne (foldCase cs c) b with heq | hne
      · rw [if_pos heq]
        congr 1
        apply decide_eq_decide.mpr
        rw [heq, List.cons.injEq, and_iff_right rfl]
      · rw [if_neg hne]
        show some false = _
        congr 1
        symm
        apply decide_eq_false
        intro h
        injection h with h₁
        cases hne h₁

theorem leadingLoop_eq (hw : Reads text.data i w) :
  leadingLoop text w.length i k = some (k + (w.takeWhile isSpace).length)
  := by
  induction w generalizing i k with
  | nil =>
    rw [List.takeWhile_nil, List.length_nil, Nat.cast_zero, Int.add_zero]
    rfl
  | cons c w ih =>
    rw [List.length_cons, leadingLoop, hw.head]
    simp only [Option.bind_eq_bind, Option.bind_some]
    rcases Bool.eq_false_or_eq_true (isSpace c) with hc | hc
    · rw [if_pos hc, ih hw.tail, List.takeWhile_cons_of_pos hc, List.length_cons, Nat.cast_succ, Int.add_assoc,
        Int.add_comm 1]
    · rw [if_neg (by simp [hc]), List.takeWhile_cons_of_neg (by simp [hc]), List.length_nil, Nat.cast_zero,
        Int.add_zero]
      rfl

theorem trailingLoop_eq (hw : Reads (fun k => text.data (-k)) (-i) w) :
  trailingLoop text w.length i k = some (k + (w.takeWhile isSpace).length)
  := by
  induction w generalizing i k with
  | nil =>
    rw [List.takeWhile_nil, List.length_nil, Nat.cast_zero, Int.add_zero]
    rfl
  | cons c w ih =>
    have hc : text.data i = some c := by
      have hhead := hw.head
      rwa [neg_neg] at hhead
    have hw' : Reads (fun k => text.data (-k)) (-(i - 1)) w := by
      have hoff : -(i - 1) = -i + 1 := by omega
      rw [hoff]
      apply hw.tail
    rw [List.length_cons, trailingLoop, hc]
    simp only [Option.bind_eq_bind, Option.bind_some]
    rcases Bool.eq_false_or_eq_true (isSpace c) with hsp | hsp
    · rw [if_pos hsp, ih hw', List.takeWhile_cons_of_pos hsp, List.length_cons, Nat.cast_succ, Int.add_assoc,
        Int.add_comm 1]
    · rw [if_neg (by simp [hsp]), List.takeWhile_cons_of_neg (by simp [hsp]), List.length_nil, Nat.cast_zero,
        Int.add_zero]
      rfl

variable (hl : Reads text.data 0 l) (htext : text.size = l.length)

include hl htext

theorem leadingWhitespaces_eq :
  leadingWhitespaces text = some ((l.takeWhile isSpace).length : Int)
  := by
  rw [leadingWhitespaces, htext, Int.toNat_natCast, leadingLoop_eq hl, Int.zero_add]

/-- What is left before the white space at the end of a text. -/
theorem trailingWhitespaces_eq :
  ∃ n : Nat, trailingWhitespaces text = some (n : Int) ∧ (l.rdropWhile isSpace).length + n = l.length
  := by
  have hw : Reads (fun k => text.data (-k)) (-(text.size - 1)) l.reverse := by
    have hrev := hl.reverse
    rwa [Int.zero_add, ← htext] at hrev
  have hrun := trailingLoop_eq (k := 0) hw
  rw [List.length_reverse, Int.zero_add] at hrun
  use (l.reverse.takeWhile isSpace).length
  constructor
  · rw [trailingWhitespaces, htext, Int.toNat_natCast, ← htext, hrun]
  · rw [List.rdropWhile, List.length_reverse, Nat.add_comm, ← List.length_append,
      List.takeWhile_append_dropWhile, List.length_reverse]

end

/-! ### Reports -/

section

variable {fresh : Nat → Int} {text pat : FzFString} {pos : Option FzFPosition}
  {run : Option (FzFResult × Option FzFPosition)}

/-- There is room for the places that `insert_range` puts. -/
theorem exists_insertLoop {q : FzFPosition} (h : q.Valid) (hroom : q.size + n ≤ q.cap) (i : Int) :
  ∃ q', insertLoop n i q = some q'
  := by
  induction n generalizing q i with
  | zero => exact ⟨q, rfl⟩
  | succ n ih =>
    obtain ⟨q', hput, hvalid, -, hsize, hcap⟩ := FzFPosition.put_eq h (by omega) i
    rw [insertLoop, hput]
    apply ih hvalid
    omega

variable (fresh) in
theorem exists_insertRange (hpos : ∀ q ∈ pos, q.Valid) (hse : s ≤ e) (he : e ≤ i32Max) :
  ∃ pos', insertRange fresh pos s e = some pos'
  := by
  cases pos with
  | none => exact ⟨none, rfl⟩
  | some q =>
    have hdiff : toI32 (toI32 (e : Int) - toI32 (s : Int)) = (e - s : Nat) := by
      rw [toI32_of_le he, toI32_of_le (hse.trans he), ← Nat.cast_sub hse]
      apply toI32_of_le
      apply (Nat.sub_le _ _).trans he
    rw [insertRange]
    simp only [hdiff]
    split
    · exact ⟨_, rfl⟩
    case isFalse hlt =>
      obtain ⟨hvalid, hsize, -, -, hcap⟩ := FzFPosition.resize_eq fresh (hpos q rfl) (e - s : Nat) (e - s : Nat)
      have hroom := hcap (by omega) (le_refl _)
      obtain ⟨q', hq'⟩ := exists_insertLoop (n := e - s) hvalid (by omega) s
      rw [Int.toNat_sub, hq']
      exact ⟨_, rfl⟩

variable (hl : Reads text.data 0 l) (hpat : Reads pat.data 0 p) (hsize : pat.size = p.length) (hne : p ≠ [])
  (hpos : ∀ q ∈ pos, q.Valid) (hlen : l.length ≤ i32Max)

include hl hpat hsize hne hpos hlen

variable (fresh) in
/-- An occurrence is reported. -/
theorem reportMatch_eq (hocc : OccursAt cs l p s e) :
  ∃ score pos', reportMatch fresh cs text pat pos s e = some (⟨s, e, score⟩, pos')
  := by
  let w := (l.drop s).take p.length
  have hwlen : w.length = p.length := hocc.length_eq
  have hends : Ends p (w.map (foldCase cs)) w.length := by
    show Ends p (((l.drop s).take p.length).map (foldCase cs)) w.length
    rw [hocc.spells, hwlen]
    constructor
    · apply le_refl
    · rw [List.take_length]
    · intro e' he' hsub
      have hle := hsub.length_le
      rw [List.length_take] at hle
      omega
  have hnone : ∀ q ∈ (none : Option FzFPosition), q.Valid := by simp
  obtain ⟨score, idxs, pos₂, hscore, -, -⟩ := fzfCalculateScore_eq fresh (w := w) hl (by rw [hwlen]) hpat hsize hne
    hends hnone
  have hstop := hocc.stop
  have hwindow : (s : Int) + w.length = e := by omega
  have hse : s ≤ e := by omega
  rw [hwindow] at hscore
  obtain ⟨pos', hinsert⟩ := exists_insertRange fresh hpos hse ((hocc.le hne).trans hlen)
  use score, pos'
  rw [reportMatch, hscore]
  simp only [Option.bind_eq_bind, Option.bind_some, hinsert]
  rfl

/-- What a matcher reports that looks for the pattern at one place. -/
theorem anchored_eq (hroom : s + p.length ≤ l.length)
    (hrun : run = do
      if ← compareLoop cs text pat s pat.size.toNat 0 then
        reportMatch fresh cs text pat pos s (s + pat.size)
      else return (.noMatch, pos)) :
  ReportsAt run pos cs l p s
  := by
  have hcompare : compareLoop cs text pat s pat.size.toNat 0 = some (decide (OccursAt cs l p s (s + p.length))) := by
    have hw : Reads text.data (s + 0) ((l.drop s).take p.length) := by
      have hread := (hl.drop s).take p.length
      rwa [Int.zero_add, ← Int.add_zero (s : Int)] at hread
    rw [hsize, Int.toNat_natCast, compareLoop_eq hw hpat (by rw [List.length_take, List.length_drop]; omega)]
    congr 1
    apply decide_eq_decide.mpr
    apply Iff.intro (OccursAt.mk rfl) OccursAt.spells
  rw [hcompare, hsize, ← Nat.cast_add] at hrun
  constructor
  · intro hocc
    rw [hrun]
    simp only [Option.bind_eq_bind, Option.bind_some, decide_eq_true hocc, if_true]
    apply reportMatch_eq _ hl hpat hsize hne hpos hlen hocc
  · intro hocc
    rw [hrun]
    simp only [Option.bind_eq_bind, Option.bind_some, decide_eq_false hocc]
    rfl

/-! ### Anchored matchers -/

variable (htext : text.size = l.length)

include htext

/-- `FzFPrefixMatch` takes the white space in front of the text away where the pattern starts with white space. -/
theorem fzfPrefixMatch_eq :
  ReportsAt (fzfPrefixMatch fresh cs text pat pos) pos cs l p
    (if p.head?.any isSpace then (l.takeWhile isSpace).length else 0)
  := by
  obtain ⟨b, p, rfl⟩ := List.exists_cons_of_ne_nil hne
  let s := if isSpace b then (l.takeWhile isSpace).length else 0
  have htrimmed : prefixTrimmed text pat = some (s : Int) := by
    rw [prefixTrimmed, hpat.head]
    show (if isSpace b then leadingWhitespaces text else some 0) = some (s : Int)
    rcases Bool.eq_false_or_eq_true (isSpace b) with hb | hb
    · simp only [s, hb, if_true, leadingWhitespaces_eq hl htext]
    · simp [s, hb]
  have hsize₀ : pat.size ≠ 0 := by
    rw [hsize, List.length_cons]
    omega
  have hs : s ≤ l.length := by
    show (if _ then _ else _) ≤ _
    split
    · apply (List.takeWhile_sublist _).length_le
    · apply Nat.zero_le
  show ReportsAt _ pos cs l (b :: p) s
  rw [fzfPrefixMatch]
  simp only [if_neg hsize₀, htrimmed, Option.bind_eq_bind, Option.bind_some]
  rcases Nat.lt_or_ge l.length (s + (b :: p).length) with hshort | hroom
  · have hsmall : text.size - (s : Int) < pat.size := by omega
    rw [if_pos hsmall]
    constructor
    · intro hocc
      have hle := hocc.le hne
      omega
    · intro _
      rfl
  · have hlarge : ¬text.size - (s : Int) < pat.size := by omega
    rw [if_neg hlarge]
    apply anchored_eq hl hpat hsize hne hpos hlen hroom
    rfl

variable (fresh cs) in
/-- `FzFSuffixMatch` takes the white space at the end of the text away unless the pattern ends with white space. -/
theorem fzfSuffixMatch_eq {t : Nat}
    (ht : t = if p.getLast?.any isSpace then l.length else (l.rdropWhile isSpace).length) :
  (p.length ≤ t → ReportsAt (fzfSuffixMatch fresh cs text pat pos) pos cs l p (t - p.length))
    ∧ (t < p.length → fzfSuffixMatch fresh cs text pat pos = some (.noMatch, pos))
  := by
  have hpos₀ : 0 < p.length := List.length_pos_of_ne_nil hne
  have hsize₀ : pat.size ≠ 0 := by omega
  obtain ⟨n, htrailing, hn⟩ := trailingWhitespaces_eq hl htext
  have htrimmed : suffixTrimmed text pat = some (t : Int) := by
    have hlast := hpat (p.length - 1) _ (List.getElem?_eq_getElem (by omega))
    have hoff : (0 : Int) + (p.length - 1 : Nat) = pat.size - 1 := by omega
    rw [hoff] at hlast
    rw [suffixTrimmed, if_neg hsize₀, hlast, htrailing, htext, ht, List.getLast?_eq_getElem?,
      List.getElem?_eq_getElem (by omega)]
    show (if isSpace _ then some (l.length : Int) else some ((l.length : Int) - n))
      = some ((if isSpace _ = true then l.length else (l.rdropWhile isSpace).length : Nat) : Int)
    split
    · rfl
    · congr 1
      omega
  have hle : t ≤ l.length := by
    rw [ht]
    split
    · apply le_refl
    · omega
  rw [fzfSuffixMatch]
  simp only [htrimmed, if_neg hsize₀, Option.bind_eq_bind, Option.bind_some]
  constructor
  · intro hroom
    have hdiff : (t : Int) - pat.size = (t - p.length : Nat) := by omega
    have hstop : (t : Int) = ((t - p.length : Nat) : Int) + pat.size := by omega
    rw [hdiff, if_neg (by omega)]
    apply anchored_eq hl hpat hsize hne hpos hlen (by omega)
    rw [← hstop]
    rfl
  · intro hshort
    rw [if_pos (by omega)]
    rfl

end

/-!
## What the exact and anchored matchers decide

`FzFEqNaiveMatch` counts no second character, `FzFPrefixMatch` takes white space away where it should not, and
`FzFEqMatch` wants that nothing is left of the text; each decides its relation exactly where that does not matter.
-/

section

variable {fresh : Nat → Int} {cs : Bool} {text pat : FzFString} {l p w : List Byte} {b c : Byte}
  {pos : Option FzFPosition}

/-! ### The search for a substring -/

/-- The bonus of a place is not negative. -/
theorem bonusAt_nonneg {input : FzFString} {idx β : Int} (h : bonusAt input idx = some β) :
  0 ≤ β
  := by
  rw [bonusAt] at h
  split at h
  · cases h
    decide
  · obtain ⟨c, -, h⟩ := Option.bind_eq_some_iff.mp h
    obtain ⟨d, -, h⟩ := Option.bind_eq_some_iff.mp h
    cases h
    rw [bonusFor]
    split
    · decide
    · split
      · decide
      · split <;> decide

theorem exists_bonusAt (hl : Reads text.data 0 l) {i : Nat} (hi : i < l.length) :
  ∃ β, bonusAt text i = some β
  := by
  rw [bonusAt]
  split
  case isTrue => exact ⟨_, rfl⟩
  case isFalse hne =>
    have hc := hl i _ (List.getElem?_eq_getElem hi)
    have hprev := hl (i - 1) _ (List.getElem?_eq_getElem (by omega))
    have hoff : (0 : Int) + (i - 1 : Nat) = i - 1 := by omega
    rw [Int.zero_add] at hc
    rw [hoff] at hprev
    rw [hc, hprev]
    exact ⟨_, rfl⟩

section

variable {i : Nat} {β bestPos bestBonus : Int}

/-- A turn where the first character of the pattern is: it is the only one that counts, and the next turn begins
with the next place. -/
theorem naiveStep_eq (htext : text.size = l.length) (hi : i < l.length) (hc : text.data i = some c)
    (hb : pat.data 0 = some b) (hfold : foldCase cs c = b) (hβ : bonusAt text i = some β) {bestPos' bestBonus' : Int}
    (hbest : (bestPos', bestBonus')
      = if 1 = pat.size ∧ β > bestBonus then (toI32 i, β) else (bestPos, bestBonus)) :
  naiveStep cs text pat ⟨i, 0, 0, bestPos, bestBonus⟩
    = if β = fzfBonusBoundary then .inr (some bestPos')
      else .inl ⟨(i + 1 : Nat), 0, 0, bestPos', bestBonus'⟩
  := by
  have hlt : (i : Int) < text.size := by omega
  have hbonus : NaiveState.bonusOf ⟨i, 0, 0, bestPos, bestBonus⟩ text = some β := hβ
  have hnext : (i : Int) - (1 - 1) + 1 = (i + 1 : Nat) := by omega
  have hturn : naiveTurn cs text pat ⟨i, 0, 0, bestPos, bestBonus⟩
      = if β = fzfBonusBoundary then some (.inr bestPos')
        else some (.inl ⟨(i + 1 : Nat), 0, 0, bestPos', bestBonus'⟩) := by
    rw [naiveTurn]
    simp only [if_pos hlt, hc, hb, if_pos hfold, hbonus, Option.bind_eq_bind, Option.bind_some, Int.zero_add,
      ← hbest, hnext]
    rfl
  rw [naiveStep, hturn]
  rcases eq_or_ne β fzfBonusBoundary with h | h
  · rw [if_pos h, if_pos h]
  · rw [if_neg h, if_neg h]

/-- A turn where the first character of the pattern is not. -/
theorem naiveStep_skip (htext : text.size = l.length) (hi : i < l.length) (hc : text.data i = some c)
    (hb : pat.data 0 = some b) (hfold : foldCase cs c ≠ b) :
  naiveStep cs text pat ⟨i, 0, 0, bestPos, bestBonus⟩ = .inl ⟨(i + 1 : Nat), 0, 0, bestPos, bestBonus⟩
  := by
  have hlt : (i : Int) < text.size := by omega
  have hnext : (i : Int) - 0 + 1 = (i + 1 : Nat) := by omega
  have hturn : naiveTurn cs text pat ⟨i, 0, 0, bestPos, bestBonus⟩
      = some (.inl ⟨(i + 1 : Nat), 0, 0, bestPos, bestBonus⟩) := by
    rw [naiveTurn]
    simp only [if_pos hlt, hc, hb, if_neg hfold, Option.bind_eq_bind, Option.bind_some, hnext]
    rfl
  rw [naiveStep, hturn]

/-- The turn behind the text. -/
theorem naiveStep_stop (htext : text.size = l.length) (hi : l.length ≤ i) :
  naiveStep cs text pat ⟨i, 0, 0, bestPos, bestBonus⟩ = .inr (some bestPos)
  := by
  have hge : ¬(i : Int) < text.size := by omega
  have hturn : naiveTurn cs text pat ⟨i, 0, 0, bestPos, bestBonus⟩ = some (.inr bestPos) := by
    rw [naiveTurn, if_neg hge]
    rfl
  rw [naiveStep, hturn]

/-- What the loop of `FzFEqNaiveMatch` leaves with: the place that it had or, for a pattern of one character, one
where the pattern is; and such a place if it had one or has found none and there is one. -/
structure NaiveLeaves (cs : Bool) (l p : List Byte) (i : Nat) (bestPos bestBonus r : Int) : Prop where
  found : r = bestPos ∨ p.length = 1 ∧ ∃ j : Nat, r = j ∧ OccursAt cs l p j (j + 1)
  finds : p.length = 1 → 0 ≤ bestPos ∨ bestBonus = -1 ∧ (∃ j ≥ i, OccursAt cs l p j (j + 1)) → 0 ≤ r

variable (cs) in
/-- The loop of `FzFEqNaiveMatch` ends behind the text or before. -/
theorem naive_returns (hl : Reads text.data 0 l) (htext : text.size = l.length) (hp : Reads pat.data 0 p)
    (hsize : pat.size = p.length) (hne : p ≠ []) (hlen : l.length ≤ i32Max) (i : Nat) (bestPos bestBonus : Int) :
  ∃ r, Loop.Returns (naiveStep cs text pat) ⟨i, 0, 0, bestPos, bestBonus⟩ (some r)
    ∧ NaiveLeaves cs l p i bestPos bestBonus r
  := by
  induction hn : l.length - i generalizing i bestPos bestBonus with
  | zero =>
    use bestPos, .done (naiveStep_stop htext (by omega))
    constructor
    · left
      rfl
    · rintro hone (hpos | ⟨-, j, hj, hocc⟩)
      · apply hpos
      · have hle := hocc.le hne
        omega
  | succ n ih =>
    have hi : i < l.length := by omega
    obtain ⟨b, p, rfl⟩ := List.exists_cons_of_ne_nil hne
    have hc : text.data i = some l[i] := by
      have hread := hl i _ (List.getElem?_eq_getElem hi)
      rwa [Int.zero_add] at hread
    rcases eq_or_ne (foldCase cs l[i]) b with heq | hne'
    · obtain ⟨β, hβ⟩ := exists_bonusAt hl hi
      have hβ₀ := bonusAt_nonneg hβ
      -- what the turns behind this one make of the place that it keeps
      have hrest : ∀ bestPos' bestBonus' : Int, (bestPos', bestBonus')
          = (if 1 = pat.size ∧ β > bestBonus then (toI32 i, β) else (bestPos, bestBonus)) →
          ∃ r, Loop.Returns (naiveStep cs text pat) ⟨i, 0, 0, bestPos, bestBonus⟩ (some r)
            ∧ (r = bestPos' ∨ (b :: p).length = 1 ∧ ∃ j : Nat, r = j ∧ OccursAt cs l (b :: p) j (j + 1))
            ∧ ((b :: p).length = 1 → 0 ≤ bestPos' → 0 ≤ r) := by
        intro bestPos' bestBonus' hbest
        have hstep := naiveStep_eq htext hi hc hp.head heq hβ hbest
        rcases eq_or_ne β fzfBonusBoundary with hbound | hbound
        · rw [if_pos hbound] at hstep
          use bestPos', .done hstep, .inl rfl
          intro _ hpos
          apply hpos
        · rw [if_neg hbound] at hstep
          obtain ⟨r, hr, hleaves⟩ := ih (i + 1) bestPos' bestBonus' (by omega)
          use r, .next hstep hr, hleaves.found
          intro hone hpos
          apply hleaves.finds hone (.inl hpos)
      rcases em (1 = pat.size ∧ β > bestBonus) with hkeep | hkeep
      · obtain ⟨r, hr, hfound, hfinds⟩ := hrest i β (by rw [if_pos hkeep, toI32_of_le (hi.le.trans hlen)])
        have hone : (b :: p).length = 1 := by omega
        obtain rfl : p = [] := List.length_eq_zero_iff.mp (Nat.succ.inj hone)
        use r, hr
        constructor
        · right
          use hone
          rcases hfound with rfl | ⟨-, hocc⟩
          · use i, rfl
            apply occursAt_singleton (List.getElem?_eq_getElem hi) heq
          · apply hocc
        · intro _ _
          apply hfinds hone (Int.natCast_nonneg i)
      · obtain ⟨r, hr, hfound, hfinds⟩ := hrest bestPos bestBonus (by rw [if_neg hkeep])
        use r, hr, hfound
        rintro hone (hpos | ⟨hbonus, -⟩)
        · apply hfinds hone hpos
        · cases hkeep ⟨by omega, by omega⟩
    · obtain ⟨r, hr, hleaves⟩ := ih (i + 1) bestPos bestBonus (by omega)
      use r, .next (naiveStep_skip htext hi hc hp.head hne') hr
      use hleaves.found
      rintro hone (hpos | ⟨hbonus, j, hj, hocc⟩)
      · apply hleaves.finds hone (.inl hpos)
      · apply hleaves.finds hone
        right
        use hbonus, j
        constructor
        · -- the pattern is not at this place
          by_contra hji
          obtain rfl : j = i := by omega
          obtain ⟨c, hhead, hfold⟩ := hocc.head
          rw [List.head?_drop, List.getElem?_eq_getElem hi] at hhead
          cases hhead
          cases hne' hfold
        · apply hocc

end

section

variable (hl : Reads text.data 0 l) (htext : text.size = l.length) (hp : Reads pat.data 0 p)
  (hsize : pat.size = p.length) (hne : p ≠ []) (hlen : l.length ≤ i32Max)

include hl htext hp hsize hne hlen

variable (fresh cs pos) in
/-- The place that `FzFEqNaiveMatch` has behind its loop, if there is no occurrence or the pattern has more than one
character, is none. -/
theorem fzfEqNaiveMatch_noMatch (hnot : p.length = 1 → ¬∃ s e, OccursAt cs l p s e) :
  ∃ n, ∀ fuel ≥ n, fzfEqNaiveMatch fresh fuel cs text pat pos = some (.noMatch, pos)
  := by
  obtain ⟨r, ⟨n, hr⟩, hleaves⟩ := naive_returns cs hl htext hp hsize hne hlen 0 (-1) (-1)
  obtain ⟨first, hfirst⟩ := asciiFuzzyLoop_inside (i := 0) hl htext hlen cs (Nat.zero_le _) hp (le_refl 0)
  have hfilter : asciiFuzzyIndex text pat.data pat.size cs = some first := by
    rw [asciiFuzzyIndex, hsize]
    apply hfirst
  have hneg : ¬r ≥ 0 := by
    rcases hleaves.found with rfl | ⟨hone, j, -, hocc⟩
    · decide
    · cases hnot hone ⟨_, _, hocc⟩
  use n
  intro fuel hfuel
  rw [fzfEqNaiveMatch]
  split
  · rfl
  · split
    · rfl
    · simp only [hfilter, Option.bind_eq_bind, Option.bind_some]
      split
      · rfl
      · have hrun := Loop.run_mono hr hfuel
        rw [Nat.cast_zero] at hrun
        simp only [hrun, Option.join_some, Option.bind_some, if_neg hneg]
        rfl

variable (fresh) in
/-- A pattern of one character is found if it occurs. -/
theorem fzfEqNaiveMatch_found (hpos : ∀ q ∈ pos, q.Valid) (hone : p.length = 1)
    (hocc : ∃ s e, OccursAt cs l p s e) :
  ∃ (n s e : Nat) (score : Int) (pos' : Option FzFPosition), OccursAt cs l p s e
    ∧ ∀ fuel ≥ n, fzfEqNaiveMatch fresh fuel cs text pat pos = some (⟨s, e, score⟩, pos')
  := by
  obtain ⟨s, e, hocc⟩ := hocc
  obtain ⟨r, ⟨n, hr⟩, hleaves⟩ := naive_returns cs hl htext hp hsize hne hlen 0 (-1) (-1)
  have hstop := hocc.stop
  have hle := hocc.le hne
  have hnonneg : 0 ≤ r := by
    apply hleaves.finds hone
    right
    use rfl, s, Nat.zero_le s
    rwa [hstop, hone] at hocc
  rcases hleaves.found with rfl | ⟨-, j, rfl, hj⟩
  · cases hnonneg
  · have hsub : p.Sublist (((l.take i32Max).drop 0).map (foldCase cs)) := by
      rw [List.drop_zero, List.take_of_length_le hlen]
      apply hocc.sublist
    obtain ⟨first, hfirst, hfirst₀⟩ := asciiFuzzyLoop_found (i := 0) hl htext cs hp hsub (le_refl 0)
    have hfilter : asciiFuzzyIndex text pat.data pat.size cs = some first := by
      rw [asciiFuzzyIndex, hsize]
      apply hfirst
    obtain ⟨score, pos', hreport⟩ := reportMatch_eq fresh hl hp hsize hne hpos hlen hj
    have hbegin : (j : Int) - pat.size + 1 = j := by omega
    have hend : (j : Int) + 1 = (j + 1 : Nat) := by omega
    use n, j, j + 1, score, pos', hj
    intro fuel hfuel
    have hrun := Loop.run_mono hr hfuel
    rw [Nat.cast_zero] at hrun
    have hsome : pat.size ≠ 0 := by omega
    have hroom : ¬text.size < pat.size := by omega
    rw [fzfEqNaiveMatch]
    simp only [if_neg hsome, if_neg hroom, hfilter, if_neg hfirst₀.not_gt, hrun, Option.join_some,
      Option.bind_eq_bind, Option.bind_some, ge_iff_le, if_pos hnonneg, hbegin, hend, hreport]

end

/-! ### The whole text -/

/-- White space in front of a text and before its end do not meet. -/
theorem takeWhile_length_ne (h : l ≠ []) :
  (l.rdropWhile isSpace).length ≠ (l.takeWhile isSpace).length
  := by
  intro hlen
  have heq : l.rdropWhile isSpace = l.takeWhile isSpace := by
    apply List.IsPrefix.eq_of_length _ hlen
    apply List.prefix_of_prefix_length_le (List.rdropWhile_prefix _ _) (List.takeWhile_prefix _) hlen.le
  rcases eq_or_ne (l.rdropWhile isSpace) [] with hnil | hcons
  · -- then all is white space, and some of it is in front
    have hall := List.rdropWhile_eq_nil_iff.mp hnil
    rw [hnil] at heq
    obtain ⟨c, l, rfl⟩ := List.exists_cons_of_ne_nil h
    rw [List.takeWhile_cons_of_pos (hall c List.mem_cons_self)] at heq
    cases heq
  · have hmem : (l.rdropWhile isSpace).getLast hcons ∈ l.takeWhile isSpace := by
      rw [← heq]
      apply List.getLast_mem
    apply List.rdropWhile_last_not isSpace l hcons (List.mem_takeWhile_imp hmem)

variable (fresh cs pos) in
/-- `FzFEqMatch` finds a match in no text, and looks behind an empty one. -/
theorem fzfEqMatch_eq (hl : Reads text.data 0 l) (htext : text.size = l.length) (hsize : pat.size = p.length)
    (hne : p ≠ []) :
  (l ≠ [] → fzfEqMatch fresh cs text pat pos = some (.noMatch, pos))
    ∧ (text.data 0 = none → l = [] → fzfEqMatch fresh cs text pat pos = none)
  := by
  have hpos₀ := List.length_pos_of_ne_nil hne
  have hsome : pat.size ≠ 0 := by omega
  obtain ⟨n, htrailing, hn⟩ := trailingWhitespaces_eq hl htext
  rw [fzfEqMatch]
  simp only [if_neg hsome, leadingWhitespaces_eq hl htext, htrailing, Option.bind_eq_bind, Option.bind_some]
  constructor
  · intro hl₀
    have hrest := takeWhile_length_ne hl₀
    have hleft : text.size - ((l.takeWhile isSpace).length : Int) - n ≠ 0 := by omega
    rw [if_pos hleft]
    rfl
  · rintro hout rfl
    rw [List.length_nil, Nat.add_eq_zero_iff] at hn
    obtain ⟨k, hk⟩ := Nat.exists_eq_add_of_lt hpos₀
    have hturns : pat.size.toNat = k + 1 := by omega
    have hleft : ¬text.size - (([] : List Byte).takeWhile isSpace).length - (n : Int) ≠ 0 := by
      rw [htext, hn.2]
      decide
    rw [if_neg hleft, hturns, compareLoop]
    simp only [List.takeWhile_nil, List.length_nil, Nat.cast_zero, Int.add_zero, hout, Option.bind_eq_bind,
      Option.bind_none]

/-! ### Which relations are decided -/

/-- Where a text begins with white space, the pattern is not where `FzFPrefixMatch` looks for it. -/
theorem not_occursAt_trimmed {e : Nat} (hne : p ≠ []) (hcons : l.takeWhile isSpace ≠ []) :
  ¬OccursAt cs l p (if p.head?.any isSpace then (l.takeWhile isSpace).length else 0) e
  := by
  intro hocc
  obtain ⟨b, p, rfl⟩ := List.exists_cons_of_ne_nil hne
  obtain ⟨c, hhead, hfold⟩ := hocc.head
  have hspace : isSpace b = isSpace c := by rw [← hfold, isSpace_foldCase]
  rw [List.head?_cons, Option.any_some] at hhead
  split at hhead
  case isTrue hb =>
    have hrest := List.head?_dropWhile_not isSpace l
    rw [drop_takeWhile_length] at hhead
    rw [hhead] at hrest
    rw [hspace, hrest] at hb
    cases hb
  case isFalse hb =>
    obtain ⟨d, rest, rfl⟩ : ∃ d rest, l = d :: rest := by
      apply List.exists_cons_of_ne_nil
      rintro rfl
      apply hcons
      rfl
    cases hhead
    rw [hspace] at hb
    apply hcons
    rw [List.takeWhile_cons_of_neg hb]

variable (hl : Reads text.data 0 l) (htext : text.size = l.length) (hp : Reads pat.data 0 p)
  (hsize : pat.size = p.length) (hne : p ≠ []) (hlen : l.length ≤ i32Max) (hpos : ∀ q ∈ pos, q.Valid)

include hl htext hp hsize hne hlen hpos

theorem naive_decides_iff :
  (∃ n, ∀ fuel ≥ n, Decides (fzfEqNaiveMatch fresh fuel cs text pat pos) (OccursAt cs l p))
    ↔ (p.length = 1 ∨ ¬∃ s e, OccursAt cs l p s e)
  := by
  constructor
  · rintro ⟨n, hn⟩
    rw [or_iff_not_imp_left]
    intro hlong
    obtain ⟨m, hm⟩ := fzfEqNaiveMatch_noMatch fresh cs pos hl htext hp hsize hne hlen
      fun hone => absurd hone hlong
    apply (decides_noMatch_iff (hm _ (Nat.le_max_right n m))).mp (hn _ (Nat.le_max_left n m))
  · intro hcond
    rcases em (∃ s e, OccursAt cs l p s e) with hocc | hnot
    · have hone : p.length = 1 := hcond.resolve_right (not_not_intro hocc)
      obtain ⟨n, s, e, score, pos', hj, hrun⟩ := fzfEqNaiveMatch_found fresh hl htext hp hsize hne hlen
        hpos hone hocc
      use n
      intro fuel hfuel
      apply Decides.of_found (hrun fuel hfuel) hj
    · obtain ⟨n, hrun⟩ := fzfEqNaiveMatch_noMatch fresh cs pos hl htext hp hsize hne hlen
        fun _ => hnot
      use n
      intro fuel hfuel
      apply (decides_noMatch_iff (hrun fuel hfuel)).mpr hnot

theorem front_decides_iff :
  Decides (fzfPrefixMatch fresh cs text pat pos) (FrontOccurs cs l p)
    ↔ (l.takeWhile isSpace = [] ∨ ¬∃ s e, FrontOccurs cs l p s e)
  := by
  have hrun : ReportsAt (fzfPrefixMatch fresh cs text pat pos) pos cs l p _ :=
    fzfPrefixMatch_eq hl hp hsize hne hpos hlen htext
  rcases eq_or_ne (l.takeWhile isSpace) [] with hnil | hcons
  · -- there is nothing to be taken away
    rw [hnil, List.length_nil, ite_self] at hrun
    rw [or_iff_left_iff_imp.mpr fun _ => hnil, iff_true_right hnil]
    rcases em (OccursAt cs l p 0 (0 + p.length)) with hocc | hnot
    · obtain ⟨score, pos', h⟩ := hrun.found hocc
      apply Decides.of_found h
      use by rw [hnil, List.length_nil, ite_self]
    · apply (decides_noMatch_iff (hrun.noMatch hnot)).mpr
      rintro ⟨s, e, hs, hocc⟩
      rw [hnil, List.length_nil, ite_self] at hs
      subst hs
      apply hnot
      rwa [← hocc.stop]
  · rw [or_iff_right hcons]
    apply decides_noMatch_iff (hrun.noMatch (not_occursAt_trimmed hne hcons))

/-- The suffix matcher decides its relation. -/
theorem back_decides :
  Decides (fzfSuffixMatch fresh cs text pat pos) (BackOccurs cs l p)
  := by
  let t := if p.getLast?.any isSpace then l.length else (l.rdropWhile isSpace).length
  obtain ⟨hroom, hshort⟩ := fzfSuffixMatch_eq cs fresh (t := t) hl hp hsize hne hpos hlen htext rfl
  rcases Nat.lt_or_ge t p.length with hlt | hge
  · apply (decides_noMatch_iff (hshort hlt)).mpr
    rintro ⟨s, e, he, hocc⟩
    have hstop := hocc.stop
    change e = t at he
    omega
  · have hrun := hroom hge
    have hend : t - p.length + p.length = t := Nat.sub_add_cancel hge
    rcases em (OccursAt cs l p (t - p.length) (t - p.length + p.length)) with hocc | hnot
    · obtain ⟨score, pos', h⟩ := hrun.found hocc
      apply Decides.of_found h
      use hend
    · apply (decides_noMatch_iff (hrun.noMatch hnot)).mpr
      rintro ⟨s, e, he, hocc⟩
      have hstop := hocc.stop
      change e = t at he
      obtain rfl : s = t - p.length := by omega
      apply hnot
      rwa [← hstop]

omit hp hlen hpos

theorem whole_decides_iff (hout : l = [] → text.data 0 = none) :
  Decides (fzfEqMatch fresh cs text pat pos) (WholeOccurs cs l p) ↔ l ≠ [] ∧ ¬∃ s e, WholeOccurs cs l p s e
  := by
  obtain ⟨hsome, hnone⟩ := fzfEqMatch_eq fresh cs pos hl htext hsize hne
  rcases eq_or_ne l [] with hnil | hcons
  · have hrun := hnone (hout hnil) hnil
    constructor
    · rintro ⟨res, pos', h, -⟩
      rw [hrun] at h
      cases h
    · rintro ⟨h, -⟩
      cases h hnil
  · rw [and_iff_right hcons]
    apply decides_noMatch_iff (hsome hcons)

end

/-- The matchers decide their relations on texts that an `I32` counts exactly when the text is not empty, a pattern
that occurs has one character, the text does not begin with the pattern behind white space or has none, and is not the
pattern between its white space. -/
theorem matchersDecide_iff (fresh : Nat → Int) (cs : Bool) (l p : List Byte) (pos : Option FzFPosition) (hne : p ≠ [])
    (hlen : l.length ≤ i32Max) (hpos : ∀ q ∈ pos, q.Valid) :
  MatchersDecide fresh cs l p pos
    ↔ (p.length = 1 ∨ ¬∃ s e, OccursAt cs l p s e)
      ∧ (l.takeWhile isSpace = [] ∨ ¬∃ s e, FrontOccurs cs l p s e)
      ∧ l ≠ [] ∧ ¬∃ s e, WholeOccurs cs l p s e
  := by
  have hl := reads_ofList l fun _ => none
  have hp := reads_ofList p fun _ => none
  have hout : l = [] → (FzFString.ofList l fun _ => none).data 0 = none := by
    rintro rfl
    rfl
  rw [← naive_decides_iff hl rfl hp rfl hne hlen hpos, ← front_decides_iff hl rfl hp rfl hne hlen hpos,
    ← whole_decides_iff hl rfl (Eq.refl (FzFString.ofList p fun _ => none).size) hne hout]
  constructor
  · intro h
    exact ⟨h.naive, h.front, h.whole⟩
  · rintro ⟨hnaive, hfront, hwhole⟩
    exact ⟨hnaive, hfront, back_decides hl rfl hp rfl hne hlen hpos, hwhole⟩

/-- `a` is found in `ba ` by those that are to find it. -/
theorem matchersDecide_iff_ba :
  MatchersDecide (fun _ => 0) true [0x62, 0x61, 0x20] [0x61] (some ⟨[], 0, 0⟩)
  := by
  apply (matchersDecide_iff _ _ _ _ _ (by simp) (by decide) _).mpr
  · use .inl rfl, .inl rfl, by simp
    rintro ⟨s, e, hs, he, hocc⟩
    have hstop := hocc.stop
    rw [hs, he] at hstop
    revert hstop
    decide
  · rintro q ⟨⟩
    exact ⟨le_refl _, rfl⟩

/-- `ab` is not found in `ab`. -/
theorem not_matchersDecide :
  ¬MatchersDecide (fun _ => 0) true [0x61, 0x62] [0x61, 0x62] none
  := by
  intro h
  have hnaive := (naive_decides_iff (reads_ofList _ _) rfl (reads_ofList _ _) rfl (by simp) (by decide)
    (by simp)).mp h.naive
  rcases hnaive with hone | hnot
  · cases hone
  · apply hnot
    use 0, 2
    decide

end Polyc
