import Mathlib.Tactic.Ring
import Polyc.HolycLib.FzF
import Polyc.Lib.Subsequence

/-!
# Searches and scores of the matchers

What the loops that the matchers share find: the filter `ascii_fuzzy_index`, and the scoring pass of
`FzFCalculateScore`, which goes over a window in which the pattern ends with the last character.
-/

namespace Polyc

open Bytes (Byte)
open Subsequence (Ends)

/-! ### Reads -/

/-- Some bytes are read from an offset on. -/
def Reads (data : Int → Option Byte) (i : Int) (w : List Byte) : Prop :=
  ∀ (k : Nat) b, w[k]? = some b → data (i + k) = some b

section

variable {data : Int → Option Byte} {i : Int} {b : Byte} {w w' : List Byte}

theorem Reads.head (h : Reads data i (b :: w)) :
  data i = some b
  := by
  have hb := h 0 b rfl
  rwa [Nat.cast_zero, Int.add_zero] at hb

theorem Reads.tail (h : Reads data i (b :: w)) :
  Reads data (i + 1) w
  := by
  intro k c hk
  rw [Int.add_assoc, Int.add_comm 1]
  apply h (k + 1) c hk

/-- Bytes behind others. -/
theorem Reads.drop (h : Reads data i w) (n : Nat) :
  Reads data (i + n) (w.drop n)
  := by
  intro k c hk
  rw [List.getElem?_drop] at hk
  rw [Int.add_assoc, ← Nat.cast_add]
  apply h (n + k) c hk

/-- Bytes before others. -/
theorem Reads.take (h : Reads data i w) (n : Nat) :
  Reads data i (w.take n)
  := by
  intro k c hk
  rw [List.getElem?_take] at hk
  split at hk
  · apply h k c hk
  · cases hk

/-- Bytes of a slice. -/
theorem Reads.slice (h : Reads data i w) :
  Reads (fun k => data (i + k)) 0 w
  := by
  intro k c hk
  show data (i + (0 + k)) = some c
  rw [Int.zero_add]
  apply h k c hk

/-- Bytes that are read from the last one down. -/
theorem Reads.reverse (h : Reads data i w) :
  Reads (fun k => data (-k)) (-(i + w.length - 1)) w.reverse
  := by
  intro k c hk
  have hlt : k < w.length := by
    rw [← List.length_reverse]
    apply (List.getElem?_eq_some_iff.mp hk).1
  rw [List.getElem?_reverse hlt] at hk
  have hoff : -(-(i + w.length - 1) + k) = i + ((w.length - 1 - k : Nat) : Int) := by omega
  show data (-(-(i + w.length - 1) + k)) = some c
  rw [hoff]
  apply h _ c hk

end

/-- A string that has some bytes, with what is around them. -/
def FzFString.ofList (l : List Byte) (around : Int → Option Byte) : FzFString where
  data i := if 0 ≤ i ∧ i < l.length then l[i.toNat]? else around i
  size := l.length

/-- The bytes of a string are read. -/
theorem reads_ofList (l : List Byte) (around : Int → Option Byte) :
  Reads (FzFString.ofList l around).data 0 l
  := by
  intro k b hk
  have hlt := (List.getElem?_eq_some_iff.mp hk).1
  show (if _ then _ else _) = _
  rw [if_pos (by omega), Int.zero_add, Int.toNat_natCast, hk]

/-! ### The filter -/

/-- What is folded to a character is the character or its capital. -/
theorem foldCase_eq {cs : Bool} {c b : Byte} (h : foldCase cs c = b) :
  c = b ∨ cs = false ∧ 0x61 ≤ b ∧ b ≤ 0x7A ∧ c = b - 32
  := by
  cases cs with
  | true =>
    left
    apply h
  | false =>
    have hlower : toLower c = b := h
    rw [toLower] at hlower
    split at hlower
    case isTrue hupper =>
      right
      subst hlower
      use rfl
      bv_omega
    case isFalse =>
      left
      apply hlower

/-- What is found first in some bytes: the offset of a character in an `I32`, or -1. -/
def Found (b : Byte) (w : List Byte) (r : Int) : Prop :=
  b ∉ w ∧ r = -1 ∨ ∃ k : Nat, w[k]? = some b ∧ (∀ g, w[g]? = some b → k ≤ g) ∧ r = toI32 k

/-- The loop of `index_byte` stops at the first place of a character. -/
theorem indexByteLoop_eq {str : FzFString} {b : Byte} {w : List Byte} {i : Int}
    (hw : Reads str.data i w) :
  (b ∉ w ∧ indexByteLoop str b w.length i = some (-1))
    ∨ ∃ k : Nat, w[k]? = some b ∧ (∀ g, w[g]? = some b → k ≤ g)
      ∧ indexByteLoop str b w.length i = some (toI32 (i + k))
  := by
  induction w generalizing i with
  | nil =>
    left
    use List.not_mem_nil
    rfl
  | cons c w ih =>
    have hrun : indexByteLoop str b (c :: w).length i
        = if c = b then some (toI32 i) else indexByteLoop str b w.length (i + 1) := by
      rw [List.length_cons, indexByteLoop, hw.head]
      rfl
    rw [hrun]
    rcases eq_or_ne c b with rfl | hne
    · right
      use 0, rfl
      constructor
      · intro g _
        apply Nat.zero_le
      · rw [if_pos rfl, Nat.cast_zero, Int.add_zero]
    · rw [if_neg hne]
      rcases ih hw.tail with ⟨hnot, hr⟩ | ⟨k, hk, hfirst, hr⟩
      · left
        use List.not_mem_cons_of_ne_of_not_mem hne.symm hnot
      · right
        use k + 1, hk
        constructor
        · intro g hg
          cases g with
          | zero =>
            cases hg
            cases hne rfl
          | succ g => apply Nat.succ_le_succ (hfirst g hg)
        · rw [hr, Nat.cast_succ, Int.add_assoc, Int.add_comm 1]

/-- `index_byte` finds the first place of a character. -/
theorem indexByte_found (str : FzFString) {w : List Byte} (b : Byte) (hw : Reads str.data 0 w)
    (hsize : str.size = w.length) :
  ∃ r, indexByte str b = some r ∧ Found b w r
  := by
  rw [indexByte, hsize, Int.toNat_natCast]
  rcases indexByteLoop_eq (b := b) hw with ⟨hnot, hr⟩ | ⟨k, hk, hfirst, hr⟩
  · use -1, hr
    left
    use hnot
  · rw [Int.zero_add] at hr
    use toI32 k, hr
    right
    use k, hk, hfirst

/-- A number from 0 on is not larger in an `I32`. -/
theorem toI32_natCast_le (k : Nat) :
  toI32 k ≤ k
  := by
  rw [toI32, Int.bmod_def]
  split <;> omega

/-- A number below 2^31 is kept in an `I32`. -/
theorem toI32_natCast {k : Nat} (h : k < 2 ^ 31) :
  toI32 k = k
  := by
  apply toI32_of_lt
  · norm_num
  · exact_mod_cast h

variable {b : Byte} {w : List Byte} {r : Int}

/-- A place that was found is in the bytes. -/
theorem Found.lt (h : Found b w r) (hr : 0 ≤ r) :
  r < w.length
  := by
  rcases h with ⟨-, hneg⟩ | ⟨k, hk, -, heq⟩
  · omega
  · have hlt := (List.getElem?_eq_some_iff.mp hk).1
    have hle := toI32_natCast_le k
    omega

/-- A place below 2^31 is not passed. -/
theorem Found.le (h : Found b w r) {g : Nat} (hg : w[g]? = some b) (hlt : g < 2 ^ 31) :
  0 ≤ r ∧ r ≤ g
  := by
  rcases h with ⟨hnot, -⟩ | ⟨k, hk, hfirst, heq⟩
  · cases hnot (List.mem_of_getElem? hg)
  · have hle := hfirst g hg
    rw [toI32_natCast (hle.trans_lt hlt)] at heq
    omega

/-- The capital is found at a place, and not behind one where it is nor behind the small letter. -/
theorem skipCapital_spec (byteArray : FzFString) (b : Byte) {idx : Int} (hw : Reads byteArray.data 0 w)
    (hsize : byteArray.size = w.length) (hidx : idx < w.length) :
  ∃ r : Int, skipCapital byteArray b idx = some r ∧ r < w.length
    ∧ (0 < idx → 0 ≤ r ∧ r ≤ idx)
    ∧ ∀ g : Nat, w[g]? = some (b - 32) → g < 2 ^ 31 → 0 ≤ r ∧ r ≤ g
  := by
  rcases em (0 < idx) with hpos | hneg
  · -- the search ends before the small letter
    obtain ⟨r, hr, hfound⟩ := indexByte_found (sliceStrRight byteArray.data idx)
      (w := w.take idx.toNat) (b - 32) (hw.take _).slice (by
        show idx - 0 = _
        rw [List.length_take]
        omega)
    have hlt : 0 ≤ r → r < idx := by
      intro hr
      have hlt := hfound.lt hr
      rw [List.length_take] at hlt
      omega
    use if r ≥ 0 then r else idx
    constructor
    · rw [skipCapital]
      simp only [gt_iff_lt, if_pos hpos, hr]
      rfl
    · split
      case isTrue hr =>
        have hlt := hlt hr
        use by omega, fun _ => ⟨hr, by omega⟩
        intro g hg hg31
        use hr
        rcases Nat.lt_or_ge g idx.toNat with hgi | hgi
        · have hg' : (w.take idx.toNat)[g]? = some (b - 32) := by
            rw [List.getElem?_take, if_pos hgi, hg]
          apply (hfound.le hg' hg31).2
        · omega
      case isFalse hr =>
        use hidx, fun _ => ⟨by omega, le_refl _⟩
        intro g hg hg31
        rcases Nat.lt_or_ge g idx.toNat with hgi | hgi
        · have hg' : (w.take idx.toNat)[g]? = some (b - 32) := by
            rw [List.getElem?_take, if_pos hgi, hg]
          cases hr (hfound.le hg' hg31).1
        · omega
  · obtain ⟨r, hr, hfound⟩ := indexByte_found byteArray (b - 32) hw hsize
    use if r ≥ 0 then r else idx
    constructor
    · rw [skipCapital]
      simp only [gt_iff_lt, if_neg hneg, hr]
      rfl
    · constructor
      · split
        case isTrue hr => apply hfound.lt hr
        case isFalse => apply hidx
      · use fun hpos => absurd hpos hneg
        intro g hg hg31
        have hle := hfound.le hg hg31
        rwa [if_pos hle.1]

/-- `try_skip` finds a place for a character, and not behind one where it is; in a short text it stays
inside. -/
theorem trySkip_spec {input : FzFString} (cs : Bool) (b : Byte) {i : Nat} (hw : Reads input.data i w)
    (hsize : input.size - i = w.length) :
  ∃ r, trySkip input cs b i = some r
    ∧ (∀ (g : Nat) c, w[g]? = some c → foldCase cs c = b → i + g < 2 ^ 31 → ∃ k ≤ g, r = (i + k : Nat))
    ∧ (i + w.length < 2 ^ 31 → r = -1 ∨ ∃ k < w.length, r = (i + k : Nat))
  := by
  obtain ⟨idx, hidx, hfound⟩ := indexByte_found (sliceStr input.data i input.size) b hw.slice hsize
  have hkept : ∀ k : Nat, i + k < 2 ^ 31 → toI32 (i + k) = (i + k : Nat) := by
    intro k hk
    rw [← Nat.cast_add, toI32_natCast hk]
  rcases eq_or_ne idx 0 with rfl | hne
  · use i
    constructor
    · rw [trySkip]
      simp only [hidx]
      rfl
    · have hpos : 0 < w.length := by
        have hlt := hfound.lt (le_refl 0)
        omega
      constructor
      · intro g c hg hc hlt
        use 0, Nat.zero_le _
        rfl
      · intro _
        right
        use 0, hpos
        rfl
  · -- the place that is returned, once it is known
    have hreturn : ∀ r : Int, r < w.length →
        (∀ (g : Nat) c, w[g]? = some c → foldCase cs c = b → g < 2 ^ 31 → 0 ≤ r ∧ r ≤ g) →
        trySkip input cs b i = some (if r < 0 then -1 else toI32 (i + r)) →
        ∃ r, trySkip input cs b i = some r
          ∧ (∀ (g : Nat) c, w[g]? = some c → foldCase cs c = b → i + g < 2 ^ 31 →
            ∃ k ≤ g, r = (i + k : Nat))
          ∧ (i + w.length < 2 ^ 31 → r = -1 ∨ ∃ k < w.length, r = (i + k : Nat)) := by
      intro r hr hle hrun
      refine ⟨_, hrun, ?_, ?_⟩
      · intro g c hg hc hlt
        obtain ⟨hpos, hrg⟩ := hle g c hg hc (by omega)
        obtain ⟨k, rfl⟩ := Int.eq_ofNat_of_zero_le hpos
        use k, by omega
        rw [if_neg (by omega), hkept k (by omega)]
      · intro hlt
        rcases lt_or_ge r 0 with hneg | hpos
        · left
          rw [if_pos hneg]
        · right
          obtain ⟨k, rfl⟩ := Int.eq_ofNat_of_zero_le hpos
          use k, by omega
          rw [if_neg (by omega), hkept k (by omega)]
    have hlt : idx < w.length := by
      rcases lt_or_ge idx 0 with hneg | hpos
      · omega
      · apply hfound.lt hpos
    rcases em (cs = false ∧ 0x61 ≤ b ∧ b ≤ 0x7A) with hcase | hcase
    · obtain ⟨r, hr, hrlt, hsmall, hcapital⟩ :=
        skipCapital_spec (sliceStr input.data i input.size) b hw.slice hsize hlt
      apply hreturn r hrlt
      · intro g c hg hc hg31
        rcases foldCase_eq hc with rfl | ⟨-, -, -, rfl⟩
        · have hle := hfound.le hg hg31
          have hle' := hsmall (by omega)
          omega
        · apply hcapital g hg hg31
      · have hcase' : ¬cs = true ∧ 0x61 ≤ b ∧ b ≤ 0x7A := by simpa using hcase
        rw [trySkip]
        simp only [hidx, Option.bind_eq_bind, Option.bind_some, if_neg hne, if_pos hcase', hr]
        rfl
    · apply hreturn idx hlt
      · intro g c hg hc hg31
        rcases foldCase_eq hc with rfl | ⟨hcs, hlo, hhi, -⟩
        · apply hfound.le hg hg31
        · cases hcase ⟨hcs, hlo, hhi⟩
      · have hcase' : ¬(¬cs = true ∧ 0x61 ≤ b ∧ b ≤ 0x7A) := by simpa using hcase
        rw [trySkip]
        simp only [hidx, Option.bind_eq_bind, Option.bind_some, if_neg hne, if_neg hcase']
        rfl

/-- The largest number of an `I32`. -/
def i32Max : Nat := 2 ^ 31 - 1

/-- A number that an `I32` counts is kept. -/
theorem toI32_of_le {k : Nat} (h : k ≤ i32Max) :
  toI32 k = k
  := by
  apply toI32_natCast
  rw [i32Max] at h
  omega

variable {input : FzFString} {l p : List Byte} {pattern : Int → Option Byte} {pidx firstIdx : Int}

/-- The filter goes on behind the place that `try_skip` gives. -/
theorem asciiFuzzyLoop_step {cs : Bool} {b : Byte} {n i k : Nat} (hpattern : pattern pidx = some b)
    (hskip : trySkip input cs b i = some (k : Int)) (hk : k < i32Max) (hfirst : 0 ≤ firstIdx) :
  ∃ firstIdx', 0 ≤ firstIdx' ∧ asciiFuzzyLoop input pattern cs (n + 1) pidx firstIdx i
    = asciiFuzzyLoop input pattern cs n (pidx + 1) firstIdx' (k + 1 : Nat)
  := by
  rw [i32Max] at hk
  use if pidx = 0 ∧ (k : Int) > 0 then toI32 ((k : Int) - 1) else firstIdx
  constructor
  · split
    case isTrue hpos =>
      obtain ⟨j, rfl⟩ : ∃ j, k = j + 1 := ⟨k - 1, by omega⟩
      rw [Nat.cast_succ, Int.add_sub_cancel, toI32_natCast (by omega)]
      apply Int.natCast_nonneg
    case isFalse => apply hfirst
  · have hnext : toI32 ((k : Int) + 1) = (k + 1 : Nat) := by
      rw [← Nat.cast_succ, toI32_natCast (by omega)]
    rw [asciiFuzzyLoop]
    simp only [hpattern, hskip, Option.bind_eq_bind, Option.bind_some]
    rw [← hnext]
    apply if_neg
    omega

/-- The filter finds a pattern that is a subsequence of what an `I32` counts. -/
theorem asciiFuzzyLoop_found (hl : Reads input.data 0 l) (hsize : input.size = l.length) (cs : Bool) {i : Nat}
    (hp : Reads pattern pidx p) (hsub : p.Sublist (((l.take i32Max).drop i).map (foldCase cs)))
    (hfirst : 0 ≤ firstIdx) :
  ∃ r, asciiFuzzyLoop input pattern cs p.length pidx firstIdx i = some r ∧ 0 ≤ r
  := by
  induction p generalizing i pidx firstIdx with
  | nil => use firstIdx, rfl
  | cons b p ih =>
    obtain ⟨front, back, happend, hmem, hback⟩ := List.cons_sublist_iff.mp hsub
    obtain ⟨g, hg, hgb⟩ := List.getElem_of_mem hmem
    have hplace : (((l.take i32Max).drop i).map (foldCase cs))[g]? = some b := by
      rw [happend, List.getElem?_append_left hg, List.getElem?_eq_getElem hg, hgb]
    rw [List.getElem?_map, Option.map_eq_some_iff] at hplace
    obtain ⟨c, hc, hfold⟩ := hplace
    rw [List.getElem?_drop, List.getElem?_take] at hc
    split at hc
    case isFalse => cases hc
    case isTrue hlt =>
      have hinside := (List.getElem?_eq_some_iff.mp hc).1
      have hw : Reads input.data i (l.drop i) := by
        have hdrop := hl.drop i
        rwa [Int.zero_add] at hdrop
      obtain ⟨r, hr, hle, -⟩ := trySkip_spec cs b hw (by rw [hsize, List.length_drop]; omega)
      obtain ⟨k, hk, rfl⟩ := hle g c (by rwa [List.getElem?_drop]) hfold (by rw [i32Max] at hlt; omega)
      obtain ⟨firstIdx', hfirst', hstep⟩ := asciiFuzzyLoop_step (n := p.length) hp.head hr (by omega) hfirst
      rw [List.length_cons, hstep]
      apply ih hp.tail _ hfirst'
      -- the rest of the pattern is behind the place that was found
      rw [Nat.add_assoc, ← List.drop_drop, List.map_drop, happend,
        List.drop_append_of_le_length (by omega)]
      apply hback.trans (List.sublist_append_right _ _)

/-- The filter stays in a text that an `I32` counts. -/
theorem asciiFuzzyLoop_inside (hl : Reads input.data 0 l) (hsize : input.size = l.length)
    (hlen : l.length ≤ i32Max) (cs : Bool) {i : Nat} (hi : i ≤ l.length) (hp : Reads pattern pidx p)
    (hfirst : 0 ≤ firstIdx) :
  ∃ r, asciiFuzzyLoop input pattern cs p.length pidx firstIdx i = some r
  := by
  induction p generalizing i pidx firstIdx with
  | nil => exact ⟨firstIdx, rfl⟩
  | cons b p ih =>
    have hw : Reads input.data i (l.drop i) := by
      have hdrop := hl.drop i
      rwa [Int.zero_add] at hdrop
    obtain ⟨r, hr, -, hin⟩ := trySkip_spec cs b hw (by rw [hsize, List.length_drop]; omega)
    rw [List.length_drop] at hin
    rcases hin (by rw [i32Max] at hlen; omega) with rfl | ⟨k, hk, rfl⟩
    · use -1
      rw [List.length_cons, asciiFuzzyLoop]
      simp only [hp.head, hr, Option.bind_eq_bind, Option.bind_some]
      rfl
    · obtain ⟨firstIdx', hfirst', hstep⟩ := asciiFuzzyLoop_step (n := p.length) hp.head hr (by omega) hfirst
      rw [List.length_cons, hstep]
      apply ih (by omega) hp.tail hfirst'

/-- A search in bytes that can all be read has a result. -/
theorem exists_indexByteLoop {str : FzFString} (h : ∀ i, ∃ c, str.data i = some c) (b : Byte) (n : Nat) (i : Int) :
  ∃ r, indexByteLoop str b n i = some r
  := by
  induction n generalizing i with
  | zero => exact ⟨-1, rfl⟩
  | succ n ih =>
    obtain ⟨c, hc⟩ := h i
    rw [indexByteLoop, hc]
    show ∃ r, (if c = b then some (toI32 i) else indexByteLoop str b n (i + 1)) = some r
    split
    · use toI32 i
    · apply ih

theorem exists_skipCapital {str : FzFString} (h : ∀ i, ∃ c, str.data i = some c) (b : Byte) (idx : Int) :
  ∃ r, skipCapital str b idx = some r
  := by
  obtain ⟨r, hr⟩ : ∃ r, indexByte (if idx > 0 then sliceStrRight str.data idx else str) (b - 32) = some r := by
    apply exists_indexByteLoop
    intro i
    split
    · apply h
    · apply h
  use if r ≥ 0 then r else idx
  rw [skipCapital]
  simp only [hr]
  rfl

theorem exists_trySkip (h : ∀ i, ∃ c, input.data i = some c) (cs : Bool) (b : Byte) (i : Int) :
  ∃ r, trySkip input cs b i = some r
  := by
  have hslice : ∀ k, ∃ c, (sliceStr input.data i input.size).data k = some c := fun k => h (i + k)
  obtain ⟨idx, hidx⟩ : ∃ idx, indexByte (sliceStr input.data i input.size) b = some idx := by
    apply exists_indexByteLoop hslice
  rw [trySkip]
  simp only [hidx, Option.bind_eq_bind, Option.bind_some]
  split
  · use i
    rfl
  · split
    · obtain ⟨r, hr⟩ := exists_skipCapital hslice b idx
      rw [hr]
      exact ⟨_, rfl⟩
    · exact ⟨_, rfl⟩

variable (firstIdx) in
/-- The filter has a result where all can be read. -/
theorem exists_asciiFuzzyLoop (h : ∀ i, ∃ c, input.data i = some c) (cs : Bool) (i : Int)
    (hp : Reads pattern pidx p) :
  ∃ r, asciiFuzzyLoop input pattern cs p.length pidx firstIdx i = some r
  := by
  induction p generalizing i pidx firstIdx with
  | nil => exact ⟨firstIdx, rfl⟩
  | cons b p ih =>
    obtain ⟨r, hr⟩ := exists_trySkip h cs b i
    rw [List.length_cons, asciiFuzzyLoop]
    simp only [hp.head, hr, Option.bind_eq_bind, Option.bind_some]
    split
    · exact ⟨_, rfl⟩
    · apply ih _ _ hp.tail

/-! ### Positions -/

/-- The array of positions is as long as it says. -/
structure FzFPosition.Valid (pos : FzFPosition) : Prop where
  size_le : pos.size ≤ pos.cap
  length : pos.data.length = pos.cap

/-- The positions that are there. -/
def FzFPosition.positions (pos : FzFPosition) : List Int := pos.data.take pos.size

/-- Positions are appended to those that are there, if they are kept. -/
def Appended : Option FzFPosition → List Int → Option FzFPosition → Prop
  | none, _, pos' => pos' = none
  | some pos, idxs, pos' => ∃ pos₂, pos' = some pos₂ ∧ pos₂.Valid ∧ pos₂.positions = pos.positions ++ idxs

/-- The array of positions has room for some more. -/
def Room (pos : Option FzFPosition) (n : Nat) : Prop := ∀ p ∈ pos, p.Valid ∧ p.size + n ≤ p.cap

section

variable {fresh : Nat → Int} {pos : FzFPosition}

variable (fresh) in
/-- The array grows if it has to. -/
theorem FzFPosition.resize_eq (h : pos.Valid) (addLen comp : Int) :
  (pos.resize fresh addLen comp).Valid ∧ (pos.resize fresh addLen comp).size = pos.size
    ∧ (pos.resize fresh addLen comp).positions = pos.positions
    ∧ pos.cap ≤ (pos.resize fresh addLen comp).cap
    ∧ (0 < comp → comp ≤ addLen → pos.size + comp ≤ (pos.resize fresh addLen comp).cap)
  := by
  have hle := h.size_le
  rw [resize]
  split
  case isFalse hroom =>
    use h, rfl, rfl, le_refl _
    intro _ _
    omega
  case isTrue hroom =>
    have hcap : pos.cap ≤ if addLen > 0 then pos.cap + addLen.toNat else pos.cap + 1 := by
      split <;> omega
    constructor
    · constructor
      · apply hle.trans hcap
      · simp [reAllocWords]
    · use rfl
      constructor
      · apply List.ext_getElem
        · simp only [positions, reAllocWords, List.length_take, List.length_map, List.length_range, h.length]
          omega
        · intro k hk hk'
          simp only [positions, List.length_take, h.length] at hk'
          have hlt : k < pos.data.length := by
            rw [h.length]
            omega
          simp [positions, reAllocWords, List.getElem?_eq_getElem hlt]
      · use hcap
        intro hcomp hadd
        simp only [if_pos (hcomp.trans_le hadd)]
        omega

/-- What is appended to an array that may have grown is appended. -/
theorem Appended.resized {pos pos' : Option FzFPosition} {addLen comp : Int} {idxs : List Int}
    (h : Appended (resizePos fresh pos addLen comp) idxs pos') (hpos : ∀ q ∈ pos, q.Valid) :
  Appended pos idxs pos'
  := by
  cases pos with
  | none => apply h
  | some q =>
    obtain ⟨pos₂, rfl, hvalid, hpositions⟩ := h
    use pos₂, rfl, hvalid
    rw [hpositions, (FzFPosition.resize_eq _ (hpos q rfl) addLen comp).2.2.1]

/-- A position that is put is the last one. -/
theorem FzFPosition.put_eq (h : pos.Valid) (hroom : pos.size < pos.cap) (value : Int) :
  ∃ pos', pos.put value = some pos' ∧ pos'.Valid ∧ pos'.positions = pos.positions ++ [value]
    ∧ pos'.size = pos.size + 1 ∧ pos'.cap = pos.cap
  := by
  have hlt : pos.size < pos.data.length := by rwa [h.length]
  use { pos with data := pos.data.set pos.size value, size := pos.size + 1 }
  constructor
  · rw [put, if_pos hlt]
  · constructor
    · constructor
      · apply hroom
      · rw [List.length_set]
        apply h.length
    · refine ⟨?_, rfl, rfl⟩
      simp only [positions]
      rw [List.take_add_one, List.getElem?_set_self hlt, List.take_set_of_le (le_refl _)]
      rfl

variable (fresh) in
/-- `append_pos` appends a position for which there is room. -/
theorem appendPos_eq {pos : Option FzFPosition} {n : Nat} (h : Room pos (n + 1)) (value : Int) :
  ∃ pos', appendPos fresh pos value = some pos' ∧ Room pos' n
    ∧ ∀ idxs pos'', Appended pos' idxs pos'' → Appended pos (value :: idxs) pos''
  := by
  cases pos with
  | none =>
    use none, rfl
    constructor
    · intro p hp
      cases hp
    · intro idxs pos'' happ
      apply happ
  | some pos =>
    obtain ⟨hvalid, hroom⟩ := h pos rfl
    obtain ⟨hvalid', hsize, hpositions, hcap, -⟩ := FzFPosition.resize_eq fresh hvalid pos.cap 10
    obtain ⟨pos', hput, hvalid'', hpositions', hsize', hcap'⟩ := FzFPosition.put_eq hvalid' (by omega) value
    use some pos'
    constructor
    · rw [appendPos, hput]
      rfl
    · constructor
      · rintro p ⟨⟩
        use hvalid''
        omega
      · rintro idxs pos'' ⟨pos₂, rfl, hvalid₂, hpos₂⟩
        use pos₂, rfl, hvalid₂
        rw [hpos₂, hpositions', hpositions, List.append_assoc]
        rfl

end

/-! ### The scoring pass -/

/-- Some places spell a pattern in a text, from `s` up to `e` and one behind the other. -/
structure Occurrence (cs : Bool) (data : Int → Option Byte) (p : List Byte) (s e : Int) (idxs : List Int) :
    Prop where
  increasing : idxs.Pairwise (· < ·)
  inside : ∀ i ∈ idxs, s ≤ i ∧ i < e
  spells : List.Forall₂ (fun i b => (data i).map (foldCase cs) = some b) idxs p

section

variable {fresh : Nat → Int} {cs : Bool} {text pat : FzFString} {idx e : Int} {c b : Byte}

/-- The place in front of an occurrence. -/
theorem Occurrence.cons {idxs : List Int} (h : Occurrence cs text.data p (idx + 1) e idxs)
    (hc : text.data idx = some c) (hfold : foldCase cs c = b) (hlt : idx < e) :
  Occurrence cs text.data (b :: p) idx e (idx :: idxs)
  := by
  constructor
  · apply List.Pairwise.cons _ h.increasing
    intro i hi
    have hin := h.inside i hi
    omega
  · intro i hi
    rcases List.mem_cons.mp hi with rfl | hi
    · use le_refl _
    · have hin := h.inside i hi
      omega
  · apply List.Forall₂.cons _ h.spells
    rw [hc, Option.map_some, hfold]

/-- A place that is passed over. -/
theorem Occurrence.skip {idxs : List Int} (h : Occurrence cs text.data p (idx + 1) e idxs) :
  Occurrence cs text.data p idx e idxs
  where
  increasing := h.increasing
  inside i hi := by
    have hin := h.inside i hi
    omega
  spells := h.spells

variable (fresh) in
/-- In a window in which the pattern ends with the last character the scoring pass takes the pattern, and no
more. -/
theorem scoreLoop_eq {w : List Byte} {s : ScoreState} (hw : Reads text.data idx w) (hp : Reads pat.data s.pidx p)
    (hends : Ends p (w.map (foldCase cs)) w.length) (hroom : Room s.pos p.length) :
  ∃ s' idxs, scoreLoop fresh cs text pat w.length idx s = some s' ∧ Appended s.pos idxs s'.pos
    ∧ Occurrence cs text.data p idx (idx + w.length) idxs
  := by
  induction w generalizing idx p s with
  | nil =>
    obtain rfl : p = [] := by
      apply List.sublist_nil.mp
      apply hends.sublist
    use s, [], rfl
    constructor
    · cases hs : s.pos with
      | none => rfl
      | some pos =>
        use pos, rfl, (hroom pos hs).1
        rw [List.append_nil]
    · constructor
      · apply List.Pairwise.nil
      · simp
      · apply List.Forall₂.nil
  | cons c w ih =>
    have hstop : idx + 1 + (w.length : Int) = idx + (c :: w).length := by
      rw [List.length_cons]
      omega
    rw [List.length_cons, List.map_cons] at hends
    cases p with
    | nil => cases Subsequence.ends_nil_iff.mp hends
    | cons b p =>
      rw [List.length_cons, scoreLoop, scoreTurn, hw.head, hp.head]
      rcases eq_or_ne (foldCase cs c) b with heq | hne
      · rw [heq, Subsequence.ends_cons_self_iff] at hends
        obtain ⟨pos', happend, hroom', happended⟩ := appendPos_eq fresh hroom idx
        simp only [Option.bind_eq_bind, Option.bind_some, if_pos heq, happend]
        obtain ⟨s', idxs, hrun, happ, hocc⟩ := ih (s := { pidx := s.pidx + 1
                                                          score := s.score + fzfScoreMatch
                                                            + (s.bonus (charClsOf c)).1
                                                          consecutive := s.consecutive + 1
                                                          inGap := false
                                                          firstBonus := (s.bonus (charClsOf c)).2
                                                          prevCls := charClsOf c
                                                          pos := pos' }) hw.tail hp.tail hends hroom'
        rw [hstop] at hocc
        use s', idx :: idxs, hrun, happended _ _ happ
        apply hocc.cons hw.head heq
        rw [List.length_cons]
        omega
      · rw [Subsequence.ends_cons_of_ne_iff hne] at hends
        simp only [Option.bind_eq_bind, Option.bind_some, if_neg hne]
        obtain ⟨s', idxs, hrun, happ, hocc⟩ := ih (s := { s with
          score := s.score + if s.inGap then fzfScoreGapExtention else fzfScoreGapStart
          consecutive := 0
          inGap := true
          firstBonus := 0
          prevCls := charClsOf c }) hw.tail hp hends hroom
        rw [hstop] at hocc
        exact ⟨s', idxs, hrun, happ, hocc.skip⟩

variable (fresh) in
/-- `FzFCalculateScore` over a window in which the pattern ends with the last character. -/
theorem fzfCalculateScore_eq {l w : List Byte} {s : Nat} {pos : Option FzFPosition} (hl : Reads text.data 0 l)
    (hw : (l.drop s).take w.length = w) (hpat : Reads pat.data 0 p) (hsize : pat.size = p.length)
    (hne : p ≠ []) (hends : Ends p (w.map (foldCase cs)) w.length) (hpos : ∀ q ∈ pos, q.Valid) :
  ∃ score idxs pos', fzfCalculateScore fresh cs text pat s (s + w.length) pos = some (score, pos')
    ∧ Appended pos idxs pos' ∧ Occurrence cs text.data p s (s + w.length) idxs
  := by
  have hwin : Reads text.data s w := by
    have hdrop := (hl.drop s).take w.length
    rwa [Int.zero_add, hw] at hdrop
  have hpos₀ : 0 < p.length := List.length_pos_of_ne_nil hne
  have hlt : s < l.length := by
    by_contra hge
    rw [List.drop_of_length_le (by omega), List.take_nil] at hw
    subst hw
    apply hne (List.sublist_nil.mp hends.sublist)
  obtain ⟨cls, hcls⟩ : ∃ cls, prevClsOf text s = some cls := by
    rw [prevClsOf]
    split
    case isTrue hs =>
      have hprev := hl (s - 1) _ (List.getElem?_eq_getElem (by omega))
      rw [Int.zero_add, Nat.cast_sub (by omega), Nat.cast_one] at hprev
      exact ⟨_, by rw [hprev]; rfl⟩
    case isFalse => exact ⟨_, rfl⟩
  let s₀ : ScoreState :=
    { pidx := 0, score := 0, consecutive := 0, inGap := false, firstBonus := 0, prevCls := cls
      pos := resizePos fresh pos pat.size pat.size }
  have hresized : ∀ q ∈ pos, _ := fun q hq =>
    FzFPosition.resize_eq fresh (hpos q hq) pat.size pat.size
  have hroom : Room s₀.pos p.length := by
    intro q hq
    obtain ⟨q', hq', rfl⟩ := Option.map_eq_some_iff.mp hq
    obtain ⟨hvalid, hq₁, -, -, hcap⟩ := hresized q' hq'
    use hvalid
    have hcap' := hcap (by omega) (le_refl _)
    omega
  obtain ⟨s', idxs, hrun, happ, hocc⟩ := scoreLoop_eq fresh (s := s₀) hwin hpat hends hroom
  use toI32 s'.score, idxs, s'.pos
  constructor
  · have hturns : ((s : Int) + w.length - s).toNat = w.length := by omega
    rw [fzfCalculateScore]
    simp only [hcls, Option.bind_eq_bind, Option.bind_some, hturns]
    change (scoreLoop fresh cs text pat w.length s s₀).bind _ = _
    rw [hrun]
    rfl
  · exact ⟨happ.resized hpos, hocc⟩

end

end Polyc
