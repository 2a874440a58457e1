import Polyc.HolycLib.FzFSearch

/-!
# The fuzzy matcher

`FzFFuzzyMatchV1` finds the first end of a pattern as a subsequence of the text, and the last beginning
before it, exactly as far as the end is counted by an `I32`.
-/

namespace Polyc

open Bytes (Byte)
open Subsequence (Ends)

/-- The window of a text that a fuzzy match has: the pattern ends nowhere before `e`, and begins nowhere behind
`s` to end there. -/
structure FuzzyMatch (cs : Bool) (l p : List Byte) (s e : Nat) : Prop where
  ends : Ends p (l.map (foldCase cs)) e
  sublist : p.Sublist (((l.take e).drop s).map (foldCase cs))
  last : ∀ s' > s, ¬p.Sublist (((l.take e).drop s').map (foldCase cs))

/-- `FzFFuzzyMatchV1` reports a match exactly when the pattern is a subsequence of the text; then it reports its
window, and appends the places of an occurrence in it. -/
def FuzzyFinds (fresh : Nat → Int) (cs : Bool) (l p : List Byte) (around : Int → Byte) (res : FzFResult)
    (pos : Option FzFPosition) : Prop :=
  let text := FzFString.ofList l fun i => some (around i)
  ∃ res' pos', fzfFuzzyMatchV1 fresh res cs text (.ofList p fun _ => none) pos = some (res', pos')
    ∧ (0 ≤ res'.start ↔ p.Sublist (l.map (foldCase cs)))
    ∧ (0 ≤ res'.start → ∃ (s e : Nat) (idxs : List Int), res'.start = s ∧ res'.end_ = e
      ∧ FuzzyMatch cs l p s e ∧ Appended pos idxs pos' ∧ Occurrence cs text.data p s e idxs)

section

variable {cs : Bool} {text pat : FzFString} {l p w : List Byte} {idx pidx sidx : Int} {e : Nat} {b : Byte}

/-! ### The way forward -/

/-- The end that is found is in an `I32`. -/
theorem forwardLoop_lt {n : Nat} {r : Int × Int × Int} (h : forwardLoop cs text pat n idx pidx sidx = some r) :
  r.2.2 < 2 ^ 31
  := by
  induction n generalizing idx pidx sidx with
  | zero =>
    cases h
    norm_num
  | succ n ih =>
    obtain ⟨c, -, h⟩ := Option.bind_eq_some_iff.mp h
    obtain ⟨b, -, h⟩ := Option.bind_eq_some_iff.mp h
    split at h
    · change (if _ then some _ else _) = _ at h
      split at h
      · cases h
        have hlt := Int.bmod_lt (x := idx + 1) (m := 2 ^ 32) (by norm_num)
        rw [toI32]
        norm_num at hlt ⊢
        omega
      · apply ih h
    · apply ih h

variable (sidx) in
/-- The way forward finds where the pattern ends, and its first character. -/
theorem forwardLoop_found (hw : Reads text.data idx w) (hp : Reads pat.data pidx (b :: p))
    (hsize : pat.size = pidx + (b :: p).length) (hidx : 0 ≤ idx)
    (hends : Ends (b :: p) (w.map (foldCase cs)) e) :
  ∃ sidx', forwardLoop cs text pat w.length idx pidx sidx = some (pat.size, sidx', toI32 (idx + e))
    ∧ (0 ≤ sidx → sidx' = sidx)
    ∧ (sidx < 0 → ∃ j : Nat, sidx' = idx + j ∧ (b :: p).Sublist (((w.take e).drop j).map (foldCase cs)))
  := by
  induction w generalizing idx pidx sidx b p e with
  | nil => cases Subsequence.not_ends_cons_nil hends
  | cons c w ih =>
    obtain ⟨e, rfl⟩ := Nat.exists_eq_add_of_lt hends.pos
    rw [Nat.zero_add] at hends ⊢
    have hnext : idx + 1 + (e : Int) = idx + (e + 1 : Nat) := by omega
    have hrun : forwardLoop cs text pat (c :: w).length idx pidx sidx
        = if foldCase cs c = b then
            if pidx + 1 = pat.size then
              some (pidx + 1, if sidx < 0 then idx else sidx, toI32 (idx + 1))
            else forwardLoop cs text pat w.length (idx + 1) (pidx + 1) (if sidx < 0 then idx else sidx)
          else forwardLoop cs text pat w.length (idx + 1) pidx sidx := by
      rw [List.length_cons, forwardLoop, hw.head, hp.head]
      rfl
    rw [List.map_cons] at hends
    rw [hrun]
    rcases eq_or_ne (foldCase cs c) b with heq | hne
    · have hwhole := hends.sublist
      rw [← List.map_cons, ← List.map_take] at hwhole
      rw [heq, Subsequence.ends_cons_self_iff] at hends
      rw [if_pos heq]
      have hfirst : (0 ≤ sidx → (if sidx < 0 then idx else sidx) = sidx)
          ∧ (sidx < 0 → ∃ j : Nat, (if sidx < 0 then idx else sidx) = idx + j
            ∧ (b :: p).Sublist ((((c :: w).take (e + 1)).drop j).map (foldCase cs))) := by
        constructor
        · intro hs
          apply if_neg
          omega
        · intro hs
          use 0
          rw [if_pos hs]
          exact ⟨(Int.add_zero _).symm, hwhole⟩
      cases p with
      | nil =>
        obtain rfl := Subsequence.ends_nil_iff.mp hends
        have hlast : pidx + 1 = pat.size := by
          rw [hsize]
          rfl
        rw [if_pos hlast]
        exact ⟨_, by rw [hlast]; rfl, hfirst⟩
      | cons b' p =>
        have hmore : pidx + 1 ≠ pat.size := by
          rw [hsize, List.length_cons, List.length_cons]
          omega
        rw [if_neg hmore]
        obtain ⟨sidx', hrun', hkept, -⟩ := ih (if sidx < 0 then idx else sidx) hw.tail hp.tail
          (by rw [hsize, List.length_cons]; omega) (by omega) hends
        rw [hnext] at hrun'
        obtain rfl := hkept (by split <;> omega)
        exact ⟨_, hrun', hfirst⟩
    · rw [Subsequence.ends_cons_of_ne_iff hne] at hends
      rw [if_neg hne]
      obtain ⟨sidx', hrun', hkept, hfound⟩ := ih sidx hw.tail hp hsize (by omega) hends
      rw [hnext] at hrun'
      use sidx', hrun', hkept
      intro hs
      obtain ⟨j, rfl, hsub⟩ := hfound hs
      use j + 1
      constructor
      · omega
      · rw [List.take_succ_cons, List.drop_succ_cons]
        apply hsub

variable (sidx) in
/-- The way forward has no end where the pattern is no subsequence. -/
theorem forwardLoop_none (hw : Reads text.data idx w) (hp : Reads pat.data pidx (b :: p))
    (hsize : pat.size = pidx + (b :: p).length) (hsub : ¬(b :: p).Sublist (w.map (foldCase cs))) :
  ∃ pidx' sidx', forwardLoop cs text pat w.length idx pidx sidx = some (pidx', sidx', -1)
  := by
  induction w generalizing idx pidx sidx b p with
  | nil => exact ⟨_, _, rfl⟩
  | cons c w ih =>
    rw [List.length_cons, forwardLoop, hw.head, hp.head]
    simp only [Option.bind_eq_bind, Option.bind_some]
    rw [List.map_cons] at hsub
    rcases eq_or_ne (foldCase cs c) b with heq | hne
    · rw [heq, List.cons_sublist_cons] at hsub
      cases p with
      | nil => cases hsub (List.nil_sublist _)
      | cons b' p =>
        have hmore : pidx + 1 ≠ pat.size := by
          rw [hsize, List.length_cons, List.length_cons]
          omega
        rw [if_pos heq, if_neg hmore]
        apply ih _ hw.tail hp.tail (by rw [hsize, List.length_cons]; omega) hsub
    · rw [Subsequence.cons_sublist_cons_of_ne hne] at hsub
      rw [if_neg hne]
      apply ih _ hw.tail hp hsize hsub

/-! ### The way back -/

/-- The way back finds where the pattern begins, as the way forward does on what is reversed. -/
theorem backwardLoop_found (start : Int) (hw : Reads (fun k => text.data (-k)) (-idx) w)
    (hp : Reads (fun k => pat.data (-k)) (-pidx) (b :: p)) (hpidx : pidx = p.length)
    (hends : Ends (b :: p) (w.map (foldCase cs)) e) :
  backwardLoop cs text pat start w.length idx pidx = some (idx - e + 1)
  := by
  induction w generalizing idx pidx b p e with
  | nil => cases Subsequence.not_ends_cons_nil hends
  | cons c w ih =>
    obtain ⟨e, rfl⟩ := Nat.exists_eq_add_of_lt hends.pos
    rw [Nat.zero_add] at hends ⊢
    have hc : text.data idx = some c := by
      have hhead := hw.head
      rwa [neg_neg] at hhead
    have hb : pat.data pidx = some b := by
      have hhead := hp.head
      rwa [neg_neg] at hhead
    have hw' : Reads (fun k => text.data (-k)) (-(idx - 1)) w := by
      have hoff : -(idx - 1) = -idx + 1 := by omega
      rw [hoff]
      apply hw.tail
    have hnext : idx - 1 - (e : Int) + 1 = idx - (e + 1 : Nat) + 1 := by omega
    rw [List.length_cons, backwardLoop, hc, hb]
    simp only [Option.bind_eq_bind, Option.bind_some]
    rw [List.map_cons] at hends
    rcases eq_or_ne (foldCase cs c) b with heq | hne
    · rw [heq, Subsequence.ends_cons_self_iff] at hends
      rw [if_pos heq]
      cases p with
      | nil =>
        obtain rfl := Subsequence.ends_nil_iff.mp hends
        have hneg : pidx - 1 < 0 := by
          rw [hpidx]
          norm_num
        rw [if_pos hneg]
        congr 1
        omega
      | cons b' p =>
        rw [List.length_cons] at hpidx
        have hpos : ¬pidx - 1 < 0 := by omega
        have hp' : Reads (fun k => pat.data (-k)) (-(pidx - 1)) (b' :: p) := by
          have hoff : -(pidx - 1) = -pidx + 1 := by omega
          rw [hoff]
          apply hp.tail
        rw [if_neg hpos, ih hw' hp' (by omega) hends, hnext]
    · rw [Subsequence.ends_cons_of_ne_iff hne] at hends
      rw [if_neg hne, ih hw' hp hpidx hends, hnext]

/-- The window in which a pattern ends first has a last beginning, which the way back finds. -/
theorem backwardLoop_last {l : List Byte} (hl : Reads text.data 0 l) (hp : Reads pat.data 0 p) (hne : p ≠ [])
    (hends : Ends p (l.map (foldCase cs)) e) {j : Nat}
    (hj : p.Sublist (((l.take e).drop j).map (foldCase cs))) :
  ∃ s : Nat, backwardLoop cs text pat j (e - j) (e - 1) (p.length - 1) = some (s : Int) ∧ s < e
    ∧ FuzzyMatch cs l p s e
  := by
  let w := (l.take e).drop j
  have hle := hends.le
  rw [List.length_map] at hle
  have hlen : w.length = e - j := by
    rw [List.length_drop, List.length_take, Nat.min_eq_left hle]
  obtain ⟨k, hk⟩ := Subsequence.exists_ends (List.reverse_sublist.mpr hj)
  obtain ⟨hsub, hlast⟩ := hk.reverse hne
  have hkle := hk.le
  rw [List.length_reverse, List.length_map, hlen] at hkle
  have hpos : 0 < p.length := List.length_pos_of_ne_nil hne
  have hklen : p.length ≤ k := by
    have hrev := hk.sublist.length_le
    rw [List.length_reverse, List.length_take] at hrev
    omega
  rw [List.length_map, hlen] at hsub hlast
  use e - k
  constructor
  · have hw : Reads (fun i => text.data (-i)) (-((e : Int) - 1)) w.reverse := by
      have hread := ((hl.take e).drop j).reverse
      have hoff : -(0 + (j : Int) + w.length - 1) = -((e : Int) - 1) := by omega
      rwa [hoff] at hread
    have hp' : Reads (fun i => pat.data (-i)) (-((p.length : Int) - 1)) p.reverse := by
      have hread := hp.reverse
      rwa [Int.zero_add] at hread
    obtain ⟨b, p', hrev⟩ := List.exists_cons_of_ne_nil (List.reverse_eq_nil_iff.not.mpr hne)
    have hlen' := congrArg List.length hrev
    rw [List.length_reverse, List.length_cons] at hlen'
    rw [hrev] at hp' hk
    rw [← List.map_reverse] at hk
    have hrun := backwardLoop_found j hw hp' (by omega) hk
    rw [List.length_reverse, hlen] at hrun
    rw [hrun]
    congr 1
    omega
  · use by omega
    constructor
    · apply hends
    · rw [← List.map_drop, List.drop_drop] at hsub
      have hoff : j + (e - j - k) = e - k := by omega
      rwa [hoff] at hsub
    · intro s' hs' hsub'
      apply hlast (s' - j) (by omega)
      rw [← List.map_drop, List.drop_drop]
      have hoff : j + (s' - j) = s' := by omega
      rwa [hoff]

/-! ### The matcher -/

/-- A match is reported with an end in an `I32`. -/
theorem fzfFuzzyMatchV1_lt {fresh : Nat → Int} {res res' : FzFResult} {pos pos' : Option FzFPosition}
    (hsize : pat.size ≠ 0) (h : fzfFuzzyMatchV1 fresh res cs text pat pos = some (res', pos'))
    (hstart : 0 ≤ res'.start) :
  res'.end_ < 2 ^ 31
  := by
  rw [fzfFuzzyMatchV1] at h
  simp only [if_neg hsize] at h
  obtain ⟨r, -, h⟩ := Option.bind_eq_some_iff.mp h
  split at h
  · cases h
    cases hstart
  · obtain ⟨⟨pidx, sidx, eidx⟩, hforward, h⟩ := Option.bind_eq_some_iff.mp h
    have hlt := forwardLoop_lt hforward
    change (if _ then _ else _) = _ at h
    split at h
    · obtain ⟨start, -, h⟩ := Option.bind_eq_some_iff.mp h
      obtain ⟨⟨score, pos₂⟩, -, h⟩ := Option.bind_eq_some_iff.mp h
      cases h
      apply hlt
    · cases h
      cases hstart

variable {fresh : Nat → Int} {pos : Option FzFPosition} {l : List Byte}

variable (fresh) in
/-- A pattern that ends in what an `I32` counts is found. -/
theorem fzfFuzzyMatchV1_found (res : FzFResult) (hl : Reads text.data 0 l) (htext : text.size = l.length)
    (hp : Reads pat.data 0 p) (hpat : pat.size = p.length) (hne : p ≠ [])
    (hends : Ends p (l.map (foldCase cs)) e) (he : e ≤ i32Max) (hpos : ∀ q ∈ pos, q.Valid) :
  ∃ (s : Nat) (score : Int) (idxs : List Int) (pos' : Option FzFPosition),
    fzfFuzzyMatchV1 fresh res cs text pat pos = some (⟨s, e, score⟩, pos')
    ∧ FuzzyMatch cs l p s e ∧ Appended pos idxs pos' ∧ Occurrence cs text.data p s e idxs
  := by
  obtain ⟨b, p', rfl⟩ := List.exists_cons_of_ne_nil hne
  have hsize : pat.size ≠ 0 := by
    rw [hpat, List.length_cons]
    omega
  have hle := hends.le
  rw [List.length_map] at hle
  have hfits : (b :: p').Sublist (((l.take i32Max).drop 0).map (foldCase cs)) := by
    rw [List.drop_zero, List.map_take]
    apply hends.sublist_take_iff.mpr he
  obtain ⟨r, hr, hrpos⟩ := asciiFuzzyLoop_found (i := 0) hl htext cs hp hfits (le_refl 0)
  obtain ⟨sidx, hforward, -, hsidx⟩ := forwardLoop_found (-1) hl hp
    (by rw [hpat, Int.zero_add]) (le_refl 0) hends
  obtain ⟨j, rfl, hj⟩ := hsidx (by norm_num)
  obtain ⟨s, hback, hse, hwindow⟩ := backwardLoop_last hl hp hne hends hj
  let w := (l.take e).drop s
  have hlen : w.length = e - s := by
    rw [List.length_drop, List.length_take, Nat.min_eq_left hle]
  have hw : (l.drop s).take w.length = w := by
    rw [List.take_drop, hlen]
    congr 2
    omega
  have hscore : Ends (b :: p') (w.map (foldCase cs)) w.length := by
    have hwhole := hends.window (s := s)
    rw [← List.map_take, ← List.map_drop, List.length_map] at hwhole
    apply hwhole hwindow.sublist
  obtain ⟨score, idxs, pos', hcalc, happ, hocc⟩ := fzfCalculateScore_eq fresh hl hw hp hpat hne
    hscore hpos
  have hstop : (s : Int) + w.length = e := by omega
  rw [hstop] at hcalc hocc
  use s, score, idxs, pos'
  constructor
  · have he32 : toI32 (0 + (e : Int)) = e := by
      rw [Int.zero_add, toI32_of_le he]
    have hturns : ((e : Int) - j).toNat = e - j := Int.toNat_sub e j
    have hfilter : asciiFuzzyIndex text pat.data pat.size cs = some r := by
      rw [asciiFuzzyIndex, hpat]
      apply hr
    have hfound : (j : Int) ≥ 0 ∧ (e : Int) ≥ 0 := ⟨Int.natCast_nonneg j, Int.natCast_nonneg e⟩
    have hback' : backwardLoop cs text pat j (e - j) (e - 1) (pat.size - 1) = some (s : Int) := by
      rw [hpat]
      apply hback
    rw [he32, Int.zero_add] at hforward
    rw [fzfFuzzyMatchV1]
    simp only [if_neg hsize, hfilter, Option.bind_eq_bind, Option.bind_some, if_neg (not_lt_of_ge hrpos),
      htext, Int.toNat_natCast, hforward, if_pos hfound, hturns, hback', hcalc]
    rfl
  · exact ⟨hwindow, happ, hocc⟩

/-- A pattern that is no subsequence is not found, where all can be read. -/
theorem fzfFuzzyMatchV1_none (res : FzFResult) (hread : ∀ i, ∃ c, text.data i = some c)
    (hl : Reads text.data 0 l) (htext : text.size = l.length) (hp : Reads pat.data 0 p)
    (hpat : pat.size = p.length) (hne : p ≠ []) (hsub : ¬p.Sublist (l.map (foldCase cs))) :
  fzfFuzzyMatchV1 fresh res cs text pat pos = some (.noMatch, pos)
  := by
  obtain ⟨b, p', rfl⟩ := List.exists_cons_of_ne_nil hne
  have hsize : pat.size ≠ 0 := by
    rw [hpat, List.length_cons]
    omega
  obtain ⟨r, hr⟩ := exists_asciiFuzzyLoop 0 hread cs 0 hp
  obtain ⟨pidx, sidx, hforward⟩ := forwardLoop_none (-1) hl hp (by rw [hpat, Int.zero_add]) hsub
  have hfilter : asciiFuzzyIndex text pat.data pat.size cs = some r := by
    rw [asciiFuzzyIndex, hpat]
    apply hr
  have hnone : ¬(sidx ≥ 0 ∧ (-1 : Int) ≥ 0) := by omega
  rw [fzfFuzzyMatchV1]
  simp only [if_neg hsize, hfilter, Option.bind_eq_bind, Option.bind_some, htext, Int.toNat_natCast, hforward,
    if_neg hnone]
  split <;> rfl

/-- A pattern that is found ends in what an `I32` counts. -/
theorem FuzzyFinds.fits {around : Int → Byte} {res : FzFResult} (h : FuzzyFinds fresh cs l p around res pos)
    (hne : p ≠ []) (hsub : p.Sublist (l.map (foldCase cs))) :
  p.Sublist ((l.take i32Max).map (foldCase cs))
  := by
  obtain ⟨res', pos', hrun, hiff, hmatch⟩ := h
  obtain ⟨s, e, idxs, hs, he, hwindow, -⟩ := hmatch (hiff.mpr hsub)
  have hsize : (FzFString.ofList p fun _ => none).size ≠ 0 := by
    have hlen := List.length_pos_of_ne_nil hne
    show (p.length : Int) ≠ 0
    omega
  have hlt := fzfFuzzyMatchV1_lt hsize hrun (hiff.mpr hsub)
  rw [he] at hlt
  rw [List.map_take, hwindow.ends.sublist_take_iff, i32Max]
  norm_num at hlt ⊢
  omega

end

/-- The fuzzy matcher finds a pattern exactly when the text does not have it as a subsequence or has it in what an
`I32` counts. -/
theorem fuzzyFinds_iff (fresh : Nat → Int) (cs : Bool) (l p : List Byte) (around : Int → Byte) (res : FzFResult)
    (pos : Option FzFPosition) (hne : p ≠ []) (hpos : ∀ q ∈ pos, q.Valid) :
  FuzzyFinds fresh cs l p around res pos
    ↔ (p.Sublist (l.map (foldCase cs)) → p.Sublist ((l.take i32Max).map (foldCase cs)))
  := by
  have hl := reads_ofList l fun i => some (around i)
  have hp := reads_ofList p fun _ => none
  constructor
  · intro h hsub
    apply h.fits hne hsub
  · intro hfits
    rcases em (p.Sublist (l.map (foldCase cs))) with hsub | hsub
    · obtain ⟨e, hends⟩ := Subsequence.exists_ends hsub
      have he : e ≤ i32Max := by
        rw [← hends.sublist_take_iff, ← List.map_take]
        apply hfits hsub
      obtain ⟨s, score, idxs, pos', hrun, hwindow, happ, hocc⟩ :=
        fzfFuzzyMatchV1_found fresh res hl rfl hp rfl hne hends he hpos
      use ⟨s, e, score⟩, pos', hrun
      constructor
      · simp [hsub]
      · intro _
        use s, e, idxs
    · have hread : ∀ i, ∃ c, (FzFString.ofList l fun i => some (around i)).data i = some c := by
        intro i
        show ∃ c, (if 0 ≤ i ∧ i < l.length then l[i.toNat]? else some (around i)) = some c
        split
        · exact ⟨_, List.getElem?_eq_getElem (by omega)⟩
        · exact ⟨_, rfl⟩
      use .noMatch, pos, fzfFuzzyMatchV1_none res hread hl rfl hp rfl hne hsub
      constructor
      · simp [hsub, FzFResult.noMatch]
      · intro h
        cases h

/-- `ab` is found in `aXB` when case is ignored. -/
theorem fuzzyFinds_iff_ab :
  FuzzyFinds (fun _ => 0) false [0x61, 0x58, 0x42] [0x61, 0x62] (fun _ => 0) ⟨0, 0, 0⟩ (some ⟨[], 0, 0⟩)
  := by
  apply (fuzzyFinds_iff _ _ _ _ _ _ _ (by simp) _).mpr
  · intro _
    decide
  · rintro q ⟨⟩
    exact ⟨le_refl _, rfl⟩

/-- A character behind as many others as an `I32` counts is not found. -/
theorem not_fuzzyFinds :
  ¬FuzzyFinds (fun _ => 0) true (List.replicate i32Max 0x62 ++ [0x61]) [0x61] (fun _ => 0) ⟨0, 0, 0⟩ none
  := by
  intro h
  have hfits := h.fits (by simp) (by simp [foldCase])
  rw [List.take_left' List.length_replicate, List.map_replicate] at hfits
  have hmem := List.eq_of_mem_replicate (hfits.subset List.mem_cons_self)
  revert hmem
  decide

end Polyc
