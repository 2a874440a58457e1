import Mathlib.Data.List.Basic
import Polyc.Lib.Bytes
import Polyc.Lib.Loop

/-!
# Matching against a wildcard

`WildMatch` of `strings.HC`.  A string is the list of its characters before the 0, and a pointer into
it what it has from there on; the pointers to fall back to are there or `NULL`.

`WildMatch` reads the character behind a `*` as itself, goes on behind the first place in the text where
the pattern up to the next `*` stands, also where the pattern ends there, and says yes as soon as the text
is used up before a `*`.  Its answer is right where none of this differs from what patterns mean.
-/

namespace Polyc

open Bytes (Byte)

/-- The characters of a string. -/
abbrev StrChar := { b : Byte // b ≠ 0 }

/-- `'*'`. -/
def star : StrChar := ⟨0x2A, by decide⟩

/-- `'?'`. -/
def quest : StrChar := ⟨0x3F, by decide⟩

/-- The variables of `WildMatch`. -/
structure WildMatchState where
  testStr : List StrChar
  wildStr : List StrChar
  fallBack : Option (List StrChar × List StrChar)

/-- The loop that goes on to the character `ch2` from `ch1` and the string behind it: what is behind the
character that was found. -/
def wildSkip (ch2 : StrChar) : StrChar → List StrChar → Option (List StrChar)
  | ch1, [] => if ch2 = ch1 then some [] else none
  | ch1, c :: testStr => if ch2 = ch1 then some (c :: testStr) else wildSkip ch2 c testStr

/-- A turn of the loop of `WildMatch`. -/
def wildMatchStep (s : WildMatchState) : WildMatchState ⊕ Bool :=
  match s.testStr with
  | [] =>
    match s.wildStr with
    | [] => .inr true
    | c :: _ => .inr (c = star)
  | ch1 :: testStr =>
    match s.wildStr with
    | [] => .inr false
    | ch2 :: wildStr =>
      if ch2 = star then
        match wildStr with
        | [] => .inr true
        | ch2' :: wildStr' =>
          match wildSkip ch2' ch1 testStr with
          | none => .inr false
          | some testStr' => .inl ⟨testStr', wildStr', some (testStr, ch2 :: wildStr)⟩
      else if ch2 ≠ quest ∧ ch1 ≠ ch2 then
        match s.fallBack with
        | some (src, wild) => .inl ⟨src, wild, none⟩
        | none => .inr false
      else .inl ⟨testStr, wildStr, s.fallBack⟩

/-- `WildMatch`. -/
def wildMatch (fuel : Nat) (testStr wildStr : List StrChar) : Option Bool :=
  Loop.run wildMatchStep fuel ⟨testStr, wildStr, none⟩

/-! ### Patterns -/

/-- The text matches the pattern: `?` is any one character, `*` any sequence of them, and every other
character itself. -/
inductive Glob : List StrChar → List StrChar → Prop
  | nil : Glob [] []
  | one {c d : StrChar} {t w : List StrChar} (hd : d ≠ star) (h : d = quest ∨ d = c) (ht : Glob t w) :
    Glob (c :: t) (d :: w)
  | sequence (u : List StrChar) {t w : List StrChar} (ht : Glob t w) : Glob (u ++ t) (star :: w)

/-- A text that matches has a character for each one of the pattern but the `*`. -/
theorem Glob.length {t w : List StrChar} (h : Glob t w) :
  (w.filter (· ≠ star)).length ≤ t.length
  := by
  induction h with
  | nil => apply Nat.le_refl
  | one hd h _ ih =>
    rw [List.filter_cons_of_pos (by simpa using hd)]
    apply Nat.succ_le_succ ih
  | sequence u _ ih =>
    rw [List.filter_cons_of_neg (by simp), List.length_append]
    apply Nat.le_trans ih (Nat.le_add_left _ _)

/-! ### Up to the next `*` -/

/-- What becomes of a text on the characters of a pattern that are not `*`: the rest of the text behind them,
or it ends before them, or there is a character that does not match. -/
inductive Stretch where
  | done (r : List StrChar)
  | short
  | mismatch

/-- The text on the characters of a pattern before a `*`. -/
def stretch : List StrChar → List StrChar → Stretch
  | t, [] => .done t
  | [], _ :: _ => .short
  | c :: t, d :: seg => if d = quest ∨ d = c then stretch t seg else .mismatch

variable {t w r seg : List StrChar}

/-- How long what is left is. -/
theorem length_stretch (h : stretch t seg = .done r) :
  t.length = seg.length + r.length
  := by
  induction seg generalizing t with
  | nil =>
    cases t <;> cases h <;> simp
  | cons d seg ih =>
    cases t with
    | nil => cases h
    | cons c t =>
      rw [stretch] at h
      rcases em (d = quest ∨ d = c) with hmatch | hmatch
      · rw [if_pos hmatch] at h
        rw [List.length_cons, List.length_cons, ih h]
        omega
      · rw [if_neg hmatch] at h
        cases h

/-- A text that ends before the characters is shorter. -/
theorem length_lt_of_short (h : stretch t seg = .short) :
  t.length < seg.length
  := by
  induction seg generalizing t with
  | nil => cases t <;> cases h
  | cons d seg ih =>
    cases t with
    | nil => simp
    | cons c t =>
      rw [stretch] at h
      rcases em (d = quest ∨ d = c) with hmatch | hmatch
      · rw [if_pos hmatch] at h
        simp [ih h]
      · rw [if_neg hmatch] at h
        cases h

/-- What is left is an end of the text. -/
theorem stretch_suffix (h : stretch t seg = .done r) :
  r <:+ t
  := by
  induction seg generalizing t with
  | nil =>
    cases t <;> cases h <;> apply List.suffix_rfl
  | cons d seg ih =>
    cases t with
    | nil => cases h
    | cons c t =>
      rw [stretch] at h
      rcases em (d = quest ∨ d = c) with hmatch | hmatch
      · rw [if_pos hmatch] at h
        apply (ih h).trans (List.suffix_cons c t)
      · rw [if_neg hmatch] at h
        cases h

/-! ### Behind a `*` -/

/-- What is left of a text behind the first place where it has the character `d` and then what the characters
before the next `*` take. -/
def findFirst (d : StrChar) (seg : List StrChar) : List StrChar → Option (List StrChar)
  | [] => none
  | c :: t =>
    if d = c then
      match stretch t seg with
      | .done r => some r
      | _ => findFirst d seg t
    else findFirst d seg t

variable {d : StrChar}

/-- A place in the text where it has the character and then what the other characters take, and what is
left behind it. -/
def PlaceOf (d : StrChar) (seg t r : List StrChar) : Prop :=
  ∃ u t', t = u ++ d :: t' ∧ stretch t' seg = .done r

theorem placeOf_cons {c : StrChar} :
  PlaceOf d seg (c :: t) r ↔ d = c ∧ stretch t seg = .done r ∨ PlaceOf d seg t r
  := by
  constructor
  · rintro ⟨u, t', ht, h⟩
    rcases u with - | ⟨c', u⟩
    · cases ht
      use .inl ⟨rfl, h⟩
    · cases ht
      use .inr ⟨u, t', rfl, h⟩
  · rintro (⟨rfl, h⟩ | ⟨u, t', rfl, h⟩)
    · use [], t, rfl, h
    · use c :: u, t', rfl, h

/-- Behind a place there is less than before it. -/
theorem PlaceOf.length (h : PlaceOf d seg t r) :
  seg.length + r.length < t.length
  := by
  obtain ⟨u, t', rfl, h⟩ := h
  rw [List.length_append, List.length_cons, length_stretch h]
  omega

theorem PlaceOf.suffix (h : PlaceOf d seg t r) :
  r <:+ t
  := by
  obtain ⟨u, t', rfl, h⟩ := h
  apply (stretch_suffix h).trans
  use u ++ [d]
  rw [List.append_assoc, List.singleton_append]

/-- The first place leaves the most. -/
theorem findFirst_some (h : findFirst d seg t = some r) :
  PlaceOf d seg t r ∧ ∀ r', PlaceOf d seg t r' → r' <:+ r
  := by
  induction t with
  | nil => cases h
  | cons c t ih =>
    rw [findFirst] at h
    rcases eq_or_ne d c with rfl | hne
    · rw [if_pos rfl] at h
      cases hs : stretch t seg with
      | done r₁ =>
        rw [hs] at h
        cases h
        use placeOf_cons.mpr (.inl ⟨rfl, hs⟩)
        intro r' hr'
        rcases placeOf_cons.mp hr' with ⟨-, hr'⟩ | hr'
        · cases hs.symm.trans hr'
          apply List.suffix_rfl
        · apply List.suffix_of_suffix_length_le hr'.suffix (stretch_suffix hs)
          have hlen := hr'.length
          have hlen' := length_stretch hs
          omega
      | short | mismatch =>
        rw [hs] at h
        obtain ⟨hplace, hfirst⟩ := ih h
        use placeOf_cons.mpr (.inr hplace)
        intro r' hr'
        rcases placeOf_cons.mp hr' with ⟨-, hr'⟩ | hr'
        · cases hs.symm.trans hr'
        · apply hfirst r' hr'
    · rw [if_neg hne] at h
      obtain ⟨hplace, hfirst⟩ := ih h
      use placeOf_cons.mpr (.inr hplace)
      intro r' hr'
      rcases placeOf_cons.mp hr' with ⟨heq, -⟩ | hr'
      · cases hne heq
      · apply hfirst r' hr'

theorem findFirst_none (h : findFirst d seg t = none) :
  ¬PlaceOf d seg t r
  := by
  induction t with
  | nil =>
    intro hplace
    have hlen := hplace.length
    simp at hlen
  | cons c t ih =>
    rw [findFirst] at h
    rw [placeOf_cons]
    rcases eq_or_ne d c with rfl | hne
    · rw [if_pos rfl] at h
      cases hs : stretch t seg with
      | done r₁ =>
        rw [hs] at h
        cases h
      | short | mismatch =>
        rw [hs] at h
        rintro (⟨-, hr⟩ | hr)
        · cases hr
        · apply ih h hr
    · rw [if_neg hne] at h
      rintro (⟨heq, -⟩ | hr)
      · apply hne heq
      · apply ih h hr

/-! ### Where the answer is right -/

/-- The parts of a pattern: what is before the first `*`, and what is behind each one up to the next. -/
def wildParts : List StrChar → List StrChar × List (List StrChar)
  | [] => ([], [])
  | d :: w =>
    let (seg, segs) := wildParts w
    if d = star then ([], seg :: segs) else (d :: seg, segs)

/-- The pattern of parts with a `*` before each. -/
def behindStars (segs : List (List StrChar)) : List StrChar := segs.flatMap (star :: ·)

/-- Each `*` is at the end of the pattern or has a character behind it that stands for itself. -/
def LiteralBehind : List (List StrChar) → Prop
  | [] | [[]] => True
  | [] :: _ :: _ => False
  | (d :: _) :: segs => d ≠ quest ∧ LiteralBehind segs

/-- At a `*`, with the parts behind it: a text that is used up has nothing but `*` before it.  Of a text that
is not, the `*` is the end of the pattern, or there is a character behind it that stands for itself, and the
same holds behind the first place of its part; where the last part stands at the end of the text, that is
its first place. -/
def RightFrom : List (List StrChar) → List StrChar → Prop
  | [], _ => True
  | seg :: segs, [] => ∀ part ∈ seg :: segs, part = []
  | [] :: segs, _ :: _ => segs = []
  | (d :: seg) :: segs, c :: t =>
    d ≠ quest ∧ ∀ r, findFirst d seg (c :: t) = some r →
      if segs = [] then PlaceOf d seg (c :: t) [] → r = [] else RightFrom segs r

/-- The same of a pattern, behind its characters before the first `*`. -/
def Right (t w : List StrChar) : Prop :=
  ∀ r, stretch t (wildParts w).1 = .done r → RightFrom (wildParts w).2 r

/-- The parts make up the pattern, and have no `*`. -/
theorem wildParts_spec (w : List StrChar) :
  w = (wildParts w).1 ++ behindStars (wildParts w).2
    ∧ ∀ seg ∈ (wildParts w).1 :: (wildParts w).2, star ∉ seg
  := by
  induction w with
  | nil =>
    use rfl
    intro seg hseg
    rw [List.mem_singleton.mp hseg]
    apply List.not_mem_nil
  | cons d w ih =>
    obtain ⟨hw, hsegs⟩ := ih
    rw [wildParts]
    rcases eq_or_ne d star with rfl | hd
    · simp only [if_true]
      use congrArg (star :: ·) hw
      intro seg hseg
      rcases List.mem_cons.mp hseg with rfl | hseg
      · apply List.not_mem_nil
      · apply hsegs seg hseg
    · simp only [if_neg hd]
      use congrArg (d :: ·) hw
      intro seg hseg
      rcases List.mem_cons.mp hseg with rfl | hseg
      · apply List.not_mem_cons_of_ne_of_not_mem (Ne.symm hd) (hsegs _ List.mem_cons_self)
      · apply hsegs seg (List.mem_cons_of_mem _ hseg)

/-! ### What patterns mean, part by part -/

/-- A text that matches the end of a pattern is at its end. -/
theorem glob_nil : Glob t [] ↔ t = [] := by
  constructor
  · rintro ⟨⟩
    rfl
  · rintro rfl
    apply Glob.nil

/-- A character of the pattern that is not a `*`. -/
theorem glob_one (hd : d ≠ star) :
  Glob t (d :: w) ↔ ∃ c t', t = c :: t' ∧ (d = quest ∨ d = c) ∧ Glob t' w
  := by
  constructor
  · intro h
    cases h with
    | @one c _ t _ _ hmatch ht => use c, t, rfl, hmatch, ht
    | sequence => cases hd rfl
  · rintro ⟨c, t', rfl, hmatch, ht⟩
    apply Glob.one hd hmatch ht

/-- A `*` of the pattern. -/
theorem glob_star : Glob t (star :: w) ↔ ∃ u t', t = u ++ t' ∧ Glob t' w := by
  constructor
  · intro h
    cases h with
    | one hd _ _ => cases hd rfl
    | @sequence u t _ ht => use u, t, rfl, ht
  · rintro ⟨u, t', rfl, ht⟩
    apply Glob.sequence u ht

/-- The characters before a `*`. -/
theorem glob_stretch (hseg : star ∉ seg) (rest : List StrChar) :
  Glob t (seg ++ rest) ↔ ∃ r, stretch t seg = .done r ∧ Glob r rest
  := by
  induction seg generalizing t with
  | nil => cases t <;> simp [stretch]
  | cons d seg ih =>
    obtain ⟨hd, hseg⟩ := not_or.mp (mt List.mem_cons.mpr hseg)
    rw [List.cons_append, glob_one (Ne.symm hd)]
    cases t with
    | nil => simp [stretch]
    | cons c t =>
      rw [stretch]
      rcases em (d = quest ∨ d = c) with hmatch | hmatch
      · rw [if_pos hmatch, ← ih hseg]
        constructor
        · rintro ⟨_, _, ⟨⟩, -, h⟩
          apply h
        · intro h
          use c, t, rfl, hmatch, h
      · rw [if_neg hmatch]
        constructor
        · rintro ⟨_, _, ⟨⟩, h, -⟩
          cases hmatch h
        · rintro ⟨_, ⟨⟩, _⟩

/-- A part behind a `*` whose first character stands for itself: it stands somewhere in the text. -/
theorem glob_place (hd : d ≠ star) (hq : d ≠ quest) (hseg : star ∉ seg) (rest : List StrChar) :
  Glob t (star :: d :: (seg ++ rest)) ↔ ∃ r, PlaceOf d seg t r ∧ Glob r rest
  := by
  rw [glob_star]
  constructor
  · rintro ⟨u, t', rfl, h⟩
    obtain ⟨c, t', rfl, hmatch, htail⟩ := (glob_one hd).mp h
    obtain rfl := hmatch.resolve_left hq
    obtain ⟨r, hr, hrest⟩ := (glob_stretch hseg rest).mp htail
    use r, ⟨u, t', rfl, hr⟩, hrest
  · rintro ⟨r, ⟨u, t', rfl, hr⟩, h⟩
    use u, d :: t', rfl
    apply Glob.one hd (.inr rfl) ((glob_stretch hseg rest).mpr ⟨r, hr, h⟩)

/-- Before another `*` the first place is as good as any. -/
theorem glob_find (hd : d ≠ star) (hq : d ≠ quest) (hseg : star ∉ seg) (w : List StrChar) :
  Glob t (star :: d :: (seg ++ star :: w))
    ↔ ∃ r, findFirst d seg t = some r ∧ Glob r (star :: w)
  := by
  rw [glob_place hd hq hseg]
  constructor
  · rintro ⟨r, hplace, h⟩
    cases hf : findFirst d seg t with
    | none => cases findFirst_none hf hplace
    | some r' =>
      obtain ⟨u, rfl⟩ := (findFirst_some hf).2 r hplace
      obtain ⟨u', t', rfl, ht⟩ := glob_star.mp h
      use u ++ (u' ++ t'), rfl, glob_star.mpr ⟨u ++ u', t', (List.append_assoc _ _ _).symm, ht⟩
  · rintro ⟨r, hf, h⟩
    use r, (findFirst_some hf).1, h

/-- The empty text matches nothing but `*`. -/
theorem glob_behindStars_nil {segs : List (List StrChar)} (hsegs : ∀ seg ∈ segs, star ∉ seg) :
  Glob [] (behindStars segs) ↔ ∀ seg ∈ segs, seg = []
  := by
  induction segs with
  | nil => simp [behindStars, Glob.nil]
  | cons seg segs ih =>
    have hcons : Glob [] (behindStars (seg :: segs)) ↔ Glob [] (seg ++ behindStars segs) := by
      apply Iff.trans glob_star
      constructor
      · rintro ⟨u, t', ht, h⟩
        obtain ⟨-, rfl⟩ := List.append_eq_nil_iff.mp ht.symm
        apply h
      · intro h
        use [], [], rfl, h
    rw [hcons, glob_stretch (hsegs seg List.mem_cons_self), List.forall_mem_cons,
      ← ih fun seg hseg => hsegs seg (List.mem_cons_of_mem _ hseg)]
    cases seg <;> simp [stretch]

/-! ### The loop -/

open Loop (Returns)

variable {fb : Option (List StrChar × List StrChar)} {b : Bool}

/-- The loop on the characters before a `*`. -/
theorem wildMatch_stretch (fb : Option (List StrChar × List StrChar)) (hseg : star ∉ seg)
    (rest : List StrChar) :
  match stretch t seg with
  | .done r => Returns wildMatchStep ⟨r, rest, fb⟩ b → Returns wildMatchStep ⟨t, seg ++ rest, fb⟩ b
  | .short => Returns wildMatchStep ⟨t, seg ++ rest, fb⟩ false
  | .mismatch => match fb with
    | none => Returns wildMatchStep ⟨t, seg ++ rest, fb⟩ false
    | some (src, wild) =>
      Returns wildMatchStep ⟨src, wild, none⟩ b → Returns wildMatchStep ⟨t, seg ++ rest, fb⟩ b
  := by
  induction seg generalizing t with
  | nil => cases t <;> exact id
  | cons d seg ih =>
    obtain ⟨hd, hseg⟩ := not_or.mp (mt List.mem_cons.mpr hseg)
    cases t with
    | nil =>
      apply Returns.done
      simp only [wildMatchStep, List.cons_append, Ne.symm hd, decide_false]
    | cons c t =>
      rw [stretch]
      rcases em (d = quest ∨ d = c) with hmatch | hmatch
      · have hstep : wildMatchStep ⟨c :: t, d :: seg ++ rest, fb⟩ = .inl ⟨t, seg ++ rest, fb⟩ := by
          simp only [wildMatchStep, List.cons_append, if_neg (Ne.symm hd)]
          rw [if_neg]
          rintro ⟨hq, hc⟩
          rcases hmatch with rfl | rfl
          · apply hq rfl
          · apply hc rfl
        rw [if_pos hmatch]
        have ih := ih (t := t) hseg
        cases hs : stretch t seg with
        | done r =>
          rw [hs] at ih
          intro h
          apply Returns.next hstep (ih h)
        | short =>
          rw [hs] at ih
          apply Returns.next hstep ih
        | mismatch =>
          rw [hs] at ih
          cases fb with
          | none => apply Returns.next hstep ih
          | some fb =>
            intro h
            apply Returns.next hstep (ih h)
      · have hne : d ≠ quest ∧ c ≠ d := ⟨fun h => hmatch (.inl h), fun h => hmatch (.inr h.symm)⟩
        rw [if_neg hmatch]
        cases fb with
        | none =>
          apply Returns.done
          simp only [wildMatchStep, List.cons_append, if_neg (Ne.symm hd), if_pos hne]
        | some fb =>
          intro h
          apply Returns.next _ h
          simp only [wildMatchStep, List.cons_append, if_neg (Ne.symm hd), if_pos hne]

/-- The loop that goes on to a character. -/
theorem wildSkip_spec {c : StrChar} :
  match wildSkip d c t with
  | some r => ∃ u, c :: t = u ++ d :: r ∧ d ∉ u
  | none => d ∉ c :: t
  := by
  induction t generalizing c with
  | nil =>
    rw [wildSkip]
    rcases eq_or_ne d c with rfl | hne
    · rw [if_pos rfl]
      use [], rfl
      apply List.not_mem_nil
    · rw [if_neg hne]
      apply mt List.mem_singleton.mp hne
  | cons c' t ih =>
    rw [wildSkip]
    rcases eq_or_ne d c with rfl | hne
    · rw [if_pos rfl]
      use [], rfl
      apply List.not_mem_nil
    · rw [if_neg hne]
      have ih := ih (c := c')
      cases hs : wildSkip d c' t with
      | some r =>
        rw [hs] at ih
        obtain ⟨u, hu, hd⟩ := ih
        use c :: u
        constructor
        · rw [hu, List.cons_append]
        · apply List.not_mem_cons_of_ne_of_not_mem hne hd
      | none =>
        rw [hs] at ih
        apply List.not_mem_cons_of_ne_of_not_mem hne ih

theorem findFirst_skip (seg : List StrChar) {u : List StrChar} (hu : d ∉ u) (t : List StrChar) :
  findFirst d seg (u ++ t) = findFirst d seg t
  := by
  induction u with
  | nil => rfl
  | cons c u ih =>
    obtain ⟨hne, hu⟩ := not_or.mp (mt List.mem_cons.mpr hu)
    rw [List.cons_append, findFirst, if_neg hne, ih hu]

/-- The turn at a `*`. -/
theorem wildMatchStep_star (c d : StrChar) (t w : List StrChar)
    (fb : Option (List StrChar × List StrChar)) :
  wildMatchStep ⟨c :: t, star :: d :: w, fb⟩ = match wildSkip d c t with
    | none => .inr false
    | some t' => .inl ⟨t', w, some (t, star :: d :: w)⟩
  := by
  rw [wildMatchStep]
  apply if_pos rfl

/-- The loop from a `*` on comes to what is behind the first place, or says no when there is none. -/
theorem wildMatch_find (hseg : star ∉ seg) (rest : List StrChar) (n : Nat) :
  ∀ (c : StrChar) (t : List StrChar) (fb : Option (List StrChar × List StrChar)), t.length < n →
    match findFirst d seg (c :: t) with
    | some r => ∃ fb', ∀ b, Returns wildMatchStep ⟨r, rest, fb'⟩ b →
        Returns wildMatchStep ⟨c :: t, star :: d :: (seg ++ rest), fb⟩ b
    | none => Returns wildMatchStep ⟨c :: t, star :: d :: (seg ++ rest), fb⟩ false
  := by
  induction n with
  | zero =>
    intro c t fb hn
    cases hn
  | succ n ih =>
    intro c t fb hn
    have hskip := wildSkip_spec (d := d) (c := c) (t := t)
    have hstep := wildMatchStep_star c d t (seg ++ rest) fb
    cases hs : wildSkip d c t with
    | none =>
      rw [hs] at hskip hstep
      have hnone := findFirst_skip seg hskip []
      rw [List.append_nil] at hnone
      rw [hnone]
      apply Returns.done hstep
    | some r =>
      rw [hs] at hskip hstep
      obtain ⟨u, hu, hd⟩ := hskip
      have hfind : findFirst d seg (c :: t) = findFirst d seg (d :: r) := by
        rw [hu, findFirst_skip seg hd]
      have hstretch := fun b => wildMatch_stretch (t := r) (b := b)
        (some (t, star :: d :: (seg ++ rest))) hseg rest
      cases hr : stretch r seg with
      | done r' =>
        rw [hfind, findFirst, if_pos rfl, hr]
        rw [hr] at hstretch
        use some (t, star :: d :: (seg ++ rest))
        intro b hb
        apply Returns.next hstep (hstretch b hb)
      | short =>
        have hnone : findFirst d seg r = none := by
          apply Option.eq_none_iff_forall_ne_some.mpr
          intro r' hr'
          have hlen := (findFirst_some hr').1.length
          have hshort := length_lt_of_short hr
          omega
        rw [hfind, findFirst, if_pos rfl, hr]
        rw [hr] at hstretch
        simp only [hnone]
        apply Returns.next hstep (hstretch false)
      | mismatch =>
        -- the fall back: the `*` again, one character further
        have hfind' : findFirst d seg (c :: t) = findFirst d seg t := by
          rcases u with - | ⟨c', u⟩
          · cases hu
            rw [findFirst, if_pos rfl, hr]
          · cases hu
            rw [findFirst, if_neg (List.ne_of_not_mem_cons hd)]
        rcases t with - | ⟨c', t⟩
        · rcases u with - | ⟨c', - | ⟨c'', u⟩⟩
          · cases hu
            cases seg <;> cases hr
          · cases hu
          · cases hu
        · rw [hr] at hstretch
          rw [hfind']
          have hrest := ih c' t none (by simpa using hn)
          cases hf : findFirst d seg (c' :: t) with
          | some r' =>
            rw [hf] at hrest
            obtain ⟨fb', hb⟩ := hrest
            use fb'
            intro b hr'
            apply Returns.next hstep (hstretch b (hb b hr'))
          | none =>
            rw [hf] at hrest
            apply Returns.next hstep (hstretch false hrest)

/-- The loop at a `*`, or at the end of the pattern, comes to an end.  It says whether the text matches where
that is right, and only there when each `*` has a character behind it that stands for itself. -/
theorem wildMatch_behindStars (n : Nat) :
  ∀ (segs : List (List StrChar)) (t : List StrChar) (fb : Option (List StrChar × List StrChar)),
    segs.length < n → (∀ seg ∈ segs, star ∉ seg) →
    ∃ b, Returns wildMatchStep ⟨t, behindStars segs, fb⟩ b ∧
      (RightFrom segs t → (b = true ↔ Glob t (behindStars segs))) ∧
      (LiteralBehind segs → (b = true ↔ Glob t (behindStars segs)) → RightFrom segs t)
  := by
  induction n with
  | zero =>
    intro segs t fb hn
    cases hn
  | succ n ih =>
    intro segs t fb hn hsegs
    match segs, t with
    | [], t =>
      use t = []
      have hiff : decide (t = []) = true ↔ Glob t [] := by rw [decide_eq_true_iff, glob_nil]
      constructor
      · cases t <;> exact .done rfl
      · use fun _ => hiff, fun _ _ => trivial
    | seg :: segs, [] =>
      use true, .done rfl
      rw [glob_behindStars_nil hsegs]
      use fun h => ⟨fun _ => h, fun _ => rfl⟩, fun _ h => h.mp rfl
    | [[]], c :: t =>
      have hglob : Glob (c :: t) (behindStars [[]]) := glob_star.mpr ⟨c :: t, [], by simp, Glob.nil⟩
      use true, .done rfl, fun _ => ⟨fun _ => hglob, fun _ => rfl⟩, fun _ _ => rfl
    | [] :: seg :: segs, c :: t =>
      -- the second `*` is looked for as a character
      have hseg := hsegs seg (List.mem_cons_of_mem _ List.mem_cons_self)
      have hrun := wildMatch_find (d := star) hseg (behindStars segs) (t.length + 1) c t fb (Nat.lt_succ_self _)
      have hwrong : ¬RightFrom ([] :: seg :: segs) (c :: t) := List.cons_ne_nil _ _
      cases hf : findFirst star seg (c :: t) with
      | none =>
        rw [hf] at hrun
        use false, hrun, fun h => absurd h hwrong, fun h => False.elim h
      | some r =>
        rw [hf] at hrun
        obtain ⟨fb', hb⟩ := hrun
        obtain ⟨b, hret, -⟩ := ih segs r fb' (by simp only [List.length_cons] at hn; omega)
          fun seg hseg => hsegs seg (List.mem_cons_of_mem _ (List.mem_cons_of_mem _ hseg))
        use b, hb b hret, fun h => absurd h hwrong, fun h => False.elim h
    | (d :: seg) :: segs, c :: t =>
      obtain ⟨hd, hseg⟩ := not_or.mp (mt List.mem_cons.mpr (hsegs _ List.mem_cons_self))
      have hrest := fun seg hseg => hsegs seg (List.mem_cons_of_mem _ hseg)
      have hrun := wildMatch_find (d := d) hseg (behindStars segs) (t.length + 1) c t fb (Nat.lt_succ_self _)
      have hplace (hq : d ≠ quest) := glob_place (t := c :: t) (Ne.symm hd) hq hseg (behindStars segs)
      cases hf : findFirst d seg (c :: t) with
      | none =>
        rw [hf] at hrun
        use false, hrun
        constructor
        · rintro ⟨hq, -⟩
          apply iff_of_false Bool.false_ne_true
          intro h
          obtain ⟨r, hr, -⟩ := (hplace hq).mp h
          apply findFirst_none hf hr
        · rintro ⟨hq, -⟩ -
          use hq
          intro r hr
          cases hf.symm.trans hr
      | some r =>
        rw [hf] at hrun
        obtain ⟨fb', hb⟩ := hrun
        obtain ⟨b, hret, hright, hwrong⟩ := ih segs r fb' (by simpa using hn) hrest
        use b, hb b hret
        -- what is left behind the first place decides
        have hglob (hq : d ≠ quest) (hne : segs ≠ []) :
            Glob (c :: t) (behindStars ((d :: seg) :: segs)) ↔ Glob r (behindStars segs) := by
          obtain ⟨seg', segs, rfl⟩ := List.exists_cons_of_ne_nil hne
          apply (glob_find (Ne.symm hd) hq hseg _).trans
          rw [hf]
          simp only [Option.some.injEq, exists_eq_left']
          rfl
        have hlast (hq : d ≠ quest) (hnil : segs = []) :
            (b = true ↔ Glob (c :: t) (behindStars ((d :: seg) :: segs)))
              ↔ (PlaceOf d seg (c :: t) [] → r = []) := by
          subst hnil
          have hend : Glob (c :: t) (behindStars [d :: seg]) ↔ PlaceOf d seg (c :: t) [] := by
            apply (hplace hq).trans
            simp only [behindStars, List.flatMap_nil, glob_nil, exists_eq_right]
          have hb : b = true ↔ r = [] := (hright trivial).trans glob_nil
          rw [hend, hb]
          constructor
          · exact Iff.mpr
          · intro h
            use fun hr => hr ▸ (findFirst_some hf).1, h
        rcases em (segs = []) with hnil | hne
        · constructor
          · rintro ⟨hq, h⟩
            have h := h r hf
            rw [if_pos hnil] at h
            apply (hlast hq hnil).mpr h
          · rintro ⟨hq, -⟩ h
            use hq
            intro r' hr'
            cases hf.symm.trans hr'
            rw [if_pos hnil]
            apply (hlast hq hnil).mp h
        · constructor
          · rintro ⟨hq, h⟩
            have h := h r hf
            rw [if_neg hne] at h
            rw [hglob hq hne]
            apply hright h
          · rintro ⟨hq, hlit⟩ h
            use hq
            intro r' hr'
            cases hf.symm.trans hr'
            rw [if_neg hne]
            apply hwrong hlit
            rw [← hglob hq hne]
            apply h

/-- `WildMatch` comes to an end.  It says whether the text matches where that is right, and only there when
each `*` is at the end of the pattern or has a character behind it that stands for itself. -/
theorem wildMatch_glob (t w : List StrChar) :
  ∃ n b, (∀ fuel ≥ n, wildMatch fuel t w = some b) ∧
    (Right t w → (b = true ↔ Glob t w)) ∧
    (LiteralBehind (wildParts w).2 → (b = true ↔ Glob t w) → Right t w)
  := by
  obtain ⟨hw, hparts⟩ := wildParts_spec w
  obtain ⟨hseg, hsegs⟩ := List.forall_mem_cons.mp hparts
  have hrun := fun b => wildMatch_stretch (t := t) (b := b) none hseg (behindStars (wildParts w).2)
  have hglob := glob_stretch (t := t) hseg (behindStars (wildParts w).2)
  have hfuel {b : Bool} (h : Returns wildMatchStep ⟨t, w, none⟩ b) :
      ∃ n, ∀ fuel ≥ n, wildMatch fuel t w = some b := by
    obtain ⟨n, hn⟩ := h
    use n, fun fuel hfuel => Loop.run_mono hn hfuel
  rw [← hw] at hrun hglob
  cases hs : stretch t (wildParts w).1 with
  | done r =>
    obtain ⟨b, hret, hright, hwrong⟩ := wildMatch_behindStars _ (wildParts w).2 r none (Nat.lt_succ_self _) hsegs
    rw [hs] at hrun hglob
    obtain ⟨n, hn⟩ := hfuel (hrun b hret)
    have hglob : Glob t w ↔ Glob r (behindStars (wildParts w).2) := by
      rw [hglob]
      simp
    use n, b, hn
    rw [hglob]
    constructor
    · intro h
      apply hright (h r hs)
    · intro hlit h r' hr'
      cases hs.symm.trans hr'
      apply hwrong hlit h
  | short | mismatch =>
    rw [hs] at hrun hglob
    obtain ⟨n, hn⟩ := hfuel (hrun false)
    use n, false, hn
    constructor
    · intro _
      rw [hglob]
      simp
    · intro _ _ r hr
      cases hs.symm.trans hr

/-- The text `a` does not match `a*b`, and is said to. -/
theorem not_wildMatch_glob :
  (∀ fuel, wildMatch (fuel + 2) [⟨0x61, by decide⟩] [⟨0x61, by decide⟩, star, ⟨0x62, by decide⟩]
      = some true)
    ∧ ¬Glob [⟨0x61, by decide⟩] [⟨0x61, by decide⟩, star, ⟨0x62, by decide⟩]
  := by
  constructor
  · intro fuel
    rfl
  · intro h
    have hlen := h.length
    revert hlen
    decide

end Polyc
