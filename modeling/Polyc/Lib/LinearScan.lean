import Mathlib.Data.List.Basic
import Mathlib.Data.List.Nodup

/-!
# Linear scan

Ranges of positions are placed in slots one after another: a range goes into the first slot
whose last range has ended, and into a fresh slot when there is none.  Of two ranges in one
slot the earlier ends before the later begins, in whatever order the ranges come.
-/

/-- A range of positions. -/
structure PosRange where
  first : ℕ
  last : ℕ
  le : first ≤ last

/-- A slot, with the end of the last range in it. -/
structure ScanSlot (N : Type*) where
  name : N
  last : ℕ

namespace LinearScan

variable {N : Type*}

/-- Place a range: the name of its slot, and the slots after it. -/
def place (fresh : N) (r : PosRange) : List (ScanSlot N) → N × List (ScanSlot N)
  | [] => (fresh, [⟨fresh, r.last⟩])
  | s :: ss =>
    if s.last < r.first then (s.name, ⟨s.name, r.last⟩ :: ss)
    else ((place fresh r ss).1, s :: (place fresh r ss).2)

/-- Place ranges in order; the slot that is made when there are `n` of them is `fresh n`. -/
def scan (fresh : ℕ → N) : List (ScanSlot N) → List PosRange → List N × List (ScanSlot N)
  | slots, [] => ([], slots)
  | slots, r :: rs =>
    ((place (fresh slots.length) r slots).1
        :: (scan fresh (place (fresh slots.length) r slots).2 rs).1,
      (scan fresh (place (fresh slots.length) r slots).2 rs).2)

/-- Every range that has been placed ends by the end of the last range in its slot. -/
def Covers (slots : List (ScanSlot N)) (placed : List (N × PosRange)) : Prop :=
  ∀ a ∈ placed, ∃ s ∈ slots, s.name = a.1 ∧ a.2.last ≤ s.last

/-- The range goes into a slot of the list, or into the fresh one after them. -/
theorem place_cases (fresh : N) (r : PosRange) (slots : List (ScanSlot N)) :
  (∃ pre s post, slots = pre ++ s :: post ∧ s.last < r.first
      ∧ place fresh r slots = (s.name, pre ++ ⟨s.name, r.last⟩ :: post))
    ∨ (∀ s ∈ slots, r.first ≤ s.last)
      ∧ place fresh r slots = (fresh, slots ++ [⟨fresh, r.last⟩])
  := by
  induction slots with
  | nil =>
    right
    constructor
    · intro s hs
      cases hs
    · rfl
  | cons t ts ih =>
    unfold place
    split
    · rename_i hlt
      left
      use [], t, ts, rfl, hlt
      rfl
    · rename_i hlt
      rcases ih with ⟨pre, s, post, rfl, hs, hplace⟩ | ⟨hall, hplace⟩
      · left
        use t :: pre, s, post, rfl, hs
        rw [hplace]
        rfl
      · right
        rw [hplace]
        constructor
        · intro s hs
          rcases List.mem_cons.mp hs with rfl | hs
          · omega
          · apply hall s hs
        · rfl

/-- Slots with different names keep them, and only a fresh slot is new. -/
theorem place_names (fresh : N) (r : PosRange) (slots : List (ScanSlot N)) :
  (place fresh r slots).2.map ScanSlot.name = slots.map ScanSlot.name
    ∨ (place fresh r slots).2.map ScanSlot.name = slots.map ScanSlot.name ++ [fresh]
  := by
  rcases place_cases fresh r slots with ⟨pre, s, post, rfl, -, hplace⟩ | ⟨-, hplace⟩
  · left
    rw [hplace]
    simp
  · right
    rw [hplace]
    simp

/-- A range is placed after the ranges in its slot, and the slots cover it with them. -/
theorem Covers.place
    {slots : List (ScanSlot N)} {placed : List (N × PosRange)} (h : Covers slots placed)
    (hnodup : (slots.map ScanSlot.name).Nodup) {fresh : N}
    (hfresh : fresh ∉ slots.map ScanSlot.name) (r : PosRange) :
  (∀ a ∈ placed, a.1 = (LinearScan.place fresh r slots).1 → a.2.last < r.first)
    ∧ Covers (LinearScan.place fresh r slots).2
        (placed ++ [((LinearScan.place fresh r slots).1, r)])
  := by
  rcases place_cases fresh r slots with ⟨pre, s, post, rfl, hs, hplace⟩ | ⟨-, hplace⟩
  · rw [hplace]
    have hend : ∀ a ∈ placed, a.1 = s.name → a.2.last ≤ s.last := by
      intro a ha hname
      obtain ⟨t, ht, htn, hle⟩ := h a ha
      have hts : t = s := by
        apply List.inj_on_of_nodup_map hnodup ht _ (htn.trans hname)
        simp
      rw [← hts]
      apply hle
    constructor
    · intro a ha hname
      have hle := hend a ha hname
      omega
    · intro a ha
      have hnew : (⟨s.name, r.last⟩ : ScanSlot N) ∈ pre ++ ⟨s.name, r.last⟩ :: post := by simp
      rcases List.mem_append.mp ha with ha | ha
      · obtain ⟨t, ht, htn, hle⟩ := h a ha
        rw [List.mem_append, List.mem_cons] at ht
        rcases ht with ht | rfl | ht
        · use t, List.mem_append_left _ ht
        · have hr := r.le
          refine ⟨_, hnew, htn, ?_⟩
          dsimp only
          omega
        · use t, List.mem_append_right _ (List.mem_cons_of_mem _ ht)
      · obtain rfl := List.mem_singleton.mp ha
        exact ⟨_, hnew, rfl, Nat.le_refl _⟩
  · rw [hplace]
    constructor
    · intro a ha hname
      obtain ⟨t, ht, htn, -⟩ := h a ha
      have hmem : t.name ∈ slots.map ScanSlot.name := List.mem_map_of_mem ht
      rw [htn.trans hname] at hmem
      contradiction
    · intro a ha
      rcases List.mem_append.mp ha with ha | ha
      · obtain ⟨t, ht, htn, hle⟩ := h a ha
        use t, List.mem_append_left _ ht
      · obtain rfl := List.mem_singleton.mp ha
        exact ⟨_, List.mem_append_right _ (List.mem_singleton_self _), rfl, Nat.le_refl _⟩

/-- The slots have the fresh names, in order. -/
theorem place_fresh_names
    {fresh : ℕ → N} {r : PosRange} {slots : List (ScanSlot N)}
    (hnames : slots.map ScanSlot.name = (List.range slots.length).map fresh) :
  (place (fresh slots.length) r slots).2.map ScanSlot.name
    = (List.range (place (fresh slots.length) r slots).2.length).map fresh
  := by
  rcases place_names (fresh slots.length) r slots with h | h
  · have hlength := congrArg List.length h
    rw [List.length_map, List.length_map] at hlength
    rw [h, hnames, hlength]
  · have hlength := congrArg List.length h
    rw [List.length_map, List.length_append, List.length_map, List.length_singleton] at hlength
    rw [h, hnames, hlength, List.range_succ, List.map_append]
    rfl

/-- A name that a scan gives is fresh for some number or was there before. -/
theorem mem_scan
    {fresh : ℕ → N} {slots : List (ScanSlot N)} {rs : List PosRange} {n : N}
    (h : n ∈ (scan fresh slots rs).1) :
  n ∈ slots.map ScanSlot.name ∨ ∃ k, n = fresh k
  := by
  induction rs generalizing slots with
  | nil => cases h
  | cons r rs ih =>
    have hplaced : (place (fresh slots.length) r slots).1 ∈ slots.map ScanSlot.name
        ∨ ∃ k, (place (fresh slots.length) r slots).1 = fresh k := by
      rcases place_cases (fresh slots.length) r slots with
        ⟨pre, s, post, rfl, -, hplace⟩ | ⟨-, hplace⟩
      · left
        rw [hplace]
        simp
      · right
        rw [hplace]
        use slots.length
    rcases List.mem_cons.mp h with rfl | h
    · apply hplaced
    · rcases ih h with hmem | hk
      · rcases place_names (fresh slots.length) r slots with hn | hn
        · rw [hn] at hmem
          left
          apply hmem
        · rw [hn, List.mem_append, List.mem_singleton] at hmem
          rcases hmem with hmem | rfl
          · left
            apply hmem
          · right
            use slots.length
      · right
        apply hk

/-- The order in which ranges in one slot follow each other. -/
def Follows (a b : N × PosRange) : Prop := a.1 = b.1 → a.2.last < b.2.first

/-- Ranges that are placed follow those in their slots, from any slots on. -/
theorem pairwise_scan
    {fresh : ℕ → N} (hfresh : Function.Injective fresh) {slots : List (ScanSlot N)}
    {placed : List (N × PosRange)} (h : Covers slots placed)
    (hnames : slots.map ScanSlot.name = (List.range slots.length).map fresh)
    (hplaced : placed.Pairwise Follows) (rs : List PosRange) :
  (placed ++ (scan fresh slots rs).1.zip rs).Pairwise Follows
  := by
  induction rs generalizing slots placed with
  | nil =>
    rw [List.zip_nil_right, List.append_nil]
    apply hplaced
  | cons r rs ih =>
    have hnodup : (slots.map ScanSlot.name).Nodup := by
      rw [hnames]
      apply List.nodup_range.map hfresh
    have hnew : fresh slots.length ∉ slots.map ScanSlot.name := by
      rw [hnames]
      intro hmem
      obtain ⟨i, hi, he⟩ := List.mem_map.mp hmem
      rw [List.mem_range, hfresh he] at hi
      omega
    obtain ⟨hfollow, hcover⟩ := h.place hnodup hnew r
    have hpair : (placed ++ [((LinearScan.place (fresh slots.length) r slots).1, r)]).Pairwise
        Follows := by
      rw [List.pairwise_append]
      refine ⟨hplaced, List.pairwise_singleton _ _, ?_⟩
      intro a ha b hb hname
      obtain rfl := List.mem_singleton.mp hb
      apply hfollow a ha hname
    have hrest := ih hcover (place_fresh_names hnames) hpair
    rw [List.append_assoc] at hrest
    apply hrest

/-- Of two ranges in one slot the earlier ends before the later begins. -/
theorem scan_pairwise
    {fresh : ℕ → N} (hfresh : Function.Injective fresh) (rs : List PosRange) :
  ((scan fresh [] rs).1.zip rs).Pairwise Follows
  := by
  have hcover : Covers ([] : List (ScanSlot N)) [] := by
    intro a ha
    cases ha
  apply pairwise_scan hfresh hcover rfl List.Pairwise.nil

/-- Two places of ranges in one slot: the range of the first ends before that of the
second. -/
theorem lt_of_scan
    {fresh : ℕ → N} (hfresh : Function.Injective fresh) {rs : List PosRange} {i j : ℕ}
    (hij : i < j) {a b : PosRange} {n : N} (ha : rs[i]? = some a) (hb : rs[j]? = some b)
    (hna : (scan fresh [] rs).1[i]? = some n) (hnb : (scan fresh [] rs).1[j]? = some n) :
  a.last < b.first
  := by
  have hzip : ∀ {k : ℕ} {r : PosRange}, rs[k]? = some r → (scan fresh [] rs).1[k]? = some n →
      ((scan fresh [] rs).1.zip rs)[k]? = some (n, r) := by
    intro k r hr hn
    exact List.getElem?_zip_eq_some.mpr ⟨hn, hr⟩
  obtain ⟨hi, hgi⟩ := List.getElem?_eq_some_iff.mp (hzip ha hna)
  obtain ⟨hj, hgj⟩ := List.getElem?_eq_some_iff.mp (hzip hb hnb)
  have hlt := (List.pairwise_iff_getElem.mp (scan_pairwise hfresh rs)) i j hi hj hij
  rw [hgi, hgj] at hlt
  apply hlt rfl

end LinearScan
