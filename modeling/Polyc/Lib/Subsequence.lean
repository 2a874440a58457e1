import Mathlib.Data.List.Infix
import Mathlib.Data.Nat.Find
import Mathlib.Tactic.Use

/-!
# Subsequences from the left

Where the first occurrence of a list as a subsequence of another one ends, as it is found by taking each
item where it comes first, and where the last one before that end begins.
-/

namespace Subsequence

variable {α : Type*}

/-- The first `e` items of a list have another one as a subsequence, and fewer have not. -/
structure Ends (p l : List α) (e : Nat) : Prop where
  le : e ≤ l.length
  sublist : p.Sublist (l.take e)
  first : ∀ e' < e, ¬p.Sublist (l.take e')

variable {p l : List α} {e : Nat} {a b : α}

/-- Nothing is found at once. -/
theorem ends_nil_iff :
  Ends [] l e ↔ e = 0
  := by
  constructor
  · intro h
    by_contra hne
    apply h.first 0 (Nat.pos_of_ne_zero hne)
    apply List.nil_sublist
  · rintro rfl
    constructor
    · apply Nat.zero_le
    · apply List.nil_sublist
    · intro e' he'
      cases he'

/-- What is not empty ends behind an item. -/
theorem Ends.pos (h : Ends (a :: p) l e) :
  0 < e
  := by
  by_contra hne
  obtain rfl : e = 0 := by omega
  cases h.sublist

theorem not_ends_cons_nil :
  ¬Ends (a :: p) [] e
  := by
  intro h
  have hpos := h.pos
  have hle := h.le
  rw [List.length_nil] at hle
  omega

/-- An item that is the next one is taken. -/
theorem ends_cons_self_iff :
  Ends (a :: p) (a :: l) (e + 1) ↔ Ends p l e
  := by
  constructor
  · intro h
    constructor
    · apply Nat.le_of_succ_le_succ h.le
    · apply List.cons_sublist_cons.mp h.sublist
    · intro e' he' hsub
      apply h.first (e' + 1) (Nat.succ_lt_succ he')
      apply List.cons_sublist_cons.mpr hsub
  · intro h
    constructor
    · apply Nat.succ_le_succ h.le
    · apply List.cons_sublist_cons.mpr h.sublist
    · intro e' he' hsub
      cases e' with
      | zero => cases hsub
      | succ e' =>
        apply h.first e' (Nat.lt_of_succ_lt_succ he')
        apply List.cons_sublist_cons.mp hsub

/-- An item in front that is not the first one of a list does not help it. -/
theorem cons_sublist_cons_of_ne (hne : b ≠ a) :
  (a :: p).Sublist (b :: l) ↔ (a :: p).Sublist l
  := by
  constructor
  · intro h
    cases h with
    | cons _ h => apply h
    | cons_cons => cases hne rfl
  · apply List.Sublist.cons

/-- An item that is not the next one is passed over. -/
theorem ends_cons_of_ne_iff (hne : b ≠ a) :
  Ends (a :: p) (b :: l) (e + 1) ↔ Ends (a :: p) l e
  := by
  constructor
  · intro h
    constructor
    · apply Nat.le_of_succ_le_succ h.le
    · apply (cons_sublist_cons_of_ne hne).mp h.sublist
    · intro e' he' hsub
      apply h.first (e' + 1) (Nat.succ_lt_succ he')
      apply (cons_sublist_cons_of_ne hne).mpr hsub
  · intro h
    constructor
    · apply Nat.succ_le_succ h.le
    · apply (cons_sublist_cons_of_ne hne).mpr h.sublist
    · intro e' he' hsub
      cases e' with
      | zero => cases hsub
      | succ e' =>
        apply h.first e' (Nat.lt_of_succ_lt_succ he')
        apply (cons_sublist_cons_of_ne hne).mp hsub

/-- A subsequence ends somewhere. -/
theorem exists_ends (h : p.Sublist l) :
  ∃ e, Ends p l e
  := by
  have hex : ∃ e, p.Sublist (l.take e) := by
    use l.length
    rwa [List.take_length]
  classical
  use Nat.find hex
  constructor
  · apply Nat.find_min'
    rwa [List.take_length]
  · apply Nat.find_spec hex
  · intro e' he'
    apply Nat.find_min hex he'

/-- More items have the same subsequences. -/
theorem Ends.sublist_take_iff (h : Ends p l e) {n : Nat} :
  p.Sublist (l.take n) ↔ e ≤ n
  := by
  constructor
  · intro hsub
    by_contra hlt
    apply h.first n (by omega) hsub
  · intro hle
    apply h.sublist.trans
    apply (List.take_prefix_take_left hle).sublist

/-- A window that has a subsequence ends where that does, when it is the first one to end. -/
theorem Ends.window (h : Ends p l e) {s : Nat} (hsub : p.Sublist ((l.take e).drop s)) :
  Ends p ((l.take e).drop s) ((l.take e).drop s).length
  := by
  constructor
  · apply le_refl
  · rwa [List.take_length]
  · intro e' he' hsub'
    have hlen : ((l.take e).drop s).length = e - s := by
      rw [List.length_drop, List.length_take, Nat.min_eq_left h.le]
    apply h.first (s + e') (by omega)
    apply hsub'.trans
    rw [List.take_drop, List.take_take, Nat.min_eq_left (by omega)]
    apply List.drop_sublist

/-- From the right the last beginning is found. -/
theorem Ends.reverse (hne : p ≠ []) {k : Nat} (h : Ends p.reverse l.reverse k) :
  p.Sublist (l.drop (l.length - k)) ∧ ∀ s > l.length - k, ¬p.Sublist (l.drop s)
  := by
  constructor
  · have hsub := h.sublist
    rw [List.take_reverse, List.reverse_sublist] at hsub
    apply hsub
  · intro s hs hsub
    have hle := h.le
    rw [List.length_reverse] at hle
    rcases Nat.lt_or_ge s l.length with hlt | hge
    · apply h.first (l.length - s) (by omega)
      rw [List.take_reverse, List.reverse_sublist]
      have hback : l.length - (l.length - s) = s := by omega
      rwa [hback]
    · rw [List.drop_of_length_le hge, List.sublist_nil] at hsub
      apply hne hsub

end Subsequence
