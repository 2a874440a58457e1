import Mathlib.Tactic.Positivity
import Mathlib.Tactic.Ring

/-!
# Blocks of placed items

Items that have a size and an alignment, each at an offset under a key.  A block is a list of
such placements that keeps inside a limit; blocks are put one after the other or over one
another.  Alignments are powers of two, so that the larger of two is a multiple of both.
-/

namespace Blocks

/-! ### Alignments -/

/-- The alignments: the powers of two. -/
def IsAlignment (a : Int) : Prop := ∃ k : Nat, a = 2 ^ k

theorem IsAlignment.pos {a : Int} (h : IsAlignment a) :
  0 < a
  := by
  obtain ⟨k, rfl⟩ := h
  positivity

theorem isAlignment_one : IsAlignment 1 := ⟨0, rfl⟩

/-- Of two alignments the smaller divides the larger. -/
theorem IsAlignment.dvd_of_le {a b : Int} (ha : IsAlignment a) (hb : IsAlignment b)
    (h : a ≤ b) :
  a ∣ b
  := by
  obtain ⟨k, rfl⟩ := ha
  obtain ⟨l, rfl⟩ := hb
  apply pow_dvd_pow
  exact (pow_le_pow_iff_right₀ (by norm_num : (1 : Int) < 2)).1 h

theorem IsAlignment.max {a b : Int} (ha : IsAlignment a) (hb : IsAlignment b) :
  IsAlignment (max a b)
  := by
  rcases le_total a b with h | h
  · rw [max_eq_right h]
    apply hb
  · rw [max_eq_left h]
    apply ha

theorem IsAlignment.dvd_max_left {a b : Int} (ha : IsAlignment a) (hb : IsAlignment b) :
  a ∣ Max.max a b
  := ha.dvd_of_le (ha.max hb) (le_max_left a b)

theorem IsAlignment.dvd_max_right {a b : Int} (ha : IsAlignment a) (hb : IsAlignment b) :
  b ∣ Max.max a b
  := hb.dvd_of_le (ha.max hb) (le_max_right a b)

/-! ### Placements -/

/-- An item at an offset under a key. -/
@[ext] structure Placed (K T : Type*) where
  /-- The key. -/
  key : K
  /-- The item. -/
  item : T
  /-- The offset. -/
  offset : Int
  deriving DecidableEq

variable {K T : Type*}

/-- The keys of some placements. -/
def keys (l : List (Placed K T)) : List K := l.map Placed.key

@[simp] theorem keys_nil : keys ([] : List (Placed K T)) = [] := rfl

@[simp] theorem keys_cons (p : Placed K T) (l : List (Placed K T)) :
  keys (p :: l) = p.key :: keys l
  := rfl

@[simp] theorem keys_append (l l' : List (Placed K T)) :
  keys (l ++ l') = keys l ++ keys l'
  := List.map_append

/-- All placements moved by the same distance. -/
def shift (o : Int) (l : List (Placed K T)) : List (Placed K T) :=
  l.map fun p => { p with offset := p.offset + o }

@[simp] theorem shift_nil (o : Int) : shift o ([] : List (Placed K T)) = [] := rfl

@[simp] theorem shift_cons (o : Int) (p : Placed K T) (l : List (Placed K T)) :
  shift o (p :: l) = { p with offset := p.offset + o } :: shift o l
  := rfl

@[simp] theorem keys_shift (o : Int) (l : List (Placed K T)) :
  keys (shift o l) = keys l
  := by
  rw [keys, shift, List.map_map]
  rfl

/-- Moving by nothing. -/
@[simp] theorem shift_zero (l : List (Placed K T)) :
  shift 0 l = l
  := by
  rw [shift]
  conv_rhs => rw [← List.map_id l]
  apply List.map_congr_left
  intro p _
  rw [Int.add_zero, id]

/-- The items stay the same when placements move. -/
theorem exists_of_mem_shift {o : Int} {l : List (Placed K T)} {p : Placed K T}
    (h : p ∈ shift o l) :
  ∃ q ∈ l, p = { q with offset := q.offset + o }
  := by
  obtain ⟨q, hq, rfl⟩ := List.mem_map.1 h
  exact ⟨q, hq, rfl⟩

/-- A placement under a key, in place of one that is there. -/
def put [DecidableEq K] (p : Placed K T) : List (Placed K T) → List (Placed K T)
  | [] => [p]
  | q :: l => if q.key = p.key then p :: l else q :: put p l

/-- A placement under a new key comes last. -/
theorem put_of_notMem [DecidableEq K] {p : Placed K T} :
  ∀ {l : List (Placed K T)}, p.key ∉ keys l → put p l = l ++ [p]
  | [], _ => rfl
  | q :: l, h => by
      rw [keys_cons, List.mem_cons, not_or] at h
      rw [put, if_neg (Ne.symm h.1), put_of_notMem h.2, List.cons_append]

/-! ### Blocks -/

variable (size align : T → Int) (free : T → Prop)

/-- Two placements do not overlap, unless one of the items is free. -/
def Apart (p q : Placed K T) : Prop :=
  ¬ free p.item → ¬ free q.item →
    p.offset + size p.item ≤ q.offset ∨ q.offset + size q.item ≤ p.offset

/-- A block of placements below a limit, with an alignment that all of them divide. -/
structure Block (limit a : Int) (l : List (Placed K T)) : Prop where
  nonneg : 0 ≤ limit
  alignment : IsAlignment a
  inside : ∀ p ∈ l, 0 ≤ p.offset ∧ p.offset + size p.item ≤ limit
  aligned : ∀ p ∈ l, align p.item ∣ p.offset
  divides : ∀ p ∈ l, align p.item ∣ a
  apart : l.Pairwise (Apart size free)

variable {size align free} {limit a : Int} {l : List (Placed K T)}

/-- The empty block. -/
theorem Block.nil :
  Block size align free 0 1 ([] : List (Placed K T))
  where
  nonneg := le_refl 0
  alignment := isAlignment_one
  inside := by simp
  aligned := by simp
  divides := by simp
  apart := List.Pairwise.nil

/-- The block of one item. -/
theorem Block.single (k : K) (t : T) (hs : 0 ≤ size t) (ha : IsAlignment (align t)) :
  Block size align free (size t) (align t) [⟨k, t, 0⟩]
  where
  nonneg := hs
  alignment := ha
  inside := by
    intro p hp
    rw [List.mem_singleton.1 hp]
    simp
  aligned := by
    intro p hp
    rw [List.mem_singleton.1 hp]
    apply dvd_zero
  divides := by
    intro p hp
    rw [List.mem_singleton.1 hp]
  apart := List.pairwise_singleton _ _

/-- A block goes into a larger one. -/
theorem Block.mono (h : Block size align free limit a l) {limit' a' : Int}
    (hl : limit ≤ limit') (ha : IsAlignment a') (hd : a ∣ a') :
  Block size align free limit' a' l
  where
  nonneg := h.nonneg.trans hl
  alignment := ha
  inside p hp := ⟨(h.inside p hp).1, (h.inside p hp).2.trans hl⟩
  aligned := h.aligned
  divides p hp := (h.divides p hp).trans hd
  apart := h.apart

/-- Placements that move together stay apart. -/
theorem pairwise_shift (o : Int) (h : l.Pairwise (Apart size free)) :
  (shift o l).Pairwise (Apart size free)
  := by
  rw [shift, List.pairwise_map]
  apply h.imp
  intro p q hpq hp hq
  rcases hpq hp hq with h | h
  · left
    show p.offset + o + size p.item ≤ q.offset + o
    omega
  · right
    show q.offset + o + size q.item ≤ p.offset + o
    omega

/-- One block after another. -/
theorem Block.append
    (h : Block size align free limit a l) {n b o : Int} {l' : List (Placed K T)}
    (h' : Block size align free n b l') (ho : limit ≤ o) (hb : b ∣ o) :
  Block size align free (o + n) (max a b) (l ++ shift o l')
  where
  nonneg := by
    have hn := h'.nonneg
    have hlim := h.nonneg
    omega
  alignment := h.alignment.max h'.alignment
  inside := by
    have hn := h'.nonneg
    have hlim := h.nonneg
    intro p hp
    rcases List.mem_append.1 hp with hp | hp
    · have hin := h.inside p hp
      omega
    · obtain ⟨q, hq, rfl⟩ := exists_of_mem_shift hp
      have hin := h'.inside q hq
      show 0 ≤ q.offset + o ∧ q.offset + o + size q.item ≤ o + n
      omega
  aligned := by
    intro p hp
    rcases List.mem_append.1 hp with hp | hp
    · apply h.aligned p hp
    · obtain ⟨q, hq, rfl⟩ := exists_of_mem_shift hp
      exact dvd_add (h'.aligned q hq) ((h'.divides q hq).trans hb)
  divides := by
    intro p hp
    rcases List.mem_append.1 hp with hp | hp
    · exact (h.divides p hp).trans (h.alignment.dvd_max_left h'.alignment)
    · obtain ⟨q, hq, rfl⟩ := exists_of_mem_shift hp
      exact (h'.divides q hq).trans (h.alignment.dvd_max_right h'.alignment)
  apart := by
    rw [List.pairwise_append]
    constructor
    · apply h.apart
    · constructor
      · apply pairwise_shift o h'.apart
      · intro p hp p' hp' _ _
        obtain ⟨q, hq, rfl⟩ := exists_of_mem_shift hp'
        have hin := h.inside p hp
        have hin' := h'.inside q hq
        left
        show p.offset + size p.item ≤ q.offset + o
        omega

/-- One block over another, of items that may overlap. -/
theorem Block.overlay
    (h : Block size align free limit a l) {n b : Int} {l' : List (Placed K T)}
    (h' : Block size align free n b l') (hfree : ∀ p ∈ l ++ l', free p.item) :
  Block size align free (max limit n) (max a b) (l ++ l')
  where
  nonneg := h.nonneg.trans (le_max_left _ _)
  alignment := h.alignment.max h'.alignment
  inside := by
    intro p hp
    rcases List.mem_append.1 hp with hp | hp
    · exact ⟨(h.inside p hp).1, (h.inside p hp).2.trans (le_max_left _ _)⟩
    · exact ⟨(h'.inside p hp).1, (h'.inside p hp).2.trans (le_max_right _ _)⟩
  aligned := by
    intro p hp
    rcases List.mem_append.1 hp with hp | hp
    · apply h.aligned p hp
    · apply h'.aligned p hp
  divides := by
    intro p hp
    rcases List.mem_append.1 hp with hp | hp
    · exact (h.divides p hp).trans (h.alignment.dvd_max_left h'.alignment)
    · exact (h'.divides p hp).trans (h.alignment.dvd_max_right h'.alignment)
  apart := by
    apply List.pairwise_iff_forall_sublist.2
    intro p q hpq hnp
    exact absurd (hfree p (hpq.subset List.mem_cons_self)) hnp

end Blocks
