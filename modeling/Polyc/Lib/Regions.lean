import Mathlib.Algebra.Order.Ring.Nat
import Mathlib.Data.List.Pairwise
import Mathlib.Data.List.Perm.Basic
import Mathlib.Data.List.Perm.Lattice
import Mathlib.Order.Basic
import Polyc.Lib.Heap

/-!
# Regions of a heap

Regions are addresses with lengths.  Some of them are packed when none is empty and they are pairwise
apart; a heap whose blocks are known and packed keeps that over what is allocated and freed.  Pieces tile the
addresses between two ends when each begins where the one before it ends.
-/

namespace Heap

variable {b c r s : Nat × Nat} {l l' : List (Nat × Nat)} {h : Heap}

/-! ### Regions in regions -/

instance (b c : Nat × Nat) : Decidable (Apart b c) := inferInstanceAs (Decidable (_ ∨ _))

theorem Apart.symm (h : Apart b c) :
  Apart c b
  := Or.symm h

instance : Std.Symm Apart := ⟨fun _ _ => Apart.symm⟩

/-- A region lies in another one. -/
def Within (r b : Nat × Nat) : Prop := b.1 ≤ r.1 ∧ r.1 + r.2 ≤ b.1 + b.2

instance (r b : Nat × Nat) : Decidable (Within r b) := inferInstanceAs (Decidable (_ ∧ _))

theorem Within.refl (b : Nat × Nat) :
  Within b b
  := ⟨Nat.le_refl _, Nat.le_refl _⟩

/-- What lies in regions that are apart is apart. -/
theorem Apart.within (h : Apart b c) (hr : Within r b) (hs : Within s c) :
  Apart r s
  := by
  rcases h with h | h
  · left
    apply Nat.le_trans hr.2 (Nat.le_trans h hs.1)
  · right
    apply Nat.le_trans hs.2 (Nat.le_trans h hr.1)

/-- A region that is not empty is not apart from itself. -/
theorem not_apart_self (h : 0 < b.2) :
  ¬Apart b b
  := by
  rw [Apart]
  omega

/-! ### Packed regions -/

/-- Regions that are not empty and do not overlap. -/
structure Packed (l : List (Nat × Nat)) : Prop where
  apart : l.Pairwise Apart
  pos : ∀ b ∈ l, 0 < b.2

theorem Packed.nil :
  Packed []
  := ⟨.nil, fun _ h => absurd h List.not_mem_nil⟩

theorem packed_cons_iff :
  Packed (b :: l) ↔ (∀ c ∈ l, Apart b c) ∧ 0 < b.2 ∧ Packed l
  := by
  constructor
  · intro h
    have hcons := List.pairwise_cons.mp h.apart
    exact ⟨hcons.1, h.pos b List.mem_cons_self, hcons.2, fun c hc => h.pos c (List.mem_cons_of_mem b hc)⟩
  · rintro ⟨hb, hpos, h⟩
    use List.pairwise_cons.mpr ⟨hb, h.apart⟩
    intro c hc
    rcases List.mem_cons.mp hc with rfl | hc
    · apply hpos
    · apply h.pos c hc

/-- The order of packed regions does not matter. -/
theorem Packed.perm (h : Packed l) (hp : l.Perm l') :
  Packed l'
  where
  apart := (hp.pairwise_iff fun hab => hab.symm).mp h.apart
  pos b hb := h.pos b (hp.mem_iff.mpr hb)

/-- The same region is not there twice. -/
theorem Packed.notMem (h : Packed (b :: l)) :
  b ∉ l
  := by
  intro hb
  obtain ⟨hapart, hpos, -⟩ := packed_cons_iff.mp h
  apply not_apart_self hpos (hapart b hb)

/-- Packed regions that meet are the same. -/
theorem Packed.eq_of_not_apart (h : Packed l) (hb : b ∈ l) (hc : c ∈ l) (hbc : ¬Apart b c) :
  b = c
  := by
  by_contra hne
  apply hbc (h.apart.forall hb hc hne)

/-- Packed regions at one address are the same. -/
theorem Packed.eq_of_base (h : Packed l) (hb : b ∈ l) (hc : c ∈ l) (heq : b.1 = c.1) :
  b = c
  := by
  apply h.eq_of_not_apart hb hc
  have hbpos := h.pos b hb
  have hcpos := h.pos c hc
  rw [Apart]
  omega

/-- Packed regions are at different addresses. -/
theorem Packed.nodup_base (h : Packed l) :
  (l.map Prod.fst).Nodup
  := by
  apply List.pairwise_map.mpr
  apply h.apart.imp_of_mem
  intro b c hb hc hbc
  have hbpos := h.pos b hb
  have hcpos := h.pos c hc
  rw [Apart] at hbc
  omega

/-- What one of some owners has, and what the others have. -/
theorem flatMap_perm_eraseIdx {α β : Type*} {owners : List α} {a : α} {i : Nat} (ha : owners[i]? = some a)
    (f : α → List β) :
  (owners.flatMap f).Perm (f a ++ (owners.eraseIdx i).flatMap f)
  := by
  obtain ⟨hi, rfl⟩ := List.getElem?_eq_some_iff.mp ha
  apply (List.getElem_cons_eraseIdx_perm hi).symm.flatMap_right

/-! ### Heaps whose blocks are known -/

/-- The blocks of a heap are those of a list, and packed. -/
structure Has (h : Heap) (l : List (Nat × Nat)) : Prop where
  perm : h.blocks.Perm l
  packed : Packed l

theorem Has.mem (hh : h.Has l) (hb : b ∈ l) :
  b ∈ h.blocks
  := hh.perm.mem_iff.mpr hb

/-- Another order of the blocks. -/
theorem Has.of_perm (hh : h.Has l) (hp : l.Perm l') :
  h.Has l'
  := ⟨hh.perm.trans hp, hh.packed.perm hp⟩

/-- A right answer adds a block. -/
theorem Has.malloc {space align n : Nat} {a : Answer} (hh : h.Has l) (hr : h.Right space align n a)
    (hbase : a.base ≠ 0) (hn : 0 < n) :
  (h.malloc n a).Has ((a.base, n) :: l)
  := by
  constructor
  · rw [Heap.malloc, if_neg hbase]
    apply hh.perm.cons
  · apply packed_cons_iff.mpr
    exact ⟨fun c hc => hr.apart hbase c (hh.mem hc), hn, hh.packed⟩

/-- A block is freed at its address, and the others stay. -/
theorem Has.free (hh : h.Has (b :: l)) :
  ∃ h', h.free b.1 = some h' ∧ h'.Has l ∧ h'.mem = h.mem
  := by
  have hb := hh.mem List.mem_cons_self
  use { h with blocks := h.blocks.filter (·.1 ≠ b.1) }, free_eq hb
  refine ⟨⟨?_, (packed_cons_iff.mp hh.packed).2.2⟩, rfl⟩
  have hfilter := hh.perm.filter (·.1 ≠ b.1)
  rw [List.filter_cons_of_neg (by simp)] at hfilter
  have hrest : l.filter (·.1 ≠ b.1) = l := by
    apply List.filter_eq_self.mpr
    intro c hc
    apply decide_eq_true
    intro heq
    -- at the address of the block there is no other one
    have hsame := hh.packed.eq_of_base (List.mem_cons_of_mem b hc) List.mem_cons_self heq
    subst hsame
    apply hh.packed.notMem hc
  rwa [hrest] at hfilter

/-- Pieces tile the addresses from one on up to another one. -/
def Tiles : Nat → List (Nat × Nat) → Nat → Prop
  | lo, [], hi => lo = hi
  | lo, r :: rs, hi => r.1 = lo ∧ Tiles (lo + r.2) rs hi

variable {lo hi : Nat} {l l' : List (Nat × Nat)} {r : Nat × Nat}

theorem Tiles.le (h : Tiles lo l hi) :
  lo ≤ hi
  := by
  induction l generalizing lo with
  | nil => apply Nat.le_of_eq h
  | cons r l ih => apply Nat.le_trans (Nat.le_add_right lo r.2) (ih h.2)

/-- Pieces that tile up to where others go on. -/
theorem tiles_append :
  Tiles lo (l ++ l') hi ↔ ∃ mid, Tiles lo l mid ∧ Tiles mid l' hi
  := by
  induction l generalizing lo with
  | nil =>
    constructor
    · intro h
      use lo, rfl, h
    · rintro ⟨_, rfl, h⟩
      apply h
  | cons r l ih =>
    constructor
    · rintro ⟨hr, h⟩
      obtain ⟨mid, hl, hl'⟩ := ih.mp h
      use mid, ⟨hr, hl⟩, hl'
    · rintro ⟨mid, ⟨hr, hl⟩, hl'⟩
      use hr, ih.mpr ⟨mid, hl, hl'⟩

/-- Pieces in place of one that they tile. -/
theorem Tiles.replace (h : Tiles lo (l ++ r :: l') hi) {ps : List (Nat × Nat)} (hps : Tiles r.1 ps (r.1 + r.2)) :
  Tiles lo (l ++ (ps ++ l')) hi
  := by
  obtain ⟨_, hl, rfl, hrest⟩ := tiles_append.mp h
  exact tiles_append.mpr ⟨r.1, hl, tiles_append.mpr ⟨r.1 + r.2, hps, hrest⟩⟩

/-- A piece lies between the ends. -/
theorem Tiles.within (h : Tiles lo l hi) (hr : r ∈ l) :
  lo ≤ r.1 ∧ r.1 + r.2 ≤ hi
  := by
  induction l generalizing lo with
  | nil => cases hr
  | cons s l ih =>
    rcases List.mem_cons.mp hr with rfl | hr
    · rw [h.1]
      exact ⟨Nat.le_refl _, h.2.le⟩
    · have hin := ih h.2 hr
      exact ⟨Nat.le_trans (Nat.le_add_right lo s.2) hin.1, hin.2⟩

/-- The pieces do not overlap. -/
theorem Tiles.apart (h : Tiles lo l hi) :
  l.Pairwise Apart
  := by
  induction l generalizing lo with
  | nil => apply List.Pairwise.nil
  | cons r l ih =>
    apply List.pairwise_cons.mpr ⟨_, ih h.2⟩
    intro s hs
    left
    rw [h.1]
    apply (h.2.within hs).1

/-- The lengths of the pieces add up. -/
theorem Tiles.sum (h : Tiles lo l hi) :
  lo + (l.map Prod.snd).sum = hi
  := by
  induction l generalizing lo with
  | nil => apply h
  | cons r l ih =>
    rw [List.map_cons, List.sum_cons, ← Nat.add_assoc]
    apply ih h.2

end Heap
