import Mathlib.Data.Set.Lattice
import Mathlib.Order.CompletePartialOrder
import Mathlib.Tactic.Ring

/-!
# Allocation by cursors

An allocator walks a list of requests with a state, and gives each request a region of some
resource.  When a region is disjoint from what the state has used so far, and the next state
has used the region too, the regions of a whole walk are pairwise disjoint.
-/

/-- An allocator of regions of `R` to requests `α` with a state `σ`. -/
structure Allocator (σ α R : Type*) where
  step : σ → α → σ
  region : σ → α → Set R
  used : σ → Set R
  fresh : ∀ s a, Disjoint (used s) (region s a)
  used_step : ∀ s a, used s ∪ region s a ⊆ used (step s a)

namespace Allocator

variable {σ α R : Type*} (A : Allocator σ α R)

/-- The state after a list of requests. -/
def final (s : σ) (l : List α) : σ := l.foldl A.step s

/-- The regions that the requests of a list get, in order. -/
def regions : σ → List α → List (Set R)
  | _, [] => []
  | s, a :: l => A.region s a :: regions (A.step s a) l

variable {A}

/-- What was used stays used. -/
theorem used_subset_final (s : σ) (l : List α) :
  A.used s ⊆ A.used (A.final s l)
  := by
  induction l generalizing s with
  | nil => apply subset_rfl
  | cons a l ih =>
    apply (Set.subset_union_left.trans (A.used_step s a)).trans
    apply ih

/-- The regions of a walk are used at its end. -/
theorem subset_used_final {s : σ} {l : List α} {X : Set R} (hX : X ∈ A.regions s l) :
  X ⊆ A.used (A.final s l)
  := by
  induction l generalizing s with
  | nil => cases hX
  | cons a l ih =>
    obtain rfl | hX := List.mem_cons.mp hX
    · apply (Set.subset_union_right.trans (A.used_step s a)).trans
      apply used_subset_final
    · apply ih hX

/-- The regions of a walk are disjoint from what was used before it. -/
theorem disjoint_used {s : σ} {l : List α} {X : Set R} (hX : X ∈ A.regions s l) :
  Disjoint (A.used s) X
  := by
  induction l generalizing s with
  | nil => cases hX
  | cons a l ih =>
    obtain rfl | hX := List.mem_cons.mp hX
    · apply A.fresh
    · apply Disjoint.mono_left _ (ih hX)
      apply Set.subset_union_left.trans (A.used_step s a)

/-- The regions of a walk are pairwise disjoint. -/
theorem pairwise_disjoint (s : σ) (l : List α) :
  (A.regions s l).Pairwise Disjoint
  := by
  induction l generalizing s with
  | nil => apply List.Pairwise.nil
  | cons a l ih =>
    apply List.Pairwise.cons _ (ih _)
    intro X hX
    apply Disjoint.mono_left _ (disjoint_used hX)
    apply Set.subset_union_right.trans (A.used_step s a)

end Allocator
