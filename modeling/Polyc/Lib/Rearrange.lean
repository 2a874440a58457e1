import Mathlib.Algebra.Group.End
import Mathlib.Data.Set.Insert
import Mathlib.Order.Interval.Set.Basic
import Mathlib.Logic.Equiv.Basic

/-!
# Rearranged values

Families of values that are the same but for the order of those at the indexes of a set, and families
that are sorted on a set of indexes.
-/

namespace Rearrange

variable {ι α : Type*}

/-! ### The same values in another order -/

/-- `w'` has the values of `w` in another order, and those outside of `r` where they were. -/
def Rearranges (r : Set ι) (w w' : ι → α) : Prop :=
  ∃ σ : Equiv.Perm ι, (∀ k, k ∉ r → σ k = k) ∧ w' = w ∘ σ

variable {r s : Set ι} {w w' w'' : ι → α}

/-- Nothing is moved. -/
theorem Rearranges.refl (r : Set ι) (w : ι → α) :
  Rearranges r w w
  := by
  use Equiv.refl ι
  constructor
  · intro k _
    rfl
  · rfl

/-- One rearrangement after another. -/
theorem Rearranges.trans (h : Rearranges r w w') (h' : Rearranges r w' w'') :
  Rearranges r w w''
  := by
  obtain ⟨σ, hσ, rfl⟩ := h
  obtain ⟨τ, hτ, rfl⟩ := h'
  use τ.trans σ
  constructor
  · intro k hk
    rw [Equiv.trans_apply, hτ k hk, hσ k hk]
  · rfl

/-- A rearrangement on a set is one on a larger set. -/
theorem Rearranges.mono (h : Rearranges r w w') (hrs : r ⊆ s) :
  Rearranges s w w'
  := by
  obtain ⟨σ, hσ, rfl⟩ := h
  use σ
  constructor
  · intro k hk
    apply hσ k (fun hr => hk (hrs hr))
  · rfl

/-- Two values change places. -/
theorem Rearranges.swap [DecidableEq ι] {i j : ι} (hi : i ∈ r) (hj : j ∈ r) (w : ι → α) :
  Rearranges r w (w ∘ Equiv.swap i j)
  := by
  use Equiv.swap i j
  constructor
  · intro k hk
    apply Equiv.swap_apply_of_ne_of_ne
    · rintro rfl
      apply hk hi
    · rintro rfl
      apply hk hj
  · rfl

/-- A value outside of the set stays where it is. -/
theorem Rearranges.eq_of_notMem (h : Rearranges r w w') {k : ι} (hk : k ∉ r) :
  w' k = w k
  := by
  obtain ⟨σ, hσ, rfl⟩ := h
  rw [Function.comp_apply, hσ k hk]

/-- What holds of all values on the set still does. -/
theorem Rearranges.all (h : Rearranges r w w') {P : α → Prop} (hP : ∀ k ∈ r, P (w k)) :
  ∀ k ∈ r, P (w' k)
  := by
  obtain ⟨σ, hσ, rfl⟩ := h
  intro k hk
  apply hP
  by_contra hout
  have hfix : σ k = k := σ.injective (hσ _ hout)
  rw [hfix] at hout
  apply hout hk

/-! ### Sorted values -/

/-- The values on a set are in order. -/
def SortedOn [LT ι] (le : α → α → Prop) (r : Set ι) (w : ι → α) : Prop :=
  ∀ i ∈ r, ∀ j ∈ r, i < j → le (w i) (w j)

/-- The values below and above an index are sorted, and the one there lies between them. -/
theorem SortedOn.split [LinearOrder ι] {le : α → α → Prop} [IsTrans α le] (p : ι)
    (hlow : SortedOn le {k | k ∈ r ∧ k < p} w) (hhigh : SortedOn le {k | k ∈ r ∧ p < k} w)
    (hbelow : ∀ k ∈ r, k < p → le (w k) (w p)) (habove : ∀ k ∈ r, p < k → le (w p) (w k)) :
  SortedOn le r w
  := by
  intro i hi j hj hij
  rcases lt_trichotomy i p with hip | rfl | hip
  · rcases lt_trichotomy j p with hjp | rfl | hjp
    · apply hlow i ⟨hi, hip⟩ j ⟨hj, hjp⟩ hij
    · apply hbelow i hi hip
    · apply IsTrans.trans (w i) (w p) (w j) (hbelow i hi hip) (habove j hj hjp)
  · apply habove j hj hij
  · apply hhigh i ⟨hi, hip⟩ j ⟨hj, hip.trans hij⟩ hij

end Rearrange
