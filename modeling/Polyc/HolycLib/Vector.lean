import Mathlib.Data.Int.ConditionallyCompleteOrder
import Polyc.HolycLib.Integers
import Polyc.Lib.Loop
import Polyc.Lib.Rearrange

/-!
# Sorting a vector

`QSortGeneric` and `PtrVecSort` of `vector.HC` on an array of words, with the indexes that are read
and written.  The depth of the recursion and the turns of its loops are bounded by fuel, without
which there is no result.

The loop of `QSortGeneric` moves what compares before the pivot below a boundary, at which the pivot
is put; the two calls sort what is below and above it.  What is touched is always in the range, whose
words change places only.
-/

namespace Polyc

section Vector

variable {α : Type}

/-- The words of an array, and the indexes that were read or written, the last first. -/
structure Entries (α : Type) where
  word : Int → α
  touched : List Int

namespace Entries

/-- `arr[i]`. -/
def read (arr : Entries α) (i : Int) : α × Entries α :=
  (arr.word i, { arr with touched := i :: arr.touched })

/-- `arr[i] = x`. -/
def write (arr : Entries α) (i : Int) (x : α) : Entries α :=
  { word := Function.update arr.word i x, touched := i :: arr.touched }

/-- `U0 *tmp = arr[i]; arr[i] = arr[idx]; arr[idx] = tmp;` -/
def swap (arr : Entries α) (i idx : Int) : Entries α :=
  let (tmp, arr) := arr.read i
  let (x, arr) := arr.read idx
  (arr.write i x).write idx tmp

end Entries

-- any result but 0 of the function is `TRUE`
variable (compareFn : α → α → Int)

/-- A turn of the loop of `QSortGeneric`, on the array, `i` and `idx`. -/
def partitionStep (pivot : α) (high : Int) :
    Entries α × Int × Int → Entries α × Int × Int ⊕ Entries α × Int
  | (arr, i, idx) =>
    if i < high then
      let (x, arr) := arr.read i
      if compareFn x pivot ≠ 0 then .inl (arr.swap i idx, toI64 (i + 1), toI64 (idx + 1))
      else .inl (arr, toI64 (i + 1), idx)
    else .inr (arr, idx)

/-- `QSortGeneric`. -/
def qSortGeneric : Nat → Entries α → Int → Int → Option (Entries α)
  | 0, _, _, _ => none
  | fuel + 1, arr, high, low =>
    if low < high then do
      let (pivot, arr) := arr.read high
      let (arr, idx) ← Loop.run (partitionStep compareFn pivot high) fuel (arr, low, low)
      let (x, arr) := arr.read idx
      let arr := (arr.write high x).write idx pivot
      let arr ← qSortGeneric fuel arr high (toI64 (idx + 1))
      qSortGeneric fuel arr (toI64 (idx - 1)) low
    else some arr

end Vector

open Rearrange

section Vector

variable {α : Type} {arr arr' arr'' : Entries α} {low high : Int}

/-! ### What happens in a range -/

/-- The words of a range change places, and nothing else of the array is touched. -/
structure Entries.Within (low high : Int) (arr arr' : Entries α) : Prop where
  rearranges : Rearranges (Set.Icc low high) arr.word arr'.word
  touched : ∀ k ∈ arr'.touched, k ∈ arr.touched ∨ k ∈ Set.Icc low high

namespace Entries

theorem Within.refl (low high : Int) (arr : Entries α) :
  arr.Within low high arr
  := ⟨.refl _ _, fun _ hk => .inl hk⟩

theorem Within.trans (h : Within low high arr arr') (h' : Within low high arr' arr'') :
  Within low high arr arr''
  := by
  constructor
  · apply h.rearranges.trans h'.rearranges
  · intro k hk
    rcases h'.touched k hk with hk | hk
    · apply h.touched k hk
    · apply Or.inr hk

/-- What happens in a range happens in a larger one. -/
theorem Within.mono {low' high' : Int} (h : Within low high arr arr') (hl : low' ≤ low)
    (hh : high ≤ high') :
  Within low' high' arr arr'
  := by
  have hsub := Set.Icc_subset_Icc hl hh
  constructor
  · apply h.rearranges.mono hsub
  · intro k hk
    apply (h.touched k hk).imp_right (fun hk => hsub hk)

/-- A word of the range is read. -/
theorem Within.read (h : Within low high arr arr') {i : Int} (hi : i ∈ Set.Icc low high) :
  Within low high arr (arr'.read i).2
  := by
  constructor
  · apply h.rearranges
  · intro k hk
    rcases List.mem_cons.mp hk with rfl | hk
    · apply Or.inr hi
    · apply h.touched k hk

/-- The words after two have changed places. -/
theorem word_swap (arr : Entries α) (i j : Int) :
  (arr.swap i j).word = arr.word ∘ Equiv.swap i j
  := by
  funext k
  simp only [swap, Entries.read, write, Function.comp_apply, Function.update_apply]
  rcases eq_or_ne k j with rfl | hj
  · rw [if_pos rfl, Equiv.swap_apply_right]
  · rw [if_neg hj]
    rcases eq_or_ne k i with rfl | hi
    · rw [if_pos rfl, Equiv.swap_apply_left]
    · rw [if_neg hi, Equiv.swap_apply_of_ne_of_ne hi hj]

/-- Two words of the range change places. -/
theorem Within.swap (h : Within low high arr arr') {i j : Int} (hi : i ∈ Set.Icc low high)
    (hj : j ∈ Set.Icc low high) :
  Within low high arr (arr'.swap i j)
  := by
  constructor
  · rw [word_swap]
    apply h.rearranges.trans (.swap hi hj _)
  · intro k hk
    simp only [Entries.swap, Entries.read, write, List.mem_cons] at hk
    rcases hk with rfl | rfl | rfl | rfl | hk
    · apply Or.inr hj
    · apply Or.inr hi
    · apply Or.inr hj
    · apply Or.inr hi
    · apply h.touched k hk

end Entries

/-! ### The loop -/

variable {compareFn : α → α → Int} {pivot : α}

/-- What the loop has done when it is at `i`: below `idx` is what compares before the pivot, and from
there to `i` what does not. -/
structure Partitioned (compareFn : α → α → Int) (low high : Int) (arr : Entries α) (i : Int)
    (arr' : Entries α) (idx : Int) : Prop where
  within : arr.Within low high arr'
  low_le : low ≤ idx
  idx_le : idx ≤ i
  le_high : i ≤ high
  pivot : arr'.word high = arr.word high
  before : ∀ k, low ≤ k → k < idx → compareFn (arr'.word k) (arr.word high) ≠ 0
  after : ∀ k, idx ≤ k → k < i → compareFn (arr'.word k) (arr.word high) = 0

/-- A word that does not compare before the pivot. -/
theorem Partitioned.skip {i idx : Int} (h : Partitioned compareFn low high arr i arr' idx)
    (hi : i < high) (hx : compareFn (arr'.word i) (arr.word high) = 0) :
  Partitioned compareFn low high arr (i + 1) (arr'.read i).2 idx
  := by
  have hlow := h.low_le
  have hidx := h.idx_le
  constructor
  case within =>
    apply h.within.read
    constructor <;> omega
  case low_le => apply hlow
  case idx_le => omega
  case le_high => omega
  case pivot => apply h.pivot
  case before => apply h.before
  case after =>
    intro k hk hki
    rcases Int.lt_or_eq_of_le (Int.lt_add_one_iff.mp hki) with hki | rfl
    · apply h.after k hk hki
    · apply hx

/-- A word that compares before the pivot. -/
theorem Partitioned.take {i idx : Int} (h : Partitioned compareFn low high arr i arr' idx)
    (hi : i < high) (hx : compareFn (arr'.word i) (arr.word high) ≠ 0) :
  Partitioned compareFn low high arr (i + 1) ((arr'.read i).2.swap i idx) (idx + 1)
  := by
  have hlow := h.low_le
  have hidx := h.idx_le
  have hmem : i ∈ Set.Icc low high := by
    constructor <;> omega
  have hword : ((arr'.read i).2.swap i idx).word = arr'.word ∘ Equiv.swap i idx :=
    Entries.word_swap _ i idx
  constructor
  case within =>
    apply (h.within.read hmem).swap hmem
    constructor <;> omega
  case low_le => omega
  case idx_le => omega
  case le_high => omega
  case pivot =>
    rw [hword, Function.comp_apply, Equiv.swap_apply_of_ne_of_ne (by omega) (by omega), h.pivot]
  case before =>
    intro k hk hki
    rw [hword, Function.comp_apply]
    rcases Int.lt_or_eq_of_le (Int.lt_add_one_iff.mp hki) with hki | rfl
    · rw [Equiv.swap_apply_of_ne_of_ne (by omega) (by omega)]
      apply h.before k hk hki
    · rw [Equiv.swap_apply_right]
      apply hx
  case after =>
    intro k hk hki
    rw [hword, Function.comp_apply]
    rcases Int.lt_or_eq_of_le (Int.lt_add_one_iff.mp hki) with hki | rfl
    · rw [Equiv.swap_apply_of_ne_of_ne (by omega) (by omega)]
      apply h.after k (by omega) hki
    · rw [Equiv.swap_apply_left]
      apply h.after idx (by omega) (by omega)

/-- The indexes of a range are those of words in memory: their distance from the first word of the
array, in bytes, is that of two addresses. -/
def Addressable (low high : Int) : Prop :=
  ∀ k, low ≤ k → k ≤ high → -2 ^ 63 ≤ 8 * k ∧ 8 * k < 2 ^ 63

/-- The indexes next to those of a range are kept in an `I64`. -/
theorem Addressable.toI64 (h : Addressable low high) {k : Int} (hl : low ≤ k) (hh : k ≤ high) :
  Polyc.toI64 (k + 1) = k + 1 ∧ Polyc.toI64 (k - 1) = k - 1
  := by
  obtain ⟨hmin, hmax⟩ := h k hl hh
  norm_num at hmin hmax
  constructor
  · apply toI64_of_bounds
    · norm_num
      omega
    · norm_num
      omega
  · apply toI64_of_bounds
    · norm_num
      omega
    · norm_num
      omega

theorem partitionStep_skip (arr : Entries α) {i : Int} (idx : Int) (hi : i < high)
    (hx : compareFn (arr.word i) pivot = 0) :
  partitionStep compareFn pivot high (arr, i, idx) = .inl ((arr.read i).2, toI64 (i + 1), idx)
  := by
  rw [partitionStep, if_pos hi]
  apply if_neg (not_not.mpr hx)

theorem partitionStep_take (arr : Entries α) {i : Int} (idx : Int) (hi : i < high)
    (hx : compareFn (arr.word i) pivot ≠ 0) :
  partitionStep compareFn pivot high (arr, i, idx)
    = .inl ((arr.read i).2.swap i idx, toI64 (i + 1), toI64 (idx + 1))
  := by
  rw [partitionStep, if_pos hi]
  apply if_pos hx

/-- The loop of `QSortGeneric` comes to the end of the range. -/
theorem partition_run (compareFn : α → α → Int) (haddr : Addressable low high) (hlow : low ≤ high)
    (arr : Entries α) (fuel : Nat) (hfuel : (high - low).toNat < fuel) :
  ∃ arr' idx, Loop.run (partitionStep compareFn (arr.word high) high) fuel
      ((arr.read high).2, low, low) = some (arr', idx)
    ∧ Partitioned compareFn low high arr high arr' idx
  := by
  have hkeeps : Loop.Keeps (partitionStep compareFn (arr.word high) high)
      (fun s => Partitioned compareFn low high arr s.2.1 s.1 s.2.2)
      (fun r => Partitioned compareFn low high arr high r.1 r.2)
      (fun s => (high - s.2.1).toNat) := by
    rintro ⟨arr', i, idx⟩ hinv
    have hidx := hinv.idx_le
    have hle := hinv.le_high
    have hl := hinv.low_le
    simp only at hidx hle hl hinv
    rcases Int.lt_or_eq_of_le hle with hi | rfl
    · obtain ⟨hnext, -⟩ := haddr.toI64 (Int.le_trans hl hidx) hle
      obtain ⟨hidx', -⟩ := haddr.toI64 hl (Int.le_trans hidx hle)
      rcases eq_or_ne (compareFn (arr'.word i) (arr.word high)) 0 with hx | hx
      · rw [partitionStep_skip arr' idx hi hx, hnext]
        constructor
        · apply hinv.skip hi hx
        · simp only
          omega
      · rw [partitionStep_take arr' idx hi hx, hnext, hidx']
        constructor
        · apply hinv.take hi hx
        · simp only
          omega
    · rw [partitionStep, if_neg (Int.lt_irrefl _)]
      apply hinv
  have hinit : Partitioned compareFn low high arr low (arr.read high).2 low := by
    constructor
    case within =>
      apply (Entries.Within.refl low high arr).read
      constructor <;> omega
    case low_le => apply Int.le_refl
    case idx_le => apply Int.le_refl
    case le_high => apply hlow
    case pivot => rfl
    case before =>
      intro k hk hki
      omega
    case after =>
      intro k hk hki
      omega
  obtain ⟨⟨arr', idx⟩, hrun, hpost⟩ := hkeeps.run (s := ((arr.read high).2, low, low)) hinit hfuel
  use arr', idx, hrun

/-! ### The recursion -/

/-- The words of a range after the pivot is put at `idx`: what is below compares before it, and what is
above does not. -/
structure Pivoted (compareFn : α → α → Int) (low high : Int) (arr arr' : Entries α) (idx : Int) :
    Prop where
  within : arr.Within low high arr'
  low_le : low ≤ idx
  le_high : idx ≤ high
  before : ∀ k, low ≤ k → k < idx → compareFn (arr'.word k) (arr'.word idx) ≠ 0
  after : ∀ k, idx < k → k ≤ high → compareFn (arr'.word k) (arr'.word idx) = 0

/-- The pivot is put at the boundary. -/
theorem Partitioned.place {idx : Int} (h : Partitioned compareFn low high arr high arr' idx) :
  Pivoted compareFn low high arr
    (((arr'.read idx).2.write high (arr'.word idx)).write idx (arr.word high)) idx
  := by
  have hlow := h.low_le
  have hle := h.idx_le
  have hidx : idx ∈ Set.Icc low high := ⟨hlow, hle⟩
  have hhigh : high ∈ Set.Icc low high := ⟨Int.le_trans hlow hle, Int.le_refl _⟩
  have hword : (((arr'.read idx).2.write high (arr'.word idx)).write idx (arr.word high)).word
      = arr'.word ∘ Equiv.swap high idx := by
    rw [← h.pivot]
    apply Entries.word_swap arr' high idx
  constructor
  case within =>
    constructor
    · rw [hword]
      apply h.within.rearranges.trans (.swap hhigh hidx _)
    · intro k hk
      simp only [Entries.read, Entries.write, List.mem_cons] at hk
      rcases hk with rfl | rfl | rfl | hk
      · apply Or.inr hidx
      · apply Or.inr hhigh
      · apply Or.inr hidx
      · apply h.within.touched k hk
  case low_le => apply hlow
  case le_high => apply hle
  case before =>
    intro k hk hki
    rw [hword, Function.comp_apply, Function.comp_apply, Equiv.swap_apply_right, h.pivot,
      Equiv.swap_apply_of_ne_of_ne (by omega) (by omega)]
    apply h.before k hk hki
  case after =>
    intro k hk hki
    rw [hword, Function.comp_apply, Function.comp_apply, Equiv.swap_apply_right, h.pivot]
    rcases Int.lt_or_eq_of_le hki with hki | rfl
    · rw [Equiv.swap_apply_of_ne_of_ne (by omega) (by omega)]
      apply h.after k (by omega) hki
    · rw [Equiv.swap_apply_left]
      apply h.after idx (by omega) hk

/-- The function is the strict part of a total preorder. -/
structure ComparesBy (compareFn : α → α → Int) (le : α → α → Prop) : Prop where
  total : ∀ a b, le a b ∨ le b a
  trans : ∀ a b c, le a b → le b c → le a c
  strict : ∀ a b, compareFn a b ≠ 0 ↔ le a b ∧ ¬le b a

/-- What does not compare before is not less. -/
theorem ComparesBy.eq_zero_iff {le : α → α → Prop} (h : ComparesBy compareFn le) (a b : α) :
  compareFn a b = 0 ↔ le b a
  := by
  rw [← not_iff_not, ← ne_eq, h.strict]
  constructor
  · apply And.right
  · intro hba
    use (h.total a b).resolve_right hba

/-- The words on both sides of the pivot are sorted on their own. -/
theorem Pivoted.sorted {le : α → α → Prop} (hle : ComparesBy compareFn le) {idx : Int}
    (h : Pivoted compareFn low high arr arr' idx) {upper lower : Entries α}
    (hupper : arr'.Within (idx + 1) high upper)
    (hsorted : SortedOn le (Set.Icc (idx + 1) high) upper.word)
    (hlower : upper.Within low (idx - 1) lower)
    (hsorted' : SortedOn le (Set.Icc low (idx - 1)) lower.word) :
  SortedOn le (Set.Icc low high) lower.word
  := by
  -- what the second call leaves as it is, and what the first one does
  have hkept : ∀ k, idx ≤ k → lower.word k = upper.word k := by
    intro k hk
    apply hlower.rearranges.eq_of_notMem
    simp only [Set.mem_Icc]
    omega
  have hkept' : ∀ k, k ≤ idx → upper.word k = arr'.word k := by
    intro k hk
    apply hupper.rearranges.eq_of_notMem
    simp only [Set.mem_Icc]
    omega
  have hbelow : ∀ k ∈ Set.Icc low (idx - 1), le (lower.word k) (arr'.word idx) := by
    apply hlower.rearranges.all (P := fun x => le x (arr'.word idx))
    rintro k ⟨hl, hh⟩
    rw [hkept' k (by omega)]
    apply ((hle.strict _ _).mp (h.before k hl (by omega))).1
  have habove : ∀ k ∈ Set.Icc (idx + 1) high, le (arr'.word idx) (upper.word k) := by
    apply hupper.rearranges.all (P := fun x => le (arr'.word idx) x)
    rintro k ⟨hl, hh⟩
    apply (hle.eq_zero_iff _ _).mp (h.after k (by omega) hh)
  have htrans : IsTrans α le := ⟨hle.trans⟩
  refine SortedOn.split idx ?hlow ?hhigh ?hbelow ?habove
  case hlow =>
    rintro i ⟨⟨hi, -⟩, hi'⟩ j ⟨⟨hj, -⟩, hj'⟩ hij
    apply hsorted' i ⟨hi, by omega⟩ j ⟨hj, by omega⟩ hij
  case hhigh =>
    rintro i ⟨⟨-, hi⟩, hi'⟩ j ⟨⟨-, hj⟩, hj'⟩ hij
    rw [hkept i (by omega), hkept j (by omega)]
    apply hsorted i ⟨by omega, hi⟩ j ⟨by omega, hj⟩ hij
  case hbelow =>
    rintro k ⟨hk, -⟩ hki
    rw [hkept idx (Int.le_refl _), hkept' idx (Int.le_refl _)]
    apply hbelow k ⟨hk, by omega⟩
  case habove =>
    rintro k ⟨-, hk⟩ hki
    rw [hkept k (by omega), hkept idx (Int.le_refl _), hkept' idx (Int.le_refl _)]
    apply habove k ⟨by omega, hk⟩

theorem Addressable.mono {low' high' : Int} (h : Addressable low high) (hl : low ≤ low')
    (hh : high' ≤ high) :
  Addressable low' high'
  := fun k hkl hkh => h k (Int.le_trans hl hkl) (Int.le_trans hkh hh)

/-- With fuel for the length of the range, the range is sorted. -/
theorem qSortGeneric_run {le : α → α → Prop} (hle : ComparesBy compareFn le) (fuel : Nat) :
  ∀ (arr : Entries α) (low high : Int), Addressable low high → (high + 1 - low).toNat < fuel →
    ∃ arr', qSortGeneric compareFn fuel arr high low = some arr' ∧ arr.Within low high arr'
      ∧ SortedOn le (Set.Icc low high) arr'.word
  := by
  induction fuel with
  | zero =>
    intro arr low high _ hfuel
    cases hfuel
  | succ fuel ih =>
    intro arr low high haddr hfuel
    rw [qSortGeneric]
    rcases Int.lt_or_le low high with hlt | hge
    · rw [if_pos hlt]
      obtain ⟨arr', idx, hrun, hpart⟩ :=
        partition_run compareFn haddr (Int.le_of_lt hlt) arr fuel (by omega)
      have hpiv := hpart.place
      have hlow := hpiv.low_le
      have hhigh := hpiv.le_high
      obtain ⟨hnext, hprev⟩ := haddr.toI64 hlow hhigh
      obtain ⟨upper, hupper, hwithin, hsorted⟩ := ih
        (((arr'.read idx).2.write high (arr'.word idx)).write idx (arr.word high)) (idx + 1) high
        (haddr.mono (by omega) (Int.le_refl _)) (by omega)
      obtain ⟨lower, hlower, hwithin', hsorted'⟩ := ih upper low (idx - 1)
        (haddr.mono (Int.le_refl _) (by omega)) (by omega)
      use lower
      constructor
      case left =>
        simp only [Entries.read] at hrun hupper ⊢
        rw [hrun, Option.bind_eq_bind, Option.bind_some]
        simp only [hnext, hprev]
        rw [hupper, Option.bind_eq_bind, Option.bind_some, hlower]
      case right =>
        constructor
        · apply hpiv.within.trans
          apply (hwithin.mono (by omega) (Int.le_refl _)).trans
          apply hwithin'.mono (Int.le_refl _) (by omega)
        · apply hpiv.sorted hle hwithin hsorted hwithin' hsorted'
    · rw [if_neg (by omega)]
      use arr, rfl, .refl _ _ _
      rintro i ⟨hi, -⟩ j ⟨-, hj⟩ hij
      omega

/-- More fuel does not change the result. -/
theorem qSortGeneric_mono {n m : Nat} (h : qSortGeneric compareFn n arr high low = some arr')
    (hnm : n ≤ m) :
  qSortGeneric compareFn m arr high low = some arr'
  := by
  induction n generalizing m arr arr' low high with
  | zero => simp only [qSortGeneric, reduceCtorEq] at h
  | succ n ih =>
    obtain ⟨m, rfl⟩ : ∃ k, m = k + 1 := ⟨m - 1, by omega⟩
    have hle := Nat.le_of_succ_le_succ hnm
    rw [qSortGeneric] at h ⊢
    rcases Int.lt_or_le low high with hlt | hge
    · rw [if_pos hlt] at h ⊢
      simp only [Option.bind_eq_bind, Option.bind_eq_some_iff] at h ⊢
      obtain ⟨⟨loop, idx⟩, hrun, upper, hupper, hlower⟩ := h
      use (loop, idx), Loop.run_mono hrun hle, upper, ih hupper hle, ih hlower hle
    · rw [if_neg (by omega)] at h ⊢
      apply h

/-! ### Sorting -/

/-- `QSortGeneric` comes to an end on every range, has touched elements of the range only, and leaves
a permutation of them in which no later one compares before an earlier one. -/
theorem qSortGeneric_sorts (compareFn : α → α → Int) (le : α → α → Prop)
    (hle : ComparesBy compareFn le) (word : Int → α) (low high : Int)
    (haddr : Addressable low high) :
  ∃ n arr', (∀ fuel ≥ n, qSortGeneric compareFn fuel ⟨word, []⟩ high low = some arr')
    ∧ (∀ k ∈ arr'.touched, low ≤ k ∧ k ≤ high)
    ∧ (∃ σ : Equiv.Perm Int, (∀ k, ¬(low ≤ k ∧ k ≤ high) → σ k = k)
        ∧ ∀ k, arr'.word k = word (σ k))
    ∧ ∀ i j, low ≤ i → i < j → j ≤ high → compareFn (arr'.word j) (arr'.word i) = 0
  := by
  obtain ⟨arr', hrun, hwithin, hsorted⟩ :=
    qSortGeneric_run hle ((high + 1 - low).toNat + 1) ⟨word, []⟩ low high haddr (Nat.lt_succ_self _)
  obtain ⟨σ, hfix, hword⟩ := hwithin.rearranges
  use (high + 1 - low).toNat + 1, arr'
  constructor
  case left =>
    intro fuel hfuel
    apply qSortGeneric_mono hrun hfuel
  case right =>
    constructor
    · intro k hk
      apply (hwithin.touched k hk).resolve_left (List.not_mem_nil)
    · constructor
      · use σ, hfix
        apply congrFun hword
      · intro i j hi hij hj
        apply (hle.eq_zero_iff _ _).mpr
        apply hsorted i ⟨hi, by omega⟩ j ⟨by omega, hj⟩ hij

/-- Five numbers, two of them the same, compared by `<`. -/
theorem qSortGeneric_sorts_five :
  ∃ n arr', (∀ fuel ≥ n, qSortGeneric (fun a b : Int => if a < b then 1 else 0) fuel
      ⟨fun k => if k = 0 then 3 else if k = 1 then 1 else if k = 2 then 3 else if k = 3 then 2 else 9,
        []⟩ 3 0 = some arr')
    ∧ (∀ k ∈ arr'.touched, 0 ≤ k ∧ k ≤ 3)
    ∧ (∃ σ : Equiv.Perm Int, (∀ k, ¬(0 ≤ k ∧ k ≤ 3) → σ k = k) ∧ ∀ k, arr'.word k
        = if σ k = 0 then 3 else if σ k = 1 then 1 else if σ k = 2 then 3
          else if σ k = 3 then 2 else 9)
    ∧ ∀ i j, 0 ≤ i → i < j → j ≤ 3 → (if arr'.word j < arr'.word i then (1 : Int) else 0) = 0
  := by
  apply qSortGeneric_sorts (fun a b : Int => if a < b then 1 else 0) (· ≤ ·)
  · constructor
    · apply Int.le_total
    · intro a b c
      apply Int.le_trans
    · intro a b
      rcases Int.lt_or_le a b with hlt | hge
      · simp [hlt, Int.le_of_lt hlt]
      · simp [Int.not_lt.mpr hge, hge]
  · intro k hl hh
    norm_num
    omega

end Vector

end Polyc
