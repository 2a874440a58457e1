import Mathlib.Data.List.Basic
import Mathlib.Data.List.GetD
import Mathlib.Data.Nat.ModEq

/-!
# Windows of a ring

A queue that lives in a ring of cells: the window that starts at a cell and goes round.  Adding
a cell at its end and dropping the one at its start act on it as on a list.
-/

namespace Ring

variable {α : Type*}

/-- The window of `n` cells from `start` on, in a ring of `capacity` cells. -/
def window (cells : List α) (null : α) (capacity start n : Nat) : List α :=
  (List.range n).map fun k => cells.getD ((start + k) % capacity) null

/-- The length of a window. -/
@[simp] theorem length_window (cells : List α) (null : α) (capacity start n : Nat) :
  (window cells null capacity start n).length = n
  := by
  rw [window, List.length_map, List.length_range]

/-- A window begins with the cell at its start. -/
theorem window_succ (cells : List α) (null : α) (capacity start n : Nat) :
  window cells null capacity start (n + 1)
    = cells.getD (start % capacity) null :: window cells null capacity (start + 1) n
  := by
  rw [window, List.range_succ_eq_map, List.map_cons, List.map_map, Nat.add_zero]
  congr 1
  apply List.map_congr_left
  intro k _
  rw [Function.comp_apply, Nat.succ_eq_add_one, Nat.add_comm k 1, ← Nat.add_assoc]

/-- A window may start anywhere round the ring. -/
theorem window_mod (cells : List α) (null : α) (capacity start n : Nat) :
  window cells null capacity (start % capacity) n = window cells null capacity start n
  := by
  apply List.map_congr_left
  intro k _
  rw [Nat.mod_add_mod]

/-- A ring of null cells has windows of them. -/
theorem window_replicate (null : α) (m capacity start n : Nat) :
  window (List.replicate m null) null capacity start n = List.replicate n null
  := by
  rw [List.eq_replicate_iff, length_window]
  constructor
  · rfl
  · intro a ha
    obtain ⟨k, -, rfl⟩ := List.mem_map.1 ha
    rw [List.getD_eq_getElem?_getD, List.getElem?_replicate]
    split <;> rfl

/-- Two cells of a window that is not longer than the ring are different. -/
theorem add_mod_ne {capacity k n : Nat} (start : Nat) (hk : k < n) (hn : n < capacity) :
  (start + n) % capacity ≠ (start + k) % capacity
  := by
  intro h
  have hmod : n ≡ k [MOD capacity] := Nat.ModEq.add_left_cancel' start h
  have hnk : n = k := hmod.eq_of_lt_of_lt hn (by omega)
  omega

/-- Writing the cell after a window makes it longer by what is written. -/
theorem window_set {cells : List α} {capacity n : Nat} (null : α) (start : Nat)
    (hcells : cells.length = capacity) (hn : n < capacity) (a : α) :
  window (cells.set ((start + n) % capacity) a) null capacity start (n + 1)
    = window cells null capacity start n ++ [a]
  := by
  rw [window, List.range_succ, List.map_append]
  congr 1
  · apply List.map_congr_left
    intro k hk
    have hne := add_mod_ne start (List.mem_range.1 hk) hn
    rw [List.getD_eq_getElem?_getD, List.getElem?_set_ne hne, ← List.getD_eq_getElem?_getD]
  · have hlt : (start + n) % capacity < cells.length := by
      rw [hcells]
      apply Nat.mod_lt
      omega
    rw [List.map_singleton, List.getD_eq_getElem?_getD, List.getElem?_set_self hlt]
    rfl

/-- The window of a whole ring has its cells. -/
theorem mem_window_iff {cells : List α} {capacity : Nat} (null : α) (start : Nat)
    (hcells : cells.length = capacity) (a : α) :
  a ∈ window cells null capacity start capacity ↔ a ∈ cells
  := by
  rw [window, List.mem_map]
  constructor
  · rintro ⟨k, hk, rfl⟩
    have hlt : (start + k) % capacity < cells.length := by
      rw [hcells]
      apply Nat.mod_lt
      rw [List.mem_range] at hk
      omega
    rw [List.getD_eq_getElem _ _ hlt]
    apply List.getElem_mem
  · intro ha
    obtain ⟨i, hi, rfl⟩ := List.mem_iff_getElem.1 ha
    have hpos : 0 < capacity := by omega
    -- the cell is as far from the start as it is round the ring
    refine ⟨(i + (capacity - start % capacity)) % capacity, ?_, ?_⟩
    · rw [List.mem_range]
      apply Nat.mod_lt _ hpos
    · have hstart := Nat.mod_lt start hpos
      have heq : (start + (i + (capacity - start % capacity)) % capacity) % capacity = i := by
        rw [Nat.add_mod_mod, ← Nat.mod_add_mod,
          show start % capacity + (i + (capacity - start % capacity)) = i + capacity by omega,
          Nat.add_mod_right, Nat.mod_eq_of_lt (by omega)]
      rw [heq, List.getD_eq_getElem _ _ hi]

/-- Writing the oldest cell of a ring makes it the newest one. -/
theorem window_push {cells : List α} {capacity pos : Nat} (null : α)
    (hcells : cells.length = capacity) (hpos : pos < capacity) (a : α) :
  window (cells.set pos a) null capacity ((pos + 1) % capacity) capacity
    = (window cells null capacity pos capacity).tail ++ [a]
  := by
  obtain ⟨n, rfl⟩ : ∃ n, capacity = n + 1 := ⟨capacity - 1, by omega⟩
  have hend : (pos + 1 + n) % (n + 1) = pos := by
    rw [Nat.add_right_comm, Nat.add_assoc, Nat.add_mod_right, Nat.mod_eq_of_lt hpos]
  have hset := window_set null (pos + 1) hcells (Nat.lt_succ_self n) a
  rw [hend] at hset
  rw [window_mod, hset, window_succ cells null (n + 1) pos n, List.tail_cons]

/-! ### The last writes -/

/-- A ring into which the values of `f` were written one after another, `n` of them, keeps the
last ones. -/
def Keeps (cells : List α) (null : α) (capacity : Nat) (f : Nat → α) (n : Nat) : Prop :=
  ∀ j, j < n → n ≤ j + capacity → cells.getD (j % capacity) null = f j

/-- Nothing was written yet. -/
theorem Keeps.zero (cells : List α) (null : α) (capacity : Nat) (f : Nat → α) :
  Keeps cells null capacity f 0
  := by
  intro j hj
  omega

/-- The next value takes the cell of the oldest one. -/
theorem Keeps.set {cells : List α} {null : α} {capacity : Nat} {f : Nat → α} {n : Nat}
    (h : Keeps cells null capacity f n) (hcells : cells.length = capacity)
    (hcapacity : 0 < capacity) :
  Keeps (cells.set (n % capacity) (f n)) null capacity f (n + 1)
  := by
  intro j hj hn
  rcases Nat.lt_succ_iff_lt_or_eq.1 hj with hlt | rfl
  · have hne : n % capacity ≠ j % capacity := by
      have hne : (j + (n - j)) % capacity ≠ (j + 0) % capacity :=
        add_mod_ne j (by omega) (by omega)
      rwa [Nat.add_sub_cancel' (by omega), Nat.add_zero] at hne
    rw [List.getD_eq_getElem?_getD, List.getElem?_set_ne hne, ← List.getD_eq_getElem?_getD]
    apply h j hlt
    omega
  · rw [List.getD_eq_getElem?_getD, List.getElem?_set_self]
    · rfl
    · rw [hcells]
      apply Nat.mod_lt _ hcapacity

end Ring
