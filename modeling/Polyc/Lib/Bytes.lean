import Mathlib.Data.List.GetD

/-!
# Bytes in memory

A memory gives a byte for every offset.  Lists of bytes are written to it, and words are laid
out and read with their lowest byte first.
-/

namespace Bytes

/-- Bytes. -/
abbrev Byte := BitVec 8

/-- Memories. -/
abbrev Mem := Nat → Byte

/-- The memory that begins with some bytes. -/
def ofList (bytes : List Byte) : Mem := fun i => bytes.getD i 0

/-- The memory after some bytes are written at an offset. -/
def write (m : Mem) (off : Nat) (bytes : List Byte) : Mem := fun i =>
  if off ≤ i ∧ i < off + bytes.length then bytes.getD (i - off) 0 else m i

/-- A list of bytes with others written over it at an offset. -/
def overwrite (bytes : List Byte) (off : Nat) (new : List Byte) : List Byte :=
  (List.range bytes.length).map (write (ofList bytes) off new)

/-- The lowest `n` bytes of a word. -/
def layout {w : Nat} (n : Nat) (v : BitVec w) : List Byte :=
  (List.range n).map fun k => v.extractLsb' (8 * k) 8

/-- The word of the `n` bytes at an offset. -/
def read (m : Mem) (off : Nat) : (n : Nat) → BitVec (8 * n)
  | 0 => 0
  | n + 1 => read m (off + 1) n ++ m off

/-- The number of bytes laid out. -/
@[simp] theorem length_layout {w : Nat} (n : Nat) (v : BitVec w) :
  (layout n v).length = n
  := by
  rw [layout, List.length_map, List.length_range]

/-- A byte before those that are written. -/
theorem write_of_lt {m : Mem} {off i : Nat} {bytes : List Byte} (h : i < off) :
  write m off bytes i = m i
  := by
  apply if_neg
  omega

/-- A byte after those that are written. -/
theorem write_of_ge {m : Mem} {off i : Nat} {bytes : List Byte} (h : off + bytes.length ≤ i) :
  write m off bytes i = m i
  := by
  apply if_neg
  omega

/-- A byte that is written. -/
theorem write_of_mem {m : Mem} {off k : Nat} {bytes : List Byte} (h : k < bytes.length) :
  write m off bytes (off + k) = bytes.getD k 0
  := by
  rw [write, if_pos (by omega), Nat.add_sub_cancel_left]

/-- Some bytes are written after others. -/
theorem write_append (m : Mem) (off : Nat) (bytes more : List Byte) :
  write m off (bytes ++ more) = write (write m off bytes) (off + bytes.length) more
  := by
  funext i
  rcases Nat.lt_or_ge i (off + bytes.length) with h | h
  · rw [write_of_lt h, write, write, List.length_append]
    rcases Nat.lt_or_ge i off with hlt | hge
    · rw [if_neg (by omega), if_neg (by omega)]
    · rw [if_pos (by omega), if_pos (by omega), List.getD_append _ _ _ _ (by omega)]
  · rcases Nat.lt_or_ge i (off + bytes.length + more.length) with hlt | hge
    · rw [write, if_pos (by rw [List.length_append]; omega), write, if_pos (by omega),
        List.getD_append_right _ _ _ _ (by omega), Nat.sub_add_eq]
    · rw [write_of_ge hge, write_of_ge h, write_of_ge (by rw [List.length_append]; omega)]

/-- A bit of a word that is read. -/
theorem getLsbD_read (m : Mem) (off n i : Nat) :
  (read m off n).getLsbD i = (decide (i < 8 * n) && (m (off + i / 8)).getLsbD (i % 8))
  := by
  induction n generalizing off i with
  | zero => simp [read]
  | succ n ih =>
    rw [read, BitVec.getLsbD_append, ih]
    by_cases h : i < 8
    · rw [if_pos h, Nat.div_eq_of_lt h, Nat.mod_eq_of_lt h,
        decide_eq_true (by omega), Bool.true_and, Nat.add_zero]
    · obtain ⟨j, rfl⟩ : ∃ j, i = j + 8 := ⟨i - 8, by omega⟩
      rw [if_neg h, Nat.add_sub_cancel, Nat.add_mod_right,
        Nat.add_div_right _ (by decide), Nat.add_right_comm off 1, Nat.add_assoc off]
      congr 1
      apply decide_eq_decide.2
      omega

/-- What is read depends on the bytes that are read. -/
theorem read_congr {m m' : Mem} {off n : Nat} (h : ∀ i, off ≤ i → i < off + n → m i = m' i) :
  read m off n = read m' off n
  := by
  apply BitVec.eq_of_getLsbD_eq
  intro i hi
  rw [getLsbD_read, getLsbD_read, h (off + i / 8) (by omega) (by omega)]

/-- What is written elsewhere does not change what is read. -/
theorem read_write_of_disjoint {m : Mem} {off off' n : Nat} {bytes : List Byte}
    (h : off' + n ≤ off ∨ off + bytes.length ≤ off') :
  read (write m off bytes) off' n = read m off' n
  := by
  apply read_congr
  intro i hlo hhi
  rcases h with h | h
  · apply write_of_lt
    omega
  · apply write_of_ge
    omega

/-- A word that has been written is read. -/
theorem read_write_layout (m : Mem) (off n : Nat) (v : BitVec (8 * n)) :
  read (write m off (layout n v)) off n = v
  := by
  apply BitVec.eq_of_getLsbD_eq
  intro i hi
  have hk : i / 8 < (layout n v).length := by
    rw [length_layout]
    omega
  rw [getLsbD_read, write_of_mem hk, layout, List.getD_eq_getElem?_getD, List.getElem?_map,
    List.getElem?_range (by omega)]
  rw [decide_eq_true hi, Bool.true_and, Option.map_some, Option.getD_some,
    BitVec.getLsbD_extractLsb', decide_eq_true (by omega), Bool.true_and, Nat.div_add_mod]

/-- Of words that are laid out one after another each is read. -/
theorem read_write_flatMap {n : Nat} (ws : List (BitVec (8 * n))) (m : Mem) (off : Nat) {k : Nat}
    (hk : k < ws.length) :
  read (write m off (ws.flatMap (layout n))) (off + n * k) n = ws.getD k 0
  := by
  induction ws generalizing m off k with
  | nil => cases hk
  | cons w ws ih =>
    rw [List.flatMap_cons, write_append, length_layout]
    cases k with
    | zero =>
      rw [Nat.mul_zero, Nat.add_zero, read_write_of_disjoint (Or.inl (Nat.le_refl _))]
      apply read_write_layout
    | succ k =>
      have hoff : off + n * (k + 1) = off + n + n * k := by
        rw [Nat.mul_succ]
        omega
      rw [hoff]
      apply ih _ _ (Nat.lt_of_succ_lt_succ hk)

/-- Writing over a list keeps its length. -/
@[simp] theorem length_overwrite (bytes : List Byte) (off : Nat) (new : List Byte) :
  (overwrite bytes off new).length = bytes.length
  := by
  rw [overwrite, List.length_map, List.length_range]

/-- A list with bytes written over it inside, as a memory. -/
theorem ofList_overwrite {bytes new : List Byte} {off : Nat}
    (h : off + new.length ≤ bytes.length) :
  ofList (overwrite bytes off new) = write (ofList bytes) off new
  := by
  funext i
  rw [ofList, overwrite, List.getD_eq_getElem?_getD, List.getElem?_map]
  rcases Nat.lt_or_ge i bytes.length with hi | hi
  · rw [List.getElem?_range hi]
    rfl
  · rw [List.getElem?_eq_none (by rwa [List.length_range]), write_of_ge (by omega), ofList,
      List.getD_eq_default _ _ hi]
    rfl

/-- Bytes behind the end of a list. -/
theorem ofList_append_of_lt {bytes more : List Byte} {i : Nat} (h : i < bytes.length) :
  ofList (bytes ++ more) i = ofList bytes i
  := List.getD_append _ _ _ _ h

/-- Bytes in the second one of two lists. -/
theorem ofList_append_of_ge {bytes more : List Byte} {i : Nat} (h : bytes.length ≤ i) :
  ofList (bytes ++ more) i = ofList more (i - bytes.length)
  := List.getD_append_right _ _ _ _ h

/-- A word that is appended is read. -/
theorem read_append_layout (bytes : List Byte) (n : Nat) (v : BitVec (8 * n)) :
  read (ofList (bytes ++ layout n v)) bytes.length n = v
  := by
  calc read (ofList (bytes ++ layout n v)) bytes.length n
    _ = read (write (ofList bytes) bytes.length (layout n v)) bytes.length n := by
        apply read_congr
        intro i hlo hhi
        rw [ofList_append_of_ge hlo, write, length_layout, if_pos ⟨hlo, hhi⟩, ofList]
    _ = v := read_write_layout _ _ _ _

/-! ### Writing at several places -/

section
variable {α : Type} (off len : α → Nat) (new : α → Mem → List Byte)

/-- The memory after the bytes of every item are written; they may depend on what is there. -/
def writes (m : Mem) (xs : List α) : Mem := xs.foldl (fun m x => write m (off x) (new x m)) m

/-- Two items do not overlap. -/
def Apart (x y : α) : Prop := off x + len x ≤ off y ∨ off y + len y ≤ off x

variable {off new} {xs : List α}

/-- A byte outside all items is kept. -/
theorem writes_of_outside (hlen : ∀ x ∈ xs, ∀ m, (new x m).length = len x) {i : Nat}
    (h : ∀ x ∈ xs, i < off x ∨ off x + len x ≤ i) (m : Mem) :
  writes off new m xs i = m i
  := by
  induction xs generalizing m with
  | nil => rfl
  | cons x xs ih =>
    rw [List.forall_mem_cons] at hlen h
    have hx : write m (off x) (new x m) i = m i := by
      rcases h.1 with hlt | hge
      · apply write_of_lt hlt
      · apply write_of_ge
        rwa [hlen.1]
    rw [writes, List.foldl_cons, ← hx]
    apply ih hlen.2 h.2

/-- If items do not overlap and depend on their own bytes only, each one is written as if it were
alone. -/
theorem writes_of_inside (hlen : ∀ x ∈ xs, ∀ m, (new x m).length = len x)
    (hlocal : ∀ x ∈ xs, ∀ m m',
      (∀ i, off x ≤ i → i < off x + len x → m i = m' i) → new x m = new x m')
    (hapart : xs.Pairwise (Apart off len)) {x : α} (hx : x ∈ xs) {i : Nat} (hlo : off x ≤ i)
    (hhi : i < off x + len x) (m : Mem) :
  writes off new m xs i = write m (off x) (new x m) i
  := by
  induction xs generalizing m with
  | nil => cases hx
  | cons y xs ih =>
    rw [List.pairwise_cons] at hapart
    rw [List.forall_mem_cons] at hlen hlocal
    rw [writes, List.foldl_cons]
    rcases List.mem_cons.1 hx with rfl | hx
    · apply writes_of_outside len hlen.2
      intro z hz
      have := hapart.1 z hz
      rw [Apart] at this
      omega
    · have hy : ∀ j, off x ≤ j → j < off x + len x → write m (off y) (new y m) j = m j := by
        intro j hjlo hjhi
        rcases hapart.1 x hx with h | h
        · apply write_of_ge
          rw [hlen.1]
          omega
        · apply write_of_lt
          omega
      have hmem : off x ≤ i ∧ i < off x + (new x m).length := by
        rw [hlen.2 x hx]
        exact ⟨hlo, hhi⟩
      have hin := ih hlen.2 hlocal.2 hapart.2 hx (write m (off y) (new y m))
      rw [writes] at hin
      rw [hin, hlocal.2 x hx _ m hy, write, if_pos hmem, write, if_pos hmem]

end

end Bytes
