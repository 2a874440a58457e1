import Polyc.Lib.Regions

/-!
# Free lists in memory

Regions that are free are kept in a list by words at their beginnings: each has the address of the next
one, and the last one has 0.  What such a list is depends on these words only.
-/

namespace Heap

open Bytes (Byte Mem)

/-! ### Bytes of a memory -/

/-- The bytes from an address on. -/
def fetch (m : Mem) (off n : Nat) : List Byte := (List.range n).map fun k => m (off + k)

/-- Two memories are the same on some regions. -/
def Same (l : List (Nat × Nat)) (m m' : Mem) : Prop := ∀ b ∈ l, ∀ i, b.1 ≤ i → i < b.1 + b.2 → m' i = m i

variable {m m' m'' : Mem} {l l' : List (Nat × Nat)} {off n : Nat} {r b : Nat × Nat} {bytes : List Byte}

@[simp] theorem length_fetch (m : Mem) (off n : Nat) :
  (fetch m off n).length = n
  := by
  rw [fetch, List.length_map, List.length_range]

theorem Same.refl (l : List (Nat × Nat)) (m : Mem) :
  Same l m m
  := fun _ _ _ _ _ => rfl

theorem Same.trans (h : Same l m m') (h' : Same l m' m'') :
  Same l m m''
  := fun b hb i hlo hhi => (h' b hb i hlo hhi).trans (h b hb i hlo hhi)

/-- Fewer regions. -/
theorem Same.mono (h : Same l m m') (hl : ∀ b ∈ l', b ∈ l) :
  Same l' m m'
  := fun b hb => h b (hl b hb)

/-- A byte of a region in one of them. -/
theorem Same.byte (h : Same l m m') (hb : b ∈ l) (hr : Within r b) {i : Nat} (hlo : r.1 ≤ i)
    (hhi : i < r.1 + r.2) :
  m' i = m i
  := h b hb i (Nat.le_trans hr.1 hlo) (Nat.lt_of_lt_of_le hhi hr.2)

/-- What is fetched of a region in one of them. -/
theorem Same.fetch (h : Same l m m') (hb : b ∈ l) (hr : Within (off, n) b) :
  Heap.fetch m' off n = Heap.fetch m off n
  := by
  apply List.map_congr_left
  intro k hk
  apply h.byte hb hr (Nat.le_add_right off k)
  apply Nat.add_lt_add_left (List.mem_range.mp hk)

/-- Bytes that are written change only the region that they are in. -/
theorem same_write (h : ∀ b ∈ l, Apart (off, bytes.length) b) :
  Same l m (Bytes.write m off bytes)
  := by
  intro b hb i hlo hhi
  rcases h b hb with hapart | hapart
  · apply Bytes.write_of_ge (Nat.le_trans hapart hlo)
  · apply Bytes.write_of_lt (Nat.lt_of_lt_of_le hhi hapart)

/-- Bytes that are written are fetched. -/
theorem fetch_write (m : Mem) (off : Nat) (bytes : List Byte) :
  fetch (Bytes.write m off bytes) off bytes.length = bytes
  := by
  apply List.ext_getElem
  · apply length_fetch
  · intro k hk hk'
    have hbyte : Bytes.write m off bytes (off + k) = _ := Bytes.write_of_mem hk'
    rw [List.getD_eq_getElem?_getD, List.getElem?_eq_getElem hk', Option.getD_some] at hbyte
    simpa [fetch] using hbyte

/-- Bytes behind others. -/
theorem fetch_add (m : Mem) (off n k : Nat) :
  fetch m off (n + k) = fetch m off n ++ fetch m (off + n) k
  := by
  rw [fetch, fetch, fetch, List.range_add, List.map_append, List.map_map]
  congr 1
  apply List.map_congr_left
  intro i _
  show m (off + (n + i)) = m (off + n + i)
  rw [Nat.add_assoc]

/-- Bytes before those that are written. -/
theorem fetch_write_behind (h : off + n ≤ r.1) :
  fetch (Bytes.write m r.1 bytes) off n = fetch m off n
  := by
  apply List.map_congr_left
  intro k hk
  apply Bytes.write_of_lt
  have hlt := List.mem_range.mp hk
  omega

/-- Bytes with others written behind them. -/
theorem fetch_write_append (m : Mem) (off n : Nat) (bytes : List Byte) :
  fetch (Bytes.write m (off + n) bytes) off (n + bytes.length) = fetch m off n ++ bytes
  := by
  rw [fetch_add, fetch_write, fetch_write_behind (r := (off + n, 0)) (Nat.le_refl _)]

/-! ### Lists -/

/-- From an address on there is a list of regions in memory, each with the address of the next one. -/
def Linked (m : Mem) : Nat → List Nat → Prop
  | p, [] => p = 0
  | p, x :: xs => p = x ∧ x ≠ 0 ∧ x < 2 ^ 64 ∧ Linked m (Bytes.read m x 8).toNat xs

variable {p x : Nat} {xs : List Nat}

/-- The address of a list is one. -/
theorem Linked.lt (h : Linked m p xs) :
  p < 2 ^ 64
  := by
  cases xs with
  | nil =>
    cases h
    decide
  | cons x xs =>
    rw [h.1]
    apply h.2.2.1

/-- A list is the same where its words are. -/
theorem Linked.same (h : Linked m p xs) (hsame : ∀ x ∈ xs, ∀ i, x ≤ i → i < x + 8 → m' i = m i) :
  Linked m' p xs
  := by
  induction xs generalizing p with
  | nil => apply h
  | cons x xs ih =>
    obtain ⟨hp, hne, hlt, hrest⟩ := h
    have hread : Bytes.read m' x 8 = Bytes.read m x 8 := Bytes.read_congr (hsame x List.mem_cons_self)
    refine ⟨hp, hne, hlt, ?_⟩
    rw [hread]
    apply ih hrest
    exact fun y hy => hsame y (List.mem_cons_of_mem x hy)

/-- A list is the same where none of its words is written. -/
theorem Linked.write (h : Linked m p xs) (hapart : ∀ x ∈ xs, Apart (off, bytes.length) (x, 8)) :
  Linked (Bytes.write m off bytes) p xs
  := by
  apply h.same
  intro x hx i hlo hhi
  apply same_write (l := [(x, 8)]) _ (x, 8) List.mem_cons_self i hlo hhi
  intro b hb
  rw [List.mem_singleton.mp hb]
  apply hapart x hx

/-- A region in front of a list. -/
theorem Linked.push (h : Linked m p xs) (hne : x ≠ 0) (hlt : x < 2 ^ 64)
    (hapart : ∀ y ∈ xs, Apart (x, 8) (y, 8)) :
  Linked (Bytes.write m x (Bytes.layout 8 (BitVec.ofNat 64 p))) x (x :: xs)
  := by
  refine ⟨rfl, hne, hlt, ?_⟩
  rw [Bytes.read_write_layout m x 8 (BitVec.ofNat 64 p), BitVec.toNat_ofNat, Nat.mod_eq_of_lt h.lt]
  apply h.write
  rw [Bytes.length_layout]
  apply hapart

end Heap
