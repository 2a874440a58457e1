import Polyc.Memory.AoStrPool

/-!
# Strings keep what is appended to them

A string has its record and its buffer of what the pool hands out.  What a call does to one string keeps what
the others have, and the bytes that were there before the arena.
-/

namespace Polyc

open Bytes (Byte)
open Heap (Packed Same)

namespace AoStrPool

variable {before owned : List (Nat × Nat)} {pool pool' pool'' : AoStrPool} {a : BlockAnswers}
  {b : AoStr} {c : AoStrContent} {additional : BitVec 64} {bytes : List Byte}

theorem Keeps.trans (h : Keeps before owned pool pool') (h' : Keeps before owned pool' pool'') :
  Keeps before owned pool pool''
  := Same.trans h h'

/-- Less is kept. -/
theorem Keeps.of_cons {r : Nat × Nat} (h : Keeps before (r :: owned) pool pool') :
  Keeps before owned pool pool'
  := Same.mono h fun _ hb => List.mem_cons_of_mem r hb

/-- What others have is kept. -/
theorem Keeps.of_append {l : List (Nat × Nat)} (h : Keeps before (l ++ owned) pool pool') :
  Keeps before owned pool pool'
  := by
  apply Same.mono h
  intro b hb
  rcases List.mem_append.mp hb with hb | hb
  · apply List.mem_append_left _ (List.mem_append_right _ hb)
  · apply List.mem_append_right _ hb

end AoStrPool

/-! ### One string -/

/-- What a string has, and that its capacity is one of 32 bits. -/
structure AoStr.Valid (m : Bytes.Mem) (b : AoStr) (c : AoStrContent) : Prop where
  has : b.Has m c
  small : b.capacity.toNat < 2 ^ 32

section

variable {before owned : List (Nat × Nat)} {pool pool' : AoStrPool} {a : BlockAnswers}
  {b : AoStr} {c : AoStrContent} {m m' : Bytes.Mem} {additional : BitVec 64} {bytes : List Byte}

/-- The cells of a string with a buffer. -/
theorem AoStr.cells_eq (h : b.data ≠ 0) :
  b.cells = [(b.self, sizeofAoStr.toNat), (b.data, b.capacity.toNat)]
  := by
  rw [AoStr.cells, if_neg h]

/-- The buffer of a string is one of its cells. -/
theorem AoStr.data_mem_cells (h : b.data ≠ 0) :
  (b.data, b.capacity.toNat) ∈ b.cells
  := by
  rw [AoStr.cells_eq h]
  apply List.mem_cons_of_mem _ List.mem_cons_self

/-- The cells of a string with a buffer, and others. -/
theorem cells_perm (h : b.data ≠ 0) (owned : List (Nat × Nat)) :
  (b.cells ++ owned).Perm ((b.data, b.capacity.toNat) :: (b.self, sizeofAoStr.toNat) :: owned)
  := by
  rw [AoStr.cells_eq h]
  apply List.Perm.swap

/-- The characters are in the buffer. -/
theorem AoStr.Has.within (hb : b.Has m c) (h : b.data ≠ 0) :
  Heap.Within (b.data, b.len.toNat) (b.data, b.capacity.toNat)
  := ⟨le_refl _, Nat.add_le_add_left (le_of_lt (hb.lt h)) _⟩

/-- There are no more characters than there is capacity. -/
theorem AoStr.Has.len_le (hb : b.Has m c) :
  b.len.toNat ≤ b.capacity.toNat
  := by
  rcases eq_or_ne b.data 0 with h | h
  · rw [(hb.released h).1, (hb.released h).2.1]
  · apply le_of_lt (hb.lt h)

/-- A string has what it has where its buffer is the same. -/
theorem AoStr.Valid.same (hb : b.Valid m c) (hsame : Same b.cells m m') :
  b.Valid m' c
  := by
  rcases eq_or_ne b.data 0 with h | h
  · obtain ⟨hlen, -, hended⟩ := hb.has.released h
    have hbytes : c.bytes = [] := by
      apply List.length_eq_zero_iff.mp
      rw [← hb.has.len, hlen]
      rfl
    refine ⟨⟨hb.has.len, ?_, ?_, hb.has.lt, hb.has.released⟩, hb.small⟩
    · rw [hlen, hbytes]
      rfl
    · rw [hended]
      intro hfalse
      cases hfalse
  · have hcell := AoStr.data_mem_cells h
    refine ⟨⟨hb.has.len, ?_, ?_, hb.has.lt, hb.has.released⟩, hb.small⟩
    · rw [hsame.fetch hcell (hb.has.within h), hb.has.bytes]
    · intro hended
      have hlt : b.len.toNat < b.capacity.toNat := hb.has.lt h
      rw [hsame _ hcell _ (Nat.le_add_right _ _) (Nat.add_lt_add_left hlt _)]
      apply hb.has.ended hended

/-- The characters of a string are read. -/
theorem AoStr.Valid.load_eq (hb : b.Valid pool.mem c) (hinv : pool.Inv before (b.cells ++ owned)) :
  pool.load b.data b.len.toNat = some c.bytes
  := by
  rw [← hb.has.bytes]
  rcases eq_or_ne b.data 0 with h | h
  · rw [(hb.has.released h).1]
    apply AoStrPool.load_zero
  · apply (hinv.of_perm (cells_perm h owned)).load_eq _ (hb.has.within h)
    apply List.mem_cons_self

/-! ### Buffers -/

/-- Bytes of a string that can be read in a pool as they were in another one: those that are spared. -/
def AoStr.Left (b : AoStr) (pool pool' : AoStrPool) : Prop :=
  ∀ d n, b.data ≠ 0 → Heap.Within (d, n) (b.data, b.capacity.toNat) → b.Spares d n →
    pool'.load d n = some (Heap.fetch pool.mem d n)

/-- The buffer of a string is taken back. -/
theorem freeBuffer_eq (hb : b.Valid m c) (hinv : pool.Inv before (b.cells ++ owned)) :
  ∃ pool', pool.aoStrPoolFree b.data (b.capacity.setWidth 32) = some pool'
    ∧ pool'.Inv before ((b.self, sizeofAoStr.toNat) :: owned)
    ∧ AoStrPool.Keeps before ((b.self, sizeofAoStr.toNat) :: owned) pool pool' ∧ b.Left pool pool'
  := by
  rcases eq_or_ne b.data 0 with h | h
  · rw [AoStr.cells, if_pos h] at hinv
    exact ⟨pool, if_pos h, hinv, Same.refl _ _, fun _ _ hne => absurd h hne⟩
  · have hcap : (b.capacity.setWidth 32).toNat = b.capacity.toNat := by
      rw [BitVec.toNat_setWidth, Nat.mod_eq_of_lt hb.small]
    obtain ⟨pool', hfree, hinv', hkeeps, hleft⟩ := AoStrPool.Inv.aoStrPoolFree_eq (b.capacity.setWidth 32)
      (hcap ▸ hinv.of_perm (cells_perm h owned))
    rw [hcap] at hleft
    exact ⟨pool', hfree, hinv', hkeeps, fun d n _ => hleft d n⟩

/-- A request that is not cut to 32 bits. -/
theorem bufferAlloc_eq {requested : BitVec 64} {owned : List (Nat × Nat)} (hinv : pool.Inv before owned)
    (ha : pool.Gives requested a) (hsize : (requested.setWidth 32).toNat ≤ 2 ^ 32 - 8) :
  ∃ pool' p actual, pool.aoStrBufferAlloc a requested = some (pool', p, actual) ∧ p ≠ 0
    ∧ pool'.Inv before ((p, (actual.setWidth 64).toNat) :: owned) ∧ AoStrPool.Keeps before owned pool pool'
    ∧ (requested.setWidth 32).toNat ≤ (actual.setWidth 64).toNat ∧ 0 < (actual.setWidth 64).toNat
    ∧ (actual.setWidth 64).toNat = actual.toNat
  := by
  obtain ⟨pool', p, actual, halloc, hinv', hkeeps, hle, hpos⟩ := hinv.aoStrPoolAlloc_eq ha hsize
  have hactual : (actual.setWidth 64).toNat = actual.toNat := BitVec.toNat_setWidth_of_le (by decide)
  refine ⟨pool', p, actual, halloc, (hinv'.arena.addressed_of_mem (hinv'.mem List.mem_cons_self)).1, ?_, hkeeps, ?_, ?_,
    hactual⟩
  · rwa [hactual]
  · rwa [hactual]
  · rwa [hactual]

/-- What is put into a buffer below its capacity. -/
theorem putBytes_eq {data capacity : Nat} (hinv : pool.Inv before ((data, capacity) :: owned)) (idx : Nat)
    (bytes : List Byte) (hroom : idx + bytes.length ≤ capacity) :
  pool.put data capacity idx bytes = some (pool.write (data + idx) bytes)
    ∧ (pool.write (data + idx) bytes).Inv before ((data, capacity) :: owned)
    ∧ AoStrPool.Keeps before owned pool (pool.write (data + idx) bytes)
  := by
  have hin : Heap.Within (data + idx, bytes.length) (data, capacity) := by
    constructor
    · apply Nat.le_add_right
    · show data + idx + bytes.length ≤ data + capacity
      omega
  obtain ⟨hstore, hinv', hkeeps⟩ := hinv.store_eq hin
  refine ⟨?_, hinv', hkeeps⟩
  rw [AoStrPool.put, if_pos hroom, hstore]

/-- A new string has nothing. -/
theorem aoStrAlloc_eq {owned : List (Nat × Nat)} {a : BlockAnswers × BlockAnswers} {capacity : BitVec 64}
    (hinv : pool.Inv before owned) (ha : pool.GivesString capacity a)
    (hsize : (capacity.setWidth 32).toNat ≤ 2 ^ 32 - 8) :
  ∃ pool' b, pool.aoStrAlloc a capacity = some (pool', b) ∧ pool'.Inv before (b.cells ++ owned)
    ∧ AoStrPool.Keeps before owned pool pool' ∧ b.Valid pool'.mem ⟨[], false⟩ ∧ b.data ≠ 0 ∧ b.len = 0
    ∧ (capacity.setWidth 32).toNat ≤ b.capacity.toNat
  := by
  obtain ⟨pool₁, self, hself, hinv₁, hkeeps₁, -⟩ := hinv.globalArenaAllocate_eq ha.1 (by decide) (by decide)
  obtain ⟨pool₂, data, actual, hdata, hne, hinv₂, hkeeps₂, hle, hpos, hactual⟩ :=
    bufferAlloc_eq hinv₁ (ha.2 pool₁ self hself) hsize
  let b : AoStr := ⟨self, data, 0, actual.setWidth 64⟩
  refine ⟨pool₂, b, ?_, ?_, hkeeps₁.trans hkeeps₂.of_cons, ⟨⟨rfl, rfl, ?_, ?_, ?_⟩, ?_⟩, hne, rfl, hle⟩
  · rw [AoStrPool.aoStrAlloc]
    simp only [hself, hdata, Option.bind_eq_bind, Option.bind_some]
    rfl
  · apply hinv₂.of_perm (cells_perm (b := b) hne owned).symm
  · intro hfalse
    cases hfalse
  · intro _
    apply hpos
  · intro hzero
    cases hne hzero
  · show (actual.setWidth 64).toNat < 2 ^ 32
    rw [hactual]
    apply actual.isLt

/-- A string whose buffer is extended has the characters that it had. -/
theorem aoStrExtendBuffer_eq (hb : b.Valid pool.mem c) (hinv : pool.Inv before (b.cells ++ owned))
    (ha : pool.Gives (b.capacity * 2 + additional) a)
    (hmore : b.capacity.toNat < b.capacity.toNat * 2 + additional.toNat) (hfits : b.Fits additional.toNat) :
  ∃ pool' b', pool.aoStrExtendBuffer a b additional = some (pool', b') ∧ pool'.Inv before (b'.cells ++ owned)
    ∧ AoStrPool.Keeps before owned pool pool' ∧ b'.Valid pool'.mem ⟨c.bytes, false⟩ ∧ b'.data ≠ 0 ∧ b'.len = b.len
    ∧ b.capacity.toNat * 2 + additional.toNat ≤ b'.capacity.toNat ∧ b.Left pool pool'
  := by
  have hdesired : (b.capacity * 2 + additional).toNat = b.capacity.toNat * 2 + additional.toNat := by
    have htwo : (b.capacity * 2).toNat = b.capacity.toNat * 2 := by
      apply BitVec.toNat_mul_of_lt
      have hsmall := hb.small
      show b.capacity.toNat * 2 < 2 ^ 64
      omega
    rw [BitVec.toNat_add_of_lt, htwo]
    rw [AoStr.Fits] at hfits
    omega
  have hcut : ((b.capacity * 2 + additional).setWidth 32).toNat = b.capacity.toNat * 2 + additional.toNat := by
    rw [AoStr.Fits] at hfits
    rw [BitVec.toNat_setWidth, hdesired, Nat.mod_eq_of_lt (by omega)]
  have hgt : b.capacity * 2 + additional > b.capacity := by
    apply BitVec.lt_def.mpr
    rwa [hdesired]
  obtain ⟨pool₁, tmp, actual, halloc, hne, hinv₁, hkeeps₁, hle, hpos, hactual⟩ :=
    bufferAlloc_eq hinv ha (by rwa [hcut])
  rw [hcut] at hle
  -- the characters are still in the old buffer
  have hb₁ : b.Valid pool₁.mem c := hb.same (Same.mono hkeeps₁ fun _ h =>
    List.mem_append_left _ (List.mem_append_left _ h))
  have hload := hb₁.load_eq (hinv₁.of_perm List.perm_middle.symm)
  have hlen := hb.has.len_le
  rw [hactual] at hle hpos hinv₁
  obtain ⟨hput, hinv₂, hkeeps₂⟩ := putBytes_eq hinv₁ 0 c.bytes (by
    rw [← hb.has.len]
    omega)
  obtain ⟨pool₃, hfree, hinv₃, hkeeps₃, hleft⟩ := freeBuffer_eq hb (hinv₂.of_perm List.perm_middle.symm)
  let b' : AoStr := { b with data := tmp, capacity := actual.setWidth 64 }
  have hcells : b'.cells = [(b.self, sizeofAoStr.toNat), (tmp, actual.toNat)] := by
    rw [AoStr.cells_eq (b := b') hne, ← hactual]
  refine ⟨pool₃, b', ?_, ?_, ?_, ⟨⟨hb.has.len, ?_, ?_, ?_, ?_⟩, ?_⟩, hne, rfl, ?_, ?_⟩
  · rw [AoStrPool.aoStrExtendBuffer]
    simp only [if_pos hgt, halloc, if_neg hne, hload, hput, hfree, Option.bind_eq_bind, Option.bind_some]
    rfl
  · rw [hcells]
    apply hinv₃
  · exact (hkeeps₁.of_append.trans hkeeps₂.of_append).trans hkeeps₃.of_cons.of_cons
  · show Heap.fetch pool₃.mem tmp b.len.toNat = c.bytes
    have hcell : (tmp, actual.toNat) ∈ (b.self, sizeofAoStr.toNat) :: (tmp, actual.toNat) :: owned ++ before :=
      List.mem_cons_of_mem _ List.mem_cons_self
    have hin : Heap.Within (tmp, b.len.toNat) (tmp, actual.toNat) :=
      ⟨le_refl _, Nat.add_le_add_left (show b.len.toNat ≤ actual.toNat by omega) _⟩
    rw [Same.fetch hkeeps₃ hcell hin, hb.has.len]
    apply Heap.fetch_write
  · intro hfalse
    cases hfalse
  · intro _
    apply BitVec.lt_def.mpr
    show b.len.toNat < (actual.setWidth 64).toNat
    omega
  · intro hzero
    cases hne hzero
  · show (actual.setWidth 64).toNat < 2 ^ 32
    rw [hactual]
    apply actual.isLt
  · show _ ≤ (actual.setWidth 64).toNat
    rwa [hactual]
  · intro d n hdata hin hspares
    have hcell : (b.data, b.capacity.toNat) ∈ b.cells ++ owned ++ before :=
      List.mem_append_left _ (List.mem_append_left _ (AoStr.data_mem_cells hdata))
    rw [hleft d n hdata hin hspares, Same.fetch hkeeps₂ hcell hin, Same.fetch hkeeps₁ hcell hin]

variable (additional) in
/-- A string that is to get more characters has room for them and a 0, and those that it had can be read. -/
theorem aoStrExtendBufferIfNeeded_eq (hb : b.Valid pool.mem c) (hinv : pool.Inv before (b.cells ++ owned))
    (hlen : b.len.toNat + additional.toNat < 2 ^ 63)
    (ha : b.Grows additional → pool.Gives (b.capacity * 2 + (additional + 1)) a)
    (hfits : b.Grows additional → b.Fits (additional.toNat + 1)) :
  ∃ pool' b' ended, pool.aoStrExtendBufferIfNeeded a b additional = some (pool', b')
    ∧ pool'.Inv before (b'.cells ++ owned) ∧ AoStrPool.Keeps before owned pool pool'
    ∧ b'.Valid pool'.mem ⟨c.bytes, ended⟩ ∧ b'.data ≠ 0 ∧ b'.len = b.len
    ∧ b.len.toNat + additional.toNat < b'.capacity.toNat
    ∧ ∀ d n, b.data ≠ 0 → Heap.Within (d, n) (b.data, b.capacity.toNat) → (b.Grows additional → b.Spares d n) →
      pool'.load d n = some (Heap.fetch pool.mem d n)
  := by
  have hone : (1 : BitVec 64).toNat = 1 := rfl
  rcases em (b.Grows additional) with hgrows | hroom
  · have hsucc : (additional + 1).toNat = additional.toNat + 1 := by
      rw [BitVec.toNat_add_of_lt, hone]
      omega
    obtain ⟨pool', b', hextend, hinv', hkeeps, hvalid, hne, hlen', hcap, hleft⟩ := aoStrExtendBuffer_eq hb hinv (ha hgrows)
      (by omega) (by
        rw [hsucc]
        apply hfits hgrows)
    refine ⟨pool', b', false, ?_, hinv', hkeeps, hvalid, hne, hlen', ?_,
      fun d n hdata hin hspares => hleft d n hdata hin (hspares hgrows)⟩
    · exact (if_pos hgrows).trans hextend
    · rcases eq_or_ne b.data 0 with h | h
      · obtain ⟨hzero, hcap₀, -⟩ := hb.has.released h
        rw [hzero]
        have hz : (0 : BitVec 64).toNat = 0 := rfl
        omega
      · have hlt : b.len.toNat < b.capacity.toNat := hb.has.lt h
        omega
  · have hsum : (b.len + additional + 1).toNat = b.len.toNat + additional.toNat + 1 := by
      have hadd : (b.len + additional).toNat = b.len.toNat + additional.toNat := by
        apply BitVec.toNat_add_of_lt
        omega
      rw [BitVec.toNat_add_of_lt, hadd, hone]
      omega
    have hlt : (b.len + additional + 1).toNat < b.capacity.toNat := Nat.lt_of_not_le hroom
    refine ⟨pool, b, c.ended, if_neg hroom, hinv, Same.refl _ _, hb, ?_, rfl, by omega, ?_⟩
    · intro hzero
      rw [(hb.has.released hzero).2.1] at hlt
      cases hlt
    · intro d n hdata hin _
      apply hinv.load_eq _ hin
      apply List.mem_append_left _ (List.mem_append_left _ (AoStr.data_mem_cells hdata))

/-! ### Appending -/

/-- Characters that are put behind those of a string, with a 0. -/
theorem append_eq (hb : b.Valid pool.mem c) (hne : b.data ≠ 0) (hinv : pool.Inv before (b.cells ++ owned))
    (len : BitVec 64) (bytes : List Byte) (hlen : len.toNat = b.len.toNat + bytes.length)
    (hroom : len.toNat < b.capacity.toNat) :
  ∃ pool₁ pool', pool.put b.data b.capacity.toNat b.len.toNat bytes = some pool₁
    ∧ pool₁.terminate { b with len } = some pool' ∧ pool'.Inv before (({ b with len } : AoStr).cells ++ owned)
    ∧ AoStrPool.Keeps before owned pool pool' ∧ ({ b with len } : AoStr).Valid pool'.mem (c.append bytes)
  := by
  obtain ⟨hput₁, hinv₁, hkeeps₁⟩ := putBytes_eq (hinv.of_perm (cells_perm hne owned)) b.len.toNat bytes
    (by omega)
  obtain ⟨hput₂, hinv₂, hkeeps₂⟩ := putBytes_eq hinv₁ len.toNat [0] hroom
  refine ⟨_, _, hput₁, hput₂, hinv₂.of_perm (cells_perm hne owned).symm, hkeeps₁.of_cons.trans hkeeps₂.of_cons,
    ⟨⟨?_, ?_, ?_, ?_, ?_⟩, hb.small⟩⟩
  · show len.toNat = (c.bytes ++ bytes).length
    rw [List.length_append, ← hb.has.len, hlen]
  · show Heap.fetch (Bytes.write (Bytes.write pool.mem (b.data + b.len.toNat) bytes) (b.data + len.toNat) [0]) b.data
      len.toNat = c.bytes ++ bytes
    rw [Heap.fetch_write_behind (r := (b.data + len.toNat, 0)) (le_refl _), hlen, Heap.fetch_write_append,
      hb.has.bytes]
  · intro _
    exact Bytes.write_of_mem (List.length_pos_of_ne_nil (List.cons_ne_nil 0 []))
  · intro _
    apply hroom
  · intro hzero
    cases hne hzero

/-- `aoStrPutChar`. -/
theorem aoStrPutChar_eq (hb : b.Valid pool.mem c) (hinv : pool.Inv before (b.cells ++ owned)) (ch : Byte)
    (hlen : b.len.toNat + 1 < 2 ^ 31) (ha : b.Grows 10 → pool.Gives (b.capacity * 2 + (10 + 1)) a)
    (hfits : b.Grows 10 → b.Fits 11) :
  ∃ pool' b', pool.aoStrPutChar a b ch = some (pool', b') ∧ pool'.Inv before (b'.cells ++ owned)
    ∧ AoStrPool.Keeps before owned pool pool' ∧ b'.Valid pool'.mem (c.append [ch])
  := by
  have hten : (10 : BitVec 64).toNat = 10 := rfl
  obtain ⟨pool₁, b₁, ended, hextend, hinv₁, hkeeps₁, hb₁, hne, hlen₁, hroom, -⟩ :=
    aoStrExtendBufferIfNeeded_eq 10 hb hinv (by omega) ha hfits
  have hsum : (b₁.len + 1).toNat = b₁.len.toNat + 1 := by
    rw [hlen₁, BitVec.toNat_add_of_lt]
    · rfl
    · have hone : (1 : BitVec 64).toNat = 1 := rfl
      omega
  obtain ⟨pool₂, pool', hput, hend, hinv', hkeeps', hb'⟩ := append_eq hb₁ hne hinv₁ (b₁.len + 1) [ch] hsum
    (by
      rw [hsum, hlen₁]
      omega)
  refine ⟨pool', { b₁ with len := b₁.len + 1 }, ?_, hinv', hkeeps₁.trans hkeeps', hb'⟩
  rw [AoStrPool.aoStrPutChar]
  simp only [hextend, hput, hend, Option.bind_eq_bind, Option.bind_some]
  rfl

/-- Bytes that are the same behind the growth of a string: those that others have, those that were there before, and
its own characters that are spared where it grows. -/
def AoStr.Source (before owned : List (Nat × Nat)) (b : AoStr) (d : Nat) (len : BitVec 64) : Prop :=
  len.toNat = 0 ∨ (∃ r ∈ owned ++ before, Heap.Within (d, len.toNat) r)
    ∨ b.data ≠ 0 ∧ Heap.Within (d, len.toNat) (b.data, b.capacity.toNat) ∧ (b.Grows len → b.Spares d len.toNat)

/-- `aoStrCatLen`. -/
theorem aoStrCatLen_eq (hb : b.Valid pool.mem c) (hinv : pool.Inv before (b.cells ++ owned)) {d : Nat} {len : BitVec 64}
    (hlen : b.len.toNat + len.toNat < 2 ^ 31) (ha : b.Grows len → pool.Gives (b.capacity * 2 + (len + 1)) a)
    (hfits : b.Grows len → b.Fits (len.toNat + 1)) (hsource : b.Source before owned d len) :
  ∃ pool' b', pool.aoStrCatLen a b d len = some (pool', b') ∧ pool'.Inv before (b'.cells ++ owned)
    ∧ AoStrPool.Keeps before owned pool pool'
    ∧ b'.Valid pool'.mem (c.append (Heap.fetch pool.mem d len.toNat))
  := by
  obtain ⟨pool₁, b₁, ended, hextend, hinv₁, hkeeps₁, hb₁, hne, hlen₁, hroom, hleft⟩ :=
    aoStrExtendBufferIfNeeded_eq len hb hinv (by omega) ha hfits
  have hload : pool₁.load d len.toNat = some (Heap.fetch pool.mem d len.toNat) := by
    rcases hsource with hzero | ⟨r, hr, hin⟩ | ⟨hdata, hin, hspares⟩
    · rw [hzero]
      apply AoStrPool.load_zero
    · rw [← Same.fetch hkeeps₁ hr hin]
      apply hinv₁.load_eq _ hin
      rw [List.append_assoc]
      apply List.mem_append_right _ hr
    · apply hleft d len.toNat hdata hin hspares
  have hsum : (b₁.len + len).toNat = b₁.len.toNat + (Heap.fetch pool.mem d len.toNat).length := by
    rw [Heap.length_fetch, hlen₁]
    apply BitVec.toNat_add_of_lt
    omega
  obtain ⟨pool₂, pool', hput, hend, hinv', hkeeps', hb'⟩ := append_eq hb₁ hne hinv₁ (b₁.len + len) _ hsum (by
    rw [hsum, Heap.length_fetch, hlen₁]
    apply hroom)
  refine ⟨pool', { b₁ with len := b₁.len + len }, ?_, hinv', hkeeps₁.trans hkeeps', hb'⟩
  rw [AoStrPool.aoStrCatLen]
  simp only [hextend, hload, hput, hend, Option.bind_eq_bind, Option.bind_some]
  rfl

/-- `aoStrDup` and `aoStrDupRaw` of bytes that can be read. -/
theorem dupBytes_eq {a : BlockAnswers × BlockAnswers} {owned : List (Nat × Nat)} (hinv : pool.Inv before owned) {d : Nat}
    {len : BitVec 64} (hlen : len.toNat < 2 ^ 31) (ha : pool.GivesString (len + 1) a)
    (hread : len.toNat = 0 ∨ ∃ r ∈ owned ++ before, Heap.Within (d, len.toNat) r) :
  ∃ pool' b, pool.dupBytes a d len = some (pool', b) ∧ pool'.Inv before (b.cells ++ owned)
    ∧ AoStrPool.Keeps before owned pool pool' ∧ b.Valid pool'.mem ⟨Heap.fetch pool.mem d len.toNat, true⟩
  := by
  have hone : (1 : BitVec 64).toNat = 1 := rfl
  have hsucc : ((len + 1).setWidth 32).toNat = len.toNat + 1 := by
    rw [BitVec.toNat_setWidth, BitVec.toNat_add_of_lt, hone, Nat.mod_eq_of_lt]
    · omega
    · omega
  obtain ⟨pool₁, b₁, halloc, hinv₁, hkeeps₁, hb₁, hne, hzero, hcap⟩ := aoStrAlloc_eq hinv ha (by
    rw [hsucc]
    omega)
  have hload : pool₁.load d len.toNat = some (Heap.fetch pool.mem d len.toNat) := by
    rcases hread with hnone | ⟨r, hr, hin⟩
    · rw [hnone]
      apply AoStrPool.load_zero
    · rw [← Same.fetch hkeeps₁ hr hin]
      apply hinv₁.load_eq _ hin
      rw [List.append_assoc]
      apply List.mem_append_right _ hr
  have hz : b₁.len.toNat = 0 := by
    rw [hzero]
    rfl
  obtain ⟨pool₂, pool', hput, hend, hinv', hkeeps', hb'⟩ := append_eq hb₁ hne hinv₁ len
    (Heap.fetch pool.mem d len.toNat) (by rw [hz, Nat.zero_add, Heap.length_fetch]) (by omega)
  rw [hz] at hput
  refine ⟨pool', { b₁ with len }, ?_, hinv', hkeeps₁.trans hkeeps', hb'⟩
  rw [AoStrPool.dupBytes]
  simp only [halloc, hload, hput, hend, Option.bind_eq_bind, Option.bind_some]
  rfl

/-- `aoStrRelease`. -/
theorem aoStrRelease_eq (hb : b.Valid pool.mem c) (hinv : pool.Inv before (b.cells ++ owned)) :
  ∃ pool' b', pool.aoStrRelease b = some (pool', b') ∧ pool'.Inv before (b'.cells ++ owned)
    ∧ AoStrPool.Keeps before owned pool pool' ∧ b'.Valid pool'.mem ⟨[], false⟩
  := by
  obtain ⟨pool', hfree, hinv', hkeeps, -⟩ := freeBuffer_eq hb hinv
  refine ⟨pool', { b with data := 0, capacity := 0, len := 0 }, ?_, hinv', hkeeps.of_cons, ⟨⟨rfl, rfl, ?_, ?_, ?_⟩, ?_⟩⟩
  · rw [AoStrPool.aoStrRelease, hfree]
    rfl
  · intro hfalse
    cases hfalse
  · intro hne
    cases hne rfl
  · intro _
    exact ⟨rfl, rfl, rfl⟩
  · show (0 : BitVec 64).toNat < 2 ^ 32
    decide

end

/-! ### All strings -/

/-- The pool has handed out the cells of the strings, and each of them has what it is to have. -/
structure AoStrState.Inv (before : List (Nat × Nat)) (s : AoStrState) (cs : List AoStrContent) : Prop where
  pool : s.pool.Inv before (s.strs.flatMap AoStr.cells)
  count : s.strs.length = cs.length
  valid : ∀ (i : Nat) b c, s.strs[i]? = some b → cs[i]? = some c → b.Valid s.pool.mem c

section

variable {before : List (Nat × Nat)} {s : AoStrState} {cs : List AoStrContent} {pool' : AoStrPool} {i : Nat}
  {b b' : AoStr} {c c' : AoStrContent}

/-- What is promised holds. -/
theorem AoStrState.Inv.sound (hinv : s.Inv before cs) :
  s.Sound before cs
  where
  arena := hinv.pool.arena.sound
  count := hinv.count
  has i b c hb hc := (hinv.valid i b c hb hc).has
  handed _ hr := hinv.pool.mem hr
  unshared := hinv.pool.packed.apart

/-- The cells of a string and those of the others. -/
theorem flatMap_cells_perm (hb : s.strs[i]? = some b) :
  (s.strs.flatMap AoStr.cells).Perm (b.cells ++ (s.strs.eraseIdx i).flatMap AoStr.cells)
  := Heap.flatMap_perm_eraseIdx hb _

/-- The cells of a string are there. -/
theorem mem_flatMap_cells {strs : List AoStr} {r : Nat × Nat} (hb : b ∈ strs) (hr : r ∈ b.cells) :
  r ∈ strs.flatMap AoStr.cells
  := List.mem_flatMap.mpr ⟨b, hb, hr⟩

/-- Strings whose cells are kept have what they had. -/
theorem AoStrState.Inv.others (hinv : s.Inv before cs) {strs : List AoStr}
    (hkeeps : AoStrPool.Keeps before (strs.flatMap AoStr.cells) s.pool pool') (hb : s.strs[i]? = some b)
    (hmem : b ∈ strs) (hc : cs[i]? = some c) :
  b.Valid pool'.mem c
  := by
  apply (hinv.valid i b c hb hc).same
  apply Same.mono hkeeps
  exact fun r hr => List.mem_append_left _ (mem_flatMap_cells hmem hr)

/-- A string is made. -/
theorem AoStrState.Inv.made (hinv : s.Inv before cs)
    (hpool : pool'.Inv before (b.cells ++ s.strs.flatMap AoStr.cells))
    (hkeeps : AoStrPool.Keeps before (s.strs.flatMap AoStr.cells) s.pool pool') (hb : b.Valid pool'.mem c) :
  AoStrState.Inv before ⟨pool', s.strs ++ [b]⟩ (cs ++ [c])
  := by
  constructor
  · apply hpool.of_perm
    show (b.cells ++ s.strs.flatMap AoStr.cells).Perm ((s.strs ++ [b]).flatMap AoStr.cells)
    rw [List.flatMap_append, List.flatMap_singleton]
    apply List.perm_append_comm
  · show (s.strs ++ [b]).length = _
    rw [List.length_append, List.length_append, hinv.count]
    rfl
  · intro j b₁ c₁ hb₁ hc₁
    rcases lt_or_ge j s.strs.length with hj | hj
    · rw [List.getElem?_append_left hj] at hb₁
      rw [List.getElem?_append_left (hinv.count ▸ hj)] at hc₁
      apply hinv.others hkeeps hb₁ (List.mem_of_getElem? hb₁) hc₁
    · -- the new string comes last
      rw [List.getElem?_append_right hj] at hb₁
      rw [List.getElem?_append_right (hinv.count ▸ hj), ← hinv.count] at hc₁
      obtain ⟨hlast, rfl⟩ := List.getElem?_eq_some_iff.mp hb₁
      obtain ⟨-, rfl⟩ := List.getElem?_eq_some_iff.mp hc₁
      simpa only [List.getElem_singleton] using hb

/-- A string is changed. -/
theorem AoStrState.Inv.changed (hinv : s.Inv before cs) (hb : s.strs[i]? = some b)
    (hpool : pool'.Inv before (b'.cells ++ (s.strs.eraseIdx i).flatMap AoStr.cells))
    (hkeeps : AoStrPool.Keeps before ((s.strs.eraseIdx i).flatMap AoStr.cells) s.pool pool')
    {f : AoStrContent → AoStrContent} (hb' : ∀ c, cs[i]? = some c → b'.Valid pool'.mem (f c)) :
  AoStrState.Inv before ⟨pool', s.strs.set i b'⟩ (cs.modify i f)
  := by
  have hi := (List.getElem?_eq_some_iff.mp hb).1
  constructor
  · apply hpool.of_perm
    apply ((List.set_perm_cons_eraseIdx hi b').flatMap_right AoStr.cells).symm
  · show (s.strs.set i b').length = _
    rw [List.length_set, List.length_modify, hinv.count]
  · intro j b₁ c₁ hb₁ hc₁
    change (s.strs.set i b')[j]? = some b₁ at hb₁
    rcases eq_or_ne i j with rfl | hne
    · rw [List.getElem?_set_self hi] at hb₁
      rw [List.getElem?_modify_eq] at hc₁
      cases hb₁
      obtain ⟨c, hc, rfl⟩ := Option.map_eq_some_iff.mp hc₁
      apply hb' c hc
    · rw [List.getElem?_set_ne hne] at hb₁
      rw [List.getElem?_modify_ne _ _ hne] at hc₁
      apply hinv.others hkeeps hb₁ (List.mem_eraseIdx_iff_getElem?.mpr ⟨j, hne.symm, hb₁⟩) hc₁

/-- A string has something that it is to have. -/
theorem AoStrState.Inv.content (hinv : s.Inv before cs) (hb : s.strs[i]? = some b) :
  ∃ c, cs[i]? = some c ∧ b.Valid s.pool.mem c
  := by
  have hi : i < cs.length := by
    rw [← hinv.count]
    apply (List.getElem?_eq_some_iff.mp hb).1
  use cs[i], List.getElem?_eq_getElem hi
  apply hinv.valid i b _ hb (List.getElem?_eq_getElem hi)

/-- The call on a string that is there. -/
theorem AoStrState.Inv.changed_eq (hinv : s.Inv before cs) (hb : s.strs[i]? = some b)
    {f : AoStr → Option (AoStrPool × AoStr)} {g : AoStrContent → AoStrContent}
    (hf : ∀ c, b.Valid s.pool.mem c → s.pool.Inv before (b.cells ++ (s.strs.eraseIdx i).flatMap AoStr.cells) →
      ∃ pool' b', f b = some (pool', b') ∧ pool'.Inv before (b'.cells ++ (s.strs.eraseIdx i).flatMap AoStr.cells)
        ∧ AoStrPool.Keeps before ((s.strs.eraseIdx i).flatMap AoStr.cells) s.pool pool'
        ∧ b'.Valid pool'.mem (g c)) :
  ∃ s', s.changed i f = some (s', ()) ∧ s'.Inv before (cs.modify i g)
  := by
  obtain ⟨c, hc, hvalid⟩ := hinv.content hb
  obtain ⟨pool', b', hcall, hpool, hkeeps, hvalid'⟩ := hf c hvalid (hinv.pool.of_perm (flatMap_cells_perm hb))
  refine ⟨⟨pool', s.strs.set i b'⟩, ?_, hinv.changed hb hpool hkeeps ?_⟩
  · rw [AoStrState.changed, hb]
    simp only [hcall, Option.bind_eq_bind, Option.bind_some]
    rfl
  · intro c' hc'
    rw [hc] at hc'
    cases hc'
    apply hvalid'

/-- The call that makes a string. -/
theorem AoStrState.Inv.made_eq (hinv : s.Inv before cs) {r : Option (AoStrPool × AoStr)}
    (hr : ∃ pool' b, r = some (pool', b) ∧ pool'.Inv before (b.cells ++ s.strs.flatMap AoStr.cells)
      ∧ AoStrPool.Keeps before (s.strs.flatMap AoStr.cells) s.pool pool' ∧ b.Valid pool'.mem c) :
  ∃ s', s.made r = some (s', ()) ∧ s'.Inv before (cs ++ [c])
  := by
  obtain ⟨pool', b, rfl, hpool, hkeeps, hvalid⟩ := hr
  exact ⟨_, rfl, hinv.made hpool hkeeps hvalid⟩

/-- What can be read is in what was there before or in the cells of a string. -/
theorem AoStrState.Inv.read_cell (hinv : s.Inv before cs) {d n : Nat} (h : s.Readable before d n) :
  n = 0 ∨ ∃ r ∈ s.strs.flatMap AoStr.cells ++ before, Heap.Within (d, n) r
  := by
  rcases h with hzero | ⟨r, hr, hin⟩ | ⟨b, hb, hdata, hin⟩
  · left
    apply hzero
  · right
    use r, List.mem_append_right _ hr
  · right
    obtain ⟨i, hi⟩ := List.mem_iff_getElem?.mp hb
    obtain ⟨c, -, hvalid⟩ := hinv.content hi
    have hbuf := hvalid.has.within hdata
    use (b.data, b.capacity.toNat)
    use List.mem_append_left _ (mem_flatMap_cells hb (AoStr.data_mem_cells hdata))
    exact ⟨hbuf.1.trans hin.1, hin.2.trans hbuf.2⟩

/-- What is appended to a string is the same behind its growth. -/
theorem AoStrState.Inv.source (hinv : s.Inv before cs) (hb : s.strs[i]? = some b) {d : Nat} {len : BitVec 64}
    (h : s.Readable before d len.toNat) (hmeets : b.MeetsCat d len) :
  b.Source before ((s.strs.eraseIdx i).flatMap AoStr.cells) d len
  := by
  rcases h with hzero | ⟨r, hr, hin⟩ | ⟨b₁, hb₁, hdata, hin⟩
  · left
    apply hzero
  · right; left
    use r, List.mem_append_right _ hr
  · right
    obtain ⟨j, hj⟩ := List.mem_iff_getElem?.mp hb₁
    obtain ⟨c₁, -, hvalid⟩ := hinv.content hj
    have hbuf := hvalid.has.within hdata
    have hcell : Heap.Within (d, len.toNat) (b₁.data, b₁.capacity.toNat) :=
      ⟨hbuf.1.trans hin.1, hin.2.trans hbuf.2⟩
    rcases eq_or_ne j i with rfl | hne
    · -- characters of the string itself
      rw [hb] at hj
      cases hj
      right
      exact ⟨hdata, hcell, fun hgrows => (hmeets hgrows).2⟩
    · left
      use (b₁.data, b₁.capacity.toNat)
      refine ⟨List.mem_append_left _ (mem_flatMap_cells ?_ (AoStr.data_mem_cells hdata)), hcell⟩
      exact List.mem_eraseIdx_iff_getElem?.mpr ⟨j, hne, hj⟩

/-- A call keeps what holds of the strings, whatever they are to have. -/
theorem AoStrState.Inv.step (hinv : s.Inv before cs) {c : AoStrCall} (hallowed : s.Allowed before c)
    (hmeets : s.Meets c) :
  ∃ s', s.step c = some (s', ()) ∧ s'.Inv before (s.contents cs c)
  := by
  cases c with
  | new a =>
    apply hinv.made_eq
    obtain ⟨pool', b, halloc, hpool, hkeeps, hvalid, -⟩ := aoStrAlloc_eq hinv.pool hallowed (by decide)
    exact ⟨pool', b, halloc, hpool, hkeeps, hvalid⟩
  | alloc capacity a =>
    apply hinv.made_eq
    obtain ⟨pool', b, halloc, hpool, hkeeps, hvalid, -⟩ := aoStrAlloc_eq hinv.pool hallowed hmeets
    exact ⟨pool', b, halloc, hpool, hkeeps, hvalid⟩
  | putChar i ch a =>
    obtain ⟨b, hb, hlen, ha⟩ := hallowed
    apply hinv.changed_eq hb
    intro c hvalid hpool
    apply aoStrPutChar_eq hvalid hpool ch hlen ha (hmeets b hb)
  | catLen i d len a =>
    obtain ⟨b, happ⟩ := hallowed
    apply hinv.changed_eq happ.str
    intro c hvalid hpool
    have hmeets := hmeets b happ.str
    apply aoStrCatLen_eq hvalid hpool happ.length happ.gives (fun hgrows => (hmeets hgrows).1)
    apply hinv.source happ.str happ.readable hmeets
  | cat i d a =>
    obtain ⟨b, n, hn, hlt, happ⟩ := hallowed
    apply hinv.changed_eq happ.str
    intro c hvalid hpool
    have hmeets := hmeets b happ.str n hn
    have hlen : (BitVec.ofNat 64 n).toNat = n := by
      rw [BitVec.toNat_ofNat, Nat.mod_eq_of_lt]
      omega
    have hcat := aoStrCatLen_eq hvalid hpool happ.length happ.gives (fun hgrows => (hmeets hgrows).1)
      (hinv.source happ.str happ.readable hmeets)
    rw [hlen] at hcat
    obtain ⟨pool', b', hcall, hrest⟩ := hcat
    rw [hn]
    refine ⟨pool', b', ?_, hrest⟩
    rw [AoStrPool.aoStrCat, hn]
    apply hcall
  | dup i a =>
    obtain ⟨b, hb, hlen, ha⟩ := hallowed
    obtain ⟨c, hc, hvalid⟩ := hinv.content hb
    have hread : b.len.toNat = 0 ∨ ∃ r ∈ s.strs.flatMap AoStr.cells ++ before, Heap.Within (b.data, b.len.toNat) r := by
      apply hinv.read_cell
      rcases eq_or_ne b.data 0 with hdata | hdata
      · left
        rw [(hvalid.has.released hdata).1]
        rfl
      · right; right
        use b, List.mem_of_getElem? hb, hdata
        apply Heap.Within.refl
    have hdup := dupBytes_eq hinv.pool hlen ha hread
    rw [hvalid.has.bytes] at hdup
    show ∃ s', (s.strs[i]?.bind fun b => s.made (s.pool.aoStrDup a b)) = some (s', ())
      ∧ s'.Inv before (cs ++ (cs[i]?.map fun c => ⟨c.bytes, true⟩).toList)
    rw [hb, hc]
    apply hinv.made_eq hdup
  | dupRaw d len a =>
    obtain ⟨hlen, hread, ha⟩ := hallowed
    apply hinv.made_eq
    apply dupBytes_eq hinv.pool hlen ha (hinv.read_cell hread)
  | extendBuffer i additional a =>
    obtain ⟨b, hb, ha⟩ := hallowed
    apply hinv.changed_eq hb
    intro c hvalid hpool
    have hmeets := hmeets b hb
    obtain ⟨pool', b', hcall, hpool', hkeeps, hvalid', -⟩ :=
      aoStrExtendBuffer_eq hvalid hpool ha hmeets.1 hmeets.2
    exact ⟨pool', b', hcall, hpool', hkeeps, hvalid'⟩
  | release i =>
    obtain ⟨b, hb⟩ := hallowed
    apply hinv.changed_eq hb
    intro c hvalid hpool
    apply aoStrRelease_eq hvalid hpool

end

/-! ### Runs -/

/-- There are no strings at first. -/
theorem AoStrState.inv_init {before : Heap} {a : BlockAnswers} {s : AoStrState} (hbefore : Packed before.blocks)
    (ha : a.Right before 40960) (hinit : AoStrState.init before a = some s) :
  s.Inv before.blocks []
  := by
  obtain ⟨_, hstate, rfl⟩ := Option.map_eq_some_iff.mp hinit
  obtain ⟨⟨h, arena⟩, harena, rfl⟩ := Option.map_eq_some_iff.mp hstate
  have hround : arenaAlignMemorySize 40960 = 40960 := by decide
  rw [← hround] at ha
  obtain ⟨hinv, hcap, -⟩ := arenaInv_init ⟨.refl _, hbefore⟩ ha harena
  refine ⟨⟨hinv, hcap.trans hround, ?_, fun _ => [], [], ?_, ?_⟩, rfl, ?_⟩
  · intro r hr
    cases hr
  · rfl
  · intro k hk
    use 0, List.getElem?_replicate_of_lt hk
    rfl
  · intro i b c hb
    cases hb

/-- In every run in which no size is cut to 32 bits and no link of a free list is appended, the strings keep what they
promise. -/
theorem aoStr_sound (before : Heap) (a : BlockAnswers) (calls : List AoStrCall) (s : AoStrState)
    (hbefore : Packed before.blocks) (ha : a.Right before 40960) (hinit : AoStrState.init before a = some s)
    (hallowed : Refinement.Guarded aoStrRunStep (fun x => x.1.Allowed before.blocks) (s, []) calls)
    (hmeets : Refinement.Guarded aoStrRunStep (fun x => x.1.Meets) (s, []) calls) :
  s.Sound before.blocks []
    ∧ Refinement.Steps aoStrRunStep (fun _ _ x _ => x.1.Sound before.blocks x.2) (s, []) calls
  := by
  have hinv := AoStrState.inv_init hbefore ha hinit
  use hinv.sound
  apply Refinement.steps_of_invariant (fun x => x.1.Inv before.blocks x.2) _ hinv (hallowed.and hmeets)
  rintro ⟨s, cs⟩ c hinv ⟨hallowed, hmeets⟩
  obtain ⟨s', hstep, hinv'⟩ := hinv.step hallowed hmeets
  refine ⟨(s', s.contents cs c), (), ?_, hinv'.sound, hinv'⟩
  rw [aoStrRunStep, hstep]
  rfl

/-- A heap with one block, of 48 bytes. -/
def oneBlock : Heap := ⟨fun _ => 97, [(64, 48)]⟩

theorem oneBlock_packed :
  Packed oneBlock.blocks
  := Heap.packed_cons_iff.mpr ⟨fun _ hc => absurd hc List.not_mem_nil, by decide, Packed.nil⟩

/-- What `malloc` answers below: the first block of the arena, and one for a large buffer. -/
def aoStrAnswers : BlockAnswers × BlockAnswers :=
  (⟨⟨16, fun _ => 97⟩, ⟨128, fun _ => 97⟩⟩, ⟨⟨41088, fun _ => 97⟩, ⟨41120, fun _ => 97⟩⟩)

/-- The first block is right. -/
theorem aoStrAnswers_right :
  aoStrAnswers.1.Right oneBlock 40960
  := by
  exact ⟨⟨by decide, by decide, by decide, fun _ _ _ _ _ => rfl⟩, by decide,
    ⟨by decide, by decide, by decide, fun _ _ _ _ _ => rfl⟩, by decide⟩

/-- A string gets a character and is copied and released. -/
theorem aoStr_sound_four :
  ∃ s, AoStrState.init oneBlock aoStrAnswers.1 = some s ∧ s.Sound [(64, 48)] []
    ∧ Refinement.Steps aoStrRunStep (fun _ _ x _ => x.1.Sound [(64, 48)] x.2) (s, [])
      [.new aoStrAnswers, .putChar 0 65 aoStrAnswers.1, .dup 0 aoStrAnswers, .release 0]
  := by
  refine ⟨_, rfl, ?_⟩
  apply aoStr_sound oneBlock aoStrAnswers.1 _ _ oneBlock_packed aoStrAnswers_right rfl
  · refine ⟨⟨?_, ?_⟩, ?_⟩
    · rintro _ ⟨⟩
    · rintro _ _ ⟨⟩ _ ⟨⟩
      rintro _ ⟨⟩
    · rintro _ ⟨⟩
      refine ⟨⟨_, rfl, by decide, fun hgrows => absurd hgrows (by decide)⟩, ?_⟩
      rintro _ ⟨⟩
      refine ⟨⟨_, rfl, by decide, ?_, ?_⟩, ?_⟩
      · rintro _ ⟨⟩
      · rintro _ _ ⟨⟩ _ ⟨⟩
        rintro _ ⟨⟩
      · rintro _ ⟨⟩
        exact ⟨⟨_, rfl⟩, fun _ _ => trivial⟩
  · refine ⟨trivial, ?_⟩
    rintro _ ⟨⟩
    refine ⟨?_, ?_⟩
    · rintro _ ⟨⟩ hgrows
      exact absurd hgrows (by decide)
    · rintro _ ⟨⟩
      exact ⟨trivial, fun _ _ => ⟨trivial, fun _ _ => trivial⟩⟩

/-- A buffer of 2^31 bytes with 40 characters is extended to one of 32 bytes. -/
theorem not_aoStr_sound :
  ∃ s, AoStrState.init oneBlock aoStrAnswers.1 = some s
    ∧ Refinement.Guarded aoStrRunStep (fun x => x.1.Allowed [(64, 48)]) (s, [])
      [.alloc 0x80000000 (aoStrAnswers.1, aoStrAnswers.2), .catLen 0 64 40 aoStrAnswers.1,
        .extendBuffer 0 0 aoStrAnswers.1]
    ∧ ¬Refinement.Steps aoStrRunStep (fun _ _ x _ => x.1.Sound [(64, 48)] x.2) (s, [])
      [.alloc 0x80000000 (aoStrAnswers.1, aoStrAnswers.2), .catLen 0 64 40 aoStrAnswers.1,
        .extendBuffer 0 0 aoStrAnswers.1]
  := by
  refine ⟨_, rfl, ⟨⟨?_, ?_⟩, ?_⟩, ?_⟩
  · rintro _ ⟨⟩
  · rintro _ _ ⟨⟩ _ ⟨⟩
    rintro _ ⟨⟩
    exact ⟨⟨by decide, by decide, by decide, fun _ _ _ _ _ => rfl⟩, by decide,
      ⟨by decide, by decide, by decide, fun _ _ _ _ _ => rfl⟩, by decide⟩
  · rintro _ ⟨⟩
    refine ⟨⟨_, ⟨rfl, by decide, ?_, fun hgrows => absurd hgrows (by decide)⟩⟩, ?_⟩
    · right; left
      exact ⟨(64, 48), List.mem_cons_self, by decide⟩
    · rintro _ ⟨⟩
      refine ⟨⟨_, rfl, ?_⟩, fun _ _ => trivial⟩
      rintro _ ⟨⟩ _ ⟨⟩
  · rintro ⟨_, _, halloc, -, _, _, hcat, -, _, _, hextend, -⟩
    cases halloc
    cases hcat
    cases hextend

end Polyc
