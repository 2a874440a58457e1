import Mathlib.Tactic.Ring
import Polyc.HolycLib.Memory

/-!
# Blocks in the heap

The blocks that pointers hold, each behind a header with its size, and what the instructions of the
routines do to them: bytes are set and copied, a block is allocated and one is freed.
-/

namespace Polyc

open Bytes (Byte)

section Blocks

variable {ι : Type}

/-- A block of a requested size with some bytes behind its header. -/
structure HeapBlock (h : Heap) (p : Nat) (bs : List (Option Byte)) : Prop where
  /-- There is room for the header. -/
  header : 8 ≤ p
  /-- The block is allocated. -/
  mem : (p - 8, bs.length + 8) ∈ h.blocks
  /-- The block is in the address space. -/
  fits : p + bs.length < addressSpace
  /-- The header is the size. -/
  size : Bytes.read h.mem (p - 8) 8 = BitVec.ofNat 64 bs.length
  /-- The bytes that are determined. -/
  bytes : ∀ i b, bs[i]? = some (some b) → h.mem (p + i) = b

/-- Pointers hold blocks, which are apart. -/
structure HeapBlocks (h : Heap) (ptr : ι → Nat) (A : BlockMap ι) : Prop where
  wellFormed : h.WellFormed
  block : ∀ x bs, A x = some bs → HeapBlock h (ptr x) bs
  apart : ∀ x y, x ≠ y → A x ≠ none → A y ≠ none → ptr x ≠ ptr y

variable {h h' : Heap} {ptr : ι → Nat} {A : BlockMap ι} {x y : ι} {bs : List (Option Byte)}
  {p i : Nat} {v : Byte}

/-- The block of a pointer. -/
theorem HeapBlocks.get (R : HeapBlocks h ptr A) (hx : A x ≠ none) :
  HeapBlock h (ptr x) (A.get x)
  := by
  obtain ⟨bs, hbs⟩ := Option.ne_none_iff_exists'.mp hx
  rw [BlockMap.get, hbs]
  exact R.block x bs hbs

/-- The bytes of two blocks are apart. -/
theorem HeapBlocks.bytes_apart (R : HeapBlocks h ptr A) (hxy : x ≠ y) (hx : A x ≠ none)
    (hy : A y ≠ none) :
  ptr x + (A.get x).length ≤ ptr y - 8 ∨ ptr y + (A.get y).length ≤ ptr x - 8
  := by
  have hbx := R.get hx
  have hby := R.get hy
  have hne : (ptr x - 8, (A.get x).length + 8) ≠ (ptr y - 8, (A.get y).length + 8) := by
    intro heq
    apply R.apart x y hxy hx hy
    have h1 := hbx.header
    have h2 := hby.header
    have h3 := (Prod.mk.inj heq).1
    omega
  have hapart := R.wellFormed.apart _ hbx.mem _ hby.mem hne
  rw [Heap.Apart] at hapart
  have h1 := hbx.header
  have h2 := hby.header
  dsimp only at hapart
  omega

/-- A block whose bytes and header are kept. -/
theorem HeapBlock.congr (H : HeapBlock h p bs) (hblock : (p - 8, bs.length + 8) ∈ h'.blocks)
    (hmem : ∀ a, p - 8 ≤ a → a < p + bs.length → h'.mem a = h.mem a) :
  HeapBlock h' p bs
  := by
  have hheader := H.header
  constructor
  case header => exact H.header
  case mem => exact hblock
  case fits => exact H.fits
  case size =>
    rw [← H.size]
    apply Bytes.read_congr
    intro a hlo hhi
    apply hmem a hlo
    omega
  case bytes =>
    intro i b hb
    have hi : i < bs.length := (List.getElem?_eq_some_iff.mp hb).1
    rw [hmem (p + i) (by omega) (by omega), H.bytes i b hb]

/-! ### Bytes -/

/-- A byte of a block is loaded. -/
theorem HeapBlock.load (H : HeapBlock h p bs) (hi : i < bs.length) :
  h.load (p + i) 1 = some (Bytes.read h.mem (p + i) 1)
  := by
  have hheader := H.header
  rw [Heap.load, if_pos]
  apply Heap.holds_of_mem H.mem
  · dsimp only
    omega
  · dsimp only
    omega

/-- A byte that is loaded. -/
theorem read_one (m : Bytes.Mem) (a : Nat) :
  Bytes.read m a 1 = m a
  := by
  apply BitVec.eq_of_getLsbD_eq
  intro k hk
  have hdiv : k / 8 = 0 := by omega
  have hmod : k % 8 = k := by omega
  rw [Bytes.getLsbD_read, hdiv, hmod, decide_eq_true (by omega)]
  rfl

variable [DecidableEq ι]

/-- A byte of a block is set. -/
theorem HeapBlocks.store (R : HeapBlocks h ptr A) (hx : A x ≠ none)
    (hi : i < (A.get x).length) (o : Option Byte) (ho : ∀ b, o = some b → v = b) :
  ∃ h', h.store (ptr x + i) [v] = some h' ∧ h'.blocks = h.blocks
    ∧ HeapBlocks h' ptr (A.put x ((A.get x).set i o))
  := by
  have hbx := R.get hx
  have hheader := hbx.header
  have hmem : ∀ a, a ≠ ptr x + i → (h.write (ptr x + i) [v]).mem a = h.mem a := by
    intro a ha
    rcases Nat.lt_or_ge a (ptr x + i) with hlt | hge
    · exact Bytes.write_of_lt hlt
    · apply Bytes.write_of_ge
      rw [List.length_singleton]
      omega
  refine ⟨h.write (ptr x + i) [v], ?_, rfl, ?_⟩
  · rw [Heap.store, if_pos]
    apply Heap.holds_of_mem hbx.mem
    · dsimp only
      omega
    · rw [List.length_singleton]
      dsimp only
      omega
  · constructor
    case wellFormed => exact R.wellFormed.write _ _
    case block =>
      intro z cs hz
      rcases eq_or_ne z x with rfl | hzx
      · rw [BlockMap.put, Function.update_self] at hz
        cases hz
        constructor
        case header => exact hbx.header
        case mem =>
          rw [List.length_set]
          exact hbx.mem
        case fits =>
          rw [List.length_set]
          exact hbx.fits
        case size =>
          rw [List.length_set, ← hbx.size]
          apply Bytes.read_congr
          intro a _ hhi
          apply hmem
          omega
        case bytes =>
          intro j b hb
          rw [List.getElem?_set] at hb
          split at hb
          case isTrue hij =>
            subst hij
            rw [ho b (Option.some.inj hb)]
            have hset : Bytes.write h.mem (ptr z + i) [b] (ptr z + i + 0) = [b].getD 0 0 :=
              Bytes.write_of_mem Nat.one_pos
            exact hset
          case isFalse hij =>
            rw [hmem _ (by omega), hbx.bytes j b hb]
      · rw [BlockMap.put, Function.update_of_ne hzx] at hz
        have hne : A z ≠ none := by
          rw [hz]
          exact Option.some_ne_none cs
        have hbz := R.block z cs hz
        have hget : A.get z = cs := by rw [BlockMap.get, hz]; rfl
        have hapart := R.bytes_apart hzx hne hx
        rw [hget] at hapart
        refine hbz.congr ?_ ?_
        · exact hbz.mem
        · intro a hlo hhi
          apply hmem
          have := hbz.header
          omega
    case apart =>
      have hsome : ∀ z, A.put x ((A.get x).set i o) z ≠ none → A z ≠ none := by
        intro z hz
        rcases eq_or_ne z x with rfl | hzx
        · exact hx
        · rwa [BlockMap.put, Function.update_of_ne hzx] at hz
      intro z w hzw hz hw
      exact R.apart z w hzw (hsome z hz) (hsome w hw)

/-! ### Runs of bytes -/

namespace BlockMap

/-- The block of a variable that is replaced. -/
@[simp]
theorem get_put (A : BlockMap ι) (x : ι) (bs : List (Option Byte)) :
  (A.put x bs).get x = bs
  := by
  rw [get, put, Function.update_self]
  rfl

/-- The blocks of the other variables. -/
theorem get_put_of_ne (A : BlockMap ι) (bs : List (Option Byte)) (hxy : y ≠ x) :
  (A.put x bs).get y = A.get y
  := by
  rw [get, put, Function.update_of_ne hxy, get]

/-- The block of a variable that is replaced twice. -/
@[simp]
theorem put_put (A : BlockMap ι) (x : ι) (bs cs : List (Option Byte)) :
  (A.put x bs).put x cs = A.put x cs
  := Function.update_idem _ _ _

/-- The block of a variable put back. -/
theorem put_get (hx : A x ≠ none) :
  A.put x (A.get x) = A
  := by
  obtain ⟨bs, hbs⟩ := Option.ne_none_iff_exists'.mp hx
  rw [put, get, hbs, Option.getD_some, ← hbs, Function.update_eq_self]

/-- A variable whose block is replaced has one, and the others have one when they had. -/
theorem put_ne_none (bs : List (Option Byte)) (hy : A y ≠ none) :
  A.put x bs y ≠ none
  := by
  rcases eq_or_ne y x with rfl | hyx
  · rw [put, Function.update_self]
    exact Option.some_ne_none bs
  · rwa [put, Function.update_of_ne hyx]

/-- A byte that is set changes no length. -/
theorem length_get_set (A : BlockMap ι) (x y : ι) (i : Nat) (o : Option Byte) :
  ((A.put x ((A.get x).set i o)).get y).length = (A.get y).length
  := by
  rcases eq_or_ne y x with rfl | hyx
  · rw [get_put, List.length_set]
  · rw [get_put_of_ne A _ hyx]

end BlockMap

/-- The bytes up to one that is set. -/
theorem take_set_succ {α : Type} {l : List α} {i : Nat} (hi : i < l.length) (o : α) :
  (l.set i o).take (i + 1) = l.take i ++ [o]
  := by
  rw [List.take_add_one, List.take_set_of_le (le_refl i), List.getElem?_set_self hi]
  rfl

/-- Some bytes of a block are set, as `REP STOSB` does. -/
theorem HeapBlocks.repStosb {n : Nat} (b : Byte) :
  ∀ (h : Heap) (A : BlockMap ι) (i : Nat), HeapBlocks h ptr A → A x ≠ none →
    i + n ≤ (A.get x).length →
    ∃ h', X86.repStosb b n h (ptr x + i) = some h' ∧ HeapBlocks h' ptr
      (A.put x ((A.get x).take i ++ List.replicate n (some b) ++ (A.get x).drop (i + n)))
  := by
  induction n with
  | zero =>
    intro h A i R hx _
    refine ⟨h, rfl, ?_⟩
    rw [List.replicate_zero, List.append_nil, Nat.add_zero, List.take_append_drop,
      BlockMap.put_get hx]
    exact R
  | succ n ih =>
    intro h A i R hx hi
    have hfits := (R.get hx).fits
    obtain ⟨h1, hstore, -, R1⟩ :=
      R.store hx (i := i) (v := b) (by omega) (some b) (fun _ h => Option.some.inj h)
    obtain ⟨h2, hrest, R2⟩ := ih h1 _ (i + 1) R1 (BlockMap.put_ne_none _ hx) (by
      rw [BlockMap.length_get_set]
      omega)
    refine ⟨h2, ?_, ?_⟩
    · rw [X86.repStosb, hstore, Nat.add_assoc]
      simp only [Option.bind_eq_bind, Option.bind_some]
      rw [Nat.mod_eq_of_lt (by omega)]
      exact hrest
    · rw [BlockMap.get_put, BlockMap.put_put, take_set_succ (by omega),
        List.drop_set_of_lt (by omega), List.append_assoc (List.take i _),
        List.singleton_append, ← List.replicate_succ, Nat.add_right_comm, Nat.add_assoc] at R2
      exact R2

/-- Some bytes are copied one by one, as `REP MOVSB` does. -/
theorem HeapBlocks.repMovsb {n : Nat} :
  ∀ (h : Heap) (A : BlockMap ι) (i j : Nat), HeapBlocks h ptr A → A x ≠ none → A y ≠ none →
    i + n ≤ (A.get x).length → j + n ≤ (A.get y).length →
    ∃ h', X86.repMovsb n h (ptr x + i) (ptr y + j) = some h'
      ∧ HeapBlocks h' ptr (A.copy x i y j n)
  := by
  induction n with
  | zero =>
    intro h A i j R _ _ _ _
    exact ⟨h, rfl, R⟩
  | succ n ih =>
    intro h A i j R hx hy hi hj
    have hbx := R.get hx
    have hby := R.get hy
    have hfitsx := hbx.fits
    have hfitsy := hby.fits
    have hload := hby.load (i := j) (by omega)
    obtain ⟨h1, hstore, -, R1⟩ := R.store hx (i := i) (v := Bytes.read h.mem (ptr y + j) 1)
      (by omega) ((A.get y).getD j none) (by
        intro b hb
        rw [read_one]
        apply hby.bytes
        rw [List.getD_eq_getElem?_getD] at hb
        cases hj' : (A.get y)[j]? with
        | none =>
          rw [hj'] at hb
          cases hb
        | some o =>
          rw [hj'] at hb
          cases hb
          rfl)
    obtain ⟨h2, hrest, R2⟩ := ih h1 _ (i + 1) (j + 1) R1 (BlockMap.put_ne_none _ hx)
      (BlockMap.put_ne_none _ hy) (by
        rw [BlockMap.length_get_set]
        omega) (by
        rw [BlockMap.length_get_set]
        omega)
    refine ⟨h2, ?_, R2⟩
    rw [X86.repMovsb, hload]
    simp only [Option.bind_eq_bind, Option.bind_some, hstore]
    rw [Nat.add_assoc, Nat.add_assoc, Nat.mod_eq_of_lt (by omega), Nat.mod_eq_of_lt (by omega)]
    exact hrest

/-! ### Blocks allocated and freed -/

/-- A block that is allocated. -/
theorem HeapBlocks.malloc (R : HeapBlocks h ptr A) (x : ι) {size : Nat} {a : Heap.Answer}
    (hsize : size + 8 < addressSpace) (hbase : a.base ≠ 0)
    (hright : h.Right (addressSpace - 1) 16 (size + 8) a) :
  ∃ h', X86.malloc h a size = some (h', a.base + 8)
    ∧ HeapBlocks h' (Function.update ptr x (a.base + 8)) (A.put x (List.replicate size none))
  := by
  have hfits := hright.fits hbase
  have hblocks := Heap.mem_malloc (h := h) (n := size + 8) hbase
  have hnew : (a.base, size + 8) ∈ (h.malloc (size + 8) a).blocks := (hblocks _).mpr (Or.inl rfl)
  have hlayout : (Bytes.layout 8 (BitVec.ofNat 64 size)).length = 8 := Bytes.length_layout 8 _
  have hold : ∀ z cs, A z = some cs → ptr z ≠ a.base + 8
      ∧ HeapBlock ((h.malloc (size + 8) a).write a.base (Bytes.layout 8 (BitVec.ofNat 64 size)))
        (ptr z) cs := by
    intro z cs hz
    have hbz := R.block z cs hz
    have hapart := hright.apart hbase _ hbz.mem
    have hheader := hbz.header
    rw [Heap.Apart] at hapart
    dsimp only at hapart
    constructor
    · omega
    · refine hbz.congr ((hblocks _).mpr (Or.inr hbz.mem)) ?_
      intro b hlo hhi
      have hkept := hright.kept _ hbz.mem b hlo (by dsimp only; omega)
      rw [← hkept]
      rcases Nat.lt_or_ge b a.base with hlt | hge
      · exact Bytes.write_of_lt hlt
      · apply Bytes.write_of_ge
        rw [hlayout]
        omega
  refine ⟨(h.malloc (size + 8) a).write a.base (Bytes.layout 8 (BitVec.ofNat 64 size)), ?_, ?_⟩
  · rw [X86.malloc, Nat.mod_eq_of_lt hsize, Nat.mod_eq_of_lt (by omega), Heap.store, if_pos]
    · rfl
    · apply Heap.holds_of_mem hnew (le_refl _)
      rw [hlayout]
      dsimp only
      omega
  · constructor
    case wellFormed => exact (R.wellFormed.malloc hright (by omega)).write _ _
    case block =>
      intro z cs hz
      rcases eq_or_ne z x with rfl | hzx
      · rw [BlockMap.put, Function.update_self] at hz
        cases hz
        rw [Function.update_self]
        constructor
        case header => omega
        case mem =>
          rw [List.length_replicate, Nat.add_sub_cancel]
          exact hnew
        case fits =>
          rw [List.length_replicate]
          have : 0 < addressSpace := by decide
          omega
        case size =>
          rw [List.length_replicate, Nat.add_sub_cancel]
          exact Bytes.read_write_layout _ _ 8 _
        case bytes =>
          intro i b hb
          rw [List.getElem?_replicate] at hb
          split at hb
          · cases hb
          · cases hb
      · rw [BlockMap.put, Function.update_of_ne hzx] at hz
        rw [Function.update_of_ne hzx]
        exact (hold z cs hz).2
    case apart =>
      have hne : ∀ z, z ≠ x → A.put x (List.replicate size none) z ≠ none →
          ptr z ≠ a.base + 8 := by
        intro z hzx hz
        rw [BlockMap.put, Function.update_of_ne hzx] at hz
        obtain ⟨cs, hcs⟩ := Option.ne_none_iff_exists'.mp hz
        exact (hold z cs hcs).1
      intro z w hzw hz hw
      rcases eq_or_ne z x with rfl | hzx
      · rw [Function.update_self, Function.update_of_ne hzw.symm]
        exact (hne w hzw.symm hw).symm
      · rw [Function.update_of_ne hzx]
        rcases eq_or_ne w x with rfl | hwx
        · rw [Function.update_self]
          exact hne z hzx hz
        · rw [Function.update_of_ne hwx]
          rw [BlockMap.put, Function.update_of_ne hzx] at hz
          rw [BlockMap.put, Function.update_of_ne hwx] at hw
          exact R.apart z w hzw hz hw

omit [DecidableEq ι] in
/-- The size of a block. -/
theorem HeapBlock.msize (H : HeapBlock h p bs) :
  X86.msize h p = some bs.length
  := by
  have hheader := H.header
  have hfits := H.fits
  have hp : p ≠ 0 := by omega
  rw [X86.msize, if_neg hp, Heap.load, if_pos, H.size, Option.map_some, BitVec.toNat_ofNat,
    Nat.mod_eq_of_lt]
  · rw [addressSpace] at hfits
    omega
  · exact Heap.holds_of_mem H.mem (le_refl _) (by dsimp only; omega)

/-- A block that is freed. -/
theorem HeapBlocks.free (R : HeapBlocks h ptr A) (hx : A x ≠ none) :
  ∃ h', X86.free h (ptr x) = some h' ∧ HeapBlocks h' ptr (A.drop x)
  := by
  have hbx := R.get hx
  have hheader := hbx.header
  have hp : ptr x ≠ 0 := by omega
  have hfree := Heap.free_eq hbx.mem
  have hother : ∀ z cs, A.drop x z = some cs → z ≠ x ∧ A z = some cs := by
    intro z cs hz
    rcases eq_or_ne z x with rfl | hzx
    · rw [BlockMap.drop, Function.update_self] at hz
      cases hz
    · rw [BlockMap.drop, Function.update_of_ne hzx] at hz
      exact ⟨hzx, hz⟩
  have hsome : ∀ z, A.drop x z ≠ none → z ≠ x ∧ A z ≠ none := by
    intro z hz
    obtain ⟨cs, hcs⟩ := Option.ne_none_iff_exists'.mp hz
    refine ⟨(hother z cs hcs).1, ?_⟩
    rw [(hother z cs hcs).2]
    exact Option.some_ne_none cs
  have hx86 : X86.free h (ptr x) = h.free (ptr x - 8) := if_neg hp
  refine ⟨_, hx86.trans hfree, ?_⟩
  · constructor
    case wellFormed => exact R.wellFormed.free hfree
    case block =>
      intro z cs hz
      obtain ⟨hzx, hz⟩ := hother z cs hz
      have hbz := R.block z cs hz
      have hne : A z ≠ none := by
        rw [hz]
        exact Option.some_ne_none cs
      have hptr := R.apart z x hzx hne hx
      have hheaderz := hbz.header
      refine hbz.congr ?_ (fun _ _ _ => rfl)
      rw [List.mem_filter]
      use hbz.mem
      apply decide_eq_true
      dsimp only
      omega
    case apart =>
      intro z w hzw hz hw
      exact R.apart z w hzw (hsome z hz).2 (hsome w hw).2

end Blocks

/-! ### Other variables -/

section Variables

variable {ι κ : Type} {h : Heap} {ptr : ι → Nat} {A : BlockMap ι}

/-- The blocks held by other variables. -/
theorem HeapBlocks.reindex (R : HeapBlocks h ptr A) {ptr' : κ → Nat} {A' : BlockMap κ} (f : κ → ι)
    (hA : ∀ k bs, A' k = some bs → A (f k) = some bs)
    (hptr : ∀ k, A' k ≠ none → ptr' k = ptr (f k))
    (hf : ∀ k l, k ≠ l → A' k ≠ none → A' l ≠ none → f k ≠ f l) :
  HeapBlocks h ptr' A'
  := by
  have hsome : ∀ k, A' k ≠ none → A (f k) ≠ none := by
    intro k hk
    obtain ⟨bs, hbs⟩ := Option.ne_none_iff_exists'.mp hk
    rw [hA k bs hbs]
    exact Option.some_ne_none bs
  constructor
  case wellFormed => exact R.wellFormed
  case block =>
    intro k bs hk
    have hne : A' k ≠ none := by
      rw [hk]
      exact Option.some_ne_none bs
    rw [hptr k hne]
    exact R.block (f k) bs (hA k bs hk)
  case apart =>
    intro k l hkl hk hl
    rw [hptr k hk, hptr l hl]
    exact R.apart (f k) (f l) (hf k l hkl hk hl) (hsome k hk) (hsome l hl)

end Variables

/-! ### Copies between two blocks -/

/-- Bytes copied from one block to another. -/
theorem BlockMap.copy_eq {ι : Type} [DecidableEq ι] {x y : ι} (hxy : y ≠ x) {n : Nat} :
  ∀ (A : BlockMap ι) (i j : Nat), A x ≠ none → i + n ≤ (A.get x).length →
    j + n ≤ (A.get y).length →
    A.copy x i y j n = A.put x ((A.get x).take i ++ ((A.get y).drop j).take n
      ++ (A.get x).drop (i + n))
  := by
  induction n with
  | zero =>
    intro A i j hx _ _
    rw [List.take_zero, List.append_nil, Nat.add_zero, List.take_append_drop,
      BlockMap.put_get hx]
    rfl
  | succ n ih =>
    intro A i j hx hi hj
    have hdrop : ((A.get y).drop j).take (n + 1)
        = (A.get y).getD j none :: ((A.get y).drop (j + 1)).take n := by
      rw [List.drop_eq_getElem_cons (by omega), List.take_succ_cons, List.getD_eq_getElem]
    rw [BlockMap.copy, ih _ _ _ (BlockMap.put_ne_none _ hx) (by
      rw [BlockMap.length_get_set]
      omega) (by
      rw [BlockMap.length_get_set]
      omega), BlockMap.get_put, BlockMap.put_put, BlockMap.get_put_of_ne A _ hxy,
      take_set_succ (by omega), List.drop_set_of_lt (by omega), hdrop,
      List.append_assoc (List.take i _), List.singleton_append, Nat.add_right_comm, Nat.add_assoc]

end Polyc
