import Polyc.Lib.RoundUp
import Polyc.Memory.AoStr

/-!
# The pool of buffers

What the global arena has returned is with the strings, in the free list of its size, or lost.  Each operation of
the pool moves regions from one of these to another, so that what the strings have never overlaps.
-/

namespace Polyc

open Bytes (Byte)
open Heap (Packed Linked Same)

/-! ### Size classes -/

/-- The size of a class. -/
def classSize (k : Nat) : Nat := 2 ^ (k + 5)

theorem eight_le_classSize (k : Nat) :
  8 ≤ classSize k
  := by
  rw [classSize, Nat.pow_add]
  have hpos := Nat.two_pow_pos k
  omega

/-- The link of a free region is in it. -/
theorem link_within (k x : Nat) :
  Heap.Within (x, 8) (x, classSize k)
  := ⟨le_refl x, Nat.add_le_add_left (eight_le_classSize k) x⟩

theorem classSize_le {k : Nat} (hk : k < aoStrPoolBuckets) :
  classSize k ≤ 65536
  := by
  revert k
  decide

/-- A bucket is the size of a class, and has room for what was asked for. -/
theorem aoStrPoolBucketSize_eq {size : BitVec 32} (h : size.toNat ≤ 65536) :
  ∃ k < aoStrPoolBuckets, (aoStrPoolBucketSize size).toNat = classSize k ∧ size.toNat ≤ classSize k
  := by
  rcases em (size ≤ 32) with hle | hgt
  · rw [aoStrPoolBucketSize, if_pos hle]
    use 0, by decide, rfl
    apply hle
  · have hgt' : 32 < size.toNat := Nat.lt_of_not_le hgt
    have hpred : (size - 1).toNat = size.toNat - 1 := by
      apply BitVec.toNat_sub_of_le
      apply BitVec.le_of_lt (BitVec.lt_def.mpr (lt_trans (by decide) hgt'))
    have hsmear := (((((RoundUp.smeared_one (size - 1)).double).double).double).double).double
    obtain ⟨v, hbucket, hones⟩ : ∃ v, aoStrPoolBucketSize size = v + 1
        ∧ v.toNat = 2 ^ (Nat.log2 (size - 1).toNat + 1) - 1 :=
      ⟨_, if_neg hgt, hsmear.toNat_eq (by omega)⟩
    have hone : (1 : BitVec 32).toNat = 1 := rfl
    have hne : (size - 1).toNat ≠ 0 := by omega
    have hlog₅ : 5 ≤ Nat.log2 (size - 1).toNat := (Nat.le_log2 hne).mpr (by omega)
    have hlog : Nat.log2 (size - 1).toNat < 16 := (Nat.log2_lt hne).mpr (by omega)
    have hlt : size.toNat - 1 < 2 ^ (Nat.log2 (size - 1).toNat + 1) := by
      rw [← hpred]
      apply (Nat.log2_lt hne).mp (Nat.lt_succ_self _)
    have hpow : 2 ^ (Nat.log2 (size - 1).toNat + 1) ≤ 2 ^ 16 := Nat.pow_le_pow_right (by decide) hlog
    have hsize : 2 ^ (Nat.log2 (size - 1).toNat - 4 + 5) = 2 ^ (Nat.log2 (size - 1).toNat + 1) := by
      congr 1
      omega
    use Nat.log2 (size - 1).toNat - 4
    refine ⟨?_, ?_, ?_⟩
    · show _ < 12
      omega
    · rw [hbucket, BitVec.toNat_add_of_lt, classSize, hsize]
      · omega
      · omega
    · rw [classSize, hsize]
      omega

/-- The class of a bucket. -/
theorem aoStrPoolBucketIdx_eq {bucket : BitVec 32} {k : Nat} (hk : k < aoStrPoolBuckets)
    (h : bucket.toNat = classSize k) :
  aoStrPoolBucketIdx bucket = k
  := by
  obtain rfl : bucket = BitVec.ofNat 32 (classSize k) := by
    rw [← h, BitVec.ofNat_toNat, BitVec.setWidth_eq]
  revert k
  decide

/-! ### Free regions -/

/-- The regions of a class. -/
def classCells (k : Nat) (xs : List Nat) : List (Nat × Nat) := xs.map fun x => (x, classSize k)

/-- The regions in the free lists. -/
def freeCells (chains : Nat → List Nat) : List (Nat × Nat) :=
  (List.range aoStrPoolBuckets).flatMap fun k => classCells k (chains k)

/-- The regions in the free lists but those of a class. -/
def freeBut (k : Nat) (chains : Nat → List Nat) : List (Nat × Nat) :=
  ((List.range aoStrPoolBuckets).erase k).flatMap fun k => classCells k (chains k)

variable {chains : Nat → List Nat} {k x : Nat} {xs : List Nat}

/-- The regions of a class come first. -/
theorem freeCells_perm (hk : k < aoStrPoolBuckets) (chains : Nat → List Nat) :
  (freeCells chains).Perm (classCells k (chains k) ++ freeBut k chains)
  := (List.perm_cons_erase (List.mem_range.mpr hk)).flatMap_right _

/-- The other classes do not see a class. -/
theorem freeBut_update (k : Nat) (chains : Nat → List Nat) (xs : List Nat) :
  freeBut k (Function.update chains k xs) = freeBut k chains
  := by
  apply List.flatMap_congr
  intro j hj
  have hne : j ≠ k := fun heq => by
    subst heq
    apply List.Nodup.not_mem_erase List.nodup_range hj
  rw [Function.update_of_ne hne]

/-- A region in front of the list of a class. -/
theorem freeCells_push (hk : k < aoStrPoolBuckets) (chains : Nat → List Nat) (x : Nat) (xs : List Nat) :
  (freeCells (Function.update chains k (x :: xs))).Perm
    ((x, classSize k) :: freeCells (Function.update chains k xs))
  := by
  have hpush := freeCells_perm hk (Function.update chains k (x :: xs))
  have hrest := freeCells_perm hk (Function.update chains k xs)
  rw [Function.update_self, freeBut_update] at hpush hrest
  apply hpush.trans (hrest.symm.cons _)

/-- A region in a free list is one of them. -/
theorem mem_freeCells (hk : k < aoStrPoolBuckets) (hx : x ∈ chains k) :
  (x, classSize k) ∈ freeCells chains
  := by
  apply List.mem_flatMap.mpr
  use k, List.mem_range.mpr hk
  apply List.mem_map_of_mem hx

/-! ### What holds of the pool -/

/-- Some of the regions are handed out, others are in the free lists and the rest is lost. -/
structure AoStrPool.Inv (before owned : List (Nat × Nat)) (pool : AoStrPool) : Prop where
  arena : ArenaInv before pool.arena.heap pool.arena.arena pool.arena.regions
  capacity : pool.arena.arena.blockCapacity = 40960
  pos : ∀ r ∈ pool.arena.regions, 0 < r.2
  free : ∃ chains rest, pool.arena.regions.Perm (owned ++ (freeCells chains ++ rest))
    ∧ ∀ k < aoStrPoolBuckets, ∃ p, pool.buckets[k]? = some p ∧ Linked pool.mem p (chains k)

namespace AoStrPool

variable {before owned : List (Nat × Nat)} {pool : AoStrPool} {a : BlockAnswers} {c : Nat × Nat} {off n : Nat}

/-- What is handed out was returned by the arena. -/
theorem Inv.mem (hinv : pool.Inv before owned) (hc : c ∈ owned) :
  c ∈ pool.arena.regions
  := by
  obtain ⟨chains, rest, hperm, -⟩ := hinv.free
  apply hperm.mem_iff.mpr (List.mem_append_left _ hc)

/-- The order of what is handed out does not matter. -/
theorem Inv.of_perm (hinv : pool.Inv before owned) {owned' : List (Nat × Nat)} (hp : owned.Perm owned') :
  pool.Inv before owned'
  where
  arena := hinv.arena
  capacity := hinv.capacity
  pos := hinv.pos
  free := by
    obtain ⟨chains, rest, hperm, hlinked⟩ := hinv.free
    use chains, rest, hperm.trans (hp.append_right _)

/-- What is handed out does not overlap. -/
theorem Inv.packed (hinv : pool.Inv before owned) :
  Packed owned
  := by
  obtain ⟨chains, rest, hperm, -⟩ := hinv.free
  have hpacked : Packed pool.arena.regions := ⟨hinv.arena.apart, hinv.pos⟩
  have hall := hpacked.perm hperm
  exact ⟨(List.pairwise_append.mp hall.apart).1, fun b hb => hall.pos b (List.mem_append_left _ hb)⟩

/-- Bytes of what is handed out, or of what was there before, are read. -/
theorem Inv.load_eq (hinv : pool.Inv before owned) (hc : c ∈ owned ++ before) (hin : Heap.Within (off, n) c) :
  pool.load off n = some (Heap.fetch pool.mem off n)
  := by
  apply if_pos
  right
  apply hinv.arena.holds _ hin
  rcases List.mem_append.mp hc with hc | hc
  · apply List.mem_append_left _ (hinv.mem hc)
  · apply List.mem_append_right _ hc

theorem load_zero (pool : AoStrPool) (off : Nat) :
  pool.load off 0 = some []
  := if_pos (.inl rfl)

/-- What the pool keeps when it is changed: the bytes of what is handed out and of what was there before. -/
def Keeps (before owned : List (Nat × Nat)) (pool pool' : AoStrPool) : Prop := Same (owned ++ before) pool.mem pool'.mem

/-- The pool with bytes written. -/
def write (pool : AoStrPool) (off : Nat) (bytes : List Byte) : AoStrPool :=
  { pool with arena := { pool.arena with heap := pool.arena.heap.write off bytes } }

/-- What is written to a region that is handed out. -/
theorem Inv.store_eq (hinv : pool.Inv before (c :: owned)) {bytes : List Byte}
    (hin : Heap.Within (off, bytes.length) c) :
  pool.store off bytes = some (pool.write off bytes) ∧ (pool.write off bytes).Inv before (c :: owned)
    ∧ Keeps before owned pool (pool.write off bytes)
  := by
  have hholds : pool.arena.heap.Holds off bytes.length = true :=
    hinv.arena.holds (List.mem_append_left _ (hinv.mem List.mem_cons_self)) hin
  obtain ⟨chains, rest, hperm, hlinked⟩ := hinv.free
  have hpacked : Packed (c :: (owned ++ (freeCells chains ++ rest))) :=
    Packed.perm ⟨hinv.arena.apart, hinv.pos⟩ hperm
  have hapart := (Heap.packed_cons_iff.mp hpacked).1
  refine ⟨?_, ⟨hinv.arena.write off bytes, hinv.capacity, hinv.pos, ⟨chains, rest, hperm, ?_⟩⟩, ?_⟩
  · rw [store, Heap.store, if_pos hholds]
    rfl
  · intro k hk
    obtain ⟨p, hp, hlist⟩ := hlinked k hk
    use p, hp
    apply hlist.write
    intro x hx
    -- the link of a free region is not in the region that is written to
    have hfree : (x, classSize k) ∈ owned ++ (freeCells chains ++ rest) :=
      List.mem_append_right _ (List.mem_append_left _ (mem_freeCells hk hx))
    apply (hapart _ hfree).within hin (link_within k x)
  · apply Heap.same_write
    intro b hb
    rcases List.mem_append.mp hb with hb | hb
    · apply (hapart b (List.mem_append_left _ hb)).within hin (Heap.Within.refl b)
    · apply (hinv.arena.apart_before (hinv.mem List.mem_cons_self) hb).within hin (Heap.Within.refl b)

/-- The free list of a class is another one. -/
theorem linked_update {buckets : List Nat} {m : Bytes.Mem} {chains : Nat → List Nat} {k p : Nat} {xs : List Nat}
    (hk : k < aoStrPoolBuckets)
    (hlinked : ∀ j < aoStrPoolBuckets, ∃ q, buckets[j]? = some q ∧ Linked m q (chains j)) (h : Linked m p xs) :
  ∀ j < aoStrPoolBuckets, ∃ q, (buckets.set k p)[j]? = some q ∧ Linked m q (Function.update chains k xs j)
  := by
  intro j hj
  rcases eq_or_ne k j with rfl | hne
  · obtain ⟨q, hq, -⟩ := hlinked k hk
    use p
    rw [List.getElem?_set_self (List.getElem?_eq_some_iff.mp hq).1, Function.update_self]
    exact ⟨rfl, h⟩
  · rw [List.getElem?_set_ne hne, Function.update_of_ne hne.symm]
    apply hlinked j hj

/-- `globalArenaAllocate` hands out a region. -/
theorem Inv.globalArenaAllocate_eq (hinv : pool.Inv before owned) {size : BitVec 32}
    (ha : pool.arena.Allowed (.alloc size a)) (hpos : 0 < size.toNat) (hsize : size.toNat ≤ 2 ^ 32 - 8) :
  ∃ pool' p, pool.globalArenaAllocate a size = some (pool', p) ∧ pool'.Inv before ((p, size.toNat) :: owned)
    ∧ Keeps before owned pool pool' ∧ pool'.buckets = pool.buckets
  := by
  have hsum : arenaAlignMemorySize size ≤ pool.arena.arena.blockCapacity →
      pool.arena.arena.head.used.toNat + (arenaAlignMemorySize size).toNat < 2 ^ 32 := by
    intro hle
    have hused := hinv.arena.head.used_le
    rw [hinv.arena.head_capacity, hinv.capacity] at hused
    rw [hinv.capacity] at hle
    have hle' : (arenaAlignMemorySize size).toNat ≤ 40960 := hle
    have hused' : pool.arena.arena.head.used.toNat ≤ 40960 := hused
    omega
  obtain ⟨h', arena', p, halloc, harena, hcap, hsame⟩ := hinv.arena.alloc ha hsize hsum
  obtain ⟨chains, rest, hperm, hlinked⟩ := hinv.free
  have hkept := hinv.arena.same hsame
  refine ⟨{ pool with arena := ⟨h', arena', (p, size.toNat) :: pool.arena.regions⟩ }, p, ?_, ⟨harena, ?_, ?_, chains,
    rest, hperm.cons _, ?_⟩, ?_, rfl⟩
  · rw [globalArenaAllocate, ArenaState.step, halloc]
    rfl
  · exact hcap.trans hinv.capacity
  · intro r hr
    rcases List.mem_cons.mp hr with rfl | hr
    · apply hpos
    · apply hinv.pos r hr
  · intro k hk
    obtain ⟨q, hq, hlist⟩ := hlinked k hk
    use q, hq
    apply hlist.same
    intro x hx i hlo hhi
    have hmem : (x, classSize k) ∈ pool.arena.regions :=
      hperm.mem_iff.mpr (List.mem_append_right _ (List.mem_append_left _ (mem_freeCells hk hx)))
    apply hkept (x, classSize k) (List.mem_append_left _ hmem) i hlo
    apply lt_of_lt_of_le hhi (Nat.add_le_add_left (eight_le_classSize k) x)
  · apply hkept.mono
    intro b hb
    rcases List.mem_append.mp hb with hb | hb
    · apply List.mem_append_left _ (hinv.mem hb)
    · apply List.mem_append_right _ hb

/-- `aoStrPoolAlloc` hands out a buffer that is as large as it says and as was asked for. -/
theorem Inv.aoStrPoolAlloc_eq (hinv : pool.Inv before owned) {requested : BitVec 32}
    (ha : ∀ size ∈ pool.asks requested, pool.arena.Allowed (.alloc size a))
    (hsize : requested.toNat ≤ 2 ^ 32 - 8) :
  ∃ pool' p actual, pool.aoStrPoolAlloc a requested = some (pool', p, actual)
    ∧ pool'.Inv before ((p, actual.toNat) :: owned) ∧ Keeps before owned pool pool'
    ∧ requested.toNat ≤ actual.toNat ∧ 0 < actual.toNat
  := by
  rcases em (requested > 65536) with hbig | hsmall
  · -- a large buffer comes from the arena
    have hpos : 0 < requested.toNat := Nat.zero_lt_of_lt hbig
    obtain ⟨pool', p, halloc, hinv', hkeeps, -⟩ := hinv.globalArenaAllocate_eq (ha _ (if_pos hbig)) hpos hsize
    refine ⟨pool', p, requested, ?_, hinv', hkeeps, le_refl _, hpos⟩
    rw [aoStrPoolAlloc, if_pos hbig, halloc]
    rfl
  · obtain ⟨k, hk, hbucket, hle⟩ := aoStrPoolBucketSize_eq (Nat.le_of_not_lt hsmall)
    have hidx := aoStrPoolBucketIdx_eq hk hbucket
    have hpos : 0 < (aoStrPoolBucketSize requested).toNat := by
      rw [hbucket]
      apply Nat.two_pow_pos
    obtain ⟨chains, rest, hperm, hlinked⟩ := hinv.free
    obtain ⟨q, hq, hlist⟩ := hlinked k hk
    rw [aoStrPoolAlloc, if_neg hsmall]
    simp only [hidx, hq, Option.bind_eq_bind, Option.bind_some]
    cases hchain : chains k with
    | nil =>
      -- no buffer of the class is free
      rw [hchain] at hlist
      obtain rfl : q = 0 := hlist
      have hask : pool.asks requested = some (aoStrPoolBucketSize requested) := by
        rw [asks, if_neg hsmall]
        simp only [hidx, hq, if_pos]
      have hmax : (aoStrPoolBucketSize requested).toNat ≤ 2 ^ 32 - 8 := by
        rw [hbucket]
        apply (classSize_le hk).trans (by decide)
      obtain ⟨pool', p, halloc, hinv', hkeeps, -⟩ := hinv.globalArenaAllocate_eq (ha _ hask) hpos hmax
      refine ⟨pool', p, aoStrPoolBucketSize requested, ?_, hinv', hkeeps, ?_, hpos⟩
      · rw [if_neg (not_not_intro rfl), halloc]
        rfl
      · rwa [hbucket]
    | cons x xs =>
      -- the first free buffer of the class is taken, and its link read
      rw [hchain] at hlist
      obtain ⟨rfl, hne, -, hrest⟩ := hlist
      have hfree : (freeCells chains).Perm ((q, classSize k) :: freeCells (Function.update chains k xs)) := by
        have hpush := freeCells_push hk chains q xs
        rwa [← hchain, Function.update_eq_self] at hpush
      have hmove := hperm.trans ((((hfree.append_right rest).append_left owned)).trans List.perm_middle)
      have hregion : (q, classSize k) ∈ pool.arena.regions := hmove.mem_iff.mpr List.mem_cons_self
      have hload : pool.arena.heap.load q 8 = some (Bytes.read pool.mem q 8) :=
        if_pos (hinv.arena.holds (List.mem_append_left _ hregion)
          (link_within k q))
      refine ⟨{ pool with buckets := pool.buckets.set k (Bytes.read pool.mem q 8).toNat }, q,
        aoStrPoolBucketSize requested, ?_, ⟨hinv.arena, hinv.capacity, hinv.pos, Function.update chains k xs, rest, ?_,
        ?_⟩, Same.refl _ _, ?_, hpos⟩
      · rw [if_pos hne, hload]
        rfl
      · rw [hbucket]
        apply hmove
      · apply linked_update hk hlinked hrest
      · rwa [hbucket]

/-- `aoStrPoolFree` takes a buffer back, of which it overwrites only the beginning. -/
theorem Inv.aoStrPoolFree_eq {buf : Nat} (capacity : BitVec 32)
    (hinv : pool.Inv before ((buf, capacity.toNat) :: owned)) :
  ∃ pool', pool.aoStrPoolFree buf capacity = some pool' ∧ pool'.Inv before owned ∧ Keeps before owned pool pool'
    ∧ ∀ d n, Heap.Within (d, n) (buf, capacity.toNat) → (0 < n → capacity.toNat ≤ 65536 → Heap.Apart (d, n) (buf, 8)) →
      pool'.load d n = some (Heap.fetch pool.mem d n)
  := by
  have hall : ∀ d n, Heap.Within (d, n) (buf, capacity.toNat) → pool.arena.heap.Holds d n = true := fun d n hin =>
    hinv.arena.holds (List.mem_append_left _ (hinv.mem List.mem_cons_self)) hin
  have hlost : pool.Inv before owned := by
    obtain ⟨chains, rest, hperm, hlinked⟩ := hinv.free
    refine ⟨hinv.arena, hinv.capacity, hinv.pos, chains, (buf, capacity.toNat) :: rest, ?_, hlinked⟩
    apply hperm.trans
    rw [← List.append_assoc, ← List.append_assoc]
    apply List.perm_middle.symm
  have haddressed := hinv.arena.addressed_of_mem (hinv.mem List.mem_cons_self)
  rw [aoStrPoolFree, if_neg haddressed.1]
  split
  · exact ⟨pool, rfl, hlost, Same.refl _ _, fun d n hin _ => if_pos (.inr (hall d n hin))⟩
  · split
    · exact ⟨pool, rfl, hlost, Same.refl _ _, fun d n hin _ => if_pos (.inr (hall d n hin))⟩
    case isFalse hrange hclass =>
      have hclass' : capacity = aoStrPoolBucketSize capacity := not_not.mp hclass
      have hle : capacity.toNat ≤ 65536 := Nat.le_of_not_lt fun hlt => hrange (.inr hlt)
      obtain ⟨k, hk, hbucket, -⟩ := aoStrPoolBucketSize_eq hle
      rw [← hclass'] at hbucket
      have hidx := aoStrPoolBucketIdx_eq hk hbucket
      obtain ⟨chains, rest, hperm, hlinked⟩ := hinv.free
      obtain ⟨q, hq, hlist⟩ := hlinked k hk
      have hpacked : Packed ((buf, capacity.toNat) :: (owned ++ (freeCells chains ++ rest))) :=
        Packed.perm ⟨hinv.arena.apart, hinv.pos⟩ hperm
      have hlink : Heap.Within (buf, 8) (buf, capacity.toNat) := by
        rw [hbucket]
        apply link_within
      have hapart : ∀ j < aoStrPoolBuckets, ∀ x ∈ chains j, Heap.Apart (buf, 8) (x, 8) := by
        intro j hj x hx
        have hfree : (x, classSize j) ∈ owned ++ (freeCells chains ++ rest) :=
          List.mem_append_right _ (List.mem_append_left _ (mem_freeCells hj hx))
        apply ((Heap.packed_cons_iff.mp hpacked).1 _ hfree).within hlink (link_within j x)
      have hlen : (Bytes.layout 8 (BitVec.ofNat 64 q)).length = 8 := Bytes.length_layout 8 _
      have hin : Heap.Within (buf, (Bytes.layout 8 (BitVec.ofNat 64 q)).length) (buf, capacity.toNat) := by rwa [hlen]
      obtain ⟨hstore, hinv', hkeeps⟩ := hinv.store_eq hin
      have hlt : buf < 2 ^ 64 := by
        have hpos := hinv.pos _ (hinv.mem List.mem_cons_self)
        have hend := haddressed.2
        omega
      have hwritten : ∀ j < aoStrPoolBuckets, ∃ p, pool.buckets[j]? = some p
          ∧ Linked (Bytes.write pool.mem buf (Bytes.layout 8 (BitVec.ofNat 64 q))) p (chains j) := by
        intro j hj
        obtain ⟨p, hp, hlist⟩ := hlinked j hj
        use p, hp
        apply hlist.write
        rw [hlen]
        apply hapart j hj
      have hfree : (freeCells (Function.update chains k (buf :: chains k))).Perm
          ((buf, classSize k) :: freeCells chains) := by
        have hpush := freeCells_push hk chains buf (chains k)
        rwa [Function.update_eq_self] at hpush
      refine ⟨{ pool.write buf (Bytes.layout 8 (BitVec.ofNat 64 q)) with buckets := pool.buckets.set k buf }, ?_,
        ⟨hinv'.arena, hinv.capacity, hinv.pos, Function.update chains k (buf :: chains k), rest, ?_, ?_⟩, hkeeps, ?_⟩
      · simp only [hidx, hq, Option.bind_eq_bind, Option.bind_some, hstore]
        rfl
      · rw [hbucket] at hperm
        apply hperm.trans
        apply ((((hfree.append_right rest).append_left owned)).trans List.perm_middle).symm
      · apply linked_update hk hwritten
        apply hlist.push haddressed.1 hlt (hapart k hk)
      · intro d n hin hspared
        rcases Nat.eq_zero_or_pos n with rfl | hpos
        · apply load_zero
        · have hmax : capacity.toNat ≤ 65536 := by
            rw [hbucket]
            apply classSize_le hk
          have hsame : Same [(d, n)] pool.mem (Bytes.write pool.mem buf (Bytes.layout 8 (BitVec.ofNat 64 q))) := by
            apply Heap.same_write
            intro r hr
            rw [List.mem_singleton.mp hr, hlen]
            apply (hspared hpos hmax).symm
          rw [← hsame.fetch List.mem_cons_self (Heap.Within.refl _)]
          apply if_pos (.inr (hall d n hin))

end AoStrPool

end Polyc
