import Polyc.Memsafe.MemsafeInv

/-!
# What the wrappers do

Each wrapper keeps the invariant when the allocator answers right, the size and its header fit 64
bits, the entry is allocated and the pointer is findable in the map.
-/

namespace Polyc

variable {s : Memsafe} {A : HeldBlocks}

/-! ### Allocations -/

/-- What `malloc` and `calloc` may answer to a wrapper: a right block, and no pointer to an entry
that is in use. -/
structure MemsafeAnswer.Right (s : Memsafe) (size : Word) (a : MemsafeAnswer) : Prop where
  block : s.heap.Right (2 ^ 64) 16 (size + 8).toNat a.block
  entry : ∀ p e, s.live.Binds memsafeMap p e → e ≠ a.entry

/-- What a wrapper needs of an answer that is a block: the size and the header fit 64 bits, and
`calloc` does not fail. -/
def MemsafeAnswer.Meets (size : Word) (a : MemsafeAnswer) : Prop :=
  a.block.base ≠ 0 → size.toNat + 8 < 2 ^ 64 ∧ a.entry ≠ 0

/-- A pointer that is not tracked is tracked with a size. -/
theorem memsafeTrack_fresh (h : MemsafeInv s A) {p size entry : Word}
    (hp : A.live p = none) (hblock : LiveBlock s.heap p size) (hentry : entry ≠ 0)
    (hfresh : ∀ q e, s.live.Binds memsafeMap q e → e ≠ entry) :
  ∃ s', memsafeTrack s p size entry = some s' ∧ MemsafeInv s' (A.add p size) ∧
    mapAddOrErr memsafeMap s.live p entry = some (s'.live, true) ∧ s'.heap = s.heap ∧
    s'.reports = s.reports
  := by
  have hno := h.unbound hp
  obtain ⟨live, hadd, hkept, hbinds⟩ := h.kept.add hno entry
  refine ⟨{ s with
    live := live
    entries := Function.update s.entries entry ⟨p, size, s.round, 0⟩ }, ?_, ?_, hadd, rfl, rfl⟩
  · rw [memsafeTrack, if_neg hblock.ne_zero, h.kept.get_unbound (ne_ulongMax hblock.aligned) hno]
    simp only [ne_eq, not_true, if_false, Option.bind_eq_bind, Option.bind_some, if_neg hentry,
      hadd, Option.pure_def]
  · constructor
    case kept => apply hkept
    case heap => apply h.heap
    case ring => exact ⟨h.ring.length, h.ring.next, h.ring.window⟩
    case aligned => apply h.aligned
    case block =>
      intro q n hq
      rw [A.live_add] at hq
      split at hq
      case isTrue heq =>
        cases hq
        rw [heq]
        apply hblock
      case isFalse hne => apply h.block q n hq
    case entry =>
      intro q e he
      rw [hbinds] at he
      split at he
      case isTrue heq =>
        subst heq he
        simp only [Function.update_self]
        exact ⟨hentry, trivial⟩
      case isFalse hne =>
        simp only [Function.update_of_ne (hfresh q e he)]
        apply h.entry q e he
    case tracks =>
      intro q n
      rw [A.live_add]
      simp only [hbinds]
      rcases eq_or_ne q p with rfl | hne
      · rw [if_pos rfl, Option.some.injEq]
        constructor
        · rintro rfl
          refine ⟨entry, (if_pos rfl).mpr rfl, ?_⟩
          rw [Function.update_self]
        · rintro ⟨e, he, rfl⟩
          rw [if_pos rfl] at he
          rw [he, Function.update_self]
      · rw [if_neg hne, h.tracks]
        constructor
        · rintro ⟨e, he, rfl⟩
          use e, (if_neg hne.symm).mpr he
          rw [Function.update_of_ne (hfresh q e he)]
        · rintro ⟨e, he, hn⟩
          rw [if_neg hne.symm] at he
          rw [Function.update_of_ne (hfresh q e he)] at hn
          exact ⟨e, he, hn⟩

/-- What has happened when a wrapper returned a new block. -/
structure Allocated (s : Memsafe) (A : HeldBlocks) (size : Word) (a : MemsafeAnswer) (s' : Memsafe)
    (p : Word) : Prop where
  fresh : A.live p = none
  inv : MemsafeInv s' (A.add p size)
  pointer : p = BitVec.ofNat 64 (a.block.base + 8)
  live : mapAddOrErr memsafeMap s.live p a.entry = some (s'.live, true)
  mem : ∀ q n, A.live q = some n → ∀ i, q.toNat ≤ i → i < q.toNat + n.toNat →
    s'.heap.mem i = s.heap.mem i
  reports : s'.reports = s.reports

/-- The new block is at no null pointer. -/
theorem Allocated.block {size : Word} {a : MemsafeAnswer} {s' : Memsafe} {p : Word}
    (h : Allocated s A size a s' p) :
  LiveBlock s'.heap p size
  := by
  apply h.inv.block
  rw [A.live_add, if_pos rfl]

/-- The blocks keep their bytes when the allocator answers. -/
theorem mem_malloc_header (h : MemsafeInv s A) {size : Word} {a : MemsafeAnswer}
    (ha : a.Right s size) (hbase : a.block.base ≠ 0) (hreq : (size + 8).toNat = size.toNat + 8)
    {q n : Word} (hq : A.live q = some n) {i : Nat} (hlo : q.toNat - 8 ≤ i)
    (hhi : i < q.toNat + n.toNat) :
  ((s.heap.malloc (size + 8).toNat a.block).write a.block.base (Bytes.layout 8 size)).mem i
    = s.heap.mem i
  := by
  have hblock := h.block q n hq
  have hheader := hblock.header
  have hapart := ha.block.apart hbase _ hblock.block
  have hkept := ha.block.kept _ hblock.block i hlo (by simp only; omega)
  rw [Heap.Apart, hreq] at hapart
  rw [← hkept]
  simp only at hapart
  rcases hapart with hlt | hgt
  · apply Bytes.write_of_ge
    rw [Bytes.length_layout]
    omega
  · apply Bytes.write_of_lt
    omega

/-- `memsafeMAlloc` returns a new block. -/
theorem memsafeMAlloc_block (h : MemsafeInv s A) {size : Word} {a : MemsafeAnswer}
    (ha : a.Right s size) (hmeets : a.Meets size) (hbase : a.block.base ≠ 0) :
  ∃ s' p, memsafeMAlloc s size a = some (s', p) ∧ Allocated s A size a s' p
  := by
  obtain ⟨hsize, hentry⟩ := hmeets hbase
  have hreq : (size + 8).toNat = size.toNat + 8 := by
    bv_omega
  have hfits := ha.block.fits hbase
  have haligned := ha.block.aligned
  rw [hreq] at hfits
  obtain ⟨p, hp⟩ : ∃ p, p = BitVec.ofNat 64 (a.block.base + 8) := ⟨_, rfl⟩
  have hpn : p.toNat = a.block.base + 8 := by
    rw [hp, BitVec.toNat_ofNat]
    omega
  obtain ⟨heap, hheap⟩ : ∃ heap, heap =
    (s.heap.malloc (size + 8).toNat a.block).write a.block.base (Bytes.layout 8 size) := ⟨_, rfl⟩
  have hmem {q n : Word} (hq : A.live q = some n) {i : Nat} (hlo : q.toNat - 8 ≤ i)
      (hhi : i < q.toNat + n.toNat) : heap.mem i = s.heap.mem i := by
    rw [hheap]
    apply mem_malloc_header h ha hbase hreq hq hlo hhi
  have hw : heap.WellFormed := by
    rw [hheap]
    apply (h.heap.malloc ha.block (by omega)).write
  have hmemBlocks (b : Nat × Nat) :
      b ∈ heap.blocks ↔ b = (a.block.base, size.toNat + 8) ∨ b ∈ s.heap.blocks := by
    rw [hheap, ← hreq]
    apply Heap.mem_malloc hbase
  have hinv : MemsafeInv { s with heap := heap } A := by
    refine h.of_heap rfl rfl rfl rfl hw fun q n hq hblock => ?_
    refine hblock.of_kept ((hmemBlocks _).2 (.inr hblock.block)) fun i hlo hhi => ?_
    apply hmem hq hlo
    omega
  have hfresh : A.live p = none := by
    rw [Option.eq_none_iff_forall_not_mem]
    intro n hn
    have hblock := h.block p n hn
    have hapart := ha.block.apart hbase _ hblock.block
    rw [Heap.Apart, hreq] at hapart
    simp only at hapart
    omega
  have hblock : LiveBlock heap p size := by
    have hpeq : p.toNat - 8 = a.block.base := by omega
    constructor
    · omega
    · omega
    · omega
    · rw [hpeq]
      apply (hmemBlocks _).2 (.inl rfl)
    · rw [hpeq, hheap]
      apply Bytes.read_write_layout
  obtain ⟨s', htrack, hinv', hlive, hheap', hreports⟩ :=
    memsafeTrack_fresh hinv hfresh hblock hentry ha.entry
  refine ⟨s', p, ?_, hfresh, hinv', hp, hlive, ?_, hreports⟩
  · have hlt : ¬ (size + 8).toNat < 8 := by omega
    rw [memsafeMAlloc]
    simp only [if_neg hbase, if_neg hlt, ← hheap, ← hp, htrack, Option.bind_eq_bind,
      Option.bind_some, Option.pure_def]
  · intro q n hq i hlo hhi
    rw [hheap']
    apply hmem hq _ hhi
    omega

/-- `memsafeMAlloc` returns no block when `malloc` fails. -/
theorem memsafeMAlloc_null (h : MemsafeInv s A) {size : Word} {a : MemsafeAnswer}
    (ha : a.Right s size) (hbase : a.block.base = 0) :
  ∃ s', memsafeMAlloc s size a = some (s', 0) ∧ MemsafeInv s' A ∧ s'.reports = s.reports
  := by
  refine ⟨{ s with heap := s.heap.malloc (size + 8).toNat a.block }, ?_, ?_, rfl⟩
  · rw [memsafeMAlloc]
    simp only [if_pos hbase, Option.pure_def]
  · have hblocks : (s.heap.malloc (size + 8).toNat a.block).blocks = s.heap.blocks := if_pos hbase
    refine h.of_heap rfl rfl rfl rfl ⟨?_, ?_⟩ fun q n hq hblock => ?_
    · rw [hblocks]
      apply h.heap.apart
    · rw [hblocks]
      apply h.heap.pos
    · refine hblock.of_kept (hblocks ▸ hblock.block) fun i hlo hhi => ?_
      apply ha.block.kept _ hblock.block i hlo
      simp only
      omega

/-! ### Frees -/

/-- A block is released: it is not in the heap any more, the others are, with all bytes. -/
structure Released (s : Memsafe) (p n : Word) (s' : Memsafe) : Prop where
  gone : (p.toNat - 8, n.toNat + 8) ∉ s'.heap.blocks
  others : ∀ b ∈ s.heap.blocks, b ≠ (p.toNat - 8, n.toNat + 8) → b ∈ s'.heap.blocks
  mem : s'.heap.mem = s.heap.mem
  reports : s'.reports = s.reports

/-- A block that is findable is retired. -/
theorem memsafeRetire_live (h : MemsafeInv s A) {p n : Word} (hp : A.live p = some n)
    (hf : s.live.Findable memsafeMap p) :
  ∃ s', memsafeRetire s p = some (s', true) ∧ s'.heap = s.heap ∧ s'.reports = s.reports ∧
    s'.live.Kept ∧ TracksBlocks s' (A.retire p) ∧
    (∀ q e, s'.live.Binds memsafeMap q e → e ≠ 0 ∧ (s'.entries e).ptr = q) ∧
    RingHolds s' (p :: A.retired)
  := by
  obtain ⟨e, he, hsize⟩ := (h.tracks p n).1 hp
  obtain ⟨hne, hptr⟩ := h.entry p e he
  have hblock := h.block p n hp
  obtain ⟨m, hget, hkept, hsame⟩ := h.kept.get_bound (ne_ulongMax hblock.aligned) he hf
  obtain ⟨m', hrem, hkept', hbinds⟩ :=
    hkept.remove ((hsame.binds p e).2 he) (hsame.findable hf)
  have hbinds' (q e : Word) :
      m'.Binds memsafeMap q e ↔ p ≠ q ∧ s.live.Binds memsafeMap q e := by
    rw [hbinds, hsame.binds]
  refine ⟨{ s with
    live := m'
    ring := s.ring.set s.ringNext { s.entries e with freeRound := s.round }
    ringNext := (s.ringNext + 1) % memsafeRingSize }, ?_, rfl, rfl, hkept', ?_, ?_, ?_⟩
  · rw [memsafeRetire, if_neg hblock.ne_zero, hget]
    simp only [Option.bind_eq_bind, Option.bind_some, if_neg hne, hrem, Option.pure_def]
  · intro q k
    rw [A.live_retire]
    simp only [hbinds']
    rcases eq_or_ne q p with rfl | hqp
    · rw [if_pos rfl]
      simp
    · rw [if_neg hqp, h.tracks]
      simp only [ne_eq, hqp.symm, not_false_eq_true, true_and]
  · intro q e' he'
    apply h.entry q e' ((hbinds' q e').1 he').2
  · rw [← hptr]
    apply h.ring.push { s.entries e with freeRound := s.round } rfl rfl

/-- The free of a block that is findable is carried out. -/
theorem memsafeFree_live (h : MemsafeInv s A) {p n : Word} (hp : A.live p = some n)
    (hf : s.live.Findable memsafeMap p) :
  ∃ s', memsafeFree s p = some s' ∧ MemsafeInv s' (A.retire p) ∧ Released s p n s'
  := by
  obtain ⟨s₁, hretire, hheap, hreports, hkept, htracks, hentry, hring⟩ := memsafeRetire_live h hp hf
  have hblock := h.block p n hp
  have hheader := hblock.header
  have hfree := Heap.free_eq hblock.block
  refine ⟨{ s₁ with
    heap := { s.heap with blocks := s.heap.blocks.filter (·.1 ≠ p.toNat - 8) } }, ?_, ?_, ?_⟩
  · rw [memsafeFree, if_neg hblock.ne_zero, hretire]
    simp only [Option.bind_eq_bind, Option.bind_some, if_true, memsafeRelease, hheap,
      hblock.sub_eight, hfree, Option.map_some]
  · constructor
    case kept => apply hkept
    case tracks => apply htracks
    case entry => apply hentry
    case heap => apply h.heap.free hfree
    case ring => exact ⟨hring.length, hring.next, hring.window⟩
    case aligned =>
      intro q hq
      rcases List.mem_cons.1 hq with rfl | hq
      · apply hblock.aligned
      · apply h.aligned q hq
    case block =>
      intro q k hq
      rw [A.live_retire] at hq
      split at hq
      case isTrue heq => cases hq
      case isFalse hne =>
        have hblock' := h.block q k hq
        have hheader' := hblock'.header
        refine hblock'.of_kept (List.mem_filter.2 ⟨hblock'.block, ?_⟩) fun _ _ _ => rfl
        apply decide_eq_true
        intro heq
        apply hne
        apply BitVec.eq_of_toNat_eq
        simp only at heq
        omega
  · constructor
    case gone => simp
    case others =>
      intro b hb hne
      refine List.mem_filter.2 ⟨hb, ?_⟩
      apply decide_eq_true
      intro heq
      exact hne (h.heap.eq_of_base hb hblock.block heq)
    case mem => rfl
    case reports => apply hreports

/-- A pointer that is not that of a block is not retired. -/
theorem memsafeRetire_unbound (h : MemsafeInv s A) {p : Word} (hp : A.live p = none)
    (haligned : 8 ∣ p.toNat) :
  memsafeRetire s p = some (s, false)
  := by
  rw [memsafeRetire]
  split
  · rfl
  · rw [h.kept.get_unbound (ne_ulongMax haligned) (h.unbound hp)]
    rfl

/-- A second free is reported: the pointer is named with an entry that was freed, and nothing else
happens. -/
def Refused (s : Memsafe) (p : Word) (s' : Memsafe) : Prop :=
  ∃ r, r.ptr = p ∧ s' = memsafeReportDoubleFree s p r

/-- A pointer that was freed not long ago is found in the ring. -/
theorem Again.found (h : MemsafeInv s A) {p : Word} (hp : p ≠ 0)
    (hmem : p ∈ A.retired.take memsafeRingSize) :
  ∃ r, memsafeRingFind s p = some r ∧ r.ptr = p
  := by
  obtain ⟨r, hr⟩ := Option.isSome_iff_exists.1 ((h.ring.find_iff hp).2 hmem)
  have hfind := hr
  rw [memsafeRingFind] at hfind
  have hptr := List.find?_some hfind
  exact ⟨r, hr, of_decide_eq_true hptr⟩

/-- The second free of a pointer is refused. -/
theorem memsafeFree_again (h : MemsafeInv s A) {p : Word} (hp : A.Again p) :
  ∃ s', memsafeFree s p = some s' ∧ Refused s p s'
  := by
  obtain ⟨hne, hnone, hmem⟩ := hp
  obtain ⟨r, hr, hptr⟩ := Again.found h hne hmem
  have hretire := memsafeRetire_unbound h hnone (h.aligned p (List.mem_of_mem_take hmem))
  refine ⟨_, ?_, r, hptr, rfl⟩
  rw [memsafeFree, if_neg hne, hretire]
  simp only [Option.bind_eq_bind, Option.bind_some, Bool.false_eq_true, if_false, hr,
    Option.pure_def]

/-- A report keeps the invariant. -/
theorem MemsafeInv.report (h : MemsafeInv s A) (p : Word) (r : MemsafeEntry) :
  MemsafeInv (memsafeReportDoubleFree s p r) A
  := h.of_heap rfl rfl rfl rfl h.heap fun _ _ _ hblock => hblock

end Polyc
