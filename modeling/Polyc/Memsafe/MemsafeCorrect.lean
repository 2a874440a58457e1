import Polyc.Memsafe.MemsafeOps

/-!
# The tracking allocator on correct programs

In every run the tracker has the blocks that the program holds, frees and reallocates them, and
refuses second frees, as long as a block that is reallocated is not at an address that is still in
the ring, and the map finds what is freed.
-/

namespace Polyc

variable {s : Memsafe} {A : HeldBlocks}

/-! ### Reallocations -/

/-- The number of bytes. -/
@[simp] theorem length_bytesAt (mem : Bytes.Mem) (off n : Nat) :
  (bytesAt mem off n).length = n
  := by
  rw [bytesAt, List.length_map, List.length_range]

/-- Bytes that are copied. -/
theorem write_bytesAt (mem mem' : Bytes.Mem) (off off' : Nat) {n i : Nat} (hi : i < n) :
  Bytes.write mem off' (bytesAt mem' off n) (off' + i) = mem' (off + i)
  := by
  rw [Bytes.write_of_mem (by rwa [length_bytesAt]), bytesAt, List.getD_eq_getElem?_getD,
    List.getElem?_map, List.getElem?_range hi]
  rfl

/-- The number of bytes that are copied. -/
theorem toNat_lesser (n size : Word) :
  (if n < size then n else size).toNat = min n.toNat size.toNat
  := by
  split
  case isTrue h =>
    have hlt := BitVec.lt_def.1 h
    omega
  case isFalse h =>
    have hge := BitVec.not_lt.1 h
    rw [BitVec.le_def] at hge
    omega

/-- A block is reallocated: the new one has the first bytes of the old one, which is released. -/
structure Reallocated (s : Memsafe) (p n size : Word) (s' : Memsafe) (q : Word) : Prop where
  ne_zero : q ≠ 0
  bytes : ∀ i, i < min n.toNat size.toNat → s'.heap.mem (q.toNat + i) = s.heap.mem (p.toNat + i)
  gone : (p.toNat - 8, n.toNat + 8) ∉ s'.heap.blocks
  reports : s'.reports = s.reports

/-- What the reallocation of a block needs: it is not among the last ones that were freed, and it is
findable when the new block is in the map. -/
def MeetsReAlloc (s : Memsafe) (A : HeldBlocks) (p : Word) (a : MemsafeAnswer) : Prop :=
  p ∉ A.retired.take memsafeRingSize ∧
    ∀ live b, mapAddOrErr memsafeMap s.live (BitVec.ofNat 64 (a.block.base + 8)) a.entry
      = some (live, b) → live.Findable memsafeMap p

/-- A pointer that was not freed lately is not in the ring. -/
theorem MemsafeInv.ringFind_none (h : MemsafeInv s A) {p : Word} (hp : p ≠ 0)
    (hring : p ∉ A.retired.take memsafeRingSize) :
  memsafeRingFind s p = none
  := by
  rw [← Option.not_isSome_iff_eq_none, h.ring.find_iff hp]
  apply hring

/-- The reallocation of a block is carried out. -/
theorem memsafeReAlloc_live (h : MemsafeInv s A) {p n size : Word} {a : MemsafeAnswer}
    (hp : A.live p = some n) (ha : a.Right s size) (hmeets : a.Meets size)
    (hbase : a.block.base ≠ 0) (hre : MeetsReAlloc s A p a) :
  ∃ s' q, memsafeReAlloc s p size a = some (s', q) ∧
    MemsafeInv s' ((A.add q size).retire p) ∧ Reallocated s p n size s' q
  := by
  obtain ⟨hring, hf⟩ := hre
  have hblock := h.block p n hp
  obtain ⟨s₁, q, hmalloc, hnew⟩ := memsafeMAlloc_block h ha hmeets hbase
  have hqp : p ≠ q := by
    rintro rfl
    rw [hnew.fresh] at hp
    cases hp
  have hp₁ : (A.add q size).live p = some n := by
    rw [A.live_add, if_neg hqp, hp]
  have hq₁ : (A.add q size).live q = some size := by
    rw [A.live_add, if_pos rfl]
  have hblock₁ := hnew.inv.block p n hp₁
  obtain ⟨k, hk⟩ : ∃ k, k = (if n < size then n else size).toNat := ⟨_, rfl⟩
  have hkmin : k = min n.toNat size.toNat := hk.trans (toNat_lesser n size)
  have hlen : (bytesAt s₁.heap.mem p.toNat k).length ≤ size.toNat := by
    rw [length_bytesAt]
    omega
  have hinv₂ := hnew.inv.write hq₁ hlen
  have hfind : s₁.live.Findable memsafeMap p := by
    apply hf _ true
    rw [← hnew.pointer]
    apply hnew.live
  obtain ⟨s', hfree, hinv', hrel⟩ := memsafeFree_live hinv₂ hp₁ hfind
  refine ⟨s', q, ?_, hinv', hnew.block.ne_zero, ?_, hrel.gone, hrel.reports.trans hnew.reports⟩
  · rw [memsafeReAlloc, if_neg hblock.ne_zero, h.ringFind_none hblock.ne_zero hring]
    simp only [hmalloc, Option.bind_eq_bind, Option.bind_some, if_neg hnew.block.ne_zero,
      hblock.sub_eight, hblock₁.size, ← hk, hfree, Option.pure_def]
  · intro i hi
    rw [hrel.mem]
    apply (write_bytesAt _ _ p.toNat q.toNat (hkmin ▸ hi)).trans
    apply hnew.mem p n hp
    · omega
    · omega

/-- The reallocation of a block fails when `malloc` does, and the block stays. -/
theorem memsafeReAlloc_null (h : MemsafeInv s A) {p n size : Word} {a : MemsafeAnswer}
    (hp : A.live p = some n) (ha : a.Right s size) (hbase : a.block.base = 0)
    (hring : p ∉ A.retired.take memsafeRingSize) :
  ∃ s', memsafeReAlloc s p size a = some (s', 0) ∧ MemsafeInv s' A ∧ s'.reports = s.reports
  := by
  have hblock := h.block p n hp
  obtain ⟨s', hmalloc, hinv, hreports⟩ := memsafeMAlloc_null h ha hbase
  refine ⟨s', ?_, hinv, hreports⟩
  rw [memsafeReAlloc, if_neg hblock.ne_zero, h.ringFind_none hblock.ne_zero hring]
  simp only [hmalloc, Option.bind_eq_bind, Option.bind_some, if_true, Option.pure_def]

/-- The reallocation of a pointer that was freed not long ago is refused, also when a block is at
this address again. -/
theorem memsafeReAlloc_refused (h : MemsafeInv s A) {p : Word} (size : Word) (a : MemsafeAnswer)
    (hne : p ≠ 0) (hring : p ∈ A.retired.take memsafeRingSize) :
  ∃ s', memsafeReAlloc s p size a = some (s', 0) ∧ Refused s p s'
  := by
  obtain ⟨r, hr, hptr⟩ := Again.found h hne hring
  refine ⟨_, ?_, r, hptr, rfl⟩
  rw [memsafeReAlloc, if_neg hne, hr]
  rfl

/-! ### Calls -/

/-- The calls that the contract of the allocator and of its callers allows: right answers, pointers
that are null, or those of blocks, or were freed not long ago, and no writing over headers. -/
def Allowed (s : Memsafe) (A : HeldBlocks) : MemsafeCall → Prop
  | .mAlloc size a => a.Right s size
  | .cAlloc size a => a.Right s size
  | .reAlloc p size a => a.Right s size ∧ (p = 0 ∨ (A.live p).isSome ∨ A.Again p)
  | .free p => p = 0 ∨ (A.live p).isSome ∨ A.Again p
  | .setRound _ => True
  | .store mem => ∀ p n, A.live p = some n → ∀ i, p.toNat - 8 ≤ i → i < p.toNat →
      mem i = s.heap.mem i

/-- What a call needs to do what it should. -/
def Meets (s : Memsafe) (A : HeldBlocks) : MemsafeCall → Prop
  | .mAlloc size a => a.Meets size
  | .cAlloc size a => a.Meets size
  | .reAlloc p size a =>
    if (A.live p).isSome then
      p ∉ A.retired.take memsafeRingSize ∧
        (a.block.base ≠ 0 → a.Meets size ∧ MeetsReAlloc s A p a)
    else p = 0 → a.Meets size
  | .free p => (A.live p).isSome → s.live.Findable memsafeMap p
  | .setRound _ => True
  | .store _ => True

/-- What a call should do: a block that `malloc` gives is returned, the free of a block releases it,
its reallocation returns a new block with its bytes unless `malloc` fails, and a second free or
reallocation is refused. -/
def Fulfils (s : Memsafe) (A : HeldBlocks) (s' : Memsafe) (r : Word) : MemsafeCall → Prop
  | .mAlloc _ a => a.block.base ≠ 0 → r ≠ 0
  | .cAlloc _ a => a.block.base ≠ 0 → r ≠ 0
  | .free p =>
    (∀ n, A.live p = some n → Released s p n s') ∧ (A.Again p → Refused s p s')
  | .reAlloc p size a =>
    (∀ n, A.live p = some n → s'.reports = s.reports ∧
      (a.block.base ≠ 0 → Reallocated s p n size s' r)) ∧
    (A.Again p → Refused s p s' ∧ r = 0)
  | _ => True

/-- `memsafeMAlloc` does what it should. -/
theorem memsafeMAlloc_fulfils (h : MemsafeInv s A) {size : Word} {a : MemsafeAnswer}
    (ha : a.Right s size) (hmeets : a.Meets size) :
  ∃ s' r, memsafeMAlloc s size a = some (s', r) ∧
    MemsafeInv s' (if r = 0 then A else A.add r size) ∧ (a.block.base ≠ 0 → r ≠ 0)
  := by
  rcases eq_or_ne a.block.base 0 with hbase | hbase
  · obtain ⟨s', hmalloc, hinv, -⟩ := memsafeMAlloc_null h ha hbase
    refine ⟨s', 0, hmalloc, ?_, fun hne => absurd hbase hne⟩
    rw [if_pos rfl]
    apply hinv
  · obtain ⟨s', p, hmalloc, hnew⟩ := memsafeMAlloc_block h ha hmeets hbase
    refine ⟨s', p, hmalloc, ?_, fun _ => hnew.block.ne_zero⟩
    rw [if_neg hnew.block.ne_zero]
    apply hnew.inv

/-- `memsafeCAlloc` does what it should. -/
theorem memsafeCAlloc_fulfils (h : MemsafeInv s A) {size : Word} {a : MemsafeAnswer}
    (ha : a.Right s size) (hmeets : a.Meets size) :
  ∃ s' r, memsafeCAlloc s size a = some (s', r) ∧
    MemsafeInv s' (if r = 0 then A else A.add r size) ∧ (a.block.base ≠ 0 → r ≠ 0)
  := by
  obtain ⟨s', r, hmalloc, hinv, hne⟩ := memsafeMAlloc_fulfils h ha hmeets
  rcases eq_or_ne r 0 with hr | hr
  · refine ⟨s', r, ?_, hinv, hne⟩
    rw [memsafeCAlloc, hmalloc]
    simp only [Option.bind_eq_bind, Option.bind_some, ne_eq, hr, not_true, if_false,
      Option.pure_def]
  · refine ⟨{ s' with heap := s'.heap.write r.toNat (List.replicate size.toNat 0) }, r, ?_, ?_, hne⟩
    · rw [memsafeCAlloc, hmalloc]
      simp only [Option.bind_eq_bind, Option.bind_some, ne_eq, hr, not_false_eq_true, if_true,
        Option.pure_def]
    · rw [if_neg hr] at hinv ⊢
      refine hinv.write ((A.live_add r size r).trans (if_pos rfl)) ?_
      rw [List.length_replicate]

/-- A second free or reallocation keeps the invariant. -/
theorem Refused.inv (h : MemsafeInv s A) {p : Word} {s' : Memsafe} (hs : Refused s p s') :
  MemsafeInv s' A
  := by
  obtain ⟨r, -, rfl⟩ := hs
  apply h.report

/-- `memsafeFree` does what it should. -/
theorem memsafeFree_fulfils (h : MemsafeInv s A) {p : Word} (hallowed : Allowed s A (.free p))
    (hmeets : Meets s A (.free p)) :
  ∃ s', memsafeFree s p = some s' ∧ MemsafeInv s' (A.after (.free p) 0) ∧
    Fulfils s A s' 0 (.free p)
  := by
  cases hp : A.live p with
  | some n =>
    obtain ⟨s', hfree, hinv, hrel⟩ := memsafeFree_live h hp (hmeets (by rw [hp]; rfl))
    refine ⟨s', hfree, ?_, ?_, fun hagain => absurd hagain.2.1 (by rw [hp]; exact nofun)⟩
    · simp only [HeldBlocks.after, hp, Option.isSome_some, if_true]
      apply hinv
    · intro m hm
      rw [hp] at hm
      cases hm
      apply hrel
  | none =>
    have hafter : A.after (.free p) 0 = A := by
      simp only [HeldBlocks.after, hp, Option.isSome_none, Bool.false_eq_true, if_false]
    have hnone (n : Word) : A.live p ≠ some n := by
      rw [hp]
      exact nofun
    rw [hafter]
    rcases hallowed with rfl | hsome | hagain
    · exact ⟨s, rfl, h, fun n hn => absurd hn (hnone n), fun hagain => absurd rfl hagain.1⟩
    · rw [hp] at hsome
      cases hsome
    · obtain ⟨s', hfree, hs⟩ := memsafeFree_again h hagain
      exact ⟨s', hfree, hs.inv h, fun n hn => absurd hn (hnone n), fun _ => hs⟩

/-- `memsafeReAlloc` does what it should. -/
theorem memsafeReAlloc_fulfils (h : MemsafeInv s A) {p size : Word} {a : MemsafeAnswer}
    (hallowed : Allowed s A (.reAlloc p size a)) (hmeets : Meets s A (.reAlloc p size a)) :
  ∃ s' r, memsafeReAlloc s p size a = some (s', r) ∧
    MemsafeInv s' (A.after (.reAlloc p size a) r) ∧ Fulfils s A s' r (.reAlloc p size a)
  := by
  obtain ⟨ha, hptr⟩ := hallowed
  cases hp : A.live p with
  | some n =>
    have hsome : (A.live p).isSome := by
      rw [hp]
      rfl
    have hagain : ¬ A.Again p := by
      rintro ⟨-, hnone, -⟩
      rw [hp] at hnone
      cases hnone
    rw [Meets, if_pos hsome] at hmeets
    obtain ⟨hring, hmeets⟩ := hmeets
    rcases eq_or_ne a.block.base 0 with hbase | hbase
    · obtain ⟨s', hre, hinv, hreports⟩ := memsafeReAlloc_null h hp ha hbase hring
      refine ⟨s', 0, hre, ?_, fun m hm => ⟨hreports, fun hne => absurd hbase hne⟩,
        fun hag => absurd hag hagain⟩
      rw [HeldBlocks.after, if_pos rfl]
      apply hinv
    · obtain ⟨hok, hre⟩ := hmeets hbase
      obtain ⟨s', q, hre', hinv, hdone⟩ := memsafeReAlloc_live h hp ha hok hbase hre
      refine ⟨s', q, hre', ?_, ?_, fun hag => absurd hag hagain⟩
      · rw [HeldBlocks.after, if_neg hdone.ne_zero, if_pos hsome]
        apply hinv
      · intro m hm
        rw [hp] at hm
        cases hm
        exact ⟨hdone.reports, fun _ => hdone⟩
  | none =>
    have hsome : ¬ (A.live p).isSome := by
      rw [hp]
      exact nofun
    have hnone (n : Word) : A.live p ≠ some n := by
      rw [hp]
      exact nofun
    rw [Meets, if_neg hsome] at hmeets
    rcases hptr with rfl | hlive | hagain
    · obtain ⟨s', r, hmalloc, hinv, -⟩ := memsafeMAlloc_fulfils h ha (hmeets rfl)
      refine ⟨s', r, hmalloc, ?_, fun n hn => absurd hn (hnone n), fun hag => absurd rfl hag.1⟩
      rw [HeldBlocks.after, if_neg hsome]
      apply hinv
    · exact absurd hlive hsome
    · obtain ⟨s', hre, hs⟩ := memsafeReAlloc_refused h size a hagain.1 hagain.2.2
      refine ⟨s', 0, hre, ?_, fun n hn => absurd hn (hnone n), fun _ => ⟨hs, rfl⟩⟩
      rw [HeldBlocks.after, if_pos rfl]
      apply hs.inv h

/-- A call that is allowed and meets its condition does what it should. -/
theorem memsafeStep_fulfils (h : MemsafeInv s A) {c : MemsafeCall} (hallowed : Allowed s A c)
    (hmeets : Meets s A c) :
  ∃ s' r, memsafeStep s c = some (s', r) ∧ MemsafeInv s' (A.after c r) ∧ Fulfils s A s' r c
  := by
  cases c with
  | mAlloc size a => exact memsafeMAlloc_fulfils h hallowed hmeets
  | cAlloc size a => exact memsafeCAlloc_fulfils h hallowed hmeets
  | reAlloc p size a => exact memsafeReAlloc_fulfils h hallowed hmeets
  | free p =>
    obtain ⟨s', hfree, hinv, hful⟩ := memsafeFree_fulfils h hallowed hmeets
    refine ⟨s', 0, ?_, hinv, hful⟩
    rw [memsafeStep, hfree]
    rfl
  | setRound round =>
    exact ⟨_, 0, rfl, h.of_heap rfl rfl rfl rfl h.heap fun _ _ _ hblock => hblock, trivial⟩
  | store mem =>
    refine ⟨_, 0, rfl, ?_, trivial⟩
    refine h.of_heap rfl rfl rfl rfl ⟨h.heap.apart, h.heap.pos⟩ fun p n hp hblock => ?_
    exact hblock.of_kept hblock.block (hallowed p n hp)

/-! ### Runs -/

/-- A call, along with the blocks that the program holds. -/
def memsafeRunStep (x : Memsafe × HeldBlocks) (c : MemsafeCall) :
    Option ((Memsafe × HeldBlocks) × Word) :=
  (memsafeStep x.1 c).map fun r => ((r.1, x.2.after c r.2), r.2)

/-- Every call of a run on some heap does what it should, and the map has the blocks after it. -/
def Transparent (heap : Heap) (calls : List MemsafeCall) : Prop :=
  Refinement.Steps memsafeRunStep
    (fun x c x' r => Fulfils x.1 x.2 x'.1 r c ∧ TracksBlocks x'.1 x'.2)
    (memsafeInit heap, HeldBlocks.none) calls

/-- The tracker before any call has no blocks. -/
theorem memsafeInit_inv {heap : Heap} (hw : heap.WellFormed) :
  MemsafeInv (memsafeInit heap) HeldBlocks.none
  := by
  obtain ⟨hv, hb, -⟩ := Map.valid_mapNew (K := Word) (t := memsafeMap)
    (show 2 ≤ (64 : Word).toNat by decide) (show (64 : Word).toNat ≤ 2 ^ 63 by decide)
  constructor
  case kept =>
    constructor
    case toValid => apply hv
    case used =>
      intro i hi hne
      apply absurd _ hne
      rw [Map.node, memsafeInit, mapNew, List.getD_eq_getElem?_getD, List.getElem?_replicate]
      split <;> rfl
  case tracks =>
    intro p n
    constructor
    · intro hnone
      cases hnone
    · rintro ⟨e, he, -⟩
      cases hb p e he
  case entry =>
    intro p e he
    cases hb p e he
  case heap => apply hw
  case block =>
    intro p n hnone
    cases hnone
  case ring =>
    constructor
    · apply List.length_replicate
    · show 0 < memsafeRingSize
      decide
    · simp only [memsafeInit, HeldBlocks.none]
      rw [Ring.window_replicate, List.map_replicate, List.nil_append, List.take_replicate,
        List.reverse_replicate, Nat.min_self]
      rfl
  case aligned =>
    intro p hp
    cases hp

/-- In every run whose calls are allowed and meet their conditions, every call does what it
should. -/
theorem memsafe_transparent {heap : Heap} (hw : heap.WellFormed) {calls : List MemsafeCall}
    (hcalls : Refinement.Guarded memsafeRunStep
      (fun x c => Allowed x.1 x.2 c ∧ Meets x.1 x.2 c) (memsafeInit heap, HeldBlocks.none) calls) :
  Transparent heap calls
  := by
  refine Refinement.steps_of_invariant (fun x => MemsafeInv x.1 x.2) ?_ (memsafeInit_inv hw) hcalls
  rintro ⟨s, A⟩ c h ⟨hallowed, hmeets⟩
  obtain ⟨s', r, hstep, hinv, hful⟩ := memsafeStep_fulfils h hallowed hmeets
  refine ⟨(s', A.after c r), r, ?_, ⟨hful, hinv.tracks⟩, hinv⟩
  rw [memsafeRunStep, hstep]
  rfl

/-! ### Two runs -/

/-- No value of a map is the pointer to an entry. -/
def NotAnEntry (m : Map Word) (entry : Word) : Bool :=
  m.entries.all fun n => n.entry.all fun e => e.2.1 ≠ entry

/-- A pointer that is no value of the map is not bound to a key. -/
theorem NotAnEntry.ne {m : Map Word} {entry : Word} (h : NotAnEntry m entry = true) (p e : Word)
    (hb : m.Binds memsafeMap p e) :
  e ≠ entry
  := by
  obtain ⟨i, hi, k, len, hk, -⟩ := hb
  have hmem : MapNode.taken k e len ∈ m.entries := by
    rw [← hk, Map.node, List.getD_eq_getElem?_getD]
    rcases Nat.lt_or_ge i m.entries.length with hlt | hge
    · rw [List.getElem?_eq_getElem hlt]
      apply List.getElem_mem
    · rw [Map.node, List.getD_eq_getElem?_getD, List.getElem?_eq_none hge] at hk
      cases hk
  exact of_decide_eq_true (List.all_eq_true.1 h _ hmem)

/-- The state after a call. -/
def afterCall (x : Memsafe × HeldBlocks) (c : MemsafeCall) (h : (memsafeRunStep x c).isSome) :
    Memsafe × HeldBlocks :=
  ((memsafeRunStep x c).get h).1

/-- A run is guarded when its first call is and the rest of it from the state after this one. -/
theorem guarded_cons {guard : Memsafe × HeldBlocks → MemsafeCall → Prop} {x : Memsafe × HeldBlocks}
    {c : MemsafeCall} {cs : List MemsafeCall} (hc : guard x c) (h : (memsafeRunStep x c).isSome)
    (hcs : Refinement.Guarded memsafeRunStep guard (afterCall x c h) cs) :
  Refinement.Guarded memsafeRunStep guard x (c :: cs)
  := by
  refine ⟨hc, fun r hr => ?_⟩
  rw [afterCall] at hcs
  simp only [hr, Option.get_some] at hcs
  apply hcs

/-- The heap without blocks. -/
def emptyHeap : Heap := ⟨fun _ => 0, []⟩

/-- The allocation of eight bytes at address 24. -/
def mAllocCall : MemsafeCall := .mAlloc 8 ⟨⟨16, fun _ => 0⟩, 1⟩

/-- The empty heap is well formed. -/
theorem emptyHeap_wellFormed :
  emptyHeap.WellFormed
  := ⟨fun _ hb => absurd hb List.not_mem_nil, fun _ hb => absurd hb List.not_mem_nil⟩

/-- The allocation is allowed when there are no blocks. -/
theorem mAllocCall_allowed {x : Memsafe × HeldBlocks} (hblocks : x.1.heap.blocks = [])
    (hentry : NotAnEntry x.1.live 1 = true) :
  Allowed x.1 x.2 mAllocCall
  := by
  constructor
  · constructor
    · decide
    · decide
    · intro _ b hb
      rw [hblocks] at hb
      cases hb
    · intro b hb
      rw [hblocks] at hb
      cases hb
  · apply NotAnEntry.ne hentry

/-- A block is allocated and freed twice. -/
theorem memsafe_transparent_doubleFree :
  Transparent emptyHeap [mAllocCall, .free 24, .free 24]
  := by
  apply memsafe_transparent emptyHeap_wellFormed
  refine guarded_cons ⟨mAllocCall_allowed rfl (by decide +kernel), ?_⟩ (by decide +kernel) ?_
  · intro _
    decide
  · refine guarded_cons ⟨.inr (.inl (by decide +kernel)), ?_⟩ (by decide +kernel) ?_
    · intro _
      decide +kernel
    · refine guarded_cons ⟨.inr (.inr (by decide +kernel)), ?_⟩ (by decide +kernel) trivial
      intro hsome
      revert hsome
      decide +kernel

/-- A block is freed, another one is allocated at its address and reallocated. -/
def reuseCalls : List MemsafeCall :=
  [mAllocCall, .free 24, mAllocCall,
    .reAlloc 24 16 ⟨⟨64, Bytes.write (fun _ => 0) 16 (Bytes.layout 8 (8 : Word))⟩, 2⟩]

/-- The calls are allowed. -/
theorem reuseCalls_allowed :
  Refinement.Guarded memsafeRunStep (fun x c => Allowed x.1 x.2 c)
    (memsafeInit emptyHeap, HeldBlocks.none) reuseCalls
  := by
  refine guarded_cons (mAllocCall_allowed rfl (by decide +kernel)) (by decide +kernel) ?_
  refine guarded_cons (.inr (.inl (by decide +kernel))) (by decide +kernel) ?_
  refine guarded_cons (mAllocCall_allowed (by decide +kernel) (by decide +kernel))
    (by decide +kernel) ?_
  refine guarded_cons ⟨⟨?_, NotAnEntry.ne (by decide +kernel)⟩, .inr (.inl (by decide +kernel))⟩
    (by decide +kernel) trivial
  have hblocks : (afterCall (afterCall (afterCall (memsafeInit emptyHeap, HeldBlocks.none) mAllocCall
      (by decide +kernel)) (.free 24) (by decide +kernel)) mAllocCall
      (by decide +kernel)).1.heap.blocks = [(16, 16)] := by
    decide +kernel
  constructor
  · decide
  · decide
  · intro _ b hb
    rw [hblocks] at hb
    obtain rfl := List.mem_singleton.1 hb
    apply Or.inr
    decide
  · intro b _ i _ _
    rfl

/-- The reallocation of a block at an address that was freed before is refused. -/
theorem memsafe_transparent_reuse :
  ¬ ∀ (heap : Heap) (calls : List MemsafeCall), heap.WellFormed →
    Refinement.Guarded memsafeRunStep (fun x c => Allowed x.1 x.2 c)
      (memsafeInit heap, HeldBlocks.none) calls → Transparent heap calls
  := by
  intro h
  have hsteps := h emptyHeap reuseCalls emptyHeap_wellFormed reuseCalls_allowed
  rw [Transparent, reuseCalls] at hsteps
  obtain ⟨x₁, r₁, h₁, -, x₂, r₂, h₂, -, x₃, r₃, h₃, -, x₄, r₄, h₄, ⟨hdone, -⟩, -⟩ := hsteps
  have hrun : Refinement.run memsafeRunStep (memsafeInit emptyHeap, HeldBlocks.none)
      [mAllocCall, .free 24, mAllocCall] = some (x₃, [r₁, r₂, r₃]) := by
    simp only [Refinement.run, h₁, h₂, h₃, Option.bind_some, Option.map_some]
  have hlive : (Refinement.run memsafeRunStep (memsafeInit emptyHeap, HeldBlocks.none)
      [mAllocCall, .free 24, mAllocCall]).map (fun x => (x.1.2.live 24, x.1.1.reports.length))
        = some (some 8, 0) := by
    decide +kernel
  rw [hrun, Option.map_some, Option.some.injEq, Prod.mk.injEq] at hlive
  have hrun' : Refinement.run memsafeRunStep (memsafeInit emptyHeap, HeldBlocks.none) reuseCalls
      = some (x₄, [r₁, r₂, r₃, r₄]) := by
    simp only [reuseCalls, Refinement.run, h₁, h₂, h₃, h₄, Option.bind_some, Option.map_some]
  have hreports : (Refinement.run memsafeRunStep (memsafeInit emptyHeap, HeldBlocks.none)
      reuseCalls).map (fun x => x.1.1.reports.length) = some 1 := by
    decide +kernel
  rw [hrun', Option.map_some, Option.some.injEq] at hreports
  have hkept := (hdone.1 8 hlive.1).1
  rw [hkept, hlive.2] at hreports
  cases hreports

end Polyc
