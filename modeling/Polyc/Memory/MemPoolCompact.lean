import Mathlib.Data.List.Chain
import Polyc.Memory.MemPoolInv

/-!
# Pools whose free chunks come last

When the free chunks of every segment are one at its end, if there is any, no two of them are adjacent, the space
that is left is in one piece, and `memPoolNext` returns the used chunks of all segments.
-/

namespace Polyc

/-- The free chunks of a list are one at its end, if there is any. -/
structure CompactList (us tl list : List MemChunk) : Prop where
  eq : list = us ++ tl
  used : ∀ c ∈ us, c.free = false
  free : ∀ c ∈ tl, c.free = true
  length : tl.length ≤ 1

/-- The free chunks of every segment come last, and all segments but the first one and another one begin with a used
chunk. -/
structure MemPool.Compact (pool : MemPool) (but : Nat) : Prop where
  lists : ∀ seg ∈ pool.segments, ∃ us tl, CompactList us tl seg.list
  first : ∀ (i : Nat) seg, pool.segments[i]? = some seg → i ≠ 0 → i ≠ but → ∃ c ∈ seg.list.head?, c.free = false

section

variable {us tl pre post left list : List MemChunk} {c cur taken : MemChunk} {seg seg' : MemSegment} {pool : MemPool}
  {capacity : BitVec 32} {i n but : Nat}

/-! ### Segments -/

/-- The used chunks of such a segment. -/
theorem CompactList.used_eq (hcompact : CompactList us tl seg.list) :
  seg.used = us
  := by
  have hus : us.filter (fun c => !c.free) = us := by
    apply List.filter_eq_self.mpr
    intro c hc
    rw [hcompact.used c hc]
    rfl
  have htl : tl.filter (fun c => !c.free) = [] := by
    apply List.filter_eq_nil_iff.mpr
    intro c hc
    rw [hcompact.free c hc]
    decide
  rw [MemSegment.used, hcompact.eq, List.filter_append, hus, htl, List.append_nil]

/-- No two free chunks are adjacent. -/
theorem CompactList.isChain (hcompact : CompactList us tl list) :
  list.IsChain fun c d => ¬(c.free ∧ d.free)
  := by
  obtain ⟨rfl, hused, -, hlength⟩ := hcompact
  induction us with
  | nil =>
    cases tl with
    | nil => apply List.IsChain.nil
    | cons f tl =>
      obtain rfl : tl = [] := List.eq_nil_of_length_eq_zero (Nat.le_zero.mp (Nat.le_of_succ_le_succ hlength))
      apply List.IsChain.singleton
  | cons c us ih =>
    apply List.isChain_cons.mpr
    refine ⟨?_, ih fun d hd => hused d (List.mem_cons_of_mem c hd)⟩
    rintro d - ⟨hfree, -⟩
    rw [hused c List.mem_cons_self] at hfree
    cases hfree

/-- What is left of such a segment is one chunk. -/
theorem CompactList.exists_room (hcompact : CompactList us tl seg.list) (hseg : seg.Inv capacity)
    (hroom : seg.allocated.toNat + n + sizeofMemChunk.toNat ≤ capacity.toNat) :
  ∃ c ∈ seg.list, c.Room n
  := by
  have hsum := hseg.sum
  have hallocated := hseg.allocated
  have hheader : sizeofMemChunk.toNat = 24 := rfl
  rw [hcompact.used_eq] at hallocated
  rw [hcompact.eq, List.map_append, List.sum_append, ← hallocated] at hsum
  cases tl with
  | nil =>
    rw [List.map_nil, List.sum_nil] at hsum
    omega
  | cons f tl =>
    obtain rfl : tl = [] := List.eq_nil_of_length_eq_zero (Nat.le_zero.mp (Nat.le_of_succ_le_succ hcompact.length))
    refine ⟨f, ?_, hcompact.free f List.mem_cons_self, ?_⟩
    · rw [hcompact.eq]
      apply List.mem_append_right _ List.mem_cons_self
    · rw [List.map_singleton, List.sum_singleton] at hsum
      omega

/-- A free chunk is the last one. -/
theorem CompactList.last (hcompact : CompactList us tl (pre ++ cur :: post)) (hfree : cur.free = true) :
  post = [] ∧ us = pre
  := by
  have hlength := hcompact.length
  rcases List.append_eq_append_iff.mp hcompact.eq with ⟨bs, hus, hpost⟩ | ⟨as, hpre, htl⟩
  · -- the chunk would be a used one
    cases bs with
    | nil =>
      rw [List.nil_append] at hpost
      rw [← hpost] at hlength
      exact ⟨List.eq_nil_of_length_eq_zero (Nat.le_zero.mp (Nat.le_of_succ_le_succ hlength)),
        by rw [hus, List.append_nil]⟩
    | cons b bs =>
      obtain ⟨rfl, -⟩ := List.cons.inj hpost
      have hused := hcompact.used cur (by
        rw [hus]
        apply List.mem_append_right _ List.mem_cons_self)
      rw [hfree] at hused
      cases hused
  · rw [htl, List.length_append, List.length_cons] at hlength
    obtain rfl : as = [] := List.eq_nil_of_length_eq_zero (by omega)
    obtain rfl : post = [] := List.eq_nil_of_length_eq_zero (by omega)
    rw [List.append_nil] at hpre
    exact ⟨rfl, hpre.symm⟩

/-- A chunk is taken in such a segment. -/
theorem CompactList.take (hcompact : CompactList us tl (pre ++ cur :: post)) (hfree : cur.free = true)
    {segmentId : BitVec 32} (htakes : ChunkTaken segmentId n cur taken left) :
  CompactList (pre ++ [taken]) left (pre ++ taken :: (left ++ post))
  := by
  obtain ⟨rfl, rfl⟩ := hcompact.last hfree
  refine ⟨?_, ?_, htakes.free, htakes.length⟩
  · rw [List.append_nil, List.append_assoc]
    rfl
  · intro c hc
    rcases List.mem_append.mp hc with hc | hc
    · apply hcompact.used c hc
    · rw [List.mem_singleton.mp hc]
      apply htakes.used

/-- The last chunk of such a segment is freed. -/
theorem CompactList.release (hcompact : CompactList us tl (pre ++ [c])) (hfree : c.free = false) :
  CompactList pre [{ c with free := true }] (pre ++ [{ c with free := true }]) ∧ ∀ d ∈ pre, d.free = false
  := by
  have htl : tl = [] := by
    cases hrev : tl.getLast? with
    | none => apply List.getLast?_eq_none_iff.mp hrev
    | some f =>
      have hlast : (pre ++ [c]).getLast? = some f := by
        rw [hcompact.eq, List.getLast?_append, hrev]
        rfl
      rw [List.getLast?_concat] at hlast
      cases hlast
      rw [hcompact.free c (List.mem_of_getLast? hrev)] at hfree
      cases hfree
  have hused : ∀ d ∈ pre, d.free = false := by
    intro d hd
    apply hcompact.used d
    rw [← List.append_nil us, ← htl, ← hcompact.eq]
    apply List.mem_append_left _ hd
  refine ⟨⟨rfl, hused, ?_, Nat.le_refl _⟩, hused⟩
  intro d hd
  rw [List.mem_singleton.mp hd]

/-! ### Pools -/

/-- A segment in place of another one. -/
theorem MemPool.Compact.set (hcompact : pool.Compact but) (hbut : but = 0 ∨ but = i) {us tl : List MemChunk}
    (hlist : CompactList us tl seg'.list) (hfirst : i ≠ 0 → ∃ c ∈ seg'.list.head?, c.free = false) :
  ({ pool with segments := pool.segments.set i seg' } : MemPool).Compact 0
  := by
  constructor
  · intro b hb
    rcases List.mem_or_eq_of_mem_set hb with hb | rfl
    · apply hcompact.lists b hb
    · use us, tl
  · intro k b hb hk _
    change (pool.segments.set i seg')[k]? = some b at hb
    rcases eq_or_ne i k with rfl | hne
    · rw [List.getElem?_set] at hb
      simp only [if_pos] at hb
      split at hb
      · cases hb
        apply hfirst hk
      · cases hb
    · rw [List.getElem?_set_ne hne] at hb
      apply hcompact.first k b hb hk
      rcases hbut with rfl | rfl
      · apply hk
      · apply hne.symm

/-- Where a chunk is taken. -/
theorem MemPool.Compact.taking (hcompact : pool.Compact but) (hbut : but = 0 ∨ but = i)
    (hi : pool.segments[i]? = some seg) (hlist : seg.list = pre ++ cur :: post) (hfree : cur.free = true)
    (htakes : ChunkTaken seg.id n cur taken left) :
  ({ pool with segments := pool.segments.set i (seg.taking pre taken left post) } : MemPool).Compact 0
  := by
  obtain ⟨us, tl, hseg⟩ := hcompact.lists seg (List.mem_of_getElem? hi)
  rw [hlist] at hseg
  apply hcompact.set hbut (hseg.take hfree htakes)
  intro _
  obtain ⟨-, rfl⟩ := hseg.last hfree
  show ∃ c ∈ (us ++ taken :: (left ++ post)).head?, c.free = false
  cases us with
  | nil => exact ⟨taken, rfl, htakes.used⟩
  | cons c us => exact ⟨c, rfl, hseg.used c List.mem_cons_self⟩

/-- Where the last chunk of a segment is freed. -/
theorem MemPool.Compact.releasing (hcompact : pool.Compact 0) (hi : pool.segments[i]? = some seg)
    (hlist : seg.list = pre ++ [c]) (hfree : c.free = false) (hpre : i ≠ 0 → pre ≠ []) :
  ({ pool with segments := pool.segments.set i (seg.releasing pre c []) } : MemPool).Compact 0
  := by
  obtain ⟨us, tl, hseg⟩ := hcompact.lists seg (List.mem_of_getElem? hi)
  rw [hlist] at hseg
  obtain ⟨hlist', hused⟩ := hseg.release hfree
  apply hcompact.set (.inl rfl) hlist'
  intro hi
  show ∃ d ∈ (pre ++ [{ c with free := true }]).head?, d.free = false
  cases pre with
  | nil => exact absurd rfl (hpre hi)
  | cons d pre => exact ⟨d, rfl, hused d List.mem_cons_self⟩

/-! ### Iteration -/

/-- At a used chunk `memPoolNext` returns it. -/
theorem memPoolNext_used (hc : c.free = false) (rest : List MemChunk) (segmentId : BitVec 32) :
  memPoolNext pool ⟨c :: rest, segmentId⟩ = some (c.ptr, ⟨rest, segmentId⟩)
  := by
  have hstays : ¬(MemPoolIterator.leaves ⟨c :: rest, segmentId⟩ = true) := by
    show ¬c.free = true
    rw [hc]
    decide
  rw [memPoolNext, if_neg hstays]
  rfl

/-- At a free chunk or at the end of a list it leaves the segment. -/
theorem memPoolNext_leaves (hfree : ∀ c ∈ tl, c.free = true) (segmentId : BitVec 32) :
  memPoolNext pool ⟨tl, segmentId⟩ = if segmentId + 1 ≥ BitVec.ofNat 32 pool.segments.length then
      some (0, ⟨tl, segmentId + 1⟩)
    else pool.segments[(segmentId + 1).toNat]?.bind fun segment => memPoolNextChunk ⟨segment.list, segmentId + 1⟩
  := by
  have hleaves : MemPoolIterator.leaves ⟨tl, segmentId⟩ = true := by
    cases tl with
    | nil => rfl
    | cons c tl => apply hfree c List.mem_cons_self
  rw [memPoolNext, if_pos hleaves]

/-- Used chunks are returned first. -/
theorem memPoolReturns_used {segmentId : BitVec 32} {ps : List Nat} (hused : ∀ c ∈ us, c.free = false)
    (hrest : memPoolReturns pool ⟨tl, segmentId⟩ ps) :
  memPoolReturns pool ⟨us ++ tl, segmentId⟩ (us.map MemChunk.ptr ++ ps)
  := by
  induction us with
  | nil => apply hrest
  | cons c us ih =>
    refine ⟨c.ptr_ne, ⟨us ++ tl, segmentId⟩, memPoolNext_used (hused c List.mem_cons_self) _ _, ?_⟩
    apply ih fun d hd => hused d (List.mem_cons_of_mem c hd)

/-- The test at the end of a segment. -/
theorem segmentId_succ_ge (hlt : pool.segments.length < 2 ^ 32) (hi : i < pool.segments.length) :
  BitVec.ofNat 32 i + 1 = BitVec.ofNat 32 (i + 1)
    ∧ (BitVec.ofNat 32 (i + 1) ≥ BitVec.ofNat 32 pool.segments.length ↔ i + 1 = pool.segments.length)
  := by
  use (BitVec.ofNat_add i 1).symm
  rcases eq_or_ne (i + 1) pool.segments.length with heq | hne
  · rw [heq]
    exact ⟨fun _ => rfl, fun _ => BitVec.le_refl _⟩
  · show (BitVec.ofNat 32 pool.segments.length).toNat ≤ (BitVec.ofNat 32 (i + 1)).toNat ↔ _
    rw [BitVec.toNat_ofNat, BitVec.toNat_ofNat, Nat.mod_eq_of_lt hlt, Nat.mod_eq_of_lt (by omega)]
    omega

/-- Behind a segment the used chunks of the ones that come next are returned. -/
theorem memPoolReturns_next (hcompact : pool.Compact 0) (hlt : pool.segments.length < 2 ^ 32) (k : Nat)
    (hi : i + k + 1 = pool.segments.length) (hfree : ∀ c ∈ tl, c.free = true) :
  memPoolReturns pool ⟨tl, BitVec.ofNat 32 i⟩
    ((pool.segments.drop (i + 1)).flatMap fun seg => seg.used.map MemChunk.ptr)
  := by
  induction k generalizing i tl with
  | zero =>
    -- there is no other segment
    obtain ⟨hid, hend⟩ := segmentId_succ_ge hlt (i := i) (by omega)
    rw [List.drop_of_length_le (by omega)]
    refine ⟨_, (memPoolNext_leaves hfree _).trans (if_pos ?_)⟩
    rw [hid]
    apply hend.mpr hi
  | succ k ih =>
    obtain ⟨hid, hend⟩ := segmentId_succ_ge hlt (i := i) (by omega)
    have hnext : i + 1 < pool.segments.length := by omega
    have hseg : pool.segments[i + 1]? = some pool.segments[i + 1] := List.getElem?_eq_getElem hnext
    have hplace : (BitVec.ofNat 32 (i + 1)).toNat = i + 1 := by
      rw [BitVec.toNat_ofNat, Nat.mod_eq_of_lt (by omega)]
    obtain ⟨us, tl', hlist⟩ := hcompact.lists _ (List.getElem_mem hnext)
    obtain ⟨c, hc, hused⟩ := hcompact.first (i + 1) _ hseg (Nat.succ_ne_zero i) (Nat.succ_ne_zero i)
    rw [List.drop_eq_getElem_cons hnext, List.flatMap_cons, hlist.used_eq]
    cases us with
    | nil =>
      -- the segment begins with a used chunk
      rw [hlist.eq] at hc
      rw [hlist.free c (List.mem_of_mem_head? hc)] at hused
      cases hused
    | cons d us =>
      refine ⟨d.ptr_ne, ⟨us ++ tl', BitVec.ofNat 32 (i + 1)⟩, ?_, ?_⟩
      · rw [memPoolNext_leaves hfree, hid, if_neg fun h => Nat.ne_of_lt hnext (hend.mp h), hplace, hseg,
          Option.bind_some, hlist.eq]
        rfl
      · apply memPoolReturns_used fun c hc => hlist.used c (List.mem_cons_of_mem d hc)
        apply ih (by omega) hlist.free

/-- The used chunks of all segments are returned. -/
theorem MemPool.Compact.returns (hcompact : pool.Compact 0) (hlt : pool.segments.length < 2 ^ 32)
    (hpos : 0 < pool.segments.length) :
  ∃ it, memPoolIteratorNew pool = some it ∧ memPoolReturns pool it (pool.used.map MemChunk.ptr)
  := by
  obtain ⟨us, tl, hlist⟩ := hcompact.lists _ (List.getElem_mem hpos)
  refine ⟨⟨pool.segments[0].list, 0⟩, ?_, ?_⟩
  · rw [memPoolIteratorNew, List.getElem?_eq_getElem hpos]
    rfl
  · have hrest := memPoolReturns_next hcompact hlt (pool.segments.length - 1) (i := 0) (by omega) hlist.free
    have hall := memPoolReturns_used hlist.used hrest
    have hsplit : pool.segments = pool.segments[0] :: pool.segments.drop 1 := List.drop_eq_getElem_cons hpos
    have hused : pool.used.map MemChunk.ptr = pool.segments[0].used.map MemChunk.ptr
        ++ (pool.segments.drop 1).flatMap fun seg => seg.used.map MemChunk.ptr := by
      rw [MemPool.used, List.map_flatMap]
      apply (congrArg (List.flatMap _) hsplit).trans List.flatMap_cons
    rw [← hlist.eq, ← hlist.used_eq] at hall
    rw [hused]
    apply hall

end

end Polyc
