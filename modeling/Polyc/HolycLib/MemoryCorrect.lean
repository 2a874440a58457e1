import Polyc.HolycLib.MemoryBlocks

/-!
# Heap primitives on both targets

The loops of AArch64 are the string instructions of x86-64, so that the routines of both targets do
the same to the blocks where they work.
-/

namespace Polyc

open Bytes (Byte)

/-! ### The loops of AArch64 -/

/-- `_MALLOC` is the same on both targets. -/
theorem AArch64.malloc_eq : AArch64.malloc = X86.malloc := rfl

/-- `_FREE` is the same on both targets. -/
theorem AArch64.free_eq : AArch64.free = X86.free := rfl

/-- `_MSIZE` is the same on both targets. -/
theorem AArch64.msize_eq : AArch64.msize = X86.msize := rfl

/-- A loop up to an address goes on while there is more than one byte. -/
theorem loop_end_ne {a n : Nat} (hn : n + 1 < addressSpace) :
  (a + (n + 2)) % addressSpace ≠ (a + 1) % addressSpace
  := by
  rw [addressSpace] at hn ⊢
  omega

/-- The end of a loop from the next address on. -/
theorem loop_end_eq (a n : Nat) :
  (a + (n + 2)) % addressSpace = ((a + 1) % addressSpace + (n + 1)) % addressSpace
  := by
  rw [Nat.mod_add_mod]
  congr 1
  omega

/-- The loop of `_MEMSET` is `REP STOSB`. -/
theorem AArch64.memsetLoop_eq (b : Byte) {n : Nat} :
  ∀ (k : Nat) (h : Heap) (a : Nat), n < k → n < addressSpace →
    memsetLoop b ((a + (n + 1)) % addressSpace) k h a = X86.repStosb b (n + 1) h a
  := by
  induction n with
  | zero =>
    intro k h a hk _
    obtain ⟨k, rfl⟩ : ∃ m, k = m + 1 := ⟨k - 1, by omega⟩
    rw [memsetLoop, X86.repStosb]
    simp only [Nat.zero_add, if_true]
    rfl
  | succ n ih =>
    intro k h a hk hn
    obtain ⟨k, rfl⟩ : ∃ m, k = m + 1 := ⟨k - 1, by omega⟩
    rw [memsetLoop, X86.repStosb]
    apply congrArg (h.store a [b]).bind
    funext h1
    dsimp only
    rw [if_neg (loop_end_ne hn), loop_end_eq]
    exact ih k h1 _ (by omega) (by omega)

/-- The loop of `_MEMCPY` is `REP MOVSB`. -/
theorem AArch64.memcpyLoop_eq {n : Nat} :
  ∀ (k : Nat) (h : Heap) (a b : Nat), n < k → n < addressSpace →
    memcpyLoop ((a + (n + 1)) % addressSpace) k h a b = X86.repMovsb (n + 1) h a b
  := by
  induction n with
  | zero =>
    intro k h a b hk _
    obtain ⟨k, rfl⟩ : ∃ m, k = m + 1 := ⟨k - 1, by omega⟩
    rw [memcpyLoop, X86.repMovsb]
    simp only [Nat.zero_add, if_true]
    rfl
  | succ n ih =>
    intro k h a b hk hn
    obtain ⟨k, rfl⟩ : ∃ m, k = m + 1 := ⟨k - 1, by omega⟩
    rw [memcpyLoop, X86.repMovsb]
    apply congrArg (h.load b 1).bind
    funext v
    apply congrArg (h.store a [v]).bind
    funext h1
    dsimp only
    rw [if_neg (loop_end_ne hn), loop_end_eq]
    exact ih k h1 _ _ (by omega) (by omega)

/-- `_MEMCPY` is the same on both targets. -/
theorem AArch64.memcpy_eq (h : Heap) (a b : Nat) {n : Nat} (hn : n < addressSpace) :
  AArch64.memcpy h a b n = X86.memcpy h a b n
  := by
  cases n with
  | zero => rfl
  | succ n =>
    rw [memcpy, if_neg (Nat.succ_ne_zero n), X86.memcpy]
    exact memcpyLoop_eq addressSpace h a b (by omega) (by omega)

/-- `_MEMSET` sets the same bytes on both targets. -/
theorem AArch64.memset_eq (h : Heap) (x3 a : Nat) (ch : BitVec 32) {n : Nat}
    (hn : n < addressSpace) :
  AArch64.memset h x3 a ch n
    = (X86.repStosb (ch.setWidth 8) n h a).map (·, if n = 0 then x3 else a)
  := by
  cases n with
  | zero => rfl
  | succ n =>
    rw [memset, if_neg (Nat.succ_ne_zero n), if_neg (Nat.succ_ne_zero n)]
    dsimp only
    rw [memsetLoop_eq _ addressSpace h a (by omega) (by omega), Option.map_eq_bind]
    rfl

/-! ### The routines on blocks -/

section Routines

variable {h : Heap} {vars : Nat → Nat} {A : BlockMap Nat} {answer : Heap.Answer} {size : Nat}

/-- A block that is allocated and cleared. -/
theorem HeapBlocks.clear (R : HeapBlocks h vars A) (x : Nat) (hsize : size + 8 < addressSpace)
    (hbase : answer.base ≠ 0) (hright : h.Right (addressSpace - 1) 16 (size + 8) answer) :
  ∃ h1 h2, X86.malloc h answer size = some (h1, answer.base + 8)
    ∧ X86.repStosb ((0 : BitVec 32).setWidth 8) size h1 (answer.base + 8) = some h2
    ∧ HeapBlocks h2 (Function.update vars x (answer.base + 8))
      (A.put x (List.replicate size (some 0)))
  := by
  obtain ⟨h1, hmalloc, R1⟩ := R.malloc x hsize hbase hright
  have hx : A.put x (List.replicate size none) x ≠ none := by simp [BlockMap.put]
  obtain ⟨h2, hset, R2⟩ :=
    HeapBlocks.repStosb ((0 : BitVec 32).setWidth 8) (n := size) h1 _ 0 R1 hx (by simp)
  refine ⟨h1, h2, hmalloc, ?_, ?_⟩
  · rw [Function.update_self] at hset
    exact hset
  · rw [BlockMap.get_put, BlockMap.put_put, List.take_zero, List.nil_append, Nat.zero_add,
      List.drop_of_length_le (by simp), List.append_nil] at R2
    exact R2

/-- The bytes of a block as far as they fit another size. -/
theorem take_min_append (bs : List (Option Byte)) (size : Nat) :
  [] ++ (bs.drop 0).take (min bs.length size)
      ++ (List.replicate size (none : Option Byte)).drop (0 + min bs.length size)
    = bs.take size ++ List.replicate (size - bs.length) none
  := by
  rw [List.nil_append, List.drop_zero, List.drop_replicate, Nat.zero_add]
  congr 1
  · rw [Nat.min_comm, ← List.take_eq_take_min]
  · congr 1
    omega

/-- A block that is moved to one of another size. -/
theorem HeapBlocks.move (R : HeapBlocks h vars A) (x : Nat) {y : Nat} (hy : A y ≠ none)
    (hsize : size + 8 < addressSpace) (hbase : answer.base ≠ 0)
    (hright : h.Right (addressSpace - 1) 16 (size + 8) answer) :
  ∃ h1 h2 h3, X86.malloc h answer size = some (h1, answer.base + 8)
    ∧ X86.msize h1 (vars y) = some (A.get y).length
    ∧ X86.memcpy h1 (answer.base + 8) (vars y) (min (A.get y).length size) = some h2
    ∧ X86.free h2 (vars y) = some h3
    ∧ HeapBlocks h3 (Function.update vars x (answer.base + 8))
      ((A.drop y).put x ((A.get y).take size
        ++ List.replicate (size - (A.get y).length) none))
  := by
  -- The new block is held by no variable until the old one is freed.
  have R0 : HeapBlocks h (fun o : Option Nat => o.elim 0 vars) (fun o => o.bind A) := by
    apply R.reindex fun o => o.getD y
    · intro o bs ho
      cases o with
      | none => cases ho
      | some z => exact ho
    · intro o ho
      cases o with
      | none => exact absurd rfl ho
      | some z => rfl
    · intro o o' hne ho ho'
      cases o with
      | none => exact absurd rfl ho
      | some z =>
        cases o' with
        | none => exact absurd rfl ho'
        | some w => exact fun heq => hne (congrArg some heq)
  obtain ⟨h1, hmalloc, R1⟩ := R0.malloc none hsize hbase hright
  have hyx : some y ≠ none := Option.some_ne_none y
  have hsome : BlockMap.put (fun o : Option Nat => o.bind A) none (List.replicate size none)
      (some y) ≠ none := BlockMap.put_ne_none _ hy
  have hnone : BlockMap.put (fun o : Option Nat => o.bind A) none (List.replicate size none)
      none ≠ none := by simp [BlockMap.put]
  have hgety : BlockMap.get (BlockMap.put (fun o : Option Nat => o.bind A) none
      (List.replicate size none)) (some y) = A.get y := BlockMap.get_put_of_ne _ _ hyx
  have hmsize := (R1.get hsome).msize
  obtain ⟨h2, hcopy, R2⟩ := HeapBlocks.repMovsb (n := min (A.get y).length size) h1 _ 0 0 R1 hnone
    hsome (by rw [BlockMap.get_put, List.length_replicate]; omega) (by rw [hgety]; omega)
  rw [BlockMap.copy_eq hyx _ _ _ hnone
    (by rw [BlockMap.get_put, List.length_replicate]; omega) (by rw [hgety]; omega),
    BlockMap.get_put, BlockMap.put_put, hgety, List.take_zero, take_min_append] at R2
  obtain ⟨h3, hfree, R3⟩ := R2.free (x := some y) (BlockMap.put_ne_none _ hy)
  rw [hgety] at hmsize
  refine ⟨h1, h2, h3, hmalloc, hmsize, hcopy, hfree, ?_⟩
  have hold : ∀ z, z ≠ x → ∀ bs, (A.drop y).put x ((A.get y).take size
      ++ List.replicate (size - (A.get y).length) none) z = some bs → z ≠ y ∧ A z = some bs := by
    intro z hzx bs hz
    rw [BlockMap.put, Function.update_of_ne hzx] at hz
    rcases eq_or_ne z y with rfl | hzy
    · rw [BlockMap.drop, Function.update_self] at hz
      cases hz
    · rw [BlockMap.drop, Function.update_of_ne hzy] at hz
      exact ⟨hzy, hz⟩
  apply R3.reindex fun z => if z = x then none else some z
  · intro z bs hz
    split
    case isTrue hzx =>
      rw [hzx, BlockMap.put, Function.update_self] at hz
      rw [BlockMap.drop, Function.update_of_ne hyx.symm, BlockMap.put, Function.update_self]
      exact hz
    case isFalse hzx =>
      obtain ⟨hzy, hz⟩ := hold z hzx bs hz
      have hne : some z ≠ some y := fun heq => hzy (Option.some.inj heq)
      rw [BlockMap.drop, Function.update_of_ne hne, BlockMap.put,
        Function.update_of_ne (Option.some_ne_none z)]
      exact hz
  · intro z _
    split
    case isTrue hzx => rw [hzx, Function.update_self, Function.update_self]
    case isFalse hzx =>
      rw [Function.update_of_ne hzx, Function.update_of_ne (Option.some_ne_none z)]
      rfl
  · intro z w hzw _ _ heq
    split at heq
    case isTrue hzx =>
      split at heq
      case isTrue hwx => exact hzw (hzx.trans hwx.symm)
      case isFalse => cases heq
    case isFalse =>
      split at heq
      case isTrue => cases heq
      case isFalse => exact hzw (Option.some.inj heq)

end Routines

/-! ### Calls -/

section Calls

variable {s : HeapState} {A : BlockMap Nat} {c : HeapCall}

/-- What a request gives the routines. -/
theorem HeapTarget.Allocates.right {t : HeapTarget} (ha : t.Allocates s c) (hf : c.op.Fits)
    {size : BitVec 64} (hrequest : c.op.request = some size) :
  size.toNat + 8 < addressSpace ∧ (t.env c).answer.base ≠ 0
    ∧ s.heap.Right (addressSpace - 1) 16 (size.toNat + 8) (t.env c).answer
  := by
  obtain ⟨hbase, hright⟩ := ha size hrequest
  have hsize := hf size hrequest
  rw [Nat.mod_eq_of_lt hsize] at hright
  exact ⟨hsize, hbase, hright⟩

/-- A call on x86-64 where the routines work. -/
theorem X86.step_represents (R : HeapBlocks s.heap s.vars A)
    (ha : X86.target.Allocates s c) (hf : c.op.Fits) (hw : X86.Works s c) (hc : A.Calls c) :
  ∃ s' r, X86.target.step s c = some (s', r) ∧ A.Right c r
    ∧ HeapBlocks s'.heap s'.vars (A.step c)
  := by
  obtain ⟨op, x86, arm⟩ := c
  cases op with
  | mAlloc x size =>
    obtain ⟨hsize, hbase, hright⟩ := ha.right hf rfl
    obtain ⟨h1, hmalloc, R1⟩ := R.malloc x hsize hbase hright
    refine ⟨s.assign x (h1, x86.answer.base + 8), .none, ?_, rfl, R1⟩
    rw [HeapTarget.step]
    dsimp only [target] at hmalloc ⊢
    rw [hmalloc]
    rfl
  | cAlloc x size =>
    obtain ⟨hsize, hbase, hright⟩ := ha.right hf rfl
    obtain ⟨h1, h2, hmalloc, hset, R2⟩ := R.clear x hsize hbase hright
    refine ⟨s.assign x (h2, x86.answer.base + 8), .none, ?_, rfl, R2⟩
    rw [HeapTarget.step]
    dsimp only [target] at hmalloc hset ⊢
    rw [calloc, hmalloc]
    simp only [Option.bind_eq_bind, Option.bind_some, memset, hset]
    rfl
  | reAlloc ptr x size =>
    obtain ⟨hsize, hbase, hright⟩ := ha.right hf rfl
    cases ptr with
    | none =>
      obtain ⟨h1, hmalloc, R1⟩ := R.malloc x hsize hbase hright
      refine ⟨s.assign x (h1, x86.answer.base + 8), .none, ?_, rfl, R1⟩
      rw [HeapTarget.step]
      dsimp only [target] at hmalloc ⊢
      have hnull : s.ptr none = 0 := rfl
      rw [realloc, if_pos hnull, hmalloc]
      rfl
    | some y =>
      obtain ⟨h1, h2, h3, hmalloc, hmsize, hcopy, hfree, R3⟩ :=
        R.move x hc hsize hbase hright
      refine ⟨s.assign x (h3, x86.answer.base + 8), .none, ?_, rfl, R3⟩
      have hy := (R.get hc).header
      have hne : s.vars y ≠ 0 := by omega
      have hlen : (A.get y).length ≤ size.toNat := hw _ (R.get hc).msize
      rw [Nat.min_eq_left hlen] at hcopy
      rw [HeapTarget.step]
      dsimp only [target, HeapState.ptr, Option.elim] at hmalloc hcopy ⊢
      rw [realloc, if_neg hne, hmalloc]
      simp only [Option.bind_eq_bind, Option.bind_some, hmsize, hcopy, hfree]
      rfl
  | free ptr =>
    cases ptr with
    | none => exact ⟨s, .none, rfl, rfl, R⟩
    | some y =>
      obtain ⟨h1, hfree, R1⟩ := R.free hc
      refine ⟨⟨h1, s.vars⟩, .none, ?_, rfl, R1⟩
      rw [HeapTarget.step]
      dsimp only [target, HeapState.ptr, Option.elim]
      rw [hfree]
      rfl
  | mSize ptr =>
    cases ptr with
    | none => exact ⟨s, .size 0, rfl, rfl, R⟩
    | some y =>
      refine ⟨s, .size (A.get y).length, ?_, rfl, R⟩
      rw [HeapTarget.step]
      dsimp only [target, HeapState.ptr, Option.elim]
      rw [(R.get hc).msize]
      rfl
  | memSet x off ch len =>
    obtain ⟨h1, hset, R1⟩ := HeapBlocks.repStosb (ch.setWidth 8) s.heap A off R hc.1 hc.2
    refine ⟨⟨h1, s.vars⟩, .pointer (s.vars x + off) (s.vars x + off), ?_, ⟨_, rfl⟩, R1⟩
    have hrax : x86.register / 256 * 256 + (ch.setWidth 8 : Byte).toNat = s.vars x + off := hw
    rw [HeapTarget.step]
    dsimp only [target]
    rw [memset, hset, hrax]
    rfl
  | memCpy x off y off' len =>
    obtain ⟨hx, hy, hxlen, hylen⟩ := hc
    obtain ⟨h1, hcopy, R1⟩ := HeapBlocks.repMovsb s.heap A off off' R hx hy hxlen hylen
    refine ⟨⟨h1, s.vars⟩, .none, ?_, rfl, R1⟩
    rw [HeapTarget.step]
    dsimp only [target, memcpy]
    rw [hcopy]
    rfl

/-- A call on AArch64 where the routines work. -/
theorem AArch64.step_represents (R : HeapBlocks s.heap s.vars A)
    (ha : AArch64.target.Allocates s c) (hf : c.op.Fits) (hw : AArch64.Works s c)
    (hc : A.Calls c) :
  ∃ s' r, AArch64.target.step s c = some (s', r) ∧ A.Right c r
    ∧ HeapBlocks s'.heap s'.vars (A.step c)
  := by
  obtain ⟨op, x86, arm⟩ := c
  -- The calls of routines that do not differ are those of the other target.
  have hsame : ∀ {op : HeapOp}, X86.target.Allocates s ⟨op, arm, arm⟩ → op.Fits →
      X86.Works s ⟨op, arm, arm⟩ → A.Calls ⟨op, arm, arm⟩ →
      AArch64.target.step s ⟨op, x86, arm⟩ = X86.target.step s ⟨op, arm, arm⟩ →
      ∃ s' r, AArch64.target.step s ⟨op, x86, arm⟩ = some (s', r)
        ∧ A.Right ⟨op, arm, arm⟩ r ∧ HeapBlocks s'.heap s'.vars (A.step ⟨op, arm, arm⟩) := by
    intro op ha hf hw hc heq
    rw [heq]
    exact X86.step_represents R ha hf hw hc
  cases op with
  | mAlloc x size => exact hsame ha hf trivial hc rfl
  | free ptr => exact hsame ha hf trivial hc rfl
  | mSize ptr => exact hsame ha hf trivial hc rfl
  | memCpy x off y off' len =>
    apply hsame ha hf trivial hc
    have hlen : len < addressSpace := by
      have := (R.get hc.1).fits
      have := hc.2.2.1
      omega
    rw [HeapTarget.step, HeapTarget.step]
    dsimp only [target, X86.target]
    rw [memcpy_eq _ _ _ hlen]
  | cAlloc x size =>
    obtain ⟨hsize, hbase, hright⟩ := ha.right hf rfl
    obtain ⟨h1, h2, hmalloc, hset, R2⟩ := R.clear x hsize hbase hright
    refine ⟨s.assign x (h2, arm.answer.base + 8), .none, ?_, rfl, R2⟩
    have hne : arm.answer.base + 8 ≠ 0 := by omega
    have hreturn : (if size.toNat = 0 then arm.register else arm.answer.base + 8)
        = arm.answer.base + 8 := by
      split
      case isTrue hzero =>
        have hsize0 : size = 0 := BitVec.eq_of_toNat_eq hzero
        rcases hw with hnonzero | hregister
        · exact absurd hsize0 hnonzero
        · exact hregister
      case isFalse => rfl
    rw [HeapTarget.step]
    dsimp only [target] at hmalloc hset ⊢
    rw [calloc, malloc_eq, hmalloc]
    simp only [Option.bind_eq_bind, Option.bind_some, hne, if_false]
    rw [memset_eq _ _ _ _ size.isLt, hset, hreturn]
    rfl
  | reAlloc ptr x size =>
    obtain ⟨hsize, hbase, hright⟩ := ha.right hf rfl
    cases ptr with
    | none =>
      apply hsame ha hf _ hc rfl
      intro n hn
      cases hn
      exact Nat.zero_le _
    | some y =>
      obtain ⟨h1, h2, h3, hmalloc, hmsize, hcopy, hfree, R3⟩ :=
        R.move x hc hsize hbase hright
      refine ⟨s.assign x (h3, arm.answer.base + 8), .none, ?_, rfl, R3⟩
      have hy := (R.get hc).header
      have hfits := (R.get hc).fits
      have hne : s.vars y ≠ 0 := by omega
      have hmin : (if (A.get y).length ≤ size.toNat then (A.get y).length else size.toNat)
          = min (A.get y).length size.toNat := by
        split <;> omega
      have hlt : min (A.get y).length size.toNat < addressSpace := by omega
      rw [HeapTarget.step]
      dsimp only [target, HeapState.ptr, Option.elim] at hmalloc hcopy ⊢
      rw [realloc, if_neg hne, malloc_eq, hmalloc]
      simp only [Option.bind_eq_bind, Option.bind_some, msize_eq, hmsize, hmin]
      rw [memcpy_eq _ _ _ hlt, hcopy]
      simp only [Option.bind_some, free_eq, hfree]
      rfl
  | memSet x off ch len =>
    obtain ⟨h1, hset, R1⟩ := HeapBlocks.repStosb (ch.setWidth 8) s.heap A off R hc.1 hc.2
    refine ⟨⟨h1, s.vars⟩, .pointer (s.vars x + off) (s.vars x + off), ?_, ⟨_, rfl⟩, R1⟩
    have hlen : len < addressSpace := by
      have := (R.get hc.1).fits
      have := hc.2
      omega
    have hreturn : (if len = 0 then arm.register else s.vars x + off) = s.vars x + off := by
      split
      case isTrue hzero =>
        rcases hw with hnonzero | hregister
        · exact absurd hzero hnonzero
        · exact hregister
      case isFalse => rfl
    rw [HeapTarget.step]
    dsimp only [target]
    rw [memset_eq _ _ _ _ hlen, hset, hreturn]
    rfl

end Calls

/-! ### Runs -/

/-- A heap in which variables hold blocks looks like them. -/
theorem HeapBlocks.looks {s : HeapState} {A : BlockMap Nat} (R : HeapBlocks s.heap s.vars A) :
  s.Looks A
  := by
  intro x bs hx
  have hb := R.block x bs hx
  use hb.msize
  intro i b hi
  rw [hb.load (List.getElem?_eq_some_iff.mp hi).1, read_one, hb.bytes i b hi]

/-- The heap before any call holds no blocks. -/
theorem heapBlocks_empty :
  HeapBlocks ⟨fun _ => 0, []⟩ (fun _ : Nat => 0) (fun _ => none)
  := by
  constructor
  case wellFormed =>
    constructor
    · intro _ hb
      cases hb
    · intro _ hb
      cases hb
  case block =>
    intro _ _ hx
    cases hx
  case apart =>
    intro _ _ _ hx
    exact absurd rfl hx

/-- Runs whose requests fit and whose calls are made where the routines of a target work are those
of the blocks, on both targets. -/
theorem heapPrimitives_follow (cs : List HeapCall)
    (hcalls : Refinement.SpecGuarded BlockMap.step BlockMap.Calls (fun _ => none) cs)
    (hfits : ∀ c ∈ cs, c.op.Fits)
    (hx86 : Refinement.Guarded X86.target.step
      (fun s c => X86.target.Allocates s c ∧ X86.Works s c) ⟨⟨fun _ => 0, []⟩, fun _ => 0⟩ cs)
    (harm : Refinement.Guarded AArch64.target.step
      (fun s c => AArch64.target.Allocates s c ∧ AArch64.Works s c) ⟨⟨fun _ => 0, []⟩, fun _ => 0⟩
      cs) :
  X86.target.Follows cs ∧ AArch64.target.Follows cs
  := by
  have hspec := hcalls.and (Refinement.SpecGuarded.of_forall hfits _)
  constructor
  · apply Refinement.follows_of_guards (fun s A => HeapBlocks s.heap s.vars A)
      (fun s A R => R.looks) _ heapBlocks_empty hx86 hspec
    intro s A c R hg hc
    exact X86.step_represents R hg.1 hc.2 hg.2 hc.1
  · apply Refinement.follows_of_guards (fun s A => HeapBlocks s.heap s.vars A)
      (fun s A R => R.looks) _ heapBlocks_empty harm hspec
    intro s A c R hg hc
    exact AArch64.step_represents R hg.1 hc.2 hg.2 hc.1

/-- What a target finds in the calls below: the block from address 16 on. -/
def env16 : TargetEnv := ⟨⟨16, fun _ => 0⟩, 0⟩

/-- The block is right in the heap before any call. -/
theorem env16_right :
  Heap.Right ⟨fun _ => 0, []⟩ (addressSpace - 1) 16 ((8 + 8) % addressSpace) env16.answer
  := by
  constructor
  case aligned => decide
  case fits => decide
  case apart =>
    intro _ _ hb
    cases hb
  case kept =>
    intro _ hb
    cases hb

/-- An allocation that is set, measured and freed. -/
theorem heapPrimitives_follow_three :
  X86.target.Follows [⟨.mAlloc 0 8, env16, env16⟩, ⟨.memSet 0 0 24 2, env16, env16⟩,
      ⟨.mSize (some 0), env16, env16⟩, ⟨.free (some 0), env16, env16⟩]
    ∧ AArch64.target.Follows [⟨.mAlloc 0 8, env16, env16⟩, ⟨.memSet 0 0 24 2, env16, env16⟩,
      ⟨.mSize (some 0), env16, env16⟩, ⟨.free (some 0), env16, env16⟩]
  := by
  apply heapPrimitives_follow
  case hcalls =>
    simp [Refinement.SpecGuarded, BlockMap.Calls, BlockMap.step, BlockMap.put, BlockMap.get]
  case hfits =>
    simp [HeapOp.Fits, HeapOp.request, addressSpace]
  case hx86 =>
    refine ⟨⟨?_, trivial⟩, ?_⟩
    · rintro _ ⟨⟩
      exact ⟨by decide, env16_right⟩
    · intro r hr
      cases hr
      refine ⟨⟨?_, rfl⟩, ?_⟩
      · rintro _ ⟨⟩
      · intro r hr
        cases hr
        refine ⟨⟨?_, trivial⟩, ?_⟩
        · rintro _ ⟨⟩
        · intro r hr
          cases hr
          refine ⟨⟨?_, trivial⟩, fun _ _ => trivial⟩
          rintro _ ⟨⟩
  case harm =>
    refine ⟨⟨?_, trivial⟩, ?_⟩
    · rintro _ ⟨⟩
      exact ⟨by decide, env16_right⟩
    · intro r hr
      cases hr
      refine ⟨⟨?_, Or.inl (by decide)⟩, ?_⟩
      · rintro _ ⟨⟩
      · intro r hr
        cases hr
        refine ⟨⟨?_, trivial⟩, ?_⟩
        · rintro _ ⟨⟩
        · intro r hr
          cases hr
          refine ⟨⟨?_, trivial⟩, fun _ _ => trivial⟩
          rintro _ ⟨⟩

/-- What a target finds in a second call: another block, with the header of the first one kept. -/
def env48 : TargetEnv := ⟨⟨48, fun i => if i = 16 then 16 else 0⟩, 0⟩

/-- A block that shrinks on x86-64, a byte set there, and no byte set on AArch64. -/
theorem not_heapPrimitives_follow :
  (Refinement.Guarded X86.target.step X86.target.Allocates ⟨⟨fun _ => 0, []⟩, fun _ => 0⟩
      [⟨.mAlloc 0 16, env16, env16⟩, ⟨.reAlloc (some 0) 0 8, env48, env48⟩]
    ∧ ¬ X86.target.Follows [⟨.mAlloc 0 16, env16, env16⟩, ⟨.reAlloc (some 0) 0 8, env48, env48⟩])
    ∧ ¬ X86.target.Follows [⟨.mAlloc 0 8, env16, env16⟩, ⟨.memSet 0 0 7 1, env16, env16⟩]
    ∧ ¬ AArch64.target.Follows [⟨.mAlloc 0 8, env16, env16⟩, ⟨.memSet 0 0 7 0, env16, env16⟩]
  := by
  refine ⟨⟨⟨?_, ?_⟩, ?_⟩, ?_, ?_⟩
  · rintro _ ⟨⟩
    refine ⟨by decide, ?_, ?_, ?_, ?_⟩
    · decide
    · decide
    · intro _ _ hb
      cases hb
    · intro _ hb
      cases hb
  · intro r hr
    cases hr
    refine ⟨?_, fun _ _ => trivial⟩
    rintro _ ⟨⟩
    refine ⟨by decide, ?_, ?_, ?_, ?_⟩
    · decide
    · decide
    · intro _ b hb
      rw [List.mem_singleton.mp hb]
      exact Or.inr (by decide)
    · intro b hb
      rw [List.mem_singleton.mp hb]
      intro i hlo hhi
      have hkept : ∀ i < 40, 16 ≤ i → (if i = 16 then 16 else 0 : Byte)
          = Bytes.write (fun _ => 0) 16 (Bytes.layout 8 (16 : BitVec 64)) i := by decide
      exact hkept i hhi hlo
  · rintro ⟨-, s1, r1, h1, -, -, s2, r2, h2, -⟩
    cases h1
    cases h2
  · rintro ⟨-, s1, r1, h1, -, -, s2, r2, h2, ⟨a, ha⟩, -⟩
    cases h1
    cases h2
    cases ha
  · rintro ⟨-, s1, r1, h1, -, -, s2, r2, h2, ⟨a, ha⟩, -⟩
    cases h1
    cases h2
    cases ha

end Polyc
