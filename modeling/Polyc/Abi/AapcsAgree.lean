import Polyc.Abi.AapcsCall
import Polyc.Abi.ParamLocationsAgree

/-!
# Caller and callee agree on AArch64

As on x86-64 the walks over the arguments see of each only its shape, and move the counters in
the same way.  The stack arguments lie below the copies, and the copies below the saved address
of the buffer of the result.
-/

namespace Polyc

/-! ### How the counters move -/

/-- The counters after an argument. -/
def AapcsCursor.next (c : AapcsCursor) : ArgShape → AapcsCursor
  | .agg t =>
    match astAapcsClassify t with
    | .indirect =>
      if c.ngrn < 8 then { c with ngrn := c.ngrn + 1 } else { c with nsaa := c.nsaa + 8 }
    | .hfa _ count =>
      if c.nsrn + count ≤ 8 then { c with nsrn := c.nsrn + count }
      else { c with nsaa := c.nsaa + alignTo8 t.size, nsrn := 8 }
    | .integer =>
      if c.ngrn + (t.size + 7) / 8 ≤ 8 then { c with ngrn := c.ngrn + (t.size + 7) / 8 }
      else { c with nsaa := c.nsaa + alignTo8 t.size, ngrn := 8 }
  | .float => if c.nsrn < 8 then { c with nsrn := c.nsrn + 1 } else { c with nsaa := c.nsaa + 8 }
  | .int => if c.ngrn < 8 then { c with ngrn := c.ngrn + 1 } else { c with nsaa := c.nsaa + 8 }

/-- The bytes of the copy of an argument. -/
def ArgShape.copyBytes : ArgShape → Nat
  | .agg t =>
    match astAapcsClassify t with
    | .indirect => alignTo16 t.size
    | _ => 0
  | _ => 0

/-- The counters of the caller after an argument. -/
def AapcsCallCursor.next (c : AapcsCallCursor) (s : ArgShape) : AapcsCallCursor :=
  ⟨c.toAapcsCursor.next s, c.copyOff + s.copyBytes⟩

/-- The pre-pass moves the counters to the next argument. -/
theorem AapcsCallCursor.prepass_eq_next (c : AapcsCallCursor) (a : CallArg) :
  c.prepass a = c.next a.shape
  := by
  unfold prepass next CallArg.shape AapcsCursor.next ArgShape.copyBytes
  cases a.byvalStructType with
  | some t =>
    dsimp only
    cases astAapcsClassify t <;> dsimp only <;> split <;> rfl
  | none =>
    dsimp only
    cases irIsFloat a.type with
    | true =>
      rw [if_pos rfl]
      split <;> rfl
    | false =>
      rw [if_neg Bool.false_ne_true]
      split <;> rfl

/-- The placing loop moves the counters to the next argument. -/
theorem AapcsCallCursor.place_snd (c : AapcsCallCursor) (copyBase : Nat) (a : CallArg) :
  (c.place copyBase a).2 = c.next a.shape
  := by
  unfold place next CallArg.shape AapcsCursor.next ArgShape.copyBytes
  cases a.byvalStructType with
  | some t =>
    dsimp only
    cases astAapcsClassify t <;> dsimp only <;> split <;> rfl
  | none =>
    dsimp only
    cases irIsFloat a.type with
    | true =>
      rw [if_pos rfl]
      split <;> rfl
    | false =>
      rw [if_neg Bool.false_ne_true]
      split <;> rfl

/-- The prologue moves the counters to the next parameter. -/
theorem AapcsCursor.prologue_snd (c : AapcsCursor) (p : SysvParam) :
  (c.prologue p).2 = c.next p.type.shape
  := by
  unfold prologue AstType.shape
  cases x86_64IsByvalStruct p.type with
  | true =>
    simp only [Bool.not_true, Bool.false_eq_true, if_false, if_true, next]
    cases astAapcsClassify p.type with
    | indirect =>
      dsimp only
      by_cases h : c.ngrn < 8
      · rw [if_neg (by omega), if_pos h]
      · rw [if_pos (by omega), if_neg h]
    | hfa elem count =>
      dsimp only
      split <;> rfl
    | integer =>
      dsimp only
      split <;> rfl
  | false =>
    simp only [Bool.not_false, if_true, Bool.false_eq_true, if_false]
    split
    · unfold next
      dsimp only
      split <;> rfl
    · unfold next
      dsimp only
      split <;> rfl

/-- The pre-pass ends with the counters of the placing loop. -/
theorem foldl_aapcsPrepass (copyBase : Nat) (c : AapcsCallCursor) (args : List CallArg) :
  args.foldl AapcsCallCursor.prepass c = (aapcsPlaceArgs copyBase c args).2
  := by
  induction args generalizing c with
  | nil => rfl
  | cons a args ih =>
    rw [List.foldl_cons, ih, c.prepass_eq_next, ← c.place_snd copyBase]
    rfl

/-! ### The callee takes what the caller placed -/

/-- The callee takes an argument from where the caller passed it: every piece, or the address
of its copy and all of the copy. -/
def AapcsPassing.TakenBy : AapcsPassing → AapcsSource → Prop
  | .direct ps, .direct qs => List.Forall₂ Taken ps qs
  | .indirect ptr _ size, .indirect ptr' size' => Taken ptr ptr' ∧ size' = size
  | _, _ => False

/-- Pieces in registers are taken from there. -/
theorem taken_regs
    {ps : List ArgPiece} (h : ∀ p ∈ ps, p.place.incoming = p.place) :
  List.Forall₂ Taken ps ps
  := by
  rw [List.forall₂_same]
  intro p hp
  exact ⟨rfl, (h p hp).symm, le_refl _⟩

/-- A piece on the stack is taken from where it was put. -/
theorem taken_stack (off width nsaa : Nat) :
  List.Forall₂ Taken [⟨off, width, .stack nsaa⟩] [⟨off, width, .stack (16 + nsaa)⟩]
  := .cons ⟨rfl, rfl, le_refl _⟩ .nil

/-- The prologue takes a parameter from where the placing loop passed the argument. -/
theorem takenBy_prologue
    {p : SysvParam} {a : CallArg} (h : PassedAs p.type a) (ht : IsParamType p.type)
    (copyBase : Nat) (c : AapcsCallCursor) :
  (c.place copyBase a).1.TakenBy (c.toAapcsCursor.prologue p).1.source
  := by
  unfold PassedAs at h
  unfold AapcsCallCursor.place AapcsCursor.prologue
  generalize p.type = t at h ht ⊢
  split at h
  · rename_i hb
    rw [h]
    simp only [hb, Bool.not_true, Bool.false_eq_true, if_false]
    cases astAapcsClassify t with
    | indirect =>
      dsimp only
      by_cases hr : c.ngrn < 8
      · rw [if_pos hr, if_neg (by omega)]
        exact ⟨⟨rfl, rfl, le_refl _⟩, rfl⟩
      · rw [if_neg hr, if_pos (by omega)]
        exact ⟨⟨rfl, rfl, le_refl _⟩, rfl⟩
    | hfa elem count =>
      dsimp only
      split
      · apply taken_regs
        intro q hq
        obtain ⟨k, -, rfl⟩ := List.mem_map.mp hq
        rfl
      · apply taken_stack
    | integer =>
      dsimp only
      split
      · apply taken_regs
        intro q hq
        obtain ⟨k, -, rfl⟩ := List.mem_map.mp hq
        rfl
      · apply taken_stack
  · rename_i hb
    obtain ⟨ha, hc, hsize⟩ := h
    obtain ⟨hle, hf⟩ := ht hb
    have hb' : x86_64IsByvalStruct t = false := by simpa using hb
    simp only [ha, hb', hc, decide_eq_true_eq, Bool.not_false, if_true]
    split
    · rename_i hk
      rw [hsize hk]
      split
      · exact .cons ⟨rfl, rfl, le_refl _⟩ .nil
      · refine .cons ⟨rfl, rfl, ?_⟩ .nil
        obtain h4 | h8 := hf hk
        · simp [h4]
        · simp [h8]
    · split
      · exact .cons ⟨rfl, rfl, hle⟩ .nil
      · exact .cons ⟨rfl, rfl, hle⟩ .nil

/-- The prologue takes all parameters from where the placing loop passed the arguments. -/
theorem takenBy_prologueParams
    {ps : List SysvParam} {args : List CallArg}
    (h : List.Forall₂ (fun p a => PassedAs p.type a) ps args)
    (hps : ∀ p ∈ ps, IsParamType p.type) (copyBase : Nat) (c : AapcsCallCursor) :
  List.Forall₂ (fun x r => AapcsPassing.TakenBy x r.source) (aapcsPlaceArgs copyBase c args).1
    (aapcsPrologueParams c.toAapcsCursor ps)
  := by
  induction h generalizing c with
  | nil => apply List.Forall₂.nil
  | @cons p a ps args ha _ ih =>
    have hnext : (c.toAapcsCursor.prologue p).2 = (c.place copyBase a).2.toAapcsCursor := by
      rw [AapcsCursor.prologue_snd, c.place_snd, ha.shape_eq]
      rfl
    apply List.Forall₂.cons
    · apply takenBy_prologue ha (hps p List.mem_cons_self)
    · simp only [hnext]
      apply ih
      intro q hq
      apply hps q (List.mem_cons_of_mem p hq)

/-- Whether what the prologue takes is on the stack. -/
def AapcsSource.isStack : AapcsSource → Bool
  | .direct pieces => pieces.any (·.place.isStack)
  | .indirect ptr _ => ptr.place.isStack

/-- Whether the prologue copies a parameter: when it has a slot and is an aggregate or on the
stack. -/
def SysvParam.IsCopied (p : SysvParam) (r : AapcsArrival) : Prop :=
  r.copied = (p.hasSlot && (x86_64IsByvalStruct p.type || r.source.isStack))

/-- The prologue copies the parameters that have no entry store. -/
theorem AapcsCursor.isCopied_prologue (c : AapcsCursor) (p : SysvParam) :
  p.IsCopied (c.prologue p).1
  := by
  unfold SysvParam.IsCopied prologue
  cases hb : x86_64IsByvalStruct p.type with
  | true =>
    simp only [Bool.not_true, Bool.false_eq_true, if_false, Bool.true_or, Bool.and_true]
    cases astAapcsClassify p.type <;> dsimp only <;> split <;> rfl
  | false =>
    simp only [Bool.not_false, if_true, Bool.false_or]
    split
    · split <;> simp [AapcsSource.isStack, ArgPlace.isStack]
    · split <;> simp [AapcsSource.isStack, ArgPlace.isStack]

theorem isCopied_prologueParams (c : AapcsCursor) (ps : List SysvParam) :
  List.Forall₂ SysvParam.IsCopied ps (aapcsPrologueParams c ps)
  := by
  induction ps generalizing c with
  | nil => apply List.Forall₂.nil
  | cons p ps ih => exact .cons (c.isCopied_prologue p) (ih _)

/-! ### Arguments are disjoint -/

/-- The registers, and the bytes of the stack arguments and of the copies. -/
inductive AapcsCell where
  | gp (reg : Nat)
  | sse (reg : Nat)
  | arg (off : Nat)
  | copy (off : Nat)

/-- What a piece occupies. -/
def ArgPiece.aapcsCells (p : ArgPiece) : Set AapcsCell :=
  match p.place with
  | .gp n => {.gp n}
  | .sse n => {.sse n}
  | .stack off => {x | ∃ b, off ≤ b ∧ b < off + p.width ∧ x = .arg b}

/-- What an argument occupies. -/
def AapcsPassing.cells : AapcsPassing → Set AapcsCell
  | .direct ps => {x | ∃ p ∈ ps, x ∈ p.aapcsCells}
  | .indirect ptr copy size =>
    ptr.aapcsCells ∪ {x | ∃ b, copy ≤ b ∧ b < copy + size ∧ x = .copy b}

/-- A register, or a byte above the stack pointer. -/
def AapcsCell.onStack : AapcsCell → ArgCell
  | .gp n => .gp n
  | .sse n => .sse n
  | .arg off | .copy off => .byte off

/-- What lies below the counters, with the copies from `copyBase` on. -/
def AapcsCallCursor.used (copyBase : Nat) (c : AapcsCallCursor) : Set AapcsCell := fun
  | .gp n => n < c.ngrn
  | .sse n => n < c.nsrn
  | .arg b => b < c.nsaa
  | .copy b => copyBase ≤ b ∧ b < copyBase + c.copyOff

section Used

variable {copyBase : Nat} {c d : AapcsCallCursor}

@[simp]
theorem AapcsCallCursor.gp_mem_used {n : Nat} :
  AapcsCell.gp n ∈ c.used copyBase ↔ n < c.ngrn
  := Iff.rfl

@[simp]
theorem AapcsCallCursor.sse_mem_used {n : Nat} :
  AapcsCell.sse n ∈ c.used copyBase ↔ n < c.nsrn
  := Iff.rfl

@[simp]
theorem AapcsCallCursor.arg_mem_used {b : Nat} :
  AapcsCell.arg b ∈ c.used copyBase ↔ b < c.nsaa
  := Iff.rfl

@[simp]
theorem AapcsCallCursor.copy_mem_used {b : Nat} :
  AapcsCell.copy b ∈ c.used copyBase ↔ copyBase ≤ b ∧ b < copyBase + c.copyOff
  := Iff.rfl

/-- Counters that are no smaller have used no less. -/
theorem AapcsCallCursor.used_mono
    (hgp : c.ngrn ≤ d.ngrn) (hsse : c.nsrn ≤ d.nsrn) (harg : c.nsaa ≤ d.nsaa)
    (hcopy : c.copyOff ≤ d.copyOff) :
  c.used copyBase ⊆ d.used copyBase
  := by
  intro x hx
  cases x with
  | gp n => apply lt_of_lt_of_le hx hgp
  | sse n => apply lt_of_lt_of_le hx hsse
  | arg b => apply lt_of_lt_of_le hx harg
  | copy b => exact ⟨hx.1, lt_of_lt_of_le hx.2 (Nat.add_le_add_left hcopy copyBase)⟩

end Used

/-- The counters of registers are within the registers. -/
def AapcsCallCursor.InRegs (c : AapcsCallCursor) : Prop := c.ngrn ≤ 8 ∧ c.nsrn ≤ 8

/-- The counters of registers stay within the registers. -/
theorem AapcsCallCursor.InRegs.next {c : AapcsCallCursor} (h : c.InRegs) (s : ArgShape) :
  (c.next s).InRegs
  := by
  obtain ⟨hgp, hsse⟩ := h
  unfold AapcsCallCursor.next InRegs AapcsCursor.next
  cases s with
  | agg t =>
    dsimp only
    cases astAapcsClassify t with
    | indirect =>
      dsimp only
      split
      · exact ⟨by dsimp only; omega, hsse⟩
      · exact ⟨hgp, hsse⟩
    | hfa elem count =>
      dsimp only
      split
      · rename_i h
        exact ⟨hgp, h⟩
      · exact ⟨hgp, le_refl 8⟩
    | integer =>
      dsimp only
      split
      · rename_i h
        exact ⟨h, hsse⟩
      · exact ⟨le_refl 8, hsse⟩
  | float =>
    dsimp only
    split
    · exact ⟨hgp, by dsimp only; omega⟩
    · exact ⟨hgp, hsse⟩
  | int =>
    dsimp only
    split
    · exact ⟨by dsimp only; omega, hsse⟩
    · exact ⟨hgp, hsse⟩

/-- The counters never go back. -/
theorem AapcsCallCursor.InRegs.used_subset_next
    {c : AapcsCallCursor} (h : c.InRegs) (copyBase : Nat) (s : ArgShape) :
  c.used copyBase ⊆ (c.next s).used copyBase
  := by
  obtain ⟨hgp, hsse⟩ := h
  unfold AapcsCallCursor.next AapcsCursor.next
  apply used_mono _ _ _ (Nat.le_add_right _ _)
  all_goals
    cases s with
    | agg t =>
      dsimp only
      cases astAapcsClassify t <;> dsimp only <;> split <;> simp [hgp, hsse]
    | float =>
      dsimp only
      split <;> simp
    | int =>
      dsimp only
      split <;> simp

/-- Cells that lie between two positions of the counters. -/
def AapcsBetween (copyBase : Nat) (c d : AapcsCallCursor) (X : Set AapcsCell) : Prop :=
  ∀ x ∈ X, x ∉ c.used copyBase ∧ x ∈ d.used copyBase

/-- A single piece occupies what it occupies. -/
theorem AapcsPassing.cells_singleton (p : ArgPiece) :
  (AapcsPassing.direct [p]).cells = p.aapcsCells
  := by
  ext x
  simp [cells]

/-- What an argument occupies lies between the counters before and after it. -/
theorem AapcsCallCursor.between_place (c : AapcsCallCursor) (copyBase : Nat) (a : CallArg) :
  AapcsBetween copyBase c (c.place copyBase a).2 (c.place copyBase a).1.cells
  := by
  unfold place
  split
  · rename_i t _
    split
    · -- the address of the copy, in a register or on the stack, and the copy
      have hsize : t.size ≤ alignTo16 t.size := by
        unfold alignTo16
        omega
      split
      · rintro x (hx | ⟨b, hlo, hhi, rfl⟩)
        · obtain rfl : x = .gp c.ngrn := hx
          simp
        · simp only [copy_mem_used]
          omega
      · rintro x (⟨b, hlo, hhi, rfl⟩ | ⟨b, hlo, hhi, rfl⟩)
        · dsimp only at hlo hhi
          simp only [arg_mem_used]
          omega
        · simp only [copy_mem_used]
          omega
    · split
      · rintro x ⟨p, hp, hx⟩
        obtain ⟨k, hk, rfl⟩ := List.mem_map.mp hp
        obtain rfl : x = .sse (c.nsrn + k) := hx
        have hk := List.mem_range.mp hk
        simp only [sse_mem_used]
        omega
      · rw [AapcsPassing.cells_singleton]
        rintro x ⟨b, hlo, hhi, rfl⟩
        dsimp only at hlo hhi
        simp only [arg_mem_used, alignTo8]
        omega
    · dsimp only
      split
      · rintro x ⟨p, hp, hx⟩
        obtain ⟨k, hk, rfl⟩ := List.mem_map.mp hp
        obtain rfl : x = .gp (c.ngrn + k) := hx
        have hk := List.mem_range.mp hk
        simp only [gp_mem_used]
        omega
      · rw [AapcsPassing.cells_singleton]
        rintro x ⟨b, hlo, hhi, rfl⟩
        dsimp only at hlo hhi
        simp only [arg_mem_used, alignTo8]
        omega
  · split
    · split
      · rw [AapcsPassing.cells_singleton]
        intro x hx
        obtain rfl : x = .sse c.nsrn := hx
        simp
      · rw [AapcsPassing.cells_singleton]
        rintro x ⟨b, hlo, hhi, rfl⟩
        dsimp only at hlo hhi
        simp only [arg_mem_used]
        split at hhi <;> omega
    · split
      · rw [AapcsPassing.cells_singleton]
        intro x hx
        obtain rfl : x = .gp c.ngrn := hx
        simp
      · rw [AapcsPassing.cells_singleton]
        rintro x ⟨b, hlo, hhi, rfl⟩
        dsimp only at hlo hhi
        simp only [arg_mem_used]
        omega

/-- The allocation of registers and stack bytes to the arguments of a call. -/
def aapcsAllocator (copyBase : Nat) :
    Allocator { c : AapcsCallCursor // c.InRegs } CallArg AapcsCell where
  step c a := ⟨(c.1.place copyBase a).2, by rw [c.1.place_snd]; exact c.2.next a.shape⟩
  region c a := (c.1.place copyBase a).1.cells
  used c := c.1.used copyBase
  fresh c a := Set.disjoint_right.mpr fun x hx => (c.1.between_place copyBase a x hx).1
  used_step c a := by
    apply Set.union_subset
    · have hsub := c.2.used_subset_next copyBase a.shape
      rw [← c.1.place_snd copyBase] at hsub
      exact hsub
    · intro x hx
      apply (c.1.between_place copyBase a x hx).2

/-- The placing loop is the walk of the allocator. -/
theorem aapcsPlaceArgs_eq_aapcsAllocator
    (copyBase : Nat) (c : { c : AapcsCallCursor // c.InRegs }) (args : List CallArg) :
  (aapcsPlaceArgs copyBase c.1 args).1.map AapcsPassing.cells
      = (aapcsAllocator copyBase).regions c args
    ∧ (aapcsPlaceArgs copyBase c.1 args).2 = ((aapcsAllocator copyBase).final c args).1
  := by
  induction args generalizing c with
  | nil => exact ⟨rfl, rfl⟩
  | cons a args ih =>
    obtain ⟨h1, h2⟩ := ih ((aapcsAllocator copyBase).step c a)
    exact ⟨congrArg ((c.1.place copyBase a).1.cells :: ·) h1, h2⟩

/-! ### The calling convention -/

/-- A call passes its arguments without the buffer of an aggregate result, whose address is in
`x8` exactly for an indirect result. -/
theorem aapcsCall_eq (rettype : Option AstType) (args : List CallArg) :
  aapcsCall rettype args
    = { a64EmitCall none args with
        total := alignTo16 ((a64EmitCall none args).destSaveOff
          + if irRetTypeIsAggregate rettype then 16 else 0)
        inX8 := irRetIsIndirect rettype }
  := by
  unfold aapcsCall irFnCallToArgs irRetIsIndirect
  cases rettype with
  | none => rfl
  | some rt => cases irRetTypeIsAggregate (some rt) <;> rfl

/-- The bytes that a chunk stores are those that the callee loads. -/
theorem a64TxtRetChunkStore_eq {size width : Nat} (h : a64TxtRetChunkStore size = some width) :
  width = if 8 ≤ size then 8 else if size = 4 then 4 else if size = 2 then 2 else 1
  := by
  unfold a64TxtRetChunkStore at h
  grind

/-- A result is stored from the registers in which it was loaded. -/
theorem aarch64RetLoads_of_a64RetStores
    {t : AstType} {stores : List ArgPiece} (h : a64RetStores t = some stores) :
  aarch64RetLoads t = stores
  := by
  have hchunks : ∀ (ks : List Nat) (stores : List ArgPiece),
      ks.mapM (fun k => (a64TxtRetChunkStore (t.size - k * 8)).map
          fun width => (⟨k * 8, width, .gp k⟩ : ArgPiece)) = some stores →
        ks.map (fun k => (⟨k * 8, if 8 ≤ t.size - k * 8 then 8 else if t.size - k * 8 = 4 then 4
          else if t.size - k * 8 = 2 then 2 else 1, .gp k⟩ : ArgPiece)) = stores := by
    intro ks
    induction ks with
    | nil =>
      intro stores h
      cases h
      rfl
    | cons k ks ih =>
      intro stores h
      rw [List.mapM_cons] at h
      obtain ⟨p, hp, h⟩ := Option.bind_eq_some_iff.mp h
      obtain ⟨rest, hrest, h⟩ := Option.bind_eq_some_iff.mp h
      obtain rfl := Option.some_inj.mp h
      obtain ⟨width, hwidth, rfl⟩ := Option.map_eq_some_iff.mp hp
      rw [List.map_cons, ih rest hrest, a64TxtRetChunkStore_eq hwidth]
  unfold a64RetStores at h
  unfold aarch64RetLoads
  split at h
  · apply Option.some_inj.mp h
  · apply hchunks _ _ h

/-- What lies in the eight registers of each kind, in the stack arguments and in the copies
from `copyBase` on. -/
def aapcsArea (copyBase copyBytes : Nat) : Set AapcsCell :=
  AapcsCallCursor.used copyBase ⟨⟨8, 8, copyBase⟩, copyBytes⟩

/-- Within these areas different cells are different registers or bytes. -/
theorem injOn_onStack (copyBase copyBytes : Nat) :
  Set.InjOn AapcsCell.onStack (aapcsArea copyBase copyBytes)
  := by
  intro x hx y hy hxy
  cases x <;> cases y <;> simp only [AapcsCell.onStack, ArgCell.byte.injEq, ArgCell.gp.injEq,
    ArgCell.sse.injEq, reduceCtorEq] at hxy
  case gp.gp => rw [hxy]
  case sse.sse => rw [hxy]
  case arg.arg => rw [hxy]
  case copy.copy => rw [hxy]
  case arg.copy a b =>
    have ha : a < copyBase := hx
    have hb : copyBase ≤ b := hy.1
    omega
  case copy.arg b a =>
    have ha : a < copyBase := hy
    have hb : copyBase ≤ b := hx.1
    omega

/-- The placing loop, from the start: what the arguments occupy is pairwise disjoint, and in the
areas that the pre-pass sized. -/
theorem a64EmitCall_cells (args : List CallArg) :
  let call := a64EmitCall none args
  (call.passed.map AapcsPassing.cells).Pairwise Disjoint
    ∧ (∀ x ∈ call.passed, x.cells ⊆ aapcsArea call.nsaaTotal call.indirectBytes)
    ∧ call.cursor.nsaa = call.nsaaTotal ∧ call.cursor.copyOff = call.indirectBytes
  := by
  intro call
  let zero : { c : AapcsCallCursor // c.InRegs } :=
    ⟨⟨⟨0, 0, 0⟩, 0⟩, Nat.zero_le 8, Nat.zero_le 8⟩
  obtain ⟨hregions, hfinal⟩ := aapcsPlaceArgs_eq_aapcsAllocator call.nsaaTotal zero args
  have hpre : args.foldl AapcsCallCursor.prepass zero.1 = call.cursor :=
    foldl_aapcsPrepass call.nsaaTotal zero.1 args
  have hnsaa : call.cursor.nsaa = call.nsaaTotal := by rw [← hpre]; rfl
  have hcopy : call.cursor.copyOff = call.indirectBytes := by rw [← hpre]; rfl
  have hpassed : call.passed.map AapcsPassing.cells
      = (aapcsAllocator call.nsaaTotal).regions zero args := hregions
  refine ⟨?_, ?_, hnsaa, hcopy⟩
  · rw [hpassed]
    apply Allocator.pairwise_disjoint
  · intro x hx
    have hmem : x.cells ∈ (aapcsAllocator call.nsaaTotal).regions zero args := by
      rw [← hpassed]
      apply List.mem_map_of_mem hx
    apply (Allocator.subset_used_final hmem).trans
    have hlast : ((aapcsAllocator call.nsaaTotal).final zero args).1 = call.cursor := hfinal.symm
    have hregs := ((aapcsAllocator call.nsaaTotal).final zero args).2
    rw [hlast] at hregs
    have hused : (aapcsAllocator call.nsaaTotal).used
        ((aapcsAllocator call.nsaaTotal).final zero args) = call.cursor.used call.nsaaTotal :=
      congrArg (AapcsCallCursor.used call.nsaaTotal) hlast
    rw [hused]
    exact AapcsCallCursor.used_mono hregs.1 hregs.2 hnsaa.le hcopy.le

/-- The areas of a call: no two arguments share a register or a byte of the stack; all are in
the eight registers of each kind, in the stack arguments that the pre-pass sized, or in the
copies above them; the address of the buffer of an aggregate result is saved above the copies,
and all is within the bytes by which the stack pointer moves, a multiple of 16. -/
theorem aapcsCall_areas (rettype : Option AstType) (args : List CallArg) :
  let call := aapcsCall rettype args
  (call.passed.map fun x => AapcsCell.onStack '' x.cells).Pairwise Disjoint
    ∧ (∀ x ∈ call.passed, x.cells ⊆ aapcsArea call.nsaaTotal call.indirectBytes)
    ∧ call.cursor.nsaa = call.nsaaTotal ∧ call.cursor.copyOff = call.indirectBytes
    ∧ call.destSaveOff = call.nsaaTotal + call.indirectBytes
    ∧ call.destSaveOff + (if irRetTypeIsAggregate rettype then 8 else 0) ≤ call.total
    ∧ 16 ∣ call.total
  := by
  obtain ⟨hdisjoint, harea, hnsaa, hcopy⟩ := a64EmitCall_cells args
  rw [aapcsCall_eq]
  refine ⟨?_, harea, hnsaa, hcopy, rfl, ?_, ?_⟩
  · rw [List.pairwise_map] at hdisjoint ⊢
    apply hdisjoint.imp_of_mem
    intro x y hx hy hxy
    rw [Set.disjoint_left]
    rintro _ ⟨a, ha, rfl⟩ ⟨b, hb, hab⟩
    obtain rfl := injOn_onStack _ _ (harea y hy hb) (harea x hx ha) hab
    apply Set.disjoint_left.mp hxy ha hb
  · dsimp only
    unfold alignTo16
    split <;> omega
  · exact Dvd.intro_left _ rfl

/-! ### Calls with scalar arguments only -/

/-- The two loops of the path for scalars place each argument where the placing loop does, when
none is forced onto the stack. -/
theorem scalarArgs_eq
    {args : List CallArg} (h : ∀ a ∈ args, a.byvalStructType = none) {forced : Option Nat}
    {i : Nat} (hforced : ∀ n ∈ forced, i + args.length ≤ n) (copyBase : Nat)
    (stackIdx intIdx floatIdx copyOff : Nat) :
  let isStack := aarch64PartitionCallArgs forced i intIdx floatIdx args
  let r := aapcsPlaceArgs copyBase ⟨⟨intIdx, floatIdx, stackIdx * 8⟩, copyOff⟩ args
  ((scalarStackArgs stackIdx (isStack.zip args)).zip
      (scalarRegArgs intIdx floatIdx (isStack.zip args))).map
        (fun p => AapcsPassing.direct (p.1.toList ++ p.2.toList)) = r.1
    ∧ r.2.nsaa = (stackIdx + isStack.count true) * 8 ∧ r.2.copyOff = copyOff
  := by
  induction args generalizing i stackIdx intIdx floatIdx with
  | nil => exact ⟨rfl, rfl, rfl⟩
  | cons a args ih =>
    have hargs : ∀ a ∈ args, a.byvalStructType = none :=
      fun b hb => h b (List.mem_cons_of_mem a hb)
    have ha := h a List.mem_cons_self
    have hrest : ∀ n ∈ forced, i + 1 + args.length ≤ n := by
      intro n hn
      have hle := hforced n hn
      rw [List.length_cons] at hle
      omega
    have hfree : forced.any (· ≤ i) = false := by
      cases forced with
      | none => rfl
      | some n =>
        have hle := hrest n rfl
        simp only [Option.any_some, decide_eq_false_iff_not]
        omega
    have ih := ih hargs hrest
    have hstack : (stackIdx + 1) * 8 = stackIdx * 8 + 8 := by omega
    unfold aarch64PartitionCallArgs aapcsPlaceArgs AapcsCallCursor.place
    rw [ha, hfree]
    by_cases hf : irIsFloat a.type
    · by_cases hlt : floatIdx < 8
      · obtain ⟨h1, h2, h3⟩ := ih stackIdx intIdx (floatIdx + 1)
        simp [hf, hlt, scalarStackArgs, scalarRegArgs, h1, h2, h3]
      · obtain ⟨h1, h2, h3⟩ := ih (stackIdx + 1) intIdx floatIdx
        rw [hstack] at h1 h2 h3
        simp [hf, hlt, scalarStackArgs, scalarRegArgs, h1, h2, h3]
        omega
    · by_cases hlt : intIdx < 8
      · obtain ⟨h1, h2, h3⟩ := ih stackIdx (intIdx + 1) floatIdx
        simp [hf, hlt, scalarStackArgs, scalarRegArgs, h1, h2, h3]
      · obtain ⟨h1, h2, h3⟩ := ih (stackIdx + 1) intIdx floatIdx
        rw [hstack] at h1 h2 h3
        simp [hf, hlt, scalarStackArgs, scalarRegArgs, h1, h2, h3]
        omega

/-- A function of C with one named parameter, and two extra arguments. -/
def cVariadic : IrCallee := { hasVarArgs := true, isExternFunc := true, paramsSize := 2 }

/-- The counters after parameters of some types. -/
def AapcsCursor.after (c : AapcsCursor) (ts : List AstType) : AapcsCursor :=
  ts.foldl (fun c t => c.next t.shape) c

/-- The counters are the registers that the parameters before take, as far as there are any. -/
theorem AapcsCursor.next_counts
    {c : AapcsCursor} {ints floats : Nat} (hi : c.ngrn = min 8 ints)
    (hf : c.nsrn = min 8 floats) (t : AstType) :
  (c.next t.shape).ngrn = min 8 (ints + aapcsInts t)
    ∧ (c.next t.shape).nsrn = min 8 (floats + aapcsFloats t)
  := by
  unfold AstType.shape aapcsInts aapcsFloats
  by_cases hb : x86_64IsByvalStruct t
  · simp only [hb, if_true, next]
    cases astAapcsClassify t with
    | indirect =>
      dsimp only
      split <;> dsimp only <;> omega
    | hfa elem count =>
      dsimp only
      split <;> dsimp only <;> omega
    | integer =>
      dsimp only
      split <;> dsimp only <;> omega
  · by_cases hk : t.kind = .float
    · simp only [hb, hk, if_true, Bool.false_eq_true, if_false, next]
      split <;> dsimp only <;> omega
    · simp only [hb, hk, Bool.false_eq_true, if_false, next]
      split <;> dsimp only <;> omega

theorem AapcsCursor.after_counts
    {c : AapcsCursor} {ints floats : Nat} (hi : c.ngrn = min 8 ints)
    (hf : c.nsrn = min 8 floats) (ts : List AstType) :
  (c.after ts).ngrn = min 8 (ints + (ts.map aapcsInts).sum)
    ∧ (c.after ts).nsrn = min 8 (floats + (ts.map aapcsFloats).sum)
  := by
  induction ts generalizing c ints floats with
  | nil => exact ⟨hi, hf⟩
  | cons t ts ih =>
    obtain ⟨hi', hf'⟩ := AapcsCursor.next_counts hi hf t
    obtain ⟨h1, h2⟩ := ih hi' hf'
    rw [List.map_cons, List.map_cons, List.sum_cons, List.sum_cons, ← Nat.add_assoc,
      ← Nat.add_assoc]
    exact ⟨h1, h2⟩

/-- An argument is passed from the counters that the parameters before it give. -/
theorem aapcsPlaceArgs_at
    {ts : List AstType} {args : List CallArg} (h : List.Forall₂ PassedAs ts args)
    (copyBase : Nat) (c : AapcsCallCursor) {j : Nat} {t : AstType} (ht : ts[j]? = some t) :
  ∃ (a : CallArg) (d : AapcsCallCursor), PassedAs t a
    ∧ d.toAapcsCursor = c.toAapcsCursor.after (ts.take j)
    ∧ (aapcsPlaceArgs copyBase c args).1[j]? = some (d.place copyBase a).1
  := by
  induction h generalizing c j with
  | nil => cases ht
  | @cons u a ts args ha _ ih =>
    cases j with
    | zero =>
      obtain rfl := Option.some_inj.mp ht
      exact ⟨a, c, ha, rfl, rfl⟩
    | succ j =>
      obtain ⟨b, d, hb, hd, hplace⟩ := ih (c.place copyBase a).2 ht
      refine ⟨b, d, hb, ?_, hplace⟩
      rw [hd, c.place_snd, ha.shape_eq]
      rfl

/-- The location of an argument that is in one register; `none` for one on the stack. -/
def aapcsLocation : AapcsPassing → IrLocation
  | .direct [⟨_, _, .gp n⟩] => .reg (some ("x" ++ toString n))
  | .direct [⟨_, _, .sse n⟩] => .reg (some ("d" ++ toString n))
  | _ => .none

/-- Where the argument for a scalar parameter is passed. -/
theorem aapcsLocation_place
    {t : AstType} {a : CallArg} (h : PassedAs t a) (hb : ¬ x86_64IsByvalStruct t)
    (copyBase : Nat) (c : AapcsCallCursor) :
  aapcsLocation (c.place copyBase a).1
    = if t.kind = .float then
        if c.nsrn < 8 then .reg (some ("d" ++ toString c.nsrn)) else .none
      else if c.ngrn < 8 then .reg (some ("x" ++ toString c.ngrn)) else .none
  := by
  rw [PassedAs, if_neg hb] at h
  obtain ⟨ha, hc, -⟩ := h
  unfold AapcsCallCursor.place
  rw [ha]
  simp only [hc, decide_eq_true_eq]
  split
  · split <;> rfl
  · split <;> rfl

/-- The register of a number that is cut off at eight. -/
theorem regLocation_aarch64 {idx n : Nat} (h : min 8 idx = n) :
  regLocation aarch64Pool.intArgRegs idx
      = (if n < 8 then .reg (some ("x" ++ toString n)) else .none)
    ∧ regLocation aarch64Pool.floatArgRegs idx
      = (if n < 8 then .reg (some ("d" ++ toString n)) else .none)
  := by
  have hall : ∀ n : Fin 9,
      regLocation aarch64Pool.intArgRegs n
          = (if n.1 < 8 then .reg (some ("x" ++ toString n.1)) else .none)
        ∧ regLocation aarch64Pool.floatArgRegs n
          = (if n.1 < 8 then .reg (some ("d" ++ toString n.1)) else .none) := by
    decide
  rw [regLocation_min (show aarch64Pool.intArgRegs.length = 8 from rfl),
    regLocation_min (show aarch64Pool.floatArgRegs.length = 8 from rfl), h]
  apply hall ⟨n, by omega⟩

/-- Values past those of the parameters are left alone. -/
theorem stampParams_after
    {pool : IrRegPool} {ps : List AstParam} {ts : List AstType}
    (hps : List.Forall₂ PlainParam ps ts) {st : StampState}
    (hlen : st.fnParamIdx + ts.length ≤ st.params.length) {k : Nat}
    (hk : st.fnParamIdx + ts.length ≤ k) :
  (stampParams pool st ps).params[k]? = st.params[k]?
  := by
  induction hps generalizing st with
  | nil => rfl
  | @cons p t ps ts hp _ ih =>
    rw [List.length_cons] at hlen hk
    have hlt : st.fnParamIdx < st.params.length := by omega
    obtain ⟨hcur, hlength⟩ := StampState.typed_cursor pool t hp.2 hlt
    rw [stampParams_cons hp.1, ih (by omega) (by omega), StampState.typed_params hp.2, if_neg]
    rintro ⟨rfl, -⟩
    omega

/-- On AArch64 every scalar parameter that is not pinned is stamped with the register in which
its argument is passed, or left without one when its argument is on the stack; and the hidden
pointer of an indirect result, the last of the parameters, is stamped with `x8`, in which its
address is passed. -/
theorem irAssignAbiParamLocations_aapcs
    {target : CliTarget} {st st' : LowerState} {ps : List AstParam} {ts : List AstType}
    {args : List CallArg} {rettype : Option AstType} {ret : Option IrValue}
    (hps : List.Forall₂ PlainParam ps ts) (hargs : List.Forall₂ PassedAs ts args)
    (hlow : lowerSignature target st ps rettype = some (ret, st')) :
  let stamped := (irAssignAbiParamLocations aarch64Pool rettype ps st'.params
    st'.instructions).1
  (∀ (i : Nat) (t : AstType), ts[i]? = some t → ¬ x86_64IsByvalStruct t →
      stamped[i]?.map IrValue.loc = ((aapcsCall rettype args).passed[i]?).map aapcsLocation)
    ∧ (irRetIsIndirect rettype → (aapcsCall rettype args).inX8
        ∧ stamped[ts.length]?.map IrValue.loc = some (.reg (some "x8")))
  := by
  intro stamped
  obtain ⟨s, hs, hret⟩ := Option.bind_eq_some_iff.mp hlow
  obtain ⟨vs, hvs, hlows⟩ := lowerParams_params hps hs
  replace hvs : s.params = vs := hvs.trans (List.nil_append vs)
  have hnormal : ∀ v ∈ vs, v.paramKind = .normal := by
    intro v hv
    obtain ⟨j, hj, rfl⟩ := List.mem_iff_getElem.mp hv
    apply ((List.forall₂_iff_get.mp hlows).2 j (by rw [hlows.length_eq]; exact hj) hj).normal
  -- the vector that the walk starts from: the parameters, then the hidden pointer if any
  obtain ⟨params, hstamped, hlen, hget, hhidden⟩ : ∃ params : List IrValue,
      stamped = (stampParams aarch64Pool ⟨0, 0, 0, params⟩ ps).params
        ∧ ts.length ≤ params.length ∧ (∀ i < ts.length, params[i]? = vs[i]?)
        ∧ (irRetIsIndirect rettype →
            params[ts.length]?.map IrValue.loc = some (.reg (some "x8"))) := by
    obtain ⟨hind, w, hw, hk, hwk⟩ | ⟨hind, hw⟩ := lowerReturn_params hret
    · use stampHiddenSret aarch64Pool st'.params
      rw [hw, hvs]
      refine ⟨by simp [stamped, irAssignAbiParamLocations, hind, aarch64Pool, hw, hvs], ?_, ?_, ?_⟩
      · rw [stampHiddenSret_length, List.length_append, hlows.length_eq]
        apply Nat.le_add_right
      · intro i hi
        apply stampHiddenSret_getElem? hk hwk hnormal
        rw [← hlows.length_eq]
        apply hi
      · intro _
        have hfind : (vs ++ [w]).findIdx?
            (fun v => v.kind = .param ∧ v.paramKind = .hiddenSret) = some vs.length := by
          rw [List.findIdx?_append, List.findIdx?_eq_none_iff.mpr]
          · simp [hk, hwk]
          · intro v hv
            simp [hnormal v hv]
        unfold stampHiddenSret
        rw [hfind, hlows.length_eq]
        simp [aarch64Pool]
    · use st'.params
      refine ⟨by simp [stamped, irAssignAbiParamLocations, hind], ?_, ?_, ?_⟩
      · rw [hw, hvs, hlows.length_eq]
      · intro i _
        rw [hw, hvs]
      · intro h
        rw [h] at hind
        cases hind
  have hlen' : (StampState.mk 0 0 0 params).fnParamIdx + ts.length
      ≤ (StampState.mk 0 0 0 params).params.length := by
    simpa using hlen
  constructor
  · intro i t ht hb
    have hi : i < ts.length := (List.getElem?_eq_some_iff.mp ht).1
    have hi' : i < vs.length := by rwa [← hlows.length_eq]
    obtain ⟨u, hu, hints, hfloats⟩ := stampParams_at aarch64Pool hps hlen' ht hb
    obtain ⟨a, d, ha, hd, hplace⟩ :=
      aapcsPlaceArgs_at hargs (a64EmitCall none args).nsaaTotal ⟨⟨0, 0, 0⟩, 0⟩ ht
    obtain ⟨hngrn, hnsrn⟩ :=
      @AapcsCursor.after_counts ⟨0, 0, 0⟩ 0 0 rfl rfl (ts.take i)
    obtain ⟨hk, hl⟩ : vs[i].kind = .param ∧ vs[i].loc = .none := by
      have hlow := (List.forall₂_iff_get.mp hlows).2 i hi hi'
      rw [List.get_eq_getElem, (List.getElem?_eq_some_iff.mp ht).2] at hlow
      apply hlow.scalar hb
    dsimp only at hu hints hfloats
    rw [Nat.zero_add, hget i hi, List.getElem?_eq_getElem hi'] at hu
    have hpassed : (aapcsCall rettype args).passed[i]?
        = some (d.place (a64EmitCall none args).nsaaTotal a).1 := by
      rw [aapcsCall_eq]
      apply hplace
    rw [hstamped, hu, hpassed, Option.map_some, Option.map_some, Option.map_some,
      Option.some_inj, stampScalar_loc hk hl, aapcsLocation_place ha hb, hd]
    unfold StampState.idx
    by_cases hf : t.kind = .float
    · simp only [hf, decide_true, if_true]
      apply (regLocation_aarch64 _).2
      rw [hnsrn, hfloats]
    · simp only [hf, decide_false, Bool.false_eq_true, if_false]
      apply (regLocation_aarch64 _).1
      rw [hngrn, hints]
  · intro hind
    refine ⟨by rw [aapcsCall_eq]; exact hind, ?_⟩
    rw [hstamped, stampParams_after hps hlen' (by simp)]
    apply hhidden hind

/-- After an aggregate of two `F32` in `s0` and `s1` the parameter `d` is stamped with `d2`, in
which it is passed. -/
theorem irAssignAbiParamLocations_aapcs_floatPair :
  ((irAssignAbiParamLocations aarch64Pool none (pairParams floatPair)
        (pairLowered floatPair).params (pairLowered floatPair).instructions).1[1]?).map
          IrValue.loc
      = ((aapcsCall none (pairArgs floatPair)).passed[1]?).map aapcsLocation
    ∧ (aapcsCall none (pairArgs floatPair)).passed[1]? = some (.direct [⟨0, 8, .sse 2⟩])
  := by
  have hps : List.Forall₂ PlainParam (pairParams floatPair) [floatPair, .scalar .float 8 0] :=
    .cons ⟨rfl, rfl⟩ (.cons ⟨rfl, rfl⟩ .nil)
  have hargs : List.Forall₂ PassedAs [floatPair, .scalar .float 8 0] (pairArgs floatPair) :=
    .cons rfl (.cons ⟨rfl, rfl, fun _ => rfl⟩ .nil)
  have hlow : lowerSignature .aarch64AppleDarwin { tmpVarId := 1, addr := 0 }
      (pairParams floatPair) none = some (none, pairLowered floatPair) := by
    rfl
  constructor
  · apply (irAssignAbiParamLocations_aapcs hps hargs hlow).1 1 (.scalar .float 8 0) rfl
    decide
  · decide

end Polyc
