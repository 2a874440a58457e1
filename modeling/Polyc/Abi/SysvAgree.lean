import Mathlib.Data.List.Forall2
import Polyc.Abi.SysvCall

/-!
# Caller and callee agree

The counters see of an argument only whether it is an aggregate, a float or neither, and all
three walks move them in the same way.  The pieces of an argument lie between the counters
before it and those after it, so no two arguments share a register or a byte of the stack.
-/

namespace Polyc

/-! ### How the counters move -/

/-- What the counters see of an argument. -/
inductive ArgShape where
  | agg (t : AstType)
  | float
  | int

/-- What the caller sees of an argument. -/
def CallArg.shape (a : CallArg) : ArgShape :=
  match a.byvalStructType with
  | some t => .agg t
  | none => if irIsFloat a.type then .float else .int

/-- What the callee sees of a parameter. -/
def AstType.shape (t : AstType) : ArgShape :=
  if x86_64IsByvalStruct t then .agg t else if t.kind = .float then .float else .int

/-- The counters after an argument. -/
def SysvCursor.next (c : SysvCursor) : ArgShape → SysvCursor
  | .agg t =>
    let ag := x86_64ClassifyAgg t
    if x86_64AggInRegs ag c.ngp c.nsse then
      { c with ngp := c.ngp + ag.gp, nsse := c.nsse + ag.sse }
    else { c with off := c.off + alignTo8 t.size }
  | .float => if c.nsse < 8 then { c with nsse := c.nsse + 1 } else { c with off := c.off + 8 }
  | .int => if c.ngp < 6 then { c with ngp := c.ngp + 1 } else { c with off := c.off + 8 }

/-- Caller and callee see the same of an argument. -/
theorem PassedAs.shape_eq {t : AstType} {a : CallArg} (h : PassedAs t a) :
  a.shape = t.shape
  := by
  unfold PassedAs at h
  unfold CallArg.shape AstType.shape
  split at h
  · rename_i hbyval
    simp only [h, hbyval, if_true]
  · rename_i hbyval
    obtain ⟨hb, hc, -⟩ := h
    simp only [hb, hbyval, Bool.false_eq_true, if_false, hc,
      decide_eq_true_eq]

/-- The pre-pass moves the counters to the next argument. -/
theorem SysvCursor.prepass_eq_next (c : SysvCursor) (a : CallArg) :
  c.prepass a = c.next a.shape
  := by
  unfold prepass CallArg.shape
  cases a.byvalStructType with
  | some t => rfl
  | none =>
    dsimp only
    cases irIsFloat a.type <;> rfl

/-- The eightbytes of an aggregate in registers are integers or floats. -/
theorem mem_cls_x86_64ClassifyAgg
    {t : AstType} {cls : SysvClass} (h : cls ∈ (x86_64ClassifyAgg t).cls) :
  cls ≠ .noClass
  := by
  unfold x86_64ClassifyAgg at h
  split at h
  · cases h
  · rename_i l hl
    simp only [astSysvClassify] at hl
    split at hl
    · cases hl
    · obtain rfl := Option.some_inj.mp hl
      obtain ⟨x, -, rfl⟩ := List.mem_map.mp h
      cases x <;> decide

/-- The number of eightbytes of each class. -/
theorem countP_x86_64ClassifyAgg
    {t : AstType} (h : (x86_64ClassifyAgg t).memory = false) :
  (x86_64ClassifyAgg t).gp = (x86_64ClassifyAgg t).cls.countP (· = .integer)
    ∧ (x86_64ClassifyAgg t).sse = (x86_64ClassifyAgg t).cls.countP (· ≠ .integer)
  := by
  unfold x86_64ClassifyAgg at h ⊢
  split at h
  · cases h
  · exact ⟨rfl, rfl⟩

/-- The eightbytes of an aggregate move the counters of their classes. -/
theorem eightbytes_snd
    (size : Nat) {cls : List SysvClass} (h : ∀ x ∈ cls, x ≠ .noClass) (e : Nat)
    (c : SysvCursor) :
  (eightbytes size cls e c).2
    = { c with ngp := c.ngp + cls.countP (· = .integer)
               nsse := c.nsse + cls.countP (· ≠ .integer) }
  := by
  induction cls generalizing e c with
  | nil => rfl
  | cons x cls ih =>
    have hrest : ∀ y ∈ cls, y ≠ .noClass := fun y hy => h y (List.mem_cons_of_mem x hy)
    have hx := h x List.mem_cons_self
    cases x with
    | noClass => contradiction
    | integer => simp [eightbytes, ih hrest, Nat.add_assoc, Nat.add_comm]
    | sse => simp [eightbytes, ih hrest, Nat.add_assoc, Nat.add_comm]

/-- An aggregate whose eightbytes go into registers moves the counters to the next
argument. -/
theorem eightbytes_snd_eq_next
    {t : AstType} {c : SysvCursor}
    (h : x86_64AggInRegs (x86_64ClassifyAgg t) c.ngp c.nsse) (size e : Nat) :
  (eightbytes size (x86_64ClassifyAgg t).cls e c).2 = c.next (.agg t)
  := by
  have hm : (x86_64ClassifyAgg t).memory = false := by
    simp only [x86_64AggInRegs, Bool.and_eq_true, Bool.not_eq_true'] at h
    apply h.1.1
  obtain ⟨hgp, hsse⟩ := countP_x86_64ClassifyAgg hm
  rw [eightbytes_snd size (fun x hx => mem_cls_x86_64ClassifyAgg hx)]
  simp only [SysvCursor.next, h, if_true, hgp, hsse]

/-- The placing loop moves the counters to the next argument. -/
theorem SysvCursor.place_snd (c : SysvCursor) (a : CallArg) :
  (c.place a).2 = c.next a.shape
  := by
  unfold place CallArg.shape
  cases a.byvalStructType with
  | some t =>
    dsimp only
    cases h : x86_64AggInRegs (x86_64ClassifyAgg t) c.ngp c.nsse with
    | false => simp [next, h]
    | true => simp [eightbytes_snd_eq_next h]
  | none =>
    dsimp only
    split
    · unfold next
      split <;> rfl
    · unfold next
      split <;> rfl

/-- The prologue moves the counters to the next parameter. -/
theorem SysvCursor.prologue_snd (c : SysvCursor) (p : SysvParam) :
  (c.prologue p).2 = c.next p.type.shape
  := by
  unfold prologue AstType.shape
  cases x86_64IsByvalStruct p.type with
  | true =>
    cases h : x86_64AggInRegs (x86_64ClassifyAgg p.type) c.ngp c.nsse with
    | false => simp [next, h]
    | true => simp [h, eightbytes_snd_eq_next h]
  | false =>
    simp only [Bool.not_false, if_true, Bool.false_eq_true, if_false]
    split
    · unfold next
      dsimp only
      split <;> rfl
    · unfold next
      dsimp only
      split <;> rfl

/-- The pre-pass ends with the counters of the placing loop. -/
theorem foldl_prepass (c : SysvCursor) (args : List CallArg) :
  args.foldl SysvCursor.prepass c = (placeArgs c args).2
  := by
  induction args generalizing c with
  | nil => rfl
  | cons a args ih =>
    rw [List.foldl_cons, ih, c.prepass_eq_next, ← c.place_snd]
    rfl

/-- The stack area that the pre-pass sizes is what the placing loop uses. -/
theorem nsaaTotal_eq_stackOff (retSt : Option AstType) (args : List CallArg) :
  (x86_64EmitSysvCall retSt args).nsaaTotal = (x86_64EmitSysvCall retSt args).stackOff
  := congrArg SysvCursor.off (foldl_prepass _ _)

/-! ### The callee takes what the caller placed -/

/-- A place as the callee sees it, above the return address and the saved frame pointer. -/
def ArgPlace.incoming : ArgPlace → ArgPlace
  | .stack off => .stack (16 + off)
  | p => p

/-- The callee takes a piece from where the caller put it, and no more of it. -/
def Taken (p q : ArgPiece) : Prop :=
  q.off = p.off ∧ q.place = p.place.incoming ∧ q.width ≤ p.width

/-- The parameter types that a call can pass: scalars of at most eight bytes and
aggregates. -/
def IsParamType (t : AstType) : Prop :=
  ¬ x86_64IsByvalStruct t → t.size ≤ 8 ∧ (t.kind = .float → t.size = 4 ∨ t.size = 8)

/-- The words of an aggregate on the stack are taken where they were put. -/
theorem taken_stackWords (size off : Nat) :
  List.Forall₂ Taken (stackWords size off) (stackWords size (16 + off))
  := by
  unfold stackWords
  rw [List.forall₂_map_left_iff, List.forall₂_map_right_iff, List.forall₂_same]
  intro k _
  exact ⟨rfl, by rw [ArgPlace.incoming, Nat.add_assoc], le_refl _⟩

/-- The eightbytes of an aggregate are taken where they were put. -/
theorem taken_eightbytes (size : Nat) (cls : List SysvClass) (e : Nat) (c : SysvCursor) :
  List.Forall₂ Taken (eightbytes size cls e c).1 (eightbytes size cls e c).1
  := by
  induction cls generalizing e c with
  | nil => apply List.Forall₂.nil
  | cons x cls ih =>
    unfold eightbytes
    split
    · exact .cons ⟨rfl, rfl, le_refl _⟩ (ih _ _)
    · exact .cons ⟨rfl, rfl, le_refl _⟩ (ih _ _)

/-- The prologue takes a parameter from where the placing loop put the argument. -/
theorem taken_prologue
    {p : SysvParam} {a : CallArg} (h : PassedAs p.type a) (ht : IsParamType p.type)
    (c : SysvCursor) :
  List.Forall₂ Taken (c.place a).1 (c.prologue p).1.pieces
  := by
  unfold PassedAs at h
  unfold SysvCursor.place SysvCursor.prologue SysvParam.arrival
  generalize p.type = t at h ht ⊢
  split at h
  · rename_i hb
    rw [h, hb]
    cases hr : x86_64AggInRegs (x86_64ClassifyAgg t) c.ngp c.nsse with
    | false => simpa [hr] using taken_stackWords t.size c.off
    | true => simpa [hr] using taken_eightbytes t.size _ 0 c
  · rename_i hb
    obtain ⟨ha, hc, hsize⟩ := h
    obtain ⟨hle, hf⟩ := ht hb
    have hb' : x86_64IsByvalStruct t = false := by simpa using hb
    simp only [ha, hb', hc, decide_eq_true_eq, Bool.not_false, if_true]
    split
    · rename_i hk
      rw [hsize hk]
      split
      · exact .cons ⟨rfl, rfl, le_refl _⟩ .nil
      · refine .cons ⟨rfl, rfl, ?_⟩ .nil
        obtain h4 | h8 := hf hk
        · simp [h4]
        · simp [h8]
    · split
      · exact .cons ⟨rfl, rfl, hle⟩ .nil
      · exact .cons ⟨rfl, rfl, hle⟩ .nil

/-- A place in the stack area. -/
def ArgPlace.isStack : ArgPlace → Bool
  | .stack _ => true
  | _ => false

/-- What the prologue copies of a parameter: all its pieces when the parameter has a slot and
is an aggregate or on the stack, and nothing else. -/
def SysvParam.Copies (p : SysvParam) (r : ParamArrival) : Prop :=
  r.copied =
    if p.hasSlot && (x86_64IsByvalStruct p.type || r.pieces.any (·.place.isStack)) then r.pieces
    else []

/-- The prologue copies the parameters that have no entry store. -/
theorem SysvCursor.copies_prologue (c : SysvCursor) (p : SysvParam) :
  p.Copies (c.prologue p).1
  := by
  unfold SysvParam.Copies prologue
  cases hb : x86_64IsByvalStruct p.type with
  | true =>
    cases hr : x86_64AggInRegs (x86_64ClassifyAgg p.type) c.ngp c.nsse <;>
      simp [hr, SysvParam.arrival]
  | false =>
    simp only [Bool.not_false, if_true, Bool.false_or]
    split
    · split <;> simp [SysvParam.arrival, ArgPlace.isStack]
    · split <;> simp [SysvParam.arrival, ArgPlace.isStack]

theorem copies_prologueParams (c : SysvCursor) (ps : List SysvParam) :
  List.Forall₂ SysvParam.Copies ps (prologueParams c ps)
  := by
  induction ps generalizing c with
  | nil => apply List.Forall₂.nil
  | cons p ps ih => exact .cons (c.copies_prologue p) (ih _)

/-- The prologue takes all parameters from where the placing loop put the arguments. -/
theorem taken_prologueParams
    {ps : List SysvParam} {args : List CallArg}
    (h : List.Forall₂ (fun p a => PassedAs p.type a) ps args)
    (hps : ∀ p ∈ ps, IsParamType p.type) (c : SysvCursor) :
  List.Forall₂ (fun x r => List.Forall₂ Taken x r.pieces) (placeArgs c args).1
    (prologueParams c ps)
  := by
  induction h generalizing c with
  | nil => apply List.Forall₂.nil
  | @cons p a ps args ha _ ih =>
    have hnext : (c.prologue p).2 = (c.place a).2 := by
      rw [c.prologue_snd, c.place_snd, ha.shape_eq]
    apply List.Forall₂.cons
    · apply taken_prologue ha (hps p List.mem_cons_self)
    · simp only [hnext]
      apply ih
      intro q hq
      apply hps q (List.mem_cons_of_mem p hq)

/-! ### Arguments are disjoint -/

/-- The registers and the bytes of the stack area. -/
inductive ArgCell where
  | gp (reg : Nat)
  | sse (reg : Nat)
  | byte (off : Nat)

/-- What a piece occupies. -/
def ArgPiece.cells (p : ArgPiece) : Set ArgCell :=
  match p.place with
  | .gp n => {.gp n}
  | .sse n => {.sse n}
  | .stack off => {x | ∃ b, off ≤ b ∧ b < off + p.width ∧ x = .byte b}

/-- What the pieces of an argument occupy. -/
def argCells (ps : List ArgPiece) : Set ArgCell := {x | ∃ p ∈ ps, x ∈ p.cells}

/-- What lies below the counters. -/
def SysvCursor.used (c : SysvCursor) : Set ArgCell := fun
  | .gp n => n < c.ngp
  | .sse n => n < c.nsse
  | .byte b => b < c.off

@[simp]
theorem SysvCursor.gp_mem_used {c : SysvCursor} {n : Nat} :
  ArgCell.gp n ∈ c.used ↔ n < c.ngp
  := Iff.rfl

@[simp]
theorem SysvCursor.sse_mem_used {c : SysvCursor} {n : Nat} :
  ArgCell.sse n ∈ c.used ↔ n < c.nsse
  := Iff.rfl

@[simp]
theorem SysvCursor.byte_mem_used {c : SysvCursor} {b : Nat} :
  ArgCell.byte b ∈ c.used ↔ b < c.off
  := Iff.rfl

/-- Counters that are no smaller have used no less. -/
theorem SysvCursor.used_mono
    {c d : SysvCursor} (hgp : c.ngp ≤ d.ngp) (hsse : c.nsse ≤ d.nsse) (hoff : c.off ≤ d.off) :
  c.used ⊆ d.used
  := by
  intro x hx
  cases x with
  | gp n => apply lt_of_lt_of_le hx hgp
  | sse n => apply lt_of_lt_of_le hx hsse
  | byte b => apply lt_of_lt_of_le hx hoff

/-- The counters never go back. -/
theorem SysvCursor.used_subset_next (c : SysvCursor) (s : ArgShape) :
  c.used ⊆ (c.next s).used
  := by
  cases s with
  | agg t =>
    unfold next
    dsimp only
    split <;> apply used_mono <;> simp
  | float =>
    unfold next
    dsimp only
    split <;> apply used_mono <;> simp
  | int =>
    unfold next
    dsimp only
    split <;> apply used_mono <;> simp

/-- Pieces that lie between two positions of the counters. -/
def Between (c d : SysvCursor) (ps : List ArgPiece) : Prop :=
  ∀ x ∈ argCells ps, x ∉ c.used ∧ x ∈ d.used

/-- A single piece in the next integer register. -/
theorem between_gp (c : SysvCursor) (off width : Nat) :
  Between c { c with ngp := c.ngp + 1 } [⟨off, width, .gp c.ngp⟩]
  := by
  rintro x ⟨p, hp, hx⟩
  obtain rfl := List.mem_singleton.mp hp
  obtain rfl : x = .gp c.ngp := hx
  simp

/-- A single piece in the next floating-point register. -/
theorem between_sse (c : SysvCursor) (off width : Nat) :
  Between c { c with nsse := c.nsse + 1 } [⟨off, width, .sse c.nsse⟩]
  := by
  rintro x ⟨p, hp, hx⟩
  obtain rfl := List.mem_singleton.mp hp
  obtain rfl : x = .sse c.nsse := hx
  simp

/-- A single piece in the next word of the stack. -/
theorem between_stack (c : SysvCursor) (off : Nat) {width : Nat} (h : width ≤ 8) :
  Between c { c with off := c.off + 8 } [⟨off, width, .stack c.off⟩]
  := by
  rintro x ⟨p, hp, hx⟩
  obtain rfl := List.mem_singleton.mp hp
  obtain ⟨b, hlo, hhi, rfl⟩ := hx
  dsimp only at hlo hhi
  simp only [SysvCursor.byte_mem_used]
  omega

/-- The words of an aggregate lie in its stack area. -/
theorem between_stackWords (c : SysvCursor) (size : Nat) :
  Between c { c with off := c.off + alignTo8 size } (stackWords size c.off)
  := by
  rintro x ⟨p, hp, hx⟩
  obtain ⟨k, hk, rfl⟩ := List.mem_map.mp hp
  obtain ⟨b, hlo, hhi, rfl⟩ := hx
  have hk := List.mem_range.mp hk
  dsimp only at hlo hhi
  simp only [SysvCursor.byte_mem_used, alignTo8]
  omega

/-- Pieces between two positions, followed by pieces from the second position on. -/
theorem Between.cons
    {c d e : SysvCursor} {p : ArgPiece} {ps : List ArgPiece} (hp : Between c d [p])
    (hps : Between d e ps) (hcd : c.used ⊆ d.used) (hde : d.used ⊆ e.used) :
  Between c e (p :: ps)
  := by
  rintro x ⟨q, hq, hx⟩
  obtain rfl | hq := List.mem_cons.mp hq
  · obtain ⟨hc, hd⟩ := hp x ⟨q, List.mem_singleton_self q, hx⟩
    exact ⟨hc, hde hd⟩
  · obtain ⟨hd, he⟩ := hps x ⟨q, hq, hx⟩
    exact ⟨fun hc => hd (hcd hc), he⟩

/-- The eightbytes of an aggregate lie in the registers that it takes. -/
theorem between_eightbytes (size : Nat) (cls : List SysvClass) (e : Nat) (c : SysvCursor) :
  Between c (eightbytes size cls e c).2 (eightbytes size cls e c).1
    ∧ c.used ⊆ (eightbytes size cls e c).2.used
  := by
  induction cls generalizing e c with
  | nil =>
    constructor
    · rintro x ⟨p, hp, -⟩
      cases hp
    · apply subset_rfl
  | cons x cls ih =>
    unfold eightbytes
    split
    · obtain ⟨hb, hs⟩ := ih (e + 1) { c with nsse := c.nsse + 1 }
      have hc : c.used ⊆ SysvCursor.used { c with nsse := c.nsse + 1 } :=
        SysvCursor.used_mono (le_refl _) (Nat.le_succ _) (le_refl _)
      exact ⟨(between_sse c _ _).cons hb hc hs, hc.trans hs⟩
    · obtain ⟨hb, hs⟩ := ih (e + 1) { c with ngp := c.ngp + 1 }
      have hc : c.used ⊆ SysvCursor.used { c with ngp := c.ngp + 1 } :=
        SysvCursor.used_mono (Nat.le_succ _) (le_refl _) (le_refl _)
      exact ⟨(between_gp c _ _).cons hb hc hs, hc.trans hs⟩

/-- The pieces of an argument lie between the counters before and after it. -/
theorem SysvCursor.between_place (c : SysvCursor) (a : CallArg) :
  Between c (c.place a).2 (c.place a).1
  := by
  unfold place
  split
  · dsimp only
    split
    · apply between_stackWords
    · apply (between_eightbytes _ _ _ _).1
  · split
    · split
      · apply between_sse
      · apply between_stack
        split <;> omega
    · split
      · apply between_gp
      · apply between_stack c 0 (le_refl 8)

/-- The allocation of registers and stack bytes to the arguments of a call. -/
def sysvAllocator : Allocator SysvCursor CallArg ArgCell where
  step c a := (c.place a).2
  region c a := argCells (c.place a).1
  used := SysvCursor.used
  fresh c a := Set.disjoint_right.mpr fun x hx => (c.between_place a x hx).1
  used_step c a := by
    apply Set.union_subset
    · rw [c.place_snd]
      apply c.used_subset_next
    · intro x hx
      apply (c.between_place a x hx).2

/-- The placing loop is the walk of the allocator. -/
theorem placeArgs_eq_sysvAllocator (c : SysvCursor) (args : List CallArg) :
  (placeArgs c args).1.map argCells = sysvAllocator.regions c args
    ∧ (placeArgs c args).2 = sysvAllocator.final c args
  := by
  induction args generalizing c with
  | nil => exact ⟨rfl, rfl⟩
  | cons a args ih =>
    obtain ⟨h1, h2⟩ := ih (c.place a).2
    exact ⟨congrArg (argCells (c.place a).1 :: ·) h1, h2⟩

/-- The counters of registers stay within the registers. -/
theorem SysvCursor.next_le
    {c : SysvCursor} (hgp : c.ngp ≤ 6) (hsse : c.nsse ≤ 8) (s : ArgShape) :
  (c.next s).ngp ≤ 6 ∧ (c.next s).nsse ≤ 8
  := by
  cases s with
  | agg t =>
    unfold next
    dsimp only
    split
    · rename_i h
      simp only [x86_64AggInRegs, Bool.and_eq_true, decide_eq_true_eq] at h
      exact ⟨h.1.2, h.2⟩
    · exact ⟨hgp, hsse⟩
  | float =>
    unfold next
    dsimp only
    split
    · exact ⟨hgp, by dsimp only; omega⟩
    · exact ⟨hgp, hsse⟩
  | int =>
    unfold next
    dsimp only
    split
    · exact ⟨by dsimp only; omega, hsse⟩
    · exact ⟨hgp, hsse⟩

/-- The placing loop uses six integer and eight floating-point registers at most. -/
theorem placeArgs_le
    {c : SysvCursor} (hgp : c.ngp ≤ 6) (hsse : c.nsse ≤ 8) (args : List CallArg) :
  (placeArgs c args).2.ngp ≤ 6 ∧ (placeArgs c args).2.nsse ≤ 8
  := by
  induction args generalizing c with
  | nil => exact ⟨hgp, hsse⟩
  | cons a args ih =>
    have hnext := c.next_le hgp hsse a.shape
    rw [← c.place_snd] at hnext
    apply ih hnext.1 hnext.2

/-! ### The calling convention -/

/-- The arguments that are passed: the hidden pointer first, for an indirect result. -/
def passedArgs (rettype : Option AstType) (args : List CallArg) : List CallArg :=
  if irRetIsIndirect rettype then { type := .ptr, byteSize := 8 } :: args else args

/-- A call passes the hidden pointer exactly for an indirect result. -/
theorem sysvCall_eq (rettype : Option AstType) (args : List CallArg) :
  (sysvCall rettype args).pieces = (placeArgs ⟨0, 0, 0⟩ (passedArgs rettype args)).1
    ∧ (sysvCall rettype args).stackOff = (placeArgs ⟨0, 0, 0⟩ (passedArgs rettype args)).2.off
  := by
  have hpassed : (irFnCallToArgs rettype args).drop
      (if (if irRetTypeIsAggregate rettype then rettype else none).any (fun t => t.size ≤ 16)
        then 1 else 0) = passedArgs rettype args := by
    unfold irFnCallToArgs passedArgs irRetIsIndirect
    cases rettype with
    | none => rfl
    | some rt =>
      cases irRetTypeIsAggregate (some rt) with
      | false => rfl
      | true =>
        by_cases hsize : rt.size ≤ 16
        · simp [hsize]
        · simp [hsize, Nat.lt_of_not_le hsize]
  simp only [sysvCall, x86_64EmitSysvCall, hpassed, and_self]

/-- The prologue reserves the first register exactly for an indirect result. -/
theorem x86_64EmitSysvParamPrologue_eq (rettype : Option AstType) (ps : List SysvParam) :
  x86_64EmitSysvParamPrologue rettype ps
    = prologueParams ⟨if irRetIsIndirect rettype then 1 else 0, 0, 0⟩ ps
  := by
  have hhidden : (rettype.any fun rt => x86_64IsByvalStruct rt && decide (16 < rt.size))
      = irRetIsIndirect rettype := by
    cases rettype with
    | none => rfl
    | some rt =>
      by_cases hsize : 16 < rt.size
      · simp [irRetIsIndirect, irRetTypeIsAggregate, hsize, Nat.zero_lt_of_lt hsize]
      · simp [irRetIsIndirect, hsize]
  unfold x86_64EmitSysvParamPrologue
  rw [hhidden]

/-- The pieces of the arguments that correspond to parameters. -/
def SysvCall.paramPieces (call : SysvCall) (rettype : Option AstType) : List (List ArgPiece) :=
  if irRetIsIndirect rettype then call.pieces.drop 1 else call.pieces

/-- `class {F64 x; I64 y;}`. -/
def mixedClass : AstType :=
  .class 16 0 false [.scalar .float 8 0, .scalar .int 8 8]

/-- `class {I64 z[3];}`. -/
def largeClass : AstType :=
  .class 24 0 false [.array 24 0 3 (.scalar .int 8 0)]

/-- The parameters of `F(I64 a, mixedClass b, F64 c, largeClass d)`, of which `b` and `d` are
used. -/
def mixedParams : List SysvParam :=
  [⟨.scalar .int 8 0, false⟩, ⟨mixedClass, true⟩, ⟨.scalar .float 8 0, false⟩,
   ⟨largeClass, true⟩]

/-- Arguments for `F`. -/
def mixedArgs : List CallArg :=
  [⟨.i64, 8, none⟩, ⟨.ptr, 8, some mixedClass⟩, ⟨.f64, 8, none⟩, ⟨.ptr, 8, some largeClass⟩]

end Polyc
