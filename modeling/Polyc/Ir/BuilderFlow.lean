import Mathlib.Data.Set.Insert
import Polyc.Ir.LowerExprCorrect
import Polyc.Ir.ScanStmt

/-!
# Control flow under construction

An invariant of the lowering about the blocks of a function: which of them an instruction
names, how often a block is in the list of blocks, and how a block ends.  Blocks that have
been made and not added are pending, or belong to a label.  Only the block of a label can be
named without ever being added, or be added twice.
-/

namespace Polyc

open IrCtx

/-! ### Blocks in instructions -/

/-- The blocks that a terminator or a phi names. -/
def IrInstr.blockNames (I : IrInstr) : List Nat :=
  match I.op with
  | .jmp => [I.targetBlock]
  | .br | .cmpBr => [I.targetBlock, I.fallthroughBlock]
  | .phi => I.phiPairs.map (·.irBlock)
  | _ => []

/-- The opcodes that end a block. -/
def IrOp.terminates : IrOp → Bool
  | .jmp | .br | .cmpBr | .ret => true
  | _ => false

/-- A call that does not come back. -/
def IrInstr.throws (I : IrInstr) : Bool :=
  I.op = .call ∧ I.r1 = some (callWrapper FnCtx.hccThrow)

/-- The instructions of a block that has an end and nothing after it. -/
def Closes (l : List IrInstr) : Prop :=
  ∃ before I, l = before ++ [I] ∧ (I.op.terminates ∨ I.throws)
    ∧ ∀ J ∈ before, J.op.terminates = false

/-! ### The invariant -/

/-- The blocks in `P` are pending, those in `L` belong to labels, and those in `N` are the ones
of them that are named. -/
structure FlowInv (P L N : Set Nat) (c : IrCtx) : Prop where
  ok : c.Ok
  pending : ∀ p ∈ P, p < c.blockId ∧ p ∉ c.blocks ∧ p ∉ L
  label_lt : ∀ id ∈ L, id < c.blockId
  empty : ∀ id, id ∉ c.blocks → id < c.blockId → c.code id = [] ∧ c.sealed id = false
  once : ∀ id ∈ c.blocks, id ∉ L → c.blocks.count id = 1
  known : ∀ b ∈ c.blocks, ∀ I ∈ c.code b, ∀ id ∈ I.blockNames,
    id ∈ P ∨ id ∈ c.blocks ∧ id ∉ L ∨ id ∈ N
  named : ∀ id ∈ N, id ∈ L ∧ ∃ b ∈ c.blocks, ∃ I ∈ c.code b, id ∈ I.blockNames
  closed : ∀ b ∈ c.blocks, c.sealed b = true → Closes (c.code b)
  «open» : ∀ b ∈ c.blocks, c.sealed b = false → ∀ I ∈ c.code b, I.op.terminates = false
  left : ∀ b ∈ c.blocks, b ≠ c.curBlock → c.sealed b = true

/-- A block that is pending or has been added, without a label. -/
def Known (P L : Set Nat) (c : IrCtx) (id : Nat) : Prop := id ∈ P ∨ id ∈ c.blocks ∧ id ∉ L

namespace FlowInv

variable {P L N : Set Nat} {c c' : IrCtx}

/-- A change of the counters. -/
theorem of_eq
    (h : FlowInv P L N c) (hblock : c'.blockId = c.blockId) (hcode : c'.code = c.code)
    (hsealed : c'.sealed = c.sealed) (hblocks : c'.blocks = c.blocks)
    (hcur : c'.curBlock = c.curBlock) :
  FlowInv P L N c'
  := by
  cases c
  cases c'
  cases hblock
  cases hcode
  cases hsealed
  cases hblocks
  cases hcur
  exact ⟨⟨h.ok.cur_mem, h.ok.lt⟩, h.pending, h.label_lt, h.empty, h.once, h.known, h.named,
    h.closed, h.open, h.left⟩

/-- A new block is pending. -/
theorem irBlockNew (h : FlowInv P L N c) :
  FlowInv (insert c.blockId P) L N c.irBlockNew.2
  := by
  have hcode : ∀ id ∈ c.blocks, c.irBlockNew.2.code id = c.code id := by
    intro id hid
    apply Function.update_of_ne (h.ok.lt id hid).ne
  have hsealed : ∀ id ∈ c.blocks, c.irBlockNew.2.sealed id = c.sealed id := by
    intro id hid
    apply Function.update_of_ne (h.ok.lt id hid).ne
  constructor
  case ok => exact ⟨h.ok.cur_mem, fun id hid => (h.ok.lt id hid).trans (Nat.lt_succ_self _)⟩
  case pending =>
    rintro p (rfl | hp)
    · exact ⟨Nat.lt_succ_self _, fun hmem => (h.ok.lt _ hmem).false,
        fun hmem => (h.label_lt _ hmem).false⟩
    · obtain ⟨hlt, hblocks, hlabel⟩ := h.pending p hp
      exact ⟨hlt.trans (Nat.lt_succ_self _), hblocks, hlabel⟩
  case label_lt =>
    intro id hid
    apply (h.label_lt id hid).trans (Nat.lt_succ_self _)
  case empty =>
    intro id hid hlt
    by_cases hnew : id = c.blockId
    · rw [hnew]
      exact ⟨Function.update_self .., Function.update_self ..⟩
    · have hlt : id < c.blockId := by
        change id < c.blockId + 1 at hlt
        omega
      have hold := h.empty id hid hlt
      exact ⟨(Function.update_of_ne hnew _ _).trans hold.1,
        (Function.update_of_ne hnew _ _).trans hold.2⟩
  case once => apply h.once
  case known =>
    intro b hb I hI id hid
    rw [hcode b hb] at hI
    rcases h.known b hb I hI id hid with hp | hblocks | hn
    · exact .inl (.inr hp)
    · exact .inr (.inl hblocks)
    · exact .inr (.inr hn)
  case named =>
    intro id hid
    obtain ⟨hlabel, b, hb, I, hI, hname⟩ := h.named id hid
    use hlabel, b, hb, I
    rw [hcode b hb]
    exact ⟨hI, hname⟩
  case closed =>
    intro b hb hs
    rw [hsealed b hb] at hs
    rw [hcode b hb]
    apply h.closed b hb hs
  case «open» =>
    intro b hb hs
    rw [hsealed b hb] at hs
    rw [hcode b hb]
    apply h.open b hb hs
  case left =>
    intro b hb hne
    rw [hsealed b hb]
    apply h.left b hb hne

/-- A new block is the block of a label. -/
theorem irBlockNewLabel (h : FlowInv P L N c) :
  FlowInv P (insert c.blockId L) N c.irBlockNew.2
  := by
  have hnew := h.irBlockNew
  have hcode : ∀ id ∈ c.blocks, c.irBlockNew.2.code id = c.code id := by
    intro id hid
    apply Function.update_of_ne (h.ok.lt id hid).ne
  constructor
  case ok => apply hnew.ok
  case pending =>
    intro p hp
    obtain ⟨hlt, hblocks, hlabel⟩ := hnew.pending p (.inr hp)
    use hlt, hblocks
    rintro (rfl | hmem)
    · exact ((h.pending _ hp).1).false
    · apply hlabel hmem
  case label_lt =>
    rintro id (rfl | hid)
    · apply Nat.lt_succ_self
    · apply hnew.label_lt id hid
  case empty => apply hnew.empty
  case once =>
    intro id hid hlabel
    apply h.once id hid
    intro hmem
    apply hlabel (.inr hmem)
  case known =>
    intro b hb I hI id hid
    rw [hcode b hb] at hI
    rcases h.known b hb I hI id hid with hp | ⟨hmem, hlabel⟩ | hn
    · exact .inl hp
    · refine .inr (.inl ⟨hmem, ?_⟩)
      rintro (rfl | hmem')
      · exact (h.ok.lt _ hmem).false
      · apply hlabel hmem'
    · exact .inr (.inr hn)
  case named =>
    intro id hid
    obtain ⟨hlabel, hrest⟩ := hnew.named id hid
    exact ⟨.inr hlabel, hrest⟩
  case closed => apply hnew.closed
  case «open» => apply hnew.open
  case left => apply hnew.left

/-- A change of the current block, which has not been sealed before. -/
theorem edit
    {N' : Set Nat} {l : List IrInstr} (h : FlowInv P L N c)
    (hblock : c'.blockId = c.blockId) (hblocks : c'.blocks = c.blocks)
    (hcur : c'.curBlock = c.curBlock) (hcode : c'.code = Function.update c.code c.curBlock l)
    (hsealed : ∀ id, id ≠ c.curBlock → c'.sealed id = c.sealed id)
    (hclosed : c'.sealed c.curBlock = true → Closes l)
    (hopen : c'.sealed c.curBlock = false → ∀ I ∈ l, I.op.terminates = false)
    (hknown : ∀ I ∈ l, ∀ id ∈ I.blockNames, Known P L c id ∨ id ∈ N') (hsub : N ⊆ N')
    (hnew : ∀ id ∈ N', id ∉ N → id ∈ L ∧ ∃ I ∈ l, id ∈ I.blockNames)
    (hkeep : ∀ I ∈ c.instructions, ∀ id ∈ I.blockNames, ∃ J ∈ l, id ∈ J.blockNames) :
  FlowInv P L N' c'
  := by
  have hself : c'.code c.curBlock = l := by
    rw [hcode]
    apply Function.update_self
  have hother : ∀ id, id ≠ c.curBlock → c'.code id = c.code id := by
    intro id hid
    rw [hcode]
    apply Function.update_of_ne hid
  constructor
  case ok =>
    constructor
    · rw [hblocks, hcur]
      apply h.ok.cur_mem
    · rw [hblocks, hblock]
      apply h.ok.lt
  case pending =>
    rw [hblock, hblocks]
    apply h.pending
  case label_lt =>
    rw [hblock]
    apply h.label_lt
  case empty =>
    rw [hblock, hblocks]
    intro id hid hlt
    have hne : id ≠ c.curBlock := by
      rintro rfl
      apply hid h.ok.cur_mem
    rw [hother id hne, hsealed id hne]
    apply h.empty id hid hlt
  case once =>
    rw [hblocks]
    apply h.once
  case known =>
    rw [hblocks]
    intro b hb I hI id hid
    by_cases hbcur : b = c.curBlock
    · rw [hbcur, hself] at hI
      rcases hknown I hI id hid with (hp | hmem) | hn
      · exact .inl hp
      · exact .inr (.inl hmem)
      · exact .inr (.inr hn)
    · rw [hother b hbcur] at hI
      rcases h.known b hb I hI id hid with hp | hmem | hn
      · exact .inl hp
      · exact .inr (.inl hmem)
      · exact .inr (.inr (hsub hn))
  case named =>
    rw [hblocks]
    intro id hid
    by_cases hold : id ∈ N
    · obtain ⟨hlabel, b, hb, I, hI, hname⟩ := h.named id hold
      use hlabel, b, hb
      by_cases hbcur : b = c.curBlock
      · rw [hbcur] at hI ⊢
        rw [hself]
        apply hkeep I hI id hname
      · rw [hother b hbcur]
        use I
    · obtain ⟨hlabel, I, hI, hname⟩ := hnew id hid hold
      use hlabel, c.curBlock, h.ok.cur_mem, I
      rw [hself]
      exact ⟨hI, hname⟩
  case closed =>
    rw [hblocks]
    intro b hb hs
    by_cases hbcur : b = c.curBlock
    · rw [hbcur] at hs ⊢
      rw [hself]
      apply hclosed hs
    · rw [hsealed b hbcur] at hs
      rw [hother b hbcur]
      apply h.closed b hb hs
  case «open» =>
    rw [hblocks]
    intro b hb hs
    by_cases hbcur : b = c.curBlock
    · rw [hbcur] at hs ⊢
      rw [hself]
      apply hopen hs
    · rw [hsealed b hbcur] at hs
      rw [hother b hbcur]
      apply h.open b hb hs
  case left =>
    rw [hblocks, hcur]
    intro b hb hne
    rw [hsealed b hne]
    apply h.left b hb hne

/-- An instruction that does not end the block. -/
theorem add
    {N' : Set Nat} {I : IrInstr} (h : FlowInv P L N c) (hlive : c.sealed c.curBlock = false)
    (hI : I.op.terminates = false) (hknown : ∀ id ∈ I.blockNames, Known P L c id ∨ id ∈ N')
    (hsub : N ⊆ N') (hnew : ∀ id ∈ N', id ∉ N → id ∈ L ∧ id ∈ I.blockNames) :
  FlowInv P L N' (c.irBlockAddInstr I)
  := by
  have hnone : ∀ J ∈ c.instructions ++ [I], J.op.terminates = false := by
    intro J hJ
    rcases List.mem_append.mp hJ with hJ | hJ
    · apply h.open _ h.ok.cur_mem hlive J hJ
    · rw [List.mem_singleton.mp hJ]
      apply hI
  have hblock : (c.irBlockAddInstr I).blockId = c.blockId := rfl
  apply h.edit hblock rfl rfl rfl
  · intro _ _
    rfl
  · intro hs
    change c.sealed c.curBlock = true at hs
    rw [hlive] at hs
    cases hs
  · intro _
    apply hnone
  · intro J hJ id hid
    rcases List.mem_append.mp hJ with hJ | hJ
    · rcases h.known _ h.ok.cur_mem J hJ id hid with hp | hmem | hn
      · exact .inl (.inl hp)
      · exact .inl (.inr hmem)
      · exact .inr (hsub hn)
    · rw [List.mem_singleton.mp hJ] at hid
      apply hknown id hid
  · apply hsub
  · intro id hid hold
    use (hnew id hid hold).1, I, by simp, (hnew id hid hold).2
  · intro J hJ id hid
    use J, List.mem_append_left _ hJ

/-- An instruction that ends the block. -/
theorem addSeal
    {N' : Set Nat} {I : IrInstr} (h : FlowInv P L N c) (hlive : c.sealed c.curBlock = false)
    (hI : I.op.terminates ∨ I.throws)
    (hknown : ∀ id ∈ I.blockNames, Known P L c id ∨ id ∈ N') (hsub : N ⊆ N')
    (hnew : ∀ id ∈ N', id ∉ N → id ∈ L ∧ id ∈ I.blockNames) :
  FlowInv P L N' (c.irBlockAddInstr I).sealCur
  := by
  have hblock : (c.irBlockAddInstr I).sealCur.blockId = c.blockId := rfl
  apply h.edit hblock rfl rfl rfl
  · intro id hid
    apply Function.update_of_ne hid
  · intro _
    use c.instructions, I, rfl, hI
    apply h.open _ h.ok.cur_mem hlive
  · intro hs
    have hself : (c.irBlockAddInstr I).sealCur.sealed c.curBlock = true :=
      Function.update_self ..
    rw [hself] at hs
    cases hs
  · intro J hJ id hid
    rcases List.mem_append.mp hJ with hJ | hJ
    · rcases h.known _ h.ok.cur_mem J hJ id hid with hp | hmem | hn
      · exact .inl (.inl hp)
      · exact .inl (.inr hmem)
      · exact .inr (hsub hn)
    · rw [List.mem_singleton.mp hJ] at hid
      apply hknown id hid
  · apply hsub
  · intro id hid hold
    use (hnew id hid hold).1, I, by simp, (hnew id hid hold).2
  · intro J hJ id hid
    use J, List.mem_append_left _ hJ

/-- A pending block or the block of a label is added, after the current block has been
sealed. -/
theorem irFnAddBlock
    {p : Nat} {P' : Set Nat} (h : FlowInv P' L N c) (hsealed : c.sealed c.curBlock = true)
    (hP : ∀ id, id ∈ P' ↔ id ∈ P ∨ id = p ∧ p ∉ L) (hp : p ∉ P) (hlt : p < c.blockId)
    (honce : p ∉ L → p ∉ c.blocks) :
  FlowInv P L N (c.irFnAddBlock p)
  := by
  constructor
  case ok =>
    constructor
    · apply List.mem_append_right
      apply List.mem_singleton_self
    · intro id hid
      rcases List.mem_append.mp hid with hid | hid
      · apply h.ok.lt id hid
      · rw [List.mem_singleton.mp hid]
        apply hlt
  case pending =>
    intro id hid
    obtain ⟨hlt, hblocks, hlabel⟩ := h.pending id ((hP id).mpr (.inl hid))
    use hlt
    constructor
    · intro hmem
      rcases List.mem_append.mp hmem with hmem | hmem
      · apply hblocks hmem
      · apply hp
        rw [← List.mem_singleton.mp hmem]
        apply hid
    · apply hlabel
  case label_lt => apply h.label_lt
  case empty =>
    intro id hid
    apply h.empty id
    intro hmem
    apply hid (List.mem_append_left _ hmem)
  case once =>
    intro id hid hlabel
    change (c.blocks ++ [p]).count id = 1
    rw [List.count_append]
    rcases List.mem_append.mp hid with hmem | hmem
    · have hne : id ≠ p := by
        intro heq
        apply honce (heq ▸ hlabel) (heq ▸ hmem)
      rw [h.once id hmem hlabel, List.count_eq_zero_of_not_mem (by simpa using hne)]
    · rw [List.mem_singleton.mp hmem] at hlabel ⊢
      rw [List.count_eq_zero_of_not_mem (honce hlabel)]
      simp
  case known =>
    intro b hb I hI id hid
    have hcases : b ∈ c.blocks ∨ b = p := by simpa [IrCtx.irFnAddBlock] using hb
    have hmem : ∀ b ∈ c.blocks, I ∈ c.code b →
        id ∈ P ∨ id ∈ (c.irFnAddBlock p).blocks ∧ id ∉ L ∨ id ∈ N := by
      intro b hb hI
      rcases h.known b hb I hI id hid with hpend | ⟨hmem, hlabel⟩ | hn
      · rcases (hP id).mp hpend with hpend | ⟨rfl, hlabel⟩
        · exact .inl hpend
        · exact .inr (.inl ⟨List.mem_append_right _ (List.mem_singleton_self _), hlabel⟩)
      · exact .inr (.inl ⟨List.mem_append_left _ hmem, hlabel⟩)
      · exact .inr (.inr hn)
    by_cases hb' : b ∈ c.blocks
    · apply hmem b hb' hI
    · have hlt' : b < c.blockId := by
        rw [hcases.resolve_left hb']
        apply hlt
      have hnil : c.code b = [] := (h.empty b hb' hlt').1
      change I ∈ c.code b at hI
      rw [hnil] at hI
      cases hI
  case named =>
    intro id hid
    obtain ⟨hlabel, b, hb, I, hI, hname⟩ := h.named id hid
    exact ⟨hlabel, b, List.mem_append_left _ hb, I, hI, hname⟩
  case closed =>
    intro b hb hs
    by_cases hb' : b ∈ c.blocks
    · apply h.closed b hb' hs
    · have hcases : b ∈ c.blocks ∨ b = p := by simpa [IrCtx.irFnAddBlock] using hb
      have hopen := (h.empty b hb' (hcases.resolve_left hb' ▸ hlt)).2
      change c.sealed b = true at hs
      rw [hopen] at hs
      cases hs
  case «open» =>
    intro b hb hs
    by_cases hb' : b ∈ c.blocks
    · apply h.open b hb' hs
    · have hcases : b ∈ c.blocks ∨ b = p := by simpa [IrCtx.irFnAddBlock] using hb
      have hnil := (h.empty b hb' (hcases.resolve_left hb' ▸ hlt)).1
      intro I hI
      change I ∈ c.code b at hI
      rw [hnil] at hI
      cases hI
  case left =>
    intro b hb hne
    have hcases : b ∈ c.blocks ∨ b = p := by simpa [IrCtx.irFnAddBlock] using hb
    have hb' := hcases.resolve_right hne
    by_cases hcur : b = c.curBlock
    · rw [hcur]
      apply hsealed
    · apply h.left b hb' hcur

/-- A pending block is added. -/
theorem addPending
    {p : Nat} (h : FlowInv (insert p P) L N c) (hsealed : c.sealed c.curBlock = true)
    (hp : p ∉ P) :
  FlowInv P L N (c.irFnAddBlock p) ∧ (c.irFnAddBlock p).sealed p = false
  := by
  obtain ⟨hlt, hblocks, hlabel⟩ := h.pending p (Set.mem_insert p P)
  constructor
  · apply h.irFnAddBlock hsealed _ hp hlt
    · intro _
      apply hblocks
    · intro id
      rw [Set.mem_insert_iff]
      tauto
  · apply (h.empty p hblocks hlt).2

end FlowInv

/-! ### Steps inside a block -/

/-- A step between two places that are not sealed.  If it makes blocks, a phi names the block
that it starts in, and it ends in a block without a label. -/
structure FlowStep (P L N : Set Nat) (branches : Bool) (c c' : IrCtx) : Prop where
  flow : FlowInv P L (N ∪ {id | branches = true ∧ id = c.curBlock ∧ id ∈ L}) c'
  live : c'.sealed c'.curBlock = false
  stays : branches = false → c'.curBlock = c.curBlock
  moves : branches = true → c'.curBlock ∉ L
  count : ∀ id ∈ L, c'.blocks.count id = c.blocks.count id
  mono : ∀ id ∈ c.blocks, id ∈ c'.blocks
  blockId_le : c.blockId ≤ c'.blockId

namespace FlowStep

variable {P L N : Set Nat} {b b' : Bool} {c c' c'' : IrCtx}

/-- A step that makes no blocks. -/
theorem of_flow
    (h : FlowInv P L N c') (hlive : c'.sealed c'.curBlock = false)
    (hcur : c'.curBlock = c.curBlock) (hblocks : c'.blocks = c.blocks)
    (hblock : c.blockId = c'.blockId) :
  FlowStep P L N false c c'
  := by
  have hset : N ∪ {id | false = true ∧ id = c.curBlock ∧ id ∈ L} = N := by simp
  constructor
  case flow =>
    rw [hset]
    apply h
  case live => apply hlive
  case stays =>
    intro _
    apply hcur
  case moves => nofun
  case count =>
    intro id _
    rw [hblocks]
  case mono =>
    intro id hid
    rw [hblocks]
    apply hid
  case blockId_le => apply hblock.le

/-- One step after another. -/
theorem trans
    (h : FlowStep P L N b c c')
    (h' : ∀ N', FlowInv P L N' c' → c'.sealed c'.curBlock = false →
      FlowStep P L N' b' c' c'') :
  FlowStep P L N (b || b') c c''
  := by
  have h₂ := h' _ h.flow h.live
  constructor
  case flow =>
    have hset : N ∪ {id | b = true ∧ id = c.curBlock ∧ id ∈ L}
        ∪ {id | b' = true ∧ id = c'.curBlock ∧ id ∈ L}
        = N ∪ {id | (b || b') = true ∧ id = c.curBlock ∧ id ∈ L} := by
      ext id
      cases b with
      | false =>
        have := h.stays rfl
        simp [this]
      | true =>
        have hmoves := h.moves rfl
        have : ¬ (b' = true ∧ id = c'.curBlock ∧ id ∈ L) := by
          rintro ⟨-, rfl, hid⟩
          apply hmoves hid
        simp [this]
    rw [← hset]
    apply h₂.flow
  case live => apply h₂.live
  case stays =>
    intro hb
    obtain ⟨hb, hb'⟩ := Bool.or_eq_false_iff.mp hb
    rw [h₂.stays hb', h.stays hb]
  case moves =>
    intro hb
    cases hb' : b' with
    | true => apply h₂.moves hb'
    | false =>
      rw [h₂.stays hb']
      apply h.moves
      simpa [hb'] using hb
  case count =>
    intro id hid
    rw [h₂.count id hid, h.count id hid]
  case mono =>
    intro id hid
    apply h₂.mono id (h.mono id hid)
  case blockId_le => apply h.blockId_le.trans h₂.blockId_le

/-- A step that makes no blocks, after another one. -/
theorem andThen
    (h : FlowStep P L N b c c')
    (h' : ∀ N', FlowInv P L N' c' → c'.sealed c'.curBlock = false →
      FlowStep P L N' false c' c'') :
  FlowStep P L N b c c''
  := by
  rw [← Bool.or_false b]
  apply h.trans h'

/-- A change of the counters. -/
theorem of_eq
    (h : FlowInv P L N c) (hlive : c.sealed c.curBlock = false)
    (hblock : c'.blockId = c.blockId) (hcode : c'.code = c.code)
    (hsealed : c'.sealed = c.sealed) (hblocks : c'.blocks = c.blocks)
    (hcur : c'.curBlock = c.curBlock) :
  FlowStep P L N false c c'
  := by
  apply of_flow (h.of_eq hblock hcode hsealed hblocks hcur) _ hcur hblocks hblock.symm
  rw [hsealed, hcur]
  apply hlive

/-- A temporary. -/
theorem irTmp
    (h : FlowInv P L N c) (hlive : c.sealed c.curBlock = false) (type : IrValueType)
    (size : Nat) :
  FlowStep P L N false c (c.irTmp type size).2
  := of_eq h hlive rfl rfl rfl rfl rfl

/-- An instruction that names no block. -/
theorem add
    (h : FlowInv P L N c) (hlive : c.sealed c.curBlock = false) {I : IrInstr}
    (hI : I.op.terminates = false) (hnames : I.blockNames = []) :
  FlowStep P L N false c (c.irBlockAddInstr I)
  := by
  have hflow : FlowInv P L N (c.irBlockAddInstr I) := by
    apply h.add hlive hI
    · rw [hnames]
      nofun
    · apply subset_refl
    · intro id hid hold
      cases hold hid
  exact of_flow hflow hlive rfl rfl rfl

/-- An instruction that computes a value. -/
theorem compute
    (h : FlowInv P L N c) (hlive : c.sealed c.curBlock = false) (type : IrValueType)
    {I : IrInstr} (hI : I.op.terminates = false) (hnames : I.blockNames = []) :
  FlowStep P L N false c (c.compute type I).2
  := by
  apply (irTmp h hlive type 8).trans
  intro N' h' hlive'
  apply add h' hlive' (I := { I with dst := (c.irTmp type 8).1 }) hI hnames

/-- A comparison with a constant. -/
theorem icmp
    (h : FlowInv P L N c) (hlive : c.sealed c.curBlock = false) (type : IrValueType)
    (size : Nat) (val : IrValue) (num : Word) (cmpKind : IrCmpKind) :
  FlowStep P L N false c
    (((c.irTmp type size).2.irConstInt .i64 num).2.irBlockAddInstr
      { op := .icmp, dst := (c.irTmp type size).1, r1 := val
        r2 := ((c.irTmp type size).2.irConstInt .i64 num).1, cmpKind := cmpKind })
  := by
  have hcounters : FlowStep P L N false c ((c.irTmp type size).2.irConstInt .i64 num).2 :=
    of_eq h hlive rfl rfl rfl rfl rfl
  apply hcounters.andThen
  intro N' h' hlive'
  apply add h' hlive' rfl rfl

end FlowStep

/-- What `lower` does to the blocks of every context. -/
def FlowLower (branches : Bool) (lower : IrCtx → IrCtx) : Prop :=
  ∀ P L N c, FlowInv P L N c → c.sealed c.curBlock = false →
    FlowStep P L N branches c (lower c)

section
variable {P L N : Set Nat} {c : IrCtx}

/-- The comparison before a branch. -/
theorem flowStep_irNormalizeBranchCondition
    (h : FlowInv P L N c) (hlive : c.sealed c.curBlock = false) (cond : IrValue) :
  FlowStep P L N false c (c.irNormalizeBranchCondition cond).2
  := by
  rw [irNormalizeBranchCondition]
  split
  · apply FlowStep.of_eq h hlive <;> rfl
  · have hcounters : FlowStep P L N false c ((c.irConstInt .i8 0).2.irTmp .i8 1).2 :=
      FlowStep.of_eq h hlive rfl rfl rfl rfl rfl
    apply hcounters.trans
    intro N' h' hlive'
    apply FlowStep.add h' hlive' rfl rfl

/-- What a jump or a branch leaves. -/
structure Sealed (P L N : Set Nat) (c c' : IrCtx) : Prop where
  flow : FlowInv P L N c'
  «sealed» : c'.sealed c'.curBlock = true
  blocks : c'.blocks = c.blocks
  blockId : c'.blockId = c.blockId
  cur : c'.curBlock = c.curBlock

/-- An instruction that ends the block and names none. -/
theorem sealed_irBlockAddInstr
    (h : FlowInv P L N c) (hlive : c.sealed c.curBlock = false) {I : IrInstr}
    (hI : I.op.terminates ∨ I.throws) (hnames : I.blockNames = []) :
  Sealed P L N c (c.irBlockAddInstr I).sealCur
  := by
  constructor
  case flow =>
    apply h.addSeal hlive hI
    · rw [hnames]
      nofun
    · apply subset_refl
    · intro id hid hold
      cases hold hid
  case «sealed» => apply Function.update_self
  case blocks => rfl
  case blockId => rfl
  case cur => rfl

/-- A branch to known blocks. -/
theorem sealed_irBranch
    (h : FlowInv P L N c) (hlive : c.sealed c.curBlock = false) (cond : IrValue) {t f : Nat}
    (ht : Known P L c t) (hf : Known P L c f) :
  Sealed P L N c (c.irBranch cond t f)
  := by
  have hstep := flowStep_irNormalizeBranchCondition h hlive cond
  have hset : N ∪ {id | false = true ∧ id = c.curBlock ∧ id ∈ L} = N := by simp
  have hflow := hstep.flow
  rw [hset] at hflow
  have hnorm : (c.irNormalizeBranchCondition cond).2.blocks = c.blocks
      ∧ (c.irNormalizeBranchCondition cond).2.blockId = c.blockId := by
    rw [irNormalizeBranchCondition]
    split <;> exact ⟨rfl, rfl⟩
  have hknown : ∀ id, Known P L c id → Known P L (c.irNormalizeBranchCondition cond).2 id := by
    rintro id (hp | ⟨hmem, hlabel⟩)
    · exact .inl hp
    · exact .inr ⟨hstep.mono id hmem, hlabel⟩
  constructor
  case flow =>
    apply hflow.addSeal hstep.live (.inl rfl)
    · intro id hid
      left
      apply hknown
      have hid : id = t ∨ id = f := by simpa [IrInstr.blockNames] using hid
      rcases hid with rfl | rfl
      · apply ht
      · apply hf
    · apply subset_refl
    · intro id hid hold
      cases hold hid
  case «sealed» => apply Function.update_self
  case blocks => apply hnorm.1
  case blockId => apply hnorm.2
  case cur => apply hstep.stays rfl

/-- A jump to a known block, or to the block of a label that is named from then on. -/
theorem sealed_irJump
    {N' : Set Nat} (h : FlowInv P L N c) (hlive : c.sealed c.curBlock = false) {target : Nat}
    (ht : Known P L c target ∨ target ∈ N') (hsub : N ⊆ N')
    (hnew : ∀ id ∈ N', id ∉ N → id ∈ L ∧ id = target) :
  Sealed P L N' c (c.irJump target)
  := by
  constructor
  case flow =>
    apply h.addSeal hlive (.inl rfl)
    · intro id hid
      have hid : id = target := by simpa [IrInstr.blockNames] using hid
      rw [hid]
      apply ht
    · apply hsub
    · intro id hid hold
      obtain ⟨hlabel, rfl⟩ := hnew id hid hold
      exact ⟨hlabel, List.mem_singleton_self _⟩
  case «sealed» => apply Function.update_self
  case blocks => rfl
  case blockId => rfl
  case cur => rfl

/-- What a redirection changes: the destination of one instruction. -/
theorem irRedirectLastDst_eq_some
    {val target : IrValue} {c' : IrCtx} (hr : c.irRedirectLastDst val target = some c') :
  ∃ before I nops, c.instructions = before ++ I :: nops ∧ redirectable I.op
    ∧ c' = c.setInstructions (before ++ { I with dst := some target } :: nops)
  := by
  rw [irRedirectLastDst] at hr
  split at hr
  case isFalse => cases hr
  case isTrue =>
    have hsplit := List.takeWhile_append_dropWhile
      (p := fun I : IrInstr => I.op = .nop) (l := c.instructions.reverse)
    cases hdrop : c.instructions.reverse.dropWhile fun I => I.op = .nop with
    | nil =>
      rw [hdrop] at hr
      cases hr
    | cons I before =>
      rw [hdrop] at hr hsplit
      dsimp only at hr
      split at hr
      case isFalse => cases hr
      case isTrue h =>
        use before.reverse, I, (c.instructions.reverse.takeWhile fun I => I.op = .nop).reverse
        constructor
        · simpa using (congrArg List.reverse hsplit).symm
        · exact ⟨h.2, (Option.some_inj.mp hr).symm⟩

/-- The opcodes that are redirected name no block and do not end one. -/
theorem blockNames_of_redirectable {I : IrInstr} (h : redirectable I.op) :
  I.blockNames = [] ∧ I.op.terminates = false
  := by
  rw [IrInstr.blockNames]
  cases hop : I.op <;> rw [hop] at h <;> first | exact ⟨rfl, rfl⟩ | cases h

/-- A redirection. -/
theorem flowStep_irRedirectLastDst
    (h : FlowInv P L N c) (hlive : c.sealed c.curBlock = false) {val target : IrValue}
    {c' : IrCtx} (hr : c.irRedirectLastDst val target = some c') :
  FlowStep P L N false c c'
  := by
  obtain ⟨before, I, nops, hinstr, hI, rfl⟩ := irRedirectLastDst_eq_some hr
  obtain ⟨hnames, hterm⟩ := blockNames_of_redirectable hI
  have hmem : ∀ J ∈ before ++ { I with dst := some target } :: nops,
      J ∈ c.instructions ∨ J = { I with dst := some target } := by
    intro J hJ
    rw [hinstr]
    simp only [List.mem_append, List.mem_cons] at hJ ⊢
    tauto
  have hkeep : ∀ J ∈ c.instructions,
      J ∈ before ++ { I with dst := some target } :: nops ∨ J = I := by
    intro J hJ
    rw [hinstr] at hJ
    simp only [List.mem_append, List.mem_cons] at hJ ⊢
    tauto
  have hflow : FlowInv P L N
      (c.setInstructions (before ++ { I with dst := some target } :: nops)) := by
    have hblock : (c.setInstructions (before ++ { I with dst := some target } :: nops)).blockId
        = c.blockId := rfl
    apply h.edit hblock rfl rfl rfl
    · intro _ _
      rfl
    · intro hs
      change c.sealed c.curBlock = true at hs
      rw [hlive] at hs
      cases hs
    · intro _ J hJ
      rcases hmem J hJ with hJ | rfl
      · apply h.open _ h.ok.cur_mem hlive J hJ
      · apply hterm
    · intro J hJ id hid
      rcases hmem J hJ with hJ | rfl
      · rcases h.known _ h.ok.cur_mem J hJ id hid with hp | hknown | hn
        · exact .inl (.inl hp)
        · exact .inl (.inr hknown)
        · exact .inr hn
      · change id ∈ I.blockNames at hid
        rw [hnames] at hid
        cases hid
    · apply subset_refl
    · intro id hid hold
      cases hold hid
    · intro J hJ id hid
      rcases hkeep J hJ with hJ | rfl
      · use J
      · rw [hnames] at hid
        cases hid
  exact FlowStep.of_flow hflow hlive rfl rfl rfl

/-- The end of an assignment. -/
theorem flowStep_irAssignTo
    (h : FlowInv P L N c) (hlive : c.sealed c.curBlock = false) (target newVal : IrValue) :
  FlowStep P L N false c (c.irAssignTo target newVal).2
  := by
  rw [irAssignTo]
  cases hr : if target.pinnedReg = none then c.irRedirectLastDst newVal target else none with
  | none => apply FlowStep.add h hlive rfl rfl
  | some c' =>
    split at hr
    · apply flowStep_irRedirectLastDst h hlive hr
    · cases hr

/-- The widening of a value. -/
theorem flowStep_irWidenToTargetWidth
    (h : FlowInv P L N c) (hlive : c.sealed c.curBlock = false) (val : IrValue)
    (srcSigned : Bool) :
  FlowStep P L N false c (c.irWidenToTargetWidth val srcSigned).2
  := by
  rw [irWidenToTargetWidth]
  split
  · cases srcSigned <;> apply FlowStep.compute h hlive .i64 rfl rfl
  · apply FlowStep.of_eq h hlive <;> rfl

end

/-! ### Expressions -/

/-- A short circuit makes blocks. -/
theorem FlowLower.shortCircuit
    {b b' : Bool} {left right : Lower} (hl : FlowLower b fun c => (left c).2)
    (hr : FlowLower b' fun c => (right c).2) (isOr : Bool) :
  FlowLower true fun c => (irLowerShortCircuit isOr left right c).2
  := by
  intro P L N c h hlive
  dsimp only
  rw [irLowerShortCircuit_eq]
  have hcur := h.ok.lt _ h.ok.cur_mem
  have hP : ∀ p ∈ P, p < c.blockId := fun p hp => (h.pending p hp).1
  -- the left operand
  have h₂ : FlowInv (insert c.blockId (insert (c.blockId + 1) P)) L N (scLeft c) := by
    rw [Set.insert_comm]
    apply h.irBlockNew.irBlockNew
  have hlive₂ : (scLeft c).sealed (scLeft c).curBlock = false := by
    rw [← hlive]
    apply (Function.update_of_ne _ _ _).trans (Function.update_of_ne hcur.ne _ _)
    change c.curBlock ≠ c.blockId + 1
    omega
  have h₃ := hl _ L N (scLeft c) h₂ hlive₂
  have h₄ : FlowInv _ L _ ((left (scLeft c)).2.irTmp .i8 1).2 :=
    h₃.flow.of_eq rfl rfl rfl rfl rfl
  have hright : Known (insert c.blockId (insert (c.blockId + 1) P)) L
      ((left (scLeft c)).2.irTmp .i8 1).2 c.blockId := .inl (by simp)
  have hend : Known (insert c.blockId (insert (c.blockId + 1) P)) L
      ((left (scLeft c)).2.irTmp .i8 1).2 (c.blockId + 1) := .inl (by simp)
  have h₅ : Sealed (insert c.blockId (insert (c.blockId + 1) P)) L
      (N ∪ {id | b = true ∧ id = c.curBlock ∧ id ∈ L}) ((left (scLeft c)).2.irTmp .i8 1).2
      (scBranch isOr left c) := by
    rw [scBranch]
    apply sealed_irBranch h₄ h₃.live
    · split
      · apply hend
      · apply hright
    · split
      · apply hright
      · apply hend
  -- the right operand
  have hnot : c.blockId ∉ insert (c.blockId + 1) P := by
    rintro (heq | hmem)
    · omega
    · exact (hP _ hmem).false
  obtain ⟨h₆, hlive₆⟩ := h₅.flow.addPending h₅.sealed hnot
  have h₇ := hr _ L _ (scRight isOr left c) h₆ hlive₆
  have hrightL : c.blockId ∉ L := (h₂.pending _ (by simp)).2.2
  -- the jump to the end
  have h₈ : Sealed _ L _ _ ((right (scRight isOr left c)).2.irJump (c.blockId + 1)) :=
    sealed_irJump h₇.flow h₇.live (.inl (.inl (by simp))) (subset_refl _)
      fun id hid hold => absurd hid hold
  have hnot' : c.blockId + 1 ∉ P := fun hmem => by
    have := hP _ hmem
    omega
  obtain ⟨h₉, hlive₉⟩ := h₈.flow.addPending h₈.sealed hnot'
  have h₁₀ : FlowInv P L _ ((((right (scRight isOr left c)).2.irJump (c.blockId + 1)).irFnAddBlock
      (c.blockId + 1)).irConstInt .i8 (if isOr then 1 else 0)).2 :=
    h₉.of_eq rfl rfl rfl rfl rfl
  have hendL : c.blockId + 1 ∉ L := (h₂.pending _ (by simp)).2.2
  -- the blocks that the phi names
  have hmono : ∀ id ∈ (left (scLeft c)).2.blocks, id ∈ (right (scRight isOr left c)).2.blocks := by
    intro id hid
    apply h₇.mono
    apply List.mem_append_left
    rw [h₅.blocks]
    apply hid
  have hleftEnd : (left (scLeft c)).2.curBlock ∉ L
      ∨ b = false ∧ (left (scLeft c)).2.curBlock = c.curBlock := by
    cases hb : b with
    | true => exact .inl (h₃.moves hb)
    | false => exact .inr ⟨rfl, h₃.stays hb⟩
  have hrightEnd : (right (scRight isOr left c)).2.curBlock ∉ L := by
    cases hb : b' with
    | true => apply h₇.moves hb
    | false =>
      rw [h₇.stays hb]
      apply hrightL
  have hnames : (scPhi isOr left right c).blockNames
      = [(left (scLeft c)).2.curBlock, (right (scRight isOr left c)).2.curBlock] := rfl
  have hflow : FlowInv P L (N ∪ {id | true = true ∧ id = c.curBlock ∧ id ∈ L})
      (((((right (scRight isOr left c)).2.irJump (c.blockId + 1)).irFnAddBlock
        (c.blockId + 1)).irConstInt .i8 (if isOr then 1 else 0)).2.irBlockAddInstr
          (scPhi isOr left right c)) := by
    apply h₁₀.add hlive₉ rfl
    · rw [hnames]
      intro id hid
      simp only [List.mem_cons, List.not_mem_nil, or_false] at hid
      rcases hid with rfl | rfl
      · by_cases hlabel : (left (scLeft c)).2.curBlock ∈ L
        · right
          obtain ⟨-, hcur⟩ := hleftEnd.resolve_left (not_not.mpr hlabel)
          exact .inr ⟨rfl, hcur, hlabel⟩
        · exact .inl (.inr ⟨List.mem_append_left _ (hmono _ h₃.flow.ok.cur_mem), hlabel⟩)
      · exact .inl (.inr ⟨List.mem_append_left _ h₇.flow.ok.cur_mem, hrightEnd⟩)
    · rintro id ((hn | ⟨-, hcur, hlabel⟩) | ⟨-, rfl, hlabel⟩)
      · exact .inl hn
      · exact .inr ⟨rfl, hcur, hlabel⟩
      · cases hrightL hlabel
    · rintro id (hn | ⟨-, rfl, hlabel⟩) hold
      · cases hold (.inl (.inl hn))
      · use hlabel
        rw [hnames]
        have hb : b = false := by
          by_contra hb
          apply hold
          exact .inl (.inr ⟨by simpa using hb, rfl, hlabel⟩)
        have hcur : (left (scLeft c)).2.curBlock = c.curBlock := h₃.stays hb
        rw [hcur]
        apply List.mem_cons_self
  constructor
  case flow => apply hflow
  case live => apply hlive₉
  case stays => nofun
  case moves =>
    intro _
    apply hendL
  case count =>
    intro id hid
    change (((right (scRight isOr left c)).2.blocks ++ [c.blockId + 1])).count id = _
    have hne : id ≠ c.blockId + 1 := by
      rintro rfl
      apply hendL hid
    have hne' : id ≠ c.blockId := by
      rintro rfl
      apply hrightL hid
    rw [List.count_append, h₇.count id hid,
      List.count_eq_zero_of_not_mem (l := [c.blockId + 1]) (by simpa using hne)]
    change ((scBranch isOr left c).blocks ++ [c.blockId]).count id + 0 = _
    rw [List.count_append, h₅.blocks,
      List.count_eq_zero_of_not_mem (l := [c.blockId]) (by simpa using hne')]
    apply h₃.count id hid
  case mono =>
    intro id hid
    apply List.mem_append_left
    apply hmono
    apply h₃.mono id hid
  case blockId_le =>
    have h₃' : c.blockId + 2 ≤ (left (scLeft c)).2.blockId := h₃.blockId_le
    have h₅' : (scBranch isOr left c).blockId = (left (scLeft c)).2.blockId := h₅.blockId
    have h₇' : (scBranch isOr left c).blockId ≤ (right (scRight isOr left c)).2.blockId :=
      h₇.blockId_le
    change c.blockId ≤ (right (scRight isOr left c)).2.blockId
    omega

section
variable {b b' : Bool} {left right operand : Lower}

/-- A unary operator. -/
theorem FlowLower.unOp (h : FlowLower b fun c => (operand c).2) (op : AstUnOp) :
  FlowLower b fun c => (irLowerUnOp op operand c).2
  := by
  intro P L N c hflow hlive
  apply (h P L N c hflow hlive).andThen
  intro N' h' hlive'
  cases op with
  | plus => apply FlowStep.of_eq h' hlive' <;> rfl
  | minus => apply FlowStep.compute h' hlive' _ (I := { op := .ineg, r1 := _ }) rfl rfl
  | bitNot => apply FlowStep.compute h' hlive' _ (I := { op := .not, r1 := _ }) rfl rfl
  | logNot => apply FlowStep.icmp h' hlive'

/-- An operator on two operands. -/
theorem FlowLower.operands
    (hl : FlowLower b fun c => (left c).2) (hr : FlowLower b' fun c => (right c).2)
    (op : AstBinOp) (issigned : Bool) :
  FlowLower (b || b') fun c => (irLowerOperands op issigned left right c).2
  := by
  intro P L N c hflow hlive
  apply ((hl P L N c hflow hlive).trans fun N' => hr P L N' _).andThen
  intro N' h' hlive'
  apply FlowStep.compute h' hlive' .i64
  · cases op <;> cases issigned <;> rfl
  · cases op <;> cases issigned <;> rfl

/-- An assignment. -/
theorem FlowLower.assign
    (hr : FlowLower b fun c => (right c).2) (var : AstLVar) (srcSigned : Bool) :
  FlowLower b fun c => (irLowerAssign var srcSigned right c).2
  := by
  intro P L N c hflow hlive
  apply (hr P L N c hflow hlive).andThen
  intro N' h' hlive'
  apply (flowStep_irWidenToTargetWidth h' hlive' (right c).1 srcSigned).andThen
  intro N'' h'' hlive''
  apply flowStep_irAssignTo h'' hlive''

/-- A compound assignment. -/
theorem FlowLower.compoundAssign
    (hr : FlowLower b fun c => (right c).2) (op : AstAssignOp) (var : AstLVar) :
  FlowLower b fun c => (irLowerCompoundAssign op var right c).2
  := by
  intro P L N c hflow hlive
  have hload := FlowStep.compute hflow hlive .i64
    (I := { op := .load, r1 := c.irFnGetVar var.id }) rfl rfl
  have hright := hload.trans fun N' => hr P L N' _
  rw [Bool.false_or] at hright
  apply hright.andThen
  intro N' h' hlive'
  have hcompute := FlowStep.compute h' hlive' .i64
    (I := { op := irCompoundAssignToIrOp op var.issigned
            r1 := (c.compute .i64 { op := .load, r1 := c.irFnGetVar var.id }).1
            r2 := (right (c.compute .i64 { op := .load, r1 := c.irFnGetVar var.id }).2).1 })
    (by cases op <;> cases var.issigned <;> rfl) (by cases op <;> cases var.issigned <;> rfl)
  apply hcompute.andThen
  intro N'' h'' hlive''
  apply flowStep_irAssignTo h'' hlive''

/-- An increment or a decrement. -/
theorem flowLower_incDec (op : AstIncDec) (operand : AstLVar) :
  FlowLower false fun c => (irLowerIncDec op operand c).2
  := by
  intro P L N c hflow hlive
  have hload := FlowStep.compute hflow hlive .i64
    (I := { op := .load, r1 := c.irFnGetVar operand.id }) rfl rfl
  apply hload.andThen
  intro N' h' hlive'
  have hconst : FlowStep P L N' false
      (c.compute .i64 { op := .load, r1 := c.irFnGetVar operand.id }).2
      ((c.compute .i64 { op := .load, r1 := c.irFnGetVar operand.id }).2.irConstInt .i64 1).2 :=
    FlowStep.of_eq h' hlive' rfl rfl rfl rfl rfl
  apply hconst.andThen
  intro N'' h'' hlive''
  have hop : (if op = .preInc ∨ op = .postInc then IrOp.iadd else .isub).terminates = false := by
    split <;> rfl
  have hnames : ∀ v w : IrValue, IrInstr.blockNames
      { op := if op = .preInc ∨ op = .postInc then .iadd else .isub, r1 := v, r2 := w }
      = [] := by
    intro v w
    cases op <;> rfl
  apply (FlowStep.compute h'' hlive'' .i64 hop (hnames _ _)).andThen
  intro N₃ h₃ hlive₃
  apply FlowStep.add h₃ hlive₃ rfl rfl

/-- The arguments of a call. -/
theorem FlowLower.fnCall
    {args : IrCtx → List IrValue × IrCtx} (h : FlowLower b fun c => (args c).2) (fname : Word) :
  FlowLower b fun c => (irLowerFnCall fname args c).2
  := by
  intro P L N c hflow hlive
  have hargs := (FlowStep.irTmp hflow hlive .i64 8).trans fun N' => h P L N' _
  rw [Bool.false_or] at hargs
  apply hargs.andThen
  intro N' h' hlive'
  apply FlowStep.add h' hlive' rfl rfl

end

mutual

/-- Every expression does to the blocks what its form says. -/
theorem flowLower_irExpr : ∀ e : Ast, FlowLower e.branches fun c => (irExpr e c).2
  | .literal _ => fun _ _ _ _ h hlive => FlowStep.of_eq h hlive rfl rfl rfl rfl rfl
  | .lvar var => by
    intro P L N c h hlive
    dsimp only [irExpr, irLowerLVar]
    split
    · apply FlowStep.of_eq h hlive <;> rfl
    · apply FlowStep.compute h hlive .i64 (I := { op := .load, r1 := c.irFnGetVar var.id }) rfl
      rfl
  | .cast _ operand => flowLower_irExpr operand
  | .funcall fname _ args => (flowLower_irArgs args).fnCall fname
  | .unop op operand => (flowLower_irExpr operand).unOp op
  | .incDec op operand => flowLower_incDec op operand
  | .binop op issigned left right =>
    flowLower_irLowerBinOpExpr left op issigned (flowLower_irExpr left) (flowLower_irExpr right)
  | .logAnd left right => (flowLower_irExpr left).shortCircuit (flowLower_irExpr right) false
  | .logOr left right => (flowLower_irExpr left).shortCircuit (flowLower_irExpr right) true
  | .assign left right => (flowLower_irExpr right).assign left right.issigned
  | .compoundAssign op left right => (flowLower_irExpr right).compoundAssign op left

/-- So does a binary operator, whatever its right operand is. -/
theorem flowLower_irLowerBinOpExpr : ∀ (left : Ast) (op : AstBinOp) (issigned : Bool)
    {b b' : Bool} {lowerLeft lowerRight : Lower}, FlowLower b (fun c => (lowerLeft c).2) →
    FlowLower b' (fun c => (lowerRight c).2) →
  FlowLower (isRange op left || b || b')
    fun c => (irLowerBinOpExpr op issigned left lowerLeft lowerRight c).2
  | .binop op₁ s₁ l b₁, op, issigned, _, _, _, _, hl, hr => by
    have hb := flowLower_irLowerBinOpExpr b₁ op true (flowLower_irExpr b₁) hr
    rw [irLowerBinOpExpr, isRange]
    by_cases h : astIsRangeOperator op ∧ astIsRangeOperator op₁
    · rw [if_pos h, h.1, h.2]
      apply hl.shortCircuit hb
    · rw [if_neg h]
      have hrange : (astIsRangeOperator op && astIsRangeOperator op₁) = false := by
        simpa using h
      rw [hrange, Bool.false_or]
      apply hl.operands hr
  | .literal _, op, issigned, _, _, _, _, hl, hr => hl.operands hr op issigned
  | .lvar _, op, issigned, _, _, _, _, hl, hr => hl.operands hr op issigned
  | .cast _ _, op, issigned, _, _, _, _, hl, hr => hl.operands hr op issigned
  | .funcall _ _ _, op, issigned, _, _, _, _, hl, hr => hl.operands hr op issigned
  | .unop _ _, op, issigned, _, _, _, _, hl, hr => hl.operands hr op issigned
  | .incDec _ _, op, issigned, _, _, _, _, hl, hr => hl.operands hr op issigned
  | .logAnd _ _, op, issigned, _, _, _, _, hl, hr => hl.operands hr op issigned
  | .logOr _ _, op, issigned, _, _, _, _, hl, hr => hl.operands hr op issigned
  | .assign _ _, op, issigned, _, _, _, _, hl, hr => hl.operands hr op issigned
  | .compoundAssign _ _ _, op, issigned, _, _, _, _, hl, hr => hl.operands hr op issigned

/-- And the arguments of a call. -/
theorem flowLower_irArgs : ∀ args : List Ast,
  FlowLower (Ast.branches.argBranches args) fun c => (irArgs args c).2
  | [] => fun _ _ _ _ h hlive => FlowStep.of_eq h hlive rfl rfl rfl rfl rfl
  | arg :: args => fun P L N c h hlive =>
    (flowLower_irExpr arg P L N c h hlive).trans fun N' => flowLower_irArgs args P L N' _

end

end Polyc
