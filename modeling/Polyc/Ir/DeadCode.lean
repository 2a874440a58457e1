import Polyc.Ir.AddressFusion
import Polyc.Ir.DeadStores
import Polyc.Lib.Loop

/-!
# Dead-code elimination

`irOptDeadCodeElim` walks over a function until nothing changes, and turns the instructions that
only produce a temporary without uses into no operation.  Then it binds the results of calls that
are not used to the register of results.  The uses are counted before each walk.
-/

namespace Polyc

/-! ### The pass -/

/-- The opcodes that only produce a value. -/
def IrOp.isSafe : IrOp → Bool
  | .lea | .iadd | .isub | .imul | .and | .or | .xor | .shl | .shr | .sar | .ineg | .not
  | .icmp | .fcmp | .fadd | .fsub | .fmul | .fdiv | .fneg | .trunc | .zext | .sext | .fptrunc
  | .fpext | .fptosi | .fptoui | .sitofp | .uitofp | .ptrtoint | .inttoptr | .bitcast => true
  | _ => false

/-- The instruction only produces a temporary without uses. -/
def isDeadCode (uses : Nat → Nat) (I : IrInstr) : Bool :=
  I.op.isSafe ∧ I.dst.any fun d => d.kind = .tmp ∧ irTmpUseCount uses d = 0

/-- One instruction of the walk, which remembers whether something has changed. -/
def removeAt (uses : Nat → Nat) (r : IrFunction × Bool) (p : Nat × Nat) : IrFunction × Bool :=
  match r.1.get p with
  | some I => if isDeadCode uses I then (r.1.set p (irMakeNop I), true) else r
  | none => r

/-- One walk over a function. -/
def deadCodeWalk (fn : IrFunction) : IrFunction × Bool :=
  fn.indexes.foldl (removeAt (irBuildTmpUseCounts fn)) (fn, false)

/-- One round of the loop. -/
def deadCodeRound (fn : IrFunction) : IrFunction ⊕ IrFunction :=
  if (deadCodeWalk fn).2 then .inl (deadCodeWalk fn).1 else .inr (deadCodeWalk fn).1

/-- A call whose result is not used. -/
def isUnusedCall (uses : Nat → Nat) (I : IrInstr) : Bool :=
  I.op = .call ∧ I.dst.any fun d => d.kind = .tmp ∧ d.type ≠ .void ∧ irTmpUseCount uses d = 0

/-- The result of a call is bound to the register of results. -/
def IrInstr.bindResult (pool : IrRegPool) (I : IrInstr) : IrInstr :=
  { I with dst := I.dst.map fun d =>
      { d with
        loc := .reg (some (if irIsFloat d.type then pool.floatReturnReg else pool.intReturnReg)) } }

/-- The second part of `irOptDeadCodeElim`. -/
def bindUnusedCalls (pool : Option IrRegPool) (fn : IrFunction) : IrFunction :=
  match pool with
  | none => fn
  | some pool =>
    { fn with blocks := fn.blocks.map fun b =>
        { b with instructions := b.instructions.map fun I =>
            if isUnusedCall (irBuildTmpUseCounts fn) I then I.bindResult pool else I } }

/-- `irOptDeadCodeElim`; the loop makes one round for each instruction at most, and one more. -/
def irOptDeadCodeElim (pool : Option IrRegPool) (fn : IrFunction) : Option IrFunction :=
  (Loop.run deadCodeRound (fn.instrs.length + 1) fn).map (bindUnusedCalls pool)

/-! ### Uses -/

/-- A temporary without uses. -/
def UnusedTmp (fn : IrFunction) (id : Nat) : Prop :=
  ∀ I ∈ fn.instrs, I.op ≠ .nop → ∀ v ∈ I.countedUses, v.kind = .tmp → v.varId ≠ id

theorem irBuildTmpUseCounts_eq_zero_iff {fn : IrFunction} {id : Nat} :
  irBuildTmpUseCounts fn id = 0 ↔ UnusedTmp fn id
  := by
  simp only [irBuildTmpUseCounts, List.sum_eq_zero_iff_forall_eq_nat, List.forall_mem_map]
  apply forall₂_congr
  intro I _
  rw [IrInstr.tmpUses]
  split
  case isTrue hnop => exact ⟨fun _ h => absurd hnop h, fun _ => rfl⟩
  case isFalse hnop =>
    rw [List.countP_eq_zero, forall_prop_of_true hnop]
    simp only [decide_eq_true_eq, not_and]

/-- What is left of an instruction uses nothing. -/
theorem unusedTmp_set {fn : IrFunction} {p : Nat × Nat} {I : IrInstr} (h : fn.get p = some I)
    {id : Nat} (hunused : UnusedTmp fn id) :
  UnusedTmp (fn.set p (irMakeNop I)) id
  := by
  intro J hJ hop
  obtain ⟨q, hq⟩ := IrFunction.mem_instrs_iff.mp hJ
  by_cases heq : q = p
  · rw [heq, IrFunction.get_set_self h] at hq
    cases hq
    contradiction
  · rw [fn.get_set_of_ne _ heq] at hq
    exact hunused J (IrFunction.mem_instrs_iff.mpr ⟨q, hq⟩) hop

/-- The count of a temporary is zero when it is not used. -/
theorem irTmpUseCount_eq_zero_iff {fn : IrFunction} {v : IrValue} (hkind : v.kind = .tmp) :
  irTmpUseCount (irBuildTmpUseCounts fn) v = 0 ↔ UnusedTmp fn v.varId
  := by
  rw [irTmpUseCount, if_pos hkind, Int.natCast_eq_zero, irBuildTmpUseCounts_eq_zero_iff]

/-- The instructions that are dead. -/
theorem isDeadCode_iff {fn : IrFunction} {I : IrInstr} :
  isDeadCode (irBuildTmpUseCounts fn) I = true
    ↔ I.op.isSafe = true ∧ ∃ d, I.dst = some d ∧ d.kind = .tmp ∧ UnusedTmp fn d.varId
  := by
  simp only [isDeadCode, decide_eq_true_eq, Option.any_eq_true]
  apply and_congr_right
  intro _
  apply exists_congr
  intro d
  apply and_congr_right
  intro _
  apply and_congr_right
  exact irTmpUseCount_eq_zero_iff

/-- The calls whose results are bound. -/
theorem isUnusedCall_iff {fn : IrFunction} {I : IrInstr} :
  isUnusedCall (irBuildTmpUseCounts fn) I = true
    ↔ I.op = .call ∧ ∃ d, I.dst = some d ∧ d.kind = .tmp ∧ d.type ≠ .void
      ∧ UnusedTmp fn d.varId
  := by
  simp only [isUnusedCall, decide_eq_true_eq, Option.any_eq_true]
  apply and_congr_right
  intro _
  apply exists_congr
  intro d
  apply and_congr_right
  intro _
  apply and_congr_right
  intro hkind
  apply and_congr_right
  exact fun _ => irTmpUseCount_eq_zero_iff hkind

/-! ### What the pass does -/

/-- An instruction is kept, or produces a temporary without uses and is removed, or calls and its
result is bound to a register. -/
inductive Cleans (fn' : IrFunction) (I : IrInstr) : IrInstr → Prop where
  | kept : Cleans fn' I I
  | removed (d : IrValue) (hop : I.op.isSafe = true) (hdst : I.dst = some d) (hkind : d.kind = .tmp)
      (hunused : UnusedTmp fn' d.varId) :
    Cleans fn' I (irMakeNop I)
  | bound (d : IrValue) (pool : IrRegPool) (hop : I.op = .call) (hdst : I.dst = some d)
      (hkind : d.kind = .tmp) (hunused : UnusedTmp fn' d.varId) :
    Cleans fn' I (I.bindResult pool)

/-- A function without some of the instructions of another. -/
structure CleanedFrom (fn fn' : IrFunction) : Prop where
  entry : fn'.entryBlock = fn.entryBlock
  ids : fn'.blocks.map (·.id) = fn.blocks.map (·.id)
  instr : ∀ p, Option.Rel (Cleans fn') (fn.get p) (fn'.get p)

theorem Cleans.mono {fn fn' : IrFunction} {I J : IrInstr} (h : Cleans fn I J)
    (hunused : ∀ id, UnusedTmp fn id → UnusedTmp fn' id) :
  Cleans fn' I J
  := by
  cases h with
  | kept => exact .kept
  | removed d hop hdst hkind h => exact .removed d hop hdst hkind (hunused _ h)
  | bound d pool hop hdst hkind h => exact .bound d pool hop hdst hkind (hunused _ h)

theorem CleanedFrom.refl (fn : IrFunction) :
  CleanedFrom fn fn
  := by
  constructor
  case entry => rfl
  case ids => rfl
  case instr =>
    intro p
    cases fn.get p with
    | none => exact .none
    | some I => exact .some .kept

/-- Only instructions that are kept are removed later. -/
theorem Cleans.then_removed {fn' fn'' : IrFunction} {I J : IrInstr} (h : Cleans fn' I J)
    {d : IrValue} (hop : J.op.isSafe = true) (hdst : J.dst = some d) (hkind : d.kind = .tmp)
    (hunused : UnusedTmp fn'' d.varId) :
  Cleans fn'' I (irMakeNop J)
  := by
  cases h with
  | kept => exact .removed d hop hdst hkind hunused
  | removed => cases hop
  | bound _ _ hcall =>
    have hop' : I.op.isSafe = true := hop
    rw [hcall] at hop'
    cases hop'

/-- One instruction of a walk that began with a function with fewer temporaries without uses. -/
theorem CleanedFrom.removeAt {fn fn₀ : IrFunction} {r : IrFunction × Bool}
    (h : CleanedFrom fn r.1) (huses : ∀ id, UnusedTmp fn₀ id → UnusedTmp r.1 id) (p : Nat × Nat) :
  CleanedFrom fn (removeAt (irBuildTmpUseCounts fn₀) r p).1
    ∧ ∀ id, UnusedTmp fn₀ id → UnusedTmp (removeAt (irBuildTmpUseCounts fn₀) r p).1 id
  := by
  unfold Polyc.removeAt
  split
  case h_2 => exact ⟨h, huses⟩
  case h_1 I hI =>
    split
    case isFalse => exact ⟨h, huses⟩
    case isTrue hdead =>
      obtain ⟨hop, d, hdst, hkind, hunused⟩ := isDeadCode_iff.mp hdead
      have hmono : ∀ id, UnusedTmp r.1 id → UnusedTmp (r.1.set p (irMakeNop I)) id :=
        fun id => unusedTmp_set hI
      constructor
      · constructor
        case entry => exact h.entry
        case ids => exact (r.1.set_ids p (irMakeNop I)).trans h.ids
        case instr =>
          intro q
          have hq := h.instr q
          by_cases heq : q = p
          · rw [heq, hI] at hq
            rw [heq, IrFunction.get_set_self hI]
            generalize fn.get p = I₀ at hq ⊢
            cases hq with
            | some hrel =>
              exact .some (hrel.then_removed hop hdst hkind (hmono _ (huses _ hunused)))
          · rw [r.1.get_set_of_ne _ heq]
            exact rel_imp (fun _ _ hrel => hrel.mono hmono) hq
      · exact fun id hid => hmono id (huses id hid)

/-- A walk removes instructions. -/
theorem CleanedFrom.walk {fn fn' : IrFunction} (h : CleanedFrom fn fn') :
  CleanedFrom fn (deadCodeWalk fn').1
  := by
  have hgen : ∀ (ps : List (Nat × Nat)) (r : IrFunction × Bool), CleanedFrom fn r.1 →
      (∀ id, UnusedTmp fn' id → UnusedTmp r.1 id) →
      CleanedFrom fn (ps.foldl (Polyc.removeAt (irBuildTmpUseCounts fn')) r).1 := by
    intro ps
    induction ps with
    | nil => exact fun _ h _ => h
    | cons p ps ih =>
      intro r hr huses
      obtain ⟨hr', huses'⟩ := hr.removeAt huses p
      exact ih _ hr' huses'
  exact hgen fn'.indexes (fn', false) h fun _ hid => hid

/-! ### The loop ends -/

/-- The instructions that are left. -/
def liveCount (fn : IrFunction) : Nat := (fn.instrs.map fun I => if I.op = .nop then 0 else 1).sum

/-- A walk that changes something leaves fewer instructions. -/
theorem liveCount_walk (fn : IrFunction) :
  liveCount (deadCodeWalk fn).1 + (deadCodeWalk fn).2.toNat ≤ liveCount fn
  := by
  have hstep : ∀ (r : IrFunction × Bool) (p : Nat × Nat),
      liveCount (removeAt (irBuildTmpUseCounts fn) r p).1
        + (removeAt (irBuildTmpUseCounts fn) r p).2.toNat ≤ liveCount r.1 + r.2.toNat := by
    intro r p
    unfold removeAt
    split
    case h_2 => exact Nat.le_refl _
    case h_1 I hI =>
      split
      case isFalse => exact Nat.le_refl _
      case isTrue hdead =>
        have hop : I.op ≠ .nop := by
          intro hnop
          have hsafe := (isDeadCode_iff.mp hdead).1
          rw [hnop] at hsafe
          cases hsafe
        have hsum := IrFunction.sum_set (fun I => if I.op = .nop then 0 else 1) hI (irMakeNop I)
        have hnop : (irMakeNop I).op = .nop := rfl
        rw [if_neg hop, if_pos hnop] at hsum
        exact Nat.le_trans (Nat.le_of_eq hsum) (Nat.le_add_right ..)
  have hgen : ∀ (ps : List (Nat × Nat)) (r : IrFunction × Bool),
      liveCount (ps.foldl (removeAt (irBuildTmpUseCounts fn)) r).1
        + (ps.foldl (removeAt (irBuildTmpUseCounts fn)) r).2.toNat
        ≤ liveCount r.1 + r.2.toNat := by
    intro ps
    induction ps with
    | nil => exact fun _ => Nat.le_refl _
    | cons p ps ih => exact fun r => (ih _).trans (hstep r p)
  exact hgen fn.indexes (fn, false)

/-- Every instruction is on the walk. -/
theorem mem_indexes {fn : IrFunction} {p : Nat × Nat} {I : IrInstr} (h : fn.get p = some I) :
  p ∈ fn.indexes
  := by
  obtain ⟨b, hb, hI⟩ := Option.bind_eq_some_iff.mp h
  apply List.mem_flatMap.mpr
  use p.1
  constructor
  · exact List.mem_range.mpr (List.getElem?_eq_some_iff.mp hb).1
  · apply List.mem_map.mpr
    use p.2
    rw [hb, Option.elim_some]
    exact ⟨List.mem_range.mpr (List.getElem?_eq_some_iff.mp hI).1, rfl⟩

/-- A walk that changes nothing has found nothing. -/
theorem deadCodeWalk_unchanged {fn : IrFunction} (h : (deadCodeWalk fn).2 = false) :
  (deadCodeWalk fn).1 = fn
    ∧ ∀ I ∈ fn.instrs, isDeadCode (irBuildTmpUseCounts fn) I = false
  := by
  have hstep : ∀ (r : IrFunction × Bool) (p : Nat × Nat),
      (removeAt (irBuildTmpUseCounts fn) r p).2 = false →
      removeAt (irBuildTmpUseCounts fn) r p = r
        ∧ ∀ I, r.1.get p = some I → isDeadCode (irBuildTmpUseCounts fn) I = false := by
    intro r p hr
    unfold removeAt at hr ⊢
    split
    case h_2 hI => exact ⟨rfl, fun J hJ => by rw [hI] at hJ; cases hJ⟩
    case h_1 I hI =>
      rw [hI] at hr
      by_cases hdead : isDeadCode (irBuildTmpUseCounts fn) I = true
      · dsimp only at hr
        rw [if_pos hdead] at hr
        cases hr
      · rw [if_neg hdead]
        use rfl
        intro J hJ
        rw [hI, Option.some_inj] at hJ
        rw [← hJ]
        exact Bool.not_eq_true _ ▸ hdead
  have hgen : ∀ (ps : List (Nat × Nat)) (r : IrFunction × Bool),
      (ps.foldl (removeAt (irBuildTmpUseCounts fn)) r).2 = false →
      ps.foldl (removeAt (irBuildTmpUseCounts fn)) r = r ∧ r.2 = false
        ∧ ∀ p ∈ ps, ∀ I, r.1.get p = some I →
          isDeadCode (irBuildTmpUseCounts fn) I = false := by
    intro ps
    induction ps with
    | nil => exact fun r hr => ⟨rfl, hr, fun p hp => by cases hp⟩
    | cons p ps ih =>
      intro r hr
      obtain ⟨hrest, hfalse, hps⟩ := ih _ hr
      obtain ⟨hsame, hp⟩ := hstep r p hfalse
      rw [hsame] at hrest hfalse hps
      refine ⟨?_, hfalse, List.forall_mem_cons.mpr ⟨hp, hps⟩⟩
      rw [List.foldl_cons, hsame, hrest]
  obtain ⟨hsame, -, hnone⟩ := hgen fn.indexes (fn, false) h
  constructor
  · exact congrArg Prod.fst hsame
  · intro I hI
    obtain ⟨p, hp⟩ := IrFunction.mem_instrs_iff.mp hI
    exact hnone p (mem_indexes hp) I hp

/-- The loop comes to an end, with nothing left to remove. -/
theorem deadCodeRound_keeps (fn : IrFunction) :
  Loop.Keeps deadCodeRound (CleanedFrom fn)
    (fun fn' => CleanedFrom fn fn'
      ∧ ∀ I ∈ fn'.instrs, isDeadCode (irBuildTmpUseCounts fn') I = false) liveCount
  := by
  intro fn' h
  unfold deadCodeRound
  have hcount := liveCount_walk fn'
  cases hchanged : (deadCodeWalk fn').2 with
  | true =>
    rw [hchanged] at hcount
    exact ⟨h.walk, hcount⟩
  | false =>
    obtain ⟨hsame, hnone⟩ := deadCodeWalk_unchanged hchanged
    rw [if_neg Bool.false_ne_true, hsame]
    exact ⟨h, hnone⟩

/-- There are not more instructions that are left than there are instructions. -/
theorem liveCount_le (fn : IrFunction) :
  liveCount fn ≤ fn.instrs.length
  := by
  unfold liveCount
  induction fn.instrs with
  | nil => exact Nat.le_refl 0
  | cons I l ih =>
    rw [List.map_cons, List.sum_cons, List.length_cons]
    split <;> omega

/-! ### The results of calls -/

/-- The second part rewrites instructions where they are. -/
theorem get_bindUnusedCalls (pool : IrRegPool) (fn : IrFunction) (p : Nat × Nat) :
  (bindUnusedCalls (some pool) fn).get p = (fn.get p).map fun I =>
    if isUnusedCall (irBuildTmpUseCounts fn) I then I.bindResult pool else I
  := by
  rw [bindUnusedCalls, IrFunction.get, IrFunction.get]
  dsimp only
  rw [List.getElem?_map]
  cases fn.blocks[p.1]? with
  | none => rfl
  | some b => exact List.getElem?_map ..

/-- The result of a call is no use. -/
theorem countedUses_bindResult {I : IrInstr} (h : I.op = .call) (pool : IrRegPool) :
  (I.bindResult pool).countedUses = I.countedUses
  := by
  have hdst : IrOp.call.usesDst = false := rfl
  simp only [IrInstr.countedUses, IrInstr.bindResult, h, hdst, Bool.false_eq_true, if_false]

/-- An instruction after the second part. -/
theorem bindUnused_same (uses : Nat → Nat) (pool : IrRegPool) (I : IrInstr) :
  (if isUnusedCall uses I then I.bindResult pool else I).op = I.op
    ∧ (if isUnusedCall uses I then I.bindResult pool else I).countedUses = I.countedUses
  := by
  split
  case isTrue h => exact ⟨rfl, countedUses_bindResult (of_decide_eq_true h).1 pool⟩
  case isFalse => exact ⟨rfl, rfl⟩

/-- The second part keeps what is used. -/
theorem unusedTmp_bindUnusedCalls {pool : IrRegPool} {fn : IrFunction} {id : Nat} :
  UnusedTmp (bindUnusedCalls (some pool) fn) id ↔ UnusedTmp fn id
  := by
  have hsame := bindUnused_same (irBuildTmpUseCounts fn) pool
  constructor
  · intro h I hI hop v hv
    obtain ⟨p, hp⟩ := IrFunction.mem_instrs_iff.mp hI
    have hget := get_bindUnusedCalls pool fn p
    rw [hp, Option.map_some] at hget
    apply h _ (IrFunction.mem_instrs_iff.mpr ⟨p, hget⟩)
    · rwa [(hsame I).1]
    · rwa [(hsame I).2]
  · intro h J hJ hop v hv
    obtain ⟨p, hp⟩ := IrFunction.mem_instrs_iff.mp hJ
    rw [get_bindUnusedCalls] at hp
    obtain ⟨I, hI, rfl⟩ := Option.map_eq_some_iff.mp hp
    rw [(hsame I).1] at hop
    rw [(hsame I).2] at hv
    exact h I (IrFunction.mem_instrs_iff.mpr ⟨p, hI⟩) hop v hv

/-- A result that is bound twice is in the second register. -/
theorem bindResult_bindResult (I : IrInstr) (pool pool' : IrRegPool) :
  (I.bindResult pool).bindResult pool' = I.bindResult pool'
  := by
  simp only [IrInstr.bindResult, Option.map_map, Function.comp_def]

/-- Only calls that are kept are bound later. -/
theorem Cleans.then_bound {fn' fn'' : IrFunction} {I J : IrInstr} (h : Cleans fn' I J)
    (hJ : isUnusedCall (irBuildTmpUseCounts fn'') J = true) (pool : IrRegPool) :
  Cleans fn'' I (J.bindResult pool)
  := by
  obtain ⟨hop, d, hdst, hkind, -, hunused⟩ := isUnusedCall_iff.mp hJ
  cases h with
  | kept => exact .bound d pool hop hdst hkind hunused
  | removed => cases hop
  | bound e pool' hop' hdst' hkind' =>
    rw [bindResult_bindResult]
    rw [IrInstr.bindResult, hdst', Option.map_some, Option.some_inj] at hdst
    rw [← hdst] at hunused
    exact .bound e pool hop' hdst' hkind' hunused

/-- The second part binds results. -/
theorem CleanedFrom.bindUnusedCalls {fn fn' : IrFunction} (h : CleanedFrom fn fn')
    (pool : Option IrRegPool) :
  CleanedFrom fn (bindUnusedCalls pool fn')
  := by
  cases pool with
  | none => exact h
  | some pool =>
    have hmono : ∀ id, UnusedTmp fn' id → UnusedTmp (Polyc.bindUnusedCalls (some pool) fn') id :=
      fun _ => unusedTmp_bindUnusedCalls.mpr
    constructor
    case entry => exact h.entry
    case ids =>
      rw [← h.ids, Polyc.bindUnusedCalls, List.map_map]
      rfl
    case instr =>
      intro p
      have hp := h.instr p
      rw [get_bindUnusedCalls]
      generalize fn.get p = I, fn'.get p = J at hp
      cases hp with
      | none => exact .none
      | @some I J hrel =>
        rw [Option.map_some]
        split
        case isFalse => exact .some (hrel.mono hmono)
        case isTrue hcall => exact .some ((hrel.then_bound hcall pool).mono hmono)

/-- The second part leaves nothing to remove either. -/
theorem not_isDeadCode_bindUnusedCalls {fn : IrFunction} (pool : Option IrRegPool)
    (h : ∀ I ∈ fn.instrs, isDeadCode (irBuildTmpUseCounts fn) I = false) :
  ∀ J ∈ (bindUnusedCalls pool fn).instrs,
    isDeadCode (irBuildTmpUseCounts (bindUnusedCalls pool fn)) J = false
  := by
  cases pool with
  | none => exact h
  | some pool =>
    intro J hJ
    obtain ⟨p, hp⟩ := IrFunction.mem_instrs_iff.mp hJ
    rw [get_bindUnusedCalls] at hp
    obtain ⟨I, hI, rfl⟩ := Option.map_eq_some_iff.mp hp
    have hdead := h I (IrFunction.mem_instrs_iff.mpr ⟨p, hI⟩)
    rw [Bool.eq_false_iff, ne_eq, isDeadCode_iff] at hdead ⊢
    rintro ⟨hop, d, hdst, hkind, hunused⟩
    apply hdead
    by_cases hcall : isUnusedCall (irBuildTmpUseCounts fn) I = true
    · rw [if_pos hcall] at hop
      have hop' : I.op.isSafe = true := hop
      rw [(isUnusedCall_iff.mp hcall).1] at hop'
      cases hop'
    · rw [if_neg hcall] at hop hdst
      exact ⟨hop, d, hdst, hkind, unusedTmp_bindUnusedCalls.mp hunused⟩

/-- The second part binds what is not used. -/
theorem bound_bindUnusedCalls {pool : IrRegPool} {fn : IrFunction} :
  ∀ J ∈ (bindUnusedCalls (some pool) fn).instrs,
    isUnusedCall (irBuildTmpUseCounts (bindUnusedCalls (some pool) fn)) J = true →
    J.bindResult pool = J
  := by
  intro J hJ hcall
  obtain ⟨hop, d, hdst, hkind, hvoid, hunused⟩ := isUnusedCall_iff.mp hcall
  obtain ⟨p, hp⟩ := IrFunction.mem_instrs_iff.mp hJ
  rw [get_bindUnusedCalls] at hp
  obtain ⟨I, hI, rfl⟩ := Option.map_eq_some_iff.mp hp
  by_cases hbound : isUnusedCall (irBuildTmpUseCounts fn) I = true
  · rw [if_pos hbound]
    exact bindResult_bindResult I pool pool
  · rw [if_neg hbound] at hop hdst
    exact absurd (isUnusedCall_iff.mpr
      ⟨hop, d, hdst, hkind, hvoid, unusedTmp_bindUnusedCalls.mp hunused⟩) hbound

/-! ### The result of the pass -/

/-- What is left after the pass. -/
structure IsCleaned (pool : Option IrRegPool) (fn fn' : IrFunction) : Prop where
  /-- Nothing else has changed. -/
  from' : CleanedFrom fn fn'
  /-- What produces a temporary is used or has to stay. -/
  none_dead : ∀ I ∈ fn'.instrs, isDeadCode (irBuildTmpUseCounts fn') I = false
  /-- The results of calls that are not used are bound. -/
  bound : ∀ p, pool = some p → ∀ I ∈ fn'.instrs, isUnusedCall (irBuildTmpUseCounts fn') I = true →
    I.bindResult p = I

/-- **Theorem.** The pass comes to an end, with nothing left to remove. -/
theorem irOptDeadCodeElim_isCleaned (pool : Option IrRegPool) (fn : IrFunction) :
  ∃ fn', irOptDeadCodeElim pool fn = some fn' ∧ IsCleaned pool fn fn'
  := by
  obtain ⟨fn₁, hrun, hfrom, hnone⟩ :=
    (deadCodeRound_keeps fn).run (CleanedFrom.refl fn) (Nat.lt_succ_of_le (liveCount_le fn))
  use bindUnusedCalls pool fn₁
  constructor
  · rw [irOptDeadCodeElim, hrun, Option.map_some]
  · constructor
    case from' => exact hfrom.bindUnusedCalls pool
    case none_dead => exact not_isDeadCode_bindUnusedCalls pool hnone
    case bound =>
      rintro p rfl
      exact bound_bindUnusedCalls

/-!
## Dead code is unobservable

Runs before and after the pass go through the same points, with frames that differ in the places
of temporaries without uses only.  A slot whose address is taken by instructions that are removed
is memory in neither run.
-/

/-! ### Places without uses -/

/-- The places of the temporaries without uses. -/
def DeadTmp (fn' : IrFunction) (p : Place) : Prop := ∃ id, UnusedTmp fn' id ∧ p = .slot ⟨.tmp, id⟩

/-- What is in such a place is a temporary. -/
theorem DeadTmp.tmp {fn' : IrFunction} {v : IrValue} (h : DeadTmp fn' v.place) :
  v.kind = .tmp ∧ UnusedTmp fn' v.varId
  := by
  obtain ⟨id, hunused, hplace⟩ := h
  by_cases hkind : v.kind = .tmp
  · rw [IrValue.place_of_tmp hkind] at hplace
    have hid : v.varId = id := congrArg VarKey.id (Place.slot.inj hplace)
    rw [hid]
    exact ⟨hkind, hunused⟩
  · exfalso
    cases hreg : v.pinnedReg with
    | some name =>
      rw [IrValue.place_of_pinned hkind hreg] at hplace
      cases hplace
    | none =>
      rw [IrValue.place_of_unpinned hreg] at hplace
      exact hkind (congrArg VarKey.kind (Place.slot.inj hplace))

/-- The values that an instruction reads are among those that the pass counts. -/
theorem mem_countedUses {I : IrInstr} {v : IrValue} (h : v ∈ I.inputs) :
  I.op ≠ .nop ∧ v ∈ I.countedUses
  := by
  refine ⟨?_, inputs_subset h⟩
  intro hnop
  simp [IrInstr.inputs, hnop, IrOp.readsDst, IrOp.readsR1, IrOp.readsR2, IrOp.readsIdx] at h

/-- An instruction that is left reads no place of a temporary without uses. -/
theorem not_deadTmp_read {fn' : IrFunction} {I : IrInstr} (hI : I ∈ fn'.instrs) :
  ∀ v ∈ I.inputs, ¬ DeadTmp fn' v.place
  := by
  intro v hv hdead
  obtain ⟨hop, huse⟩ := mem_countedUses hv
  obtain ⟨hkind, hunused⟩ := hdead.tmp
  exact hunused I hI hop v huse hkind rfl

/-- The outside does not see such a place. -/
theorem not_deadTmp_seen {fn' : IrFunction} {op : IrOp} :
  ∀ p, fn'.sight.sees op p → ¬ DeadTmp fn' p
  := by
  rintro p hp ⟨id, hunused, rfl⟩
  obtain ⟨I, hI, htakes⟩ := List.any_eq_true.mp hp
  obtain ⟨hop, hr1⟩ := of_decide_eq_true htakes
  obtain ⟨v, hv, hkey⟩ := (Option.any_eq_true _ _).mp hr1
  obtain ⟨-, hkey⟩ := of_decide_eq_true hkey
  have hnop : I.op ≠ .nop := by
    rcases hop with hop | hop
    all_goals
      rw [hop]
      exact nofun
  apply hunused I hI hnop v
  · simp [IrInstr.countedUses, hv]
  · exact congrArg VarKey.kind hkey
  · exact congrArg VarKey.id hkey

/-- Neither does a copy on an edge read it. -/
theorem not_deadTmp_copied {fn' : IrFunction} {p q : Point} {I : IrInstr} :
  ∀ c ∈ fn'.edgeCopies p q I, ¬ DeadTmp fn' c.2.place
  := by
  intro c hc hdead
  obtain ⟨-, b, J, x, hb, hJ, hphi, hx, hcx⟩ := mem_edgeCopies hc
  rw [hcx] at hdead
  obtain ⟨hkind, hunused⟩ := hdead.tmp
  have hmem : J ∈ fn'.instrs := List.mem_flatMap.mpr ⟨b, (fn'.findBlock_some hb).1, hJ⟩
  have hnop : J.op ≠ .nop := by
    rw [hphi]
    exact nofun
  apply hunused J hmem hnop x.irValue _ hkind rfl
  simp only [IrInstr.countedUses, hphi, if_true, List.mem_append, List.mem_map]
  exact .inr ⟨x, hx, rfl⟩

/-! ### Blocks -/

/-- No phi is removed. -/
theorem Cleans.phi {fn' : IrFunction} {I I' : IrInstr} (h : Cleans fn' I I') :
  (I'.op = .phi ↔ I.op = .phi) ∧ (I.op = .nop → I'.op = .nop)
  := by
  cases h with
  | kept => exact ⟨Iff.rfl, id⟩
  | bound => exact ⟨Iff.rfl, id⟩
  | removed d hop =>
    constructor
    · constructor
      · nofun
      · intro hphi
        rw [hphi] at hop
        cases hop
    · exact fun _ => rfl

/-- A phi stays what it is. -/
theorem Cleans.eq_of_phi {fn' : IrFunction} {I I' : IrInstr} (h : Cleans fn' I I')
    (hphi : I.op = .phi) :
  I' = I
  := by
  cases h with
  | kept => rfl
  | bound _ _ hop =>
    rw [hphi] at hop
    cases hop
  | removed _ hop =>
    rw [hphi] at hop
    cases hop

/-- A block without some instructions has the same leading phis. -/
theorem leadingPhis_of_cleans {fn' : IrFunction} {l l' : List IrInstr}
    (h : List.Forall₂ (Cleans fn') l l') (hl : phisLead l) :
  leadingPhis l' = leadingPhis l
  := by
  rw [leadingPhis_eq_filter hl, leadingPhis_eq_filter (phisLead_of_forall₂ Cleans.phi h hl)]
  clear hl
  induction h with
  | nil => rfl
  | @cons I I' l l' hI _ ih =>
    by_cases hphi : I.op = .phi
    · rw [hI.eq_of_phi hphi, List.filter_cons, List.filter_cons, ih]
    · rw [List.filter_cons_of_neg (by simpa using hI.phi.1.not.mpr hphi),
        List.filter_cons_of_neg (by simpa using hphi), ih]

section Blocks

variable {fn fn' : IrFunction} (h : CleanedFrom fn fn')

include h

/-- The instructions at a point of both functions. -/
theorem CleanedFrom.instrAt (p : Point) :
  Option.Rel (Cleans fn') (fn.instrAt p) (fn'.instrAt p)
  := by
  rw [IrFunction.instrAt_eq_get, IrFunction.instrAt_eq_get, IrFunction.layoutIndex_congr h.ids]
  exact h.instr _

/-- The block of an id in both functions. -/
theorem CleanedFrom.findBlock (id : Nat) :
  Option.Rel (fun b b' => List.Forall₂ (Cleans fn') b.instructions b'.instructions)
    (fn.findBlock id) (fn'.findBlock id)
  := by
  rw [IrFunction.findBlock_eq_getElem?, IrFunction.findBlock_eq_getElem?,
    IrFunction.layoutIndex_congr h.ids]
  have hids : (fn'.blocks[fn.layoutIndex id]?).map (·.id)
      = (fn.blocks[fn.layoutIndex id]?).map (·.id) := by
    rw [← List.getElem?_map, ← List.getElem?_map, h.ids]
  have hinstr : ∀ j, Option.Rel (Cleans fn') (fn.get (fn.layoutIndex id, j))
      (fn'.get (fn.layoutIndex id, j)) := fun j => h.instr _
  simp only [IrFunction.get] at hinstr
  generalize fn.blocks[fn.layoutIndex id]? = b, fn'.blocks[fn.layoutIndex id]? = b'
    at hids hinstr
  cases b with
  | none =>
    cases b' with
    | none => exact .none
    | some b' => cases hids
  | some b =>
    cases b' with
    | none => cases hids
    | some b' => exact .some (forall₂_of_getElem? hinstr)

/-- Edges make the same copies. -/
theorem CleanedFrom.edgeCopies_eq (hlead : ∀ b ∈ fn.blocks, phisLead b.instructions)
    (p q : Point) (I : IrInstr) :
  fn'.edgeCopies p q I = fn.edgeCopies p q I
  := by
  rw [IrFunction.edgeCopies, IrFunction.edgeCopies]
  split
  case isFalse => rfl
  case isTrue =>
    have hrel := h.findBlock q.1
    cases hb : fn.findBlock q.1 with
    | none =>
      rw [hb] at hrel
      generalize fn'.findBlock q.1 = b' at hrel ⊢
      cases hrel with
      | none => rfl
    | some b =>
      have hphis := hlead b (fn.findBlock_some hb).1
      rw [hb] at hrel
      generalize fn'.findBlock q.1 = b' at hrel ⊢
      cases hrel with
      | some hb' =>
        simp only [phiCopies]
        rw [leadingPhis_of_cleans hb' hphis]

end Blocks

/-! ### Runs -/

section Runs

variable {W : Type} (S : Surroundings W)

/-- One step of a run in which the given variables are memory. -/
def stepSeen (sight : Sight) (fn : IrFunction) : FrameConfig W → FrameConfig W
  | .at p s =>
    match fn.instrAt p with
    | none => .stuck s
    | some I =>
      match execIn S sight I s with
      | none => .stuck s
      | some (s', es) =>
        match I.next p es with
        | none => .returned s'
        | some q => .at q (parallelCopyIn S sight s' (fn.edgeCopies p q I))
  | c => c

/-- A run of `n` steps from the entry of a function in which the given variables are memory. -/
def runSeen (sight : Sight) (fn : IrFunction) (s : FrameState W) (n : Nat) : FrameConfig W :=
  (stepSeen S sight fn)^[n] (.at (fn.entryBlock, 0) s)

/-- In the runs of a function its own variables are memory. -/
theorem stepSeen_sight (fn : IrFunction) :
  stepSeen S fn.sight fn = stepIn S fn
  := by
  funext c
  cases c with
  | «at» => rfl
  | returned => rfl
  | stuck => rfl

theorem runSeen_sight (fn : IrFunction) (s : FrameState W) (n : Nat) :
  runSeen S fn.sight fn s n = runIn S fn s n
  := by
  rw [runSeen, runIn, stepSeen_sight]

variable {S} {fn fn' : IrFunction} {sight : Sight} {dead : Place → Prop}

/-- A step at an instruction. -/
theorem stepSeen_at {p : Point} {s : FrameState W} {I : IrInstr} (hI : fn.instrAt p = some I) :
  stepSeen S sight fn (.at p s) = match execIn S sight I s with
    | none => .stuck s
    | some r => match I.next p r.2 with
      | none => .returned r.1
      | some q => .at q (parallelCopyIn S sight r.1 (fn.edgeCopies p q I))
  := by
  rw [stepSeen, hI]
  dsimp only
  cases execIn S sight I s with
  | none => rfl
  | some r => rfl

/-- Instructions with the same events that go to the same points, with the same copies on the way,
keep runs together. -/
theorem SameButFor.sameRun {p : Point} {s s' : FrameState W} (hs : SameButFor dead s s')
    {I I' : IrInstr} (hI : fn.instrAt p = some I) (hI' : fn'.instrAt p = some I')
    (hexec : Option.Rel (fun r r' => r'.2 = r.2 ∧ SameButFor dead r.1 r'.1)
      (Polyc.execIn S sight I s) (Polyc.execIn S sight I' s'))
    (hnext : ∀ es, I'.next p es = I.next p es)
    (hcopies : ∀ q, fn'.edgeCopies p q I' = fn.edgeCopies p q I)
    (hsees : ∀ p, sight.sees .phi p → ¬ dead p)
    (hreads : ∀ q, ∀ c ∈ fn.edgeCopies p q I, ¬ dead c.2.place) :
  SameRun dead (stepSeen S sight fn (.at p s)) (stepSeen S sight fn' (.at p s'))
  := by
  rw [stepSeen_at hI, stepSeen_at hI']
  generalize Polyc.execIn S sight I s = r, Polyc.execIn S sight I' s' = r' at hexec
  cases hexec with
  | none => exact .stuck hs
  | @some r r' hsame =>
    dsimp only
    rw [hsame.1, hnext]
    cases I.next p r.2 with
    | none => exact .returned hsame.2
    | some q =>
      dsimp only
      rw [hcopies]
      exact .at (hsame.2.parallelCopyIn hsees (hreads q))

/-! ### One step -/

/-- The opcodes that only produce a value do not trap and have no events. -/
theorem effectIn_of_isSafe {I : IrInstr} (hop : I.op.isSafe = true) (m : Machine)
    (tr : List Event) (o : Operands) :
  ∃ w, effectIn sight m tr I o = some (w, [])
  := by
  have hstore : ¬ (I.op = .store ∧ I.dst.any fun d => sight.field d.key) := by
    rintro ⟨h, -⟩
    rw [h] at hop
    cases hop
  rw [effectIn, if_neg hstore, effect.eq_def]
  have halu : ∃ w, aluResult m I.op I.cmpKind o.r1 o.r2 = some w := by
    rw [aluResult.eq_def]
    cases o.r1 with
    | none => exact ⟨_, rfl⟩
    | some a =>
      cases o.r2 with
      | none => exact ⟨_, rfl⟩
      | some b =>
        cases h : I.op <;> rw [h] at hop <;> first
          | exact absurd hop (by decide)
          | exact ⟨_, rfl⟩
          | exact ⟨_, (apply_ite some _ _ _).symm⟩
  obtain ⟨w, hw⟩ := halu
  cases h : I.op <;> rw [h] at hop hw <;> first
    | exact absurd hop (by decide)
    | exact ⟨_, rfl⟩
    | exact ⟨some w, by simp only [hw, Option.map_some]⟩

/-- A write to a place that differs anyway. -/
theorem assignIn_dead {I : IrInstr} {d : IrValue} (hdst : I.dst = some d) (hdead : dead d.place)
    (w : Option Word) (φ : IrFrame) {p : Place} (hp : ¬ dead p) :
  assignIn S I w φ p = φ p
  := by
  have hne : p ≠ d.place := fun heq => hp (heq ▸ hdead)
  rw [assignIn.eq_def, hdst]
  cases w with
  | none => rfl
  | some w => exact Function.update_of_ne hne _ _

/-- An instruction that is removed changes the place of its destination only. -/
theorem execIn_removed {I : IrInstr} {d : IrValue} (hop : I.op.isSafe = true)
    (hdst : I.dst = some d) (hdead : dead d.place) {s s' : FrameState W}
    (h : SameButFor dead s s') (hsees : ∀ p, sight.sees .nop p → ¬ dead p) :
  Option.Rel (fun r r' => r'.2 = r.2 ∧ SameButFor dead r.1 r'.1)
    (execIn S sight I s) (execIn S sight (irMakeNop I) s')
  := by
  obtain ⟨w, hw⟩ := @effectIn_of_isSafe sight I hop
    (S.machine s.world (sight.visible I.op s.frame)) s.trace (s.operands S sight I)
  have hnop : ∀ m tr o, effectIn sight m tr (irMakeNop I) o = some (none, []) := by
    intro m tr o
    simp [effectIn, irMakeNop, effect]
  have hasm : I.op ≠ .asm := by
    intro h
    rw [h] at hop
    cases hop
  have hvisible : sight.visible I.op s.frame = sight.visible (irMakeNop I).op s'.frame := by
    have hvis : sight.visible (irMakeNop I).op s'.frame = sight.visible .nop s.frame :=
      h.visible_eq hsees
    rw [hvis]
    funext p
    cases p with
    | slot => rfl
    | reg => simp [Sight.visible, Sight.sees, hasm]
  rw [execIn_of_silent hw, execIn_of_silent (hnop _ _ _)]
  refine .some ⟨rfl, h.trace, ?_, ?_⟩
  · rw [hvisible, h.world]
  · intro p hp
    have hkeep : assignIn S I w s.frame p = s.frame p := assignIn_dead hdst hdead w s.frame hp
    exact (h.frame p hp).trans hkeep.symm

/-- A call whose result is bound changes the place of its destination in another way only. -/
theorem execIn_bound {I : IrInstr} {d : IrValue} (hop : I.op = .call) (hdst : I.dst = some d)
    (hdead : dead d.place) (pool : IrRegPool) {s s' : FrameState W} (h : SameButFor dead s s')
    (hreads : ∀ v ∈ I.inputs, ¬ dead v.place) (hsees : ∀ p, sight.sees I.op p → ¬ dead p) :
  Option.Rel (fun r r' => r'.2 = r.2 ∧ SameButFor dead r.1 r'.1)
    (execIn S sight I s) (execIn S sight (I.bindResult pool) s')
  := by
  have heffect : ∀ m tr o, effectIn sight m tr (I.bindResult pool) o = effectIn sight m tr I o := by
    intro m tr o
    simp only [effectIn, effect, IrInstr.bindResult, hop, reduceCtorEq, false_and, if_false]
  have hoperands : s'.operands S sight (I.bindResult pool) = s'.operands S sight I := by
    simp only [FrameState.operands, IrInstr.operandsIn, IrInstr.bindResult, hop, IrOp.readsDst,
      Bool.false_eq_true, if_false]
  have hvisible : ∀ φ, sight.visible (I.bindResult pool).op φ = sight.visible I.op φ :=
    fun _ => rfl
  obtain ⟨d', hdst', hdead'⟩ : ∃ d', (I.bindResult pool).dst = some d' ∧ dead d'.place :=
    ⟨_, congrArg (Option.map _) hdst, hdead⟩
  rw [execIn, execIn]
  simp only [heffect, hoperands, hvisible, h.visible_eq hsees, h.operands_eq hreads hsees, h.trace,
    h.world]
  cases effectIn sight _ s.trace I _ with
  | none => exact .none
  | some r =>
    refine .some ⟨rfl, rfl, rfl, ?_⟩
    intro p hp
    dsimp only
    rw [assignIn_dead hdst hdead _ _ hp, assignIn_dead hdst' hdead' _ _ hp]
    have hover : sight.overlay (I.bindResult pool).op = sight.overlay I.op := rfl
    rw [hover]
    split
    · rw [Sight.overlay, Sight.overlay, h.frame p hp]
    · exact h.frame p hp

/-- A step keeps the runs together. -/
theorem CleanedFrom.sameRun_step (h : CleanedFrom fn fn')
    (hlead : ∀ b ∈ fn.blocks, phisLead b.instructions) {c c' : FrameConfig W}
    (hrun : SameRun (DeadTmp fn') c c') :
  SameRun (DeadTmp fn') (stepSeen S fn'.sight fn c) (stepSeen S fn'.sight fn' c')
  := by
  cases hrun with
  | returned hs => exact .returned hs
  | stuck hs => exact .stuck hs
  | @«at» p s s' hs =>
    have hrel := h.instrAt p
    cases hI : fn.instrAt p with
    | none =>
      cases hI' : fn'.instrAt p with
      | none =>
        rw [stepSeen, stepSeen, hI, hI']
        exact .stuck hs
      | some I' =>
        rw [hI, hI'] at hrel
        cases hrel
    | some I =>
      cases hI' : fn'.instrAt p with
      | none =>
        rw [hI, hI'] at hrel
        cases hrel
      | some I' =>
        rw [hI, hI'] at hrel
        have hmem := fn'.mem_instrs_of_instrAt hI'
        have hcopied : ∀ q, ∀ c ∈ fn.edgeCopies p q I, ¬ DeadTmp fn' c.2.place := by
          intro q
          rw [← h.edgeCopies_eq hlead]
          exact not_deadTmp_copied
        cases hrel with
        | some hclean =>
          cases hclean with
          | kept =>
            apply hs.sameRun hI hI' (hs.execIn (not_deadTmp_read hmem) not_deadTmp_seen)
              (fun _ => rfl) (fun q => h.edgeCopies_eq hlead p q I) not_deadTmp_seen hcopied
          | removed d hop hdst hkind hunused =>
            have hdead : DeadTmp fn' d.place :=
              ⟨d.varId, hunused, by rw [IrValue.place_of_tmp hkind, IrValue.key, hkind]⟩
            have hjump : I.op.isJump = false := by
              cases h : I.op <;> rw [h] at hop <;> first
                | exact absurd hop (by decide)
                | rfl
            apply hs.sameRun hI hI' (execIn_removed hop hdst hdead hs not_deadTmp_seen)
            case hnext =>
              intro es
              rw [IrInstr.next, IrInstr.next]
              cases h : I.op <;> rw [h] at hop <;> first
                | exact absurd hop (by decide)
                | rfl
            case hcopies =>
              intro q
              rw [IrFunction.edgeCopies, IrFunction.edgeCopies, hjump]
              rfl
            case hsees => exact not_deadTmp_seen
            case hreads => exact hcopied
          | bound d pool hop hdst hkind hunused =>
            have hdead : DeadTmp fn' d.place :=
              ⟨d.varId, hunused, by rw [IrValue.place_of_tmp hkind, IrValue.key, hkind]⟩
            have hreads : ∀ v ∈ I.inputs, ¬ DeadTmp fn' v.place := by
              have hsame : (I.bindResult pool).inputs = I.inputs := by
                simp [IrInstr.inputs, IrInstr.bindResult, hop, IrOp.readsDst]
              rw [← hsame]
              exact not_deadTmp_read hmem
            apply hs.sameRun hI hI' (execIn_bound hop hdst hdead pool hs hreads not_deadTmp_seen)
              (fun _ => rfl) (fun q => h.edgeCopies_eq hlead p q _) not_deadTmp_seen hcopied

/-- Runs that are together show the same. -/
theorem sameObservations_of_deadTmp {c c' : FrameConfig W} (hrun : SameRun (DeadTmp fn') c c') :
  SameObservations S fn' c c'
  := by
  cases hrun with
  | returned hs => exact ⟨hs.trace, hs.world⟩
  | stuck hs => exact ⟨hs.trace, hs.world⟩
  | @«at» p s s' hs =>
    refine ⟨rfl, hs.trace, hs.world, ?_⟩
    intro I hI
    exact hs.operands_eq (not_deadTmp_read (fn'.mem_instrs_of_instrAt hI)) not_deadTmp_seen

/-- **Theorem.** Dead-code elimination is unobservable in a function whose phis lead their
blocks. -/
theorem deadCode_unobservable (S : Surroundings W) (pool : Option IrRegPool) (fn : IrFunction)
    (hlead : ∀ b ∈ fn.blocks, phisLead b.instructions) :
  ∃ fn', irOptDeadCodeElim pool fn = some fn' ∧ ∀ (s : FrameState W) (n : Nat),
    SameObservations S fn' (runSeen S fn'.sight fn s n) (runIn S fn' s n)
  := by
  obtain ⟨fn', hfn', hclean⟩ := irOptDeadCodeElim_isCleaned pool fn
  have h := hclean.from'
  refine ⟨fn', hfn', ?_⟩
  intro s n
  rw [← runSeen_sight]
  apply sameObservations_of_deadTmp
  induction n with
  | zero =>
    rw [runSeen, runSeen, Function.iterate_zero_apply, Function.iterate_zero_apply, h.entry]
    exact .at (.refl _ s)
  | succ n ih =>
    rw [runSeen, runSeen, Function.iterate_succ_apply', Function.iterate_succ_apply']
    exact h.sameRun_step hlead ih

end Runs

/-! ### A chain of unused temporaries -/

/-- A comparison whose operand is a sum, neither of which is used, and a call whose result is not
used. -/
def unusedFunction : IrFunction where
  entryBlock := 0
  blocks := [⟨0, [
    { op := .iadd, dst := some (irWordVar 1 .tmp 1), r1 := some (irWordVar 2 .param 2),
      r2 := some (irConstInt 1 .i64 7) },
    { op := .icmp, dst := some (irWordVar 3 .tmp 3), r1 := some (irWordVar 1 .tmp 1),
      r2 := some (irConstInt 1 .i64 0) },
    { op := .call, dst := some (irWordVar 4 .tmp 4), r1 := some (irConstInt 1 .i64 9) },
    { op := .ret, dst := some (irWordVar 2 .param 2) }]⟩]

/-- The sum is removed after the comparison. -/
example :
  (irOptDeadCodeElim none unusedFunction).map (fun fn => fn.instrs.map (·.op))
    = some [.nop, .nop, .call, .ret]
  := by decide

/-- A function in which a temporary is used by a temporary without uses. -/
theorem deadCode_unobservable_unused :
  ∃ fn', irOptDeadCodeElim none unusedFunction = some fn' ∧ ∀ (s : FrameState Word) (n : Nat),
    SameObservations r12Surroundings fn' (runSeen r12Surroundings fn'.sight unusedFunction s n)
      (runIn r12Surroundings fn' s n)
  := by
  apply deadCode_unobservable
  intro b hb
  rw [List.mem_singleton.mp hb]
  apply phisLead_of_noPhi
  decide

end Polyc
