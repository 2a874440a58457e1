import Polyc.Ir.Frames
import Polyc.Ir.InPlace

/-!
# Dead-store elimination

`irDeadStoreEliminate` walks over a function and turns the stores to those locals and parameters
into no operation whose slots have no reader and no address.  Stores are removed one by one, so
that the operand of a store that is already removed is no reader any more.
-/

namespace Polyc

/-! ### The pass -/

/-- `irSlotHasAddressTaken`. -/
def irSlotHasAddressTaken (fn : IrFunction) (varId : Nat) : Bool :=
  fn.instrs.any fun I => I.op ≠ .nop ∧ (I.op = .lea ∨ I.op = .gep) ∧
    I.r1.any fun v => v.kind ≠ .constInt ∧ v.varId = varId

/-- The operands of an instruction that `irSlotReadCount` looks at. -/
def IrInstr.countedReads (I : IrInstr) : List IrValue :=
  I.r1.toList ++ I.r2.toList
    ++ (if I.op = .br ∨ I.op = .ret ∨ I.op = .storeDeref then I.dst.toList else [])
    ++ (if I.op = .call then I.args else [])
    ++ (if I.op = .phi then I.phiPairs.map (·.irValue) else [])

/-- `irSlotReadCount`. -/
def irSlotReadCount (fn : IrFunction) (varId : Nat) : Nat :=
  ((fn.instrs.filter (·.op ≠ .nop)).map fun I => I.countedReads.countP (·.varId = varId)).sum

/-- The store that `irDeadStoreEliminate` turns into no operation. -/
def isDeadStore (fn : IrFunction) (I : IrInstr) : Bool :=
  I.op = .store ∧ I.dst.any fun d => (d.kind = .local ∨ d.kind = .param) ∧
    ¬ irSlotHasAddressTaken fn d.varId ∧ ¬ irSlotReadCount fn d.varId > 0

/-- What is left of a store. -/
def IrInstr.erased (I : IrInstr) : IrInstr :=
  { I with op := .nop, dst := none, r1 := none, r2 := none }

/-- One round of the walk. -/
def eliminateAt (fn : IrFunction) (p : Nat × Nat) : IrFunction :=
  match fn.get p with
  | some I => if isDeadStore fn I then fn.set p I.erased else fn
  | none => fn

/-- `irDeadStoreEliminate`. -/
def irDeadStoreEliminate (fn : IrFunction) : IrFunction := fn.indexes.foldl eliminateAt fn

/-! ### What the pass does -/

/-- A slot without readers. -/
def Unread (fn : IrFunction) (varId : Nat) : Prop :=
  ∀ I ∈ fn.instrs, I.op ≠ .nop → ∀ v ∈ I.countedReads, v.varId ≠ varId

/-- The count of readers is zero for a slot without readers. -/
theorem irSlotReadCount_eq_zero_iff {fn : IrFunction} {varId : Nat} :
  irSlotReadCount fn varId = 0 ↔ Unread fn varId
  := by
  simp only [irSlotReadCount, List.sum_eq_zero_iff_forall_eq_nat, List.forall_mem_map, List.mem_filter,
    List.countP_eq_zero, decide_eq_true_eq, and_imp, Unread]

/-- An instruction is kept, or is a store to a slot without readers that is removed. -/
inductive Erases (fn' : IrFunction) (I : IrInstr) : IrInstr → Prop where
  | kept : Erases fn' I I
  | erased (d : IrValue) (hop : I.op = .store) (hdst : I.dst = some d)
      (hkind : d.kind = .local ∨ d.kind = .param) (hunread : Unread fn' d.varId) :
    Erases fn' I I.erased

/-- A function without some stores of another, to slots without readers. -/
structure ErasedFrom (fn fn' : IrFunction) : Prop where
  entry : fn'.entryBlock = fn.entryBlock
  ids : fn'.blocks.map (·.id) = fn.blocks.map (·.id)
  instr : ∀ p, Option.Rel (Erases fn') (fn.get p) (fn'.get p)

/-- A removed store has no operand. -/
theorem unread_set {fn : IrFunction} {p : Nat × Nat} {I : IrInstr} (h : fn.get p = some I)
    {varId : Nat} (hunread : Unread fn varId) :
  Unread (fn.set p I.erased) varId
  := by
  intro J hJ hop
  obtain ⟨q, hq⟩ := IrFunction.mem_instrs_iff.mp hJ
  by_cases heq : q = p
  · rw [heq, IrFunction.get_set_self h] at hq
    cases hq
    contradiction
  · rw [fn.get_set_of_ne _ heq] at hq
    exact hunread J (IrFunction.mem_instrs_iff.mpr ⟨q, hq⟩) hop

/-- A rewritten instruction still is one when more slots have no readers. -/
theorem Erases.mono {fn fn' : IrFunction} {I J : IrInstr} (h : Erases fn I J)
    (hunread : ∀ varId, Unread fn varId → Unread fn' varId) :
  Erases fn' I J
  := by
  cases h with
  | kept => exact .kept
  | erased d hop hdst hkind h => exact .erased d hop hdst hkind (hunread _ h)

/-- What a store is that the walk removes. -/
theorem isDeadStore_iff {fn : IrFunction} {I : IrInstr} :
  isDeadStore fn I = true ↔ I.op = .store ∧ ∃ d, I.dst = some d ∧
    (d.kind = .local ∨ d.kind = .param) ∧ irSlotHasAddressTaken fn d.varId = false ∧
    Unread fn d.varId
  := by
  simp only [isDeadStore, decide_eq_true_eq, Option.any_eq_true, Bool.not_eq_true, not_lt,
    Nat.le_zero, irSlotReadCount_eq_zero_iff, gt_iff_lt]

/-- One round removes a store to a slot without readers, or nothing. -/
theorem ErasedFrom.eliminateAt {fn fn' : IrFunction} (h : ErasedFrom fn fn') (p : Nat × Nat) :
  ErasedFrom fn (eliminateAt fn' p)
  := by
  unfold Polyc.eliminateAt
  split
  case h_2 => exact h
  case h_1 I hI =>
    split
    case isFalse => exact h
    case isTrue hdead =>
      obtain ⟨hop, d, hdst, hkind, -, hunread⟩ := isDeadStore_iff.mp hdead
      constructor
      case entry => exact h.entry
      case ids => exact (fn'.set_ids p I.erased).trans h.ids
      case instr =>
        intro q
        have hq := h.instr q
        by_cases heq : q = p
        · rw [heq, hI] at hq
          rw [heq, IrFunction.get_set_self hI]
          cases hfn : fn.get p with
          | none =>
            rw [hfn] at hq
            cases hq
          | some I₀ =>
            rw [hfn] at hq
            cases hq with
            | some hrel =>
              cases hrel with
              | kept => exact .some (.erased d hop hdst hkind (unread_set hI hunread))
              | erased => cases hop
        · rw [fn'.get_set_of_ne _ heq]
          generalize fn.get q = J, fn'.get q = J' at hq
          cases hq with
          | none => exact .none
          | some hrel => exact .some (hrel.mono fun _ => unread_set hI)

/-- A function is what it is without any store removed. -/
theorem ErasedFrom.refl (fn : IrFunction) :
  ErasedFrom fn fn
  := by
  constructor
  case entry => rfl
  case ids => rfl
  case instr =>
    intro p
    cases fn.get p with
    | none => exact .none
    | some I => exact .some .kept

/-- The pass removes stores to slots that have no readers when it is done. -/
theorem irDeadStoreEliminate_erasedFrom (fn : IrFunction) :
  ErasedFrom fn (irDeadStoreEliminate fn)
  := by
  have hwalk : ∀ (ps : List (Nat × Nat)) (fn' : IrFunction), ErasedFrom fn fn' →
      ErasedFrom fn (ps.foldl eliminateAt fn') := by
    intro ps
    induction ps with
    | nil => exact fun _ h => h
    | cons p ps ih => exact fun fn' h => ih _ (h.eliminateAt p)
  exact hwalk fn.indexes fn (.refl fn)

/-!
## Dead stores are unobservable

Runs before and after the removal of dead stores go through the same points, with frames that
differ in the places of the removed stores only.  These places are not read by any operand that
the pass counts; a run in which they are not read otherwise shows no difference.
-/

/-! ### What is kept -/

section Kept

variable {fn fn' : IrFunction} (h : ErasedFrom fn fn')

include h

/-- The instructions at a point of both functions. -/
theorem ErasedFrom.instrAt (p : Point) :
  Option.Rel (Erases fn') (fn.instrAt p) (fn'.instrAt p)
  := by
  rw [IrFunction.instrAt_eq_get, IrFunction.instrAt_eq_get, IrFunction.layoutIndex_congr h.ids]
  exact h.instr _

/-- An instruction that is no store is kept. -/
theorem ErasedFrom.mem_of_ne_store {I : IrInstr} (hI : I ∈ fn.instrs) (hop : I.op ≠ .store) :
  I ∈ fn'.instrs
  := by
  obtain ⟨p, hp⟩ := IrFunction.mem_instrs_iff.mp hI
  have hrel := h.instr p
  rw [hp] at hrel
  apply IrFunction.mem_instrs_iff.mpr
  use p
  generalize fn'.get p = J at hrel ⊢
  cases hrel with
  | some hJ =>
    cases hJ with
    | kept => rfl
    | erased d hstore => contradiction

/-- No instruction appears. -/
theorem ErasedFrom.mem_of_ne_nop {I : IrInstr} (hI : I ∈ fn'.instrs) (hop : I.op ≠ .nop) :
  I ∈ fn.instrs
  := by
  obtain ⟨p, hp⟩ := IrFunction.mem_instrs_iff.mp hI
  have hrel := h.instr p
  rw [hp] at hrel
  apply IrFunction.mem_instrs_iff.mpr
  use p
  generalize fn.get p = J at hrel ⊢
  cases hrel with
  | some hJ =>
    cases hJ with
    | kept => rfl
    | erased d hstore => contradiction

/-- What only instructions have that are neither stores nor no operations. -/
theorem ErasedFrom.any_eq {q : IrInstr → Bool}
    (hq : ∀ I, q I = true → I.op ≠ .store ∧ I.op ≠ .nop) :
  fn'.instrs.any q = fn.instrs.any q
  := by
  rw [Bool.eq_iff_iff, List.any_eq_true, List.any_eq_true]
  constructor
  · rintro ⟨I, hI, hqI⟩
    exact ⟨I, h.mem_of_ne_nop hI (hq I hqI).2, hqI⟩
  · rintro ⟨I, hI, hqI⟩
    exact ⟨I, h.mem_of_ne_store hI (hq I hqI).1, hqI⟩

/-- The same variables are memory. -/
theorem ErasedFrom.sight_eq :
  fn'.sight = fn.sight
  := by
  apply IrFunction.sight_congr
  intro q hq
  apply h.any_eq
  intro I hI
  rcases hq I hI with hop | hop
  all_goals
    rw [hop]
    exact ⟨nofun, nofun⟩

end Kept

/-! ### Removed stores -/

/-- A store to `d` is removed. -/
def Removed (fn fn' : IrFunction) (d : IrValue) : Prop :=
  ∃ p I, fn.get p = some I ∧ fn'.get p ≠ some I ∧ I.dst = some d

/-- The places of removed stores. -/
def DeadPlace (fn fn' : IrFunction) (p : Place) : Prop := ∃ d, Removed fn fn' d ∧ d.place = p

/-- What is removed. -/
theorem ErasedFrom.removed {fn fn' : IrFunction} (h : ErasedFrom fn fn') {d : IrValue}
    (hd : Removed fn fn' d) :
  (d.kind = .local ∨ d.kind = .param) ∧ Unread fn' d.varId
  := by
  obtain ⟨p, I, hI, hne, hdst⟩ := hd
  have hrel := h.instr p
  rw [hI] at hrel
  generalize fn'.get p = J at hrel hne
  cases hrel with
  | some hJ =>
    cases hJ with
    | kept => contradiction
    | erased e hop hdst' hkind hunread =>
      cases hdst.symm.trans hdst'
      exact ⟨hkind, hunread⟩

/-- An instruction reads the slot of a removed store, if at all, where the pass looks. -/
structure SparesInstr (d : IrValue) (I : IrInstr) : Prop where
  /-- Inline assembly sees the register that a variable is pinned to. -/
  asm : I.op = .asm → d.pinnedReg = none
  /-- The index of an address is not looked at. -/
  idx : I.op.readsIdx → ∀ v ∈ I.idx, v.place ≠ d.place
  /-- The address of a read-modify-write is not looked at. -/
  base : I.op = .rmwDeref → ∀ v ∈ I.dst, v.place ≠ d.place
  /-- Another variable may be pinned to the same register. -/
  shared : ∀ v ∈ I.inputs, v.place = d.place → v.varId = d.varId

/-- The phis of a block read the slot of a removed store, if at all, where the pass looks, and stand
before all stores. -/
structure SparesBlock (d : IrValue) (b : IrBlock) : Prop where
  phisLead : phisLead b.instructions
  shared : ∀ I ∈ b.instructions, I.op = .phi → ∀ c ∈ I.phiPairs, c.irValue.place = d.place →
    c.irValue.varId = d.varId

/-- A step of a run reads the places of removed stores, if at all, where the pass looks. -/
def Spares {W : Type} (S : Surroundings W) (fn fn' : IrFunction) : FrameConfig W → Prop
  | .at p s => ∀ I, fn.instrAt p = some I → fn'.instrAt p = some I → ∀ d, Removed fn fn' d →
    SparesInstr d I ∧ ∀ r q b, execIn S fn.sight I s = some r → I.next p r.2 = some q →
      I.op.isJump → fn.findBlock q.1 = some b → SparesBlock d b
  | _ => True

/-- What is left of a store reads nothing. -/
theorem inputs_erased (I : IrInstr) :
  I.erased.inputs = []
  := rfl

/-- The values that an instruction reads are those that the pass counts, indexes, and addresses of
read-modify-writes. -/
theorem mem_countedReads_of_inputs {I : IrInstr} {v : IrValue} (h : v ∈ I.inputs) :
  v ∈ I.countedReads ∨ (I.op.readsIdx ∧ v ∈ I.idx) ∨ (I.op = .rmwDeref ∧ v ∈ I.dst)
  := by
  simp only [IrInstr.inputs, List.mem_append, List.mem_ite_nil_right,
    Option.mem_toList] at h
  simp only [IrInstr.countedReads, List.mem_append, List.mem_ite_nil_right, Option.mem_toList]
  rcases h with (((⟨hop, hdst⟩ | ⟨-, hr1⟩) | ⟨-, hr2⟩) | hidx) | hargs
  · cases h : I.op <;> simp_all [IrOp.readsDst]
  · exact .inl (.inl (.inl (.inl (.inl hr1))))
  · exact .inl (.inl (.inl (.inl (.inr hr2))))
  · exact .inr (.inl hidx)
  · exact .inl (.inl (.inr hargs))

/-- A kept instruction reads no place of a removed store. -/
theorem ErasedFrom.not_dead {fn fn' : IrFunction} (h : ErasedFrom fn fn') {I : IrInstr}
    (hI : I ∈ fn'.instrs) (hspares : ∀ d, Removed fn fn' d → SparesInstr d I) :
  ∀ v ∈ I.inputs, ¬ DeadPlace fn fn' v.place
  := by
  rintro v hv ⟨d, hd, hplace⟩
  obtain ⟨-, hunread⟩ := h.removed hd
  have hs := hspares d hd
  have hnop : I.op ≠ .nop := by
    intro hop
    simp [IrInstr.inputs, hop, IrOp.readsDst, IrOp.readsR1, IrOp.readsR2,
      IrOp.readsIdx] at hv
  rcases mem_countedReads_of_inputs hv with hcounted | ⟨hop, hidx⟩ | ⟨hop, hdst⟩
  · exact hunread I hI hnop v hcounted (hs.shared v hv hplace.symm)
  · exact hs.idx hop v hidx hplace.symm
  · exact hs.base hop v hdst hplace.symm

/-- The outside sees no place of a removed store. -/
theorem ErasedFrom.not_sees {fn fn' : IrFunction} (h : ErasedFrom fn fn') {op : IrOp}
    (hasm : op = .asm → ∀ d, Removed fn fn' d → d.pinnedReg = none) :
  ∀ p, fn.sight.sees op p → ¬ DeadPlace fn fn' p
  := by
  rintro p hp ⟨d, hd, rfl⟩
  obtain ⟨hkind, hunread⟩ := h.removed hd
  cases hreg : d.pinnedReg with
  | some name =>
    have htmp : d.kind ≠ .tmp := by
      rcases hkind with hkind | hkind
      all_goals
        rw [hkind]
        exact nofun
    rw [IrValue.place_of_pinned htmp hreg] at hp
    rw [hasm (of_decide_eq_true hp) d hd] at hreg
    cases hreg
  | none =>
    rw [IrValue.place_of_unpinned hreg] at hp
    obtain ⟨I, hI, htakes⟩ := List.any_eq_true.mp hp
    obtain ⟨hop, hr1⟩ := of_decide_eq_true htakes
    obtain ⟨v, hv, hkey⟩ := (Option.any_eq_true _ _).mp hr1
    obtain ⟨-, hkey⟩ := of_decide_eq_true hkey
    have hstore : I.op ≠ .store ∧ I.op ≠ .nop := by
      rcases hop with hop | hop
      all_goals
        rw [hop]
        exact ⟨nofun, nofun⟩
    apply hunread I (h.mem_of_ne_store hI hstore.1) hstore.2 v
    · simp [IrInstr.countedReads, hv]
    · exact congrArg VarKey.id hkey

/-! ### Blocks -/

/-- No store is a phi. -/
theorem Erases.phi {fn' : IrFunction} {I I' : IrInstr} (h : Erases fn' I I') :
  (I'.op = .phi ↔ I.op = .phi) ∧ (I.op = .nop → I'.op = .nop)
  := by
  cases h with
  | kept => exact ⟨Iff.rfl, id⟩
  | erased d hop =>
    rw [hop]
    exact ⟨⟨nofun, nofun⟩, nofun⟩

/-- A block without some of its stores has the same leading phis. -/
theorem leadingPhis_of_erases {fn' : IrFunction} {l l' : List IrInstr}
    (h : List.Forall₂ (Erases fn') l l') (hl : phisLead l) :
  leadingPhis l' = leadingPhis l
  := by
  rw [leadingPhis_eq_filter hl, leadingPhis_eq_filter (phisLead_of_forall₂ Erases.phi h hl)]
  clear hl
  induction h with
  | nil => rfl
  | @cons I I' l l' hI _ ih =>
    cases hI with
    | kept => rw [List.filter_cons, List.filter_cons, ih]
    | erased d hop =>
      rw [List.filter_cons_of_neg (by simp [IrInstr.erased]),
        List.filter_cons_of_neg (by simp [hop]), ih]

/-- Where the functions differ a store is removed. -/
theorem ErasedFrom.removed_of_ne {fn fn' : IrFunction} (h : ErasedFrom fn fn') {p : Nat × Nat}
    (hne : fn'.get p ≠ fn.get p) :
  ∃ d, Removed fn fn' d
  := by
  have hrel := h.instr p
  cases hI : fn.get p with
  | none =>
    rw [hI] at hrel hne
    generalize fn'.get p = J at hrel hne
    cases hrel with
    | none => contradiction
  | some I =>
    cases hI' : fn'.get p with
    | none =>
      rw [hI, hI'] at hrel
      cases hrel
    | some I' =>
      rw [hI, hI'] at hrel hne
      cases hrel with
      | some hJ =>
        cases hJ with
        | kept => contradiction
        | erased d hop hdst =>
          refine ⟨d, p, I, hI, ?_, hdst⟩
          rw [hI']
          exact hne

/-- The block of an id in both functions. -/
theorem ErasedFrom.findBlock {fn fn' : IrFunction} (h : ErasedFrom fn fn') (id : Nat) :
  Option.Rel (fun b b' => List.Forall₂ (Erases fn') b.instructions b'.instructions ∧
      (b'.instructions = b.instructions ∨ ∃ d, Removed fn fn' d))
    (fn.findBlock id) (fn'.findBlock id)
  := by
  rw [IrFunction.findBlock_eq_getElem?, IrFunction.findBlock_eq_getElem?,
    IrFunction.layoutIndex_congr h.ids]
  have hids : (fn'.blocks[fn.layoutIndex id]?).map (·.id)
      = (fn.blocks[fn.layoutIndex id]?).map (·.id) := by
    rw [← List.getElem?_map, ← List.getElem?_map, h.ids]
  have hinstr : ∀ j, Option.Rel (Erases fn') (fn.get (fn.layoutIndex id, j))
      (fn'.get (fn.layoutIndex id, j)) := fun j => h.instr _
  have hremoved : (∀ j, fn'.get (fn.layoutIndex id, j) = fn.get (fn.layoutIndex id, j))
      ∨ ∃ d, Removed fn fn' d := by
    rw [or_iff_not_imp_left]
    intro hdiffer
    obtain ⟨j, hj⟩ := not_forall.mp hdiffer
    exact h.removed_of_ne hj
  simp only [IrFunction.get] at hinstr hremoved
  generalize fn.blocks[fn.layoutIndex id]? = b, fn'.blocks[fn.layoutIndex id]? = b'
    at hids hinstr hremoved
  cases b with
  | none =>
    cases b' with
    | none => exact .none
    | some b' => cases hids
  | some b =>
    cases b' with
    | none => cases hids
    | some b' => exact .some ⟨forall₂_of_getElem? hinstr, hremoved.imp_left List.ext_getElem?⟩

/-- Edges make the same copies. -/
theorem ErasedFrom.edgeCopies_eq {fn fn' : IrFunction} (h : ErasedFrom fn fn') {p q : Point}
    {I : IrInstr} (hphis : ∀ d, Removed fn fn' d → I.op.isJump → ∀ b, fn.findBlock q.1 = some b →
      phisLead b.instructions) :
  fn'.edgeCopies p q I = fn.edgeCopies p q I
  := by
  rw [IrFunction.edgeCopies, IrFunction.edgeCopies]
  split
  case isFalse => rfl
  case isTrue hjump =>
    have hrel := h.findBlock q.1
    have hlead := fun d hd => hphis d hd hjump
    generalize fn.findBlock q.1 = b, fn'.findBlock q.1 = b' at hrel hlead
    cases hrel with
    | none => rfl
    | some hb =>
      simp only [phiCopies]
      rcases hb.2 with heq | ⟨d, hd⟩
      · rw [heq]
      · rw [leadingPhis_of_erases hb.1 (hlead d hd _ rfl)]

/-- A copy on an edge is of an incoming value of a phi of the block. -/
theorem mem_edgeCopies {fn : IrFunction} {p q : Point} {I : IrInstr} {c : IrValue × IrValue}
    (h : c ∈ fn.edgeCopies p q I) :
  I.op.isJump ∧ ∃ b J x, fn.findBlock q.1 = some b ∧ J ∈ b.instructions ∧ J.op = .phi ∧
    x ∈ J.phiPairs ∧ c.2 = x.irValue
  := by
  rw [IrFunction.edgeCopies] at h
  split at h
  case isFalse => cases h
  case isTrue hjump =>
    refine ⟨hjump, ?_⟩
    cases hb : fn.findBlock q.1 with
    | none =>
      rw [hb] at h
      cases h
    | some b =>
      rw [hb] at h
      obtain ⟨J, hJ, hc⟩ := List.mem_filterMap.mp h
      obtain ⟨d, -, hmap⟩ := Option.bind_eq_some_iff.mp hc
      obtain ⟨v, hv, rfl⟩ := Option.map_eq_some_iff.mp hmap
      obtain ⟨x, hx, rfl⟩ := Option.map_eq_some_iff.mp hv
      have hphi : J.op = .phi := by simpa using List.mem_takeWhile_imp hJ
      exact ⟨b, J, x, rfl, List.mem_of_mem_filter (List.takeWhile_subset _ hJ), hphi,
        List.mem_of_find?_eq_some hx, rfl⟩

/-! ### Runs -/

section Runs

variable {W : Type} {S : Surroundings W} {fn fn' : IrFunction}

/-- Two runs at the same point, with frames that differ in some places only. -/
inductive SameRun (dead : Place → Prop) : FrameConfig W → FrameConfig W → Prop where
  | at {p s s'} (h : SameButFor dead s s') : SameRun dead (.at p s) (.at p s')
  | returned {s s'} (h : SameButFor dead s s') : SameRun dead (.returned s) (.returned s')
  | stuck {s s'} (h : SameButFor dead s s') : SameRun dead (.stuck s) (.stuck s')

/-- A removed store changes the place of its destination only. -/
theorem execIn_store {sight : Sight} {I : IrInstr} {d : IrValue} (hop : I.op = .store)
    (hdst : I.dst = some d) (hvar : d.kind.isVar) (hfield : sight.field d.key = false)
    {dead : Place → Prop} (hdead : dead d.place) {s s' : FrameState W} (h : SameButFor dead s s')
    (hsees : ∀ p, sight.sees .store p → ¬ dead p) :
  ∃ t t', execIn S sight I s = some (t, []) ∧ execIn S sight I.erased s' = some (t', []) ∧
    SameButFor dead t t'
  := by
  have heffect : ∀ m tr o, effectIn sight m tr I o = some (o.r1, []) := by
    intro m tr o
    simp [effectIn, hop, hdst, hfield, effect, hvar]
  have herased : ∀ m tr o, effectIn sight m tr I.erased o = some (none, []) := by
    intro m tr o
    simp [effectIn, IrInstr.erased, effect]
  refine ⟨_, _, execIn_of_silent (heffect _ _ _), execIn_of_silent (herased _ _ _), ?_⟩
  constructor
  case trace => exact h.trace
  case world =>
    have hvisible : sight.visible I.erased.op s'.frame = sight.visible I.op s.frame := by
      rw [hop]
      exact h.visible_eq hsees
    rw [hvisible, h.world]
  case frame =>
    intro p hp
    have hne : p ≠ d.place := fun heq => hp (heq ▸ hdead)
    have hkeep : ∀ w, assignIn S I w s.frame p = s.frame p := by
      intro w
      rw [assignIn.eq_def, hdst]
      cases w with
      | none => rfl
      | some w => exact Function.update_of_ne hne _ _
    exact (h.frame p hp).trans (hkeep _).symm

/-- The points that are reached do not depend on the frame. -/
theorem stepIn_at {p : Point} {s : FrameState W} {I : IrInstr} (hI : fn.instrAt p = some I) :
  stepIn S fn (.at p s) = match execIn S fn.sight I s with
    | none => .stuck s
    | some r => match I.next p r.2 with
      | none => .returned r.1
      | some q => .at q (parallelCopyIn S fn.sight r.1 (fn.edgeCopies p q I))
  := by
  rw [stepIn, hI]
  dsimp only
  cases execIn S fn.sight I s with
  | none => rfl
  | some r => rfl

/-- A step at a kept instruction keeps the runs together. -/
theorem ErasedFrom.sameRun_kept (h : ErasedFrom fn fn') {p : Point} {s s' : FrameState W}
    (hs : SameButFor (DeadPlace fn fn') s s') {I : IrInstr} (hI : fn.instrAt p = some I)
    (hI' : fn'.instrAt p = some I) (hspares : Spares S fn fn' (.at p s)) :
  SameRun (DeadPlace fn fn') (stepIn S fn (.at p s)) (stepIn S fn' (.at p s'))
  := by
  have hmem := fn'.mem_instrs_of_instrAt hI'
  have hinstr := fun d hd => (hspares I hI hI' d hd).1
  have hexec := hs.execIn (S := S) (h.not_dead hmem hinstr)
    (h.not_sees fun hop d hd => (hinstr d hd).asm hop)
  rw [stepIn_at hI, stepIn_at hI', h.sight_eq]
  cases hr : execIn S fn.sight I s with
  | none =>
    cases hr' : execIn S fn.sight I s' with
    | none => exact .stuck hs
    | some r' =>
      rw [hr, hr'] at hexec
      cases hexec
  | some r =>
    cases hr' : execIn S fn.sight I s' with
    | none =>
      rw [hr, hr'] at hexec
      cases hexec
    | some r' =>
      rw [hr, hr'] at hexec
      cases hexec with
      | some hsame =>
        dsimp only
        rw [hsame.1]
        cases hq : I.next p r.2 with
        | none => exact .returned hsame.2
        | some q =>
          have hblock := fun d hd hjump b hb => (hspares I hI hI' d hd).2 r q b hr hq hjump hb
          dsimp only
          rw [h.edgeCopies_eq fun d hd hjump b hb => (hblock d hd hjump b hb).phisLead]
          apply SameRun.at
          apply hsame.2.parallelCopyIn (h.not_sees nofun)
          rintro c hc ⟨d, hd, hplace⟩
          obtain ⟨hjump, b, J, x, hb, hJ, hphi, hx, hcx⟩ := mem_edgeCopies hc
          rw [hcx] at hplace
          have hid := (hblock d hd hjump b hb).shared J hJ hphi x hx hplace.symm
          have hop : J.op ≠ .store ∧ J.op ≠ .nop := by
            rw [hphi]
            exact ⟨nofun, nofun⟩
          have hJfn : J ∈ fn.instrs :=
            List.mem_flatMap.mpr ⟨b, (fn.findBlock_some hb).1, hJ⟩
          apply (h.removed hd).2 J (h.mem_of_ne_store hJfn hop.1) hop.2 x.irValue _ hid
          simp only [IrInstr.countedReads, hphi, if_true, List.mem_append, List.mem_map]
          exact .inr ⟨x, hx, rfl⟩

/-- A step at a removed store keeps the runs together. -/
theorem ErasedFrom.sameRun_erased (h : ErasedFrom fn fn') {p : Point} {s s' : FrameState W}
    (hs : SameButFor (DeadPlace fn fn') s s') {I : IrInstr} (hI : fn.instrAt p = some I)
    (hI' : fn'.instrAt p = some I.erased) {d : IrValue} (hop : I.op = .store)
    (hdst : I.dst = some d) (hkind : d.kind = .local ∨ d.kind = .param) :
  SameRun (DeadPlace fn fn') (stepIn S fn (.at p s)) (stepIn S fn' (.at p s'))
  := by
  have hvar : d.kind.isVar = true ∧ d.kind ≠ .tmp := by
    rcases hkind with hkind | hkind
    all_goals
      rw [hkind]
      exact ⟨rfl, nofun⟩
  have hfield : fn.sight.field d.key = false := by
    apply Bool.eq_false_iff.mpr
    intro hfield
    obtain ⟨J, -, hnames⟩ := List.any_eq_true.mp hfield
    obtain ⟨v, -, hv⟩ := (Option.any_eq_true _ _).mp (of_decide_eq_true hnames).2
    obtain ⟨htmp, hkey⟩ := of_decide_eq_true hv
    exact hvar.2 ((congrArg VarKey.kind hkey).symm.trans htmp)
  have hdead : DeadPlace fn fn' d.place := by
    refine ⟨d, ⟨(fn.layoutIndex p.1, p.2), I, ?_, ?_, hdst⟩, rfl⟩
    · rw [← fn.instrAt_eq_get, hI]
    · rw [← IrFunction.layoutIndex_congr h.ids, ← fn'.instrAt_eq_get, hI', ne_eq, Option.some_inj]
      intro heq
      rw [← heq] at hop
      cases hop
  obtain ⟨t, t', ht, ht', hsame⟩ :=
    execIn_store (S := S) hop hdst hvar.1 hfield hdead hs (h.not_sees nofun)
  have hnext : ∀ es, I.next p es = some (p.1, p.2 + 1) ∧ I.erased.next p es = some (p.1, p.2 + 1) :=
    fun es => ⟨by rw [IrInstr.next, hop], rfl⟩
  have hcopies : ∀ q, fn.edgeCopies p q I = [] ∧ fn'.edgeCopies p q I.erased = [] :=
    fun q => ⟨by rw [IrFunction.edgeCopies, hop]; rfl, rfl⟩
  rw [stepIn_at hI, stepIn_at hI', h.sight_eq, ht, ht']
  dsimp only
  rw [(hnext []).1, (hnext []).2]
  dsimp only
  rw [(hcopies _).1, (hcopies _).2]
  exact .at hsame

/-- A step keeps the runs together. -/
theorem ErasedFrom.sameRun_step (h : ErasedFrom fn fn') {c c' : FrameConfig W}
    (hrun : SameRun (DeadPlace fn fn') c c') (hspares : Spares S fn fn' c) :
  SameRun (DeadPlace fn fn') (stepIn S fn c) (stepIn S fn' c')
  := by
  cases hrun with
  | returned hs => exact .returned hs
  | stuck hs => exact .stuck hs
  | @«at» p s s' hs =>
    have hrel := h.instrAt p
    cases hI : fn.instrAt p with
    | none =>
      cases hI' : fn'.instrAt p with
      | none =>
        rw [stepIn, stepIn, hI, hI']
        exact .stuck hs
      | some I' =>
        rw [hI, hI'] at hrel
        cases hrel
    | some I =>
      cases hI' : fn'.instrAt p with
      | none =>
        rw [hI, hI'] at hrel
        cases hrel
      | some I' =>
        rw [hI, hI'] at hrel
        cases hrel with
        | some hI'' =>
          cases hI'' with
          | kept => exact h.sameRun_kept hs hI hI' hspares
          | erased d hop hdst hkind hunread => exact h.sameRun_erased hs hI hI' hop hdst hkind

/-- Two runs show the same: they have come to the same point with the same events and to the same
state of the outside, and the instruction that is executed next reads the same words. -/
def SameObservations (S : Surroundings W) (fn' : IrFunction) :
    FrameConfig W → FrameConfig W → Prop
  | .at p s, .at p' s' => p' = p ∧ s'.trace = s.trace ∧ s'.world = s.world ∧
    ∀ I, fn'.instrAt p = some I → s'.operands S fn'.sight I = s.operands S fn'.sight I
  | .returned s, .returned s' | .stuck s, .stuck s' => s'.trace = s.trace ∧ s'.world = s.world
  | _, _ => False

/-- Runs that are together show the same. -/
theorem ErasedFrom.sameObservations (h : ErasedFrom fn fn') {c c' : FrameConfig W}
    (hrun : SameRun (DeadPlace fn fn') c c') (hspares : Spares S fn fn' c) :
  SameObservations S fn' c c'
  := by
  cases hrun with
  | returned hs => exact ⟨hs.trace, hs.world⟩
  | stuck hs => exact ⟨hs.trace, hs.world⟩
  | @«at» p s s' hs =>
    refine ⟨rfl, hs.trace, hs.world, ?_⟩
    intro I hI'
    have hrel := h.instrAt p
    rw [hI'] at hrel
    rw [h.sight_eq]
    cases hI : fn.instrAt p with
    | none =>
      rw [hI] at hrel
      cases hrel
    | some I₀ =>
      rw [hI] at hrel
      cases hrel with
      | some hJ =>
        cases hJ with
        | kept =>
          have hinstr := fun d hd => (hspares I hI hI' d hd).1
          exact hs.operands_eq (h.not_dead (fn'.mem_instrs_of_instrAt hI') hinstr)
            (h.not_sees fun hop d hd => (hinstr d hd).asm hop)
        | erased d hop =>
          have hasm : I₀.erased.op = .asm → ∀ d, Removed fn fn' d → d.pinnedReg = none := nofun
          apply hs.operands_eq _ (h.not_sees hasm)
          rw [inputs_erased]
          exact fun v hv => absurd hv List.not_mem_nil

/-- **Theorem.** In a run whose steps read the places of removed stores, if at all, where the pass
looks, dead-store elimination is unobservable. -/
theorem deadStores_unobservable (S : Surroundings W) (fn : IrFunction) (s : FrameState W) (n : Nat)
    (hspares : ∀ i ≤ n, Spares S fn (irDeadStoreEliminate fn) (runIn S fn s i)) :
  SameObservations S (irDeadStoreEliminate fn) (runIn S fn s n)
    (runIn S (irDeadStoreEliminate fn) s n)
  := by
  have h := irDeadStoreEliminate_erasedFrom fn
  have hrun : SameRun (DeadPlace fn (irDeadStoreEliminate fn)) (runIn S fn s n)
      (runIn S (irDeadStoreEliminate fn) s n) := by
    have hsteps : ∀ i ≤ n, SameRun (DeadPlace fn (irDeadStoreEliminate fn)) (runIn S fn s i)
        (runIn S (irDeadStoreEliminate fn) s i) := by
      intro i
      induction i with
      | zero =>
        intro _
        rw [runIn, runIn, h.entry]
        exact .at (.refl _ s)
      | succ i ih =>
        intro hi
        rw [runIn, runIn, Function.iterate_succ_apply', Function.iterate_succ_apply']
        exact h.sameRun_step (ih (Nat.le_of_succ_le hi)) (hspares i (Nat.le_of_succ_le hi))
    exact hsteps n (Nat.le_refl n)
  exact h.sameObservations hrun (hspares n (Nat.le_refl n))

end Runs

/-! ### Two functions -/

/-- Surroundings whose state is what they last saw in a register. -/
def r12Surroundings : Surroundings Word where
  machine _ _ := zeroMachine
  next w vis es := if es = [] then w else vis (.reg "r12")
  changes _ vis _ := vis
  home _ w := w
  stored _ _ w _ := w
  home_word _ _ _ := rfl

/-- A store of seven to a variable, and an instruction between it and the return. -/
def storeFunction (d : IrValue) (I : IrInstr) : IrFunction where
  entryBlock := 0
  blocks := [⟨0, [{ op := .store, dst := some d, r1 := some (irConstInt 1 .i64 7) }, I,
    { op := .ret, dst := some (irConstInt 2 .i64 0) }]⟩]

/-- Frames of zeros. -/
def zeroState : FrameState Word := ⟨fun _ => 0, [], 0⟩

/-- A store to a local that is not read is unobservable. -/
theorem deadStores_unobservable_local :
  SameObservations r12Surroundings
    (irDeadStoreEliminate (storeFunction (irWordVar 3 .local 3) { op := .nop }))
    (runIn r12Surroundings (storeFunction (irWordVar 3 .local 3) { op := .nop }) zeroState 2)
    (runIn r12Surroundings
      (irDeadStoreEliminate (storeFunction (irWordVar 3 .local 3) { op := .nop })) zeroState 2)
  := by
  apply deadStores_unobservable
  have hplace : ∀ d, Removed (storeFunction (irWordVar 3 .local 3) { op := .nop })
      (irDeadStoreEliminate (storeFunction (irWordVar 3 .local 3) { op := .nop })) d →
      (irConstInt 2 .i64 0).place ≠ d.place := by
    intro d hd hplace
    have hkind := ((irDeadStoreEliminate_erasedFrom _).removed hd).1
    have hslot : d.place = .slot d.key ∨ ∃ name, d.place = .reg name := by
      rw [IrValue.place]
      cases d.pinnedReg with
      | some name =>
        split
        · exact .inl rfl
        · exact .inr ⟨name, rfl⟩
      | none => exact .inl (ite_self _)
    rw [← hplace] at hslot
    rcases hslot with hslot | ⟨name, hreg⟩
    · have hconst : IrValueKind.constInt = d.kind := congrArg VarKey.kind (Place.slot.inj hslot)
      rw [← hconst] at hkind
      rcases hkind with hkind | hkind
      all_goals cases hkind
    · cases hreg
  intro i hi
  have hcases : i = 0 ∨ i = 1 ∨ i = 2 := by omega
  rcases hcases with rfl | rfl | rfl
  · rintro I ⟨⟩ hI'
    exact absurd hI' (by decide)
  · rintro I ⟨⟩ - d hd
    refine ⟨⟨(absurd · (by decide)), (absurd · (by decide)), (absurd · (by decide)), ?_⟩, ?_⟩
    · exact fun v hv => absurd hv List.not_mem_nil
    · rintro r q b - - hjump
      cases hjump
  · rintro I ⟨⟩ - d hd
    refine ⟨⟨(absurd · (by decide)), (absurd · (by decide)), (absurd · (by decide)), ?_⟩, ?_⟩
    · intro v hv hplace'
      rw [List.mem_singleton.mp hv] at hplace'
      exact absurd hplace' (hplace d hd)
    · rintro r q b - - hjump
      cases hjump

/-- Inline assembly that reads a register sees that the store to the variable that is pinned to it is
removed. -/
theorem not_deadStores_unobservable :
  ¬ ∀ (S : Surroundings Word) (fn : IrFunction) (s : FrameState Word) (n : Nat),
    SameObservations S (irDeadStoreEliminate fn) (runIn S fn s n)
      (runIn S (irDeadStoreEliminate fn) s n)
  := by
  intro h
  obtain ⟨-, -, hworld, -⟩ := h r12Surroundings
    (storeFunction { irWordVar 3 .local 3 with pinnedReg := some "r12" } { op := .asm }) zeroState 2
  exact absurd hworld (by decide)

end Polyc
