import Polyc.Ir.BuilderFlow

/-!
# Scans and contexts

The invariant between the scan of a function and the context of its lowering, and what the
steps do to it that statements are lowered with: expressions, jumps and branches, new blocks,
loops and switches, declarations and labels.
-/

namespace Polyc

open IrCtx FnCtx

/-! ### The scan and the context -/

/-- The blocks of the labels. -/
def FnCtx.labelBlocks (s : FnCtx) : Set Nat := {id | ∃ l, s.labels l = some id}

/-- The blocks of the labels in a list. -/
def FnCtx.blocksOf (s : FnCtx) (names : List String) : Set Nat :=
  {id | ∃ l ∈ names, s.labels l = some id}

/-- What is around a statement: the loops and the switches, and the function. -/
structure Around where
  loopStack : List IrLoopCtx
  exitBlock : Nat
  hasRet : Bool

/-- What is around the body of a loop or a switch. -/
def Around.push (A : Around) (continueBlk : Option Nat) (breakBlk : Nat) : Around :=
  { A with loopStack := ⟨continueBlk, breakBlk⟩ :: A.loopStack }

/-- A scan knows the context of the lowering of a statement.  What is around the statement
adds the blocks in `P` in order, and the statement may jump to those in `K`. -/
structure StmtInv (A : Around) (P : List Nat) (K : Set Nat) (s : FnCtx) (st : Scan) : Prop where
  flow : FlowInv {id | id ∈ P} s.labelBlocks (s.blocksOf st.named) s.toIrCtx
  nodup : P.Nodup
  known : ∀ id ∈ K, Known {id | id ∈ P} s.labelBlocks s.toIrCtx id
  live : s.sealed s.curBlock = !st.live
  here : st.live = true → ∀ l, s.labels l = some s.curBlock ↔ st.here = some l
  declared : s.declared = st.declared
  loopStack : s.loopStack = A.loopStack
  loops : A.loopStack.map (·.continueBlock.isSome) = st.loops
  targets : ∀ lc ∈ A.loopStack, lc.breakBlock ∈ K ∧ ∀ b, lc.continueBlock = some b → b ∈ K
  exit : s.exitBlock = A.exitBlock ∧ A.exitBlock ∈ K
  inj : ∀ l l' id, s.labels l = some id → s.labels l' = some id → l = l'
  count : ∀ l id, s.labels l = some id → s.blocks.count id = st.labels.count l
  unlabeled : ∀ l, s.labels l = none → l ∉ st.labels
  named : ∀ l ∈ st.named, s.labels l ≠ none
  ret : s.returnValue.isSome = A.hasRet

/-- After the end of a block there is none. -/
theorem Scan.leave_eq {st : Scan} (h : st.live = false) :
  st.leave = st
  := by
  cases st
  cases h
  rfl

namespace StmtInv

section
variable {A : Around} {P : List Nat} {K : Set Nat} {s : FnCtx} {st : Scan}

/-- The current block is not sealed. -/
theorem not_sealed (h : StmtInv A P K s st) (hlive : st.live = true) :
  s.sealed s.curBlock = false
  := by
  rw [h.live, hlive]
  rfl

/-- A change of the blocks and of the current place. -/
theorem change
    {P' : List Nat} {K' : Set Nat} {c : IrCtx} (h : StmtInv A P K s st)
    (live : Bool) (here : Option String) {named : List String}
    (hflow : FlowInv {id | id ∈ P'} s.labelBlocks (s.blocksOf named) c) (hnodup : P'.Nodup)
    (hknown : ∀ id ∈ K', Known {id | id ∈ P'} s.labelBlocks c id)
    (hlive : c.sealed c.curBlock = !live)
    (hhere : live = true → ∀ l, s.labels l = some c.curBlock ↔ here = some l)
    (hK : K ⊆ K') (hcount : ∀ id ∈ s.labelBlocks, c.blocks.count id = s.blocks.count id)
    (hnamed : ∀ l ∈ named, s.labels l ≠ none) :
  StmtInv A P' K' { s with toIrCtx := c }
    { st with live := live, here := here, named := named }
  := by
  constructor
  case flow => apply hflow
  case nodup => apply hnodup
  case known => apply hknown
  case live => apply hlive
  case here => apply hhere
  case declared => apply h.declared
  case loopStack => apply h.loopStack
  case loops => apply h.loops
  case targets =>
    intro lc hlc
    obtain ⟨hbreak, hcontinue⟩ := h.targets lc hlc
    use hK hbreak
    intro b hb
    apply hK (hcontinue b hb)
  case exit => exact ⟨h.exit.1, hK h.exit.2⟩
  case inj => apply h.inj
  case count =>
    intro l id hl
    rw [← h.count l id hl]
    apply hcount id ⟨l, hl⟩
  case unlabeled => apply h.unlabeled
  case named => apply hnamed
  case ret => apply h.ret

/-- Fewer blocks to jump to, as at a place before. -/
theorem weaken
    {P' : List Nat} {K' : Set Nat} {s' : FnCtx} {st' : Scan} (h' : StmtInv A P' K' s' st')
    (h : StmtInv A P K s st) (hK : K ⊆ K') :
  StmtInv A P' K s' st'
  := by
  constructor
  case flow => apply h'.flow
  case nodup => apply h'.nodup
  case known => exact fun id hid => h'.known id (hK hid)
  case live => apply h'.live
  case here => apply h'.here
  case declared => apply h'.declared
  case loopStack => apply h'.loopStack
  case loops => apply h'.loops
  case targets => apply h.targets
  case exit => exact ⟨h'.exit.1, h.exit.2⟩
  case inj => apply h'.inj
  case count => apply h'.count
  case unlabeled => apply h'.unlabeled
  case named => apply h'.named
  case ret => apply h'.ret

/-- A step between places that are not sealed. -/
theorem step
    {b : Bool} {c : IrCtx} (h : StmtInv A P K s st) (hlive : st.live = true)
    (hstep : FlowStep {id | id ∈ P} s.labelBlocks (s.blocksOf st.named) b s.toIrCtx c) :
  StmtInv A P K { s with toIrCtx := c }
    (if b then { st with here := none, named := st.here.toList ++ st.named } else st)
  := by
  have hknown : ∀ id ∈ K, Known {id | id ∈ P} s.labelBlocks c id := by
    intro id hid
    rcases h.known id hid with hp | ⟨hmem, hlabel⟩
    · exact .inl hp
    · exact .inr ⟨hstep.mono id hmem, hlabel⟩
  have hsealed : c.sealed c.curBlock = !st.live := by
    rw [hstep.live, hlive]
    rfl
  cases b with
  | false =>
    have hflow := hstep.flow
    simp only [Bool.false_eq_true, false_and, Set.ofPred_false, Set.union_empty] at hflow
    apply h.change _ _ hflow h.nodup hknown hsealed _ (subset_refl _) hstep.count h.named
    rw [hstep.stays rfl]
    apply h.here
  | true =>
    have hset : s.blocksOf st.named ∪ {id | true = true ∧ id = s.curBlock ∧ id ∈ s.labelBlocks}
        = s.blocksOf (st.here.toList ++ st.named) := by
      ext id
      have hhere := h.here hlive
      simp only [blocksOf, labelBlocks, Set.mem_union, Set.mem_ofPred_eq, List.mem_append,
        Option.mem_toList, true_and]
      constructor
      · rintro (⟨l, hl, hid⟩ | ⟨rfl, l, hid⟩)
        · exact ⟨l, .inr hl, hid⟩
        · exact ⟨l, .inl ((hhere l).mp hid), hid⟩
      · rintro ⟨l, hl | hl, hid⟩
        · have hcur := (hhere l).mpr hl
          rw [hid, Option.some_inj] at hcur
          exact .inr ⟨hcur, l, hid⟩
        · exact .inl ⟨l, hl, hid⟩
    have hflow := hstep.flow
    rw [hset] at hflow
    apply h.change _ none hflow h.nodup hknown hsealed _ (subset_refl _) hstep.count
    · intro l hl
      rcases List.mem_append.mp hl with hl | hl
      · rw [((h.here hlive) l).mpr (Option.mem_toList.mp hl)]
        nofun
      · apply h.named l hl
    · intro _ l
      constructor
      · intro hl
        cases hstep.moves rfl ⟨l, hl⟩
      · nofun

/-- A step that makes no blocks. -/
theorem stay
    {c : IrCtx} (h : StmtInv A P K s st) (hlive : st.live = true)
    (hstep : FlowStep {id | id ∈ P} s.labelBlocks (s.blocksOf st.named) false s.toIrCtx c) :
  StmtInv A P K { s with toIrCtx := c } st
  := h.step hlive hstep

/-- The end of a block. -/
theorem leave
    {c : IrCtx} {named : List String} (h : StmtInv A P K s st)
    (hsealed : Sealed {id | id ∈ P} s.labelBlocks (s.blocksOf named) s.toIrCtx c)
    (hnamed : ∀ l ∈ named, s.labels l ≠ none) :
  StmtInv A P K { s with toIrCtx := c } { st with live := false, named := named }
  := by
  apply h.change false st.here hsealed.flow h.nodup _ hsealed.sealed nofun (subset_refl _) _ hnamed
  · intro id hid
    rw [Known, hsealed.blocks]
    apply h.known id hid
  · intro id _
    rw [hsealed.blocks]

/-- A jump to a known block. -/
theorem jump
    {target : Nat} (h : StmtInv A P K s st) (hlive : st.live = true)
    (ht : target ∈ K) :
  StmtInv A P K (s.on (·.irJump target)) st.leave
  := by
  apply h.leave _ h.named
  apply sealed_irJump h.flow (h.not_sealed hlive) (.inl (h.known _ ht)) (subset_refl _)
  intro id hid hold
  cases hold hid

/-- A branch to known blocks. -/
theorem branch
    {t f : Nat} (h : StmtInv A P K s st) (hlive : st.live = true) (cond : IrValue)
    (ht : t ∈ K) (hf : f ∈ K) :
  StmtInv A P K (s.on (·.irBranch cond t f)) st.leave
  := by
  apply h.leave _ h.named
  apply sealed_irBranch h.flow (h.not_sealed hlive) cond (h.known _ ht) (h.known _ hf)

/-- A jump to a known block, unless there is an end already. -/
theorem jumpUnlessSealed
    {target : Nat} (h : StmtInv A P K s st) (ht : target ∈ K) :
  StmtInv A P K (s.jumpUnlessSealed target) st.leave
  := by
  rw [FnCtx.jumpUnlessSealed, h.live]
  cases hlive : st.live with
  | true => apply h.jump hlive ht
  | false =>
    rw [Scan.leave_eq hlive]
    apply h

/-- A new block, to be added after those in `ids`. -/
theorem blockNew (ids : List Nat) (h : StmtInv A (ids ++ P) K s st) :
  StmtInv A (ids ++ s.blockId :: P) (insert s.blockId K) s.blockNew.2 st
  := by
  have hset : {id | id ∈ ids ++ s.blockId :: P} = insert s.blockId {id | id ∈ ids ++ P} := by
    ext id
    simp only [List.mem_append, List.mem_cons, Set.mem_ofPred_eq, Set.mem_insert_iff]
    tauto
  have hfresh : s.blockId ∉ ids ++ P := fun hmem => (h.flow.pending _ hmem).1.false
  have hflow := h.flow.irBlockNew
  rw [← hset] at hflow
  apply h.change _ _ hflow _ _ _ _ (Set.subset_insert _ _) (fun _ _ => rfl) h.named
  · apply (List.nodup_middle).mpr
    rw [List.nodup_cons]
    exact ⟨hfresh, h.nodup⟩
  · rintro id (rfl | hid)
    · left
      rw [hset]
      apply Set.mem_insert
    · rw [hset]
      rcases h.known id hid with hp | hknown
      · exact .inl (.inr hp)
      · exact .inr hknown
  · rw [← h.live]
    apply Function.update_of_ne
    apply (h.flow.ok.lt _ h.flow.ok.cur_mem).ne
  · apply h.here

/-- The next block is added. -/
theorem enter
    {p : Nat} (h : StmtInv A (p :: P) K s st) (hlive : st.live = false) :
  StmtInv A P K (s.on (·.irFnAddBlock p)) st.enter
  := by
  have hset : {id | id ∈ p :: P} = insert p {id | id ∈ P} := by
    ext id
    simp
  have hsealed : s.sealed s.curBlock = true := by
    rw [h.live, hlive]
    rfl
  obtain ⟨hp, hnodup⟩ := List.nodup_cons.mp h.nodup
  have hlabel : p ∉ s.labelBlocks := (h.flow.pending p List.mem_cons_self).2.2
  obtain ⟨hflow, hopen⟩ := (hset ▸ h.flow).addPending hsealed hp
  apply h.change true none hflow hnodup _ hopen _ (subset_refl _) _ h.named
  · intro id hid
    rcases h.known id hid with hpend | ⟨hmem, hid⟩
    · rcases List.mem_cons.mp hpend with rfl | hpend
      · exact .inr ⟨List.mem_append_right _ (List.mem_singleton_self _), hlabel⟩
      · exact .inl hpend
    · exact .inr ⟨List.mem_append_left _ hmem, hid⟩
  · intro _ l
    constructor
    · intro hl
      cases hlabel ⟨l, hl⟩
    · nofun
  · intro id hid
    have hne : id ≠ p := by
      rintro rfl
      apply hlabel hid
    change (s.blocks ++ [p]).count id = _
    rw [List.count_append, List.count_eq_zero_of_not_mem (l := [p]) (by simpa using hne),
      Nat.add_zero]

/-- After the end of a block, the label it had does not matter. -/
theorem anyHere (h : StmtInv A P K s st) (hlive : st.live = false) (here : Option String) :
  StmtInv A P K s { st with here := here }
  := by
  apply h.change st.live here h.flow h.nodup h.known h.live _ (subset_refl _) (fun _ _ => rfl)
    h.named
  rw [hlive]
  nofun

/-- A loop or a switch begins. -/
theorem push
    {live : Bool} (h : StmtInv A P K s { st with live := live }) (continueBlk : Option Nat)
    {breakBlk : Nat} (hbreak : breakBlk ∈ K) (hcontinue : ∀ b, continueBlk = some b → b ∈ K) :
  Option.Rel
    (fun st s => StmtInv (A.push continueBlk breakBlk) P K s { st with live := live })
    (st.push continueBlk.isSome) (s.irPushLoopCtx continueBlk breakBlk)
  := by
  have hlength : s.loopStack.length = st.loops.length := by
    rw [← h.loops, h.loopStack, List.length_map]
  rw [Scan.push, irPushLoopCtx, hlength]
  split
  · apply Option.Rel.none
  · apply Option.Rel.some
    constructor
    case flow => apply h.flow
    case nodup => apply h.nodup
    case known => apply h.known
    case live => apply h.live
    case here => apply h.here
    case declared => apply h.declared
    case loopStack => rw [h.loopStack, Around.push]
    case loops => rw [← h.loops, Around.push, List.map_cons]
    case targets =>
      intro lc hlc
      rcases List.mem_cons.mp hlc with rfl | hlc
      · exact ⟨hbreak, hcontinue⟩
      · apply h.targets lc hlc
    case exit => apply h.exit
    case inj => apply h.inj
    case count => apply h.count
    case unlabeled => apply h.unlabeled
    case named => apply h.named
    case ret => apply h.ret

/-- A loop begins. -/
theorem pushLoop
    {live : Bool} (h : StmtInv A P K s { st with live := live }) {continueBlk breakBlk : Nat}
    (hbreak : breakBlk ∈ K) (hcontinue : continueBlk ∈ K) :
  Option.Rel
    (fun st s => StmtInv (A.push continueBlk breakBlk) P K s { st with live := live })
    (st.push true) (s.irPushLoopCtx continueBlk breakBlk)
  := by
  apply h.push (some continueBlk) hbreak
  intro b hb
  rw [← Option.some_inj.mp hb]
  apply hcontinue

/-- A loop or a switch ends. -/
theorem pop
    {continueBlk : Option Nat} {breakBlk : Nat}
    (h : StmtInv (A.push continueBlk breakBlk) P K s st) :
  s.irPopLoopCtx = some { s with loopStack := A.loopStack }
    ∧ StmtInv A P K { s with loopStack := A.loopStack } st.pop
  := by
  constructor
  · rw [irPopLoopCtx, h.loopStack, Around.push]
  · constructor
    case flow => apply h.flow
    case nodup => apply h.nodup
    case known => apply h.known
    case live => apply h.live
    case here => apply h.here
    case declared => apply h.declared
    case loopStack => rfl
    case loops =>
      rw [Scan.pop, ← h.loops]
      rfl
    case targets => exact fun lc hlc => h.targets lc (List.mem_cons_of_mem _ hlc)
    case exit => apply h.exit
    case inj => apply h.inj
    case count => apply h.count
    case unlabeled => apply h.unlabeled
    case named => apply h.named
    case ret => apply h.ret

/-- A variable is declared. -/
theorem declare (h : StmtInv A P K s st) (var : Nat) :
  StmtInv A P K { s with declared := var :: s.declared }
    { st with declared := var :: st.declared }
  := by
  constructor
  case flow => apply h.flow
  case nodup => apply h.nodup
  case known => apply h.known
  case live => apply h.live
  case here => apply h.here
  case declared => rw [h.declared]
  case loopStack => apply h.loopStack
  case loops => apply h.loops
  case targets => apply h.targets
  case exit => apply h.exit
  case inj => apply h.inj
  case count => apply h.count
  case unlabeled => apply h.unlabeled
  case named => apply h.named
  case ret => apply h.ret

/-- An expression. -/
theorem expr (h : StmtInv A P K s st) (hlive : st.live = true) (e : Ast) :
  Option.Rel (fun st s => StmtInv A P K s.2 st ∧ st.live = true) (st.expr e)
    (s.expr e)
  := by
  have hiff : e.locals ⊆ s.declared ↔ e.locals ⊆ st.declared := by rw [h.declared]
  rw [Scan.expr, FnCtx.expr]
  by_cases hlocals : e.locals ⊆ st.declared
  · have hstep := h.step hlive (flowLower_irExpr e _ _ _ _ h.flow (h.not_sealed hlive))
    rw [if_pos (hiff.mpr hlocals), if_pos hlocals]
    cases hb : e.branches with
    | false =>
      rw [hb, if_neg Bool.false_ne_true] at hstep
      rw [if_neg Bool.false_ne_true]
      apply Option.Rel.some ⟨hstep, hlive⟩
    | true =>
      rw [hb, if_pos rfl] at hstep
      rw [if_pos rfl]
      apply Option.Rel.some ⟨hstep, hlive⟩
  · rw [if_neg (hlocals ∘ hiff.mp), if_neg hlocals]
    apply Option.Rel.none

/-- The block of a label. -/
theorem labelBlock (h : StmtInv A P K s st) (lname : String) :
  StmtInv A P K (s.labelBlock lname).2 st
    ∧ (s.labelBlock lname).2.labels lname = some (s.labelBlock lname).1
  := by
  rw [FnCtx.labelBlock]
  cases hl : s.labels lname with
  | some target => exact ⟨h, hl⟩
  | none =>
    use ?_, Function.update_self ..
    have hself : Function.update s.labels lname (some s.blockId) lname = some s.blockId :=
      Function.update_self ..
    have hother : ∀ l, l ≠ lname →
        Function.update s.labels lname (some s.blockId) l = s.labels l := by
      intro l hne
      apply Function.update_of_ne hne
    have hold : ∀ l id, s.labels l = some id → id < s.blockId := by
      intro l id hid
      apply h.flow.label_lt id ⟨l, hid⟩
    have hcur : s.curBlock < s.blockId := h.flow.ok.lt _ h.flow.ok.cur_mem
    have hL : {id | ∃ l, Function.update s.labels lname (some s.blockId) l = some id}
        = insert s.blockId s.labelBlocks := by
      ext id
      constructor
      · rintro ⟨l, hid⟩
        by_cases hne : l = lname
        · rw [hne, hself] at hid
          exact .inl (Option.some_inj.mp hid).symm
        · rw [hother l hne] at hid
          exact .inr ⟨l, hid⟩
      · rintro (rfl | ⟨l, hid⟩)
        · exact ⟨lname, hself⟩
        · have hne : l ≠ lname := by
            rintro rfl
            rw [hl] at hid
            cases hid
          exact ⟨l, (hother l hne).trans hid⟩
    have hne_of_named : ∀ l ∈ st.named, l ≠ lname := by
      rintro l hmem rfl
      apply h.named _ hmem hl
    have hN : {id | ∃ l ∈ st.named, Function.update s.labels lname (some s.blockId) l = some id}
        = s.blocksOf st.named := by
      ext id
      constructor
      · rintro ⟨l, hmem, hid⟩
        rw [hother l (hne_of_named l hmem)] at hid
        exact ⟨l, hmem, hid⟩
      · rintro ⟨l, hmem, hid⟩
        exact ⟨l, hmem, (hother l (hne_of_named l hmem)).trans hid⟩
    constructor
    case flow =>
      have hflow := h.flow.irBlockNewLabel
      rw [← hL, ← hN] at hflow
      apply hflow
    case nodup => apply h.nodup
    case known =>
      intro id hid
      rcases h.known id hid with hp | ⟨hmem, hlabel⟩
      · exact .inl hp
      · refine .inr ⟨hmem, ?_⟩
        intro hmem'
        have hmem' : id ∈ insert s.blockId s.labelBlocks := hL ▸ hmem'
        rcases hmem' with rfl | hmem'
        · apply (h.flow.ok.lt _ hmem).false
        · apply hlabel hmem'
    case live =>
      rw [← h.live]
      apply Function.update_of_ne hcur.ne
    case here =>
      intro hlive l
      rw [← h.here hlive l]
      by_cases hne : l = lname
      · rw [hne, hl]
        change Function.update s.labels lname (some s.blockId) lname = some s.curBlock ↔ _
        rw [hself, Option.some_inj]
        constructor
        · intro heq
          rw [heq] at hcur
          cases hcur.false
        · nofun
      · change Function.update s.labels lname (some s.blockId) l = some s.curBlock ↔ _
        rw [hother l hne]
    case declared => apply h.declared
    case loopStack => apply h.loopStack
    case loops => apply h.loops
    case targets => apply h.targets
    case exit => apply h.exit
    case inj =>
      intro l l' id hid hid'
      by_cases hne : l = lname
      · by_cases hne' : l' = lname
        · rw [hne, hne']
        · rw [hne] at hid
          have heq := Option.some_inj.mp (hself.symm.trans hid)
          have hlt := hold l' id ((hother l' hne').symm.trans hid')
          rw [heq] at hlt
          cases hlt.false
      · have hid := (hother l hne).symm.trans hid
        by_cases hne' : l' = lname
        · rw [hne'] at hid'
          have heq := Option.some_inj.mp (hself.symm.trans hid')
          have hlt := hold l id hid
          rw [heq] at hlt
          cases hlt.false
        · apply h.inj l l' id hid ((hother l' hne').symm.trans hid')
    case count =>
      intro l id hid
      by_cases hne : l = lname
      · rw [hne] at hid ⊢
        have heq := Option.some_inj.mp (hself.symm.trans hid)
        rw [List.count_eq_zero_of_not_mem (h.unlabeled lname hl)]
        apply List.count_eq_zero_of_not_mem
        intro hmem
        rw [← heq] at hmem
        cases (h.flow.ok.lt _ hmem).false
      · apply h.count l id ((hother l hne).symm.trans hid)
    case unlabeled =>
      intro l hid
      have hne : l ≠ lname := by
        rintro rfl
        cases hself.symm.trans hid
      apply h.unlabeled l ((hother l hne).symm.trans hid)
    case named =>
      intro l hmem
      change Function.update s.labels lname (some s.blockId) l ≠ none
      rw [hother l (hne_of_named l hmem)]
      apply h.named l hmem
    case ret => apply h.ret

/-- A jump to the block of a label. -/
theorem jumpLabel
    {target : Nat} (h : StmtInv A P K s st) (hlive : st.live = true)
    {lname : String} (hl : s.labels lname = some target) :
  StmtInv A P K (s.on (·.irJump target))
    { st with live := false, named := lname :: st.named }
  := by
  apply h.leave
  · apply sealed_irJump h.flow (h.not_sealed hlive)
    · exact .inr ⟨lname, List.mem_cons_self, hl⟩
    · rintro id ⟨l, hmem, hid⟩
      exact ⟨l, List.mem_cons_of_mem _ hmem, hid⟩
    · rintro id ⟨l, hmem, hid⟩ hold
      use ⟨l, hid⟩
      rcases List.mem_cons.mp hmem with rfl | hmem
      · rw [hl] at hid
        exact (Option.some_inj.mp hid).symm
      · cases hold ⟨l, hmem, hid⟩
  · intro l hmem
    rcases List.mem_cons.mp hmem with rfl | hmem
    · rw [hl]
      nofun
    · apply h.named l hmem

/-- The block of a label is added. -/
theorem enterLabel
    {target : Nat} (h : StmtInv A P K s st) (hlive : st.live = false)
    {lname : String} (hl : s.labels lname = some target) :
  StmtInv A P K (s.on (·.irFnAddBlock target))
    { st with live := lname ∉ st.labels, here := some lname, labels := lname :: st.labels }
  := by
  have hsealed : s.sealed s.curBlock = true := by
    rw [h.live, hlive]
    rfl
  have hlabel : target ∈ s.labelBlocks := ⟨lname, hl⟩
  have hlt : target < s.blockId := h.flow.label_lt target hlabel
  have hpending : target ∉ {id | id ∈ P} := fun hmem => (h.flow.pending _ hmem).2.2 hlabel
  have hcount : s.blocks.count target = st.labels.count lname := h.count lname target hl
  constructor
  case flow =>
    apply h.flow.irFnAddBlock hsealed _ hpending hlt
    · intro hnot
      cases hnot hlabel
    · intro id
      constructor
      · exact fun hmem => .inl hmem
      · rintro (hmem | ⟨rfl, hnot⟩)
        · apply hmem
        · cases hnot hlabel
  case nodup => apply h.nodup
  case known =>
    intro id hid
    rcases h.known id hid with hp | ⟨hmem, hnot⟩
    · exact .inl hp
    · exact .inr ⟨List.mem_append_left _ hmem, hnot⟩
  case live =>
    change s.sealed target = !decide (lname ∉ st.labels)
    by_cases hmem : lname ∈ st.labels
    · have hmem' : target ∈ s.blocks := by
        rw [← List.count_pos_iff, hcount]
        apply List.count_pos_iff.mpr hmem
      have htarget : s.sealed target = true := by
        by_cases hcur : target = s.curBlock
        · rw [hcur]
          apply hsealed
        · apply h.flow.left target hmem' hcur
      rw [htarget]
      simpa using hmem
    · have hmem' : target ∉ s.blocks := by
        rw [← List.count_eq_zero, hcount]
        apply List.count_eq_zero.mpr hmem
      rw [(h.flow.empty target hmem' hlt).2]
      simpa using hmem
  case here =>
    intro _ l
    constructor
    · intro hid
      rw [h.inj l lname target hid hl]
    · intro heq
      rw [← Option.some_inj.mp heq]
      apply hl
  case declared => apply h.declared
  case loopStack => apply h.loopStack
  case loops => apply h.loops
  case targets => apply h.targets
  case exit => apply h.exit
  case inj => apply h.inj
  case count =>
    intro l id hid
    change (s.blocks ++ [target]).count id = (lname :: st.labels).count l
    rw [List.count_append, h.count l id hid, List.count_cons, List.count_cons]
    by_cases hne : l = lname
    · rw [hne] at hid ⊢
      rw [← Option.some_inj.mp (hl.symm.trans hid)]
      simp
    · have hid' : id ≠ target := by
        rintro rfl
        apply hne (h.inj _ _ _ hid hl)
      simp [Ne.symm hne, Ne.symm hid']
  case unlabeled =>
    intro l hid hmem
    rcases List.mem_cons.mp hmem with rfl | hmem
    · cases hl.symm.trans hid
    · apply h.unlabeled l hid hmem
  case named => apply h.named
  case ret => apply h.ret

end

end StmtInv

end Polyc
