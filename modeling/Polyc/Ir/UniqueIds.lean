import Polyc.Ir.LowerBody
import Mathlib.Data.List.Nodup
import Mathlib.Data.List.Range

/-!
# Ids of variables

The counter `ir_tmp_var_id` never gives an id twice, so two variables with ids of the counter
differ.  A local that is pinned to a register keeps the id of the source instead.  The ids of
a function are unique exactly when no pinned local has the id that the counter gives to a
local with a slot, and these ids are known from the order of the declarations.
-/

namespace Polyc

open LowerState

/-! ### The variables that lowering makes -/

/-- The kinds of the variables made for a parameter of a type. -/
def typedKinds (p : AstParam) (type : AstType) : List IrValueKind :=
  if x86_64IsByvalStruct type then [.local]
  else if p.pinned.isSome then [.param, .param]
  else [.param, .local]

/-- The kinds of the variables made for the parameters. -/
def paramsKinds : List AstParam → List IrValueKind
  | [] => []
  | .varArgs _ _ :: _ => [.param, .local, .param]
  | p :: ps => (p.type.elim [] (typedKinds p)) ++ paramsKinds ps

/-- The kinds of the variables made for the result. -/
def returnKinds (rettype : Option AstType) : List IrValueKind :=
  if irRetIsIndirect rettype then [.param, .local]
  else rettype.elim [] fun rt => if rt.kind = .void then [] else [.tmp]

/-- The kind of the variable that a step of a body takes from the counter. -/
def BodyStep.kinds : BodyStep → List IrValueKind
  | .tmp _ _ => [.tmp]
  | .decl (.lvar _ _ .reg _) => []
  | .decl _ => [.local]
  | .instr _ | .redirect _ _ => []

/-- The id of the pinned local that a step of a body declares. -/
def BodyStep.pinnedIds : BodyStep → List Nat
  | .decl (.lvar id _ .reg _) => [id]
  | _ => []

/-- The kinds of the variables that a function takes from the counter, in order, up to its
exit block. -/
def madeKinds (ps : List AstParam) (rettype : Option AstType) (body : List BodyStep) :
    List IrValueKind :=
  paramsKinds ps ++ returnKinds rettype ++ body.flatMap BodyStep.kinds

/-! ### The map of variables -/

/-- An entry of the map of variables has a new key. -/
theorem irFnAddVar_eq_some
    {st st' : LowerState} {id : Nat} {v : IrValue} (hs : st.irFnAddVar id v = some st') :
  id ∉ st.vars.map Prod.fst ∧ st' = { st with vars := st.vars ++ [(id, v)] }
  := by
  unfold irFnAddVar at hs
  split at hs
  · cases hs
  · rename_i hnew
    constructor
    · intro hmem
      obtain ⟨⟨k, w⟩, hkw, rfl⟩ := List.mem_map.mp hmem
      apply hnew
      rw [List.lookup_isSome_iff]
      use (k, w), hkw
      simp
    · apply (Option.some_inj.mp hs).symm

/-! ### Variables that have been made -/

namespace LowerState

variable {st st' : LowerState}

/-- A variable from the counter has been made. -/
theorem made_irTmp
    (st : LowerState) (type : IrValueType) (size : Nat) (kind : IrValueKind)
    (paramKind : IrParamKind) :
  (st.irTmp type size kind paramKind).2.Made (st.irTmp type size kind paramKind).1
  := by
  apply List.mem_map_of_mem
  apply List.mem_append_right _ (List.mem_singleton_self _)

theorem Made.irTmp
    {v : IrValue} (hv : st.Made v) (type : IrValueType) (size : Nat) (kind : IrValueKind)
    (paramKind : IrParamKind) :
  (st.irTmp type size kind paramKind).2.Made v
  := by
  obtain ⟨u, hu, htag⟩ := List.mem_map.mp hv
  apply List.mem_map.mpr
  use u, List.mem_append_left _ hu

theorem Made.irPinnedLocal
    {v : IrValue} (hv : st.Made v) (id : Nat) (irType : IrValueType) (size : Nat)
    (reg : Option String) :
  (st.irPinnedLocal id irType size reg).2.Made v
  := by
  obtain ⟨u, hu, htag⟩ := List.mem_map.mp hv
  apply List.mem_map.mpr
  use u, List.mem_append_left _ hu

theorem Made.irFnAddVar
    {v w : IrValue} {id : Nat} (hv : st.Made v) (hs : st.irFnAddVar id w = some st') :
  st'.Made v
  := by
  obtain ⟨-, rfl⟩ := irFnAddVar_eq_some hs
  apply hv

/-- A step of a body unmakes no variable. -/
theorem Made.lowerStep
    {v : IrValue} {s : BodyStep} (hv : st.Made v) (hs : lowerStep st s = some st') :
  st'.Made v
  := by
  cases s with
  | tmp type size =>
    obtain rfl := Option.some_inj.mp hs
    apply hv.irTmp
  | decl var =>
    cases var with
    | funptr id => apply (hv.irTmp _ _ _ _).irFnAddVar hs
    | lvar id type pinnedKind pinnedReg =>
      cases pinnedKind with
      | reg =>
        obtain ⟨irType, -, hs⟩ := Option.bind_eq_some_iff.mp hs
        apply (hv.irPinnedLocal _ _ _ _).irFnAddVar hs
      | auto =>
        obtain ⟨irType, -, hs⟩ := Option.bind_eq_some_iff.mp hs
        apply (hv.irTmp _ _ _ _).irFnAddVar hs
      | noreg =>
        obtain ⟨irType, -, hs⟩ := Option.bind_eq_some_iff.mp hs
        apply (hv.irTmp _ _ _ _).irFnAddVar hs
  | instr I =>
    rw [Polyc.lowerStep] at hs
    split at hs
    · obtain rfl := Option.some_inj.mp hs
      apply hv
    · cases hs
  | redirect k target =>
    rw [Polyc.lowerStep] at hs
    split at hs
    · obtain rfl := Option.some_inj.mp hs
      apply hv
    · cases hs

theorem Made.lowerBody
    {v : IrValue} {ss : List BodyStep} (hv : st.Made v) (hs : lowerBody st ss = some st') :
  st'.Made v
  := by
  induction ss generalizing st with
  | nil =>
    obtain rfl := Option.some_inj.mp hs
    apply hv
  | cons s ss ih =>
    obtain ⟨st1, h1, hs⟩ := Option.bind_eq_some_iff.mp hs
    apply ih (hv.lowerStep h1) hs

end LowerState

/-! ### The invariant -/

/-- The variables of a function: `M` are those with an id of the counter, which started at
`c`, and `P` are the pinned locals. -/
structure Lowered (c : Nat) (st : LowerState) (M P : List VarTag) : Prop where
  occurs : ∀ v, st.Occurs v → v.kind.isVariable → st.Made v
  made : ∀ t ∈ st.values.map IrValue.tag, t ∈ M ∨ t ∈ P
  ids : M.map VarTag.id = List.range' c M.length
  next : st.tmpVarId = c + M.length
  addrs : ((M ++ P).map VarTag.addr).Nodup
  fresh : ∀ t ∈ M ++ P, t.addr < st.addr
  keys : (st.vars.map Prod.fst).Nodup
  pins : ∀ t ∈ P, t.kind = .local ∧ ∃ v, (t.id, v) ∈ st.vars ∧ v.tag = t

/-- The locals among some variables occur in the function. -/
def LocalsOccur (st : LowerState) (M : List VarTag) : Prop :=
  ∀ t ∈ M, t.kind = .local → ∃ v, st.Occurs v ∧ v.tag = t

namespace Lowered

variable {c : Nat} {st st' : LowerState} {M P : List VarTag}

/-- A new function has no variables. -/
theorem irFunctionNew (st : LowerState) :
  Lowered st.tmpVarId st.irFunctionNew [] []
  where
  occurs := by
    rintro v (h | h | ⟨I, h, -⟩) <;> cases h
  made := by
    rintro t h
    cases h
  ids := rfl
  next := rfl
  addrs := List.nodup_nil
  fresh := by
    rintro t h
    cases h
  keys := List.nodup_nil
  pins := by
    rintro t h
    cases h

/-- Addresses that are handed out to no variable change nothing. -/
theorem skipAddr (h : Lowered c st M P) :
  Lowered c { st with addr := st.addr + 1 } M P
  where
  occurs := h.occurs
  made := h.made
  ids := h.ids
  next := h.next
  addrs := h.addrs
  fresh := by
    intro t ht
    apply Nat.lt_succ_of_lt (h.fresh t ht)
  keys := h.keys
  pins := h.pins

/-- A variable from the counter. -/
theorem irTmp
    (h : Lowered c st M P) (type : IrValueType) (size : Nat) (kind : IrValueKind)
    (paramKind : IrParamKind) :
  Lowered c (st.irTmp type size kind paramKind).2
    (M ++ [⟨st.addr, kind, st.tmpVarId⟩]) P
  where
  occurs := by
    intro v hv hk
    have hmade := h.occurs v hv hk
    unfold Made at hmade ⊢
    simp only [LowerState.irTmp, List.map_append, List.mem_append]
    left
    apply hmade
  made := by
    intro t ht
    simp only [LowerState.irTmp, List.map_append, List.mem_append, List.map_cons, List.map_nil]
      at ht
    rcases ht with ht | ht
    · rcases h.made t ht with ht | ht
      · left
        apply List.mem_append_left _ ht
      · right
        apply ht
    · left
      apply List.mem_append_right
      apply ht
  ids := by
    rw [List.map_append, h.ids, List.length_append, List.length_singleton, List.range'_concat,
      h.next]
    simp
  next := by
    rw [List.length_append, ← Nat.add_assoc, ← h.next]
    rfl
  addrs := by
    have hnot : st.addr ∉ (M ++ P).map VarTag.addr := by
      intro hmem
      obtain ⟨t, ht, hta⟩ := List.mem_map.mp hmem
      have hlt := h.fresh t ht
      omega
    have hperm : (M ++ [VarTag.mk st.addr kind st.tmpVarId] ++ P).Perm
        (⟨st.addr, kind, st.tmpVarId⟩ :: (M ++ P)) := by
      rw [List.append_assoc]
      apply List.perm_middle
    rw [(hperm.map VarTag.addr).nodup_iff]
    apply List.nodup_cons.mpr ⟨hnot, h.addrs⟩
  fresh := by
    intro t ht
    have hle : t.addr ≤ st.addr := by
      simp only [List.append_assoc, List.mem_append, List.mem_singleton] at ht
      rcases ht with ht | rfl | ht
      · apply (h.fresh t (List.mem_append_left _ ht)).le
      · rfl
      · apply (h.fresh t (List.mem_append_right _ ht)).le
    apply Nat.lt_succ_of_le hle
  keys := h.keys
  pins := h.pins

/-- A variable that has been made is entered in the map. -/
theorem irFnAddVar
    {id : Nat} {v : IrValue} (h : Lowered c st M P) (hv : st.Made v)
    (hs : st.irFnAddVar id v = some st') :
  Lowered c st' M P
  := by
  obtain ⟨hnew, rfl⟩ := irFnAddVar_eq_some hs
  exact {
    occurs := by
      rintro w (hw | hw | hw) hk
      · apply h.occurs w (.inl hw) hk
      · rw [List.map_append, List.mem_append] at hw
        rcases hw with hw | hw
        · apply h.occurs w (.inr (.inl hw)) hk
        · obtain rfl := List.mem_singleton.mp hw
          apply hv
      · apply h.occurs w (.inr (.inr hw)) hk
    made := h.made
    ids := h.ids
    next := h.next
    addrs := h.addrs
    fresh := h.fresh
    keys := by
      rw [List.map_append, List.map_singleton, List.nodup_append_comm]
      apply List.nodup_cons.mpr ⟨hnew, h.keys⟩
    pins := by
      intro t ht
      obtain ⟨hk, w, hw, htag⟩ := h.pins t ht
      exact ⟨hk, w, List.mem_append_left _ hw, htag⟩ }

/-- A variable that has been made is pushed on the parameters. -/
theorem pushParam {v : IrValue} (h : Lowered c st M P) (hv : st.Made v) :
  Lowered c (st.pushParam v) M P
  where
  occurs := by
    rintro w (hw | hw) hk
    · rcases List.mem_append.mp hw with hw | hw
      · apply h.occurs w (.inl hw) hk
      · obtain rfl := List.mem_singleton.mp hw
        apply hv
    · apply h.occurs w (.inr hw) hk
  made := h.made
  ids := h.ids
  next := h.next
  addrs := h.addrs
  fresh := h.fresh
  keys := h.keys
  pins := h.pins

/-- Any instructions over variables that have been made. -/
theorem withInstrs
    {instructions : List IrInstr} (h : Lowered c st M P)
    (hmade : ∀ I ∈ instructions, ∀ v ∈ I.values, v.kind.isVariable → st.Made v) :
  Lowered c { st with instructions := instructions } M P
  where
  occurs := by
    rintro w (hw | hw | ⟨J, hJ, hw⟩) hk
    · apply h.occurs w (.inl hw) hk
    · apply h.occurs w (.inr (.inl hw)) hk
    · apply hmade J hJ w hw hk
  made := h.made
  ids := h.ids
  next := h.next
  addrs := h.addrs
  fresh := h.fresh
  keys := h.keys
  pins := h.pins

/-- An instruction over variables that have been made is added. -/
theorem addInstr
    {I : IrInstr} (h : Lowered c st M P)
    (hI : ∀ v ∈ I.values, v.kind.isVariable → st.Made v) :
  Lowered c (st.addInstr I) M P
  := by
  apply h.withInstrs
  intro J hJ v hv hk
  rcases List.mem_append.mp hJ with hJ | hJ
  · apply h.occurs v (.inr (.inr ⟨J, hJ, hv⟩)) hk
  · obtain rfl := List.mem_singleton.mp hJ
    apply hI v hv hk

/-- A pinned local, with an id of the source that is new to the map. -/
theorem irPinnedLocal
    {id size : Nat} {irType : IrValueType} {reg : Option String} (h : Lowered c st M P)
    (hs : (st.irPinnedLocal id irType size reg).2.irFnAddVar id
      (st.irPinnedLocal id irType size reg).1 = some st') :
  Lowered c st' M (P ++ [⟨st.addr, .local, id⟩])
  := by
  obtain ⟨hnew, rfl⟩ := irFnAddVar_eq_some hs
  exact {
    occurs := by
      rintro w (hw | hw | hw) hk
      · apply (h.occurs w (.inl hw) hk).irPinnedLocal
      · rw [List.map_append, List.mem_append] at hw
        rcases hw with hw | hw
        · apply (h.occurs w (.inr (.inl hw)) hk).irPinnedLocal
        · obtain rfl := List.mem_singleton.mp hw
          unfold Made
          simp [LowerState.irPinnedLocal]
      · apply (h.occurs w (.inr (.inr hw)) hk).irPinnedLocal
    made := by
      intro t ht
      simp only [LowerState.irPinnedLocal, List.map_append, List.mem_append, List.map_cons,
        List.map_nil] at ht
      rcases ht with ht | ht
      · rcases h.made t ht with ht | ht
        · left
          apply ht
        · right
          apply List.mem_append_left _ ht
      · right
        apply List.mem_append_right
        apply ht
    ids := h.ids
    next := h.next
    addrs := by
      have hnot : st.addr ∉ (M ++ P).map VarTag.addr := by
        intro hmem
        obtain ⟨t, ht, hta⟩ := List.mem_map.mp hmem
        have hlt := h.fresh t ht
        omega
      rw [← List.append_assoc, List.map_append, List.nodup_append_comm]
      apply List.nodup_cons.mpr ⟨hnot, h.addrs⟩
    fresh := by
      intro t ht
      have hle : t.addr ≤ st.addr := by
        rw [← List.append_assoc, List.mem_append, List.mem_singleton] at ht
        rcases ht with ht | rfl
        · apply (h.fresh t ht).le
        · rfl
      apply Nat.lt_succ_of_le hle
    keys := by
      rw [List.map_append, List.map_singleton, List.nodup_append_comm]
      apply List.nodup_cons.mpr ⟨hnew, h.keys⟩
    pins := by
      intro t ht
      rcases List.mem_append.mp ht with ht | ht
      · obtain ⟨hk, w, hw, htag⟩ := h.pins t ht
        exact ⟨hk, w, List.mem_append_left _ hw, htag⟩
      · obtain rfl := List.mem_singleton.mp ht
        exact ⟨rfl, _, List.mem_append_right _ (List.mem_singleton_self _), rfl⟩ }

end Lowered

/-! ### Occurrences -/

theorem LowerState.Occurs.pushParam {st : LowerState} {v : IrValue} (h : st.Occurs v) (w : IrValue) :
  (st.pushParam w).Occurs v
  := by
  rcases h with h | h
  · left
    apply List.mem_append_left _ h
  · right
    apply h

theorem LowerState.Occurs.addInstr {st : LowerState} {v : IrValue} (h : st.Occurs v) (I : IrInstr) :
  (st.addInstr I).Occurs v
  := by
  rcases h with h | h | ⟨J, hJ, h⟩
  · left
    apply h
  · right; left
    apply h
  · right; right
    use J, List.mem_append_left _ hJ

theorem LowerState.Occurs.irFnAddVar
    {st st' : LowerState} {v : IrValue} (h : st.Occurs v) {id : Nat} {w : IrValue}
    (hs : st.irFnAddVar id w = some st') :
  st'.Occurs v
  := by
  obtain ⟨-, rfl⟩ := irFnAddVar_eq_some hs
  rcases h with h | h | h
  · left
    apply h
  · right; left
    rw [List.map_append]
    apply List.mem_append_left _ h
  · right; right
    apply h

/-- A variable that is entered in the map occurs. -/
theorem LowerState.occurs_irFnAddVar
    {st st' : LowerState} {id : Nat} {v : IrValue} (hs : st.irFnAddVar id v = some st') :
  st'.Occurs v
  := by
  obtain ⟨-, rfl⟩ := irFnAddVar_eq_some hs
  right; left
  rw [List.map_append]
  apply List.mem_append_right _ (List.mem_singleton_self _)

/-- The destination of a store that is added occurs. -/
theorem LowerState.occurs_addStore (st : LowerState) (dst r1 : IrValue) :
  (st.addStore dst r1).Occurs dst
  := by
  right; right
  use { op := .store, dst := dst, r1 := r1 }, List.mem_append_right _ (List.mem_singleton_self _)
  apply List.mem_cons_self

/-! ### The steps of lowering -/

/-- Lowering has gone on from variables `M` and `P`: new variables of the given kinds have
ids of the counter, and there are pinned locals with the given ids. -/
def Extends (c : Nat) (M P : List VarTag) (st : LowerState) (kinds : List IrValueKind)
    (pinned : List Nat) : Prop :=
  ∃ new pins, Lowered c st (M ++ new) (P ++ pins) ∧ LocalsOccur st (M ++ new)
    ∧ new.map VarTag.kind = kinds ∧ pins.map VarTag.id = pinned

namespace Extends

variable {c : Nat} {st st' : LowerState} {M P : List VarTag}

/-- One stretch of lowering after another. -/
theorem bind
    {kinds kinds' : List IrValueKind} {pinned pinned' : List Nat}
    (h : Extends c M P st kinds pinned)
    (h' : ∀ M P, Lowered c st M P → LocalsOccur st M → Extends c M P st' kinds' pinned') :
  Extends c M P st' (kinds ++ kinds') (pinned ++ pinned')
  := by
  obtain ⟨new, pins, hlow, hocc, rfl, rfl⟩ := h
  obtain ⟨new', pins', hlow', hocc', rfl, rfl⟩ := h' _ _ hlow hocc
  rw [List.append_assoc, List.append_assoc] at hlow'
  rw [List.append_assoc] at hocc'
  exact ⟨new ++ new', pins ++ pins', hlow', hocc', List.map_append, List.map_append⟩

/-- Nothing new. -/
theorem refl (h : Lowered c st M P) (ho : LocalsOccur st M) :
  Extends c M P st [] []
  := by
  use [], []
  rw [List.append_nil, List.append_nil]
  exact ⟨h, ho, rfl, rfl⟩

/-- New variables with ids of the counter. -/
theorem intro
    (new : List VarTag) (h : Lowered c st' (M ++ new) P) (ho : LocalsOccur st M)
    (hmono : ∀ v, v.kind = .local → st.Occurs v → st'.Occurs v)
    (hnew : ∀ t ∈ new, t.kind = .local → ∃ v, st'.Occurs v ∧ v.tag = t) :
  Extends c M P st' (new.map VarTag.kind) []
  := by
  use new, []
  rw [List.append_nil]
  refine ⟨h, ?_, rfl, rfl⟩
  intro t ht hk
  rcases List.mem_append.mp ht with ht | ht
  · obtain ⟨v, hv, rfl⟩ := ho t ht hk
    use v, hmono v hk hv
  · apply hnew t ht hk

end Extends

section Steps

variable {c : Nat} {st st' : LowerState} {M P : List VarTag}

/-- A store of one variable into another is over variables that have been made. -/
theorem Lowered.addStore
    {dst r1 : IrValue} (h : Lowered c st M P) (hdst : st.Made dst) (hr1 : st.Made r1) :
  Lowered c (st.addStore dst r1) M P
  := by
  apply h.addInstr
  intro v hv _
  simp only [IrInstr.values, Option.toList_some, Option.toList_none, List.append_nil,
    List.map_nil, List.singleton_append, List.mem_cons, List.not_mem_nil, or_false] at hv
  rcases hv with rfl | rfl
  · apply hdst
  · apply hr1

/-- A variable from the counter, perhaps with further marks, is entered in the map. -/
theorem Lowered.irTmp_irFnAddVar
    {v : IrValue} {type : IrValueType} {id size : Nat} {kind : IrValueKind}
    {paramKind : IrParamKind} (h : Lowered c st M P)
    (hadd : (st.irTmp type size kind paramKind).2.irFnAddVar id v = some st')
    (hv : v.tag = ⟨st.addr, kind, st.tmpVarId⟩) :
  Lowered c st' (M ++ [⟨st.addr, kind, st.tmpVarId⟩]) P ∧ st'.Made v
  := by
  have hmade : (st.irTmp type size kind paramKind).2.Made v := by
    unfold Made
    rw [hv]
    apply made_irTmp st type size kind paramKind
  constructor
  · apply (h.irTmp type size kind paramKind).irFnAddVar hmade hadd
  · apply hmade.irFnAddVar hadd

theorem lowerByvalParam_extends
    {key : Nat} {type : AstType} (h : Lowered c st M P) (ho : LocalsOccur st M)
    (hs : lowerByvalParam st key type = some st') :
  Extends c M P st' [.local] []
  := by
  obtain ⟨s, hadd, h'⟩ := Option.bind_eq_some_iff.mp hs
  obtain rfl := Option.some_inj.mp h'
  obtain ⟨hlow, hmade⟩ := h.irTmp_irFnAddVar hadd rfl
  apply Extends.intro [⟨st.addr, .local, st.tmpVarId⟩] (hlow.pushParam hmade) ho
  · intro v _ hv
    apply Occurs.pushParam
    apply Occurs.irFnAddVar _ hadd
    apply hv
  · intro t ht _
    obtain rfl := List.mem_singleton.mp ht
    exact ⟨_, (occurs_irFnAddVar hadd).pushParam _, rfl⟩

theorem lowerPinnedParam_extends
    {key size : Nat} {irType : IrValueType} {reg : String} (h : Lowered c st M P)
    (ho : LocalsOccur st M) (hs : lowerPinnedParam st key irType size reg = some st') :
  Extends c M P st' [.param, .param] []
  := by
  obtain ⟨s, hadd, h'⟩ := Option.bind_eq_some_iff.mp hs
  obtain rfl := Option.some_inj.mp h'
  obtain ⟨hlow, hmade⟩ := h.irTmp_irFnAddVar hadd rfl
  have hlow2 := (hlow.pushParam hmade).irTmp irType size .param .normal
  have hlow3 := hlow2.addStore (hmade.irTmp irType size .param .normal)
    (made_irTmp _ irType size .param .normal)
  rw [List.append_assoc] at hlow3
  apply Extends.intro _ hlow3 ho
  · intro v _ hv
    apply Occurs.addInstr
    apply Occurs.pushParam
    apply Occurs.irFnAddVar _ hadd
    apply hv
  · intro t ht hk
    simp only [List.singleton_append, List.mem_cons, List.not_mem_nil, or_false] at ht
    rcases ht with rfl | rfl <;> cases hk

theorem lowerScalarParam_extends
    {key size : Nat} {irType : IrValueType} (h : Lowered c st M P)
    (ho : LocalsOccur st M) (hs : lowerScalarParam st key irType size = some st') :
  Extends c M P st' [.param, .local] []
  := by
  obtain ⟨s, hadd, h'⟩ := Option.bind_eq_some_iff.mp hs
  obtain rfl := Option.some_inj.mp h'
  have hlow := h.irTmp irType size .param .normal
  have harrive := made_irTmp st irType size .param .normal
  obtain ⟨hlow2, hslot⟩ := hlow.irTmp_irFnAddVar hadd rfl
  have harrive2 := (harrive.irTmp irType size .local .normal).irFnAddVar hadd
  have hlow3 := (hlow2.pushParam harrive2).addStore hslot harrive2
  rw [List.append_assoc] at hlow3
  apply Extends.intro _ hlow3 ho
  · intro v _ hv
    apply Occurs.addInstr
    apply Occurs.pushParam
    apply Occurs.irFnAddVar _ hadd
    apply hv
  · intro t ht hk
    simp only [List.singleton_append, List.mem_cons, List.not_mem_nil, or_false] at ht
    rcases ht with rfl | rfl
    · cases hk
    · exact ⟨_, ((occurs_irFnAddVar hadd).pushParam _).addInstr _, rfl⟩

theorem lowerArgc_extends
    {target : CliTarget} {argc : Nat} (h : Lowered c st M P) (ho : LocalsOccur st M)
    (hs : lowerArgc target st argc = some st') :
  Extends c M P st' [.param, .local] []
  := by
  obtain ⟨s, hadd, h'⟩ := Option.bind_eq_some_iff.mp hs
  obtain rfl := Option.some_inj.mp h'
  have hlow := h.irTmp .i64 8 .param .varargsArgc
  have harrive := made_irTmp st .i64 8 .param .varargsArgc
  obtain ⟨hlow2, hslot⟩ := hlow.irTmp_irFnAddVar hadd rfl
  have harrive2 := (harrive.irTmp .i64 8 .local .normal).irFnAddVar hadd
  have hlow3 := hlow2.pushParam harrive2
  have hlow4 := hlow3.addStore hslot harrive2
  rw [List.append_assoc] at hlow3 hlow4
  have hmono : ∀ v, st.Occurs v → (s.pushParam (st.irTmp .i64 8 .param .varargsArgc).1).Occurs v := by
    intro v hv
    apply Occurs.pushParam
    apply Occurs.irFnAddVar _ hadd
    apply hv
  have hoccurs := (occurs_irFnAddVar hadd).pushParam (st.irTmp .i64 8 .param .varargsArgc).1
  split
  · apply Extends.intro _ hlow4 ho
    · intro v _ hv
      apply (hmono v hv).addInstr
    · intro t ht hk
      simp only [List.singleton_append, List.mem_cons, List.not_mem_nil, or_false] at ht
      rcases ht with rfl | rfl
      · cases hk
      · exact ⟨_, hoccurs.addInstr _, rfl⟩
  · apply Extends.intro _ hlow3 ho
    · intro v _ hv
      apply hmono v hv
    · intro t ht hk
      simp only [List.singleton_append, List.mem_cons, List.not_mem_nil, or_false] at ht
      rcases ht with rfl | rfl
      · cases hk
      · exact ⟨_, hoccurs, rfl⟩

theorem lowerArgv_extends
    {argv : Nat} (h : Lowered c st M P) (ho : LocalsOccur st M)
    (hs : lowerArgv st argv = some st') :
  Extends c M P st' [.param] []
  := by
  obtain ⟨s, hadd, h'⟩ := Option.bind_eq_some_iff.mp hs
  obtain rfl := Option.some_inj.mp h'
  obtain ⟨hlow, hmade⟩ := h.irTmp_irFnAddVar hadd rfl
  apply Extends.intro _ (hlow.pushParam hmade) ho
  · intro v _ hv
    apply Occurs.pushParam
    apply Occurs.irFnAddVar _ hadd
    apply hv
  · intro t ht hk
    obtain rfl := List.mem_singleton.mp ht
    cases hk

theorem lowerVarArgs_extends
    {target : CliTarget} {argc argv : Nat} (h : Lowered c st M P) (ho : LocalsOccur st M)
    (hs : lowerVarArgs target st argc argv = some st') :
  Extends c M P st' [.param, .local, .param] []
  := by
  obtain ⟨s, hargc, hargv⟩ := Option.bind_eq_some_iff.mp hs
  apply (lowerArgc_extends h ho hargc).bind
  intro M P h ho
  apply lowerArgv_extends h ho hargv

theorem lowerTypedParam_extends
    {p : AstParam} {type : AstType} (h : Lowered c st M P) (ho : LocalsOccur st M)
    (hs : lowerTypedParam st p type = some st') :
  Extends c M P st' (typedKinds p type) []
  := by
  obtain ⟨irType, -, hs⟩ := Option.bind_eq_some_iff.mp hs
  unfold typedKinds
  split at hs
  · rename_i hb
    rw [if_pos hb]
    apply lowerByvalParam_extends h ho hs
  · rename_i hb
    rw [if_neg hb]
    cases hpin : p.pinned with
    | some reg =>
      rw [hpin] at hs
      apply lowerPinnedParam_extends h ho hs
    | none =>
      rw [hpin] at hs
      apply lowerScalarParam_extends h ho hs

theorem lowerParams_extends
    {target : CliTarget} {ps : List AstParam} (h : Lowered c st M P) (ho : LocalsOccur st M)
    (hs : lowerParams target st ps = some st') :
  Extends c M P st' (paramsKinds ps) []
  := by
  induction ps generalizing st M P with
  | nil =>
    obtain rfl := Option.some_inj.mp hs
    apply Extends.refl h ho
  | cons p ps ih =>
    have htyped : ∀ t, p.type = some t → paramsKinds (p :: ps) = typedKinds p t ++ paramsKinds ps
        → (lowerTypedParam st p t).bind (fun st => lowerParams target st ps) = some st'
        → Extends c M P st' (paramsKinds (p :: ps)) [] := by
      intro t _ hkinds hs
      obtain ⟨s, hs, hs'⟩ := Option.bind_eq_some_iff.mp hs
      rw [hkinds]
      apply (lowerTypedParam_extends h ho hs).bind
      intro M P h ho
      apply ih h ho hs'
    cases p with
    | varArgs argc argv => apply lowerVarArgs_extends h ho hs
    | other => cases hs
    | lvar id type pinnedKind pinnedReg => apply htyped type rfl rfl hs
    | funptr id type => apply htyped type rfl rfl hs
    | defaultParam id type => apply htyped type rfl rfl hs

theorem lowerReturn_extends
    {rettype : Option AstType} {ret : Option IrValue} (h : Lowered c st M P)
    (ho : LocalsOccur st M) (hs : lowerReturn st rettype = some (ret, st')) :
  Extends c M P st' (returnKinds rettype) []
    ∧ ∀ v, ret = some v → v.kind.isVariable → st'.Made v
  := by
  unfold lowerReturn at hs
  unfold returnKinds
  split at hs
  · rename_i hind
    rw [if_pos hind]
    obtain ⟨rfl, rfl⟩ := Prod.mk.inj (Option.some_inj.mp hs)
    have hlow := (h.irTmp .ptr 8 .param .hiddenSret).irTmp .ptr 8 .local .normal
    have harrive := (made_irTmp st .ptr 8 .param .hiddenSret).irTmp .ptr 8 .local .normal
    have hslot := made_irTmp (st.irTmp .ptr 8 .param .hiddenSret).2 .ptr 8 .local .normal
    have hlow2 := (hlow.pushParam harrive).addStore hslot harrive
    rw [List.append_assoc] at hlow2
    constructor
    · apply Extends.intro _ hlow2 ho
      · intro v _ hv
        apply Occurs.addInstr
        apply Occurs.pushParam
        apply hv
      · intro t ht hk
        simp only [List.singleton_append, List.mem_cons, List.not_mem_nil, or_false] at ht
        rcases ht with rfl | rfl
        · cases hk
        · have hoccurs := occurs_addStore
            ((((st.irTmp .ptr 8 .param .hiddenSret).2.irTmp .ptr 8 .local).2).pushParam
              (st.irTmp .ptr 8 .param .hiddenSret).1)
            ((st.irTmp .ptr 8 .param .hiddenSret).2.irTmp .ptr 8 .local).1
            (st.irTmp .ptr 8 .param .hiddenSret).1
          exact ⟨_, hoccurs, rfl⟩
    · rintro v hv _
      obtain rfl := Option.some_inj.mp hv
      apply hslot
  · rename_i hind
    rw [if_neg hind]
    split at hs
    · obtain ⟨rfl, rfl⟩ := Prod.mk.inj (Option.some_inj.mp hs)
      constructor
      · apply Extends.refl h ho
      · rintro v hv
        cases hv
    · rename_i rt
      dsimp only [Option.elim]
      split at hs
      · rename_i hvoid
        rw [if_pos hvoid]
        obtain ⟨rfl, rfl⟩ := Prod.mk.inj (Option.some_inj.mp hs)
        constructor
        · apply Extends.refl h ho
        · rintro v hv
          cases hv
      · rename_i hvoid
        rw [if_neg hvoid]
        obtain ⟨irType, -, hs⟩ := Option.bind_eq_some_iff.mp hs
        obtain ⟨rfl, rfl⟩ := Prod.mk.inj (Option.some_inj.mp hs)
        have hlow := h.skipAddr.irTmp irType rt.size .tmp .normal
        have hmade := made_irTmp { st with addr := st.addr + 1 } irType rt.size .tmp .normal
        constructor
        · apply Extends.intro _ (hlow.addInstr _) ho
          · intro v _ hv
            apply Occurs.addInstr
            apply hv
          · intro t ht hk
            obtain rfl := List.mem_singleton.mp ht
            cases hk
          · intro v hv hk
            simp only [IrInstr.values, Option.toList_some, Option.toList_none, List.append_nil,
              List.map_nil, List.singleton_append, List.mem_cons, List.not_mem_nil,
              or_false] at hv
            rcases hv with rfl | rfl
            · apply hmade
            · cases hk
        · rintro v hv _
          obtain rfl := Option.some_inj.mp hv
          apply hmade

/-- A temporary. -/
theorem irTmp_extends
    (type : IrValueType) (size : Nat) (h : Lowered c st M P) (ho : LocalsOccur st M) :
  Extends c M P (st.irTmp type size .tmp).2 [.tmp] []
  := by
  apply Extends.intro _ (h.irTmp type size .tmp .normal) ho
  · intro v _ hv
    apply hv
  · intro t ht hk
    obtain rfl := List.mem_singleton.mp ht
    cases hk

theorem irMakeLocalSlot_extends
    {type : IrValueType} {size id : Nat} (h : Lowered c st M P) (ho : LocalsOccur st M)
    (hs : st.irMakeLocalSlot type size id = some st') :
  Extends c M P st' [.local] []
  := by
  obtain ⟨hlow, -⟩ := h.irTmp_irFnAddVar hs rfl
  apply Extends.intro _ hlow ho
  · intro v _ hv
    apply Occurs.irFnAddVar _ hs
    apply hv
  · intro t ht _
    obtain rfl := List.mem_singleton.mp ht
    exact ⟨_, occurs_irFnAddVar hs, rfl⟩

theorem irLowerDecl_extends
    {var : AstDeclVar} (h : Lowered c st M P) (ho : LocalsOccur st M)
    (hs : st.irLowerDecl var = some st') :
  Extends c M P st' (BodyStep.decl var).kinds (BodyStep.decl var).pinnedIds
  := by
  cases var with
  | funptr id => apply irMakeLocalSlot_extends h ho hs
  | lvar id type pinnedKind pinnedReg =>
    cases pinnedKind with
    | reg =>
      obtain ⟨irType, -, hs⟩ := Option.bind_eq_some_iff.mp hs
      have hlow := h.irPinnedLocal hs
      use [], [⟨st.addr, .local, id⟩]
      rw [List.append_nil]
      refine ⟨hlow, ?_, rfl, rfl⟩
      intro t ht hk
      obtain ⟨v, hv, htag⟩ := ho t ht hk
      use v
      constructor
      · apply Occurs.irFnAddVar _ hs
        apply hv
      · apply htag
    | auto =>
      obtain ⟨irType, -, hs⟩ := Option.bind_eq_some_iff.mp hs
      apply irMakeLocalSlot_extends h ho hs
    | noreg =>
      obtain ⟨irType, -, hs⟩ := Option.bind_eq_some_iff.mp hs
      apply irMakeLocalSlot_extends h ho hs

/-- The values of an instruction are its destination and the others. -/
theorem IrInstr.mem_values {I : IrInstr} {v : IrValue} :
  v ∈ I.values ↔ I.dst = some v ∨ v ∈ ({ I with dst := none } : IrInstr).values
  := by
  unfold IrInstr.values
  simp only [List.append_assoc, List.mem_append, Option.mem_toList, Option.toList_none,
    List.not_mem_nil, false_or]

/-- Giving an instruction another destination loses no local. -/
theorem redirect_extends
    {k : Nat} {target : IrValue} (h : Lowered c st M P) (ho : LocalsOccur st M)
    (hs : lowerStep st (.redirect k target) = some st') :
  Extends c M P st' [] []
  := by
  rw [lowerStep] at hs
  split at hs
  · rename_i hguard
    obtain ⟨htarget, hany⟩ := hguard
    obtain ⟨I, hI, htmp⟩ := (Option.any_eq_true _ _).mp hany
    obtain rfl := Option.some_inj.mp hs
    obtain ⟨hlt, hget⟩ := List.getElem?_eq_some_iff.mp hI
    have hsplit : st.instructions
        = st.instructions.take k ++ I :: st.instructions.drop (k + 1) := by
      rw [← hget, List.getElem_cons_drop, List.take_append_drop]
    have hmodify : st.instructions.modify k (fun I => { I with dst := some target })
        = st.instructions.take k ++ { I with dst := some target }
          :: st.instructions.drop (k + 1) := by
      rw [List.modify_eq_take_cons_drop hlt, hget]
    have hlow : Lowered c
        { st with
          instructions := st.instructions.modify k fun I => { I with dst := some target } }
        (M ++ []) P := by
      rw [List.append_nil]
      apply h.withInstrs
      intro J hJ v hv hk
      rw [hmodify, List.mem_append, List.mem_cons] at hJ
      rcases hJ with hJ | rfl | hJ
      · apply h.occurs v (.inr (.inr ⟨J, List.mem_of_mem_take hJ, hv⟩)) hk
      · rcases IrInstr.mem_values.mp hv with hv | hv
        · rw [← Option.some_inj.mp hv]
          apply htarget
        · apply h.occurs v _ hk
          right; right
          use I, List.mem_of_getElem? hI
          exact IrInstr.mem_values.mpr (.inr hv)
      · apply h.occurs v (.inr (.inr ⟨J, List.mem_of_mem_drop hJ, hv⟩)) hk
    apply Extends.intro [] hlow ho
    · rintro v hlocal (hv | hv | ⟨J, hJ, hv⟩)
      · exact .inl hv
      · exact .inr (.inl hv)
      · right; right
        dsimp only
        simp only [hmodify, List.mem_append, List.mem_cons]
        rw [hsplit, List.mem_append, List.mem_cons] at hJ
        rcases hJ with hJ | rfl | hJ
        · use J, .inl hJ
        · refine ⟨_, .inr (.inl rfl), IrInstr.mem_values.mpr (.inr ?_)⟩
          rcases IrInstr.mem_values.mp hv with hv | hv
          · rw [hv] at htmp
            simp [irIsTmp, hlocal] at htmp
          · apply hv
        · use J, .inr (.inr hJ)
    · intro t ht
      cases ht
  · cases hs

/-- An instruction adds no variable. -/
theorem addInstr_extends
    {I : IrInstr} (h : Lowered c st M P) (ho : LocalsOccur st M)
    (hI : ∀ v ∈ I.values, v.kind.isVariable → st.Made v) :
  Extends c M P (st.addInstr I) [] []
  := by
  have hlow := h.addInstr hI
  rw [← List.append_nil M] at hlow
  apply Extends.intro [] hlow ho
  · intro v _ hv
    apply hv.addInstr
  · intro t ht
    cases ht

theorem lowerStep_extends
    {s : BodyStep} (h : Lowered c st M P) (ho : LocalsOccur st M)
    (hs : lowerStep st s = some st') :
  Extends c M P st' s.kinds s.pinnedIds
  := by
  cases s with
  | tmp type size =>
    obtain rfl := Option.some_inj.mp hs
    apply irTmp_extends type size h ho
  | decl var => apply irLowerDecl_extends h ho hs
  | instr I =>
    rw [lowerStep] at hs
    split at hs
    · rename_i hI
      obtain rfl := Option.some_inj.mp hs
      apply addInstr_extends h ho hI
    · cases hs
  | redirect k target => apply redirect_extends h ho hs

theorem lowerBody_extends
    {ss : List BodyStep} (h : Lowered c st M P) (ho : LocalsOccur st M)
    (hs : lowerBody st ss = some st') :
  Extends c M P st' (ss.flatMap BodyStep.kinds) (ss.flatMap BodyStep.pinnedIds)
  := by
  induction ss generalizing st M P with
  | nil =>
    obtain rfl := Option.some_inj.mp hs
    apply Extends.refl h ho
  | cons s ss ih =>
    obtain ⟨st1, h1, hs⟩ := Option.bind_eq_some_iff.mp hs
    apply (lowerStep_extends h ho h1).bind
    intro M P h ho
    apply ih h ho hs

/-- The exit block adds no local. -/
theorem lowerExit_extends
    {ret : Option IrValue} (rettype : Option AstType) (isMain : Bool) (h : Lowered c st M P)
    (ho : LocalsOccur st M) (hret : ∀ v, ret = some v → v.kind.isVariable → st.Made v) :
  ∃ kinds, .local ∉ kinds ∧ Extends c M P (lowerExit st rettype isMain ret) kinds []
  := by
  unfold lowerExit
  split
  · rename_i slot
    split
    · use [], List.not_mem_nil
      apply addInstr_extends h ho
      intro v hv hk
      obtain rfl := List.mem_singleton.mp hv
      apply hret slot rfl hk
    · use [.tmp], by decide
      have hslot := fun hk => (hret slot rfl hk).irTmp slot.type
        ((rettype.map AstType.size).getD 0) .tmp .normal
      have hload := made_irTmp st slot.type ((rettype.map AstType.size).getD 0) .tmp .normal
      apply (irTmp_extends slot.type ((rettype.map AstType.size).getD 0) h ho).bind
      intro M P h ho
      apply (addInstr_extends h ho _).bind
      · intro M P h ho
        apply addInstr_extends h ho
        intro v hv _
        obtain rfl := List.mem_singleton.mp hv
        apply hload
      · intro v hv hk
        simp only [IrInstr.values, Option.toList_some, Option.toList_none, List.append_nil,
          List.map_nil, List.singleton_append, List.mem_cons, List.not_mem_nil, or_false] at hv
        rcases hv with rfl | rfl
        · apply hload
        · apply hslot hk
  · split
    · use [], List.not_mem_nil
      apply addInstr_extends h.skipAddr ho
      intro v hv hk
      obtain rfl := List.mem_singleton.mp hv
      cases hk
    · use [], List.not_mem_nil
      apply addInstr_extends h ho
      intro v hv
      cases hv

end Steps

/-! ### Uniqueness -/

/-- Different variables of one kind that occur in a function have different ids. -/
def UniqueIds (st : LowerState) : Prop :=
  ∀ v w, st.Occurs v → st.Occurs w → v.kind.isVariable → v.kind = w.kind → v.addr ≠ w.addr →
    v.varId ≠ w.varId

/-- No pinned local has the id that the counter, which starts at `c`, gives to a local with a
slot. -/
def NoPinnedClash (c : Nat) (kinds : List IrValueKind) (pinned : List Nat) : Prop :=
  ∀ i, kinds[i]? = some .local → c + i ∉ pinned

/-- Only locals clash. -/
theorem noPinnedClash_append
    {c : Nat} {kinds kinds' : List IrValueKind} {pinned : List Nat} (hno : .local ∉ kinds') :
  NoPinnedClash c (kinds ++ kinds') pinned ↔ NoPinnedClash c kinds pinned
  := by
  constructor
  · intro h i hi
    apply h i
    rw [List.getElem?_append_left (List.getElem?_eq_some_iff.mp hi).1, hi]
  · intro h i hi
    by_cases hlt : i < kinds.length
    · apply h i
      rw [← hi, List.getElem?_append_left hlt]
    · rw [List.getElem?_append_right (by omega)] at hi
      cases hno (List.mem_of_getElem? hi)

/-- The ids of variables from the counter are consecutive. -/
theorem Lowered.id_at
    {c : Nat} {st : LowerState} {M P : List VarTag} (h : Lowered c st M P) {i : Nat}
    {t : VarTag} (ht : M[i]? = some t) :
  t.id = c + i
  := by
  have hi : i < M.length := (List.getElem?_eq_some_iff.mp ht).1
  have hid : (M.map VarTag.id)[i]? = some t.id := by rw [List.getElem?_map, ht]; rfl
  rw [h.ids, List.getElem?_range' hi] at hid
  simpa using (Option.some_inj.mp hid).symm

/-- Variables from the counter are the same when their ids are. -/
theorem Lowered.eq_of_id
    {c : Nat} {st : LowerState} {M P : List VarTag} (h : Lowered c st M P) {t u : VarTag}
    (ht : t ∈ M) (hu : u ∈ M) (hid : t.id = u.id) :
  t = u
  := by
  have hnodup : (M.map VarTag.id).Nodup := by
    rw [h.ids]
    exact List.nodup_range'
  apply List.inj_on_of_nodup_map hnodup ht hu hid

/-- Pinned locals are the same when their ids are. -/
theorem Lowered.eq_of_key
    {c : Nat} {st : LowerState} {M P : List VarTag} (h : Lowered c st M P) {t u : VarTag}
    (ht : t ∈ P) (hu : u ∈ P) (hid : t.id = u.id) :
  t = u
  := by
  obtain ⟨-, v, hv, rfl⟩ := h.pins t ht
  obtain ⟨-, w, hw, rfl⟩ := h.pins u hu
  have hpair := List.inj_on_of_nodup_map h.keys hv hw hid
  rw [(Prod.mk.inj hpair).2]

/-- Without a clash no local from the counter has the id of a pinned local. -/
theorem Lowered.not_clash
    {c : Nat} {st : LowerState} {M P : List VarTag} (h : Lowered c st M P)
    (hclash : NoPinnedClash c (M.map VarTag.kind) (P.map VarTag.id)) {t u : VarTag}
    (ht : t ∈ M) (hk : t.kind = .local) (hu : u ∈ P) :
  t.id ≠ u.id
  := by
  intro hid
  obtain ⟨i, hi, rfl⟩ := List.mem_iff_getElem.mp ht
  have hget : M[i]? = some M[i] := List.getElem?_eq_getElem hi
  apply hclash i
  · rw [List.getElem?_map, hget, Option.map_some, hk]
  · rw [← h.id_at hget, hid]
    apply List.mem_map_of_mem hu

/-- The ids of a function are unique exactly when no pinned local clashes. -/
theorem Lowered.uniqueIds_iff
    {c : Nat} {st : LowerState} {M P : List VarTag} (h : Lowered c st M P)
    (ho : LocalsOccur st M) :
  UniqueIds st ↔ NoPinnedClash c (M.map VarTag.kind) (P.map VarTag.id)
  := by
  constructor
  · intro hu i hi hmem
    rw [List.getElem?_map, Option.map_eq_some_iff] at hi
    obtain ⟨t, ht, hk⟩ := hi
    obtain ⟨p, hp, hpid⟩ := List.mem_map.mp hmem
    obtain ⟨v, hv, rfl⟩ := ho t (List.mem_of_getElem? ht) hk
    obtain ⟨hpk, w, hw, rfl⟩ := h.pins p hp
    have haddr : v.addr ≠ w.addr := by
      have hdisj := (List.nodup_append.mp (List.map_append ▸ h.addrs)).2.2
      apply hdisj _ (List.mem_map_of_mem (List.mem_of_getElem? ht)) _ (List.mem_map_of_mem hp)
    have hne := hu v w hv (.inr (.inl (List.mem_map_of_mem hw))) (by
      rw [show v.kind = .local from hk]; rfl) (hk.trans hpk.symm) haddr
    apply hne
    apply (h.id_at ht).trans hpid.symm
  · intro hclash v w hv hw hvar hk haddr hid
    rcases h.made _ (h.occurs v hv hvar) with hmv | hmv
    · rcases h.made _ (h.occurs w hw (hk ▸ hvar)) with hmw | hmw
      · apply haddr
        apply congrArg VarTag.addr (h.eq_of_id hmv hmw hid)
      · apply h.not_clash hclash hmv (hk.trans (h.pins _ hmw).1) hmw hid
    · rcases h.made _ (h.occurs w hw (hk ▸ hvar)) with hmw | hmw
      · apply h.not_clash hclash hmw (hk.symm.trans (h.pins _ hmv).1) hmv hid.symm
      · apply haddr
        apply congrArg VarTag.addr (h.eq_of_key hmv hmw hid)

/-- The ids of a lowered function are unique exactly when none of its pinned locals has the
id that the counter gives to one of its locals with a slot. -/
theorem irLowerFunction_uniqueIds_iff
    {target : CliTarget} {st st' : LowerState} {ps : List AstParam}
    {rettype : Option AstType} {isMain : Bool} {body : List BodyStep}
    (hs : irLowerFunction target st ps rettype isMain body = some st') :
  UniqueIds st'
    ↔ NoPinnedClash st.tmpVarId (madeKinds ps rettype body) (body.flatMap BodyStep.pinnedIds)
  := by
  obtain ⟨⟨ret, st2⟩, hsig, hs⟩ := Option.bind_eq_some_iff.mp hs
  obtain ⟨st3, hbody, hs⟩ := Option.bind_eq_some_iff.mp hs
  obtain rfl := Option.some_inj.mp hs
  obtain ⟨st1, hparams, hreturn⟩ := Option.bind_eq_some_iff.mp hsig
  have hnone : LocalsOccur st.irFunctionNew [] := by
    intro t ht
    cases ht
  have h1 := lowerParams_extends (Lowered.irFunctionNew st) hnone hparams
  have h2 := h1.bind fun M P h ho => (lowerReturn_extends h ho hreturn).1
  obtain ⟨new, pins, hlow, hocc, hkinds, hpinned⟩ :=
    h2.bind fun M P h ho => lowerBody_extends h ho hbody
  have hret : ∀ v, ret = some v → v.kind.isVariable → st3.Made v := by
    obtain ⟨_, _, hlow1, hocc1, -⟩ := h1
    intro v hv hk
    apply ((lowerReturn_extends hlow1 hocc1 hreturn).2 v hv hk).lowerBody hbody
  obtain ⟨kinds, hno, new', pins', hlow', hocc', hkinds', hpinned'⟩ :=
    lowerExit_extends rettype isMain hlow hocc hret
  rw [hlow'.uniqueIds_iff hocc']
  simp only [List.nil_append, List.map_append, hkinds, hkinds', hpinned, hpinned',
    List.append_nil]
  apply noPinnedClash_append hno

/-- The type `I64`. -/
def astI64 : AstType := .scalar .int 8 0

/-- In `I64 F(I64 a) { I64 b; I64 reg RBX c; }` as the first function, the slots of `a` and `b`
have the ids 2 and 4, and `c` has its own, 3. -/
theorem irLowerFunction_uniqueIds_plainFirst :
  ∃ st',
    irLowerFunction .x86_64UnknownLinuxGnu { tmpVarId := 1, addr := 0 }
        [.lvar 1 astI64 .auto none] (some astI64) false
        [.decl (.lvar 2 astI64 .auto none), .decl (.lvar 3 astI64 .reg (some "rbx"))]
      = some st'
    ∧ UniqueIds st'
  := by
  have hsome :
      (irLowerFunction .x86_64UnknownLinuxGnu { tmpVarId := 1, addr := 0 }
        [.lvar 1 astI64 .auto none] (some astI64) false
        [.decl (.lvar 2 astI64 .auto none), .decl (.lvar 3 astI64 .reg (some "rbx"))]).isSome := by
    rfl
  obtain ⟨st', hs⟩ := Option.isSome_iff_exists.mp hsome
  use st', hs
  apply (irLowerFunction_uniqueIds_iff hs).mpr
  intro i hi
  match i with
  | 0 | 2 => cases hi
  | 1 | 3 => decide

/-- In `I64 F(I64 a) { I64 reg RBX c; }` as the first function, the slot of `a` and the pinned
local `c` both have the id 2. -/
theorem irLowerFunction_clash_pinnedFirst :
  ∃ st',
    irLowerFunction .x86_64UnknownLinuxGnu { tmpVarId := 1, addr := 0 }
        [.lvar 1 astI64 .auto none] (some astI64) false
        [.decl (.lvar 2 astI64 .reg (some "rbx"))]
      = some st'
    ∧ ¬ UniqueIds st'
  := by
  refine ⟨_, rfl, ?_⟩
  intro h
  apply h { addr := 1, type := .i64, kind := .local, as := .var 2 8 }
    { addr := 4, type := .i64, kind := .local, pinnedReg := some "rbx", as := .var 2 8 }
  · right; left
    decide
  · right; left
    decide
  · rfl
  · rfl
  · decide
  · rfl

end Polyc
