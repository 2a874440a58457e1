import Polyc.Abi.ParamLocations
import Polyc.Abi.SysvAgree

/-!
# Stamped registers and placed arguments

A scalar parameter is stamped with the register that the counts of AAPCS64 give it, and its
argument is placed in the register that the counts of System V give it.  Each count depends
only on the types of the parameters before it, and the two places are the same exactly when
the counts, cut off at the number of registers, are.
-/

namespace Polyc

/-! ### The vector of lowered parameters -/

/-- A parameter of a type that is not pinned to a register. -/
def PlainParam (p : AstParam) (t : AstType) : Prop := p.type = some t ∧ p.pinned = none

/-- The value that lowering pushes for a parameter of a type. -/
structure LoweredParam (t : AstType) (v : IrValue) : Prop where
  scalar : ¬ x86_64IsByvalStruct t → v.kind = .param ∧ v.loc = .none
  normal : v.paramKind = .normal

/-- Lowering pushes one value for a plain parameter. -/
theorem lowerTypedParam_params
    {st st' : LowerState} {p : AstParam} {t : AstType} (hp : p.pinned = none)
    (h : lowerTypedParam st p t = some st') :
  ∃ v, st'.params = st.params ++ [v] ∧ LoweredParam t v
  := by
  have hvar : ∀ {s s' : LowerState} {id v}, s.irFnAddVar id v = some s' →
      s'.params = s.params := by
    intro s s' id v hs
    unfold LowerState.irFnAddVar at hs
    split at hs
    · cases hs
    · rw [← Option.some_inj.mp hs]
  unfold lowerTypedParam at h
  obtain ⟨irType, -, h⟩ := Option.bind_eq_some_iff.mp h
  rw [hp] at h
  split at h
  · rename_i hb
    obtain ⟨s, hs, h⟩ := Option.bind_eq_some_iff.mp h
    have hs := hvar hs
    obtain rfl := Option.some_inj.mp h
    refine ⟨_, congrArg (· ++ [_]) hs, ?_, rfl⟩
    intro hn
    contradiction
  · obtain ⟨s, hs, h⟩ := Option.bind_eq_some_iff.mp h
    have hs := hvar hs
    obtain rfl := Option.some_inj.mp h
    exact ⟨_, congrArg (· ++ [_]) hs, fun _ => ⟨rfl, rfl⟩, rfl⟩

/-- Lowering pushes one value for each plain parameter. -/
theorem lowerParams_params
    {target : CliTarget} {ps : List AstParam} {ts : List AstType}
    (hps : List.Forall₂ PlainParam ps ts) {st st' : LowerState}
    (h : lowerParams target st ps = some st') :
  ∃ vs, st'.params = st.params ++ vs ∧ List.Forall₂ LoweredParam ts vs
  := by
  induction hps generalizing st with
  | nil =>
    obtain rfl := Option.some_inj.mp h
    exact ⟨[], (List.append_nil _).symm, .nil⟩
  | @cons p t ps ts hp _ ih =>
    have hstep : (lowerTypedParam st p t).bind (fun st => lowerParams target st ps)
        = some st' := by
      rw [← h]
      cases p with
      | varArgs argc argv => cases hp.1
      | other => cases hp.1
      | _ => simp [lowerParams, hp.1]
    obtain ⟨s, hs, h'⟩ := Option.bind_eq_some_iff.mp hstep
    obtain ⟨v, hv, hlow⟩ := lowerTypedParam_params hp.2 hs
    obtain ⟨vs, hvs, hlows⟩ := ih h'
    exact ⟨v :: vs, by rw [hvs, hv, List.append_assoc, List.singleton_append], .cons hlow hlows⟩

/-- The return slot adds the hidden pointer of an indirect result and no other parameter. -/
theorem lowerReturn_params
    {st st' : LowerState} {rettype : Option AstType} {ret : Option IrValue}
    (h : lowerReturn st rettype = some (ret, st')) :
  (irRetIsIndirect rettype ∧
      ∃ v, st'.params = st.params ++ [v] ∧ v.kind = .param ∧ v.paramKind = .hiddenSret)
    ∨ irRetIsIndirect rettype = false ∧ st'.params = st.params
  := by
  unfold lowerReturn at h
  split at h
  · rename_i hind
    obtain ⟨-, rfl⟩ := Prod.mk.inj (Option.some_inj.mp h)
    exact .inl ⟨hind, _, rfl, rfl, rfl⟩
  · rename_i hind
    right
    refine ⟨by simpa using hind, ?_⟩
    split at h
    · obtain ⟨-, rfl⟩ := Prod.mk.inj (Option.some_inj.mp h)
      rfl
    · split at h
      · obtain ⟨-, rfl⟩ := Prod.mk.inj (Option.some_inj.mp h)
        rfl
      · obtain ⟨irType, -, h⟩ := Option.bind_eq_some_iff.mp h
        obtain ⟨-, rfl⟩ := Prod.mk.inj (Option.some_inj.mp h)
        rfl

/-! ### The counts of AAPCS64 -/

/-- The integer registers that a parameter takes by AAPCS64, as if there were enough. -/
def aapcsInts (t : AstType) : Nat :=
  if x86_64IsByvalStruct t then
    match astAapcsClassify t with
    | .hfa _ _ => 0
    | .integer => (t.size + 7) / 8
    | .indirect => 1
  else if t.kind = .float then 0 else 1

/-- The floating-point registers that a parameter takes by AAPCS64. -/
def aapcsFloats (t : AstType) : Nat :=
  if x86_64IsByvalStruct t then
    match astAapcsClassify t with
    | .hfa _ count => count
    | _ => 0
  else if t.kind = .float then 1 else 0

/-- A parameter moves the counters by what it takes, as far as there are registers. -/
theorem StampState.typed_counts
    (pool : IrRegPool) {p : AstParam} (t : AstType) (hp : p.pinned = none) (st : StampState) :
  min 8 (st.typed pool p t).intArgIdx = min 8 (st.intArgIdx + aapcsInts t)
    ∧ min 8 (st.typed pool p t).floatArgIdx = min 8 (st.floatArgIdx + aapcsFloats t)
  := by
  unfold typed aapcsInts aapcsFloats
  rw [hp]
  dsimp only
  split
  · unfold byval
    cases astAapcsClassify t with
    | integer =>
      dsimp only
      split <;> omega
    | hfa elem count =>
      dsimp only
      split <;> omega
    | indirect =>
      dsimp only
      split <;> omega
  · rw [if_neg (by simp)]
    unfold scalar count
    by_cases hf : t.kind = .float
    · simp only [hf, decide_true, if_true]
      split <;> exact ⟨rfl, rfl⟩
    · simp only [hf, decide_false, Bool.false_eq_true, if_false]
      split <;> exact ⟨rfl, rfl⟩

/-- A plain parameter with a value at the cursor moves the cursor by one. -/
theorem StampState.typed_cursor
    (pool : IrRegPool) {p : AstParam} (t : AstType) (hp : p.pinned = none) {st : StampState}
    (hlt : st.fnParamIdx < st.params.length) :
  (st.typed pool p t).fnParamIdx = st.fnParamIdx + 1
    ∧ (st.typed pool p t).params.length = st.params.length
  := by
  unfold typed
  rw [hp]
  dsimp only
  split
  · unfold byval
    split <;> exact ⟨rfl, rfl⟩
  · rw [if_neg (by simp)]
    unfold scalar
    rw [count_cursor, count_params, if_pos hlt]
    exact ⟨rfl, List.length_modify _ _ _⟩

/-- A plain parameter stamps at most the value at the cursor. -/
theorem StampState.typed_params
    {pool : IrRegPool} {p : AstParam} {t : AstType} (hp : p.pinned = none) (st : StampState)
    (k : Nat) :
  (st.typed pool p t).params[k]?
    = if k = st.fnParamIdx ∧ ¬ x86_64IsByvalStruct t then
        st.params[k]?.map (stampScalar pool (t.kind = .float) (st.idx (t.kind = .float)))
      else st.params[k]?
  := by
  unfold typed
  rw [hp]
  dsimp only
  by_cases hb : x86_64IsByvalStruct t
  · rw [if_pos hb, if_neg (by simp [hb])]
    unfold byval
    split <;> rfl
  · rw [if_neg hb, if_neg (by simp), scalar_params, count_cursor, count_params]
    simp only [hb, Bool.false_eq_true, not_false_eq_true, and_true]

/-- The walk over the parameters takes a typed parameter first. -/
theorem stampParams_cons
    {pool : IrRegPool} {p : AstParam} {t : AstType} (hp : p.type = some t) (st : StampState)
    (ps : List AstParam) :
  stampParams pool st (p :: ps) = stampParams pool (st.typed pool p t) ps
  := by
  cases p with
  | varArgs argc argv => cases hp
  | other => cases hp
  | _ => simp [stampParams, hp]

/-- Values before the cursor are left alone. -/
theorem stampParams_before
    {pool : IrRegPool} {ps : List AstParam} {ts : List AstType}
    (hps : List.Forall₂ PlainParam ps ts) {st : StampState}
    (hlen : st.fnParamIdx + ts.length ≤ st.params.length) {k : Nat} (hk : k < st.fnParamIdx) :
  (stampParams pool st ps).params[k]? = st.params[k]?
  := by
  induction hps generalizing st with
  | nil => rfl
  | @cons p t ps ts hp _ ih =>
    rw [List.length_cons] at hlen
    have hlt : st.fnParamIdx < st.params.length := by omega
    obtain ⟨hcur, hlength⟩ := StampState.typed_cursor pool t hp.2 hlt
    rw [stampParams_cons hp.1, ih (by omega) (by omega), StampState.typed_params hp.2, if_neg]
    rintro ⟨rfl, -⟩
    omega

/-- The value of a scalar parameter is stamped with the number that the counts of the
parameters before it give. -/
theorem stampParams_at
    (pool : IrRegPool) {ps : List AstParam} {ts : List AstType}
    (hps : List.Forall₂ PlainParam ps ts) {st : StampState}
    (hlen : st.fnParamIdx + ts.length ≤ st.params.length) {j : Nat} {t : AstType}
    (ht : ts[j]? = some t) (hb : ¬ x86_64IsByvalStruct t) :
  ∃ s : StampState,
    (stampParams pool st ps).params[st.fnParamIdx + j]?
        = st.params[st.fnParamIdx + j]?.map
            (StampState.stampScalar pool (t.kind = .float) (s.idx (t.kind = .float)))
      ∧ min 8 s.intArgIdx = min 8 (st.intArgIdx + ((ts.take j).map aapcsInts).sum)
      ∧ min 8 s.floatArgIdx = min 8 (st.floatArgIdx + ((ts.take j).map aapcsFloats).sum)
  := by
  induction hps generalizing st j with
  | nil => cases ht
  | @cons p u ps ts hp hps ih =>
    rw [List.length_cons] at hlen
    have hlt : st.fnParamIdx < st.params.length := by omega
    obtain ⟨hcur, hlength⟩ := StampState.typed_cursor pool u hp.2 hlt
    obtain ⟨hints, hfloats⟩ := StampState.typed_counts pool u hp.2 st
    rw [stampParams_cons hp.1]
    cases j with
    | zero =>
      obtain rfl := Option.some_inj.mp ht
      use st
      refine ⟨?_, by simp, by simp⟩
      rw [stampParams_before hps (by omega) (by omega), StampState.typed_params hp.2,
        if_pos ⟨rfl, hb⟩]
    | succ j =>
      have hlen' : (st.typed pool p u).fnParamIdx + ts.length
          ≤ (st.typed pool p u).params.length := by omega
      obtain ⟨s, hs, hi, hf⟩ := ih hlen' ht
      rw [hcur, Nat.add_right_comm, Nat.add_assoc, StampState.typed_params hp.2,
        if_neg (by omega)] at hs
      use s, hs
      simp only [List.take_succ_cons, List.map_cons, List.sum_cons]
      omega

/-! ### The counts of System V -/

/-- The counters after parameters of some types. -/
def SysvCursor.after (c : SysvCursor) (ts : List AstType) : SysvCursor :=
  ts.foldl (fun c t => c.next t.shape) c

/-- The pieces of an argument are placed from the counters that the parameters before it
give. -/
theorem placeArgs_at
    {ts : List AstType} {args : List CallArg} (h : List.Forall₂ PassedAs ts args)
    (c : SysvCursor) {j : Nat} {t : AstType} (ht : ts[j]? = some t) :
  ∃ a, PassedAs t a ∧ (placeArgs c args).1[j]? = some ((c.after (ts.take j)).place a).1
  := by
  induction h generalizing c j with
  | nil => cases ht
  | @cons u a ts args ha _ ih =>
    cases j with
    | zero =>
      obtain rfl := Option.some_inj.mp ht
      exact ⟨a, ha, rfl⟩
    | succ j =>
      obtain ⟨b, hb, hplace⟩ := ih (c.place a).2 ht
      have hnext : (c.place a).2 = c.next u.shape := by rw [c.place_snd, ha.shape_eq]
      refine ⟨b, hb, hplace.trans ?_⟩
      rw [hnext]
      rfl

/-- The counters of registers stay within the registers. -/
theorem SysvCursor.after_le
    {c : SysvCursor} (hgp : c.ngp ≤ 6) (hsse : c.nsse ≤ 8) (ts : List AstType) :
  (c.after ts).ngp ≤ 6 ∧ (c.after ts).nsse ≤ 8
  := by
  induction ts generalizing c with
  | nil => exact ⟨hgp, hsse⟩
  | cons t ts ih =>
    obtain ⟨h1, h2⟩ := c.next_le hgp hsse t.shape
    apply ih h1 h2

/-- Where the argument for a scalar parameter is placed. -/
theorem argLocation_place
    {t : AstType} {a : CallArg} (h : PassedAs t a) (hb : ¬ x86_64IsByvalStruct t)
    (c : SysvCursor) :
  argLocation (c.place a).1
    = if t.kind = .float then
        if c.nsse < 8 then .reg (some (xmmName c.nsse)) else .none
      else if c.ngp < 6 then .reg kSysvGpArg[c.ngp]? else .none
  := by
  rw [PassedAs, if_neg hb] at h
  obtain ⟨ha, hc, -⟩ := h
  unfold SysvCursor.place
  rw [ha]
  simp only [hc, decide_eq_true_eq]
  split
  · split <;> rfl
  · split <;> rfl

/-! ### Agreement -/

/-- The location that a number of a register stands for. -/
def regLocation (regs : List String) (idx : Nat) : IrLocation :=
  match regs[idx]? with
  | some reg => .reg (some reg)
  | none => .none

/-- The location of a stamped scalar. -/
theorem stampScalar_loc
    {pool : IrRegPool} {v : IrValue} (hk : v.kind = .param) (hl : v.loc = .none)
    (isFloat : Bool) (idx : Nat) :
  (StampState.stampScalar pool isFloat idx v).loc
    = regLocation (if isFloat then pool.floatArgRegs else pool.intArgRegs) idx
  := by
  unfold StampState.stampScalar StampState.stampReg regLocation
  rw [if_pos ⟨hk, hl⟩]
  split <;> simp_all

/-- Register numbers stand for the same place when they are equal or past the last
register. -/
theorem regLocation_min {regs : List String} {n : Nat} (hn : regs.length = n) (idx : Nat) :
  regLocation regs idx = regLocation regs (min n idx)
  := by
  unfold regLocation
  by_cases h : idx < n
  · rw [Nat.min_eq_right h.le]
  · rw [Nat.min_eq_left (by omega), List.getElem?_eq_none (by omega),
      List.getElem?_eq_none (by omega)]

/-- An integer register is stamped where the argument is placed when the counts agree. -/
theorem regLocation_int_iff {idx n : Nat} (hn : n ≤ 6) :
  regLocation x86_64Pool.intArgRegs idx = (if n < 6 then .reg kSysvGpArg[n]? else .none)
    ↔ min 6 idx = n
  := by
  have hall : ∀ i : Fin 7, ∀ j : Fin 7,
      regLocation x86_64Pool.intArgRegs i
        = (if j.1 < 6 then .reg kSysvGpArg[j.1]? else .none) ↔ i.1 = j.1 := by
    decide
  have hlen : x86_64Pool.intArgRegs.length = 6 := rfl
  rw [regLocation_min hlen]
  apply hall ⟨min 6 idx, by omega⟩ ⟨n, by omega⟩

/-- A floating-point register is stamped where the argument is placed when the counts
agree. -/
theorem regLocation_float_iff {idx n : Nat} (hn : n ≤ 8) :
  regLocation x86_64Pool.floatArgRegs idx
      = (if n < 8 then .reg (some (xmmName n)) else .none)
    ↔ min 8 idx = n
  := by
  have hall : ∀ i : Fin 9, ∀ j : Fin 9,
      regLocation x86_64Pool.floatArgRegs i
        = (if j.1 < 8 then .reg (some (xmmName j.1)) else .none) ↔ i.1 = j.1 := by
    decide
  have hlen : x86_64Pool.floatArgRegs.length = 8 := rfl
  rw [regLocation_min hlen]
  apply hall ⟨min 8 idx, by omega⟩ ⟨n, by omega⟩

/-- The counters at the first parameter: the hidden pointer has the first register. -/
def sysvStart (rettype : Option AstType) : SysvCursor :=
  ⟨if irRetIsIndirect rettype then 1 else 0, 0, 0⟩

/-- The pieces of the arguments are placed from the first parameter on. -/
theorem paramPieces_eq (rettype : Option AstType) (args : List CallArg) :
  (sysvCall rettype args).paramPieces rettype = (placeArgs (sysvStart rettype) args).1
  := by
  unfold SysvCall.paramPieces sysvStart
  rw [(sysvCall_eq rettype args).1]
  unfold passedArgs
  split <;> rfl

/-- The counts of the two conventions before a scalar parameter agree: AAPCS64 gives the
parameters before it as many registers of its class as System V does, as far as there are
any. -/
def CountsAgree (rettype : Option AstType) (before : List AstType) (t : AstType) : Prop :=
  if t.kind = .float then
    min 8 (before.map aapcsFloats).sum = ((sysvStart rettype).after before).nsse
  else
    min 6 ((sysvStart rettype).ngp + (before.map aapcsInts).sum)
      = ((sysvStart rettype).after before).ngp

/-- The stamp of the hidden pointer keeps the number of the parameters. -/
theorem stampHiddenSret_length (pool : IrRegPool) (params : List IrValue) :
  (stampHiddenSret pool params).length = params.length
  := by
  unfold stampHiddenSret
  split
  · apply List.length_modify
  · rfl

/-- The stamp of the hidden pointer leaves the values of the parameters alone. -/
theorem stampHiddenSret_getElem?
    {pool : IrRegPool} {vs : List IrValue} {w : IrValue} (hw : w.kind = .param)
    (hwk : w.paramKind = .hiddenSret) (hvs : ∀ v ∈ vs, v.paramKind = .normal) {i : Nat}
    (hi : i < vs.length) :
  (stampHiddenSret pool (vs ++ [w]))[i]? = vs[i]?
  := by
  have hfind : (vs ++ [w]).findIdx? (fun v => v.kind = .param ∧ v.paramKind = .hiddenSret)
      = some vs.length := by
    rw [List.findIdx?_append, List.findIdx?_eq_none_iff.mpr]
    · simp [hw, hwk]
    · intro v hv
      simp [hvs v hv]
  unfold stampHiddenSret
  rw [hfind]
  dsimp only
  rw [List.getElem?_modify_ne _ _ (by omega), List.getElem?_append_left hi]

/-- Every scalar parameter is stamped with the register in which its argument is placed, or
left without one when its argument is on the stack. -/
def StampedAsPlaced (rettype : Option AstType) (ps : List AstParam) (ts : List AstType)
    (st : LowerState) (args : List CallArg) : Prop :=
  ∀ (i : Nat) (t : AstType), ts[i]? = some t → ¬ x86_64IsByvalStruct t →
    ((irAssignAbiParamLocations x86_64Pool rettype ps st.params st.instructions).1[i]?).map
        IrValue.loc
      = (((sysvCall rettype args).paramPieces rettype)[i]?).map argLocation

/-- Every scalar parameter is stamped with the place of its argument exactly when the counts
of the two conventions agree before every scalar parameter. -/
theorem irAssignAbiParamLocations_agree_iff
    {target : CliTarget} {st st' : LowerState} {ps : List AstParam} {ts : List AstType}
    {args : List CallArg} {rettype : Option AstType} {ret : Option IrValue}
    (hps : List.Forall₂ PlainParam ps ts)
    (hargs : List.Forall₂ PassedAs ts args)
    (hlow : lowerSignature target st ps rettype = some (ret, st')) :
  StampedAsPlaced rettype ps ts st' args
    ↔ ∀ (i : Nat) (t : AstType), ts[i]? = some t → ¬ x86_64IsByvalStruct t →
        CountsAgree rettype (ts.take i) t
  := by
  unfold StampedAsPlaced
  obtain ⟨s, hs, hret⟩ := Option.bind_eq_some_iff.mp hlow
  obtain ⟨vs, hvs, hlows⟩ := lowerParams_params hps hs
  replace hvs : s.params = vs := hvs.trans (List.nil_append vs)
  have hnormal : ∀ v ∈ vs, v.paramKind = .normal := by
    intro v hv
    obtain ⟨j, hj, rfl⟩ := List.mem_iff_getElem.mp hv
    apply ((List.forall₂_iff_get.mp hlows).2 j (by rw [hlows.length_eq]; exact hj) hj).normal
  -- the vector that the walk starts from: the parameters, then the hidden pointer if any
  have hparams : ∃ params : List IrValue,
      (irAssignAbiParamLocations x86_64Pool rettype ps st'.params st'.instructions).1
          = (stampParams x86_64Pool ⟨(sysvStart rettype).ngp, 0, 0, params⟩ ps).params
        ∧ ts.length ≤ params.length ∧ ∀ i < ts.length, params[i]? = vs[i]? := by
    obtain ⟨hind, w, hw, hk, hwk⟩ | ⟨hind, hw⟩ := lowerReturn_params hret
    · use stampHiddenSret x86_64Pool st'.params
      rw [hw, hvs]
      refine ⟨by simp [irAssignAbiParamLocations, sysvStart, hind]; rfl, ?_, ?_⟩
      · rw [stampHiddenSret_length, List.length_append, hlows.length_eq]
        apply Nat.le_add_right
      · intro i hi
        apply stampHiddenSret_getElem? hk hwk hnormal
        rw [← hlows.length_eq]
        apply hi
    · use st'.params
      refine ⟨by simp [irAssignAbiParamLocations, sysvStart, hind], ?_, ?_⟩
      · rw [hw, hvs, hlows.length_eq]
      · intro i _
        rw [hw, hvs]
  obtain ⟨params, hstamped, hlen, hget⟩ := hparams
  rw [hstamped, paramPieces_eq]
  have hpoint : ∀ (i : Nat) (t : AstType), ts[i]? = some t → ¬ x86_64IsByvalStruct t →
      (((stampParams x86_64Pool ⟨(sysvStart rettype).ngp, 0, 0, params⟩ ps).params[i]?).map
          IrValue.loc
        = ((placeArgs (sysvStart rettype) args).1[i]?).map argLocation
      ↔ CountsAgree rettype (ts.take i) t) := by
    intro i t ht hb
    have hi : i < ts.length := (List.getElem?_eq_some_iff.mp ht).1
    have hi' : i < vs.length := by rwa [← hlows.length_eq]
    obtain ⟨a, ha, hplace⟩ := placeArgs_at hargs (sysvStart rettype) ht
    have hstart : (sysvStart rettype).ngp ≤ 6 ∧ (sysvStart rettype).nsse ≤ 8 := by
      unfold sysvStart
      split <;> simp
    obtain ⟨hgp, hsse⟩ := SysvCursor.after_le hstart.1 hstart.2 (ts.take i)
    have hlen' : (StampState.mk (sysvStart rettype).ngp 0 0 params).fnParamIdx + ts.length
        ≤ (StampState.mk (sysvStart rettype).ngp 0 0 params).params.length := by
      simpa using hlen
    obtain ⟨u, hu, hints, hfloats⟩ := stampParams_at x86_64Pool hps hlen' ht hb
    obtain ⟨hk, hl⟩ : vs[i].kind = .param ∧ vs[i].loc = .none := by
      have hlow := (List.forall₂_iff_get.mp hlows).2 i hi hi'
      rw [List.get_eq_getElem, (List.getElem?_eq_some_iff.mp ht).2] at hlow
      apply hlow.scalar hb
    dsimp only at hu hints hfloats
    rw [Nat.zero_add, hget i hi, List.getElem?_eq_getElem hi'] at hu
    rw [hu, hplace, Option.map_some, Option.map_some, Option.map_some, Option.some_inj,
      stampScalar_loc hk hl, argLocation_place ha hb]
    unfold CountsAgree StampState.idx
    by_cases hf : t.kind = .float
    · simp only [hf, decide_true, if_true]
      rw [regLocation_float_iff hsse, hfloats, Nat.zero_add]
    · simp only [hf, decide_false, Bool.false_eq_true, if_false]
      rw [regLocation_int_iff hgp]
      have hmin : min 6 u.intArgIdx
          = min 6 ((sysvStart rettype).ngp + ((ts.take i).map aapcsInts).sum) := by omega
      rw [hmin]
  constructor
  · intro h i t ht hb
    apply (hpoint i t ht hb).mp (h i t ht hb)
  · intro h i t ht hb
    apply (hpoint i t ht hb).mpr (h i t ht hb)

/-- `class {F32 x; F32 y;}`. -/
def floatPair : AstType :=
  .class 8 0 false [.scalar .float 4 0, .scalar .float 4 4]

/-- `class {F64 x; F64 y;}`. -/
def doublePair : AstType :=
  .class 16 0 false [.scalar .float 8 0, .scalar .float 8 8]

/-- The parameters of `F(type s, F64 d)`. -/
def pairParams (type : AstType) : List AstParam :=
  [.lvar 1 type .auto none, .lvar 2 (.scalar .float 8 0) .auto none]

/-- Arguments for `F`. -/
def pairArgs (type : AstType) : List CallArg :=
  [⟨.ptr, 8, some type⟩, ⟨.f64, 8, none⟩]

/-- The parameters of `F` after lowering. -/
def pairLowered (type : AstType) : LowerState :=
  { tmpVarId := 4, addr := 3
    values :=
      [{ addr := 0, type := .struct, kind := .local, as := .var 1 (type.size % 2 ^ 16) },
       { addr := 1, type := .f64, kind := .param, as := .var 2 8 },
       { addr := 2, type := .f64, kind := .local, as := .var 3 8 }]
    params :=
      [{ addr := 0, type := .struct, kind := .local, as := .var 1 (type.size % 2 ^ 16)
         byvalStructType := some type.size },
       { addr := 1, type := .f64, kind := .param, as := .var 2 8 }]
    vars :=
      [(1, { addr := 0, type := .struct, kind := .local, as := .var 1 (type.size % 2 ^ 16)
             byvalStructType := some type.size }),
       (2, { addr := 2, type := .f64, kind := .local, as := .var 3 8 })]
    instructions :=
      [{ op := .store, dst := some { addr := 2, type := .f64, kind := .local, as := .var 3 8 }
         r1 := some { addr := 1, type := .f64, kind := .param, as := .var 2 8 } }] }

/-- An aggregate of two `F64` takes two registers in both conventions, so `d` is stamped with
the register in which it is placed. -/
theorem irAssignAbiParamLocations_agree_doublePair :
  StampedAsPlaced none (pairParams doublePair) [doublePair, .scalar .float 8 0]
    (pairLowered doublePair) (pairArgs doublePair)
  := by
  have hps : List.Forall₂ PlainParam (pairParams doublePair) [doublePair, .scalar .float 8 0] :=
    .cons ⟨rfl, rfl⟩ (.cons ⟨rfl, rfl⟩ .nil)
  have hargs : List.Forall₂ PassedAs [doublePair, .scalar .float 8 0] (pairArgs doublePair) :=
    .cons rfl (.cons ⟨rfl, rfl, fun _ => rfl⟩ .nil)
  have hlow : lowerSignature .x86_64UnknownLinuxGnu { tmpVarId := 1, addr := 0 }
      (pairParams doublePair) none = some (none, pairLowered doublePair) := by
    rfl
  apply (irAssignAbiParamLocations_agree_iff hps hargs hlow).mpr
  intro i t ht hb
  match i with
  | 0 =>
    obtain rfl := Option.some_inj.mp ht
    contradiction
  | 1 =>
    obtain rfl := Option.some_inj.mp ht
    rfl

/-- An aggregate of two `F32` takes two registers by AAPCS64 and one by System V: `d` is
stamped with `xmm2` and placed in `xmm1`. -/
theorem irAssignAbiParamLocations_disagree_floatPair :
  ¬ StampedAsPlaced none (pairParams floatPair) [floatPair, .scalar .float 8 0]
      (pairLowered floatPair) (pairArgs floatPair)
  := by
  intro h
  have h1 := h 1 (.scalar .float 8 0) rfl (by decide)
  revert h1
  decide

end Polyc
