import Polyc.Ir.Forward

/-!
# What store-to-read forwarding preserves

A recorded pair is an equality between the words of its slot and of its source.  The pass
forgets a pair when the slot is redefined, but not when the source is.  Over 8-byte values
that are not pinned to registers the block itself tells what a slot is a copy of: the copies
are followed back to a value that is no copy.  As long as no operand names a slot whose
source was redefined since the store, the block means the same before and after the pass.
-/

namespace Polyc

/-! ### Copies in a block -/

/-- The pass forgets what a variable holds: the instruction clears the arrays or has the
variable for its destination. -/
def IrInstr.forgets (I : IrInstr) (x : VarKey) : Bool :=
  I.op.killsAll
    || (I.op ≠ .nop && I.op ≠ .br && I.op ≠ .ret && I.dst.any (·.key = x)
      && (I.op ≠ .store || I.r1.isSome))

/-- The instruction at `m` stores a value to a variable that is not forgotten before `n`. -/
structure LastStore (l : List IrInstr) (x : VarKey) (m n : Nat) (v : IrValue) : Prop where
  lt : m < n
  store : ∃ I d, l[m]? = some I ∧ I.op = .store ∧ I.dst = some d ∧ d.key = x ∧ I.r1 = some v
  kept : ∀ k I, m < k → k < n → l[k]? = some I → I.forgets x = false

/-- What a variable is a copy of before `n`, since the store at `m`: the value that was
stored, unless that was a copy itself. -/
inductive Source (l : List IrInstr) : VarKey → Nat → Nat → IrValue → Prop where
  | root {x : VarKey} {n m : Nat} {v : IrValue} (h : LastStore l x m n v)
      (hroot : ∀ k u, ¬ LastStore l v.key k m u) : Source l x n m v
  | copy {x : VarKey} {n m k : Nat} {v w : IrValue} (h : LastStore l x m n v)
      (hv : Source l v.key m k w) : Source l x n m w

/-- A constant, or a variable that is not assigned between two instructions. -/
def Fresh (l : List IrInstr) (m n : Nat) (w : IrValue) : Prop :=
  w.kind = .constInt ∨ ∀ k I, m < k → k < n → l[k]? = some I → redefines I w = false

/-- The operands that an instruction reads and that the pass may replace by variables. -/
def IrInstr.forwarded (I : IrInstr) : List IrValue :=
  if I.op = .lea ∨ I.op = .gep ∨ I.op = .load then []
  else
    (if I.op.readsR1 then I.r1.toList else []) ++ (if I.op.readsR2 then I.r2.toList else [])
      ++ (if I.op = .br ∨ I.op = .ret then I.dst.toList else [])

/-- Where an operand is a copy, what it is a copy of was not assigned since the store. -/
def ReadsFresh (l : List IrInstr) : Prop :=
  ∀ n I, l[n]? = some I → ∀ a ∈ I.forwarded, ∀ m w, Source l a.key n m w → Fresh l m n w

/-- A constant or a variable of 8 bytes that is not pinned to a register. -/
structure IrValue.IsWord (v : IrValue) : Prop where
  isPlain : v.isPlain
  size : irValueByteSize (some v) = 8
  unpinned : ∀ r, v.loc ≠ .reg r

/-- Stores go from such values to variables. -/
def storesWords (I : IrInstr) : Prop :=
  I.op = .store → (∀ d, I.dst = some d → d.kind.isVar) ∧ ∀ v, I.r1 = some v → v.IsWord

section

variable {l : List IrInstr} {x : VarKey} {m n k n' : Nat} {v w : IrValue}

/-- A store is the last one before an earlier instruction, too. -/
theorem LastStore.restrict (h : LastStore l x m n v) (hlt : m < n') (hle : n' ≤ n) :
  LastStore l x m n' v
  where
  lt := hlt
  store := h.store
  kept k I hk hk' := h.kept k I hk (Nat.lt_of_lt_of_le hk' hle)

/-- A store stays the last one when the variable is not forgotten. -/
theorem LastStore.extend
    (h : LastStore l x m n v) {I : IrInstr} (hI : l[n]? = some I) (hx : I.forgets x = false) :
  LastStore l x m (n + 1) v
  where
  lt := Nat.lt_succ_of_lt h.lt
  store := h.store
  kept k K hk hk' hK := by
    rcases Nat.lt_succ_iff_lt_or_eq.mp hk' with hlt | rfl
    · exact h.kept k K hk hlt hK
    · cases hI.symm.trans hK
      exact hx

/-- A store forgets what its variable has held. -/
theorem LastStore.forgets (h : LastStore l x m n v) :
  ∃ I, l[m]? = some I ∧ I.forgets x = true
  := by
  obtain ⟨I, d, hI, hop, hd, hx, hv⟩ := h.store
  exact ⟨I, hI, by simp [IrInstr.forgets, hop, hd, hx, hv]⟩

/-- There is one last store. -/
theorem LastStore.unique (h : LastStore l x m n v) (h' : LastStore l x k n w) :
  m = k ∧ v = w
  := by
  have hle : ∀ {i j a b}, LastStore l x i n a → LastStore l x j n b → j ≤ i := by
    intro i j a b hi hj
    by_contra hlt
    obtain ⟨I, hI, hx⟩ := hj.forgets
    rw [hi.kept j I (not_le.mp hlt) hj.lt hI] at hx
    cases hx
  obtain rfl : m = k := Nat.le_antisymm (hle h' h) (hle h h')
  obtain ⟨I, d, hI, -, -, -, hv⟩ := h.store
  obtain ⟨J, e, hJ, -, -, -, hw⟩ := h'.store
  cases hI.symm.trans hJ
  exact ⟨rfl, Option.some.inj (hv.symm.trans hw)⟩

/-- A copy was made by a last store. -/
theorem Source.last (h : Source l x n m w) :
  ∃ v, LastStore l x m n v
  := by
  cases h with
  | root h => exact ⟨_, h⟩
  | copy h => exact ⟨_, h⟩

/-- A copy stays one as long as its store is the last one. -/
theorem Source.of_last (h : Source l x n m w) (hlast : LastStore l x m n' v) :
  Source l x n' m w
  := by
  have hv : ∀ {u}, LastStore l x m n u → u = v := by
    intro u hu
    have hle : LastStore l x m (m + 1) u := hu.restrict (Nat.lt_succ_self m) hu.lt
    exact (hle.unique (hlast.restrict (Nat.lt_succ_self m) hlast.lt)).2
  cases h with
  | root h hroot =>
    cases hv h
    exact .root hlast hroot
  | copy h hcopy =>
    cases hv h
    exact .copy hlast hcopy

theorem Source.restrict (h : Source l x n m w) (hlt : m < n') (hle : n' ≤ n) :
  Source l x n' m w
  := by
  obtain ⟨v, hv⟩ := h.last
  exact h.of_last (hv.restrict hlt hle)

/-- A variable is a copy of one value. -/
theorem Source.unique (h : Source l x n m v) (h' : Source l x n k w) :
  m = k ∧ v = w
  := by
  induction h generalizing k w with
  | root h hroot =>
    cases h' with
    | root h' => exact h.unique h'
    | copy h' hcopy =>
      obtain ⟨rfl, rfl⟩ := h.unique h'
      obtain ⟨u, hu⟩ := hcopy.last
      exact absurd hu (hroot _ _)
  | copy h hcopy ih =>
    cases h' with
    | root h' hroot =>
      obtain ⟨rfl, rfl⟩ := h.unique h'
      obtain ⟨u, hu⟩ := hcopy.last
      exact absurd hu (hroot _ _)
    | copy h' hcopy' =>
      obtain ⟨rfl, rfl⟩ := h.unique h'
      exact ⟨rfl, (ih hcopy').2⟩

/-- A variable that was stored to is a copy of something. -/
theorem LastStore.exists_source (h : LastStore l x m n v) :
  ∃ w, Source l x n m w
  := by
  induction m using Nat.strong_induction_on generalizing x n v with
  | _ m ih =>
    by_cases hcopy : ∃ k u, LastStore l v.key k m u
    · obtain ⟨k, u, hu⟩ := hcopy
      obtain ⟨w, hw⟩ := ih k hu.lt hu
      exact ⟨w, .copy h hw⟩
    · exact ⟨v, .root h fun k u hu => hcopy ⟨k, u, hu⟩⟩

/-- A variable that was stored to is one. -/
theorem LastStore.isVar (hl : ∀ I ∈ l, storesWords I) (h : LastStore l x m n v) :
  x.kind.isVar
  := by
  obtain ⟨I, d, hI, hop, hd, rfl, -⟩ := h.store
  exact (hl I (List.mem_of_getElem? hI) hop).1 d hd

/-- What a variable is a copy of was stored. -/
theorem Source.isWord (hl : ∀ I ∈ l, storesWords I) (h : Source l x n m w) :
  w.IsWord
  := by
  induction h with
  | root h =>
    obtain ⟨I, d, hI, hop, -, -, hv⟩ := h.store
    exact (hl I (List.mem_of_getElem? hI) hop).2 _ hv
  | copy _ _ ih => exact ih

/-- The value of a store is an operand that may be replaced. -/
theorem mem_forwarded_of_store {I : IrInstr} (hop : I.op = .store) (hv : I.r1 = some v) :
  v ∈ I.forwarded
  := by
  simp [IrInstr.forwarded, hop, hv, IrOp.readsR1]

/-- The value that a last store has stored is fresh where it is read. -/
theorem ReadsFresh.of_last (hfresh : ReadsFresh l) (h : LastStore l x m n v)
    (hv : Source l v.key m k w) :
  Fresh l k m w
  := by
  obtain ⟨I, d, hI, hop, -, -, hr1⟩ := h.store
  exact hfresh m I hI v (mem_forwarded_of_store hop hr1) k w hv

/-- A variable that was not assigned since a store was not stored to since then. -/
theorem Fresh.last_le (hl : ∀ I ∈ l, storesWords I) (hw : Fresh l m n w) {u : IrValue}
    (hu : LastStore l w.key k n u) :
  k ≤ m
  := by
  by_contra hlt
  rcases hw with hconst | hkept
  · have hvar : w.kind.isVar := hu.isVar hl
    rw [hconst] at hvar
    cases hvar
  · obtain ⟨I, d, hI, hop, hd, hkey, -⟩ := hu.store
    have hredef := hkept k I (not_le.mp hlt) hu.lt hI
    rw [redefines, hop, hd, irValMatchesSlot_iff.mpr hkey] at hredef
    cases hredef

/-- A variable that is not assigned in a longer stretch is not assigned in a shorter one. -/
theorem Fresh.restrict (hw : Fresh l m n w) (hle : n' ≤ n) :
  Fresh l m n' w
  := by
  rcases hw with hconst | hkept
  · exact .inl hconst
  · exact .inr fun j I hj hj' => hkept j I hj (Nat.lt_of_lt_of_le hj' hle)

/-- What a variable is a copy of is a copy of nothing but itself. -/
theorem Source.self (hl : ∀ I ∈ l, storesWords I) (hfresh : ReadsFresh l)
    (h : Source l x n m w) (hw : Fresh l m n w) {u : IrValue} (hu : LastStore l w.key k n u) :
  ∃ w', Source l w.key n k w' ∧ w'.key = w.key
  := by
  -- a store to the source after its copy was made is excluded, one by the same instruction is
  -- one to the variable itself
  have hsame : ∀ {x : VarKey} {n m : Nat} {v w u : IrValue},
      LastStore l x m n v → LastStore l w.key m n u → w.key = x := by
    intro x n m v w u h hu
    obtain ⟨I, d, hI, -, hd, rfl, -⟩ := h.store
    obtain ⟨J, e, hJ, -, he, hkey, -⟩ := hu.store
    cases hI.symm.trans hJ
    cases hd.symm.trans he
    exact hkey.symm
  induction h generalizing k u with
  | @root x n m v h hroot =>
    rcases Nat.lt_or_eq_of_le (hw.last_le hl hu) with hlt | rfl
    · exact absurd (hu.restrict hlt h.lt.le) (hroot k u)
    · have hx := hsame h hu
      exact ⟨v, hx ▸ .root h hroot, rfl⟩
  | @copy x n m k' v w h hv ih =>
    rcases Nat.lt_or_eq_of_le (hw.last_le hl hu) with hlt | rfl
    · obtain ⟨w', hw', hkey⟩ := ih (hfresh.of_last h hv) (hu.restrict hlt h.lt.le)
      exact ⟨w', hw'.of_last hu, hkey⟩
    · have hx := hsame h hu
      exact ⟨w, hx ▸ .copy h hv, rfl⟩

end

/-! ### Values that stand for the same -/

/-- Two values are one, or stand for the same variable. -/
def IrValue.Same (v w : IrValue) : Prop := v = w ∨ v.kind.isVar ∧ v.key = w.key

section

variable {u v w : IrValue}

theorem IrValue.Same.key (h : v.Same w) :
  v.key = w.key
  := by
  rcases h with rfl | ⟨-, hkey⟩
  · rfl
  · exact hkey

theorem IrValue.Same.trans (h : u.Same v) (h' : v.Same w) :
  u.Same w
  := by
  rcases h with rfl | ⟨hvar, hkey⟩
  · exact h'
  · exact .inr ⟨hvar, hkey.trans h'.key⟩

theorem IrValue.Same.symm (h : v.Same w) :
  w.Same v
  := by
  rcases h with rfl | ⟨hvar, hkey⟩
  · exact .inl rfl
  · have hkind : v.kind = w.kind := congrArg VarKey.kind hkey
    exact .inr ⟨hkind ▸ hvar, hkey.symm⟩

theorem IrValue.Same.valueOf (h : v.Same w) (m : Machine) (s : Store) :
  valueOf m s.trace s.env v = valueOf m s.trace s.env w
  := by
  rcases h with rfl | ⟨hvar, hkey⟩
  · rfl
  · have hkind : v.kind = w.kind := congrArg VarKey.kind hkey
    rw [valueOf_of_isVar hvar, valueOf_of_isVar (hkind ▸ hvar), hkey]

end

/-! ### The rewritten instruction -/

/-- What the loop over the pairs makes of an operand. -/
def forwardValue (ps : List Pair) (v : IrValue) : IrValue := ps.foldl (fun v p => p.rewrite v) v

/-- An operand that a pair rewrites is the slot of the pair. -/
theorem Pair.rewrite_of_key_ne {p : Pair} {v : IrValue} (h : v.key ≠ p.slot.key) :
  p.rewrite v = v
  := by
  apply if_neg
  intro hrewrites
  obtain ⟨a, ha, hkey, -⟩ := Pair.rewrites_some hrewrites
  cases ha
  exact h hkey

/-- The slot of a pair becomes its source, unless it is the source. -/
theorem Pair.rewrite_of_key {p : Pair} {v : IrValue} (h : v.key = p.slot.key) :
  p.rewrite v = p.source
  := by
  rw [Pair.rewrite, Pair.rewrites, irValMatchesSlot_iff.mpr h, Bool.true_and]
  by_cases hv : v = p.source
  · rw [hv, if_neg (by simp)]
  · rw [if_pos (by simpa using hv)]

section

variable {ps : List Pair} {a w : IrValue}

/-- An operand that is no slot stays. -/
theorem forwardValue_of_not_mem (h : a.key ∉ slotKeys ps) :
  forwardValue ps a = a
  := by
  induction ps with
  | nil => rfl
  | cons p ps ih =>
    rw [slotKeys_cons, List.mem_cons, not_or] at h
    rw [forwardValue, List.foldl_cons, p.rewrite_of_key_ne h.1]
    exact ih h.2

/-- What an operand becomes is the operand or a source. -/
theorem forwardValue_cases (ps : List Pair) (a : IrValue) :
  forwardValue ps a = a ∨ ∃ p ∈ ps, forwardValue ps a = p.source
  := by
  induction ps generalizing a with
  | nil => exact .inl rfl
  | cons p ps ih =>
    rw [forwardValue, List.foldl_cons]
    rcases ih (p.rewrite a) with hsame | ⟨q, hq, hsource⟩
    · by_cases hkey : a.key = p.slot.key
      · rw [p.rewrite_of_key hkey] at hsame ⊢
        exact .inr ⟨p, List.mem_cons_self, hsame⟩
      · rw [p.rewrite_of_key_ne hkey] at hsame ⊢
        exact .inl hsame
    · exact .inr ⟨q, List.mem_cons_of_mem p hq, hsource⟩

/-- A value whose pairs lead to the same one stays the same. -/
theorem forwardValue_same (h : ∀ q ∈ ps, q.slot.key = w.key → q.source.Same w) (ha : a.Same w) :
  (forwardValue ps a).Same w
  := by
  induction ps generalizing a with
  | nil => exact ha
  | cons q ps ih =>
    apply ih fun r hr => h r (List.mem_cons_of_mem q hr)
    dsimp only
    by_cases hkey : a.key = q.slot.key
    · rw [q.rewrite_of_key hkey]
      exact h q List.mem_cons_self (hkey.symm.trans ha.key)
    · rw [q.rewrite_of_key_ne hkey]
      exact ha

/-- A slot becomes its source when the pairs of the source lead to the same value. -/
theorem forwardValue_of_mem
    (hn : (slotKeys ps).Nodup) {p : Pair} (hp : p ∈ ps) (hkey : a.key = p.slot.key)
    (h : ∀ q ∈ ps, q.slot.key = p.source.key → q.source.Same p.source) :
  (forwardValue ps a).Same p.source
  := by
  induction ps with
  | nil => cases hp
  | cons q ps ih =>
    obtain ⟨hq, hps⟩ := List.nodup_cons.mp hn
    have hrest : ∀ r ∈ ps, r.slot.key = p.source.key → r.source.Same p.source :=
      fun r hr => h r (List.mem_cons_of_mem q hr)
    rw [forwardValue, List.foldl_cons]
    rcases List.mem_cons.mp hp with rfl | hp
    · rw [p.rewrite_of_key hkey]
      exact forwardValue_same hrest (.inl rfl)
    · have hne : a.key ≠ q.slot.key := by
        intro heq
        have hmem := mem_slotKeys hp
        rw [← hkey, heq] at hmem
        exact hq hmem
      rw [q.rewrite_of_key_ne hne]
      exact ih hps hp hrest

end

/-- An instruction with its operands replaced through pairs. -/
def IrInstr.through (ps : List Pair) (I : IrInstr) : IrInstr :=
  { I with
    dst := if I.op = .br ∨ I.op = .ret then I.dst.map (forwardValue ps) else I.dst
    r1 := I.r1.map (forwardValue ps)
    r2 := I.r2.map (forwardValue ps)
    args :=
      if I.op = .call ∧ I.r1.isSome then
        I.args.map (forwardValue (ps.filter fun p => irIsConstInt (some p.source)))
      else I.args
    phiPairs :=
      if I.op = .phi then
        I.phiPairs.map fun q => { q with irValue := forwardValue ps q.irValue }
      else I.phiPairs }

/-- A value that is not pinned to a register is never overwritten in it. -/
theorem not_clobbered (pool : Option IrRegPool) {v : IrValue} (hv : ∀ r, v.loc ≠ .reg r) :
  irLocIsScratchClobbered pool v = false
    ∧ ∀ I at_, irLocClobberedBy pool I v at_ = false
  := by
  have hscratch : irLocIsScratchClobbered pool v = false := by
    unfold irLocIsScratchClobbered
    split
    · rename_i r _ hreg
      exact absurd hreg (hv _)
    · rfl
  refine ⟨hscratch, fun I at_ => ?_⟩
  rw [irLocClobberedBy, hscratch]
  rfl

/-- Replacing an operand that may be missing. -/
theorem Pair.map_rewrite (p : Pair) (v : Option IrValue) :
  v.map p.rewrite = if p.rewrites v then some p.source else v
  := by
  cases v with
  | none => rfl
  | some v =>
    rw [Option.map_some, Pair.rewrite]
    split <;> rfl

/-- Nothing changes in a vector of operands that a pair does not rewrite. -/
theorem Pair.map_rewrite_of_not_any {α : Type} (p : Pair) (f : α → IrValue) (g : α → IrValue → α)
    (hg : ∀ x, g x (f x) = x) {l : List α} (h : ¬ l.any fun x => p.rewrites (some (f x))) :
  l.map (fun x => g x (p.rewrite (f x))) = l
  := by
  conv_rhs => rw [← List.map_id l]
  apply List.map_congr_left
  intro x hx
  have hno : ¬ p.rewrites (some (f x)) := fun hrewrites =>
    h (List.any_eq_true.mpr ⟨x, hx, hrewrites⟩)
  rw [Pair.rewrite, if_neg hno, hg, id]

/-- Replacing through one pair whose source is not pinned. -/
theorem irRewriteOperands_eq (pool : Option IrRegPool) {p : Pair}
    (hp : ∀ r, p.source.loc ≠ .reg r) {I : IrInstr}
    (hop : ¬ (I.op = .lea ∨ I.op = .gep ∨ I.op = .load)) :
  (irRewriteOperands pool p I).1 = I.through [p]
  := by
  obtain ⟨hscratch, hclob⟩ := not_clobbered pool hp
  have h₁ : (rewriteR1 pool p I).1 = { I with r1 := I.r1.map p.rewrite } := by
    rw [rewriteR1, hclob, p.map_rewrite]
    split <;> simp_all
  have h₂ : ∀ J, (rewriteR2 pool p J).1 = { J with r2 := J.r2.map p.rewrite } := by
    intro J
    rw [rewriteR2, hclob, p.map_rewrite]
    split <;> simp_all
  have h₃ : ∀ J, (rewriteDst p J).1
      = { J with dst := if J.op = .br ∨ J.op = .ret then J.dst.map p.rewrite else J.dst } := by
    intro J
    rw [rewriteDst, p.map_rewrite]
    split <;> simp_all
  have h₄ : ∀ J, (rewriteArgs p J).1
      = { J with
          args :=
            if J.op = .call ∧ J.r1.isSome then
              J.args.map (forwardValue ([p].filter fun p => irIsConstInt (some p.source)))
            else J.args } := by
    intro J
    rw [rewriteArgs]
    by_cases hcall : J.op = .call ∧ J.r1.isSome
    · by_cases hconst : irIsConstInt (some p.source)
      · have hfilter : [p].filter (fun p => irIsConstInt (some p.source)) = [p] := by simp [hconst]
        rw [if_pos hcall, hfilter]
        by_cases hany : J.args.any fun a => p.rewrites (some a)
        · rw [if_pos ⟨hcall.1, hconst, hcall.2, hany⟩]
          rfl
        · have hargs := p.map_rewrite_of_not_any id (fun _ v => v) (fun _ => rfl) hany
          rw [if_neg fun h => hany h.2.2.2]
          exact congrArg (fun args => { J with args }) hargs.symm
      · have hfilter : [p].filter (fun p => irIsConstInt (some p.source)) = [] := by simp [hconst]
        rw [if_pos hcall, hfilter, if_neg fun h => hconst h.2.1]
        exact congrArg (fun args => { J with args }) (List.map_id J.args).symm
    · rw [if_neg hcall, if_neg fun h => hcall ⟨h.1, h.2.2.1⟩]
  have h₅ : ∀ J, (rewritePhis pool p J).1
      = { J with
          phiPairs :=
            if J.op = .phi then J.phiPairs.map fun q => { q with irValue := p.rewrite q.irValue }
            else J.phiPairs } := by
    intro J
    rw [rewritePhis, hscratch]
    by_cases hphi : J.op = .phi
    · rw [if_pos hphi]
      by_cases hany : J.phiPairs.any fun q => p.rewrites (some q.irValue)
      · rw [if_pos ⟨hphi, rfl, hany⟩]
      · have hpairs := p.map_rewrite_of_not_any IrPair.irValue (fun q irValue => { q with irValue })
          (fun _ => rfl) hany
        rw [if_neg fun h => hany h.2.2]
        exact congrArg (fun phiPairs => { J with phiPairs }) hpairs.symm
    · rw [if_neg hphi, if_neg fun h => hphi h.1]
  rw [irRewriteOperands, if_neg hop]
  simp only [h₁, h₂, h₃, h₄, h₅, IrInstr.through, Option.isSome_map]
  rfl

/-- Replacing through pairs one after the other. -/
theorem IrInstr.through_through (p : Pair) (ps : List Pair) (I : IrInstr) :
  (I.through [p]).through ps = I.through (p :: ps)
  := by
  have hcomp : forwardValue ps ∘ forwardValue [p] = forwardValue (p :: ps) := rfl
  have hconst : forwardValue (ps.filter fun p => irIsConstInt (some p.source))
        ∘ forwardValue ([p].filter fun p => irIsConstInt (some p.source))
      = forwardValue ((p :: ps).filter fun p => irIsConstInt (some p.source)) := by
    rw [List.filter_cons, List.filter_cons]
    split <;> rfl
  have hphi : (fun q : IrPair => { q with irValue := forwardValue ps q.irValue })
        ∘ (fun q : IrPair => { q with irValue := forwardValue [p] q.irValue })
      = fun q : IrPair => { q with irValue := forwardValue (p :: ps) q.irValue } := rfl
  simp only [IrInstr.through, Option.map_map, hcomp, Option.isSome_map]
  congr 1
  · split
    · rw [Option.map_map, hcomp]
    · rfl
  · split
    · rw [List.map_map, hconst]
    · rfl
  · split
    · rw [List.map_map, hphi]
    · rfl

/-- The loop over pairs whose sources are not pinned. -/
theorem rewriteAll_eq (pool : Option IrRegPool) {ps : List Pair}
    (hps : ∀ p ∈ ps, ∀ r, p.source.loc ≠ .reg r) {I : IrInstr}
    (hop : ¬ (I.op = .lea ∨ I.op = .gep ∨ I.op = .load)) :
  (rewriteAll pool ps I).1 = I.through ps
  := by
  induction ps generalizing I with
  | nil =>
    have hmap : ∀ v : Option IrValue, v.map (forwardValue []) = v := fun v => by cases v <;> rfl
    have hargs : ∀ args : List IrValue, args.map (forwardValue []) = args := List.map_id
    have hphis : ∀ qs : List IrPair,
        qs.map (fun q => { q with irValue := forwardValue [] q.irValue }) = qs := List.map_id
    simp only [rewriteAll, IrInstr.through, hmap, List.filter_nil, hargs, hphis, ite_self]
  | cons p ps ih =>
    have hhead := irRewriteOperands_eq pool (hps p List.mem_cons_self) hop
    rw [rewriteAll, hhead]
    have htail := ih (fun q hq => hps q (List.mem_cons_of_mem p hq)) (I := I.through [p]) hop
    exact htail.trans (I.through_through p ps)

/-- Replacing an operand by one with the same word. -/
theorem map_valueOf {m : Machine} {s : Store} {f : IrValue → IrValue} {v : Option IrValue}
    (h : ∀ a ∈ v, valueOf m s.trace s.env (f a) = valueOf m s.trace s.env a) :
  (v.map f).map (valueOf m s.trace s.env) = v.map (valueOf m s.trace s.env)
  := by
  cases v with
  | none => rfl
  | some a => exact congrArg some (h a rfl)

/-- Instructions of one opcode whose operands have the same words read the same. -/
theorem IrInstr.operands_eq {m : Machine} {tr : List Event} {σ : Env} {I J : IrInstr}
    (hop : J.op = I.op)
    (hdst : I.op.readsDst → J.dst.map (valueOf m tr σ) = I.dst.map (valueOf m tr σ))
    (hr1 : I.op.readsR1 → J.r1.map (valueOf m tr σ) = I.r1.map (valueOf m tr σ))
    (hr2 : I.op.readsR2 → J.r2.map (valueOf m tr σ) = I.r2.map (valueOf m tr σ))
    (hidx : J.idx = I.idx)
    (hargs : I.op = .call → J.args.map (valueOf m tr σ) = I.args.map (valueOf m tr σ)) :
  J.operands m tr σ = I.operands m tr σ
  := by
  unfold IrInstr.operands
  rw [hop, hidx]
  congr 1
  · split
    · exact hdst ‹_›
    · rfl
  · split
    · exact hr1 ‹_›
    · rfl
  · split
    · exact hr2 ‹_›
    · rfl
  · split
    · exact hargs ‹_›
    · rfl

/-- Replaced operands with the same words do not change what an instruction does. -/
theorem IrInstr.execInstr_through {m : Machine} {s : Store} {ps : List Pair} {I : IrInstr}
    (hop : ¬ (I.op = .lea ∨ I.op = .gep ∨ I.op = .load))
    (hreads : ∀ a ∈ I.forwarded,
      valueOf m s.trace s.env (forwardValue ps a) = valueOf m s.trace s.env a)
    (hargs : ∀ a ∈ I.args,
      valueOf m s.trace s.env
          (forwardValue (ps.filter fun p => irIsConstInt (some p.source)) a)
        = valueOf m s.trace s.env a) :
  execInstr m (I.through ps) s = execInstr m I s
  := by
  rw [IrInstr.forwarded, if_neg hop] at hreads
  have ho : (I.through ps).operands m s.trace s.env = I.operands m s.trace s.env := by
    apply IrInstr.operands_eq
    · rfl
    · intro hdst
      simp only [IrInstr.through]
      split
      case isTrue hbr =>
        exact map_valueOf fun a ha => hreads a (by simp [hbr, Option.mem_def.mp ha])
      case isFalse => rfl
    · exact fun hr1 => map_valueOf fun a ha => hreads a (by simp [hr1, Option.mem_def.mp ha])
    · exact fun hr2 => map_valueOf fun a ha => hreads a (by simp [hr2, Option.mem_def.mp ha])
    · rfl
    · intro hcall
      simp only [IrInstr.through]
      split
      · rw [List.map_map]
        exact List.map_congr_left hargs
      · rfl
  rw [execInstr, execInstr, ho]
  by_cases hbr : I.op = .br ∨ I.op = .ret
  · -- no word is written to the operand of a branch
    rcases hbr with hI | hI
    · simp [effect, IrInstr.through, hI, assign]
    · simp [effect, IrInstr.through, hI, assign]
  · have hdst : (I.through ps).dst = I.dst := if_neg hbr
    have heffect : ∀ o, effect m s.trace (I.through ps) o = effect m s.trace I o := by
      intro o
      unfold effect
      rw [hdst]
      cases hI : I.op <;> simp [IrInstr.through, hI, effectiveAddress] at hop ⊢
    rw [heffect, hdst]

/-! ### The walk -/

/-- Before `n` the pairs are copies, and the copies are recorded but for copies of themselves. -/
structure Recorded (l : List IrInstr) (n : Nat) (ps : List Pair) : Prop where
  nodup : (slotKeys ps).Nodup
  isWord : ∀ p ∈ ps, p.source.IsWord
  source : ∀ p ∈ ps, ∃ k w, Source l p.slot.key n k w ∧ w.Same p.source
  slot : ∀ x k w, Source l x n k w → x ∈ slotKeys ps ∨ w.key = x

/-- Before `n` every copy of something fresh has its word. -/
def CopiesHold (l : List IrInstr) (n : Nat) (m : Machine) (s : Store) : Prop :=
  ∀ x k w, Source l x n k w → Fresh l k n w → s.env x = valueOf m s.trace s.env w

section

variable {l : List IrInstr} {n : Nat} {ps : List Pair} {m : Machine} {s s' : Store} {I : IrInstr}

/-- A copy stays one over an instruction that does not forget it. -/
theorem Source.extend {x : VarKey} {k : Nat} {w : IrValue} (h : Source l x n k w)
    (hI : l[n]? = some I) (hx : I.forgets x = false) :
  Source l x (n + 1) k w
  := by
  obtain ⟨v, hv⟩ := h.last
  exact h.of_last (hv.extend hI hx)

/-- A copy after an instruction was made by it or is one that it does not forget. -/
theorem Source.succ_cases {x : VarKey} {k : Nat} {w : IrValue} (h : Source l x (n + 1) k w)
    (hI : l[n]? = some I) :
  (∃ v d, k = n ∧ LastStore l x n (n + 1) v ∧ I.op = .store ∧ I.dst = some d ∧ d.key = x
      ∧ I.r1 = some v)
    ∨ Source l x n k w ∧ I.forgets x = false
  := by
  obtain ⟨v, hv⟩ := h.last
  rcases Nat.lt_succ_iff_lt_or_eq.mp hv.lt with hlt | rfl
  · exact .inr ⟨h.restrict hlt (Nat.le_succ n), hv.kept n I hlt (Nat.lt_succ_self n) hI⟩
  · obtain ⟨J, d, hJ, hop, hd, hx, hr1⟩ := hv.store
    cases hI.symm.trans hJ
    exact .inl ⟨v, d, rfl, hv, hop, hd, hx, hr1⟩

/-- The pair of a slot. -/
theorem exists_of_mem_slotKeys {x : VarKey} (h : x ∈ slotKeys ps) :
  ∃ p ∈ ps, p.slot.key = x
  := List.mem_map.mp h

/-- An operand that is a slot becomes what it is a copy of. -/
theorem Recorded.forwardValue_same (hl : ∀ I ∈ l, storesWords I) (hfresh : ReadsFresh l)
    (hrec : Recorded l n ps) {a : IrValue} (ha : a.key ∈ slotKeys ps) {k : Nat} {w : IrValue}
    (hw : Source l a.key n k w) (hkept : Fresh l k n w) :
  (forwardValue ps a).Same w
  := by
  obtain ⟨p, hp, hkey⟩ := exists_of_mem_slotKeys ha
  obtain ⟨k', w', hw', hsame⟩ := hrec.source p hp
  obtain ⟨rfl, rfl⟩ := hw.unique (hkey ▸ hw')
  refine (forwardValue_of_mem hrec.nodup hp hkey.symm ?_).trans hsame.symm
  intro q hq hqkey
  obtain ⟨kq, wq, hwq, hqsame⟩ := hrec.source q hq
  rw [hqkey, ← hsame.key] at hwq
  obtain ⟨u, hu⟩ := hwq.last
  obtain ⟨w', hw', hself⟩ := hw.self hl hfresh hkept hu
  obtain ⟨-, rfl⟩ := hwq.unique hw'
  apply (hqsame.symm.trans (.inr ⟨?_, hself⟩)).trans hsame
  have hvar := hu.isVar hl
  have hkind : wq.kind = w.key.kind := congrArg VarKey.kind hself
  rwa [hkind]

/-- The operands that are replaced keep their words. -/
theorem Recorded.valueOf_forwardValue (hl : ∀ I ∈ l, storesWords I) (hfresh : ReadsFresh l)
    (hrec : Recorded l n ps) (hholds : CopiesHold l n m s) (hI : l[n]? = some I) {a : IrValue}
    (ha : a ∈ I.forwarded) :
  valueOf m s.trace s.env (forwardValue ps a) = valueOf m s.trace s.env a
  := by
  by_cases hmem : a.key ∈ slotKeys ps
  · obtain ⟨p, hp, hkey⟩ := exists_of_mem_slotKeys hmem
    obtain ⟨k, w, hw, -⟩ := hrec.source p hp
    rw [hkey] at hw
    have hkept := hfresh n I hI a ha k w hw
    obtain ⟨u, hu⟩ := hw.last
    have hvar : a.kind.isVar := hu.isVar hl
    rw [(hrec.forwardValue_same hl hfresh hmem hw hkept).valueOf, valueOf_of_isVar hvar,
      hholds a.key k w hw hkept]
  · rw [forwardValue_of_not_mem hmem]

/-- The arguments of a call that are replaced keep their words: they become constants. -/
theorem Recorded.valueOf_forwardConst (hl : ∀ I ∈ l, storesWords I) (hrec : Recorded l n ps)
    (hholds : CopiesHold l n m s) (a : IrValue) :
  valueOf m s.trace s.env (forwardValue (ps.filter fun p => irIsConstInt (some p.source)) a)
    = valueOf m s.trace s.env a
  := by
  have hn : (slotKeys (ps.filter fun p => irIsConstInt (some p.source))).Nodup :=
    hrec.nodup.sublist (List.filter_sublist.map _)
  by_cases hmem : a.key ∈ slotKeys (ps.filter fun p => irIsConstInt (some p.source))
  · obtain ⟨p, hp, hkey⟩ := exists_of_mem_slotKeys hmem
    obtain ⟨hps, hconst⟩ := List.mem_filter.mp hp
    have hkind : p.source.kind = .constInt := by simpa [irIsConstInt] using hconst
    obtain ⟨k, w, hw, hsame⟩ := hrec.source p hps
    have hwkind : w.kind = .constInt := (congrArg VarKey.kind hsame.key).trans hkind
    obtain ⟨u, hu⟩ := hw.last
    have hvar : a.kind.isVar := by
      have hslot : p.slot.key.kind.isVar := hu.isVar hl
      rwa [hkey] at hslot
    have hbecomes := forwardValue_of_mem hn hp hkey.symm fun q hq hqkey => by
      obtain ⟨kq, wq, hwq, -⟩ := hrec.source q (List.mem_of_mem_filter hq)
      obtain ⟨uq, huq⟩ := hwq.last
      have hqvar := huq.isVar hl
      rw [hqkey] at hqvar
      have hqkind : p.source.key.kind = .constInt := hkind
      rw [hqkind] at hqvar
      cases hqvar
    rw [hbecomes.valueOf, ← hsame.valueOf, valueOf_of_isVar hvar, ← hkey,
      hholds p.slot.key k w hw (.inl hwkind)]
  · rw [forwardValue_of_not_mem hmem]

/-- One round of the walk: the operands are replaced, but for the opcodes whose operands are
places. -/
theorem forwardInstr_eq (pool : Option IrRegPool) (hrec : Recorded l n ps) (I : IrInstr) :
  (forwardInstr pool ps I).1
    = if I.op = .nop ∨ I.op = .lea ∨ I.op = .gep ∨ I.op = .load then I else I.through ps
  := by
  rw [forwardInstr]
  by_cases hnop : I.op = .nop
  · rw [if_pos hnop, if_pos (.inl hnop)]
  · rw [if_neg hnop]
    by_cases hop : I.op = .lea ∨ I.op = .gep ∨ I.op = .load
    · rw [if_pos (.inr hop)]
      clear hrec
      induction ps with
      | nil => rfl
      | cons p ps ih => simpa only [rewriteAll, irRewriteOperands, if_pos hop] using ih
    · rw [if_neg (not_or.mpr ⟨hnop, hop⟩)]
      exact rewriteAll_eq pool (fun p hp => (hrec.isWord p hp).unpinned) hop

/-- One round of the walk keeps what the instruction does. -/
theorem Recorded.execInstr_forwardInstr (hl : ∀ I ∈ l, storesWords I) (hfresh : ReadsFresh l)
    (pool : Option IrRegPool) (hrec : Recorded l n ps) (hholds : CopiesHold l n m s)
    (hI : l[n]? = some I) :
  execInstr m (forwardInstr pool ps I).1 s = execInstr m I s
  := by
  rw [forwardInstr_eq pool hrec]
  split
  · rfl
  · rename_i hop
    apply IrInstr.execInstr_through fun h => hop (.inr h)
    · exact fun a ha => hrec.valueOf_forwardValue hl hfresh hholds hI ha
    · exact fun a _ => hrec.valueOf_forwardConst hl hholds a

/-- An operand or a source is a word. -/
theorem Recorded.isWord_forwardValue (hrec : Recorded l n ps) {a : IrValue} (ha : a.IsWord) :
  (forwardValue ps a).IsWord
  := by
  rcases forwardValue_cases ps a with heq | ⟨p, hp, heq⟩
  · rwa [heq]
  · rw [heq]
    exact hrec.isWord p hp

/-- What the pass keeps of an instruction. -/
theorem forwardInstr_spec (pool : Option IrRegPool) (hrec : Recorded l n ps) (I : IrInstr) :
  (forwardInstr pool ps I).1.op = I.op
    ∧ (¬ (I.op = .br ∨ I.op = .ret) → (forwardInstr pool ps I).1.dst = I.dst)
    ∧ (I.op = .br ∨ I.op = .ret →
      (forwardInstr pool ps I).1.dst = I.dst.map (forwardValue ps))
    ∧ (I.op = .store → (forwardInstr pool ps I).1.r1 = I.r1.map (forwardValue ps))
  := by
  rw [forwardInstr_eq pool hrec]
  split
  · rename_i hop
    refine ⟨rfl, fun _ => rfl, fun hbr => ?_, fun hstore => ?_⟩
    · rcases hbr with hI | hI <;> simp [hI] at hop
    · simp [hstore] at hop
  · exact ⟨rfl, fun hbr => if_neg hbr, fun hbr => if_pos hbr, fun _ => rfl⟩

/-- A branch forgets nothing. -/
theorem forgets_branch (hbr : I.op = .br ∨ I.op = .ret) (x : VarKey) :
  I.forgets x = false
  := by
  rcases hbr with hI | hI <;> simp [IrInstr.forgets, hI, IrOp.killsAll]

/-- What an instruction forgets is what the pass removes for the rewritten one. -/
theorem forgets_eq {J : IrInstr} (hop : J.op = I.op) (hdst : J.dst = I.dst)
    (hr1 : I.op = .store → J.r1.isSome = I.r1.isSome) (hnop : I.op ≠ .nop)
    (hbr : ¬ (I.op = .br ∨ I.op = .ret)) (slot : IrValue) :
  I.forgets slot.key = (J.op.killsAll || redefinesSlot J slot)
  := by
  have hmatch : I.dst.any (·.key = slot.key) = irValMatchesSlot J.dst slot := by
    rw [hdst]
    cases hd : I.dst with
    | none => rfl
    | some d => rw [Option.any_some, Bool.eq_iff_iff, decide_eq_true_eq, irValMatchesSlot_iff]
  obtain ⟨hnbr, hnret⟩ := not_or.mp hbr
  rw [IrInstr.forgets, redefinesSlot, hop, hmatch]
  by_cases hstore : I.op = .store
  · simp [hstore, hr1 hstore]
  · simp [hstore, hnop, hnbr, hnret]

/-- Only an instruction that does not clear the arrays leaves pairs. -/
theorem killsAll_of_mem_recordPairs {pool : Option IrRegPool} {J : IrInstr} {p : Pair}
    (h : p ∈ recordPairs pool ps J) :
  J.op.killsAll = false
  := by
  rw [recordPairs] at h
  split at h
  · cases h
  · rename_i hkills
    exact Bool.eq_false_iff.mpr hkills

/-- No pair whose source is not pinned is dropped with a register. -/
theorem dropScratch_perm_self (pool : Option IrRegPool) (hps : ∀ p ∈ ps, p.source.IsWord)
    (J : IrInstr) :
  (dropScratch pool J ps).Perm ps
  := by
  have hperm := dropScratch_perm pool J ps
  rwa [List.filter_eq_self.mpr] at hperm
  intro p hp
  simp [(not_clobbered pool (hps p hp).unpinned).2]

/-- A slot that is not redefined stays recorded. -/
theorem mem_slotKeys_recordPairs (pool : Option IrRegPool) (hps : ∀ p ∈ ps, p.source.IsWord)
    {J : IrInstr} (hkills : J.op.killsAll = false) {p : Pair} (hp : p ∈ ps)
    (hslot : redefinesSlot J p.slot = false) :
  p.slot.key ∈ slotKeys (recordPairs pool ps J)
  := by
  have hkeep : p ∈ dropScratch pool J ps := (dropScratch_perm_self pool hps J).mem_iff.mpr hp
  have hremove : ∀ qs : List Pair, p ∈ qs → irValMatchesSlot J.dst p.slot = false →
      p ∈ removeSlot J.dst qs := by
    intro qs hqs hmatch
    rw [(removeSlot_perm J.dst qs).mem_iff]
    exact (List.mem_eraseP_of_neg (by simp [hmatch])).mpr hqs
  rw [recordPairs, hkills, if_neg Bool.false_ne_true]
  by_cases hstore : J.op = .store
  · rw [dropRedefined, if_neg (by simp [hstore])]
    unfold updateStore
    rw [hstore]
    cases hd : J.dst with
    | none => exact mem_slotKeys hkeep
    | some d =>
      cases hv : J.r1 with
      | none => exact mem_slotKeys hkeep
      | some v =>
        have hmatch : irValMatchesSlot J.dst p.slot = false := by
          simpa [redefinesSlot, hv] using hslot
        dsimp only
        split
        · rw [slotKeys_recordStore]
          split
          · exact mem_slotKeys hkeep
          · exact List.mem_append_left _ (mem_slotKeys hkeep)
        · exact mem_slotKeys (hd ▸ hremove _ hkeep hmatch)
  · have hmatch : irValMatchesSlot J.dst p.slot = false := by
      simpa [redefinesSlot, hstore] using hslot
    have hupdate : ∀ qs, updateStore J qs = qs := by
      intro qs
      unfold updateStore
      split
      · exact absurd ‹_› hstore
      · rfl
    rw [hupdate, dropRedefined]
    split
    · exact mem_slotKeys (hremove _ hkeep hmatch)
    · exact mem_slotKeys hkeep

/-- The variable of a store is recorded. -/
theorem stored_mem_slotKeys (pool : Option IrRegPool) (ps : List Pair) {J : IrInstr}
    (hop : J.op = .store) {d v : IrValue} (hd : J.dst = some d) (hv : J.r1 = some v)
    (hword : v.IsWord) :
  d.key ∈ slotKeys (recordPairs pool ps J)
  := by
  rw [recordPairs, hop, if_neg (by decide), dropRedefined, if_neg (by simp [hop])]
  unfold updateStore
  rw [hop, hd, hv]
  dsimp only
  rw [if_pos hword.size, slotKeys_recordStore]
  split
  · assumption
  · exact List.mem_append_right _ (List.mem_singleton_self _)

/-- What a store makes its variable a copy of. -/
theorem Recorded.stored (hl : ∀ I ∈ l, storesWords I) (hfresh : ReadsFresh l)
    (hrec : Recorded l n ps) (hI : l[n]? = some I) (hop : I.op = .store) {d v : IrValue}
    (hd : I.dst = some d) (hv : I.r1 = some v) :
  ∃ w, Source l d.key (n + 1) n w ∧ w.Same (forwardValue ps v)
  := by
  have hlast : LastStore l d.key n (n + 1) v :=
    ⟨Nat.lt_succ_self n, ⟨I, d, hI, hop, hd, rfl, hv⟩, fun k _ hk hk' => by omega⟩
  by_cases hcopy : ∃ k u, LastStore l v.key k n u
  · obtain ⟨k, u, hu⟩ := hcopy
    obtain ⟨w, hw⟩ := hu.exists_source
    refine ⟨w, .copy hlast hw, ?_⟩
    by_cases hmem : v.key ∈ slotKeys ps
    · exact (hrec.forwardValue_same hl hfresh hmem hw (hfresh.of_last hlast hw)).symm
    · have hself := (hrec.slot v.key k w hw).resolve_left hmem
      have hkind : w.kind = v.kind := congrArg VarKey.kind hself
      have hvar : v.kind.isVar := hu.isVar hl
      rw [forwardValue_of_not_mem hmem]
      exact .inr ⟨hkind ▸ hvar, hself⟩
  · have hmem : v.key ∉ slotKeys ps := by
      intro hmem
      obtain ⟨p, hp, hkey⟩ := exists_of_mem_slotKeys hmem
      obtain ⟨k, w, hw, -⟩ := hrec.source p hp
      obtain ⟨u, hu⟩ := hw.last
      exact hcopy ⟨k, u, hkey ▸ hu⟩
    rw [forwardValue_of_not_mem hmem]
    exact ⟨v, .root hlast fun k u hu => hcopy ⟨k, u, hu⟩, .inl rfl⟩

/-- A copy whose slot a branch on it has removed is a copy of itself. -/
theorem Recorded.self_of_branch (hl : ∀ I ∈ l, storesWords I) (hfresh : ReadsFresh l)
    (hrec : Recorded l n ps) (hI : l[n]? = some I) {a : IrValue} (ha : a ∈ I.forwarded)
    {x : VarKey} (hx : x ∈ slotKeys ps) (hbecomes : (forwardValue ps a).key = x) {k : Nat}
    {w : IrValue} (hw : Source l x n k w) :
  w.key = x
  := by
  by_cases hmem : a.key ∈ slotKeys ps
  · obtain ⟨p, hp, hkey⟩ := exists_of_mem_slotKeys hmem
    obtain ⟨j, u, hu, -⟩ := hrec.source p hp
    rw [hkey] at hu
    have hkept := hfresh n I hI a ha j u hu
    have hux : u.key = x := (hrec.forwardValue_same hl hfresh hmem hu hkept).key.symm.trans hbecomes
    subst hux
    obtain ⟨v, hv⟩ := hw.last
    obtain ⟨w', hw', hself⟩ := hu.self hl hfresh hkept hv
    rw [(hw.unique hw').2, hself]
  · rw [forwardValue_of_not_mem hmem] at hbecomes
    exact absurd (hbecomes ▸ hx) hmem

/-- One round of the walk keeps the pairs and the copies together. -/
theorem Recorded.forwardPairs (hl : ∀ I ∈ l, storesWords I) (hfresh : ReadsFresh l)
    (pool : Option IrRegPool) (hrec : Recorded l n ps) (hI : l[n]? = some I) :
  Recorded l (n + 1) (forwardPairs pool ps (forwardInstr pool ps I).1)
  := by
  obtain ⟨hop, hdst, hbranch, hr1⟩ := forwardInstr_spec pool hrec I
  have hword : ∀ v, I.op = .store → I.r1 = some v → v.IsWord :=
    fun v hstore hv => (hl I (List.mem_of_getElem? hI) hstore).2 v hv
  generalize (forwardInstr pool ps I).1 = J at hop hdst hbranch hr1
  rw [Polyc.forwardPairs, hop]
  split
  case isTrue hnop =>
    have hforgets : ∀ x, I.forgets x = false := fun x => by
      simp [IrInstr.forgets, hnop, IrOp.killsAll]
    refine ⟨hrec.nodup, hrec.isWord, fun p hp => ?_, fun x k w hw => ?_⟩
    · obtain ⟨k, w, hw, hsame⟩ := hrec.source p hp
      exact ⟨k, w, hw.extend hI (hforgets _), hsame⟩
    · rcases hw.succ_cases hI with ⟨v, d, -, -, hstore, -⟩ | ⟨hw, -⟩
      · rw [hnop] at hstore
        cases hstore
      · exact hrec.slot x k w hw
  case isFalse hnop =>
    have hsome : I.op = .store → J.r1.isSome = I.r1.isSome := fun hstore => by
      rw [hr1 hstore, Option.isSome_map]
    constructor
    case nodup => exact nodup_recordPairs hrec.nodup J
    case isWord =>
      intro p hp
      obtain ⟨hstore, -, hv⟩ | ⟨hold, -⟩ := mem_recordPairs hrec.nodup hp
      · rw [hop] at hstore
        rw [hr1 hstore] at hv
        obtain ⟨v, hv, hsource⟩ := Option.map_eq_some_iff.mp hv
        rw [← hsource]
        exact hrec.isWord_forwardValue (hword v hstore hv)
      · exact hrec.isWord p hold
    case source =>
      intro p hp
      obtain ⟨hstore, ⟨d, hd, hkey⟩, hv⟩ | ⟨hold, hslot, -⟩ := mem_recordPairs hrec.nodup hp
      · rw [hop] at hstore
        rw [hdst (by simp [hstore])] at hd
        rw [hr1 hstore] at hv
        obtain ⟨v, hv, hsource⟩ := Option.map_eq_some_iff.mp hv
        obtain ⟨w, hw, hsame⟩ := hrec.stored hl hfresh hI hstore hd hv
        exact ⟨n, w, hkey ▸ hw, hsource ▸ hsame⟩
      · obtain ⟨k, w, hw, hsame⟩ := hrec.source p hold
        refine ⟨k, w, hw.extend hI ?_, hsame⟩
        by_cases hbr : I.op = .br ∨ I.op = .ret
        · exact forgets_branch hbr _
        · rw [forgets_eq hop (hdst hbr) hsome hnop hbr, killsAll_of_mem_recordPairs hp, hslot]
          rfl
    case slot =>
      intro x k w hw
      rcases hw.succ_cases hI with ⟨v, d, -, -, hstore, hd, rfl, hv⟩ | ⟨hw, hforgets⟩
      · left
        apply stored_mem_slotKeys pool ps (hop.trans hstore) ((hdst (by simp [hstore])).trans hd)
        · rw [hr1 hstore, hv, Option.map_some]
        · exact hrec.isWord_forwardValue (hword v hstore hv)
      · rcases hrec.slot x k w hw with hx | hself
        · obtain ⟨p, hp, hkey⟩ := exists_of_mem_slotKeys hx
          have hkills : J.op.killsAll = false := by
            rw [IrInstr.forgets, Bool.or_eq_false_iff] at hforgets
            rw [hop]
            exact hforgets.1
          cases hslot : redefinesSlot J p.slot with
          | false =>
            left
            rw [← hkey]
            exact mem_slotKeys_recordPairs pool hrec.isWord hkills hp hslot
          | true =>
            -- the variable was the operand of a branch
            right
            by_cases hbr : I.op = .br ∨ I.op = .ret
            · rw [redefinesSlot, hbranch hbr, Bool.and_eq_true] at hslot
              cases hd : I.dst with
              | none =>
                rw [hd] at hslot
                cases hslot.1
              | some a =>
                rw [hd, Option.map_some, irValMatchesSlot_iff] at hslot
                have ha : a ∈ I.forwarded := by
                  rcases hbr with hI | hI <;> simp [IrInstr.forwarded, hI, hd]
                exact hrec.self_of_branch hl hfresh hI ha hx (hslot.1.trans hkey) hw
            · rw [← hkey, forgets_eq hop (hdst hbr) hsome hnop hbr, hslot, Bool.or_true] at hforgets
              cases hforgets
        · exact .inr hself

/-- A variable that is not forgotten keeps its word. -/
theorem env_of_not_forgets (h : execInstr m I s = some s') {x : VarKey}
    (hx : I.forgets x = false) :
  s'.env x = s.env x
  := by
  by_cases hw : I.writes x
  · have hstore : I.op = .store ∧ I.r1 = none := by
      rw [IrInstr.writes, Bool.and_eq_true] at hw
      obtain ⟨hwrites, hdst⟩ := hw
      rw [IrInstr.forgets, hdst] at hx
      cases hop : I.op <;> simp_all [IrOp.killsAll, IrOp.writesDst]
    rw [execInstr_store_none h hstore.1 hstore.2]
  · exact execInstr_env h (Bool.eq_false_iff.mpr hw)

/-- An instruction that does not redefine a word keeps it. -/
theorem valueOf_of_not_redefines (h : execInstr m I s = some s') {v : IrValue} (hv : v.isPlain)
    (hr : v.kind = .constInt ∨ redefines I v = false) :
  valueOf m s'.trace s'.env v = valueOf m s.trace s.env v
  := by
  apply valueOf_congr hv
  intro hvar
  apply execInstr_env h
  rcases hr with hconst | hr
  · rw [hconst] at hvar
    cases hvar
  · rw [IrInstr.writes]
    rw [redefines] at hr
    cases hd : I.dst with
    | none => exact Bool.and_false _
    | some d =>
      rw [hd] at hr
      have hmatch : irValMatchesSlot (some d) v = decide (d.key = v.key) := by
        rw [Bool.eq_iff_iff, irValMatchesSlot_iff, decide_eq_true_eq]
      rwa [Option.any_some, ← hmatch]

/-- An executed instruction keeps the copies that it does not forget, and a store makes one. -/
theorem CopiesHold.execInstr (hl : ∀ I ∈ l, storesWords I) (hfresh : ReadsFresh l)
    (hholds : CopiesHold l n m s) (hI : l[n]? = some I) (h : execInstr m I s = some s') :
  CopiesHold l (n + 1) m s'
  := by
  intro x k w hw hkept
  have hplain := (hw.isWord hl).isPlain
  rcases hw.succ_cases hI with ⟨v, d, rfl, hlast, hop, hd, rfl, hv⟩ | ⟨hold, hforgets⟩
  · have hdvar := (hl I (List.mem_of_getElem? hI) hop).1 d hd
    have henv := execInstr_store h hop hd hv hdvar
    have hsame : valueOf m s.trace s.env v = valueOf m s.trace s.env w := by
      cases hw with
      | root hlast' => rw [(hlast'.unique hlast).2]
      | copy hlast' hcopy =>
        obtain ⟨-, rfl⟩ := hlast'.unique hlast
        obtain ⟨u, hu⟩ := hcopy.last
        have hvar : IrValueKind.isVar (IrValue.kind _) := hu.isVar hl
        rw [valueOf_of_isVar hvar]
        exact hholds _ _ w hcopy (hfresh.of_last hlast hcopy)
    rw [henv, Function.update_self, hsame]
    apply valueOf_congr hplain
    intro hwvar
    by_cases hkey : w.key = d.key
    · rw [hkey, Function.update_self, valueOf_of_isVar hwvar, hkey]
    · rw [Function.update_of_ne hkey]
  · have hnot : w.kind = .constInt ∨ redefines I w = false :=
      hkept.imp_right fun hkept => hkept n I hold.last.choose_spec.lt (Nat.lt_succ_self n) hI
    rw [env_of_not_forgets h hforgets, hholds x k w hold (hkept.restrict (Nat.le_succ n)),
      valueOf_of_not_redefines h hplain hnot]

/-- The walk over the rest of a block keeps the meaning of the instructions. -/
theorem forwardInstrs_execInstrs (hl : ∀ I ∈ l, storesWords I) (hfresh : ReadsFresh l)
    (pool : Option IrRegPool) (hrec : Recorded l n ps) (hholds : CopiesHold l n m s) :
  execInstrs m (forwardInstrs pool ps (l.drop n)).1 s = execInstrs m (l.drop n) s
  := by
  induction hrest : l.drop n generalizing n ps s with
  | nil => rfl
  | cons I rest ih =>
    have hI : l[n]? = some I := by
      rw [← List.head?_drop, hrest, List.head?_cons]
    have hnext : l.drop (n + 1) = rest := by
      rw [← List.tail_drop, hrest, List.tail_cons]
    simp only [forwardInstrs, execInstrs, hrec.execInstr_forwardInstr hl hfresh pool hholds hI]
    cases hs : Polyc.execInstr m I s with
    | none => rfl
    | some s' =>
      exact ih (hrec.forwardPairs hl hfresh pool hI) (hholds.execInstr hl hfresh hI hs) hnext

end

/-- Nothing is a copy at the start of a block. -/
theorem recorded_nil (l : List IrInstr) :
  Recorded l 0 [] ∧ ∀ m s, CopiesHold l 0 m s
  := by
  have hnone : ∀ {x k w}, ¬ Source l x 0 k w := fun h => Nat.not_lt_zero _ h.last.choose_spec.lt
  constructor
  · exact ⟨List.nodup_nil, by simp, by simp, fun x k w hw => absurd hw hnone⟩
  · exact fun m s x k w hw => absurd hw hnone

/-- The walk does not touch the phis that lead a block. -/
theorem leadingPhis_forwardInstrs (pool : Option IrRegPool) (l : List IrInstr) :
  leadingPhis (forwardInstrs pool [] l).1 = leadingPhis l
  := by
  induction l with
  | nil => rfl
  | cons I l ih =>
    have hI : (forwardInstr pool [] I).1 = I := by
      unfold forwardInstr
      split <;> rfl
    simp only [forwardInstrs, hI]
    by_cases hnop : I.op = .nop
    · have hps : forwardPairs pool [] I = [] := if_pos hnop
      rw [hps]
      simpa [leadingPhis, hnop] using ih
    by_cases hphi : I.op = .phi
    · have hps : forwardPairs pool [] I = [] := by
        simp [forwardPairs, recordPairs, updateStore, dropRedefined, dropScratch, hphi,
          IrOp.killsAll, IrOp.sparesScratch, removeSlot]
      rw [hps]
      simp only [leadingPhis, List.filter_cons, hphi, ne_eq, reduceCtorEq, not_false_eq_true,
        decide_true, if_true, List.takeWhile_cons] at ih ⊢
      rw [ih]
    · simp [leadingPhis, hnop, hphi]

/-- Two blocks mean the same: the copies on every edge into them, and from every state the
final state or the state at a trap, with all variables and all events. -/
def SameBlock (b b' : IrBlock) : Prop :=
  b'.id = b.id
    ∧ (∀ pred, phiCopies pred b'.instructions = phiCopies pred b.instructions)
    ∧ ∀ m s, execInstrs m b'.instructions s = execInstrs m b.instructions s

/-- Forwarding keeps the meaning of every block over unpinned 8-byte values whose reads are
fresh. -/
theorem irForwardStoreToReads_sameBlock
    {pool : Option IrRegPool} {fn : IrFunction} {i : Nat} {b : IrBlock}
    (hb : fn.blocks[i]? = some b) (hwords : ∀ I ∈ b.instructions, storesWords I)
    (hfresh : ReadsFresh b.instructions) :
  ∃ b', (irForwardStoreToReads pool fn).1.blocks[i]? = some b' ∧ SameBlock b b'
  := by
  use (forwardBlock pool b).1
  constructor
  · simp [irForwardStoreToReads, hb]
  constructor
  · rfl
  constructor
  · intro pred
    simp only [phiCopies, forwardBlock, leadingPhis_forwardInstrs]
  · intro m s
    obtain ⟨hrec, hholds⟩ := recorded_nil b.instructions
    exact forwardInstrs_execInstrs hwords hfresh pool hrec (hholds m s)

/-! ### Chains of copies and swaps -/

/-- `t = a; u = t; t = 5; return u` over locals: the copy keeps the word of `a`. -/
def chainBlock : IrBlock where
  id := 1
  instructions :=
    [{ op := .store, dst := irWordVar 2 .local 2, r1 := irWordVar 1 .local 1 },
     { op := .store, dst := irWordVar 3 .local 3, r1 := irWordVar 2 .local 2 },
     { op := .store, dst := irWordVar 2 .local 2, r1 := irConstInt 4 .i64 5 },
     { op := .ret, dst := irWordVar 3 .local 3 }]

/-- A local may be stored. -/
theorem isWord_irWordVar (addr id : Nat) :
  (irWordVar addr .local id).IsWord
  := ⟨rfl, rfl, nofun⟩

/-- A constant may be stored. -/
theorem isWord_irConstInt (addr : Nat) (num : Word) :
  (irConstInt addr .i64 num).IsWord
  := ⟨rfl, rfl, nofun⟩

/-- A store of a word to a local. -/
theorem storesWords_store {addr id : Nat} {v : IrValue} (hv : v.IsWord) :
  storesWords { op := .store, dst := irWordVar addr .local id, r1 := v }
  := by
  intro _
  constructor
  · rintro d ⟨⟩
    rfl
  · rintro w ⟨⟩
    exact hv

/-- `t` holds `a` when it is copied. -/
theorem last_chainBlock :
  LastStore chainBlock.instructions ⟨.local, 2⟩ 0 1 (irWordVar 1 .local 1)
  where
  lt := Nat.one_pos
  store := ⟨_, _, rfl, rfl, rfl, rfl, rfl⟩
  kept k _ hk hk' := by omega

/-- `t` is a copy of `a` then. -/
theorem source_chainBlock {k : Nat} {w : IrValue}
    (hw : Source chainBlock.instructions ⟨.local, 2⟩ 1 k w) :
  w = irWordVar 1 .local 1
  := by
  have hroot : Source chainBlock.instructions ⟨.local, 2⟩ 1 0 (irWordVar 1 .local 1) :=
    .root last_chainBlock fun _ _ h => Nat.not_lt_zero _ h.lt
  exact (hw.unique hroot).2

/-- No read of `chainBlock` comes after an assignment to what it is a copy of. -/
theorem readsFresh_chainBlock :
  ReadsFresh chainBlock.instructions
  := by
  intro n I hI a ha m w hw
  obtain ⟨v, hlast⟩ := hw.last
  obtain ⟨J, d, hJ, -, hd, hkey, hv⟩ := hlast.store
  have hn : n < 4 := (List.getElem?_eq_some_iff.mp hI).1
  have hlt := hlast.lt
  obtain rfl | rfl | rfl | rfl : n = 0 ∨ n = 1 ∨ n = 2 ∨ n = 3 := by omega
  · omega
  · exact .inr fun k _ hk hk' => by omega
  · -- the operand is a constant
    cases hI
    obtain rfl := List.mem_singleton.mp ha
    obtain rfl | rfl : m = 0 ∨ m = 1 := by omega
    · cases hJ
      cases hd
      cases hkey
    · cases hJ
      cases hd
      cases hkey
  · -- the operand is `u`, a copy of `a` through `t`
    cases hI
    obtain rfl := List.mem_singleton.mp ha
    obtain rfl | rfl | rfl : m = 0 ∨ m = 1 ∨ m = 2 := by omega
    · cases hJ
      cases hd
      cases hkey
    · cases hJ
      cases hv
      have hw : w = irWordVar 1 .local 1 := by
        cases hw with
        | root h hroot =>
          obtain ⟨-, rfl⟩ := h.unique hlast
          exact absurd last_chainBlock (hroot _ _)
        | copy h hcopy =>
          obtain ⟨-, rfl⟩ := h.unique hlast
          exact source_chainBlock hcopy
      subst hw
      apply Or.inr
      intro k K hk hk' hK
      obtain rfl : k = 2 := by omega
      cases hK
      rfl
    · cases hJ
      cases hd
      cases hkey

/-- The theorem at `chainBlock`. -/
theorem irForwardStoreToReads_chainBlock :
  ∃ b', (irForwardStoreToReads (some x86_64Pool) ⟨1, [chainBlock]⟩).1.blocks[0]? = some b'
    ∧ SameBlock chainBlock b'
  := by
  apply irForwardStoreToReads_sameBlock (b := chainBlock) rfl
  · simp only [chainBlock, List.forall_mem_cons]
    refine ⟨storesWords_store (isWord_irWordVar 1 1), storesWords_store (isWord_irWordVar 2 2),
      storesWords_store (isWord_irConstInt 4 5), ?_, by simp⟩
    intro h
    cases h
  · exact readsFresh_chainBlock

/-- `t = a; a = b; b = t` over locals. -/
def swapBlock : IrBlock where
  id := 1
  instructions :=
    [{ op := .store, dst := irWordVar 3 .local 3, r1 := irWordVar 1 .local 1 },
     { op := .store, dst := irWordVar 1 .local 1, r1 := irWordVar 2 .local 2 },
     { op := .store, dst := irWordVar 2 .local 2, r1 := irWordVar 3 .local 3 }]

/-- Forwarding turns the last store of `swapBlock` into `b = b`. -/
theorem irForwardStoreToReads_swapBlock :
  ¬ ∀ (pool : Option IrRegPool) (fn : IrFunction) (i : Nat) (b : IrBlock),
      fn.blocks[i]? = some b → (∀ I ∈ b.instructions, storesWords I) →
      ∃ b', (irForwardStoreToReads pool fn).1.blocks[i]? = some b' ∧ SameBlock b b'
  := by
  intro h
  obtain ⟨b', hb', -, -, hrun⟩ := h (some x86_64Pool) ⟨1, [swapBlock]⟩ 0 swapBlock rfl
    (by simp [swapBlock, storesWords_store, isWord_irWordVar])
  cases hb'
  let s : Store := ⟨fun k => BitVec.ofNat 64 k.id, []⟩
  let final (b : IrBlock) : Option Word :=
    (execInstrs zeroMachine b.instructions s).toOption.map fun s => s.env ⟨.local, 2⟩
  have hbefore : final swapBlock = some 1 := by decide
  have hafter : final (forwardBlock (some x86_64Pool) swapBlock).1 = some 2 := by decide
  have heq : final (forwardBlock (some x86_64Pool) swapBlock).1 = final swapBlock := by
    simp only [final]
    rw [← hrun zeroMachine s]
  rw [hbefore, hafter] at heq
  revert heq
  decide

end Polyc
