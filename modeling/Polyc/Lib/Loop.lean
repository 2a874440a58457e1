import Mathlib.Tactic.Use

/-!
# Loops

A loop is a step function that goes on from a state or leaves the loop with a result.  Its runs
are bounded by a number of steps; `Returns` forgets the bound.
-/

namespace Loop

variable {σ ρ : Type*}

/-- At most `n` steps of a loop. -/
def run (step : σ → σ ⊕ ρ) : Nat → σ → Option ρ
  | 0, _ => none
  | n + 1, s =>
    match step s with
    | .inl s' => run step n s'
    | .inr r => some r

/-- A step, and the steps behind it. -/
theorem run_succ (step : σ → σ ⊕ ρ) (n : Nat) (s : σ) :
  run step (n + 1) s = match step s with
    | .inl s' => run step n s'
    | .inr r => some r
  := rfl

/-- The loop leaves with a result. -/
def Returns (step : σ → σ ⊕ ρ) (s : σ) (r : ρ) : Prop := ∃ n, run step n s = some r

variable {step : σ → σ ⊕ ρ}

/-- More steps do not change a result. -/
theorem run_mono {n m : Nat} {s : σ} {r : ρ} (h : run step n s = some r) (hnm : n ≤ m) :
  run step m s = some r
  := by
  induction n generalizing m s with
  | zero => cases h
  | succ n ih =>
    obtain ⟨m, rfl⟩ : ∃ k, m = k + 1 := ⟨m - 1, by omega⟩
    rw [run_succ] at h ⊢
    cases hs : step s with
    | inl s' =>
      rw [hs] at h
      apply ih h (Nat.le_of_succ_le_succ hnm)
    | inr r' =>
      rw [hs] at h
      apply h

/-- A loop has one result at most. -/
theorem Returns.unique {s : σ} {r r' : ρ} (h : Returns step s r) (h' : Returns step s r') :
  r = r'
  := by
  obtain ⟨n, hn⟩ := h
  obtain ⟨m, hm⟩ := h'
  have hn' := run_mono hn (Nat.le_max_left n m)
  rw [run_mono hm (Nat.le_max_right n m)] at hn'
  cases hn'
  rfl

/-- A step that leaves the loop. -/
theorem Returns.done {s : σ} {r : ρ} (h : step s = .inr r) :
  Returns step s r
  := by
  use 1
  rw [run_succ, h]

/-- A step that goes on. -/
theorem Returns.next {s s' : σ} {r : ρ} (h : step s = .inl s') (hr : Returns step s' r) :
  Returns step s r
  := by
  obtain ⟨n, hn⟩ := hr
  use n + 1
  rw [run_succ, h]
  apply hn

/-- What is behind a step leads to a result. -/
def Leads (step : σ → σ ⊕ ρ) : σ ⊕ ρ → ρ → Prop
  | .inl s, r => Returns step s r
  | .inr r', r => r' = r

/-- A loop returns what its step leads to. -/
theorem returns_iff {s : σ} {r : ρ} :
  Returns step s r ↔ Leads step (step s) r
  := by
  cases h : step s with
  | inl s' =>
    constructor
    · rintro ⟨n, hn⟩
      cases n with
      | zero => cases hn
      | succ n =>
        rw [run_succ, h] at hn
        exact ⟨n, hn⟩
    · apply Returns.next h
  | inr r' =>
    constructor
    · apply (Returns.done h).unique
    · rintro rfl
      apply Returns.done h

/-- What a step has to do to a state that satisfies the invariant: it keeps the invariant and
decreases the measure, or it leaves the loop with what is promised. -/
def Keeps (step : σ → σ ⊕ ρ) (Inv : σ → Prop) (Post : ρ → Prop) (μ : σ → Nat) : Prop :=
  ∀ s, Inv s → match step s with
    | .inl s' => Inv s' ∧ μ s' < μ s
    | .inr r => Post r

variable {Inv : σ → Prop} {Post : ρ → Prop} {μ : σ → Nat}

/-- A loop whose steps keep an invariant and decrease a measure leaves with what is promised. -/
theorem Keeps.run (h : Keeps step Inv Post μ) {n : Nat} {s : σ} (hs : Inv s) (hn : μ s < n) :
  ∃ r, run step n s = some r ∧ Post r
  := by
  induction n generalizing s with
  | zero => cases hn
  | succ n ih =>
    have hstep := h s hs
    rw [run_succ]
    cases hst : step s with
    | inl s' =>
      rw [hst] at hstep
      apply ih hstep.1 (by omega)
    | inr r =>
      rw [hst] at hstep
      use r, rfl, hstep

/-- What holds of a state and of what each step makes of one of which it holds, holds of what a loop leaves with. -/
theorem Returns.post (P : σ ⊕ ρ → Prop) (h : ∀ s, P (.inl s) → P (step s)) {s : σ} {r : ρ} (hs : P (.inl s))
    (hr : Returns step s r) :
  P (.inr r)
  := by
  obtain ⟨n, hn⟩ := hr
  induction n generalizing s with
  | zero => cases hn
  | succ n ih =>
    have hstep := h s hs
    rw [run_succ] at hn
    cases hst : step s with
    | inl s' =>
      rw [hst] at hstep hn
      apply ih hstep hn
    | inr r' =>
      rw [hst] at hstep hn
      cases hn
      apply hstep

/-- The same behind a step. -/
theorem Leads.post (P : σ ⊕ ρ → Prop) (h : ∀ s, P (.inl s) → P (step s)) {out : σ ⊕ ρ} {r : ρ} (hout : P out)
    (hr : Leads step out r) :
  P (.inr r)
  := by
  cases out with
  | inl s => apply Returns.post P h hout hr
  | inr r' =>
    cases hr
    apply hout

end Loop
