import Mathlib.Data.List.Basic
import Mathlib.Logic.Function.Iterate
import Mathlib.Tactic.Use

/-!
# Repeated sweeps

A sweep walks a list from left to right, carrying a state.  At each entry it rewrites the
entry, counts the changes it makes, and passes a state computed from the rewritten entry on.
Repeated until it changes nothing, a sweep stops as soon as repeating a single round on a
single entry stops: once an entry is stable, the state after it is, and the rest of the list
settles in turn.
-/

namespace Sweep

variable {S α : Type*} (round : S → α → α × ℕ) (next : S → α → S)

/-- One sweep over a list, with the number of changes. -/
def sweep : S → List α → List α × ℕ
  | _, [] => ([], 0)
  | s, a :: l =>
    let r := round s a
    let rest := sweep (next s r.1) l
    (r.1 :: rest.1, r.2 + rest.2)

/-- A rewriting step with a change count settles on an input when some number of repetitions
reaches a point where it counts no change. -/
def Settles {β : Type*} (f : β → β × ℕ) (b : β) : Prop :=
  ∃ n, (f ((fun x => (f x).1)^[n] b)).2 = 0

/-- A step settles on what it settles on after one more repetition. -/
theorem Settles.of_step {β : Type*} {f : β → β × ℕ} {b : β} (h : Settles f (f b).1) :
  Settles f b
  := by
  obtain ⟨n, hn⟩ := h
  use n + 1
  rwa [Function.iterate_succ_apply]

/-- A step settles on what it settles on after some repetitions. -/
theorem Settles.of_iterate
    {β : Type*} {f : β → β × ℕ} {b : β} {n : ℕ} (h : Settles f ((fun x => (f x).1)^[n] b)) :
  Settles f b
  := by
  induction n generalizing b with
  | zero => apply h
  | succ n ih =>
    rw [Function.iterate_succ_apply] at h
    apply Settles.of_step
    apply ih h

/-- A step settles when every change decreases a measure. -/
theorem Settles.of_measure
    {β : Type*} {f : β → β × ℕ} (μ : β → ℕ) (h : ∀ b, (f b).2 ≠ 0 → μ (f b).1 < μ b) (b : β) :
  Settles f b
  := by
  generalize hn : μ b = n
  induction n using Nat.strongRecOn generalizing b with
  | _ n ih =>
    by_cases h0 : (f b).2 = 0
    · use 0
      apply h0
    · apply Settles.of_step
      apply ih (μ (f b).1) _ _ rfl
      rw [← hn]
      apply h b h0

/-- A step settles when it follows, along a projection, a step that settles. -/
theorem Settles.of_map
    {β γ : Type*} {f : β → β × ℕ} {f' : γ → γ × ℕ} (g : β → γ)
    (hfst : ∀ b, g (f b).1 = (f' (g b)).1) (hsnd : ∀ b, (f b).2 = (f' (g b)).2) {b : β}
    (h : Settles f' (g b)) :
  Settles f b
  := by
  obtain ⟨n, hn⟩ := h
  use n
  have hiter : Function.Semiconj g (fun x => (f x).1)^[n] (fun x => (f' x).1)^[n] := by
    apply Function.Semiconj.iterate_right
    apply hfst
  rw [hsnd, hiter]
  apply hn

/-- Repeated sweeps keep a stable head and sweep the tail. -/
theorem iterate_sweep_cons
    (hround : ∀ s a, (round s a).2 = 0 → (round s a).1 = a) {s : S} {a : α}
    (ha : (round s a).2 = 0) (l : List α) (n : ℕ) :
  (fun x => (sweep round next s x).1)^[n] (a :: l)
    = a :: (fun x => (sweep round next (next s a) x).1)^[n] l
  := by
  induction n generalizing l with
  | zero => rfl
  | succ n ih =>
    rw [Function.iterate_succ_apply, Function.iterate_succ_apply]
    have hstep : (sweep round next s (a :: l)).1 = a :: (sweep round next (next s a) l).1 := by
      simp only [sweep, hround s a ha]
    rw [hstep, ih]

/-- Repeated sweeps repeat the round at the head, and keep the length of the tail. -/
theorem head?_iterate_sweep (s : S) (a : α) (l : List α) (n : ℕ) :
  ∃ l', l'.length = l.length ∧
    (fun x => (sweep round next s x).1)^[n] (a :: l)
      = (fun x => (round s x).1)^[n] a :: l'
  := by
  induction n generalizing a l with
  | zero => exact ⟨l, rfl, rfl⟩
  | succ n ih =>
    have hlen : ∀ (t : S) (l : List α), (sweep round next t l).1.length = l.length := by
      intro t l
      induction l generalizing t with
      | nil => rfl
      | cons b l ih => simp only [sweep, List.length_cons, ih]
    obtain ⟨l', hl, h⟩ := ih (round s a).1 (sweep round next (next s (round s a).1) l).1
    refine ⟨l', hl.trans (hlen _ _), ?_⟩
    rw [Function.iterate_succ_apply, Function.iterate_succ_apply]
    apply h

/-- Sweeps settle when rounds do: if a round that counts no change changes nothing, if it
keeps an invariant of the carried state when it counts no change, and if under the invariant
repeating a round settles, then from every state with the invariant sweeps settle. -/
theorem settles_sweep
    (hround : ∀ s a, (round s a).2 = 0 → (round s a).1 = a) (Inv : S → Prop)
    (hinv : ∀ s a, Inv s → (round s a).2 = 0 → Inv (next s a))
    (hsettles : ∀ s a, Inv s → Settles (round s) a) {s : S} (hs : Inv s) (l : List α) :
  Settles (sweep round next s) l
  := by
  generalize hk : l.length = k
  induction k generalizing s l with
  | zero =>
    rw [List.length_eq_zero_iff] at hk
    subst hk
    use 0
    rfl
  | succ k ih =>
    obtain ⟨a, l, rfl⟩ := List.exists_cons_of_length_eq_add_one hk
    obtain ⟨n, hn⟩ := hsettles s a hs
    obtain ⟨l', hl', heq⟩ := head?_iterate_sweep round next s a l n
    apply Settles.of_iterate (n := n)
    rw [heq]
    generalize hb : (fun x => (round s x).1)^[n] a = b at hn
    have hlen : l'.length = k := by simpa [hl'] using hk
    obtain ⟨j, hj⟩ := ih (hinv s b hs hn) l' hlen
    use j
    rw [iterate_sweep_cons round next hround hn]
    simp only [sweep, hn, hround s b hn, hj]

end Sweep
