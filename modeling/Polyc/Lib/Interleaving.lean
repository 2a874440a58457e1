import Mathlib.Algebra.BigOperators.Group.Finset.Piecewise
import Mathlib.Algebra.Order.BigOperators.Group.Finset
import Mathlib.Data.Fintype.Basic
import Mathlib.Logic.Relation

/-!
# Interleaved threads

Threads share a state and each is at a place of its program.  A step is one of a single thread,
which goes on to another place; any thread may be the next.  What threads hold together is a sum
over their places, and a mutex is held by the one thread that is at a place inside.
-/

namespace Interleaving

/-- The shared state and the places of the threads. -/
structure Threads (T S P : Type*) where
  shared : S
  place : T → P

variable {T S P : Type*}

section Steps

variable [DecidableEq T] (next : T → S → P → S → P → Prop)

/-- One thread goes on. -/
inductive Step : Threads T S P → Threads T S P → Prop
  | of {c : Threads T S P} {t : T} {s : S} {p : P} (h : next t c.shared (c.place t) s p) :
    Step c ⟨s, Function.update c.place t p⟩

/-- A run of `n` steps. -/
inductive Steps : Nat → Threads T S P → Threads T S P → Prop
  | refl (c : Threads T S P) : Steps 0 c c
  | tail {n : Nat} {c c' c'' : Threads T S P} (h : Steps n c c') (hstep : Step next c' c'') :
    Steps (n + 1) c c''

variable {next}

/-- What steps keep holds in every state of a run. -/
theorem invariant_of_steps
    {inv : Threads T S P → Prop} (hstep : ∀ c c', inv c → Step next c c' → inv c')
    {c c' : Threads T S P} (h : inv c) (hrun : Relation.ReflTransGen (Step next) c c') :
  inv c'
  := by
  induction hrun with
  | refl => exact h
  | tail _ hlast ih => exact hstep _ _ ih hlast

/-- A step of some threads is a step where more can be done. -/
theorem Step.mono
    {next' : T → S → P → S → P → Prop} (hmono : ∀ t s p s' p', next t s p s' p' → next' t s p s' p')
    {c c' : Threads T S P} (h : Step next c c') :
  Step next' c c'
  := by
  cases h with
  | of h => exact .of (hmono _ _ _ _ _ h)

/-- A run is not longer than a measure from which every step takes something away. -/
theorem Steps.le_measure
    {inv : Threads T S P → Prop} {measure : Threads T S P → Nat}
    (hstep : ∀ c c', inv c → Step next c c' → inv c' ∧ measure c' < measure c) {n : Nat}
    {c c' : Threads T S P} (hc : inv c) (h : Steps next n c c') :
  inv c' ∧ n + measure c' ≤ measure c
  := by
  induction h with
  | refl => exact ⟨hc, Nat.le_of_eq (Nat.zero_add _)⟩
  | tail _ hlast ih =>
    obtain ⟨hinv, hle⟩ := ih hc
    obtain ⟨hinv', hless⟩ := hstep _ _ hinv hlast
    use hinv'
    omega

end Steps

/-! ### Places after a step -/

section Update

variable [DecidableEq T] {q : P → Bool} {place : T → P} {t : T} {p : P}

/-- The thread that has gone on is at its new place. -/
theorem exists_update_self (h : q p = true) :
  ∃ u, q (Function.update place t p u) = true
  := by
  use t
  rwa [Function.update_self]

/-- A thread is still where it was, unless it is the one that has gone on. -/
theorem exists_update (h : ∃ u, q (place u) = true) :
  (∃ u, q (Function.update place t p u) = true) ∨ q (place t) = true
  := by
  obtain ⟨u, hu⟩ := h
  by_cases hut : u = t
  · right
    rwa [← hut]
  · left
    use u
    rwa [Function.update_of_ne hut]

/-- What holds of the new place and of all others holds of all places. -/
theorem forall_update
    (r : T → P → Prop) (hself : r t p) (hother : ∀ u, u ≠ t → r u (place u)) (u : T) :
  r u (Function.update place t p u)
  := by
  by_cases hut : u = t
  · rw [hut, Function.update_self]
    exact hself
  · rw [Function.update_of_ne hut]
    exact hother u hut

end Update

/-! ### Sums over the places -/

section Total

variable {M : Type*} [Fintype T] [AddCommMonoid M]

/-- What the threads have together. -/
def total (f : P → M) (place : T → P) : M := ∑ t, f (place t)

variable [DecidableEq T]

/-- The sum after one thread has gone on. -/
theorem total_update (f : P → M) (place : T → P) (t : T) (p : P) :
  total f (Function.update place t p) + f (place t) = total f place + f p
  := by
  have hold : total f place = f (place t) + ∑ u ∈ Finset.univ \ {t}, f (place u) := by
    rw [total, ← Finset.sum_update_of_mem (Finset.mem_univ t) (fun u => f (place u)),
      Function.update_eq_self]
  have hnew : total f (Function.update place t p)
      = f p + ∑ u ∈ Finset.univ \ {t}, f (place u) := by
    have hcomp : ∀ u, f (Function.update place t p u)
        = Function.update (fun u => f (place u)) t (f p) u := by
      intro u
      exact Function.apply_update (fun _ => f) place t p u
    rw [total, Finset.sum_congr rfl fun u _ => hcomp u,
      Finset.sum_update_of_mem (Finset.mem_univ t)]
  rw [hold, hnew, add_right_comm, add_comm (f p) (f (place t)), add_right_comm]

end Total

/-- A thread that has something counts. -/
theorem le_total [Fintype T] (f : P → Nat) (place : T → P) (t : T) :
  f (place t) ≤ total f place
  := Finset.single_le_sum_of_canonicallyOrdered (f := fun u => f (place u)) (Finset.mem_univ t)

/-! ### Mutexes -/

/-- A mutex is held by the one thread that is at a place inside. -/
def Held (inside : P → Bool) (owner : Option T) (place : T → P) : Prop :=
  ∀ t, inside (place t) = true ↔ owner = some t

/-- What a thread does with a mutex: nothing, or it takes one that is free, or it gives its own
back. -/
inductive Handles (inside : P → Bool) (t : T) (owner : Option T) (p : P) (owner' : Option T)
    (p' : P) : Prop
  | leave (howner : owner' = owner) (hinside : inside p' = inside p)
  | lock (hfree : owner = none) (howner : owner' = some t) (hinside : inside p' = true)
  | unlock (hinside : inside p = true) (howner : owner' = none) (hout : inside p' = false)

/-- A mutex stays with the thread that is inside. -/
theorem Held.handles
    [DecidableEq T] {inside : P → Bool} {owner owner' : Option T} {place : T → P} {t : T} {p : P}
    (h : Held inside owner place) (hstep : Handles inside t owner (place t) owner' p) :
  Held inside owner' (Function.update place t p)
  := by
  intro u
  by_cases hu : u = t
  · subst hu
    rw [Function.update_self]
    cases hstep with
    | leave howner hinside => rw [hinside, howner, h u]
    | lock _ howner hinside => simp only [hinside, howner]
    | unlock _ howner hout => simp only [hout, howner, reduceCtorEq]
  · rw [Function.update_of_ne hu, h u]
    cases hstep with
    | leave howner _ => rw [howner]
    | lock hfree howner _ =>
      rw [hfree, howner, Option.some_inj]
      simp only [reduceCtorEq, Ne.symm hu]
    | unlock hinside howner _ =>
      rw [(h t).mp hinside, howner, Option.some_inj]
      simp only [reduceCtorEq, Ne.symm hu]

/-- Two threads are not inside at once. -/
theorem Held.unique
    {inside : P → Bool} {owner : Option T} {place : T → P} (h : Held inside owner place) {t u : T}
    (ht : inside (place t) = true) (hu : inside (place u) = true) :
  t = u
  := Option.some_inj.mp (((h t).mp ht).symm.trans ((h u).mp hu))

/-- When nobody is inside, the mutex is free. -/
theorem Held.free
    {inside : P → Bool} {owner : Option T} {place : T → P} (h : Held inside owner place)
    (hout : ∀ t, inside (place t) = false) :
  owner = none
  := by
  cases howner : owner with
  | none => rfl
  | some t =>
    have hin := (h t).mpr howner
    rw [hout t] at hin
    cases hin

end Interleaving
