import Mathlib.Tactic.TypeStar

/-!
# Refinement under a guard

A machine takes operations, may fail, and answers each operation; a specification answers
every operation.  When every operation that is guarded leads from related states to related
states with the same answer, every run whose operations are all guarded succeeds and gives
the answers of the specification.
-/

namespace Refinement

variable {S A O R : Type*}

/-- The run of a machine over some operations, with the answers. -/
def run (step : S → O → Option (S × R)) : S → List O → Option (S × List R)
  | s, [] => some (s, [])
  | s, o :: os => (step s o).bind fun r => (run step r.1 os).map fun rs => (rs.1, r.2 :: rs.2)

/-- The run of a specification. -/
def specRun (spec : A → O → A × R) : A → List O → A × List R
  | a, [] => (a, [])
  | a, o :: os =>
    ((specRun spec (spec a o).1 os).1, (spec a o).2 :: (specRun spec (spec a o).1 os).2)

/-- Every operation of a run meets the guard in the state in which it is made. -/
def Guarded (step : S → O → Option (S × R)) (guard : S → O → Prop) : S → List O → Prop
  | _, [] => True
  | s, o :: os => guard s o ∧ ∀ r, step s o = some r → Guarded step guard r.1 os

/-- Two guards. -/
theorem Guarded.and {step : S → O → Option (S × R)} {guard guard' : S → O → Prop} {s : S} {os : List O}
    (h : Guarded step guard s os) (h' : Guarded step guard' s os) :
  Guarded step (fun s o => guard s o ∧ guard' s o) s os
  := by
  induction os generalizing s with
  | nil => trivial
  | cons o os ih => exact ⟨⟨h.1, h'.1⟩, fun r hr => ih (h.2 r hr) (h'.2 r hr)⟩

/-- Whether a run is guarded can be found out by making it. -/
instance decidableGuarded
    (step : S → O → Option (S × R)) (guard : S → O → Prop) [∀ s o, Decidable (guard s o)] :
    (s : S) → (os : List O) → Decidable (Guarded step guard s os)
  | _, [] => isTrue trivial
  | s, o :: os =>
    match h : step s o with
    | none =>
      decidable_of_iff (guard s o) ⟨fun hg => ⟨hg, by simp [h]⟩, fun hg => hg.1⟩
    | some r =>
      have := decidableGuarded step guard r.1 os
      decidable_of_iff (guard s o ∧ Guarded step guard r.1 os)
        ⟨fun hg => ⟨hg.1, by simpa [h] using hg.2⟩, fun hg => ⟨hg.1, hg.2 r h⟩⟩

/-- Guarded runs are those of the specification. -/
theorem run_refines
    {step : S → O → Option (S × R)} {spec : A → O → A × R} {guard : S → O → Prop}
    (rel : S → A → Prop)
    (hstep : ∀ s a o, rel s a → guard s o →
      ∃ s', step s o = some (s', (spec a o).2) ∧ rel s' (spec a o).1)
    {s : S} {a : A} {os : List O} (hrel : rel s a) (hguard : Guarded step guard s os) :
  ∃ s', run step s os = some (s', (specRun spec a os).2) ∧ rel s' (specRun spec a os).1
  := by
  induction os generalizing s a with
  | nil => exact ⟨s, rfl, hrel⟩
  | cons o os ih =>
    obtain ⟨ho, hrest⟩ := hguard
    obtain ⟨s', hs, hrel'⟩ := hstep s a o hrel ho
    obtain ⟨s'', hrun, hrel''⟩ := ih hrel' (hrest _ hs)
    refine ⟨s'', ?_, hrel''⟩
    rw [run, hs, Option.bind_some, hrun]
    rfl

/-! ### What every step of a run does -/

/-- Every step of a run succeeds and does something. -/
def Steps (step : S → O → Option (S × R)) (does : S → O → S → R → Prop) : S → List O → Prop
  | _, [] => True
  | s, o :: os => ∃ s' r, step s o = some (s', r) ∧ does s o s' r ∧ Steps step does s' os

/-- What guarded steps do from states with an invariant, which they keep, every step of a guarded
run does. -/
theorem steps_of_invariant
    {step : S → O → Option (S × R)} {guard : S → O → Prop} {does : S → O → S → R → Prop}
    (inv : S → Prop)
    (hstep : ∀ s o, inv s → guard s o →
      ∃ s' r, step s o = some (s', r) ∧ does s o s' r ∧ inv s')
    {s : S} {os : List O} (hinv : inv s) (hguard : Guarded step guard s os) :
  Steps step does s os
  := by
  induction os generalizing s with
  | nil => trivial
  | cons o os ih =>
    obtain ⟨ho, hrest⟩ := hguard
    obtain ⟨s', r, hs, hdoes, hinv'⟩ := hstep s o hinv ho
    exact ⟨s', r, hs, hdoes, ih hinv' (hrest _ hs)⟩

/-! ### Answers that are not determined -/

/-- Every operation of a run succeeds with an answer that is right for the state of the
specification, and every state looks as it should. -/
def Follows
    (step : S → O → Option (S × R)) (spec : A → O → A) (right : A → O → R → Prop)
    (looks : S → A → Prop) : S → A → List O → Prop
  | s, a, [] => looks s a
  | s, a, o :: os => looks s a ∧ ∃ s' r, step s o = some (s', r) ∧ right a o r
      ∧ Follows step spec right looks s' (spec a o) os

/-- Every operation of a run meets a guard in the state of the specification in which it is
made. -/
def SpecGuarded (spec : A → O → A) (guard : A → O → Prop) : A → List O → Prop
  | _, [] => True
  | a, o :: os => guard a o ∧ SpecGuarded spec guard (spec a o) os

/-- Two guards. -/
theorem SpecGuarded.and
    {spec : A → O → A} {guard guard' : A → O → Prop} {a : A} {os : List O}
    (h : SpecGuarded spec guard a os) (h' : SpecGuarded spec guard' a os) :
  SpecGuarded spec (fun a o => guard a o ∧ guard' a o) a os
  := by
  induction os generalizing a with
  | nil => trivial
  | cons o os ih => exact ⟨⟨h.1, h'.1⟩, ih h.2 h'.2⟩

/-- A guard that does not look at the state. -/
theorem SpecGuarded.of_forall
    {spec : A → O → A} {guard : O → Prop} {os : List O} (h : ∀ o ∈ os, guard o) (a : A) :
  SpecGuarded spec (fun _ => guard) a os
  := by
  induction os generalizing a with
  | nil => trivial
  | cons o os ih =>
    exact ⟨h o List.mem_cons_self, ih (fun o' ho' => h o' (List.mem_cons_of_mem o ho')) _⟩

section Follows

variable {step : S → O → Option (S × R)} {spec : A → O → A} {right : A → O → R → Prop}
  {looks : S → A → Prop}

/-- Runs whose operations are guarded in the states of the machine and of the specification
follow it. -/
theorem follows_of_guards {guard : S → O → Prop} {specGuard : A → O → Prop} (rel : S → A → Prop)
    (hlooks : ∀ s a, rel s a → looks s a)
    (hstep : ∀ s a o, rel s a → guard s o → specGuard a o →
      ∃ s' r, step s o = some (s', r) ∧ right a o r ∧ rel s' (spec a o))
    {s : S} {a : A} {os : List O} (hrel : rel s a) (hguard : Guarded step guard s os)
    (hspec : SpecGuarded spec specGuard a os) :
  Follows step spec right looks s a os
  := by
  induction os generalizing s a with
  | nil => apply hlooks s a hrel
  | cons o os ih =>
    obtain ⟨ho, hrest⟩ := hguard
    obtain ⟨s', r, hs, hr, hrel'⟩ := hstep s a o hrel ho hspec.1
    exact ⟨hlooks s a hrel, s', r, hs, hr, ih hrel' (hrest _ hs) hspec.2⟩

/-- Guarded runs follow the specification. -/
theorem follows_of_rel {guard : S → O → Prop} (rel : S → A → Prop)
    (hlooks : ∀ s a, rel s a → looks s a)
    (hstep : ∀ s a o, rel s a → guard s o →
      ∃ s' r, step s o = some (s', r) ∧ right a o r ∧ rel s' (spec a o))
    {s : S} {a : A} {os : List O} (hrel : rel s a) (hguard : Guarded step guard s os) :
  Follows step spec right looks s a os
  := by
  have hspec : SpecGuarded spec (fun _ _ => True) a os := SpecGuarded.of_forall (by simp) a
  exact follows_of_guards rel hlooks (fun s a o hr hg _ => hstep s a o hr hg) hrel hguard hspec

/-- Runs whose operations the specification guards follow it. -/
theorem follows_of_specGuarded {guard : A → O → Prop} (rel : S → A → Prop)
    (hlooks : ∀ s a, rel s a → looks s a)
    (hstep : ∀ s a o, rel s a → guard a o →
      ∃ s' r, step s o = some (s', r) ∧ right a o r ∧ rel s' (spec a o))
    {s : S} {a : A} {os : List O} (hrel : rel s a) (hguard : SpecGuarded spec guard a os) :
  Follows step spec right looks s a os
  := by
  have htrivial : ∀ os : List O, ∀ s, Guarded step (fun _ _ => True) s os := by
    intro os
    induction os with
    | nil => exact fun _ => trivial
    | cons o os ih => exact fun s => ⟨trivial, fun r _ => ih r.1⟩
  exact follows_of_guards rel hlooks (fun s a o hr _ hg => hstep s a o hr hg) hrel (htrivial os s)
    hguard

end Follows

end Refinement
