import Mathlib.Data.List.Basic
import Mathlib.Logic.Relation

/-!
# Flow graphs

A flow graph has an entry point and steps between points.  Leaving a point uses variables,
and a step defines variables after these uses.  A variable is live at a point when some path
from there reaches a use of it without a definition on the way.  A variable that is not live
at the entry has all its uses dominated by its definitions.
-/

/-- A flow graph over points `P` and variables `V`. -/
structure FlowGraph (P V : Type*) where
  entry : P
  step : P → P → Prop
  use : P → V → Prop
  defines : P → P → V → Prop

namespace FlowGraph

variable {P V : Type*} (F : FlowGraph P V)

/-- A path of `n` steps. -/
inductive Path : ℕ → P → P → Prop where
  | refl (a : P) : Path 0 a a
  | tail {n : ℕ} {a b c : P} : Path n a b → F.step b c → Path (n + 1) a c

/-- A point on some path from the entry. -/
def Reachable (p : P) : Prop := Relation.ReflTransGen F.step F.entry p

/-- A path that does not define a variable. -/
def Avoids (v : V) : P → P → Prop :=
  Relation.ReflTransGen fun a b => F.step a b ∧ ¬ F.defines a b v

/-- A variable that some path from a point uses before it defines it. -/
def Live (v : V) (a : P) : Prop := ∃ b, F.Avoids v a b ∧ F.use b v

variable {F}

/-- A variable that is used at a point is live there. -/
theorem live_of_use {v : V} {a : P} (hu : F.use a v) :
  F.Live v a
  := ⟨a, .refl, hu⟩

/-- A variable that is live after a step that does not define it is live before. -/
theorem Live.step
    {v : V} {a b : P} (h : F.Live v b) (hs : F.step a b) (hd : ¬ F.defines a b v) :
  F.Live v a
  := by
  obtain ⟨c, hbc, hu⟩ := h
  exact ⟨c, .head ⟨hs, hd⟩ hbc, hu⟩

/-- A variable that is live after a path that avoids it is live before. -/
theorem Live.avoids {v : V} {a b : P} (h : F.Live v b) (hab : F.Avoids v a b) :
  F.Live v a
  := by
  obtain ⟨c, hbc, hu⟩ := h
  exact ⟨c, hab.trans hbc, hu⟩

/-- A variable is not live at a point of a set without uses that paths leave only by
defining it. -/
theorem not_live_of_closed
    {v : V} {a : P} (S : P → Prop) (ha : S a)
    (hstep : ∀ p q, S p → F.step p q → ¬ F.defines p q v → S q)
    (huse : ∀ p, S p → ¬ F.use p v) :
  ¬ F.Live v a
  := by
  rintro ⟨b, hab, hu⟩
  apply huse b _ hu
  clear hu
  induction hab with
  | refl => apply ha
  | tail _ h ih => apply hstep _ _ ih h.1 h.2

/-- A reachable point has a path of some length. -/
theorem Reachable.path {p : P} (h : F.Reachable p) :
  ∃ n, F.Path n F.entry p
  := by
  induction h with
  | refl => exact ⟨0, .refl _⟩
  | tail _ hs ih =>
    obtain ⟨n, hn⟩ := ih
    exact ⟨n + 1, hn.tail hs⟩

/-- A path from the entry reaches its end. -/
theorem Path.reachable {n : ℕ} {p : P} (h : F.Path n F.entry p) :
  F.Reachable p
  := by
  generalize ha : F.entry = a at h
  induction h with
  | refl a =>
    subst ha
    exact .refl
  | tail _ hs ih => exact (ih ha).tail hs

/-- A path either avoids a variable or has a first part that ends in a step that defines
it. -/
theorem Path.avoids_or_defines {n : ℕ} {a b : P} (h : F.Path n a b) (v : V) :
  F.Avoids v a b
    ∨ ∃ k c d, k < n ∧ F.Path k a c ∧ F.step c d ∧ F.defines c d v
  := by
  induction h with
  | refl a => exact .inl .refl
  | @tail n a b c hp hs ih =>
    obtain hav | ⟨k, d, e, hk, hpk, hde, hdef⟩ := ih
    · by_cases hdef : F.defines b c v
      · exact .inr ⟨n, b, c, Nat.lt_succ_self n, hp, hs, hdef⟩
      · exact .inl (hav.tail ⟨hs, hdef⟩)
    · exact .inr ⟨k, d, e, Nat.lt_succ_of_lt hk, hpk, hde, hdef⟩

/-- A path that avoids one variable either avoids another or has a first part that ends in
a step that defines it. -/
theorem Avoids.avoids_or_defines {x : V} {a b : P} (h : F.Avoids x a b) (t : V) :
  F.Avoids t a b
    ∨ ∃ c d, F.Avoids x a c ∧ F.step c d ∧ F.defines c d t
  := by
  induction h with
  | refl => exact .inl .refl
  | @tail b c hb hs ih =>
    obtain hav | hdef := ih
    · by_cases hdef : F.defines b c t
      · exact .inr ⟨b, c, hb, hs.1, hdef⟩
      · exact .inl (hav.tail ⟨hs.1, hdef⟩)
    · exact .inr hdef

variable (F)

/-- Every definition of `t` is dominated by definitions of `x`: no path from the entry to a
step that defines `t` avoids `x`. -/
def Dominates (x t : V) : Prop :=
  ∀ p q, F.step p q → F.defines p q t → ¬ F.Avoids x F.entry p

variable {F}

/-- A variable that every definition of `t` uses dominates `t`, when it is not live at the
entry. -/
theorem dominates_of_use
    {x t : V} (hx : ¬ F.Live x F.entry)
    (hu : ∀ p q, F.step p q → F.defines p q t → F.use p x) :
  F.Dominates x t
  := by
  intro p q hs hd hav
  apply hx
  exact ⟨p, hav, hu p q hs hd⟩

/-- Dominance is transitive. -/
theorem Dominates.trans
    {x t u : V} (hxt : F.Dominates x t) (htu : F.Dominates t u) :
  F.Dominates x u
  := by
  intro p q hs hd hav
  obtain hav' | ⟨c, d, hc, hcd, hdef⟩ := hav.avoids_or_defines t
  · apply htu p q hs hd hav'
  · apply hxt c d hcd hdef hc

/-- When all definitions of `x` arrive at one point and dominate those of `t`, and `t` is
not live at the entry, then `t` is not live after a definition of `x`. -/
theorem Dominates.not_live
    {x t : V} (hxt : F.Dominates x t) (ht : ¬ F.Live t F.entry)
    (honce : ∀ p q p' q', F.step p q → F.defines p q x → F.step p' q' → F.defines p' q' x →
      q = q')
    {p q : P} (hp : F.Reachable p) (hs : F.step p q) (hd : F.defines p q x) :
  ¬ F.Live t q
  := by
  intro hlive
  obtain ⟨n, hn⟩ := hp.path
  induction n using Nat.strongRecOn generalizing p with
  | _ n ih =>
    obtain hav | ⟨k, c, d, hk, hpk, hcd, hdef⟩ := (hn.tail hs).avoids_or_defines t
    · apply ht
      apply hlive.avoids hav
    · obtain hav | ⟨j, c', d', hj, hpj, hcd', hdef'⟩ := hpk.avoids_or_defines x
      · apply hxt c d hcd hdef hav
      · obtain rfl := honce p q c' d' hs hd hcd' hdef'
        apply ih j (by omega) hpj.reachable hcd' hdef' hpj

end FlowGraph
