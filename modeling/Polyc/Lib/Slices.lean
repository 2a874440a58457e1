import Mathlib.Tactic.Use

/-!
# Slices of a text

Slices of a text, each from the offset `off` up to the offset `stop`: slices that follow each other,
and slices between which one separator is left out.
-/

namespace Slices

variable {ι : Type*} (off stop : ι → Nat)

/-- The slices follow each other and are together what is from `a` to `b`. -/
inductive Consecutive : Nat → List ι → Nat → Prop
  | nil (a : Nat) : Consecutive a [] a
  | cons {s : ι} {ss : List ι} {b : Nat} (h : off s ≤ stop s) (hss : Consecutive (stop s) ss b) :
    Consecutive (off s) (s :: ss) b

variable {off stop}

variable (off stop) in
/-- The slices are what is from `a` to `b` but for the separators, of which there is one between a slice
and the next and none in a slice. -/
inductive Separated (sep : Nat → Prop) : Nat → List ι → Nat → Prop
  | last {f : ι} (h : off f ≤ stop f) (clean : ∀ k, off f ≤ k → k < stop f → ¬sep k) :
    Separated sep (off f) [f] (stop f)
  | cons {f : ι} {fs : List ι} {b : Nat} (h : off f ≤ stop f)
      (clean : ∀ k, off f ≤ k → k < stop f → ¬sep k) (hsep : sep (stop f))
      (hfs : Separated sep (stop f + 1) fs b) :
    Separated sep (off f) (f :: fs) b

variable {sep : Nat → Prop} {a b : Nat} {fs : List ι}

namespace Separated

theorem le (h : Separated off stop sep a fs b) :
  a ≤ b
  := by
  induction h with
  | last h => apply h
  | cons h _ _ _ ih => omega

/-- A slice lies between the ends. -/
theorem inside (h : Separated off stop sep a fs b) :
  ∀ f ∈ fs, a ≤ off f ∧ off f ≤ stop f ∧ stop f ≤ b
  := by
  induction h with
  | @last f h clean =>
    intro g hg
    rw [List.mem_singleton.mp hg]
    use Nat.le_refl _, h, Nat.le_refl _
  | @cons f fs b h clean hsep hfs ih =>
    intro g hg
    have hle := hfs.le
    rcases List.mem_cons.mp hg with rfl | hg
    · use Nat.le_refl _, h
      omega
    · obtain ⟨hlow, hself, hhigh⟩ := ih g hg
      use by omega, hself, hhigh

/-- A slice ends before the next ones begin. -/
theorem pairwise (h : Separated off stop sep a fs b) :
  fs.Pairwise fun f g => stop f < off g
  := by
  induction h with
  | last => apply List.pairwise_singleton
  | @cons f fs b h clean hsep hfs ih =>
    apply List.Pairwise.cons
    · intro g hg
      apply (hfs.inside g hg).1
    · apply ih

/-- The first slice begins where the slices do. -/
theorem exists_cons (h : Separated off stop sep a fs b) :
  ∃ f fs', fs = f :: fs' ∧ off f = a
  := by
  cases h with
  | @last f => use f, [], rfl
  | @cons f fs => use f, fs, rfl

/-- The last slice ends where the slices do. -/
theorem getLast (h : Separated off stop sep a fs b) :
  ∃ f, fs.getLast? = some f ∧ stop f = b
  := by
  induction h with
  | @last f => use f, rfl
  | @cons f fs b h clean hsep hfs ih =>
    obtain ⟨g, hg, rfl⟩ := ih
    use g
    rw [List.getLast?_cons, hg]
    use rfl

/-- There is one separator between a slice and the next. -/
theorem off_eq (h : Separated off stop sep a fs b) {f g : ι} (hfg : [f, g] <:+: fs) :
  off g = stop f + 1
  := by
  induction h with
  | last =>
    have hlen := hfg.length_le
    simp at hlen
  | @cons f' fs b h clean hsep hfs ih =>
    rcases List.infix_cons_iff.mp hfg with hpre | hin
    · obtain ⟨g', gs, rfl, hg⟩ := hfs.exists_cons
      obtain ⟨t, ht⟩ := hpre
      cases ht
      apply hg
    · apply ih hin

/-- The separators are the offsets between a slice and the next. -/
theorem sep_iff (h : Separated off stop sep a fs b) {k : Nat} (hak : a ≤ k) (hkb : k < b) :
  sep k ↔ ∃ f g, [f, g] <:+: fs ∧ stop f = k ∧ off g = k + 1
  := by
  induction h with
  | @last f h clean =>
    constructor
    · intro hk
      cases clean k hak hkb hk
    · rintro ⟨f', g, hfg, -⟩
      have hlen := hfg.length_le
      simp at hlen
  | @cons f fs b h clean hsep hfs ih =>
    obtain ⟨g, gs, rfl, hg⟩ := hfs.exists_cons
    rcases Nat.lt_trichotomy k (stop f) with hk | rfl | hk
    · constructor
      · intro hsk
        cases clean k hak hk hsk
      · rintro ⟨f', g', hfg, rfl, hg'⟩
        rcases List.infix_cons_iff.mp hfg with hpre | hin
        · obtain ⟨t, ht⟩ := hpre
          cases ht
          omega
        · have hf' : f' ∈ g :: gs := hin.subset List.mem_cons_self
          have hlow := hfs.inside f' hf'
          omega
    · constructor
      · intro _
        use f, g, ⟨[], gs, rfl⟩, rfl, hg
      · intro _
        apply hsep
    · rw [ih hk hkb]
      constructor
      · rintro ⟨f', g', hfg, hf', hg'⟩
        use f', g', List.infix_cons_iff.mpr (.inr hfg), hf', hg'
      · rintro ⟨f', g', hfg, rfl, hg'⟩
        rcases List.infix_cons_iff.mp hfg with hpre | hin
        · obtain ⟨t, ht⟩ := hpre
          cases ht
          omega
        · use f', g', hin, rfl, hg'

end Separated

end Slices
