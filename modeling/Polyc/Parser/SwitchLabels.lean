import Polyc.Parser.SwitchCorrect

/-!
# Labels of one switch

The labels of a switch are checked one after the other against those before.  The check compares the
upper bound of a label with the lower bounds of the others and the lower bounds with each other, so
what it misses is a label that begins inside an earlier range.
-/

namespace Polyc.Switch

/-- A label that is checked against those before it and appended. -/
def pushCase (caseVector : List (SwitchCase StmtTree)) (case_ : SwitchCase StmtTree) :
    Except ParseError (List (SwitchCase StmtTree)) :=
  (assertUniqueSwitchCaseLabels caseVector case_).map fun _ => caseVector ++ [case_]

/-- Labels that are checked and appended one after the other. -/
def pushCases (cases : List (SwitchCase StmtTree)) : Except ParseError (List (SwitchCase StmtTree)) :=
  cases.foldlM pushCase []

/-- An integer belongs to a range. -/
abbrev SwitchCase.Has (c : SwitchCase StmtTree) (x : Int) : Prop :=
  c.caseBegin ≤ x ∧ x ≤ c.caseEnd

/-- No integer belongs to two of the ranges. -/
def RangesDisjoint (cases : List (SwitchCase StmtTree)) : Prop :=
  cases.Pairwise fun c c' => ∀ x, ¬ (c.Has x ∧ c'.Has x)

/-- A label begins inside an earlier range, behind its first integer. -/
abbrev BeginsInside (cur case_ : SwitchCase StmtTree) : Prop :=
  cur.caseBegin < case_.caseBegin ∧ case_.caseBegin ≤ cur.caseEnd

/-- What is accepted after some labels. -/
theorem foldlM_pushCase {cases cs cs' : List (SwitchCase StmtTree)}
    (hcs : cs.Pairwise fun c c' => Apart c.bounds c'.bounds)
    (h : cases.foldlM pushCase cs = .ok cs') :
  cs' = cs ++ cases ∧ (cs ++ cases).Pairwise fun c c' => Apart c.bounds c'.bounds
  := by
  induction cases generalizing cs with
  | nil =>
    cases h
    rw [List.append_nil]
    exact ⟨rfl, hcs⟩
  | cons case_ cases ih =>
    rw [List.foldlM_cons] at h
    cases hpush : pushCase cs case_ with
    | error e =>
      rw [hpush] at h
      cases h
    | ok cs₁ =>
      rw [hpush] at h
      rw [pushCase] at hpush
      cases hcheck : assertUniqueSwitchCaseLabels cs case_ with
      | error e =>
        rw [hcheck] at hpush
        cases hpush
      | ok u =>
        rw [hcheck] at hpush
        cases hpush
        have hapart : (cs ++ [case_]).Pairwise fun c c' => Apart c.bounds c'.bounds := by
          rw [List.pairwise_append]
          refine ⟨hcs, List.pairwise_singleton _ _, ?_⟩
          intro c hc c' hc'
          rw [List.mem_singleton.mp hc']
          exact assertUnique_eq_ok.mp hcheck c hc
        have hrest := ih hapart h
        rwa [List.append_assoc, List.singleton_append] at hrest

/-- Two ranges of which the second is accepted after the first are disjoint when it does not begin
inside the first. -/
theorem disjoint_iff_of_apart {c c' : SwitchCase StmtTree} (hc' : c'.caseBegin ≤ c'.caseEnd)
    (hapart : Apart c.bounds c'.bounds) :
  (∀ x, ¬ (c.Has x ∧ c'.Has x)) ↔ ¬ BeginsInside c c'
  := by
  have hbounds : c'.caseEnd < c.caseBegin ∨ c.caseBegin < c'.caseBegin := hapart
  constructor
  · rintro hdisjoint ⟨hbegin, hend⟩
    apply hdisjoint c'.caseBegin
    exact ⟨⟨le_of_lt hbegin, hend⟩, le_refl _, hc'⟩
  · rintro hinside x ⟨⟨hcx, hxc⟩, hcx', hxc'⟩
    rcases hbounds with hbefore | hafter
    · omega
    · apply hinside
      exact ⟨hafter, by omega⟩

/-- **Theorem.** Labels that are accepted one after the other are disjoint exactly when none begins
inside the range of an earlier one. -/
theorem acceptedCases_disjoint_iff {cases cs : List (SwitchCase StmtTree)}
    (hbounds : ∀ c ∈ cases, c.caseBegin ≤ c.caseEnd) (h : pushCases cases = .ok cs) :
  RangesDisjoint cs ↔ cases.Pairwise fun c c' => ¬ BeginsInside c c'
  := by
  obtain ⟨heq, hapart⟩ := foldlM_pushCase List.Pairwise.nil h
  rw [List.nil_append] at heq hapart
  rw [heq, RangesDisjoint]
  clear h heq
  induction hapart with
  | nil => exact iff_of_true .nil .nil
  | cons hhead _ ih =>
    rw [List.forall_mem_cons] at hbounds
    rw [List.pairwise_cons, List.pairwise_cons]
    apply and_congr _ (ih hbounds.2)
    apply forall₂_congr
    intro c' hc'
    exact disjoint_iff_of_apart (hbounds.2 c' hc') (hhead c' hc')

/-- Ranges that are accepted in the order of their bounds. -/
theorem acceptedCases_disjoint_ordered :
  RangesDisjoint [⟨5, 9, []⟩, ⟨1, 3, []⟩]
  := by
  have haccepted : pushCases [⟨5, 9, []⟩, ⟨1, 3, []⟩] = .ok [⟨5, 9, []⟩, ⟨1, 3, []⟩] := rfl
  apply (acceptedCases_disjoint_iff _ haccepted).mpr
  · rw [List.pairwise_pair]
    decide
  · simp

/-- A range inside an earlier one is accepted. -/
theorem not_acceptedCases_disjoint :
  ¬ ∀ cases cs : List (SwitchCase StmtTree), (∀ c ∈ cases, c.caseBegin ≤ c.caseEnd) →
    pushCases cases = .ok cs → RangesDisjoint cs
  := by
  intro h
  have hdisjoint := h [⟨1, 5, []⟩, ⟨3, 4, []⟩] [⟨1, 5, []⟩, ⟨3, 4, []⟩] (by simp) rfl
  rw [RangesDisjoint, List.pairwise_pair] at hdisjoint
  apply hdisjoint 3
  decide

end Polyc.Switch
