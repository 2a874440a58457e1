import Polyc.Parser.SwitchArms

/-!
# The arms that the parser keeps

The pass over a body succeeds exactly when its labels pass the checks of the parser and the last
label has a statement, and it leaves every arm the statements up to the first that ends an arm.
So the tree of a switch has the arms that are written exactly when nothing follows such a
statement in an arm, the bounds fit an `int`, and the default is the last arm.
-/

namespace Polyc.Switch

/-! ### Statements that an arm takes -/

/-- The statements up to the first one that ends an arm. -/
def takeArm : List StmtTree → List StmtTree
  | [] => []
  | t :: ts => t :: if parseSwitchArmTerminates t.kind then [] else takeArm ts

/-- Where statements go to no arm, an arm before does not matter. -/
theorem walk_marks (cur : Option Target) (arms : List (Arm CaseLabel StmtTree)) :
  walk cur (arms.flatMap Arm.marks) = walk none (arms.flatMap Arm.marks)
  := by
  cases arms with
  | nil => cases cur <;> rfl
  | cons arm arms =>
    obtain ⟨label, stms⟩ := arm
    cases label <;> cases cur <;> rfl

/-- Statements that go to no arm. -/
theorem walk_none_trees (ts : List StmtTree) (ms : List Mark) :
  walk none (ts.map .tree ++ ms) = walk none ms
  := by
  induction ts with
  | nil => rfl
  | cons t ts ih => exact ih

/-- The last entry of a list modified. -/
theorem modify_last {α : Type} (f : α → α) (l : List α) (a : α) :
  (l ++ [a]).modify l.length f = l ++ [f a]
  := by
  induction l with
  | nil => rfl
  | cons x l ih => rw [List.cons_append, List.length_cons, List.modify_succ_cons, ih,
      List.cons_append]

/-- Statements appended to the last case. -/
theorem appendToCase_last (cs : List (SwitchCase StmtTree)) (d : Option (List StmtTree))
    (b e : Int) (xs : List StmtTree) (t : StmtTree) :
  appendToCase cs.length t ⟨some (cs ++ [⟨b, e, xs⟩]), d⟩ =
    .ok ((), ⟨some (cs ++ [⟨b, e, xs ++ [t]⟩]), d⟩)
  := by
  have h := modify_last (fun c : SwitchCase StmtTree =>
    { c with caseAsts := c.caseAsts ++ [t] }) cs ⟨b, e, xs⟩
  rw [← h]
  rfl

/-- The statements of the arm of a case. -/
theorem walk_case_trees (cs : List (SwitchCase StmtTree)) (d : Option (List StmtTree))
    (b e : Int) (ts : List StmtTree) (arms : List (Arm CaseLabel StmtTree)) :
  ∀ xs, walk (some (.case cs.length)) (ts.map .tree ++ arms.flatMap Arm.marks)
      ⟨some (cs ++ [⟨b, e, xs⟩]), d⟩ =
    walk none (arms.flatMap Arm.marks) ⟨some (cs ++ [⟨b, e, xs ++ takeArm ts⟩]), d⟩
  := by
  induction ts with
  | nil =>
    intro xs
    rw [takeArm, List.append_nil, List.map_nil, List.nil_append, walk_marks]
  | cons t ts ih =>
    intro xs
    rw [List.map_cons, List.cons_append, walk, Target.append,
      Parse.bind_of_ok _ (appendToCase_last cs d b e xs t), takeArm]
    split
    · rw [walk_none_trees]
    · rw [ih, List.append_assoc, List.singleton_append]

/-- The statements of the arm of the default. -/
theorem walk_default_trees (cs : Option (List (SwitchCase StmtTree))) (ts : List StmtTree)
    (arms : List (Arm CaseLabel StmtTree)) :
  ∀ xs, walk (some .default) (ts.map .tree ++ arms.flatMap Arm.marks) ⟨cs, some xs⟩ =
    walk none (arms.flatMap Arm.marks) ⟨cs, some (xs ++ takeArm ts)⟩
  := by
  induction ts with
  | nil =>
    intro xs
    rw [takeArm, List.append_nil, List.map_nil, List.nil_append, walk_marks]
  | cons t ts ih =>
    intro xs
    have happ : appendToDefault t ⟨cs, some xs⟩ = .ok ((), ⟨cs, some (xs ++ [t])⟩) := rfl
    rw [List.map_cons, List.cons_append, walk, Target.append, Parse.bind_of_ok _ happ, takeArm]
    split
    · rw [walk_none_trees]
    · rw [ih, List.append_assoc, List.singleton_append]

/-! ### Labels -/

/-- The bounds of two cases do not stop the later one: the earlier one begins outside of it. -/
def Apart (cur case_ : Int × Int) : Prop := case_.2 < cur.1 ∨ cur.1 < case_.1

instance decidableApart (cur case_ : Int × Int) : Decidable (Apart cur case_) :=
  inferInstanceAs (Decidable (_ ∨ _))

/-- The bounds of a case. -/
def SwitchCase.bounds (c : SwitchCase StmtTree) : Int × Int := (c.caseBegin, c.caseEnd)

/-- The end of the last case. -/
def prevEnd (cs : List (SwitchCase StmtTree)) : Option Int := cs.getLast?.map SwitchCase.caseEnd

/-- The bounds that `parseCaseLabel` gives. -/
theorem caseBounds_eq_ok {cs : List (SwitchCase StmtTree)} {label : CaseLabel} {b : Int × Int} :
  caseBounds cs label = .ok b ↔ b = label.bounds asInt (prevEnd cs) ∧ b.1 ≤ b.2
  := by
  have hprev : (cs.getLast?.elim 0 fun prev => prev.caseEnd + 1) =
      (prevEnd cs).elim 0 (· + 1) := by
    rw [prevEnd]
    cases cs.getLast? <;> rfl
  cases label with
  | next =>
    rw [caseBounds, hprev]
    constructor
    · intro h
      cases h
      exact ⟨rfl, le_rfl⟩
    · rintro ⟨rfl, -⟩
      rfl
  | value v =>
    constructor
    · intro h
      cases h
      exact ⟨rfl, le_rfl⟩
    · rintro ⟨rfl, -⟩
      rfl
  | range lo hi =>
    rw [caseBounds]
    split
    case isTrue h =>
      constructor
      · intro h
        cases h
      · rintro ⟨rfl, hle⟩
        exact absurd hle (not_le.mpr h)
    case isFalse h =>
      constructor
      · intro h'
        cases h'
        exact ⟨rfl, not_lt.mp h⟩
      · rintro ⟨rfl, -⟩
        rfl

/-- The labels that `assertUniqueSwitchCaseLabels` lets pass. -/
theorem assertUnique_eq_ok {cs : List (SwitchCase StmtTree)} {case_ : SwitchCase StmtTree}
    {u : Unit} :
  assertUniqueSwitchCaseLabels cs case_ = .ok u ↔ ∀ c ∈ cs, Apart c.bounds case_.bounds
  := by
  have hall : (cs.all fun cur =>
      case_.caseEnd < cur.caseBegin || cur.caseBegin < case_.caseBegin) = true ↔
      ∀ c ∈ cs, Apart c.bounds case_.bounds := by
    rw [List.all_eq_true]
    apply forall₂_congr
    intro c _
    rw [Bool.or_eq_true, decide_eq_true_iff, decide_eq_true_iff]
    rfl
  rw [assertUniqueSwitchCaseLabels, ← hall]
  constructor
  · intro h
    split at h
    · assumption
    · cases h
  · intro h
    rw [if_pos h]

/-- `addCase` where a switch is being parsed. -/
theorem addCase_eq (cs : List (SwitchCase StmtTree)) (d : Option (List StmtTree))
    (label : CaseLabel) :
  addCase label ⟨some cs, d⟩ = (caseBounds cs label).bind fun b =>
    (assertUniqueSwitchCaseLabels cs ⟨b.1, b.2, []⟩).bind fun _ =>
      .ok (cs.length, ⟨some (cs ++ [⟨b.1, b.2, []⟩]), d⟩)
  := by
  rw [addCase]
  simp only [bind, StateT.bind, get, getThe, MonadStateOf.get, StateT.get, pure, Except.pure,
    Except.bind, liftM, monadLift, MonadLift.monadLift, StateT.lift]
  cases caseBounds cs label with
  | error e => rfl
  | ok b =>
    obtain ⟨b, e⟩ := b
    dsimp only
    cases assertUniqueSwitchCaseLabels cs ⟨b, e, []⟩ <;> rfl

/-- What `addCase` adds, and when. -/
theorem addCase_eq_ok {cs : List (SwitchCase StmtTree)} {d : Option (List StmtTree)}
    {label : CaseLabel} {i : Nat} {cc' : SwitchLists} {b : Int × Int}
    (hb : b = label.bounds asInt (prevEnd cs)) :
  addCase label ⟨some cs, d⟩ = .ok (i, cc') ↔
    b.1 ≤ b.2 ∧ (∀ c ∈ cs, Apart c.bounds b) ∧ i = cs.length ∧
      cc' = ⟨some (cs ++ [⟨b.1, b.2, []⟩]), d⟩
  := by
  rw [addCase_eq]
  constructor
  · intro h
    cases hcb : caseBounds cs label with
    | error e =>
      rw [hcb] at h
      cases h
    | ok b' =>
      obtain ⟨rfl, hle⟩ := caseBounds_eq_ok.mp hcb
      rw [hcb, ← hb] at h
      rw [← hb] at hle
      cases hu : assertUniqueSwitchCaseLabels cs ⟨b.1, b.2, []⟩ with
      | error e =>
        change (assertUniqueSwitchCaseLabels cs ⟨b.1, b.2, []⟩).bind _ = _ at h
        rw [hu] at h
        cases h
      | ok u =>
        change (assertUniqueSwitchCaseLabels cs ⟨b.1, b.2, []⟩).bind _ = _ at h
        rw [hu] at h
        cases h
        exact ⟨hle, assertUnique_eq_ok.mp hu, rfl, rfl⟩
  · rintro ⟨hle, hapart, rfl, rfl⟩
    have hcb := caseBounds_eq_ok.mpr ⟨hb, hle⟩
    have hu : assertUniqueSwitchCaseLabels cs ⟨b.1, b.2, []⟩ = .ok () :=
      assertUnique_eq_ok.mpr hapart
    rw [hcb]
    change (assertUniqueSwitchCaseLabels cs ⟨b.1, b.2, []⟩).bind _ = _
    rw [hu]
    rfl

/-! ### What the pass leaves -/

/-- The cases among arms. -/
def casesOf (arms : List (Arm (Int × Int) StmtTree)) : List (SwitchCase StmtTree) :=
  arms.filterMap fun arm => arm.label.map fun b => ⟨b.1, b.2, arm.stms⟩

/-- The default among arms, the first of them. -/
def defaultOf (arms : List (Arm (Int × Int) StmtTree)) : Option (List StmtTree) :=
  (arms.find? fun arm => arm.label.isNone).map Arm.stms

/-- An arm with the statements that it takes. -/
def Arm.taken {L : Type} (arm : Arm L StmtTree) : Arm L StmtTree :=
  ⟨arm.label, takeArm arm.stms⟩

/-- The labels of arms pass the checks of the parser, after cases with the bounds `cs` and
whether there is a default, and the last label has a statement. -/
structure Accepted {S : Type} (f : Int → Int) (prev : Option Int) (cs : List (Int × Int))
    (hasDefault : Bool) (arms : List (Arm CaseLabel S)) : Prop where
  /-- The last label has a statement. -/
  closed : ∀ arm ∈ arms.getLast?, arm.stms ≠ []
  /-- No range is written backwards. -/
  ordered : ∀ b ∈ caseBoundsOf (resolve f prev arms), b.1 ≤ b.2
  /-- The cases are apart from those before. -/
  apart : ∀ c ∈ cs, ∀ b ∈ caseBoundsOf (resolve f prev arms), Apart c b
  /-- The cases are apart from one another. -/
  distinct : (caseBoundsOf (resolve f prev arms)).Pairwise Apart
  /-- There is one default at most. -/
  oneDefault : (arms.filter fun arm => arm.label.isNone).length + hasDefault.toNat ≤ 1

/-- The last of the arms after one is that of all. -/
theorem closed_cons {L S : Type} (arm : Arm L S) (arms : List (Arm L S)) :
  (∀ a ∈ (arm :: arms).getLast?, a.stms ≠ []) ↔
    ¬ (arm.stms = [] ∧ arms = []) ∧ ∀ a ∈ arms.getLast?, a.stms ≠ []
  := by
  cases arms with
  | nil => simp
  | cons arm' arms => simp [List.getLast?_cons_cons]

/-- The checks on a case and on the arms after it. -/
theorem accepted_case {S : Type} {f : Int → Int} {prev : Option Int} {cs : List (Int × Int)}
    {d : Bool} {label : CaseLabel} {stms : List S} {arms : List (Arm CaseLabel S)}
    {b : Int × Int} (hb : b = label.bounds f prev) :
  Accepted f prev cs d (⟨some label, stms⟩ :: arms) ↔
    (b.1 ≤ b.2 ∧ ∀ c ∈ cs, Apart c b) ∧ ¬ (stms = [] ∧ arms = []) ∧
      Accepted f (some b.2) (cs ++ [b]) d arms
  := by
  have hbounds : caseBoundsOf (resolve f prev (⟨some label, stms⟩ :: arms)) =
      b :: caseBoundsOf (resolve f (some b.2) arms) := by
    rw [hb]
    rfl
  constructor
  · rintro ⟨hclosed, hordered, hapart, hdistinct, hone⟩
    rw [hbounds] at hordered hapart hdistinct
    rw [closed_cons] at hclosed
    rw [List.pairwise_cons] at hdistinct
    rw [List.forall_mem_cons] at hordered
    refine ⟨⟨hordered.1, fun c hc => hapart c hc b List.mem_cons_self⟩, hclosed.1, ?_⟩
    constructor
    case closed => exact hclosed.2
    case ordered => exact hordered.2
    case apart =>
      intro c hc b' hb'
      rcases List.mem_append.mp hc with hc | hc
      · exact hapart c hc b' (List.mem_cons_of_mem b hb')
      · cases List.mem_singleton.mp hc
        exact hdistinct.1 b' hb'
    case distinct => exact hdistinct.2
    case oneDefault => exact hone
  · rintro ⟨⟨hle, hcs⟩, hne, hclosed, hordered, hapart, hdistinct, hone⟩
    constructor
    case closed => exact (closed_cons _ _).mpr ⟨hne, hclosed⟩
    case ordered =>
      rw [hbounds, List.forall_mem_cons]
      exact ⟨hle, hordered⟩
    case apart =>
      intro c hc
      rw [hbounds, List.forall_mem_cons]
      exact ⟨hcs c hc, hapart c (List.mem_append_left _ hc)⟩
    case distinct =>
      rw [hbounds, List.pairwise_cons]
      exact ⟨hapart b (List.mem_append_right _ (List.mem_singleton_self b)), hdistinct⟩
    case oneDefault => exact hone

/-- The checks on a default and on the arms after it. -/
theorem accepted_default {S : Type} {f : Int → Int} {prev : Option Int} {cs : List (Int × Int)}
    {d : Bool} {stms : List S} {arms : List (Arm CaseLabel S)} :
  Accepted f prev cs d (⟨none, stms⟩ :: arms) ↔
    d = false ∧ ¬ (stms = [] ∧ arms = []) ∧ Accepted f prev cs true arms
  := by
  have hfilter : (⟨none, stms⟩ :: arms).filter (fun arm => arm.label.isNone) =
      ⟨none, stms⟩ :: arms.filter fun arm => arm.label.isNone := rfl
  constructor
  · rintro ⟨hclosed, hordered, hapart, hdistinct, hone⟩
    rw [closed_cons] at hclosed
    rw [hfilter, List.length_cons] at hone
    refine ⟨?_, hclosed.1, hclosed.2, hordered, hapart, hdistinct, ?_⟩
    · cases d with
      | false => rfl
      | true =>
        rw [Bool.toNat_true] at hone
        omega
    · rw [Bool.toNat_true]
      omega
  · rintro ⟨rfl, hne, hclosed, hordered, hapart, hdistinct, hone⟩
    refine ⟨(closed_cons _ _).mpr ⟨hne, hclosed⟩, hordered, hapart, hdistinct, ?_⟩
    rw [hfilter, List.length_cons, Bool.toNat_false]
    exact hone

/-- What follows a label is empty when there is no statement and no arm. -/
theorem isEmpty_marks (ts : List StmtTree) (arms : List (Arm CaseLabel StmtTree)) :
  (ts.map Mark.tree ++ arms.flatMap Arm.marks).isEmpty = true ↔ ts = [] ∧ arms = []
  := by
  rw [List.isEmpty_iff, List.append_eq_nil_iff, List.map_eq_nil_iff]
  apply and_congr_right
  intro _
  cases arms with
  | nil => simp
  | cons arm arms => simp [Arm.marks]

/-- A run after a label that something follows. -/
theorem ite_throw_eq_ok {α : Type} {p : Bool} {x : Parse α} {cc : SwitchLists}
    {e : ParseError} {r : α × SwitchLists} :
  (if p then throw e else x : Parse α) cc = .ok r ↔ p = false ∧ x cc = .ok r
  := by
  cases p with
  | false => exact ⟨fun h => ⟨rfl, h⟩, fun h => h.2⟩
  | true =>
    constructor
    · intro h
      cases h
    · rintro ⟨h, -⟩
      cases h

/-- The pass at the arm of a case. -/
theorem walk_case (label : CaseLabel) (stms : List StmtTree)
    (arms : List (Arm CaseLabel StmtTree)) :
  walk none ((⟨some label, stms⟩ :: arms).flatMap Arm.marks) =
    addCase label >>= fun i =>
      if (stms.map Mark.tree ++ arms.flatMap Arm.marks).isEmpty then throw .notAStatement
      else walk (some (.case i)) (stms.map Mark.tree ++ arms.flatMap Arm.marks)
  := by
  rw [List.flatMap_cons]
  rfl

/-- The pass at the arm of the default. -/
theorem walk_default (stms : List StmtTree) (arms : List (Arm CaseLabel StmtTree)) :
  walk none ((⟨none, stms⟩ :: arms).flatMap Arm.marks) =
    addDefault >>= fun _ =>
      if (stms.map Mark.tree ++ arms.flatMap Arm.marks).isEmpty then throw .notAStatement
      else walk (some .default) (stms.map Mark.tree ++ arms.flatMap Arm.marks)
  := by
  rw [List.flatMap_cons]
  rfl

/-- The pass succeeds when the labels pass the checks, and leaves the arms with the statements
that they take. -/
theorem walk_eq_ok (arms : List (Arm CaseLabel StmtTree)) :
  ∀ cs d cc', walk none (arms.flatMap Arm.marks) ⟨some cs, d⟩ = .ok ((), cc') ↔
    Accepted asInt (prevEnd cs) (cs.map SwitchCase.bounds) d.isSome arms ∧
      cc' = ⟨some (cs ++ casesOf (resolve asInt (prevEnd cs) (arms.map Arm.taken))),
        d.or (defaultOf (resolve asInt (prevEnd cs) (arms.map Arm.taken)))⟩
  := by
  induction arms with
  | nil =>
    intro cs d cc'
    have haccepted : Accepted asInt (prevEnd cs) (cs.map SwitchCase.bounds) d.isSome
        ([] : List (Arm CaseLabel StmtTree)) := by
      constructor
      case closed => exact fun _ h => nomatch h
      case ordered => exact fun _ h => nomatch h
      case apart => exact fun _ _ _ h => nomatch h
      case distinct => exact List.Pairwise.nil
      case oneDefault => cases d <;> simp
    have hend : (⟨some (cs ++ casesOf (resolve asInt (prevEnd cs) [])),
        d.or (defaultOf (resolve asInt (prevEnd cs) []))⟩ : SwitchLists) = ⟨some cs, d⟩ := by
      change (⟨some (cs ++ []), d.or none⟩ : SwitchLists) = _
      rw [List.append_nil, Option.or_none]
    rw [List.map_nil, hend]
    constructor
    · intro h
      cases h
      exact ⟨haccepted, rfl⟩
    · rintro ⟨-, rfl⟩
      rfl
  | cons arm arms ih =>
    obtain ⟨label, stms⟩ := arm
    intro cs d cc'
    cases label with
    | some label =>
      obtain ⟨b, hb⟩ : ∃ b, b = label.bounds asInt (prevEnd cs) := ⟨_, rfl⟩
      have hprev : ∀ xs, prevEnd (cs ++ [⟨b.1, b.2, xs⟩]) = some b.2 := by
        intro xs
        rw [prevEnd, List.getLast?_concat]
        rfl
      have hcs : ∀ xs, List.map SwitchCase.bounds (cs ++ [⟨b.1, b.2, xs⟩]) =
          cs.map SwitchCase.bounds ++ [b] := by
        intro xs
        rw [List.map_append]
        rfl
      have hresolve : resolve asInt (prevEnd cs)
          ((⟨some label, stms⟩ :: arms).map Arm.taken) =
            ⟨some b, takeArm stms⟩ :: resolve asInt (some b.2) (arms.map Arm.taken) := by
        rw [hb]
        rfl
      have hend : casesOf (⟨some b, takeArm stms⟩ :: resolve asInt (some b.2)
          (arms.map Arm.taken)) = ⟨b.1, b.2, takeArm stms⟩ ::
            casesOf (resolve asInt (some b.2) (arms.map Arm.taken)) := rfl
      have hdefault : defaultOf (⟨some b, takeArm stms⟩ :: resolve asInt (some b.2)
          (arms.map Arm.taken)) = defaultOf (resolve asInt (some b.2) (arms.map Arm.taken)) :=
        rfl
      have ih := ih (cs ++ [⟨b.1, b.2, takeArm stms⟩]) d cc'
      rw [hprev, hcs, List.append_assoc, List.singleton_append] at ih
      rw [accepted_case hb, hresolve, hend, hdefault, walk_case, Parse.bind_eq_ok,
        List.forall_mem_map]
      constructor
      · rintro ⟨i, cc₁, hadd, hrun⟩
        obtain ⟨hle, hapart, rfl, rfl⟩ := (addCase_eq_ok hb).mp hadd
        obtain ⟨hne, hrun⟩ := ite_throw_eq_ok.mp hrun
        rw [walk_case_trees, List.nil_append] at hrun
        obtain ⟨haccepted, rfl⟩ := ih.mp hrun
        rw [← Bool.not_eq_true, isEmpty_marks] at hne
        exact ⟨⟨⟨hle, hapart⟩, hne, haccepted⟩, rfl⟩
      · rintro ⟨⟨⟨hle, hapart⟩, hne, haccepted⟩, rfl⟩
        refine ⟨_, _, (addCase_eq_ok hb).mpr ⟨hle, hapart, rfl, rfl⟩, ?_⟩
        rw [ite_throw_eq_ok, ← Bool.not_eq_true, isEmpty_marks, walk_case_trees,
          List.nil_append]
        exact ⟨hne, ih.mpr ⟨haccepted, rfl⟩⟩
    | none =>
      have hresolve : resolve asInt (prevEnd cs)
          ((⟨none, stms⟩ :: arms).map Arm.taken) =
            ⟨none, takeArm stms⟩ :: resolve asInt (prevEnd cs) (arms.map Arm.taken) := rfl
      have hend : casesOf (⟨none, takeArm stms⟩ :: resolve asInt (prevEnd cs)
          (arms.map Arm.taken)) = casesOf (resolve asInt (prevEnd cs) (arms.map Arm.taken)) :=
        rfl
      have hdefault : defaultOf (⟨none, takeArm stms⟩ :: resolve asInt (prevEnd cs)
          (arms.map Arm.taken)) = some (takeArm stms) := rfl
      have ih := ih cs (some (takeArm stms)) cc'
      rw [Option.some_or] at ih
      rw [accepted_default, hresolve, hend, hdefault, walk_default, Parse.bind_eq_ok]
      constructor
      · rintro ⟨u, cc₁, hadd, hrun⟩
        rw [addDefault_eq] at hadd
        cases d with
        | some xs => cases hadd
        | none =>
          cases hadd
          obtain ⟨hne, hrun⟩ := ite_throw_eq_ok.mp hrun
          rw [walk_default_trees, List.nil_append] at hrun
          obtain ⟨haccepted, rfl⟩ := ih.mp hrun
          rw [← Bool.not_eq_true, isEmpty_marks] at hne
          exact ⟨⟨rfl, hne, haccepted⟩, rfl⟩
      · rintro ⟨⟨hd, hne, haccepted⟩, rfl⟩
        obtain rfl := Option.not_isSome_iff_eq_none.mp (Bool.not_eq_true _ ▸ hd)
        refine ⟨(), ⟨some cs, some []⟩, rfl, ?_⟩
        rw [ite_throw_eq_ok, ← Bool.not_eq_true, isEmpty_marks, walk_default_trees,
          List.nil_append]
        exact ⟨hne, ih.mpr ⟨haccepted, rfl⟩⟩

/-! ### The order of the arms -/

/-- All arms but the last have a case for their label. -/
def DefaultLast {L S : Type} (arms : List (Arm L S)) : Prop :=
  ∀ arm ∈ arms.dropLast, arm.label.isSome = true

/-- Where statements go last, a default does. -/
theorem defaultLast_cons {L S : Type} (arm : Arm L S) (arms : List (Arm L S)) :
  DefaultLast (arm :: arms) ↔ (arms ≠ [] → arm.label.isSome = true) ∧ DefaultLast arms
  := by
  cases arms with
  | nil => simp [DefaultLast]
  | cons arm' arms => simp [DefaultLast, List.dropLast_cons_of_ne_nil]

/-- Whether the default is last depends on the labels alone. -/
theorem defaultLast_congr {L L' S S' : Type} {arms : List (Arm L S)} {arms' : List (Arm L' S')}
    (h : List.Forall₂ (fun a a' => a.label.isSome = a'.label.isSome) arms arms') :
  DefaultLast arms ↔ DefaultLast arms'
  := by
  induction h with
  | nil => exact ⟨fun _ _ h => (nomatch h), fun _ _ h => (nomatch h)⟩
  | @cons a a' arms arms' ha htail ih =>
    have hne : arms ≠ [] ↔ arms' ≠ [] := by
      rw [← List.length_pos_iff, ← List.length_pos_iff, htail.length_eq]
    rw [defaultLast_cons, defaultLast_cons, ih, ha, hne]

/-- The arms in the order in which they are laid out. -/
def laidOut (arms : List (Arm (Int × Int) StmtTree)) : List (Arm (Int × Int) StmtTree) :=
  (StmtTree.switch 0 (casesOf arms) (defaultOf arms)).layout

/-- Cases are laid out first. -/
theorem laidOut_case (b : Int × Int) (stms : List StmtTree)
    (arms : List (Arm (Int × Int) StmtTree)) :
  laidOut (⟨some b, stms⟩ :: arms) = ⟨some b, stms⟩ :: laidOut arms
  := rfl

/-- The default is laid out last. -/
theorem defaultLast_laidOut (arms : List (Arm (Int × Int) StmtTree)) :
  DefaultLast (laidOut arms)
  := by
  have hcases : ∀ cases : List (SwitchCase StmtTree), ∀ d : Option (List StmtTree),
      DefaultLast (StmtTree.switch 0 cases d).layout := by
    intro cases d
    induction cases with
    | nil => cases d <;> exact fun _ h => (nomatch h)
    | cons c cases ih => exact (defaultLast_cons _ _).mpr ⟨fun _ => rfl, ih⟩
  apply hcases

/-- Arms whose default is last are laid out in their order. -/
theorem laidOut_eq_self {arms : List (Arm (Int × Int) StmtTree)} (h : DefaultLast arms) :
  laidOut arms = arms
  := by
  induction arms with
  | nil => rfl
  | cons arm arms ih =>
    obtain ⟨harm, harms⟩ := (defaultLast_cons arm arms).mp h
    obtain ⟨label, stms⟩ := arm
    cases label with
    | some b => rw [laidOut_case, ih harms]
    | none =>
      have hnil : arms = [] := by
        by_contra hne
        cases harm hne
      rw [hnil]
      rfl

/-! ### Bounds and statements that stay -/

/-- A value of an `int`. -/
def FitsInt (v : Int) : Prop := -2 ^ 31 ≤ v ∧ v < 2 ^ 31

/-- The values that an `int` holds. -/
theorem asInt_eq_self_iff (v : Int) : asInt v = v ↔ FitsInt v
  := by
  unfold asInt FitsInt
  constructor
  · intro h
    have hle := Int.le_bmod (x := v) (m := 2 ^ 32) (by decide)
    have hlt := Int.bmod_lt (x := v) (m := 2 ^ 32) (by decide)
    omega
  · rintro ⟨hle, hlt⟩
    apply Int.bmod_eq_of_le
    · omega
    · omega

/-- Resolved arms have the labels that the arms have. -/
theorem label_resolve {S : Type} (f : Int → Int) (arms : List (Arm CaseLabel S)) :
  ∀ prev, List.Forall₂ (fun a a' => a.label.isSome = a'.label.isSome) arms
    (resolve f prev arms)
  := by
  induction arms with
  | nil => exact fun _ => .nil
  | cons arm arms ih =>
    obtain ⟨label, stms⟩ := arm
    cases label with
    | none => exact fun prev => .cons rfl (ih prev)
    | some label => exact fun prev => .cons rfl (ih _)

/-- The bounds depend on the labels alone. -/
theorem caseBoundsOf_congr {S S' : Type} (f : Int → Int) {arms : List (Arm CaseLabel S)}
    {arms' : List (Arm CaseLabel S')} (h : List.Forall₂ (fun a a' => a.label = a'.label) arms arms') :
  ∀ prev, caseBoundsOf (resolve f prev arms) = caseBoundsOf (resolve f prev arms')
  := by
  induction h with
  | nil => exact fun _ => rfl
  | @cons a a' arms arms' ha _ ih =>
    obtain ⟨label, stms⟩ := a
    obtain ⟨label', stms'⟩ := a'
    cases ha
    intro prev
    cases label with
    | none => exact ih prev
    | some label => exact congrArg _ (ih _)

/-- The bounds of a case stay when the parser stores them unchanged. -/
theorem bounds_eq_iff (label : CaseLabel) (prev : Option Int) :
  label.bounds id prev = label.bounds asInt prev ↔
    FitsInt (label.bounds id prev).1 ∧ FitsInt (label.bounds id prev).2
  := by
  rw [Prod.ext_iff, ← asInt_eq_self_iff, ← asInt_eq_self_iff]
  cases label <;> exact and_congr eq_comm eq_comm

/-- The arms that the parser leaves are those that are written when all bounds fit and no
statement is left out. -/
theorem resolve_eq_iff (arms : List (Arm CaseLabel StmtTree)) :
  ∀ prev, resolve id prev arms = resolve asInt prev (arms.map Arm.taken) ↔
    (∀ arm ∈ arms, takeArm arm.stms = arm.stms) ∧
      ∀ b ∈ caseBoundsOf (resolve id prev arms), FitsInt b.1 ∧ FitsInt b.2
  := by
  induction arms with
  | nil => exact fun _ => ⟨fun _ => ⟨fun _ h => (nomatch h), fun _ h => (nomatch h)⟩, fun _ => rfl⟩
  | cons arm arms ih =>
    obtain ⟨label, stms⟩ := arm
    intro prev
    cases label with
    | none =>
      have hid : resolve id prev (⟨none, stms⟩ :: arms) = ⟨none, stms⟩ :: resolve id prev arms :=
        rfl
      have hasInt : resolve asInt prev ((⟨none, stms⟩ :: arms).map Arm.taken) =
          ⟨none, takeArm stms⟩ :: resolve asInt prev (arms.map Arm.taken) := rfl
      have hbounds : caseBoundsOf (⟨none, stms⟩ :: resolve id prev arms) =
          caseBoundsOf (resolve id prev arms) := rfl
      rw [hid, hasInt, hbounds, List.cons.injEq, ih, Arm.mk.injEq, List.forall_mem_cons]
      constructor
      · rintro ⟨⟨-, hstms⟩, harms, hfits⟩
        exact ⟨⟨hstms.symm, harms⟩, hfits⟩
      · rintro ⟨⟨hstms, harms⟩, hfits⟩
        exact ⟨⟨rfl, hstms.symm⟩, harms, hfits⟩
    | some label =>
      obtain ⟨b, hb⟩ : ∃ b, b = label.bounds id prev := ⟨_, rfl⟩
      obtain ⟨b', hb'⟩ : ∃ b', b' = label.bounds asInt prev := ⟨_, rfl⟩
      have hid : resolve id prev (⟨some label, stms⟩ :: arms) =
          ⟨some b, stms⟩ :: resolve id (some b.2) arms := by
        rw [hb]
        rfl
      have hasInt : resolve asInt prev ((⟨some label, stms⟩ :: arms).map Arm.taken) =
          ⟨some b', takeArm stms⟩ :: resolve asInt (some b'.2) (arms.map Arm.taken) := by
        rw [hb']
        rfl
      have hbounds : caseBoundsOf (⟨some b, stms⟩ :: resolve id (some b.2) arms) =
          b :: caseBoundsOf (resolve id (some b.2) arms) := rfl
      have hfit := bounds_eq_iff label prev
      rw [← hb, ← hb'] at hfit
      rw [hid, hasInt, hbounds, List.cons.injEq, Arm.mk.injEq, Option.some.injEq,
        List.forall_mem_cons, List.forall_mem_cons]
      constructor
      · rintro ⟨⟨rfl, hstms⟩, harms⟩
        obtain ⟨harms, hfits⟩ := (ih (some b.2)).mp harms
        exact ⟨⟨hstms.symm, harms⟩, hfit.mp rfl, hfits⟩
      · rintro ⟨⟨hstms, harms⟩, hb₀, hfits⟩
        obtain rfl := hfit.mpr hb₀
        exact ⟨⟨rfl, hstms.symm⟩, (ih (some b.2)).mpr ⟨harms, hfits⟩⟩

/-- No statement is left out of an arm when only its last statement may end it. -/
theorem takeArm_eq_self_iff {ss : List Stmt} {ts : List StmtTree}
    (h : List.Forall₂ (fun s t => s.tree = some t) ss ts) :
  takeArm ts = ts ↔ ∀ s ∈ ss.dropLast, s.endsArm = false
  := by
  induction h with
  | nil => exact ⟨fun _ _ h => (nomatch h), fun _ => rfl⟩
  | @cons s t ss ts hst htail ih =>
    have hends := (Stmt.kind_of_tree hst).2
    rw [takeArm, hends]
    cases htail with
    | nil =>
      have hite : (if s.endsArm = true then [] else takeArm []) = [] := by
        split <;> rfl
      rw [hite]
      exact ⟨fun _ _ h => (nomatch h), fun _ => rfl⟩
    | @cons s' t' ss ts hst' htail =>
      rw [List.dropLast_cons_of_ne_nil (List.cons_ne_nil s' ss), List.forall_mem_cons, ← ih,
        List.cons.injEq]
      cases hs : s.endsArm with
      | true => simp
      | false => simp

/-! ### The switches whose arms are kept -/

/-- What the parser needs of the body of a switch. -/
structure Kept (body : List (Arm CaseLabel Stmt)) : Prop where
  /-- Every statement has a tree, and no label of the switch in it. -/
  trees : ∀ arm ∈ body, ∀ s ∈ arm.stms, s.tree.isSome = true
  /-- Only the last statement of an arm ends it. -/
  stops : ∀ arm ∈ body, ∀ s ∈ arm.stms.dropLast, s.endsArm = false
  /-- The bounds fit an `int`. -/
  fits : ∀ b ∈ caseBoundsOf (resolve id none body), FitsInt b.1 ∧ FitsInt b.2
  /-- The default is the last arm. -/
  defaultLast : DefaultLast body
  /-- The labels pass the checks of the parser, and the last one has a statement. -/
  accepted : Accepted id none [] false body

/-- The arms with the trees of their statements have the same labels. -/
theorem label_of_trees {body : List (Arm CaseLabel Stmt)} {arms : List (Arm CaseLabel StmtTree)}
    (h : body.mapM Arm.trees = some arms) :
  List.Forall₂ (fun a a' => a.label = a'.label ∧ (a.stms = [] ↔ a'.stms = []) ∧
    (takeArm a'.stms = a'.stms ↔ ∀ s ∈ a.stms.dropLast, s.endsArm = false)) body arms
  := by
  apply (mapM_eq_some_iff.mp h).imp
  intro arm arm' harm
  obtain ⟨ts, hts, rfl⟩ := Option.map_eq_some_iff.mp harm
  have hall := mapM_eq_some_iff.mp hts
  refine ⟨rfl, ?_, takeArm_eq_self_iff hall⟩
  rw [← List.length_eq_zero_iff, ← List.length_eq_zero_iff, hall.length_eq]

/-- Facts on related arms carry over. -/
theorem forall_mem_congr {α β : Type} {P : α → Prop} {Q : β → Prop} {as : List α} {bs : List β}
    (h : List.Forall₂ (fun a b => P a ↔ Q b) as bs) :
  (∀ a ∈ as, P a) ↔ ∀ b ∈ bs, Q b
  := by
  induction h with
  | nil => exact ⟨fun _ _ h => (nomatch h), fun _ _ h => (nomatch h)⟩
  | cons hab _ ih => rw [List.forall_mem_cons, List.forall_mem_cons, hab, ih]

/-- The checks depend on the bounds, on which labels are cases, and on whether the last arm has a
statement. -/
theorem accepted_congr {S S' : Type} {f g : Int → Int} {arms : List (Arm CaseLabel S)}
    {arms' : List (Arm CaseLabel S')}
    (h : List.Forall₂ (fun a a' => a.label = a'.label ∧ (a.stms = [] ↔ a'.stms = [])) arms arms')
    (hbounds : caseBoundsOf (resolve f none arms) = caseBoundsOf (resolve g none arms')) :
  Accepted f none [] false arms → Accepted g none [] false arms'
  := by
  have hlast : ∀ {l : List (Arm CaseLabel S)} {l' : List (Arm CaseLabel S')},
      List.Forall₂ (fun a a' => a.label = a'.label ∧ (a.stms = [] ↔ a'.stms = [])) l l' →
      (∀ a ∈ l.getLast?, a.stms ≠ []) → ∀ a ∈ l'.getLast?, a.stms ≠ [] := by
    intro l l' hl hclosed
    induction hl with
    | nil => exact fun _ h => nomatch h
    | @cons a a' l l' ha htail ih =>
      rw [closed_cons] at hclosed ⊢
      refine ⟨?_, ih hclosed.2⟩
      rintro ⟨hstms, rfl⟩
      exact hclosed.1 ⟨ha.2.mpr hstms, List.forall₂_nil_right_iff.mp htail⟩
  have hfilter : ∀ {l : List (Arm CaseLabel S)} {l' : List (Arm CaseLabel S')},
      List.Forall₂ (fun a a' => a.label = a'.label ∧ (a.stms = [] ↔ a'.stms = [])) l l' →
      (l.filter fun a => a.label.isNone).length = (l'.filter fun a => a.label.isNone).length := by
    intro l l' hl
    induction hl with
    | nil => rfl
    | @cons a a' l l' ha htail ih =>
      rw [List.filter_cons, List.filter_cons, ha.1]
      split
      · rw [List.length_cons, List.length_cons, ih]
      · exact ih
  rintro ⟨hclosed, hordered, hapart, hdistinct, hone⟩
  rw [hbounds] at hordered hdistinct
  rw [hfilter h] at hone
  exact ⟨hlast h hclosed, hordered, fun _ hc => (nomatch hc), hdistinct, hone⟩

/-- What the parser makes of a body whose statements have trees. -/
theorem parseSwitchStatement_eq_ok {body : List (Arm CaseLabel Stmt)}
    {arms : List (Arm CaseLabel StmtTree)} (h : body.mapM Arm.trees = some arms) (cond : Nat)
    (cc : SwitchLists) (tree : StmtTree) :
  parseSwitchStatement cond (Stmt.items (body.flatMap Arm.written)) cc = .ok (tree, cc) ↔
    Accepted asInt none [] false arms ∧
      tree = .switch cond (casesOf (resolve asInt none (arms.map Arm.taken)))
        (defaultOf (resolve asInt none (arms.map Arm.taken)))
  := by
  obtain ⟨hdrain, -⟩ := drain_eq_walk (arms.flatMap Arm.marks) (plain_marks (plain_of_trees h))
  have hwalk : ∀ cc', walk none (arms.flatMap Arm.marks) ⟨some [], none⟩ = .ok ((), cc') ↔ _ :=
    walk_eq_ok arms [] none
  rw [parseSwitchStatement_eq, items_of_trees h, hdrain _ _ (List.length_map _).ge]
  constructor
  · intro hrun
    cases hw : walk none (arms.flatMap Arm.marks) ⟨some [], none⟩ with
    | error e =>
      rw [hw] at hrun
      cases hrun
    | ok r =>
      obtain ⟨haccepted, hcc⟩ := (hwalk r.2).mp hw
      rw [hw, Except.map, hcc] at hrun
      cases hrun
      exact ⟨haccepted, rfl⟩
  · rintro ⟨haccepted, rfl⟩
    rw [(hwalk _).mpr ⟨haccepted, rfl⟩]
    rfl

/-- The arms of a body are written with trees when its statements have them. -/
theorem exists_trees {body : List (Arm CaseLabel Stmt)}
    (h : ∀ arm ∈ body, ∀ s ∈ arm.stms, s.tree.isSome = true) :
  ∃ arms, body.mapM Arm.trees = some arms
  := by
  have hmapM : ∀ {α β : Type} {f : α → Option β} {l : List α}, (∀ a ∈ l, (f a).isSome = true) →
      ∃ l', l.mapM f = some l' := by
    intro α β f l hl
    induction l with
    | nil => exact ⟨[], rfl⟩
    | cons a l ih =>
      rw [List.forall_mem_cons] at hl
      obtain ⟨b, hb⟩ := Option.isSome_iff_exists.mp hl.1
      obtain ⟨l', hl'⟩ := ih hl.2
      use b :: l'
      rw [List.mapM_cons, hb, hl']
      rfl
  apply hmapM
  intro arm harm
  obtain ⟨ts, hts⟩ := hmapM (h arm harm)
  rw [Arm.trees, hts]
  rfl

/-- Statements whose trees are listed have trees. -/
theorem isSome_of_trees {body : List (Arm CaseLabel Stmt)} {arms : List (Arm CaseLabel StmtTree)}
    (h : body.mapM Arm.trees = some arms) :
  ∀ arm ∈ body, ∀ s ∈ arm.stms, s.tree.isSome = true
  := by
  have hall : ∀ {α β : Type} {f : α → Option β} {l : List α} {l' : List β},
      l.mapM f = some l' → ∀ a ∈ l, (f a).isSome = true := by
    intro α β f l l' hl a ha
    obtain ⟨b, -, hb⟩ := exists_of_mem_right (mapM_eq_some_iff.mp hl).flip ha
    exact Option.isSome_iff_exists.mpr ⟨b, hb⟩
  intro arm harm
  have harm := hall h arm harm
  rw [Arm.trees, Option.isSome_map] at harm
  obtain ⟨ts, hts⟩ := Option.isSome_iff_exists.mp harm
  exact hall hts

/-- The parser gives a switch the arms that are written exactly when its body has what the parser
needs. -/
theorem keepsArms_iff (cond : Nat) (body : List (Arm CaseLabel Stmt)) (cc : SwitchLists) :
  KeepsArms cond body cc ↔ Kept body
  := by
  have hcore : ∀ arms, body.mapM Arm.trees = some arms →
      ((Accepted asInt none [] false arms ∧ resolve id none arms =
        laidOut (resolve asInt none (arms.map Arm.taken))) ↔
      (∀ arm ∈ body, ∀ s ∈ arm.stms.dropLast, s.endsArm = false) ∧
        (∀ b ∈ caseBoundsOf (resolve id none body), FitsInt b.1 ∧ FitsInt b.2) ∧
        DefaultLast body ∧ Accepted id none [] false body) := by
    intro arms harms
    have hrel := label_of_trees harms
    have hlabel : List.Forall₂ (fun a a' => a.label = a'.label) body arms :=
      hrel.imp fun _ _ h => h.1
    have hshape : List.Forall₂ (fun a a' => a.label = a'.label ∧ (a.stms = [] ↔ a'.stms = []))
        body arms := hrel.imp fun _ _ h => ⟨h.1, h.2.1⟩
    have hlast : DefaultLast body ↔ DefaultLast arms :=
      defaultLast_congr (hlabel.imp fun _ _ h => congrArg Option.isSome h)
    have htaken : List.Forall₂ (fun a a' : Arm CaseLabel StmtTree => a.label = a'.label) arms
        (arms.map Arm.taken) := by
      rw [List.forall₂_map_right_iff]
      exact List.forall₂_same.mpr fun _ _ => rfl
    have hstops := forall_mem_congr (hrel.imp fun _ _ h => h.2.2.symm)
    have hbounds := caseBoundsOf_congr id hlabel none
    rw [hstops, hbounds, hlast]
    constructor
    · rintro ⟨haccepted, heq⟩
      have hdefault : DefaultLast arms := by
        rw [defaultLast_congr (label_resolve id arms none), heq]
        apply defaultLast_laidOut
      have hlaid : laidOut (resolve asInt none (arms.map Arm.taken)) =
          resolve asInt none (arms.map Arm.taken) := by
        apply laidOut_eq_self
        rw [← defaultLast_congr (label_resolve asInt (arms.map Arm.taken) none),
          ← defaultLast_congr (htaken.imp fun _ _ h => congrArg Option.isSome h)]
        exact hdefault
      rw [hlaid] at heq
      obtain ⟨hstms, hfits⟩ := (resolve_eq_iff arms none).mp heq
      refine ⟨hstms, hfits, hdefault, accepted_congr (hshape.flip.imp fun _ _ h =>
        ⟨h.1.symm, h.2.symm⟩) ?_ haccepted⟩
      rw [caseBoundsOf_congr asInt htaken none, ← heq, hbounds]
    · rintro ⟨hstms, hfits, hdefault, haccepted⟩
      have heq := (resolve_eq_iff arms none).mpr ⟨hstms, hfits⟩
      constructor
      · apply accepted_congr hshape _ haccepted
        rw [hbounds, heq, ← caseBoundsOf_congr asInt htaken none]
      · rw [← heq, laidOut_eq_self]
        rw [← defaultLast_congr (label_resolve id arms none)]
        exact hdefault
  constructor
  · rintro ⟨tree, hrun, hwritten⟩
    obtain ⟨arms, harms, heq⟩ := Option.map_eq_some_iff.mp hwritten
    obtain ⟨haccepted, rfl⟩ := (parseSwitchStatement_eq_ok harms cond cc tree).mp hrun
    obtain ⟨hstops, hfits, hdefault, haccepted⟩ := (hcore arms harms).mp ⟨haccepted, heq⟩
    exact ⟨isSome_of_trees harms, hstops, hfits, hdefault, haccepted⟩
  · rintro ⟨htrees, hstops, hfits, hdefault, haccepted⟩
    obtain ⟨arms, harms⟩ := exists_trees htrees
    obtain ⟨haccepted, heq⟩ := (hcore arms harms).mpr ⟨hstops, hfits, hdefault, haccepted⟩
    refine ⟨_, (parseSwitchStatement_eq_ok harms cond cc _).mpr ⟨haccepted, rfl⟩, ?_⟩
    rw [writtenArms, harms]
    exact congrArg some heq

/-- A switch with statements after a compound statement, one with a constant of 33 bits, and one
with a case after its default. -/
theorem not_keepsArms :
  ¬ KeepsArms 0 [⟨some (.value 1), [.compound [.leaf .expr 1], .leaf .expr 2, .leaf .breakStmt 3]⟩,
      ⟨some (.value 2), [.leaf .expr 4]⟩] ⟨none, none⟩ ∧
    ¬ KeepsArms 0 [⟨some (.value 0x100000001), [.leaf .expr 1]⟩] ⟨none, none⟩ ∧
    ¬ KeepsArms 0 [⟨none, [.leaf .expr 1]⟩, ⟨some (.value 2), [.leaf .expr 2]⟩] ⟨none, none⟩
  := by
  refine ⟨?_, ?_, ?_⟩
  · rintro ⟨tree, hrun, hwritten⟩
    cases hrun
    cases congrArg (Option.map (List.map fun arm => arm.stms.length)) hwritten
  · rintro ⟨tree, hrun, hwritten⟩
    cases hrun
    cases congrArg (Option.map (List.map Arm.label)) hwritten
  · rintro ⟨tree, hrun, hwritten⟩
    cases hrun
    cases congrArg (Option.map (List.map Arm.label)) hwritten

end Polyc.Switch
