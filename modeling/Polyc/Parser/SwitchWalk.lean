import Mathlib.Tactic.Ring
import Polyc.Parser.Switch

/-!
# One pass over the body of a switch

The functions that parse the arms of a switch call one another, and each returns where its arm
ends.  On a body whose statements have trees they do what one pass does that keeps the arm it is
in: a statement goes to that arm, a statement that ends the arm leaves no arm, and what follows
is dropped until the next label.
-/

namespace Polyc.Switch

/-! ### Runs of the parser -/

/-- A sequence of two functions succeeds when both do. -/
theorem Parse.bind_eq_ok {α β : Type} {x : Parse α} {f : α → Parse β} {cc : SwitchLists}
    {r : β × SwitchLists} :
  (x >>= f) cc = .ok r ↔ ∃ a cc', x cc = .ok (a, cc') ∧ f a cc' = .ok r
  := by
  change (x cc >>= fun p => f p.1 p.2) = .ok r ↔ _
  cases hx : x cc with
  | error e =>
    constructor
    · intro h
      cases h
    · rintro ⟨a, cc', h, -⟩
      cases h
  | ok p =>
    obtain ⟨a, cc'⟩ := p
    constructor
    · intro h
      exact ⟨a, cc', rfl, h⟩
    · rintro ⟨b, cc'', h, h'⟩
      cases h
      exact h'

/-- A sequence whose first function succeeds. -/
theorem Parse.bind_of_ok {α β : Type} {x : Parse α} (f : α → Parse β) {cc cc' : SwitchLists}
    {a : α} (h : x cc = .ok (a, cc')) :
  (x >>= f) cc = f a cc'
  := by
  change (x cc >>= fun p => f p.1 p.2) = _
  rw [h]
  rfl

/-- A sequence whose first function fails. -/
theorem Parse.bind_of_error {α β : Type} {x : Parse α} (f : α → Parse β) {cc : SwitchLists}
    {e : ParseError} (h : x cc = .error e) :
  (x >>= f) cc = .error e
  := by
  change (x cc >>= fun p => f p.1 p.2) = _
  rw [h]
  rfl

/-! ### The pass -/

/-- A label of the body of a switch, or a statement with its tree. -/
inductive Mark where
  | case (label : CaseLabel)
  | default
  | tree (t : StmtTree)

/-- What the parser meets there. -/
def Mark.item : Mark → Item
  | case label => .case label
  | default => .default
  | tree t => .stmt (return some t)

/-- No mark is the node of a label. -/
def Mark.Plain : Mark → Prop
  | tree t => t.kind ≠ .caseStmt ∧ t.kind ≠ .defaultStmt
  | _ => True

/-- The arm that statements go to. -/
inductive Target where
  | case (i : Nat)
  | default

/-- A statement appended to an arm. -/
def Target.append : Target → StmtTree → Parse Unit
  | case i, stmt => appendToCase i stmt
  | default, stmt => appendToDefault stmt

/-- The loop that parses an arm. -/
def Target.parseArm : Target → Nat → List Item → Parse (List Item)
  | case i, n, items => parseCaseArm n i items
  | default, n, items => parseDefaultArm n items

/-- The default that statements go to is there. -/
def Target.Stands (cc : SwitchLists) : Target → Prop
  | case _ => True
  | default => cc.tmpDefaultCase.isSome

/-- One pass over a body. -/
def walk : Option Target → List Mark → Parse Unit
  | _, [] => return ()
  | _, .case label :: rest => do
    let i ← addCase label
    if rest.isEmpty then throw .notAStatement else walk (some (.case i)) rest
  | _, .default :: rest => do
    addDefault
    if rest.isEmpty then throw .notAStatement else walk (some .default) rest
  | none, .tree _ :: rest => walk none rest
  | some target, .tree t :: rest => do
    target.append t
    walk (if parseSwitchArmTerminates t.kind then none else some target) rest

/-! ### Turns of the loops -/

/-- The rest of a block parsed, its tree dropped. -/
def drain (m : Nat) (rest : List Item) : Parse Unit := do
  let _ ← parseCompoundStatementInternal m rest
  return ()

/-- The rest of a block parsed, as a map. -/
theorem drain_eq (m : Nat) (rest : List Item) :
  drain m rest = (fun _ => ()) <$> parseCompoundStatementInternal m rest
  := by
  simp [drain]

/-- `parseStatement` at a case. -/
@[simp]
theorem parseStatement_case (n : Nat) (label : CaseLabel) (rest : List Item) :
  parseStatement (n + 2) (.case label :: rest) = (do
    let i ← addCase label
    let rest ← parseCaseArm n i rest
    return (some (.case i), rest))
  := rfl

/-- `parseStatement` at a default. -/
@[simp]
theorem parseStatement_default (n : Nat) (rest : List Item) :
  parseStatement (n + 2) (.default :: rest) = (do
    addDefault
    let rest ← parseDefaultArm n rest
    return (some .default, rest))
  := rfl

/-- `parseStatement` at another statement. -/
@[simp]
theorem parseStatement_tree (n : Nat) (stmt : StmtTree) (rest : List Item) :
  parseStatement (n + 1) ((Mark.tree stmt).item :: rest) = return (some stmt, rest)
  := rfl

/-- A case ends the arm before it. -/
theorem Target.parseArm_case (t : Target) (n : Nat) (label : CaseLabel) (rest : List Item) :
  t.parseArm (n + 4) (.case label :: rest) =
    addCase label >>= fun i => (Target.case i).parseArm (n + 1) rest
  := by
  cases t <;>
    simp [parseArm, parseCaseArm, parseDefaultArm, StmtTree.kind, parseSwitchArmTerminates,
      parseDefaultArmTerminates]

/-- A default ends the arm of the case before it. -/
theorem parseCaseArm_default (i n : Nat) (rest : List Item) :
  (Target.case i).parseArm (n + 4) (.default :: rest) =
    addDefault >>= fun _ => Target.default.parseArm (n + 1) rest
  := by
  simp [Target.parseArm, parseCaseArm, StmtTree.kind, parseSwitchArmTerminates]

/-- What `addDefault` does. -/
theorem addDefault_eq (cc : SwitchLists) :
  addDefault cc =
    if cc.tmpDefaultCase.isSome then .error .duplicateDefault
    else .ok ((), { cc with tmpDefaultCase := some [] })
  := by
  change (if cc.tmpDefaultCase.isSome then (throw .duplicateDefault : Parse Unit)
    else set { cc with tmpDefaultCase := some [] }) cc = _
  split <;> rfl

/-- A second default is refused. -/
theorem addDefault_of_stands {cc : SwitchLists} (h : Target.default.Stands cc) :
  addDefault cc = .error .duplicateDefault
  := by
  rw [addDefault_eq]
  exact if_pos h

/-- The loop of a default refuses a second one. -/
theorem parseDefaultArm_default (n : Nat) (rest : List Item) {cc : SwitchLists}
    (h : Target.default.Stands cc) :
  Target.default.parseArm (n + 4) (.default :: rest) cc = .error .duplicateDefault
  := by
  change (parseStatement (n + 3) (.default :: rest) >>= _) cc = _
  apply Parse.bind_of_error
  change (addDefault >>= _) cc = _
  apply Parse.bind_of_error
  apply addDefault_of_stands h

/-- On trees that are not the nodes of labels the two loops end alike. -/
theorem parseDefaultArmTerminates_eq {k : AstKind} (h : k ≠ .defaultStmt) :
  parseDefaultArmTerminates k = parseSwitchArmTerminates k
  := by
  cases k <;> first | rfl | exact absurd rfl h

/-- A statement goes to the arm, which goes on unless the statement or the block ends it. -/
theorem Target.parseArm_tree (t : Target) (n : Nat) {stmt : StmtTree}
    (h : (Mark.tree stmt).Plain) (rest : List Item) :
  t.parseArm (n + 2) ((Mark.tree stmt).item :: rest) =
    t.append stmt >>= fun _ =>
      if parseSwitchArmTerminates stmt.kind || rest.isEmpty then return rest
      else t.parseArm (n + 1) rest
  := by
  obtain ⟨hc, hd⟩ := h
  cases t with
  | case i =>
    cases hs : parseSwitchArmTerminates stmt.kind <;>
      simp [parseArm, parseCaseArm, append, hc, hd, hs]
  | default =>
    rw [← parseDefaultArmTerminates_eq hd]
    cases hs : parseDefaultArmTerminates stmt.kind <;>
      simp [parseArm, parseDefaultArm, append, hc, hs]

/-- A case among the statements of the block. -/
theorem drain_case (m : Nat) (label : CaseLabel) (rest : List Item) :
  drain (m + 1) (.case label :: rest) =
    addCase label >>= fun i =>
      (Target.case i).parseArm (3 * rest.length + 2) rest >>= drain m
  := by
  have hn : 3 * (List.length (.case label :: rest)) + 1 = 3 * rest.length + 4 := by
    rw [List.length_cons]
    ring
  rw [drain, parseCompoundStatementInternal, hn]
  · simp [Target.parseArm, funext (drain_eq m)]
  · apply List.cons_ne_nil

/-- A default among the statements of the block. -/
theorem drain_default (m : Nat) (rest : List Item) :
  drain (m + 1) (.default :: rest) =
    addDefault >>= fun _ => Target.default.parseArm (3 * rest.length + 2) rest >>= drain m
  := by
  have hn : 3 * (List.length (.default :: rest)) + 1 = 3 * rest.length + 4 := by
    rw [List.length_cons]
    ring
  rw [drain, parseCompoundStatementInternal, hn]
  · simp [Target.parseArm, funext (drain_eq m)]
  · apply List.cons_ne_nil

/-- A statement that no arm takes. -/
theorem drain_tree (m : Nat) (stmt : StmtTree) (rest : List Item) :
  drain (m + 1) ((Mark.tree stmt).item :: rest) = drain m rest
  := by
  rw [drain_eq, drain_eq, parseCompoundStatementInternal]
  · simp
  · apply List.cons_ne_nil

/-! ### The loops make one pass -/

/-- An arm whose block ends at its label is refused. -/
theorem Target.parseArm_nil (t : Target) (n : Nat) (cc : SwitchLists) :
  t.parseArm (n + 2) [] cc = .error .notAStatement
  := by
  cases t <;> rfl

/-- A default that has been added stands. -/
theorem stands_of_addDefault {cc cc' : SwitchLists} {u : Unit}
    (h : addDefault cc = .ok (u, cc')) :
  Target.default.Stands cc'
  := by
  rw [addDefault_eq] at h
  split at h
  · cases h
  · cases h
    rfl

/-- Appending to an arm keeps its default standing. -/
theorem Target.Stands.append {t : Target} {cc cc' : SwitchLists} {stmt : StmtTree} {u : Unit}
    (h : t.Stands cc) (happ : t.append stmt cc = .ok (u, cc')) :
  t.Stands cc'
  := by
  cases t with
  | case i => trivial
  | default =>
    cases happ
    change (Option.map _ _).isSome = true
    rw [Option.isSome_map]
    exact h

/-- The loop of the block, and the loop of an arm followed by it, make one pass. -/
theorem drain_eq_walk (ms : List Mark) (hms : ∀ mark ∈ ms, mark.Plain) :
  (∀ m cc, ms.length ≤ m → drain m (ms.map Mark.item) cc = walk none ms cc) ∧
    ∀ (t : Target) n m cc, 3 * ms.length ≤ n → ms.length ≤ m → ms ≠ [] → t.Stands cc →
      (t.parseArm (n + 2) (ms.map Mark.item) >>= drain m) cc = walk (some t) ms cc
  := by
  induction ms with
  | nil =>
    constructor
    · intro m cc _
      cases m <;> rfl
    · intro t n m cc _ _ hne
      exact absurd rfl hne
  | cons mark ms ih =>
    obtain ⟨ihd, iha⟩ := ih fun x hx => hms x (List.mem_cons_of_mem mark hx)
    have hmark := hms mark List.mem_cons_self
    -- what follows a label, in the loop of its arm
    have hafter : ∀ (t : Target) n m cc, 3 * ms.length ≤ n → ms.length ≤ m → t.Stands cc →
        (t.parseArm (n + 2) (ms.map Mark.item) >>= drain m) cc =
          (if ms.isEmpty then throw .notAStatement else walk (some t) ms : Parse Unit) cc := by
      intro t n m cc hn hm ht
      cases ms with
      | nil =>
        apply Parse.bind_of_error
        apply t.parseArm_nil
      | cons mark' ms =>
        exact iha t n m cc hn hm (List.cons_ne_nil _ _) ht
    -- a label, where statements go to no arm or to one
    have hcase : ∀ label n m cc, 3 * ms.length ≤ n → ms.length ≤ m →
        ((addCase label >>= fun i =>
          (Target.case i).parseArm (n + 2) (ms.map Mark.item)) >>= drain m) cc =
          walk none (.case label :: ms) cc := by
      intro label n m cc hn hm
      rw [bind_assoc]
      cases hadd : addCase label cc with
      | error e => rw [Parse.bind_of_error _ hadd, walk, Parse.bind_of_error _ hadd]
      | ok r =>
        obtain ⟨i, cc'⟩ := r
        rw [Parse.bind_of_ok _ hadd, walk, Parse.bind_of_ok _ hadd]
        exact hafter (.case i) n m cc' hn hm trivial
    have hdefault : ∀ n m cc, 3 * ms.length ≤ n → ms.length ≤ m →
        ((addDefault >>= fun _ =>
          Target.default.parseArm (n + 2) (ms.map Mark.item)) >>= drain m) cc =
          walk none (.default :: ms) cc := by
      intro n m cc hn hm
      rw [bind_assoc]
      cases hadd : addDefault cc with
      | error e => rw [Parse.bind_of_error _ hadd, walk, Parse.bind_of_error _ hadd]
      | ok r =>
        obtain ⟨u, cc'⟩ := r
        rw [Parse.bind_of_ok _ hadd, walk, Parse.bind_of_ok _ hadd]
        exact hafter .default n m cc' hn hm (stands_of_addDefault hadd)
    constructor
    · intro m cc hm
      obtain ⟨m, rfl⟩ := Nat.exists_eq_succ_of_ne_zero (Nat.ne_of_gt (Nat.zero_lt_of_lt hm))
      have hm' : ms.length ≤ m := Nat.le_of_succ_le_succ hm
      have hlen : (ms.map Mark.item).length = ms.length := List.length_map _
      cases mark with
      | case label =>
        have h := hcase label (3 * ms.length) m cc le_rfl hm'
        rw [bind_assoc] at h
        rw [List.map_cons, Mark.item, drain_case, hlen]
        exact h
      | default =>
        have h := hdefault (3 * ms.length) m cc le_rfl hm'
        rw [bind_assoc] at h
        rw [List.map_cons, Mark.item, drain_default, hlen]
        exact h
      | tree stmt =>
        rw [List.map_cons, drain_tree]
        exact ihd m cc hm'
    · intro t n m cc hn hm _ ht
      have hm' : ms.length ≤ m := Nat.le_of_succ_le hm
      obtain ⟨n, rfl⟩ := Nat.exists_eq_add_of_le' (show 3 ≤ n by
        rw [List.length_cons] at hn
        omega)
      have hn' : 3 * ms.length ≤ n := by
        rw [List.length_cons] at hn
        omega
      cases mark with
      | case label =>
        rw [List.map_cons, Mark.item, t.parseArm_case (n + 1)]
        exact hcase label n m cc hn' hm'
      | default =>
        rw [List.map_cons, Mark.item]
        cases t with
        | case i =>
          rw [parseCaseArm_default]
          exact hdefault n m cc hn' hm'
        | default =>
          rw [Parse.bind_of_error _ (parseDefaultArm_default (n + 1) _ ht), walk,
            Parse.bind_of_error _ (addDefault_of_stands ht)]
      | tree stmt =>
        rw [List.map_cons, t.parseArm_tree (n + 3) hmark, bind_assoc, walk]
        cases happ : t.append stmt cc with
        | error e => rw [Parse.bind_of_error _ happ, Parse.bind_of_error _ happ]
        | ok r =>
          obtain ⟨u, cc'⟩ := r
          rw [Parse.bind_of_ok _ happ, Parse.bind_of_ok _ happ]
          cases hs : parseSwitchArmTerminates stmt.kind with
          | true => exact ihd m cc' hm'
          | false =>
            cases ms with
            | nil => cases m <;> rfl
            | cons mark' ms =>
              apply iha t (n + 2) m cc' _ hm' (List.cons_ne_nil _ _) (ht.append happ)
              omega

end Polyc.Switch
