import Mathlib.Data.List.Nodup
import Polyc.Parser.SwitchWalk

/-!
# The arms of a switch

What the body of a switch says, and what the parser makes of it.  The body is a sequence of arms;
each stands for its bounds and for the trees that its statements have by themselves.  The parser
gives every arm its statements up to the first one that ends an arm.
-/

namespace Polyc.Switch

/-! ### What is written -/

/-- The statements of the body that an arm is written as. -/
def Arm.written (arm : Arm CaseLabel Stmt) : List Stmt :=
  arm.label.elim .default .case :: arm.stms

mutual

/-- No label of the switch stands in a statement. -/
def Stmt.plain : Stmt → Bool
  | .case _ => false
  | .default => false
  | .leaf _ _ => true
  | .empty => true
  | .compound stms => Stmt.plains stms
  | .switch _ _ => true

/-- No label of the switch stands in statements. -/
def Stmt.plains : List Stmt → Bool
  | [] => true
  | s :: ss => s.plain && Stmt.plains ss

end

/-- The tree of what the parser meets, where it is a statement that has one. -/
def Item.alone : Item → Option StmtTree
  | .stmt parse => ((parse ⟨none, none⟩).toOption).bind fun r => r.1
  | _ => none

/-- The tree of a statement by itself, which has no label of the switch in it. -/
def Stmt.tree (s : Stmt) : Option StmtTree :=
  if s.plain then s.item.alone else none

/-- A statement ends the arm it stands in. -/
def Stmt.endsArm : Stmt → Bool
  | .leaf form _ => parseSwitchArmTerminates form.kind
  | .compound _ => true
  | _ => false

/-- An arm with the trees of its statements. -/
def Arm.trees {L : Type} (arm : Arm L Stmt) : Option (Arm L StmtTree) :=
  (arm.stms.mapM Stmt.tree).map fun stms => ⟨arm.label, stms⟩

/-- The bounds of a case after the end of the case before it, as `f` stores a value: an empty
label stands for the next value, and for zero at first. -/
def CaseLabel.bounds (f : Int → Int) (prev : Option Int) : CaseLabel → Int × Int
  | .next => (f (prev.elim 0 (· + 1)), f (prev.elim 0 (· + 1)))
  | .value v => (f v.toInt, f v.toInt)
  | .range lo hi => (f lo.toInt, f hi.toInt)

/-- Arms with the bounds of their cases. -/
def resolve {S : Type} (f : Int → Int) : Option Int → List (Arm CaseLabel S) →
    List (Arm (Int × Int) S)
  | _, [] => []
  | prev, ⟨none, stms⟩ :: arms => ⟨none, stms⟩ :: resolve f prev arms
  | prev, ⟨some label, stms⟩ :: arms =>
    ⟨some (label.bounds f prev), stms⟩ :: resolve f (some (label.bounds f prev).2) arms

/-- The bounds of the cases among arms. -/
def caseBoundsOf {S : Type} (arms : List (Arm (Int × Int) S)) : List (Int × Int) :=
  arms.filterMap Arm.label

/-- The arms that a body says, with the bounds as they are written. -/
def writtenArms (body : List (Arm CaseLabel Stmt)) : Option (List (Arm (Int × Int) StmtTree)) :=
  (body.mapM Arm.trees).map (resolve id none)

/-- The parser makes of the body of a switch a tree whose arms are those that are written, in
their order. -/
def KeepsArms (cond : Nat) (body : List (Arm CaseLabel Stmt)) (cc : SwitchLists) : Prop :=
  ∃ tree, parseSwitchStatement cond (Stmt.items (body.flatMap Arm.written)) cc = .ok (tree, cc) ∧
    writtenArms body = some tree.layout

/-! ### Statements by themselves -/

/-- What the parser meets does not use the lists of the switch. -/
def Item.Steady : Item → Prop
  | .stmt parse => ∃ r, parse = StateT.lift r
  | _ => False

/-- The loop of a block of such statements does not use them either. -/
theorem steady_internal (m : Nat) (items : List Item) (h : ∀ item ∈ items, item.Steady) :
  ∃ r, parseCompoundStatementInternal m items = StateT.lift r
  := by
  induction m generalizing items with
  | zero =>
    cases items with
    | nil => exact ⟨.ok [], rfl⟩
    | cons item items => exact ⟨.error .outOfFuel, rfl⟩
  | succ m ih =>
    cases items with
    | nil => exact ⟨.ok [], rfl⟩
    | cons item items =>
      have hitem := h item List.mem_cons_self
      obtain ⟨r', hr'⟩ := ih items fun x hx => h x (List.mem_cons_of_mem item hx)
      cases item with
      | case label => cases hitem
      | default => cases hitem
      | stmt parse =>
        obtain ⟨r, rfl⟩ := hitem
        cases r with
        | error e => exact ⟨.error e, rfl⟩
        | ok stmt =>
          cases stmt with
          | none =>
            cases items with
            | nil => exact ⟨.ok [], rfl⟩
            | cons item' items => exact ⟨.error .expectedBrace, rfl⟩
          | some stmt =>
            refine ⟨r' >>= fun stms => .ok (if parseCompoundBlockAppendsStatement stmt then
              stmt :: stms else stms), ?_⟩
            have hrun : parseCompoundStatementInternal (m + 1)
                (.stmt (StateT.lift (.ok (some stmt))) :: items) =
                (parseCompoundStatementInternal m items >>= fun stms =>
                  return if parseCompoundBlockAppendsStatement stmt then stmt :: stms
                    else stms) := rfl
            rw [hrun, hr']
            cases r' <;> rfl

/-- A switch is what the run on its body leaves in fresh lists; the lists before are put back. -/
theorem parseSwitchStatement_eq (cond : Nat) (items : List Item) (cc : SwitchLists) :
  parseSwitchStatement cond items cc =
    (drain items.length items ⟨some [], none⟩).map fun r =>
      (.switch cond (r.2.tmpCaseList.getD []) r.2.tmpDefaultCase, cc)
  := by
  have hget : parseSwitchStatement cond items cc =
      (parseCompoundStatement items >>= fun _ => do
        let cc' ← get
        set cc
        return .switch cond (cc'.tmpCaseList.getD []) cc'.tmpDefaultCase : Parse StmtTree)
        ⟨some [], none⟩ := rfl
  rw [hget]
  cases hrun : parseCompoundStatementInternal items.length items ⟨some [], none⟩ with
  | error e =>
    have hdrain : drain items.length items ⟨some [], none⟩ = .error e :=
      Parse.bind_of_error _ hrun
    have hblock : parseCompoundStatement items ⟨some [], none⟩ = .error e :=
      Parse.bind_of_error _ hrun
    rw [hdrain]
    exact Parse.bind_of_error _ hblock
  | ok r =>
    obtain ⟨stms, cc'⟩ := r
    have hdrain : drain items.length items ⟨some [], none⟩ = .ok ((), cc') :=
      Parse.bind_of_ok _ hrun
    have hblock : parseCompoundStatement items ⟨some [], none⟩ = .ok (.compound stms, cc') :=
      Parse.bind_of_ok _ hrun
    rw [hdrain]
    exact Parse.bind_of_ok _ hblock

/-- A switch does not use the lists before it. -/
theorem steady_switch (cond : Nat) (items : List Item) :
  ∃ r, parseSwitchStatement cond items = StateT.lift r
  := by
  use (drain items.length items ⟨some [], none⟩).map fun r =>
    .switch cond (r.2.tmpCaseList.getD []) r.2.tmpDefaultCase
  funext cc
  rw [parseSwitchStatement_eq]
  cases drain items.length items ⟨some [], none⟩ <;> rfl

mutual

/-- A statement in which no label of the switch stands does not use its lists. -/
theorem Stmt.steady_item : (s : Stmt) → s.plain = true → s.item.Steady
  | .leaf form text, _ => ⟨.ok (some (.leaf form text)), rfl⟩
  | .empty, _ => ⟨.ok none, rfl⟩
  | .compound stms, h => by
    obtain ⟨r, hr⟩ := steady_internal (Stmt.items stms).length (Stmt.items stms)
      (Stmt.steady_items stms h)
    use (fun stms => some (.compound stms)) <$> r
    rw [parseCompoundStatement, hr]
    cases r <;> rfl
  | .switch cond body, _ => by
    obtain ⟨r, hr⟩ := steady_switch cond (Stmt.items body)
    use some <$> r
    rw [hr]
    cases r <;> rfl

/-- Nor do such statements. -/
theorem Stmt.steady_items : (ss : List Stmt) → Stmt.plains ss = true →
    ∀ item ∈ Stmt.items ss, item.Steady
  | [], _ => fun _ h => absurd h List.not_mem_nil
  | s :: ss, h => by
    obtain ⟨hs, hss⟩ := Bool.and_eq_true_iff.mp h
    intro item hitem
    rcases List.mem_cons.mp hitem with rfl | hitem
    · exact Stmt.steady_item s hs
    · exact Stmt.steady_items ss hss item hitem

end

/-! ### Trees of statements -/

/-- A tree that a function of the parser returns comes from its own run. -/
theorem exists_of_map_ok {α β : Type} {f : α → β} {x : Parse α} {cc : SwitchLists}
    {r : β × SwitchLists} (h : (f <$> x) cc = .ok r) :
  ∃ a, r.1 = f a ∧ ∃ cc', x cc = .ok (a, cc')
  := by
  rw [map_eq_pure_bind] at h
  obtain ⟨a, cc', hx, h⟩ := Parse.bind_eq_ok.mp h
  cases h
  exact ⟨a, rfl, cc', hx⟩

/-- What a statement has for a tree is what its own parser returns. -/
theorem Item.alone_stmt {parse : Parse (Option StmtTree)} {t : StmtTree}
    (h : (Item.stmt parse).alone = some t) :
  ∃ cc', parse ⟨none, none⟩ = .ok (some t, cc')
  := by
  obtain ⟨r, hr, ht⟩ := Option.bind_eq_some_iff.mp h
  cases hparse : parse ⟨none, none⟩ with
  | error e =>
    rw [hparse] at hr
    cases hr
  | ok q =>
    rw [hparse] at hr
    cases hr
    use r.2
    rw [← ht]

/-- Where a statement has a tree the parser returns it and leaves the lists alone. -/
theorem Stmt.item_of_tree {s : Stmt} {t : StmtTree} (h : s.tree = some t) :
  s.item = (Mark.tree t).item
  := by
  rw [Stmt.tree] at h
  split at h
  case isTrue hplain =>
    have hsteady := s.steady_item hplain
    cases hitem : s.item with
    | case label =>
      rw [hitem] at h
      cases h
    | default =>
      rw [hitem] at h
      cases h
    | stmt parse =>
      rw [hitem] at h hsteady
      obtain ⟨r, rfl⟩ := hsteady
      obtain ⟨cc', hr⟩ := Item.alone_stmt h
      cases r with
      | error e => cases hr
      | ok stmt =>
        cases hr
        rfl
  case isFalse => cases h

/-- The kind of the tree says whether the statement ends its arm, and is that of no label. -/
theorem Stmt.kind_of_tree {s : Stmt} {t : StmtTree} (h : s.tree = some t) :
  (Mark.tree t).Plain ∧ parseSwitchArmTerminates t.kind = s.endsArm
  := by
  have halone : s.item.alone = some t := by
    rw [Stmt.tree] at h
    split at h
    · exact h
    · cases h
  cases s with
  | case label => cases h
  | default => cases h
  | leaf form text =>
    cases halone
    refine ⟨?_, rfl⟩
    cases form <;> exact ⟨nofun, nofun⟩
  | empty => cases halone
  | compound stms =>
    obtain ⟨cc', hrun⟩ := Item.alone_stmt halone
    obtain ⟨tree, htree, cc₁, hrun⟩ := exists_of_map_ok hrun
    cases htree
    obtain ⟨ts, cc₂, -, hrun⟩ := Parse.bind_eq_ok.mp hrun
    cases hrun
    exact ⟨⟨nofun, nofun⟩, rfl⟩
  | «switch» cond body =>
    obtain ⟨cc', hrun⟩ := Item.alone_stmt halone
    obtain ⟨tree, htree, cc₁, hrun⟩ := exists_of_map_ok hrun
    cases htree
    rw [parseSwitchStatement_eq] at hrun
    cases hdrain : drain (Stmt.items body).length (Stmt.items body) ⟨some [], none⟩ with
    | error e =>
      rw [hdrain] at hrun
      cases hrun
    | ok r =>
      rw [hdrain] at hrun
      cases hrun
      exact ⟨⟨nofun, nofun⟩, rfl⟩

/-- A list of options that are all there. -/
theorem mapM_eq_some_iff {α β : Type} {f : α → Option β} {l : List α} {l' : List β} :
  l.mapM f = some l' ↔ List.Forall₂ (fun a b => f a = some b) l l'
  := by
  induction l generalizing l' with
  | nil =>
    rw [List.mapM_nil, List.forall₂_nil_left_iff]
    constructor
    · intro h
      cases h
      rfl
    · rintro rfl
      rfl
  | cons a l ih =>
    rw [List.mapM_cons, List.forall₂_cons_left_iff]
    constructor
    · intro h
      obtain ⟨b, hb, h⟩ := Option.bind_eq_some_iff.mp h
      obtain ⟨bs, hbs, h⟩ := Option.bind_eq_some_iff.mp h
      cases h
      exact ⟨b, bs, hb, ih.mp hbs, rfl⟩
    · rintro ⟨b, bs, hb, hbs, rfl⟩
      rw [hb, ih.mpr hbs]
      rfl

/-! ### The marks of a body -/

/-- The marks of an arm: its label, then its statements. -/
def Arm.marks (arm : Arm CaseLabel StmtTree) : List Mark :=
  arm.label.elim .default .case :: arm.stms.map .tree

/-- The items of two lists of statements. -/
theorem Stmt.items_append (ss ss' : List Stmt) :
  Stmt.items (ss ++ ss') = Stmt.items ss ++ Stmt.items ss'
  := by
  induction ss with
  | nil => rfl
  | cons s ss ih => rw [List.cons_append, Stmt.items, ih, Stmt.items, List.cons_append]

/-- What the parser meets at statements that have trees. -/
theorem Stmt.items_of_trees {ss : List Stmt} {ts : List StmtTree}
    (h : ss.mapM Stmt.tree = some ts) :
  Stmt.items ss = (ts.map Mark.tree).map Mark.item
  := by
  rw [mapM_eq_some_iff] at h
  induction h with
  | nil => rfl
  | cons ht _ ih => rw [Stmt.items, ih, Stmt.item_of_tree ht, List.map_cons, List.map_cons]

/-- What the parser meets at an arm whose statements have trees. -/
theorem Arm.items_of_trees {arm : Arm CaseLabel Stmt} {arm' : Arm CaseLabel StmtTree}
    (h : arm.trees = some arm') :
  Stmt.items arm.written = arm'.marks.map Mark.item
  := by
  obtain ⟨ts, hts, rfl⟩ := Option.map_eq_some_iff.mp h
  rw [Arm.written, Arm.marks, Stmt.items, Stmt.items_of_trees hts, List.map_cons]
  cases arm.label <;> rfl

/-- What the parser meets at a body whose statements have trees. -/
theorem items_of_trees {body : List (Arm CaseLabel Stmt)} {arms : List (Arm CaseLabel StmtTree)}
    (h : body.mapM Arm.trees = some arms) :
  Stmt.items (body.flatMap Arm.written) = (arms.flatMap Arm.marks).map Mark.item
  := by
  rw [mapM_eq_some_iff] at h
  induction h with
  | nil => rfl
  | cons harm _ ih =>
    rw [List.flatMap_cons, List.flatMap_cons, Stmt.items_append, ih, Arm.items_of_trees harm,
      List.map_append]

/-- No statement of an arm has the tree of a label. -/
def Arm.Plain (arm : Arm CaseLabel StmtTree) : Prop := ∀ t ∈ arm.stms, (Mark.tree t).Plain

/-- What is in the second of two related lists is related to something in the first. -/
theorem exists_of_mem_right {α β : Type} {R : α → β → Prop} {as : List α} {bs : List β}
    (h : List.Forall₂ R as bs) {b : β} (hb : b ∈ bs) :
  ∃ a ∈ as, R a b
  := by
  obtain ⟨i, hi, rfl⟩ := List.getElem_of_mem hb
  have hlen : i < as.length := h.length_eq ▸ hi
  exact ⟨as[i], List.getElem_mem hlen, h.get hlen hi⟩

/-- The trees of a body's statements are not those of labels. -/
theorem plain_of_trees {body : List (Arm CaseLabel Stmt)} {arms : List (Arm CaseLabel StmtTree)}
    (h : body.mapM Arm.trees = some arms) :
  ∀ arm ∈ arms, arm.Plain
  := by
  intro arm harm t ht
  obtain ⟨a, -, ha⟩ := exists_of_mem_right (mapM_eq_some_iff.mp h) harm
  obtain ⟨ts, hts, rfl⟩ := Option.map_eq_some_iff.mp ha
  obtain ⟨s, -, hs⟩ := exists_of_mem_right (mapM_eq_some_iff.mp hts) ht
  exact (Stmt.kind_of_tree hs).1

/-- The marks of plain arms are plain. -/
theorem plain_marks {arms : List (Arm CaseLabel StmtTree)} (h : ∀ arm ∈ arms, arm.Plain) :
  ∀ mark ∈ arms.flatMap Arm.marks, mark.Plain
  := by
  intro mark hmark
  obtain ⟨arm, harm, hmark⟩ := List.mem_flatMap.mp hmark
  rcases List.mem_cons.mp hmark with rfl | hmark
  · cases arm.label <;> trivial
  · obtain ⟨t, ht, rfl⟩ := List.mem_map.mp hmark
    exact h arm harm t ht

end Polyc.Switch
