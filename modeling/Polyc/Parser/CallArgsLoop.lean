import Polyc.Parser.CallArgs

/-!
# The loop over written arguments

The loop that collects arguments goes over the positions of the written list, all but an empty one
at the end.  It puts what is written at the position of a fixed parameter, or a default or a mark,
and keeps variable arguments apart, but for marks.
-/

namespace Polyc.CallArgs

variable {τ ε : Type}

/-! ### The positions of a list -/

/-- The positions that are collected: an empty one at the end is not. -/
def listed (positions : List (Option ε)) : List (Option ε) :=
  if endsEmpty positions then positions.dropLast else positions

/-- A written list has a position. -/
theorem Written.ne_nil {parser : ExprParser τ ε} {terminator : Char} {toks rest : List (Token τ)}
    {positions : List (Option ε)} (h : Written parser terminator toks positions rest) :
  positions ≠ []
  := by
  cases h <;> apply List.cons_ne_nil

/-- The end of a list is the end of what comes after its first position. -/
theorem endsEmpty_cons (position : Option ε) {positions : List (Option ε)}
    (h : positions ≠ []) :
  endsEmpty (position :: positions) = endsEmpty positions
  := by
  rw [endsEmpty, List.getLast?_cons_of_ne_nil h, endsEmpty]

/-- The positions after the first one are collected as they would be alone. -/
theorem listed_cons (position : Option ε) {positions : List (Option ε)} (h : positions ≠ []) :
  listed (position :: positions) = position :: listed positions
  := by
  simp only [listed, endsEmpty_cons position h, List.dropLast_cons_of_ne_nil h]
  split <;> rfl

/-- No argument is lost where a position is not collected. -/
theorem listed_getElem?_join (positions : List (Option ε)) (i : Nat) :
  ((listed positions)[i]?).join = (positions[i]?).join
  := by
  induction positions generalizing i with
  | nil => rfl
  | cons position positions ih =>
    by_cases hne : positions = []
    · subst hne
      cases position with
      | some e => rfl
      | none => cases i <;> rfl
    · rw [listed_cons position hne]
      cases i with
      | zero => rfl
      | succ i => apply ih

/-! ### The loop -/

/-- What the loop does at a position. -/
def Argv.step (kind : FunKind) (s : Argv ε) : Option ε → Argv ε
  | none => s.advance.skip
  | some e => s.advance.push kind (some e)

/-- The loop goes over the positions of a written list, and leaves the terminator after an empty
one. -/
theorem parseArgvLoop_written {parser : ExprParser τ ε} {kind : FunKind} {terminator : Char}
    (hterm : terminator ≠ ',') {toks rest : List (Token τ)} {positions : List (Option ε)}
    (h : Written parser terminator toks positions rest) (s : Argv ε) :
  parseArgvLoop parser kind terminator s toks
    = .ok ((listed positions).foldl (Argv.step kind) s,
        if endsEmpty positions then .punct terminator :: rest else rest)
  := by
  have hself (ch : Char) : tokenPunctIs (Token.punct ch : Token τ) ch = true := decide_eq_true rfl
  have hother : tokenPunctIs (Token.punct ',' : Token τ) terminator = false :=
    decide_eq_false hterm.symm
  induction h generalizing s with
  | last rest =>
    rw [parseArgvLoop, if_pos (hself terminator)]
    rfl
  | @skip toks positions rest h ih =>
    rw [parseArgvLoop, hother, if_neg Bool.false_ne_true, if_pos (hself ','), ih,
      listed_cons _ h.ne_nil, endsEmpty_cons _ h.ne_nil]
    rfl
  | @lastExpr tok toks e rest hend hcomma hparse =>
    rw [parseArgvLoop.eq_def]
    simp only [hend, hcomma, Bool.false_eq_true, if_false]
    split
    case h_1 h => rw [hparse] at h; cases h
    case h_2 h => rw [hparse] at h; cases h
    case h_3 h =>
      rw [hparse] at h
      cases h
      rw [if_pos (hself terminator)]
      rfl
  | @expr tok toks toks' e positions rest hend hcomma hparse h ih =>
    rw [parseArgvLoop.eq_def]
    simp only [hend, hcomma, Bool.false_eq_true, if_false]
    split
    case h_1 h => rw [hparse] at h; cases h
    case h_2 h => rw [hparse] at h; cases h
    case h_3 hp =>
      rw [hparse] at hp
      cases hp
      rw [hother, if_neg Bool.false_ne_true, if_pos (hself ','), ih, listed_cons _ h.ne_nil,
        endsEmpty_cons _ h.ne_nil]
      rfl

/-- Each position puts one argument somewhere. -/
theorem foldl_step_length (kind : FunKind) (s : Argv ε) (positions : List (Option ε)) :
  (positions.foldl (Argv.step kind) s).argv.length
      + (positions.foldl (Argv.step kind) s).varArgs.length
    = s.argv.length + s.varArgs.length + positions.length
  := by
  induction positions generalizing s with
  | nil => rfl
  | cons position positions ih =>
    have hadvance : s.advance.argv = s.argv ∧ s.advance.varArgs = s.varArgs := by
      simp only [Argv.advance]
      split <;> exact ⟨rfl, rfl⟩
    have hstep : (s.step kind position).argv.length + (s.step kind position).varArgs.length
        = s.argv.length + s.varArgs.length + 1 := by
      cases position with
      | none =>
        simp only [Argv.step, Argv.skip, hadvance, List.length_append, List.length_singleton]
        omega
      | some e =>
        simp only [Argv.step, Argv.push]
        split <;> simp only [hadvance, List.length_append, List.length_singleton] <;> omega
    rw [List.foldl_cons, ih, hstep, List.length_cons]
    omega

/-- What the loop puts at the position of a fixed parameter. -/
def entry (param : Param ε) : Option ε → Option (Arg ε)
  | some e => some (.expr e)
  | none => some (param.default.elim .placeHolder .expr)

/-- The loop at the position of a fixed parameter. -/
theorem step_fixed (kind : FunKind) {s : Argv ε} {param : Param ε} {left : List (Param ε)}
    (hleft : s.left = param :: left) (hparam : param.isVarArgs = false) (position : Option ε) :
  s.step kind position = ⟨some param, left, s.argv ++ [entry param position], s.varArgs⟩
  := by
  have hadvance : s.advance = ⟨some param, left, s.argv, s.varArgs⟩ := by
    rw [Argv.advance, hleft]
  cases position with
  | none =>
    rw [Argv.step, hadvance, Argv.skip, entry]
    cases hd : param.default <;> simp [hd]
  | some e => simp [Argv.step, hadvance, Argv.push, entry, hparam]

/-- The loop over the positions of fixed parameters. -/
theorem foldl_step_fixed (kind : FunKind) {fixed : List (Param ε)}
    (hfixed : ∀ param ∈ fixed, param.isVarArgs = false) (left : List (Param ε)) {s : Argv ε}
    (hs : s.left = fixed ++ left) (hparam : s.param.any Param.isVarArgs = false)
    (positions : List (Option ε)) :
  ∃ param, param.any Param.isVarArgs = false ∧
    positions.foldl (Argv.step kind) s
      = (positions.drop fixed.length).foldl (Argv.step kind)
          ⟨param, fixed.drop positions.length ++ left,
            s.argv ++ List.zipWith entry fixed positions, s.varArgs⟩
  := by
  induction fixed generalizing s positions with
  | nil =>
    use s.param, hparam
    rw [List.zipWith_nil_left, List.append_nil, List.drop_nil, ← hs]
    rfl
  | cons param fixed ih =>
    cases positions with
    | nil =>
      use s.param, hparam
      simp [← hs]
    | cons position positions =>
      have hp := hfixed param List.mem_cons_self
      have hstep := step_fixed kind (hs.trans List.cons_append) hp position
      obtain ⟨param', hparam', hfold⟩ := ih (fun p hp => hfixed p (List.mem_cons_of_mem _ hp))
        (s := s.step kind position) (by rw [hstep]) (by rw [hstep]; simpa using hp) positions
      use param', hparam'
      rw [List.foldl_cons, hfold, hstep]
      simp

/-- What the loop puts in the vector at a position for variable arguments. -/
def inArgv (kind : FunKind) : Option ε → List (Option (Arg ε))
  | none => [some .placeHolder]
  | some e => if kind = .externFunc then [some (.expr e)] else []

/-- What the loop keeps for the end of the vector at a position for variable arguments. -/
def inVarArgs (kind : FunKind) : Option ε → List (Option (Arg ε))
  | none => []
  | some e => if kind = .externFunc then [] else [some (.expr e)]

/-- The loop over the positions of variable arguments. -/
theorem foldl_step_varArgs (kind : FunKind) {s : Argv ε}
    (hs : s.advance.param = some .varArgs ∧ s.advance.left = []) (positions : List (Option ε)) :
  (positions.foldl (Argv.step kind) s).argv = s.argv ++ positions.flatMap (inArgv kind) ∧
    (positions.foldl (Argv.step kind) s).varArgs
      = s.varArgs ++ positions.flatMap (inVarArgs kind)
  := by
  induction positions generalizing s with
  | nil => simp
  | cons position positions ih =>
    have hadvance : s.advance.argv = s.argv ∧ s.advance.varArgs = s.varArgs := by
      simp only [Argv.advance]
      split <;> exact ⟨rfl, rfl⟩
    have hstep : s.step kind position
        = ⟨some .varArgs, [], s.argv ++ inArgv kind position, s.varArgs ++ inVarArgs kind position⟩
        := by
      have hs' : s.advance = ⟨some .varArgs, [], s.argv, s.varArgs⟩ := by
        rw [← hs.1, ← hs.2, ← hadvance.1, ← hadvance.2]
      cases position with
      | none =>
        rw [Argv.step, hs']
        simp [Argv.skip, Param.default, inArgv, inVarArgs]
      | some e =>
        rw [Argv.step, hs']
        by_cases hextern : kind = .externFunc <;>
          simp [Argv.push, Param.isVarArgs, inArgv, inVarArgs, hextern]
    obtain ⟨hargv, hvar⟩ := ih (s := s.step kind position) (by rw [hstep]; exact ⟨rfl, rfl⟩)
    rw [List.foldl_cons, hargv, hvar, hstep]
    simp

/-- The loop beyond the last parameter, where there are no variable ones. -/
theorem foldl_step_beyond (kind : FunKind) {s : Argv ε} (hleft : s.left = [])
    (hparam : s.param.any Param.isVarArgs = false) (positions : List (Option ε)) :
  (positions.foldl (Argv.step kind) s).varArgs = s.varArgs
  := by
  induction positions generalizing s with
  | nil => rfl
  | cons position positions ih =>
    have hadvance : s.advance = s := by
      rw [Argv.advance, hleft]
    have hstep : (s.step kind position).left = s.left ∧ (s.step kind position).param = s.param ∧
        (s.step kind position).varArgs = s.varArgs := by
      cases position with
      | none =>
        rw [Argv.step, hadvance]
        exact ⟨rfl, rfl, rfl⟩
      | some e =>
        rw [Argv.step, hadvance]
        simp [Argv.push, hparam]
    rw [List.foldl_cons, ih (hstep.1.trans hleft) (by rw [hstep.2.1, hparam]), hstep.2.2]

end Polyc.CallArgs
