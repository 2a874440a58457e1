import Mathlib.Data.List.ReduceOption
import Polyc.Parser.CallArgsLoop

/-!
# Arguments line up with parameters

The check lets a mark through only where the next pass puts a default, so the arguments for the
fixed parameters are right.  What is wrong is at the end of the list: the terminator after an
empty position, and the number of the variable arguments.
-/

namespace Polyc.CallArgs

variable {τ ε : Type}

/-! ### The passes -/

/-- The arguments for the fixed parameters, from the first one on. -/
theorem fixedArgs_cons (typeOf : ε → Option AstType) (param : Param ε) (fixed : List (Param ε))
    (positions : List (Option ε)) :
  fixedArgs typeOf (param :: fixed) positions
    = coerceArg typeOf param.type (argument param positions.head?.join)
        :: fixedArgs typeOf fixed positions.tail
  := by
  rw [fixedArgs, List.mapIdx_cons]
  cases positions with
  | nil => rfl
  | cons position positions => rfl

/-- A position that passes the check has the argument for its parameter. -/
theorem entry_of_given {param : Param ε} {position : Option ε}
    (h : (isGiven (entry param position) || param.isDefault) = true) :
  isGiven (entry param position) = true ∧ entry param position = argument param position
  := by
  cases position with
  | some e => exact ⟨rfl, rfl⟩
  | none =>
    cases hd : param.default with
    | some e =>
      rw [entry, hd, argument, hd]
      exact ⟨rfl, rfl⟩
    | none =>
      rw [entry, hd] at h
      cases param with
      | defaultParam type declinit => cases hd
      | lvar | funptr | varArgs => cases h

/-- The check at a fixed parameter. -/
theorem checkFixed_cons {a d f i : Nat} {param : Param ε} {params : List (Param ε)}
    {argv : List (Option (Arg ε))} (hparam : param.isVarArgs = false)
    (h : checkFixed a d f i (param :: params) argv = .ok ()) :
  (isGiven argv.head?.join || param.isDefault) = true ∧
    checkFixed a d f (i + 1) params argv.tail = .ok ()
  := by
  rw [checkFixed, hparam, if_neg Bool.false_ne_true] at h
  split at h
  case isTrue hgiven => exact ⟨hgiven, h⟩
  case isFalse => split at h <;> cases h

/-- Variable arguments are only promoted. -/
theorem parseCoerceArgs_varArgs (typeOf : ε → Option AstType) (argv : List (Option (Arg ε))) :
  parseCoerceArgs typeOf [.varArgs] argv = argv.map (promoteArg typeOf)
  := by
  cases argv with
  | nil => simp [parseCoerceArgs]
  | cons arg argv => simp [parseCoerceArgs]

/-- A vector that passes the check has the arguments for the fixed parameters after the
defaults and the conversions. -/
theorem passes_eq (typeOf : ε → Option AstType) {fixed left : List (Param ε)}
    (hleft : left = [] ∨ left = [.varArgs]) {positions : List (Option ε)}
    {tail : List (Option (Arg ε))} (htail : fixed.length ≤ positions.length ∨ tail = [])
    (hfixed : ∀ param ∈ fixed, param.isVarArgs = false) {a d f i : Nat}
    (hcheck : checkFixed a d f i (fixed ++ left) (List.zipWith entry fixed positions ++ tail)
      = .ok ()) :
  parseCoerceArgs typeOf (fixed ++ left)
      (parseFlattenDefaultArgs (fixed ++ left) (List.zipWith entry fixed positions ++ tail))
    = fixedArgs typeOf fixed positions ++ parseCoerceArgs typeOf left tail
  := by
  induction fixed generalizing positions i with
  | nil =>
    have hflatten : parseFlattenDefaultArgs left tail = tail := by
      rcases hleft with rfl | rfl
      · rw [parseFlattenDefaultArgs]
      · rw [parseFlattenDefaultArgs]
    rw [List.nil_append, List.zipWith_nil_left, List.nil_append, hflatten]
    rfl
  | cons param fixed ih =>
    have hparam := hfixed param List.mem_cons_self
    have hfixed' : ∀ param ∈ fixed, param.isVarArgs = false := fun param hmem =>
      hfixed param (List.mem_cons_of_mem _ hmem)
    obtain ⟨hgiven, hrest⟩ := checkFixed_cons hparam hcheck
    rw [fixedArgs_cons]
    cases positions with
    | nil =>
      obtain rfl : tail = [] := htail.resolve_left (Nat.not_succ_le_zero _)
      rw [List.zipWith_nil_right, List.append_nil] at hgiven hrest ⊢
      have hrest' : checkFixed a d f (i + 1) (fixed ++ left) (List.zipWith entry fixed [] ++ [])
          = .ok () := by
        rw [List.zipWith_nil_right]
        apply hrest
      have htailEq := ih (Or.inr rfl) hfixed' hrest'
      rw [List.zipWith_nil_right, List.append_nil] at htailEq
      cases param with
      | lvar type => cases hgiven
      | funptr type defaultFn => cases hgiven
      | varArgs => cases hparam
      | defaultParam type declinit =>
        rw [List.cons_append, parseFlattenDefaultArgs]
        · simp only [Param.default, parseCoerceArgs, htailEq]
          rfl
        · simp only [reduceCtorEq, false_implies]
    | cons position positions =>
      have htailEq := ih (htail.imp_left Nat.le_of_succ_le_succ) hfixed' hrest
      obtain ⟨hgiven, hentry⟩ := entry_of_given hgiven
      have hflatten : parseFlattenDefaultArgs (param :: (fixed ++ left))
            (entry param position :: (List.zipWith entry fixed positions ++ tail))
          = entry param position
            :: parseFlattenDefaultArgs (fixed ++ left)
              (List.zipWith entry fixed positions ++ tail) := by
        cases param with
        | varArgs => cases hparam
        | lvar | funptr | defaultParam =>
          rw [parseFlattenDefaultArgs]
          · simp only [hgiven]
          · simp only [reduceCtorEq, false_implies]
      have hcoerce (argv : List (Option (Arg ε))) :
          parseCoerceArgs typeOf (param :: (fixed ++ left)) (entry param position :: argv)
            = coerceArg typeOf param.type (entry param position)
              :: parseCoerceArgs typeOf (fixed ++ left) argv := by
        cases param with
        | varArgs => cases hparam
        | lvar | funptr | defaultParam =>
          rw [parseCoerceArgs]
          · simp only [reduceCtorEq, false_implies]
      rw [List.zipWith_cons_cons, List.cons_append, List.cons_append, hflatten, hcoerce, htailEq,
        hentry]
      rfl

/-! ### The vector -/

/-- What the loop and the merge put after the arguments for the fixed parameters. -/
def variableTail (kind : FunKind) (extras : List (Option ε)) : List (Option (Arg ε)) :=
  extras.flatMap (inArgv kind) ++
    if (extras.flatMap (inVarArgs kind)).isEmpty then []
    else some (.i64 (extras.flatMap (inVarArgs kind)).length) :: extras.flatMap (inVarArgs kind)

/-- The vector for a function with variable arguments. -/
theorem merge_variadic (kind : FunKind) {fixed : List (Param ε)}
    (hfixed : ∀ param ∈ fixed, param.isVarArgs = false) (positions : List (Option ε)) :
  (positions.foldl (Argv.step kind) ⟨none, paramList fixed true, [], []⟩).merge
    = List.zipWith entry fixed positions ++ variableTail kind (positions.drop fixed.length)
  := by
  obtain ⟨param, hparam, hfold⟩ :=
    foldl_step_fixed kind hfixed [.varArgs] (s := ⟨none, paramList fixed true, [], []⟩) rfl rfl
      positions
  dsimp only at hfold
  rw [List.nil_append] at hfold
  rw [hfold]
  by_cases hle : positions.length ≤ fixed.length
  · rw [List.drop_eq_nil_of_le hle]
    simp [Argv.merge, variableTail]
  · obtain ⟨hargv, hvar⟩ := foldl_step_varArgs kind
      (s := ⟨param, fixed.drop positions.length ++ [.varArgs],
        List.zipWith entry fixed positions, []⟩)
      (by
        rw [List.drop_eq_nil_of_le (Nat.le_of_not_le hle)]
        exact ⟨rfl, rfl⟩)
      (positions.drop fixed.length)
    rw [List.nil_append] at hvar
    rw [Argv.merge, hargv, hvar, variableTail]
    split <;> simp

/-- The vector for a function without variable arguments. -/
theorem merge_fixed (kind : FunKind) {fixed : List (Param ε)}
    (hfixed : ∀ param ∈ fixed, param.isVarArgs = false) (positions : List (Option ε)) :
  (positions.foldl (Argv.step kind) ⟨none, paramList fixed false, [], []⟩).merge.length
      = positions.length ∧
    (positions.length ≤ fixed.length →
      (positions.foldl (Argv.step kind) ⟨none, paramList fixed false, [], []⟩).merge
        = List.zipWith entry fixed positions)
  := by
  obtain ⟨param, hparam, hfold⟩ :=
    foldl_step_fixed kind hfixed [] (s := ⟨none, paramList fixed false, [], []⟩) rfl rfl positions
  have hlen := foldl_step_length kind ⟨none, paramList fixed false, [], []⟩ positions
  have hvar : (positions.foldl (Argv.step kind) ⟨none, paramList fixed false, [], []⟩).varArgs = []
      := by
    rw [hfold]
    by_cases hle : positions.length ≤ fixed.length
    · rw [List.drop_eq_nil_of_le hle]
      rfl
    · apply foldl_step_beyond kind _ hparam
      rw [List.drop_eq_nil_of_le (Nat.le_of_not_le hle)]
      rfl
  constructor
  · rw [Argv.merge, hvar]
    rw [hvar] at hlen
    simpa using hlen
  · intro hle
    rw [Argv.merge, hvar, hfold, List.drop_eq_nil_of_le hle]
    simp

/-- The vector is empty only where no position is collected. -/
theorem merge_isEmpty (kind : FunKind) (params : List (Param ε)) (positions : List (Option ε)) :
  (positions.foldl (Argv.step kind) ⟨none, params, [], []⟩).merge.isEmpty = positions.isEmpty
  := by
  have hlen := foldl_step_length kind ⟨none, params, [], []⟩ positions
  generalize positions.foldl (Argv.step kind) ⟨none, params, [], []⟩ = s at *
  rw [Bool.eq_iff_iff, List.isEmpty_iff_length_eq_zero, List.isEmpty_iff_length_eq_zero, Argv.merge]
  simp only [List.length_nil, Nat.zero_add] at hlen
  split
  case isTrue h =>
    rw [List.isEmpty_iff_length_eq_zero] at h
    omega
  case isFalse h =>
    rw [List.isEmpty_iff_length_eq_zero] at h
    rw [List.length_append, List.length_cons]
    omega

/-- `parseArgv` on a written list. -/
theorem parseArgv_written {parser : ExprParser τ ε} {callee : Callee ε} {terminator : Char}
    (hterm : terminator ≠ ',') {toks rest : List (Token τ)} {positions : List (Option ε)}
    (h : Written parser terminator toks positions rest) :
  parseArgv parser callee terminator toks
    = .ok (((listed positions).foldl (Argv.step callee.kind) ⟨none, callee.params, [], []⟩).merge,
        if endsEmpty positions && !(listed positions).isEmpty then .punct terminator :: rest
        else rest)
  := by
  rw [parseArgv, parseArgvLoop_written hterm h]
  simp only [bind, Except.bind, pure, Except.pure, merge_isEmpty]
  cases hend : endsEmpty positions with
  | true => cases (listed positions).isEmpty <;> rfl
  | false =>
    have hne : (listed positions).isEmpty = false := by
      rw [listed, hend]
      simpa using h.ne_nil
    rw [hne]
    rfl

/-- What a call that is made says of the passes. -/
theorem parseFunctionArguments_ok {parser : ExprParser τ ε} {typeOf : ε → Option AstType}
    {callee : Callee ε} {terminator : Char} {toks left left' : List (Token τ)}
    {argv argv' : List (Option (Arg ε))}
    (hargv : parseArgv parser callee terminator toks = .ok (argv, left))
    (hcall : parseFunctionArguments parser typeOf callee terminator toks = .ok (argv', left')) :
  left' = left ∧ parseFunctionArgumentCheck callee.params argv = .ok () ∧
    argv' = if callee.isInlineAsm then []
      else parseCoerceArgs typeOf callee.params (parseFlattenDefaultArgs callee.params argv)
  := by
  rw [parseFunctionArguments, hargv] at hcall
  simp only [bind, Except.bind, pure, Except.pure] at hcall
  split at hcall
  case h_1 => cases hcall
  case h_2 hcheck =>
    split at hcall
    case isTrue hasm =>
      cases hcall
      rw [if_pos hasm]
      exact ⟨rfl, hcheck, rfl⟩
    case isFalse hasm =>
      split at hcall
      · cases hcall
      · cases hcall
        rw [if_neg hasm]
        exact ⟨rfl, hcheck, rfl⟩

/-- What the check says of the vector. -/
theorem parseFunctionArgumentCheck_ok {fixed : List (Param ε)} {variadic : Bool}
    (hfixed : ∀ param ∈ fixed, param.isVarArgs = false) {argv : List (Option (Arg ε))}
    (hcheck : parseFunctionArgumentCheck (paramList fixed variadic) argv = .ok ()) :
  (∃ d, checkFixed argv.length d fixed.length 0 (paramList fixed variadic) argv = .ok ()) ∧
    (variadic = false → argv.length ≤ fixed.length)
  := by
  have htake : (paramList fixed variadic).takeWhile (fun param => !param.isVarArgs) = fixed := by
    rw [paramList, List.takeWhile_append_of_pos]
    · cases variadic <;> simp [Param.isVarArgs]
    · intro param hmem
      rw [hfixed param hmem]
      rfl
  simp only [parseFunctionArgumentCheck, htake, bind, Except.bind, pure, Except.pure] at hcheck
  split at hcheck
  case h_1 => cases hcheck
  case h_2 hloop =>
    constructor
    · exact ⟨_, hloop⟩
    · rintro rfl
      have hlen : (paramList fixed false).length = fixed.length := by
        rw [paramList, if_neg Bool.false_ne_true, List.append_nil]
      rw [hlen] at hcheck
      by_contra hlt
      rw [if_neg (not_not_intro rfl), if_pos (Nat.lt_of_not_le hlt)] at hcheck
      split at hcheck <;> cases hcheck

/-! ### Variable arguments -/

/-- The variable arguments that are written are kept for the end. -/
theorem flatMap_inVarArgs {kind : FunKind} (hkind : kind ≠ .externFunc) (extras : List (Option ε)) :
  extras.flatMap (inVarArgs kind) = extras.reduceOption.map fun e => some (.expr e)
  := by
  induction extras with
  | nil => rfl
  | cons extra extras ih =>
    cases extra with
    | none => rw [List.flatMap_cons, ih, List.reduceOption_cons_of_none, inVarArgs, List.nil_append]
    | some e =>
      rw [List.flatMap_cons, ih, List.reduceOption_cons_of_some, inVarArgs, if_neg hkind]
      rfl

/-- The marks of positions that are skipped. -/
theorem flatMap_inArgv {kind : FunKind} (hkind : kind ≠ .externFunc) (extras : List (Option ε)) :
  extras.flatMap (inArgv kind)
    = List.replicate (extras.countP Option.isNone) (some .placeHolder)
  := by
  induction extras with
  | nil => rfl
  | cons extra extras ih =>
    cases extra with
    | none =>
      rw [List.flatMap_cons, ih, List.countP_cons_of_pos rfl, List.replicate_succ]
      rfl
    | some e =>
      rw [List.flatMap_cons, ih, List.countP_cons_of_neg Bool.false_ne_true, inArgv, if_neg hkind,
        List.nil_append]

/-- The number and the variable arguments come after the fixed ones exactly when there are some
and none is skipped. -/
theorem variableTail_iff (typeOf : ε → Option AstType) {kind : FunKind}
    (hkind : kind ≠ .externFunc) (extras : List (Option ε)) :
  (variableTail kind extras).map (promoteArg typeOf)
      = some (.i64 extras.reduceOption.length)
        :: extras.reduceOption.map (fun e => promoteArg typeOf (some (.expr e)))
    ↔ extras ≠ [] ∧ none ∉ extras
  := by
  have hcount : none ∉ extras ↔ extras.countP Option.isNone = 0 := by
    rw [List.countP_eq_zero]
    constructor
    · intro h extra hmem hnone
      rw [Option.isNone_iff_eq_none] at hnone
      apply h (hnone ▸ hmem)
    · intro h hmem
      apply h none hmem rfl
  have hnumber (n : Nat) : promoteArg typeOf (some (.i64 n)) = some (.i64 n) := rfl
  rw [variableTail, flatMap_inVarArgs hkind, flatMap_inArgv hkind, hcount, List.map_append,
    List.map_replicate]
  cases hwritten : extras.reduceOption with
  | nil =>
    have hnot : ¬ (extras ≠ [] ∧ extras.countP Option.isNone = 0) := by
      rintro ⟨hne, hzero⟩
      cases extras with
      | nil => apply hne rfl
      | cons extra extras =>
        cases extra with
        | none =>
          rw [List.countP_cons_of_pos rfl] at hzero
          cases hzero
        | some e =>
          rw [List.reduceOption_cons_of_some] at hwritten
          cases hwritten
    simp only [hnot, iff_false]
    intro h
    rw [List.map_nil, List.isEmpty_nil, if_pos rfl, List.map_nil, List.append_nil] at h
    cases hn : extras.countP Option.isNone with
    | zero =>
      rw [hn] at h
      cases h
    | succ n =>
      rw [hn, List.replicate_succ] at h
      cases h
  | cons e written =>
    have hne : extras ≠ [] := by
      rintro rfl
      cases hwritten
    rw [and_iff_right hne]
    constructor
    · intro h
      have hlen := congrArg List.length h
      simp only [List.map_cons, List.isEmpty_cons, Bool.false_eq_true, if_false,
        List.length_append, List.length_replicate, List.length_cons, List.length_map] at hlen
      omega
    · intro h
      rw [h]
      simp [hnumber]

/-! ### Calls -/

/-- The vector of a call that passes the check. -/
theorem passes_merge (typeOf : ε → Option AstType) {kind : FunKind} {fixed : List (Param ε)}
    {variadic : Bool} (hfixed : ∀ param ∈ fixed, param.isVarArgs = false)
    {positions : List (Option ε)} {argv : List (Option (Arg ε))}
    (hargv : argv
      = (positions.foldl (Argv.step kind) ⟨none, paramList fixed variadic, [], []⟩).merge)
    (hcheck : parseFunctionArgumentCheck (paramList fixed variadic) argv = .ok ()) :
  parseCoerceArgs typeOf (paramList fixed variadic)
      (parseFlattenDefaultArgs (paramList fixed variadic) argv)
    = fixedArgs typeOf fixed positions ++
        if variadic then
          (variableTail kind (positions.drop fixed.length)).map (promoteArg typeOf)
        else []
  := by
  obtain ⟨⟨d, hloop⟩, hlen⟩ := parseFunctionArgumentCheck_ok hfixed hcheck
  cases variadic with
  | true =>
    rw [merge_variadic kind hfixed] at hargv
    have htail : fixed.length ≤ positions.length ∨
        variableTail kind (positions.drop fixed.length) = [] := by
      by_cases hle : fixed.length ≤ positions.length
      · left
        apply hle
      · right
        rw [List.drop_eq_nil_of_le (Nat.le_of_not_le hle)]
        rfl
    generalize argv.length = n at hloop
    rw [hargv] at hloop ⊢
    rw [paramList, if_pos rfl] at hloop ⊢
    rw [passes_eq typeOf (Or.inr rfl) htail hfixed hloop, if_pos rfl, parseCoerceArgs_varArgs]
  | false =>
    obtain ⟨hmerge, hzip⟩ := merge_fixed kind hfixed positions
    have hle := hlen rfl
    rw [hargv, hmerge] at hle
    rw [hzip hle] at hargv
    generalize argv.length = n at hloop
    rw [hargv, ← List.append_nil (List.zipWith entry fixed positions)] at hloop ⊢
    rw [paramList, if_neg Bool.false_ne_true] at hloop ⊢
    rw [passes_eq typeOf (Or.inl rfl) (Or.inr rfl) hfixed hloop, if_neg Bool.false_ne_true]
    rfl

/-- The variable positions that are collected are those that are written, but for the only one of
an empty list. -/
theorem listed_drop {positions : List (Option ε)} (hne : positions ≠ [])
    (h : endsEmpty positions = true → positions.length = 1) (n : Nat) :
  ((listed positions).drop n).reduceOption = (positions.drop n).reduceOption ∧
    ((listed positions).drop n ≠ [] ∧ none ∉ (listed positions).drop n
      ↔ positions.drop n ≠ [] ∧ none ∉ positions.drop n)
  := by
  cases hend : endsEmpty positions with
  | false =>
    rw [listed, hend, if_neg Bool.false_ne_true]
    exact ⟨rfl, Iff.rfl⟩
  | true =>
    obtain ⟨position, rfl⟩ := List.length_eq_one_iff.1 (h hend)
    cases position with
    | some e => cases hend
    | none =>
      rw [listed, hend]
      cases n with
      | zero =>
        constructor
        · rfl
        · simp
      | succ n => simp

/-- The arguments of a call line up with its parameters exactly when the list is one of those
whose arguments do: in the others the terminator is left after an empty position, the number of no
variable arguments is not passed, a variable position that is skipped comes before the number, or
the arguments of inline assembly are dropped. -/
theorem linesUp_iff (parser : ExprParser τ ε) (typeOf : ε → Option AstType) (kind : FunKind)
    (isInline : Bool) {fixed : List (Param ε)} (variadic : Bool)
    (hfixed : ∀ param ∈ fixed, param.isVarArgs = false) {terminator : Char}
    (hterm : terminator ≠ ',') {toks rest left : List (Token τ)} {positions : List (Option ε)}
    (hwritten : Written parser terminator toks positions rest) {argv : List (Option (Arg ε))}
    (hcall : parseFunctionArguments parser typeOf ⟨kind, paramList fixed variadic, isInline⟩
      terminator toks = .ok (argv, left)) :
  LinesUp typeOf kind fixed variadic positions rest argv left
    ↔ Listed ⟨kind, paramList fixed variadic, isInline⟩ fixed variadic positions
  := by
  obtain ⟨hleft, hcheck, hargv⟩ := parseFunctionArguments_ok (parseArgv_written hterm hwritten) hcall
  have hpasses := passes_merge typeOf hfixed rfl hcheck
  have hfixedArgs : fixedArgs typeOf fixed (listed positions) = fixedArgs typeOf fixed positions
      := by
    simp only [fixedArgs, listed_getElem?_join]
  dsimp only at hpasses
  rw [hpasses, hfixedArgs] at hargv
  by_cases hend : endsEmpty positions = true → positions.length = 1
  · have hrest : left = rest := by
      rw [hleft]
      split
      case isFalse => rfl
      case isTrue h =>
        rw [Bool.and_eq_true, Bool.not_eq_true'] at h
        obtain ⟨position, rfl⟩ := List.length_eq_one_iff.1 (hend h.1)
        cases position with
        | none => cases h.2
        | some e => cases h.1
    obtain ⟨hreduce, hdrop⟩ := listed_drop hwritten.ne_nil hend fixed.length
    rw [LinesUp, and_iff_right hrest, Listed, and_iff_right hend]
    cases hasm : Callee.isInlineAsm ⟨kind, paramList fixed variadic, isInline⟩ with
    | true =>
      have hkind : kind ≠ .externFunc := by
        rintro rfl
        cases isInline <;> cases hasm
      rw [hasm, if_pos rfl] at hargv
      cases variadic with
      | true => simp [hargv, hkind]
      | false =>
        cases fixed with
        | nil => simp [hargv, fixedArgs]
        | cons param fixed => simp [hargv, fixedArgs_cons]
    | false =>
      rw [hasm, if_neg Bool.false_ne_true] at hargv
      cases variadic with
      | false => simp [hargv]
      | true =>
        by_cases hkind : kind = .externFunc
        · simp [hargv, hkind]
        · rw [if_pos rfl] at hargv
          rw [if_pos rfl, if_neg hkind, hargv, List.append_cancel_left_eq, ← hreduce,
            variableTail_iff typeOf hkind, hdrop]
          simp [hkind]
  · obtain ⟨hend, hlen⟩ := Classical.not_imp.1 hend
    have hcollected : (listed positions).isEmpty = false := by
      rw [listed, hend, if_pos rfl]
      rcases positions with _ | ⟨position, _ | ⟨position', positions⟩⟩
      · cases hend
      · cases hlen rfl
      · rfl
    rw [hend, hcollected] at hleft
    constructor
    · rintro ⟨hrest, -⟩
      rw [hrest] at hleft
      cases (List.cons_ne_self _ _).symm hleft
    · rintro ⟨h, -⟩
      cases hlen (h hend)

/-- A parser whose expressions are single tokens. -/
def tokenParser : ExprParser Nat Nat where
  parseExpr
    | .other t :: toks => some (some t, toks)
    | toks => some (none, toks)
  length_le h := by
    split at h <;> cases h <;> simp

/-- The call `f(1,,3)` of a function with parameters `I64 a, I64 b=2, ...`. -/
theorem linesUp_three :
  LinesUp (τ := Nat) (fun _ => some (.scalar .int 8 0)) .func
      [.lvar (some (.scalar .int 8 0)), .defaultParam (some (.scalar .int 8 0)) 2] true
      [some 1, none, some 3] []
      [some (.expr 1), some (.expr 2), some (.i64 1), some (.expr 3)] []
    ↔ Listed ⟨.func, paramList
        [.lvar (some (.scalar .int 8 0)), .defaultParam (some (.scalar .int 8 0)) 2] true, false⟩
        [.lvar (some (.scalar .int 8 0)), .defaultParam (some (.scalar .int 8 0)) 2] true
        [some 1, none, some 3]
  := by
  have hwritten : Written tokenParser ')'
      [.other 1, .punct ',', .punct ',', .other 3, .punct ')'] [some 1, none, some 3] [] := by
    apply Written.expr rfl rfl rfl
    apply Written.skip
    apply Written.lastExpr [] rfl rfl rfl
  apply linesUp_iff tokenParser _ .func false true (by simp [Param.isVarArgs]) (by decide) hwritten
  rw [parseFunctionArguments, parseArgv_written (by decide) hwritten]
  rfl

/-- The call `f(1,)` of a function with parameters `I64 a, I64 b=2` leaves the closing
parenthesis. -/
theorem not_linesUp :
  ¬ ∀ (parser : ExprParser Nat Nat) (typeOf : Nat → Option AstType) (kind : FunKind)
    (isInline : Bool) (fixed : List (Param Nat)) (variadic : Bool) (terminator : Char)
    (toks rest left : List (Token Nat)) (positions : List (Option Nat))
    (argv : List (Option (Arg Nat))),
    (∀ param ∈ fixed, param.isVarArgs = false) → terminator ≠ ',' →
    Written parser terminator toks positions rest →
    parseFunctionArguments parser typeOf ⟨kind, paramList fixed variadic, isInline⟩
      terminator toks = .ok (argv, left) →
    LinesUp typeOf kind fixed variadic positions rest argv left
  := by
  intro h
  have hwritten : Written tokenParser ')' [.other 1, .punct ',', .punct ')'] [some 1, none] [] := by
    apply Written.expr rfl rfl rfl
    apply Written.last
  have hlines := h tokenParser (fun _ => some (.scalar .int 8 0)) .func false
    [.lvar (some (.scalar .int 8 0)), .defaultParam (some (.scalar .int 8 0)) 2] false ')'
    [.other 1, .punct ',', .punct ')'] [] [.punct ')'] [some 1, none]
    [some (.expr 1), some (.expr 2)] (by simp [Param.isVarArgs]) (by decide) hwritten (by
      rw [parseFunctionArguments, parseArgv_written (by decide) hwritten]
      rfl)
  cases hlines.1

end Polyc.CallArgs
