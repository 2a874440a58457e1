import Polyc.Ast.Types

/-!
# Arguments of calls

The passes that make the argument vector of a call: the loop that collects what is written, the
check against the parameters, the defaults that are filled in and the conversions.  The parser of
expressions is a parameter, and an expression is whatever it yields; there is no `NULL` in the
vector but where it yields none.  The check of format strings is left out.
-/

namespace Polyc.CallArgs

variable {τ ε : Type}

/-! ### Tokens -/

/-- A token: punctuation, or another one. -/
inductive Token (τ : Type) where
  | punct (ch : Char)
  | other (t : τ)

/-- `tokenPunctIs`. -/
def tokenPunctIs (tok : Token τ) (ch : Char) : Bool :=
  match tok with
  | .punct ch' => ch' = ch
  | .other _ => false

/-- A parser of expressions: the expression that it reads, if it returns one, and the tokens that
are left.  It has no result where it raises an exception, and it only takes tokens. -/
structure ExprParser (τ ε : Type) where
  parseExpr : List (Token τ) → Option (Option ε × List (Token τ))
  length_le : ∀ {toks e rest}, parseExpr toks = some (e, rest) → rest.length ≤ toks.length

/-! ### Parameters and arguments -/

/-- A parameter, with its type and its default. -/
inductive Param (ε : Type) where
  | lvar (type : Option AstType)
  | defaultParam (type : Option AstType) (declinit : ε)
  | funptr (type : Option AstType) (defaultFn : Option ε)
  | varArgs

/-- An argument: an expression, the mark of a position that is skipped, a number, or a
conversion. -/
inductive Arg (ε : Type) where
  | expr (e : ε)
  | placeHolder
  | i64 (n : Nat)
  | cast (arg : Arg ε) (type : AstType)

/-- The kinds of functions that are called. -/
inductive FunKind where
  | lvar | funptr | asmFuncdef | asmFuncBind | externFunc | func | funProto
  deriving DecidableEq

/-- A function that is called: its kind, its parameters and whether it is inline. -/
structure Callee (ε : Type) where
  kind : FunKind
  params : List (Param ε)
  isInline : Bool

/-- The reasons for which a call is refused, with the numbers in their texts. -/
inductive Error where
  | expression
  | endOfInput
  | notTerminated
  | required (argCount i : Nat)
  | expected (argCount fixedParamCount : Nat)
  | atLeast (argCount requiredCount : Nat)
  | range (argCount requiredCount fixedParamCount : Nat)
  | notInlined
  deriving DecidableEq

/-- A parameter of kind `AST_VAR_ARGS`. -/
def Param.isVarArgs : Param ε → Bool
  | varArgs => true
  | _ => false

/-- A parameter of kind `AST_DEFAULT_PARAM`. -/
def Param.isDefault : Param ε → Bool
  | defaultParam _ _ => true
  | _ => false

/-- The default of a parameter. -/
def Param.default : Param ε → Option ε
  | defaultParam _ declinit => some declinit
  | funptr _ defaultFn => defaultFn
  | _ => none

/-- The type of a parameter. -/
def Param.type : Param ε → Option AstType
  | lvar type | defaultParam type _ | funptr type _ => type
  | varArgs => none

/-- The type of an argument. -/
def Arg.type (typeOf : ε → Option AstType) : Arg ε → Option AstType
  | expr e => typeOf e
  | placeHolder => some (.scalar .void 0 0)
  | i64 _ => some (.scalar .int 8 0)
  | cast _ type => some type

/-- A position of the vector that has an argument. -/
def isGiven : Option (Arg ε) → Bool
  | none | some .placeHolder => false
  | _ => true

/-! ### Collecting -/

/-- The variables of `parseArgv`: the parameter of the position, the parameters after it,
`argv_vec` and `var_args`. -/
structure Argv (ε : Type) where
  param : Option (Param ε)
  left : List (Param ε)
  argv : List (Option (Arg ε))
  varArgs : List (Option (Arg ε))

/-- The parameter of the next position, which stays at the last one. -/
def Argv.advance (s : Argv ε) : Argv ε :=
  match s.left with
  | [] => s
  | param :: left => { s with param := some param, left := left }

/-- A position that is skipped. -/
def Argv.skip (s : Argv ε) : Argv ε :=
  let ast :=
    match s.param.bind Param.default with
    | some declinit => .expr declinit
    | none => .placeHolder
  { s with argv := s.argv ++ [some ast] }

/-- A position with what the parser of expressions returns. -/
def Argv.push (kind : FunKind) (s : Argv ε) (e : Option ε) : Argv ε :=
  let ast :=
    match e, s.param with
    | none, some (.defaultParam _ declinit) => some (.expr declinit)
    | e, _ => e.map .expr
  if s.param.any Param.isVarArgs && kind ≠ .externFunc then
    { s with varArgs := s.varArgs ++ [ast] }
  else { s with argv := s.argv ++ [ast] }

/-- The loop of `parseArgv`: its variables and the tokens that are left when it ends. -/
def parseArgvLoop (parser : ExprParser τ ε) (kind : FunKind) (terminator : Char) (s : Argv ε)
    (toks : List (Token τ)) : Except Error (Argv ε × List (Token τ)) :=
  match toks with
  | [] => .ok (s, [])
  | tok :: rest =>
    if tokenPunctIs tok terminator then .ok (s, tok :: rest)
    else if tokenPunctIs tok ',' then
      parseArgvLoop parser kind terminator s.advance.skip rest
    else
      match _ : parser.parseExpr (tok :: rest) with
      | none => .error .expression
      | some (_, []) => .error .endOfInput
      | some (e, tok :: rest) =>
        if tokenPunctIs tok terminator then .ok (s.advance.push kind e, rest)
        else if tokenPunctIs tok ',' then
          parseArgvLoop parser kind terminator (s.advance.push kind e) rest
        else .error .notTerminated
  termination_by toks.length
  decreasing_by
  · apply Nat.lt_succ_self
  · rename_i hparse _ _
    apply parser.length_le hparse

/-- The vector at the end of `parseArgv`: the number of variable arguments and these come last. -/
def Argv.merge (s : Argv ε) : List (Option (Arg ε)) :=
  if s.varArgs.isEmpty then s.argv
  else s.argv ++ some (.i64 s.varArgs.length) :: s.varArgs

/-- `parseArgv` after the opening parenthesis. -/
def parseArgv (parser : ExprParser τ ε) (callee : Callee ε) (terminator : Char)
    (toks : List (Token τ)) : Except Error (List (Option (Arg ε)) × List (Token τ)) := do
  let (s, toks) ← parseArgvLoop parser callee.kind terminator ⟨none, callee.params, [], []⟩ toks
  let argv := s.merge
  return (argv, if argv.isEmpty then toks.tail else toks)

/-! ### The check -/

/-- The loop of `parseFunctionArgumentCheck` over the parameters before the variable ones, from
position `i` on. -/
def checkFixed (argCount defaultCount fixedParamCount : Nat) :
    Nat → List (Param ε) → List (Option (Arg ε)) → Except Error Unit
  | _, [], _ => .ok ()
  | i, param :: params, argv =>
    if param.isVarArgs then .ok ()
    else if isGiven argv.head?.join || param.isDefault then
      checkFixed argCount defaultCount fixedParamCount (i + 1) params argv.tail
    else if defaultCount ≠ 0 then .error (.required argCount (i + 1))
    else .error (.expected argCount fixedParamCount)

/-- `parseFunctionArgumentCheck`. -/
def parseFunctionArgumentCheck (params : List (Param ε)) (argv : List (Option (Arg ε))) :
    Except Error Unit := do
  let fixed := params.takeWhile fun param => !param.isVarArgs
  let defaultCount := fixed.countP Param.isDefault
  let requiredCount := fixed.countP fun param => !param.isDefault
  checkFixed argv.length defaultCount fixed.length 0 params argv
  if fixed.length ≠ params.length then
    if argv.length < requiredCount then throw (.atLeast argv.length requiredCount)
  else if fixed.length < argv.length then
    if defaultCount ≠ 0 then throw (.range argv.length requiredCount fixed.length)
    else throw (.expected argv.length fixed.length)

/-! ### Defaults and conversions -/

/-- `parseFlattenDefaultArgs`, from a position of the vector on. -/
def parseFlattenDefaultArgs : List (Param ε) → List (Option (Arg ε)) → List (Option (Arg ε))
  | [], argv => argv
  | .varArgs :: _, argv => argv
  | param :: params, [] =>
    match param.default with
    | some declinit => some (.expr declinit) :: parseFlattenDefaultArgs params []
    | none => parseFlattenDefaultArgs params []
  | param :: params, cur :: argv =>
    (match isGiven cur, param.default with
      | false, some declinit => some (.expr declinit)
      | _, _ => cur) :: parseFlattenDefaultArgs params argv

/-- `astIsFloatType`. -/
def astIsFloatType (type : AstType) : Bool := type.kind = .float

/-- `astIsIntType`. -/
def astIsIntType (type : AstType) : Bool := type.kind = .int || type.kind = .char

/-- A value of one type that is passed as another crosses the boundary between integers and
floats, or the width of floats. -/
def crosses (type argType : AstType) : Bool :=
  (astIsFloatType type && astIsIntType argType) || (astIsIntType type && astIsFloatType argType) ||
    (astIsFloatType type && astIsFloatType argType && type.size ≠ argType.size)

/-- The body of the loop of `parseCoerceArgs` at a parameter of type `type`. -/
def coerceArg (typeOf : ε → Option AstType) (type : Option AstType) :
    Option (Arg ε) → Option (Arg ε)
  | none => none
  | some .placeHolder => some .placeHolder
  | some arg =>
    match type, arg.type typeOf with
    | some type, some argType => some (if crosses type argType then .cast arg type else arg)
    | _, _ => some arg

/-- The body of the loop of `parsePromoteVarargFloats`. -/
def promoteArg (typeOf : ε → Option AstType) : Option (Arg ε) → Option (Arg ε)
  | none => none
  | some .placeHolder => some .placeHolder
  | some arg =>
    match arg.type typeOf with
    | some argType =>
      some (if astIsFloatType argType ∧ argType.size < 8 then .cast arg (.scalar .float 8 0)
        else arg)
    | none => some arg

/-- `parseCoerceArgs`, from a position of the vector on. -/
def parseCoerceArgs (typeOf : ε → Option AstType) :
    List (Param ε) → List (Option (Arg ε)) → List (Option (Arg ε))
  | [], argv => argv
  | _, [] => []
  | .varArgs :: _, argv => argv.map (promoteArg typeOf)
  | param :: params, arg :: argv =>
    coerceArg typeOf param.type arg :: parseCoerceArgs typeOf params argv

/-! ### The call -/

/-- Inline assembly, whose body is put in the place of the call. -/
def Callee.isInlineAsm (callee : Callee ε) : Bool :=
  callee.isInline && (callee.kind = .asmFuncBind || callee.kind = .asmFuncdef)

/-- `parseFunctionArguments` for a function that is known, outside of transpiling: the argument
vector of the call, or of the declarations that an inline function is replaced with, and the
tokens that are left. -/
def parseFunctionArguments (parser : ExprParser τ ε) (typeOf : ε → Option AstType)
    (callee : Callee ε) (terminator : Char) (toks : List (Token τ)) :
    Except Error (List (Option (Arg ε)) × List (Token τ)) := do
  let (argv, toks) ← parseArgv parser callee terminator toks
  parseFunctionArgumentCheck callee.params argv
  let argv := parseCoerceArgs typeOf callee.params (parseFlattenDefaultArgs callee.params argv)
  if callee.isInlineAsm then return ([], toks)
  else if callee.isInline ∧ callee.params.length ≠ argv.length then throw .notInlined
  else return (argv, toks)

/-! ### What the arguments are for -/

/-- An argument list as it is written: its positions up to the terminator, and the tokens after
it.  A position is empty, or an expression. -/
inductive Written (parser : ExprParser τ ε) (terminator : Char) :
    List (Token τ) → List (Option ε) → List (Token τ) → Prop
  | last (rest : List (Token τ)) :
    Written parser terminator (.punct terminator :: rest) [none] rest
  | skip {toks positions rest} (h : Written parser terminator toks positions rest) :
    Written parser terminator (.punct ',' :: toks) (none :: positions) rest
  | lastExpr {tok toks e} (rest : List (Token τ)) (hterm : tokenPunctIs tok terminator = false)
    (hcomma : tokenPunctIs tok ',' = false)
    (hparse : parser.parseExpr (tok :: toks) = some (some e, .punct terminator :: rest)) :
    Written parser terminator (tok :: toks) [some e] rest
  | expr {tok toks toks' e positions rest} (hterm : tokenPunctIs tok terminator = false)
    (hcomma : tokenPunctIs tok ',' = false)
    (hparse : parser.parseExpr (tok :: toks) = some (some e, .punct ',' :: toks'))
    (h : Written parser terminator toks' positions rest) :
    Written parser terminator (tok :: toks) (some e :: positions) rest

/-- The parameters of a function: fixed ones, and perhaps variable ones at the end. -/
def paramList (fixed : List (Param ε)) (variadic : Bool) : List (Param ε) :=
  fixed ++ if variadic then [.varArgs] else []

/-- The last position of a list is empty. -/
def endsEmpty (positions : List (Option ε)) : Bool := positions.getLast?.any Option.isNone

/-- The argument for a parameter: the one that is written, or the default. -/
def argument (param : Param ε) (position : Option ε) : Option (Arg ε) :=
  (position <|> param.default).map .expr

/-- The arguments for the fixed parameters: each is the one at its position, or the default where
there is none, converted to the type of the parameter. -/
def fixedArgs (typeOf : ε → Option AstType) (fixed : List (Param ε))
    (positions : List (Option ε)) : List (Option (Arg ε)) :=
  fixed.mapIdx fun i param => coerceArg typeOf param.type (argument param (positions[i]?).join)

/-- The arguments of a call line up with its parameters, the fixed ones and perhaps variable ones
at the end, and the tokens up to the terminator are taken. -/
def LinesUp (typeOf : ε → Option AstType) (kind : FunKind) (fixed : List (Param ε))
    (variadic : Bool) (positions : List (Option ε)) (rest : List (Token τ))
    (argv : List (Option (Arg ε))) (left : List (Token τ)) : Prop :=
  left = rest ∧
    if variadic then
      if kind = .externFunc then fixedArgs typeOf fixed positions <+: argv
      else
        argv = fixedArgs typeOf fixed positions ++
          some (.i64 (positions.drop fixed.length).reduceOption.length) ::
            (positions.drop fixed.length).reduceOption.map fun e =>
              promoteArg typeOf (some (.expr e))
    else argv = fixedArgs typeOf fixed positions

/-- The lists whose arguments line up: no position but an only one is empty at the end, there are
variable arguments and none is left out where their number is passed, and inline assembly takes no
arguments. -/
def Listed (callee : Callee ε) (fixed : List (Param ε)) (variadic : Bool)
    (positions : List (Option ε)) : Prop :=
  (endsEmpty positions = true → positions.length = 1) ∧
    (variadic = true → callee.kind ≠ .externFunc →
      positions.drop fixed.length ≠ [] ∧ none ∉ positions.drop fixed.length) ∧
    (callee.isInlineAsm = true → fixed = [] ∧ variadic = false)

end Polyc.CallArgs
