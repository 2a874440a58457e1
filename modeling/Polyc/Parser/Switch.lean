import Mathlib.Algebra.Group.Nat.Defs

/-!
# Switch statements

The parsing of the body of a switch into the lists of its cases and of its default.  The tokens
of a block are taken a statement at a time: a statement is a label of a switch, a compound
statement, a switch, or a statement in which no label of a switch stands, known by its text.  A
diagnostic ends the parsing.  The names of labels, the bounds check of a switch and the locals
it adds are left out.
-/

namespace Polyc.Switch

/-! ### Trees -/

/-- The kinds of the trees that `parseStatement` returns, with one kind for all expressions. -/
inductive AstKind where
  | expr | goto | label | decl | ifStmt | forStmt | returnStmt | whileStmt | compoundStmt
  | asmStmt | breakStmt | continueStmt | caseStmt | doWhileStmt | switchStmt | defaultStmt
  | tryStmt | throwStmt
  deriving DecidableEq

/-- The forms of statements in which no label of a switch stands.  An `if` may have declarations
before its condition, and a `return` may stand in an inline function. -/
inductive StmtForm where
  | expr | ifStmt | ifInit | forStmt | whileStmt | doWhileStmt | returnStmt | inlineReturn
  | tryStmt | throwStmt | breakStmt | continueStmt | asmStmt | staticDecl | gotoStmt | label
  deriving DecidableEq

/-- The kind of the tree of a statement. -/
def StmtForm.kind : StmtForm → AstKind
  | expr => .expr
  | ifStmt => .ifStmt
  | ifInit => .compoundStmt
  | forStmt => .forStmt
  | whileStmt => .whileStmt
  | doWhileStmt => .doWhileStmt
  | returnStmt => .returnStmt
  | inlineReturn => .decl
  | tryStmt => .tryStmt
  | throwStmt => .throwStmt
  | breakStmt => .breakStmt
  | continueStmt => .continueStmt
  | asmStmt => .asmStmt
  | staticDecl => .decl
  | gotoStmt => .goto
  | label => .label

/-- A case with its bounds and its statements. -/
structure SwitchCase (α : Type) where
  /-- The lower bound. -/
  caseBegin : Int
  /-- The upper bound. -/
  caseEnd : Int
  /-- The statements. -/
  caseAsts : List α
  deriving DecidableEq

/-- The trees of statements.  A case stands for the node at its index in the list of cases, and
`default` for the node of the default. -/
inductive StmtTree where
  | leaf (form : StmtForm) (text : Nat)
  | compound (stms : List StmtTree)
  | «switch» (cond : Nat) (cases : List (SwitchCase StmtTree))
      (caseDefault : Option (List StmtTree))
  | case (index : Nat)
  | default

/-- The kind of a tree. -/
def StmtTree.kind : StmtTree → AstKind
  | leaf form _ => form.kind
  | compound _ => .compoundStmt
  | «switch» _ _ _ => .switchStmt
  | case _ => .caseStmt
  | default => .defaultStmt

/-! ### Statements -/

/-- What stands between `case` and its colon: nothing, a constant, or two of them. -/
inductive CaseLabel where
  | next
  | value (v : BitVec 64)
  | range (lo hi : BitVec 64)
  deriving DecidableEq

/-- Statements as they are written. -/
inductive Stmt where
  | case (label : CaseLabel)
  | default
  | leaf (form : StmtForm) (text : Nat)
  | empty
  | compound (stms : List Stmt)
  | «switch» (cond : Nat) (body : List Stmt)

/-! ### Parsing -/

/-- What stops the parsing of a switch.  All but the last two are diagnostics: `nullStatement` is
a read through a null pointer, and `outOfFuel` does not happen. -/
inductive ParseError where
  | unexpectedCase
  | wrongOrder (begining «end» : Int)
  | duplicateCase
  | duplicateDefault
  | notAStatement
  | expectedBrace
  | nullStatement
  | outOfFuel
  deriving DecidableEq

/-- The fields of a `Cctrl` that hold the cases and the default of the switch being parsed. -/
structure SwitchLists where
  /-- The cases, when a switch is being parsed. -/
  tmpCaseList : Option (List (SwitchCase StmtTree))
  /-- The statements of the default. -/
  tmpDefaultCase : Option (List StmtTree)

/-- The functions of the parser. -/
abbrev Parse := StateT SwitchLists (Except ParseError)

/-- What comes next in a block: a label, or a statement with the function that parses it, which
may return no tree. -/
inductive Item where
  | case (label : CaseLabel)
  | default
  | stmt (parse : Parse (Option StmtTree))

/-- The assignment of a 64-bit value to an `int`. -/
def asInt (v : Int) : Int := v.bmod (2 ^ 32)

/-- `parseSwitchArmTerminates`. -/
def parseSwitchArmTerminates : AstKind → Bool
  | .compoundStmt | .caseStmt | .defaultStmt | .breakStmt | .returnStmt | .goto => true
  | _ => false

/-- `parseDefaultArmTerminates`. -/
def parseDefaultArmTerminates : AstKind → Bool
  | .compoundStmt | .caseStmt | .breakStmt | .returnStmt | .goto => true
  | _ => false

/-- The bounds that `parseCaseLabel` gives a case after the cases before it. -/
def caseBounds (cases : List (SwitchCase StmtTree)) : CaseLabel → Except ParseError (Int × Int)
  | .next =>
    let begining := asInt (cases.getLast?.elim 0 fun prev => prev.caseEnd + 1)
    .ok (begining, begining)
  | .value v => .ok (asInt v.toInt, asInt v.toInt)
  | .range lo hi =>
    if asInt hi.toInt < asInt lo.toInt then
      .error (.wrongOrder (asInt lo.toInt) (asInt hi.toInt))
    else
      .ok (asInt lo.toInt, asInt hi.toInt)

/-- `assertUniqueSwitchCaseLabels`. -/
def assertUniqueSwitchCaseLabels (caseVector : List (SwitchCase StmtTree))
    (case_ : SwitchCase StmtTree) : Except ParseError Unit :=
  if caseVector.all fun cur => case_.caseEnd < cur.caseBegin || cur.caseBegin < case_.caseBegin
  then .ok ()
  else .error .duplicateCase

/-- The part of `parseCaseLabel` before its statements, which adds the case. -/
def addCase (label : CaseLabel) : Parse Nat := do
  let cc ← get
  match cc.tmpCaseList with
  | none => throw .unexpectedCase
  | some cases =>
    let (begining, «end») ← caseBounds cases label
    let case_ : SwitchCase StmtTree := ⟨begining, «end», []⟩
    assertUniqueSwitchCaseLabels cases case_
    set { cc with tmpCaseList := some (cases ++ [case_]) }
    return cases.length

/-- The part of `parseDefaultStatement` before its statements, which adds the default. -/
def addDefault : Parse Unit := do
  let cc ← get
  if cc.tmpDefaultCase.isSome then
    throw .duplicateDefault
  else
    set { cc with tmpDefaultCase := some [] }

/-- A statement appended to those of a case. -/
def appendToCase (i : Nat) (stmt : StmtTree) : Parse Unit :=
  modify fun cc => { cc with
    tmpCaseList := cc.tmpCaseList.map fun cases =>
      cases.modify i fun c => { c with caseAsts := c.caseAsts ++ [stmt] } }

/-- A statement appended to those of the default. -/
def appendToDefault (stmt : StmtTree) : Parse Unit :=
  modify fun cc => { cc with tmpDefaultCase := cc.tmpDefaultCase.map (· ++ [stmt]) }

mutual

/-- `parseStatement`, with what is left of the block. -/
def parseStatement : Nat → List Item → Parse (Option StmtTree × List Item)
  | 0, _ => throw .outOfFuel
  | _ + 1, [] => throw .notAStatement
  | n + 1, .case label :: rest => parseCaseLabel n label rest
  | n + 1, .default :: rest => parseDefaultStatement n rest
  | _ + 1, .stmt parse :: rest => do return (← parse, rest)

/-- `parseCaseLabel`. -/
def parseCaseLabel : Nat → CaseLabel → List Item → Parse (Option StmtTree × List Item)
  | 0, _, _ => throw .outOfFuel
  | n + 1, label, rest => do
    let i ← addCase label
    let rest ← parseCaseArm n i rest
    return (some (.case i), rest)

/-- The loop of `parseCaseLabel`. -/
def parseCaseArm : Nat → Nat → List Item → Parse (List Item)
  | 0, _, _ => throw .outOfFuel
  | n + 1, i, items => do
    let (stmt, rest) ← parseStatement n items
    match stmt with
    | none => throw .nullStatement
    | some stmt =>
      if stmt.kind ≠ .caseStmt ∧ stmt.kind ≠ .defaultStmt then
        appendToCase i stmt
      if parseSwitchArmTerminates stmt.kind then
        return rest
      if rest.isEmpty then
        return rest
      parseCaseArm n i rest

/-- `parseDefaultStatement`. -/
def parseDefaultStatement : Nat → List Item → Parse (Option StmtTree × List Item)
  | 0, _ => throw .outOfFuel
  | n + 1, rest => do
    addDefault
    let rest ← parseDefaultArm n rest
    return (some .default, rest)

/-- The loop of `parseDefaultStatement`. -/
def parseDefaultArm : Nat → List Item → Parse (List Item)
  | 0, _ => throw .outOfFuel
  | n + 1, items => do
    let (stmt, rest) ← parseStatement n items
    match stmt with
    | none => throw .nullStatement
    | some stmt =>
      if stmt.kind ≠ .caseStmt then
        appendToDefault stmt
      if parseDefaultArmTerminates stmt.kind then
        return rest
      if rest.isEmpty then
        return rest
      parseDefaultArm n rest

end

/-- `parseCompoundBlockAppendsStatement`: declarations of static variables are not appended. -/
def parseCompoundBlockAppendsStatement : StmtTree → Bool
  | .leaf .staticDecl _ => false
  | _ => true

/-- The loop of `parseCompoundStatementInternal`, up to the brace that closes the block. -/
def parseCompoundStatementInternal : Nat → List Item → Parse (List StmtTree)
  | _, [] => return []
  | 0, _ => throw .outOfFuel
  | n + 1, items => do
    let (stmt, rest) ← parseStatement (3 * items.length + 1) items
    match stmt with
    | none =>
      if rest.isEmpty then
        return []
      throw .expectedBrace
    | some stmt =>
      let stms ← parseCompoundStatementInternal n rest
      return if parseCompoundBlockAppendsStatement stmt then stmt :: stms else stms

/-- `parseCompoundStatement`, on all that stands in the block. -/
def parseCompoundStatement (items : List Item) : Parse StmtTree := do
  let stms ← parseCompoundStatementInternal items.length items
  return .compound stms

/-- `parseSwitchStatement`, on all that stands in the braces of the switch: the tree of the body
is dropped, and what `SwitchLists` held before is put back. -/
def parseSwitchStatement (cond : Nat) (items : List Item) : Parse StmtTree := do
  let original ← get
  set (⟨some [], none⟩ : SwitchLists)
  let _ ← parseCompoundStatement items
  let cc ← get
  set original
  return .switch cond (cc.tmpCaseList.getD []) cc.tmpDefaultCase

mutual

/-- What the parser meets at a statement. -/
def Stmt.item : Stmt → Item
  | .case label => .case label
  | .default => .default
  | .leaf form text => .stmt (return some (.leaf form text))
  | .empty => .stmt (return none)
  | .compound stms => .stmt (some <$> parseCompoundStatement (Stmt.items stms))
  | .switch cond body => .stmt (some <$> parseSwitchStatement cond (Stmt.items body))

/-- What the parser meets at the statements of a block. -/
def Stmt.items : List Stmt → List Item
  | [] => []
  | s :: ss => s.item :: Stmt.items ss

end

/-- An arm of a switch: its label, none for the default, and its statements. -/
structure Arm (L S : Type) where
  /-- The label. -/
  label : Option L
  /-- The statements. -/
  stms : List S

/-- The order in which `irLowerSwitch` lays out the arms of a switch, each falling through to the
next one: the cases, then the default. -/
def StmtTree.layout : StmtTree → List (Arm (Int × Int) StmtTree)
  | «switch» _ cases caseDefault =>
    cases.map (fun c => ⟨some (c.caseBegin, c.caseEnd), c.caseAsts⟩) ++
      caseDefault.toList.map fun stms => ⟨none, stms⟩
  | _ => []

end Polyc.Switch
