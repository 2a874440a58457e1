import Mathlib.Logic.Function.Basic
import Polyc.Ir.LowerExpr

/-!
# Inline functions

Functions over integer locals, what their statements do, and what the parser makes of calls of
inline functions.  A local is the `astLVar` of its function; lowering knows it by its `lvar_id`
alone, which counts from 1 in every function.  An inline function is known by its place among the
inline functions, of which it calls earlier ones only.  The world holds all that ordinary
functions act on.  Statements that leave a loop are left out.
-/

namespace Polyc

/-! ### Syntax -/

/-- The locals of a function; `retval` is its `inline_ret`. -/
inductive Local where
  | retval
  | named (x : Nat)
  deriving DecidableEq

/-- A local of a function. -/
structure LVar where
  /-- The function. -/
  fn : Nat
  /-- The local. -/
  loc : Local
  deriving DecidableEq

mutual

/-- Expressions over variables of some kind. -/
inductive HExpr (V : Type) where
  | literal (v : Word)
  | lvar (x : V)
  | unop (op : AstUnOp) (operand : HExpr V)
  | binop (op : AstBinOp) (left right : HExpr V)
  | logAnd (left right : HExpr V)
  | logOr (left right : HExpr V)
  | assign (x : V) (right : HExpr V)
  | funcall (fname : Nat) (args : HArgs V)
  | inlineCall (f : Nat) (args : HArgs V)

/-- The arguments of a call. -/
inductive HArgs (V : Type) where
  | nil
  | cons (e : HExpr V) (es : HArgs V)

end

/-- Statements.  Blocks hold sequences; `inlined` holds the statements of an inline function that
stand in the place of a call. -/
inductive HStmt (V : Type) where
  | skip
  | seq (first second : HStmt V)
  | block (body : HStmt V)
  | decl (x : V) (init : Option (HExpr V))
  | expr (e : HExpr V)
  | ite (cond : HExpr V) (then_ els : HStmt V)
  | «while» (cond : HExpr V) (body : HStmt V)
  | «for» (init : HStmt V) (cond : HExpr V) (step : HExpr V) (body : HStmt V)
  | ret (retval : Option (HExpr V))
  | inlined (f : Nat) (body : HStmt V)

/-- An inline function. -/
structure InlineFn where
  /-- The parameters. -/
  params : List Nat
  /-- The body. -/
  body : HStmt Nat

variable {V V' : Type}

mutual

/-- Renaming of the variables. -/
def HExpr.map (g : V → V') : HExpr V → HExpr V'
  | .literal v => .literal v
  | .lvar x => .lvar (g x)
  | .unop op e => .unop op (e.map g)
  | .binop op l r => .binop op (l.map g) (r.map g)
  | .logAnd l r => .logAnd (l.map g) (r.map g)
  | .logOr l r => .logOr (l.map g) (r.map g)
  | .assign x e => .assign (g x) (e.map g)
  | .funcall f args => .funcall f (args.map g)
  | .inlineCall f args => .inlineCall f (args.map g)

/-- Renaming of the variables in arguments. -/
def HArgs.map (g : V → V') : HArgs V → HArgs V'
  | .nil => .nil
  | .cons e es => .cons (e.map g) (es.map g)

end

/-- Renaming of the variables in statements. -/
def HStmt.map (g : V → V') : HStmt V → HStmt V'
  | .skip => .skip
  | .seq a b => .seq (a.map g) (b.map g)
  | .block b => .block (b.map g)
  | .decl x init => .decl (g x) (init.map (HExpr.map g))
  | .expr e => .expr (e.map g)
  | .ite c t e => .ite (c.map g) (t.map g) (e.map g)
  | .while c b => .while (c.map g) (b.map g)
  | .for i c s b => .for (i.map g) (c.map g) (s.map g) (b.map g)
  | .ret e => .ret (e.map (HExpr.map g))
  | .inlined f b => .inlined f (b.map g)

/-- The variables that a statement declares. -/
def HStmt.declared : HStmt V → List V
  | .skip | .expr _ | .ret _ => []
  | .seq a b => a.declared ++ b.declared
  | .block b | .while _ b | .inlined _ b => b.declared
  | .decl x _ => [x]
  | .ite _ t e => t.declared ++ e.declared
  | .for i _ _ b => i.declared ++ b.declared

/-- The number of arguments. -/
def HArgs.length : HArgs V → Nat
  | .nil => 0
  | .cons _ es => es.length + 1

/-- A local of a function by its name. -/
def own (k : Nat) (x : Nat) : LVar := ⟨k, .named x⟩

/-! ### Meaning -/

/-- What operators and ordinary functions do. -/
structure Meaning (W : Type) where
  /-- The unary operators. -/
  unop : AstUnOp → Word → Word
  /-- The binary operators, which may trap. -/
  binop : AstBinOp → Word → Word → Option Word
  /-- The ordinary functions, which act on the world. -/
  funcall : Nat → List Word → W → Option (Word × W)

/-- A state of a run: the locals, the world, and the inline functions whose bodies have been
entered, the last one first. -/
structure RunState (W : Type) where
  /-- The locals. -/
  store : LVar → Word
  /-- The world. -/
  world : W
  /-- The bodies entered. -/
  entered : List Nat

/-- How a statement ends. -/
inductive Outcome where
  | normal
  | returned
  deriving DecidableEq

namespace RunState

variable {W : Type}

/-- Stores a value. -/
def set (st : RunState W) (x : LVar) (v : Word) : RunState W :=
  { st with store := Function.update st.store x v }

/-- Enters the body of a function. -/
def enter (st : RunState W) (f : Nat) : RunState W := { st with entered := f :: st.entered }

/-- Gives the parameters of a function their values. -/
def bind (f : Nat) : List Nat → List Word → RunState W → RunState W
  | p :: ps, v :: vs, st => bind f ps vs (st.set (own f p) v)
  | _, _, st => st

/-- The locals of a function hold given contents. -/
def fill (st : RunState W) (f : Nat) (contents : Local → Word) : RunState W :=
  { st with store := fun x => if x.fn = f then contents x.loc else st.store x }

end RunState

section Meaning

variable {W : Type} (m : Meaning W)

/-- The calls of inline functions: the value, and the state afterwards. -/
abbrev CallFn (W : Type) := Nat → List Word → RunState W → Option (Word × RunState W)

/-- Calls inside expressions of a tree: an inlined call is a compound statement, which is no
expression. -/
def noCall : CallFn W := fun _ _ _ => none

/-- The value of a truth value. -/
def truthWord (b : Bool) : Word := if b then 1 else 0

mutual

/-- The value of an expression, and the state afterwards. -/
def HExpr.eval (call : CallFn W) : HExpr LVar → RunState W → Option (Word × RunState W)
  | .literal v, st => some (v, st)
  | .lvar x, st => some (st.store x, st)
  | .unop op e, st => (e.eval call st).map fun r => (m.unop op r.1, r.2)
  | .binop op l r, st =>
    (l.eval call st).bind fun a => (r.eval call a.2).bind fun b =>
      (m.binop op a.1 b.1).map fun v => (v, b.2)
  | .logAnd l r, st =>
    (l.eval call st).bind fun a =>
      if a.1 = 0 then some (0, a.2)
      else (r.eval call a.2).map fun b => (truthWord (b.1 ≠ 0), b.2)
  | .logOr l r, st =>
    (l.eval call st).bind fun a =>
      if a.1 ≠ 0 then some (1, a.2)
      else (r.eval call a.2).map fun b => (truthWord (b.1 ≠ 0), b.2)
  | .assign x e, st => (e.eval call st).map fun r => (r.1, r.2.set x r.1)
  | .funcall f args, st =>
    (args.eval call st).bind fun r =>
      (m.funcall f r.1 r.2.world).map fun v => (v.1, { r.2 with world := v.2 })
  | .inlineCall f args, st => (args.eval call st).bind fun r => call f r.1 r.2

/-- The values of arguments, from the first to the last. -/
def HArgs.eval (call : CallFn W) : HArgs LVar → RunState W → Option (List Word × RunState W)
  | .nil, st => some ([], st)
  | .cons e es, st =>
    (e.eval call st).bind fun a => (es.eval call a.2).map fun b => (a.1 :: b.1, b.2)

end

/-- A loop that makes fewer turns than the fuel. -/
def loop (cond : RunState W → Option (Word × RunState W))
    (body : RunState W → Option (Outcome × RunState W)) :
    Nat → RunState W → Option (Outcome × RunState W)
  | 0, _ => none
  | n + 1, st =>
    (cond st).bind fun c =>
      if c.1 = 0 then some (.normal, c.2)
      else (body c.2).bind fun r =>
        if r.1 = .returned then some r else loop cond body n r.2

/-- A statement after another. -/
def andThen (first second : RunState W → Option (Outcome × RunState W)) (st : RunState W) :
    Option (Outcome × RunState W) :=
  (first st).bind fun r => if r.1 = .returned then some r else second r.2

/-- A statement of a function: how it ends, and the state afterwards.  A value that is returned
goes to the function's slot for it. -/
def HStmt.exec (call : CallFn W) (fn n : Nat) :
    HStmt LVar → RunState W → Option (Outcome × RunState W)
  | .skip, st => some (.normal, st)
  | .seq a b, st => andThen (a.exec call fn n) (b.exec call fn n) st
  | .block b, st => b.exec call fn n st
  | .decl _ none, st => some (.normal, st)
  | .decl x (some e), st => (e.eval m call st).map fun r => (.normal, r.2.set x r.1)
  | .expr e, st => (e.eval m call st).map fun r => (.normal, r.2)
  | .ite c t e, st =>
    (c.eval m call st).bind fun r =>
      if r.1 ≠ 0 then t.exec call fn n r.2 else e.exec call fn n r.2
  | .while c b, st => loop (c.eval m call) (b.exec call fn n) n st
  | .for i c s b, st =>
    andThen (i.exec call fn n)
      (loop (c.eval m call)
        (andThen (b.exec call fn n) fun st => (s.eval m call st).map fun r => (.normal, r.2)) n) st
  | .ret none, st => some (.returned, st)
  | .ret (some e), st => (e.eval m call st).map fun r => (.returned, r.2.set ⟨fn, .retval⟩ r.1)
  | .inlined f b, st => b.exec call fn n (st.enter f)

/-- What the locals of a function hold when it is called. -/
abbrev Contents (W : Type) := Nat → RunState W → Local → Word

/-- Calls of inline functions as ordinary functions.  The locals hold anything at first, the
parameters what they are given; the result is what the slot for it holds in the end. -/
def ordinaryCall (contents : Contents W) (n : Nat) : List InlineFn → CallFn W
  | [], _, _, _ => none
  | g :: rest, f, vs, st =>
    if f = rest.length then
      if vs.length = g.params.length then
        ((g.body.map (own f)).exec m (ordinaryCall contents n rest) f n
            (((st.fill f (contents f st)).bind f g.params vs).enter f)).map
          fun r => (r.2.store ⟨f, .retval⟩, r.2)
      else none
    else ordinaryCall contents n rest f vs st

end Meaning

/-! ### Parsing -/

/-- An inline function after its body has been parsed. -/
structure InlineDef where
  /-- The parameters. -/
  params : List Nat
  /-- The statements of the body. -/
  stms : HStmt LVar

/-- The declarations of the parameters of a function with the arguments. -/
def paramDecls (f : Nat) : List Nat → HArgs LVar → HStmt LVar
  | p :: ps, .cons e es => .seq (.decl (own f p) (some e)) (paramDecls f ps es)
  | _, _ => .skip

/-- `parseInlineFunctionCall`. -/
def parseInlineFunctionCall (defs : Nat → Option InlineDef) (f : Nat) (argv : HArgs LVar) :
    Option (HStmt LVar) :=
  (defs f).bind fun fn =>
    if fn.params.length = argv.length then
      some (.seq (paramDecls f fn.params argv) (.inlined f fn.stms))
    else none

section Parse

variable (defs : Nat → Option InlineDef) (k : Nat) (isInline : Bool)

/-- `parseReturnStatement`. -/
def parseReturnStatement (retval : Option (HExpr LVar)) : HStmt LVar :=
  if isInline then .decl ⟨k, .retval⟩ retval else .ret retval

/-- A statement inside the body of the function `k`: what is appended to the body while it is
parsed, and the statement.  Calls elsewhere in an expression stay there. -/
def parseStatement : HStmt Nat → Option (HStmt LVar × HStmt LVar)
  | .skip => some (.skip, .skip)
  | .seq a b =>
    (parseStatement a).bind fun a' => (parseStatement b).map fun b' =>
      (.seq a'.1 b'.1, .seq a'.2 b'.2)
  | .block b => (parseStatement b).map fun b' => (b'.1, .block b'.2)
  | .decl x (some (.inlineCall f args)) =>
    (parseInlineFunctionCall defs f (args.map (own k))).map fun inlined =>
      (inlined, .decl (own k x) (some (.lvar ⟨f, .retval⟩)))
  | .decl x init => some (.skip, .decl (own k x) (init.map (HExpr.map (own k))))
  | .expr (.inlineCall f args) =>
    (parseInlineFunctionCall defs f (args.map (own k))).map fun inlined => (.skip, inlined)
  | .expr e => some (.skip, .expr (e.map (own k)))
  | .ite c t e =>
    (parseStatement t).bind fun t' => (parseStatement e).map fun e' =>
      (.seq t'.1 e'.1, .ite (c.map (own k)) t'.2 e'.2)
  | .while c b => (parseStatement b).map fun b' => (b'.1, .while (c.map (own k)) b'.2)
  | .for i c s b =>
    (parseStatement i).bind fun i' => (parseStatement b).map fun b' =>
      (.seq i'.1 b'.1, .for i'.2 (c.map (own k)) (s.map (own k)) b'.2)
  | .ret e => some (.skip, parseReturnStatement k isInline (e.map (HExpr.map (own k))))
  | .inlined _ _ => none

/-- The body of the function `k`, to which everything is appended in order. -/
def parseBody : HStmt Nat → Option (HStmt LVar)
  | .seq a b => (parseBody a).bind fun a' => (parseBody b).map fun b' => .seq a' b'
  | s => (parseStatement defs k isInline s).map fun r => .seq r.1 r.2

end Parse

/-- The inline functions as the parser has them. -/
def inlineDefs : List InlineFn → Nat → Option InlineDef
  | [], _ => none
  | g :: rest, f =>
    if f = rest.length then
      (parseBody (inlineDefs rest) f true g.body).map fun stms => ⟨g.params, stms⟩
    else inlineDefs rest f

/-! ### Lowering -/

/-- The locals of an inline function in the order of `astLVar`: `parseFunctionOrDef` makes its
`inline_ret` after the parameters and before the body. -/
def InlineFn.locals (g : InlineFn) : List Local :=
  g.params.map .named ++ .retval :: g.body.declared.map .named

/-- The locals of a function of a program, of which the last has its own. -/
def localsOf (locals : List Local) : List InlineFn → Nat → List Local
  | [], _ => locals
  | g :: rest, f => if f = rest.length then g.locals else localsOf locals rest f

section Lower

variable (prog : List InlineFn) (params : List Nat) (body : HStmt Nat)

/-- The `lvar_id`, which `astResetLVarId` lets start again at every function. -/
def lvarId (x : LVar) : Nat :=
  (localsOf (params.map .named ++ body.declared.map .named) prog x.fn).idxOf x.loc + 1

/-- Where the lowered function keeps a variable: `irFnGetVar` goes by the `lvar_id`.  What the
function returns has a place of its own. -/
def lvarSlot (x : LVar) : LVar :=
  if x = ⟨prog.length, .retval⟩ then x else own prog.length (lvarId prog params body x)

/-- The variables of a lowered function: its parameters, and what its tree declares. -/
def loweredVars (tree : HStmt LVar) : List LVar :=
  params.map (own prog.length) ++ tree.declared

end Lower

end Polyc
