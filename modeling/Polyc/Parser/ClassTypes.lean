import Polyc.Lib.Blocks

/-!
# Classes and unions

The types of members as far as their layout goes, the objects that stand for classes and unions,
and the syntax of a definition.  A member of a class or union type holds the size, the alignment
and the completeness that this type has when the member is parsed, as the copy of its object does.
Intrinsic classes are left out.
-/

namespace Polyc

open Blocks

/-! ### Types of members -/

/-- A value of C's `int`; none when an operation leaves its range, which C does not define. -/
def cint (z : Int) : Option Int := if -2 ^ 31 ≤ z ∧ z < 2 ^ 31 then some z else none

/-- What fits an `int` is what was computed. -/
theorem cint_eq_some {z w : Int} (h : cint z = some w) :
  w = z
  := by
  rw [cint] at h
  split at h
  · apply (Option.some.inj h).symm
  · cases h

/-- The rows of `built_in_types`. -/
inductive BuiltInType where
  | u0 | bool | i8 | u8 | i16 | u16 | i32 | u32 | i64 | u64 | f64 | f32
  | «inline» | «public» | auto | «private»
  deriving DecidableEq

/-- The sizes in `built_in_types`. -/
def BuiltInType.size : BuiltInType → Int
  | u0 | «inline» | «public» | auto | «private» => 0
  | bool | i8 | u8 => 1
  | i16 | u16 => 2
  | i32 | u32 | f32 => 4
  | i64 | u64 | f64 => 8

/-- The type of a member. -/
inductive MemberType where
  | scalar (b : BuiltInType)
  | pointer
  | func
  | array (ptr : MemberType) (len : Int)
  | aggregate (isUnion hasFields : Bool) (size alignment : Int)
  deriving DecidableEq

namespace MemberType

/-- The length of an array. -/
def len : MemberType → Int
  | array _ len => len
  | _ => 0

/-- The size that `astMakeArrayType` and the others give a type. -/
def size : MemberType → Int
  | scalar b => b.size
  | pointer | func => 8
  | array ptr len => if len < 0 then -1 else ptr.size * len
  | aggregate _ _ size _ => size

/-- A type that holds values: classes and unions that are defined, and arrays of known length. -/
def Complete : MemberType → Prop
  | scalar _ | pointer | func => True
  | array ptr len => 0 ≤ len ∧ ptr.Complete
  | aggregate _ hasFields _ _ => hasFields = true

instance decidableComplete : ∀ t : MemberType, Decidable t.Complete
  | scalar _ | pointer | func => isTrue trivial
  | array _ len => @instDecidableAnd (0 ≤ len) _ _ (decidableComplete _)
  | aggregate _ hasFields _ _ => inferInstanceAs (Decidable (hasFields = true))

end MemberType

/-- `astTypeAlign`. -/
def astTypeAlign : MemberType → Int
  | .array ptr _ => astTypeAlign ptr
  | .pointer | .func => 8
  | .aggregate _ _ size alignment =>
    let a := if alignment ≤ 0 then (if size > 8 then 8 else size) else alignment
    if a > 0 then a else 1
  | .scalar b => if b.size ≤ 0 then 1 else if b.size > 8 then 8 else b.size

/-! ### Classes and unions -/

/-- A field: its type, and the token of its name, by line, column and file. -/
structure ClassField where
  /-- The type. -/
  type : MemberType
  /-- The token of the name. -/
  decl : Nat
  deriving DecidableEq

/-- The map of the fields, in the order in which they were added. -/
abbrev FieldMap := List (Placed String ClassField)

/-- The object of a class or union; it has no fields before its definition. -/
structure ClassDef where
  /-- Whether it is a union. -/
  isUnion : Bool
  /-- The fields. -/
  fields : Option FieldMap
  /-- The size. -/
  size : Int
  /-- The alignment. -/
  alignment : Int
  deriving DecidableEq

/-- The type of a member of a class or union. -/
def ClassDef.type (d : ClassDef) : MemberType :=
  .aggregate d.isUnion d.fields.isSome d.size d.alignment

/-- The record `ClsField`: a named member, or an anonymous class or union. -/
inductive ClsField where
  | named (name : String) (type : MemberType) (decl : Nat)
  | anon (d : ClassDef)
  deriving DecidableEq

/-- The type of a member. -/
def ClsField.type : ClsField → MemberType
  | named _ type _ => type
  | anon d => d.type

/-- The fields that a member brings, from its start. -/
def ClsField.entries : ClsField → FieldMap
  | named name type decl => [⟨name, ⟨type, decl⟩, 0⟩]
  | anon d => d.fields.getD []

/-- The maps `clsdefs` and `uniondefs`. -/
structure ParserEnv where
  /-- The classes. -/
  clsdefs : List (String × ClassDef)
  /-- The unions. -/
  uniondefs : List (String × ClassDef)
  deriving DecidableEq

/-- The map that definitions of a kind are registered in. -/
def ParserEnv.env (cc : ParserEnv) (isUnion : Bool) : List (String × ClassDef) :=
  if isUnion then cc.uniondefs else cc.clsdefs

/-- Registers a class or union under its tag. -/
def ParserEnv.add (cc : ParserEnv) (isUnion : Bool) (tag : String) (d : ClassDef) : ParserEnv :=
  if isUnion then { cc with uniondefs := (tag, d) :: cc.uniondefs }
  else { cc with clsdefs := (tag, d) :: cc.clsdefs }

/-! ### Syntax -/

/-- What stands before the names of members: a built-in type or the name of a class or union. -/
inductive BaseDeclSpec where
  | builtIn (b : BuiltInType)
  | named (name : String)
  deriving DecidableEq

/-- One name of a member declaration: stars, then a name with the values of its dimensions, where
they are given, or a pointer to a function. -/
inductive Declarator where
  | object (stars : Nat) (name : String) (dims : List (Option Int)) (decl : Nat)
  | fnptr (stars : Nat) (name : String) (decl : Nat)
  deriving DecidableEq

/-- The name in a declarator. -/
def Declarator.name : Declarator → String
  | object _ name _ _ | fnptr _ name _ => name

/-- The token of the name. -/
def Declarator.decl : Declarator → Nat
  | object _ _ _ decl | fnptr _ _ decl => decl

/-- The body of a definition; a declaration of several names counts as several members. -/
inductive Members where
  | done
  | field (spec : BaseDeclSpec) (d : Declarator) (rest : Members)
  | anon (isUnion : Bool) (body rest : Members)
  deriving DecidableEq

/-- A declaration of a class or union with a tag, which may name a base and may have a body. -/
structure ClassDecl where
  /-- Whether it begins with `union`. -/
  isUnion : Bool
  /-- The tag. -/
  tag : String
  /-- The class after the colon. -/
  base : Option String
  /-- What stands in braces. -/
  body : Option Members
  deriving DecidableEq

namespace Members

/-- The names of the fields, those of anonymous members included. -/
def names : Members → List String
  | done => []
  | field _ d rest => d.name :: rest.names
  | anon _ body rest => body.names ++ rest.names

/-- The tokens of these names. -/
def decls : Members → List Nat
  | done => []
  | field _ d rest => d.decl :: rest.decls
  | anon _ body rest => body.decls ++ rest.decls

/-- The tokens of the names that stand in an anonymous union. -/
def unionDecls : Members → List Nat
  | done => []
  | field _ _ rest => rest.unionDecls
  | anon true body rest => body.decls ++ rest.unionDecls
  | anon false body rest => body.unionDecls ++ rest.unionDecls

end Members

/-- The tokens of the names of fields that come from a union, in a program. -/
def unionDecls (ds : List ClassDecl) : List Nat :=
  ds.flatMap fun d =>
    match d.body with
    | none => []
    | some body => if d.isUnion then body.decls else body.unionDecls

end Polyc
