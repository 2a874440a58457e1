import Polyc.Parser.ClassTypes

/-!
# Layout of classes and unions

`parseClassOrUnion` and what it calls, `none` where the parser raises an error, where the
arithmetic of `int` overflows and where the fields of a base that is not defined are read.  The
addresses of types, the lines of tags and the flags of the transpiler are left out, and so is
`computeSize`, whose result nothing reads.
-/

namespace Polyc

open Blocks

/-! ### Members -/

/-- `astMakeArrayType`. -/
def astMakeArrayType (type : MemberType) (len : Int) : Option MemberType :=
  if len < 0 then some (.array type len)
  else (cint (type.size * len)).map fun _ => .array type len

/-- `parseArrayDimensions`: the dimensions from the outside in, each narrowed to an `int`. -/
def parseArrayDimensions (baseType : MemberType) : List (Option Int) → Option MemberType
  | [] => some baseType
  | d :: ds =>
    let dimension := (d.map fun v => v.bmod (2 ^ 32)).getD (-1)
    (parseArrayDimensions baseType ds).bind fun subType =>
      if ds ≠ [] ∧ subType.len = -1 ∧ dimension = -1 then none
      else astMakeArrayType subType dimension

/-- `parseBaseDeclSpec`, by the lookups of `cctrlGetKeyWord`. -/
def parseBaseDeclSpec (cc : ParserEnv) : BaseDeclSpec → Option MemberType
  | .builtIn b => some (.scalar b)
  | .named name =>
    match cc.clsdefs.lookup name with
    | some d => some d.type
    | none => (cc.uniondefs.lookup name).map ClassDef.type

/-- `parsePointerType`. -/
def parsePointerType (type : MemberType) (stars : Nat) : MemberType :=
  if stars = 0 then type else .pointer

/-- The type of one name of a member declaration. -/
def parseMemberType (cc : ParserEnv) (spec : BaseDeclSpec) (d : Declarator) :
    Option MemberType :=
  (parseBaseDeclSpec cc spec).bind fun baseType =>
    match d with
    | .object stars _ dims _ => parseArrayDimensions (parsePointerType baseType stars) dims
    | .fnptr .. => some .func

/-! ### Offsets -/

/-- `CalcPadding`. -/
def CalcPadding (offset size : Int) : Int :=
  if size = 0 then 0
  else if offset.tmod size = 0 then 0
  else size - offset.tmod size

/-- `parseFlattenAnnonymous`. -/
def parseFlattenAnnonymous (anon fieldsDict : FieldMap) (offset : Int) : Option FieldMap :=
  anon.foldlM
    (fun dict p => (cint (p.offset + offset)).map fun o => put { p with offset := o } dict)
    fieldsDict

/-- What the loops over the members keep: in a class the offset, in a union the largest size. -/
structure Offsets where
  /-- The offset, or the size. -/
  offset : Int
  /-- The largest alignment. -/
  maxAlign : Int
  /-- The fields. -/
  fieldsDict : FieldMap
  deriving DecidableEq

/-- A member goes into the map at an offset. -/
def addField (fieldsDict : FieldMap) (offset : Int) : ClsField → Option FieldMap
  | .named name type decl => some (put ⟨name, ⟨type, decl⟩, offset⟩ fieldsDict)
  | .anon d => parseFlattenAnnonymous (d.fields.getD []) fieldsDict offset

/-- One turn of the loop of `parseClassOffsets`. -/
def classOffset (s : Offsets) (f : ClsField) : Option Offsets :=
  (cint (s.offset + CalcPadding s.offset (astTypeAlign f.type))).bind fun offset =>
    (addField s.fieldsDict offset f).bind fun fields =>
      (cint (offset + f.type.size)).map fun next =>
        ⟨next, max s.maxAlign (astTypeAlign f.type), fields⟩

/-- One turn of the loop of `parseUnionOffsets`. -/
def unionOffset (s : Offsets) (f : ClsField) : Option Offsets :=
  (addField s.fieldsDict 0 f).map fun fields =>
    ⟨max s.offset f.type.size, max s.maxAlign (astTypeAlign f.type), fields⟩

/-- The object that the loops end with, its size padded to its alignment. -/
def Offsets.finish (isUnion : Bool) (s : Offsets) : Option ClassDef :=
  (cint (s.offset + CalcPadding s.offset s.maxAlign)).map fun size =>
    ⟨isUnion, some s.fieldsDict, size, s.maxAlign⟩

/-- Where the loop of `parseClassOffsets` starts. -/
def baseOffsets : Option ClassDef → Option Offsets
  | none => some ⟨0, 1, []⟩
  | some base =>
    base.fields.bind fun fields =>
      (parseFlattenAnnonymous fields [] 0).map fun dict =>
        ⟨base.size, max 1 (astTypeAlign base.type), dict⟩

/-- `parseClassOffsets`. -/
def parseClassOffsets (base : Option ClassDef) (fields : List ClsField) : Option ClassDef :=
  (baseOffsets base).bind fun s => (fields.foldlM classOffset s).bind (Offsets.finish false)

/-- `parseUnionOffsets`. -/
def parseUnionOffsets (fields : List ClsField) : Option ClassDef :=
  (fields.foldlM unionOffset ⟨0, 1, []⟩).bind (Offsets.finish true)

/-- The object with the fields, the size and the alignment. -/
def parseOffsets (isUnion : Bool) (base : Option ClassDef) (fields : List ClsField) :
    Option ClassDef :=
  if isUnion then parseUnionOffsets fields else parseClassOffsets base fields

/-! ### Definitions -/

/-- The test by which a body takes the keyword of an anonymous member for the start of its own
tag. -/
def keywordIsTag (name : Option String) (isUnion : Bool) : Bool :=
  name.any fun n => (if isUnion then "union" else "class").toList.isPrefixOf n.toList

/-- `parseClassOrUnionFields`, with the anonymous definitions that it calls `parseClassOrUnion`
for. -/
def parseClassOrUnionFields (cc : ParserEnv) (name : Option String) :
    Members → Option (List ClsField)
  | .done => some []
  | .field spec d rest =>
    (parseMemberType cc spec d).bind fun type =>
      (parseClassOrUnionFields cc name rest).map fun fs => .named d.name type d.decl :: fs
  | .anon isUnion body rest =>
    if keywordIsTag name isUnion then none
    else
      ((parseClassOrUnionFields cc none body).bind (parseOffsets isUnion none)).bind fun d =>
        (parseClassOrUnionFields cc name rest).map fun fs => .anon d :: fs

/-- The class that a declaration inherits from. -/
def parseBase (cc : ParserEnv) (d : ClassDecl) : Option (Option ClassDef) :=
  match d.base with
  | none => some none
  | some name => if d.isUnion then none else (cc.clsdefs.lookup name).map some

/-- The object of a tag, which is registered where there is none. -/
def preRegister (cc : ParserEnv) (d : ClassDecl) : ParserEnv × ClassDef :=
  match (cc.env d.isUnion).lookup d.tag with
  | some prev => (cc, prev)
  | none => (cc.add d.isUnion d.tag ⟨d.isUnion, none, 0, 0⟩, ⟨d.isUnion, none, 0, 0⟩)

/-- `parseClassOrUnion`: what is registered afterwards, and the object. -/
def parseClassOrUnion (cc : ParserEnv) (d : ClassDecl) : Option (ParserEnv × ClassDef) :=
  (parseBase cc d).bind fun base =>
    match d.body with
    | none => some (preRegister cc d)
    | some body =>
      ((parseClassOrUnionFields (preRegister cc d).1 (some d.tag) body).bind
          (parseOffsets d.isUnion base)).map
        fun r => ((preRegister cc d).1.add d.isUnion d.tag r, r)

end Polyc
