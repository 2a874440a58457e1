import Polyc.Ast.Types

/-!
# Classification of aggregates

The two classifications of `ast.c`: the one of AAPCS64, with its homogeneous floating-point
aggregates, and the one of System V, by eightbytes.  The fields of an aggregate are visited
in declaration order.
-/

namespace Polyc

/-! ### AAPCS64 -/

mutual

/-- `astHfaInfo`: the size of the elements of a homogeneous floating-point aggregate and
their number, at most four. -/
def astHfaInfo : AstType → Option (Nat × Nat)
  | .scalar kind size _ => if kind = .float then some (size, 1) else none
  | .array _ _ len ptr =>
    if len ≤ 0 then none
    else
      match astHfaInfo ptr with
      | none => none
      | some (es, c) =>
        if 1 ≤ c * len.toNat ∧ c * len.toNat ≤ 4 then some (es, c * len.toNat) else none
  | .class _ _ _ fields =>
    match astHfaFields fields 0 0 with
    | none => none
    | some (elemSize, count) =>
      if count < 1 ∨ 4 < count ∨ elemSize = 0 then none else some (elemSize, count)
  | .union .. => none

/-- The visits `astHfaFieldCb` to the fields of a class, with the accumulated element size
and count. -/
def astHfaFields : List AstType → Nat → Nat → Option (Nat × Nat)
  | [], elemSize, count => some (elemSize, count)
  | field :: fields, elemSize, count =>
    match astHfaInfo field with
    | none => none
    | some (es, c) =>
      if elemSize ≠ 0 ∧ elemSize ≠ es then none
      else if 4 < count + c then none
      else astHfaFields fields es (count + c)

end

/-- The classes `AapcsClass`. -/
inductive AapcsClass where
  | integer | hfa (elem count : Nat) | indirect
  deriving DecidableEq

/-- `astAapcsClassify`. -/
def astAapcsClassify (t : AstType) : AapcsClass :=
  match astHfaInfo t with
  | some (elem, count) => .hfa elem count
  | none => if t.size ≤ 16 then .integer else .indirect

/-! ### System V -/

/-- The classes `SysvClass` of an eightbyte. -/
inductive SysvClass where
  | noClass | integer | sse
  deriving DecidableEq

/-- The classes of the two eightbytes of an aggregate. -/
structure SysvClasses where
  fst : SysvClass
  snd : SysvClass
  deriving DecidableEq

/-- Fold the class of a scalar into that of an eightbyte: integers dominate. -/
def SysvClass.merge (old c : SysvClass) : SysvClass :=
  if old = .noClass then c
  else if old = .integer ∨ c = .integer then .integer
  else old

/-- The loop over the eightbytes that the bytes from `off` to `off + size` touch. -/
def SysvClasses.mergeScalar (classes : SysvClasses) (c : SysvClass) (off size : Nat) :
    SysvClasses :=
  let lo := off / 8
  let hi := (off + size - 1) / 8
  { fst := if lo ≤ 0 ∧ 0 ≤ hi then classes.fst.merge c else classes.fst
    snd := if lo ≤ 1 ∧ 1 ≤ hi then classes.snd.merge c else classes.snd }

mutual

/-- `astSysvMergeField`. -/
def astSysvMergeField : AstType → Nat → SysvClasses → SysvClasses
  | .class _ _ _ fields, off, classes => astSysvFields fields off classes
  | .union _ _ _ fields, off, classes => astSysvFields fields off classes
  | .array _ _ len ptr, off, classes =>
    if ptr.size = 0 then classes
    else
      (List.range len.toNat).foldl
        (fun classes i => astSysvMergeField ptr (off + i * ptr.size) classes) classes
  | .scalar kind size _, off, classes =>
    classes.mergeScalar (if kind = .float then .sse else .integer) off size

/-- The visits `astSysvFieldCb` to the fields of an aggregate at `base`. -/
def astSysvFields : List AstType → Nat → SysvClasses → SysvClasses
  | [], _, classes => classes
  | field :: fields, base, classes =>
    astSysvFields fields base (astSysvMergeField field (base + field.offset) classes)

end

/-- The fields that `astForEachClassField` visits. -/
def AstType.fields : AstType → List AstType
  | .class _ _ _ fields | .union _ _ _ fields => fields
  | _ => []

/-- An eightbyte that no field touches is padding, of class `SSE`. -/
def SysvClass.orSse (c : SysvClass) : SysvClass := if c = .noClass then .sse else c

/-- `astSysvClassify`: the classes of the eightbytes of an aggregate in registers; `none` for
one in memory. -/
def astSysvClassify (t : AstType) : Option (List SysvClass) :=
  let n := (t.size + 7) / 8
  if 16 < t.size ∨ 2 < n ∨ n < 1 then none
  else
    let classes := astSysvFields t.fields 0 ⟨.noClass, .noClass⟩
    some (([classes.fst, classes.snd].take n).map SysvClass.orSse)

end Polyc
