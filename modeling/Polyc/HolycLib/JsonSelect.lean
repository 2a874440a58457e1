import Mathlib.Data.List.Monad
import Mathlib.Tactic.IntervalCases
import Polyc.HolycLib.WildMatch
import Polyc.Lib.Numeral

/-!
# Selecting in JSON

`JsonSelect` of `json.HC`.  A node is at an address and has the nodes of its list, a member of an object with its key.
The selector is given by its bytes from the place that is read up to the 0, and the path by the bytes that are in it.
Reading behind the selector or behind `buf` and an argument of another kind have no result.
-/

namespace Polyc

open Bytes (Byte)

/-! ### Nodes -/

/-- The types of a `Json`. -/
inductive JsonType where
  | string
  | float
  | int
  | strnum
  | array
  | object
  | bool
  | null
  deriving DecidableEq

/-- The nodes that a `Json` heads. -/
inductive JsonNode where
  | scalar (self : Nat) (type : JsonType) (single : type ≠ .array ∧ type ≠ .object)
  | array (self : Nat) (array : List JsonNode)
  | object (self : Nat) (object : List (List StrChar × JsonNode))

namespace JsonNode

/-- The type of a node. -/
def type : JsonNode → JsonType
  | scalar _ type _ => type
  | array _ _ => .array
  | object _ _ => .object

/-- `JsonIsObject` and its like. -/
def is (type : JsonType) (j : JsonNode) : Bool := j.type = type

end JsonNode

/-- `JsonIsObject`. -/
def jsonIsObject : JsonNode → Bool := JsonNode.is .object

/-- `JsonIsArray`. -/
def jsonIsArray : JsonNode → Bool := JsonNode.is .array

/-- `JsonIsNull`. -/
def jsonIsNull : JsonNode → Bool := JsonNode.is .null

/-- `JsonIsBool`. -/
def jsonIsBool : JsonNode → Bool := JsonNode.is .bool

/-- `JsonIsString`. -/
def jsonIsString : JsonNode → Bool := JsonNode.is .string

/-- `JsonIsInt`. -/
def jsonIsInt : JsonNode → Bool := JsonNode.is .int

/-- `JsonIsFloat`. -/
def jsonIsFloat : JsonNode → Bool := JsonNode.is .float

/-- `JsonTypeCheck`. -/
def jsonTypeCheck (j : JsonNode) (tk : Byte) : Bool :=
  if tk = 0x73 then jsonIsString j
  else if tk = 0x69 then jsonIsInt j
  else if tk = 0x66 then jsonIsFloat j
  else if tk = 0x6F then jsonIsObject j
  else if tk = 0x61 then jsonIsArray j
  else if tk = 0x62 then jsonIsBool j
  else if tk = 0x21 then jsonIsNull j
  else false

/-- The loop of `JsonArrayAt`, which has come to the node with the number `i`. -/
def jsonArrayLoop (idx : Int) : Int → List JsonNode → Option JsonNode
  | _, [] => none
  | i, node :: next =>
    if i < idx then jsonArrayLoop idx (i + 1) next
    else if i ≠ idx then none
    else some node

/-- `JsonArrayAt`. -/
def jsonArrayAt (j : JsonNode) (idx : Int) : Option JsonNode :=
  match j with
  | .array _ array => if idx < 0 then none else jsonArrayLoop idx 0 array
  | _ => none

/-- The loop of `JsonObjectAt`; `StrCmp` gives 0 for the same string. -/
def jsonObjectLoop (name : List Byte) : List (List StrChar × JsonNode) → Option JsonNode
  | [] => none
  | (key, el) :: next => if name ≠ key.map Subtype.val then jsonObjectLoop name next else some el

/-- `JsonObjectAt`. -/
def jsonObjectAt (j : JsonNode) (name : List Byte) : Option JsonNode :=
  match j with
  | .object _ object => jsonObjectLoop name object
  | _ => none

/-! ### The loop -/

namespace JsonSel

/-- `isspace`. -/
def isspace (c : Byte) : Bool := c = 0x20 ∨ 0x09 ≤ c ∧ c ≤ 0x0D

/-- `isdigit`. -/
def isdigit (c : Byte) : Bool := 0x30 ≤ c ∧ c ≤ 0x39

/-- `strtoll` to base 10, and where it ends. -/
def strtoll (nptr : List Byte) : Int × List Byte :=
  let text := nptr.dropWhile isspace
  let signed := text.head? = some 0x2D
  let text := if signed ∨ text.head? = some 0x2B then text.tail else text
  let digits := text.takeWhile isdigit
  let n : Int := Numeral.readNat 0x61 10 digits
  if digits = [] then (0, nptr)
  else (if signed then max (-2 ^ 63) (-n) else min (2 ^ 63 - 1) n, text.dropWhile isdigit)

/-- A number in decimal digits. -/
def decimal (n : Nat) : List Byte := Numeral.numeral 0x61 10 n

/-- What `snprintf` puts for `%d` in front of a 0: a number of 32 bits. -/
def printed (idx : Int) : List Byte :=
  let idx := (BitVec.ofInt 32 idx).toInt
  Numeral.signOf idx ++ decimal idx.natAbs

/-- `JSON_SEL_MAX_BUF`. -/
def maxBuf : Nat := 256

/-- What the step is that is read: `JSON_SEL_INVALD` and the others. -/
inductive Next where
  | invald
  | obj
  | array
  | typecheck
  deriving DecidableEq

/-- An argument behind the selector. -/
inductive Arg where
  | int (i : Int)
  | str (s : List StrChar)

/-- The variables of `JsonSelect`; `path` has the bytes in front of `path_len`. -/
structure State where
  j : JsonNode
  next : Next
  path : List Byte
  buf : List Byte
  argv : List Arg
  ptr : List Byte

/-- A delimiter. -/
def isDelim (c : Byte) : Bool := c = 0x2E ∨ c = 0x5B ∨ c = 0x5D ∨ c = 0x3A

/-- The string in the path. -/
def State.str (s : State) : List Byte := s.path.takeWhile (· ≠ 0)

/-- The `switch`, at the end of a step: the node that is current then. -/
def apply (s : State) : Option JsonNode :=
  match s.next with
  | .array =>
    let (idx, stop) := strtoll s.str
    if idx = 0 ∧ stop ≠ [] ∨ idx < 0 then none else jsonArrayAt s.j idx
  | .obj => jsonObjectAt s.j s.str
  | .typecheck => if jsonTypeCheck s.j (s.path.headD 0) then some s.j else none
  | .invald => none

/-- The end of a turn, which begins a step or leaves the loop. -/
def foot (s : State) : State ⊕ Option (Option JsonNode) :=
  let ptr := if s.ptr.head? = some 0x5D then s.ptr.tail else s.ptr
  match ptr with
  | [] => .inr none
  | c :: ptr =>
    if c = 0 then .inr (some (some s.j))
    else if c = 0x5B then .inl { s with next := .array, path := [], ptr }
    else if c = 0x2E then .inl { s with next := .obj, path := [], ptr }
    else if c = 0x3A then .inl { s with next := .typecheck, path := [], ptr }
    else .inr (some none)

/-- `MemCpy` of `len` bytes to the path: they come from `buf`, for a name too. -/
def copy (s : State) (len : Nat) : State ⊕ Option (Option JsonNode) :=
  if s.path.length + len > maxBuf then .inr (some none)
  else if len > s.buf.length then .inr none
  else .inl { s with path := s.path ++ s.buf.take len }

/-- A character of a step, behind which `ptr` is. -/
def take (s : State) (c : Byte) (ptr : List Byte) : State ⊕ Option (Option JsonNode) :=
  if c ≠ 0x2A then
    if s.path.length + 1 > maxBuf then .inr (some none)
    else .inl { s with path := s.path ++ [c], ptr }
  else
    match s.next, s.argv with
    | .array, .int idx :: argv =>
      let text := printed idx
      copy { s with buf := text ++ 0 :: s.buf.drop (text.length + 1), argv, ptr } text.length
    | .obj, .str str :: argv => copy { s with argv, ptr } str.length
    | .array, _ | .obj, _ => .inr none
    | .typecheck, _ | .invald, _ => .inr (some none)

/-- A turn of the loop of `JsonSelect`. -/
def step (s : State) : State ⊕ Option (Option JsonNode) :=
  match s.ptr with
  | [] => .inr none
  | c :: ptr =>
    if s.path ≠ [] ∧ (c = 0 ∨ isDelim c) then
      match apply s with
      | none => .inr (some none)
      | some j => foot { s with j }
    else if s.next ≠ .invald then take s c ptr
    else foot s

/-- The state in front of the loop. -/
def start (buf : List Byte) (j : JsonNode) (fmt : List Byte) (argv : List Arg) : State :=
  { j, next := .invald, path := [], buf, argv, ptr := fmt ++ [0] }

end JsonSel

/-- `JsonSelect`, where `buf` is what the buffer has at first: every turn of the loop takes a byte of the selector. -/
def jsonSelect (buf : List Byte) (j : JsonNode) (fmt : List Byte) (argv : List JsonSel.Arg) :
    Option (Option JsonNode) :=
  if fmt.head? ≠ some 0x2E ∧ fmt.head? ≠ some 0x5B then some none
  else (Loop.run JsonSel.step (fmt.length + 2) (JsonSel.start buf j fmt argv)).join

/-! ### Selectors -/

/-- A name of a selector: it is not empty and has none of the selector's signs. -/
structure JsonName where
  text : List StrChar
  ne : text ≠ []
  plain : ∀ c ∈ text, JsonSel.isDelim c.val = false ∧ c.val ≠ 0x2A

/-- The first member of that name. -/
def JsonNode.member : JsonNode → List StrChar → Option JsonNode
  | .object _ members, name => (members.find? fun m => m.1 = name).map Prod.snd
  | _, _ => none

/-- The element at that index. -/
def JsonNode.elem : JsonNode → Nat → Option JsonNode
  | .array _ elems, i => elems[i]?
  | _, _ => none

/-- The steps of a selector, `*` with its argument. -/
inductive JsonStep where
  | name (name : JsonName)
  | index (i : Nat)
  | anyName (name : List StrChar) (fits : name.length ≤ JsonSel.maxBuf)
  | anyIndex (i : Nat) (fits : i < 2 ^ 63)

namespace JsonStep

/-- How a step is written. -/
def text : JsonStep → List Byte
  | name n => 0x2E :: n.text.map Subtype.val
  | index i => 0x5B :: (JsonSel.decimal i ++ [0x5D])
  | anyName _ _ => [0x2E, 0x2A]
  | anyIndex _ _ => [0x5B, 0x2A, 0x5D]

/-- The argument of a step. -/
def arg : JsonStep → Option JsonSel.Arg
  | anyName n _ => some (.str n)
  | anyIndex i _ => some (.int i)
  | _ => none

/-- The node of a step. -/
def select : JsonStep → JsonNode → Option JsonNode
  | name n, j => j.member n.text
  | index i, j => j.elem i
  | anyName n _, j => j.member n
  | anyIndex i _, j => j.elem i

end JsonStep

/-- The types that a selector can check. -/
inductive JsonLetter where
  | string
  | float
  | int
  | array
  | object
  | bool
  | null
  deriving DecidableEq

namespace JsonLetter

/-- The letter itself. -/
def byte : JsonLetter → Byte
  | string => 0x73
  | float => 0x66
  | int => 0x69
  | array => 0x61
  | object => 0x6F
  | bool => 0x62
  | null => 0x21

/-- What it stands for. -/
def type : JsonLetter → JsonType
  | string => .string
  | float => .float
  | int => .int
  | array => .array
  | object => .object
  | bool => .bool
  | null => .null

end JsonLetter

/-- A selector: steps, and a type that is checked at the end. -/
structure JsonSelector where
  steps : List JsonStep
  ne : steps ≠ []
  letter : Option JsonLetter

namespace JsonSelector

/-- How a check of a type is written. -/
def check (letter : Option JsonLetter) : List Byte := letter.elim [] fun l => [0x3A, l.byte]

/-- The string of a selector. -/
def text (sel : JsonSelector) : List Byte := sel.steps.flatMap JsonStep.text ++ check sel.letter

/-- The arguments behind a selector. -/
def argv (sel : JsonSelector) : List JsonSel.Arg := sel.steps.filterMap JsonStep.arg

/-- A node has the type that is checked. -/
def Fits (letter : Option JsonLetter) (j : JsonNode) : Prop := ∀ l ∈ letter, j.type = l.type

instance (letter : Option JsonLetter) (j : JsonNode) : Decidable (Fits letter j) :=
  inferInstanceAs (Decidable (∀ l ∈ letter, j.type = l.type))

/-- The node of a selector: that of its steps, if it has the type. -/
def select (sel : JsonSelector) (j : JsonNode) : Option JsonNode :=
  (sel.steps.foldlM (fun j st => JsonStep.select st j) j).bind fun j => if Fits sel.letter j then some j else none

/-- `JsonSelect` follows a selector: in every tree and whatever its buffer has at first it returns the selector's
node. -/
def Follows (sel : JsonSelector) : Prop :=
  ∀ (j : JsonNode) (buf : List Byte), buf.length = 64 → jsonSelect buf j sel.text sel.argv = some (sel.select j)

end JsonSelector

/-!
## What selectors select

A selector is followed through the nodes of its steps: behind a step that is taken right the rest of the selector is
read with the node of that step.  For a step that is not taken right there is a tree in which `JsonSelect` does not
come to the node of the selector.
-/

namespace JsonSel

/-! ### Numbers -/

section

variable {n : Nat} {c : Byte} {ds : List Byte}

/-- A character of a step that is taken as itself. -/
def Plain (c : Byte) : Prop := c ≠ 0 ∧ isDelim c = false ∧ c ≠ 0x2A

theorem isLetter_a : Numeral.IsLetter 0x61 := by
  constructor <;> decide

/-- The digits of a number are digits. -/
theorem isdigit_of_mem_decimal (h : c ∈ decimal n) :
  isdigit c = true
  := by
  rw [decimal, Numeral.numeral] at h
  split at h
  · rw [List.mem_singleton.mp h]
    rfl
  · obtain ⟨d, hd, rfl⟩ := List.mem_map.mp (List.mem_reverse.mp h)
    have hlt : d < 10 := Nat.digits_lt_base (by decide) hd
    interval_cases d <;> rfl

theorem decimal_ne_nil (n : Nat) :
  decimal n ≠ []
  := (Numeral.numeral_spec isLetter_a (by decide) (by decide) n).1

/-- A digit is none of the other characters. -/
theorem plain_of_isdigit (h : isdigit c = true) :
  Plain c
  := by
  simp only [isdigit, decide_eq_true_eq] at h
  simp only [Plain, isDelim, decide_eq_false_iff_not]
  refine ⟨?_, ?_, ?_⟩ <;> bv_omega

theorem plain_of_mem_decimal : ∀ c ∈ decimal n, Plain c := fun _ h => plain_of_isdigit (isdigit_of_mem_decimal h)

theorem not_isspace_of_isdigit (h : isdigit c = true) :
  isspace c = false ∧ c ≠ 0x2D ∧ c ≠ 0x2B
  := by
  simp only [isdigit, decide_eq_true_eq] at h
  simp only [isspace, decide_eq_false_iff_not]
  refine ⟨?_, ?_, ?_⟩ <;> bv_omega

/-- `strtoll` reads digits to their end. -/
theorem strtoll_digits (hne : ds ≠ []) (hds : ∀ c ∈ ds, isdigit c = true) :
  strtoll ds = (min (2 ^ 63 - 1) (Numeral.readNat 0x61 10 ds : Int), [])
    ∧ strtoll (0x2D :: ds) = (max (-2 ^ 63) (-(Numeral.readNat 0x61 10 ds : Int)), [])
  := by
  have htake : ds.takeWhile isdigit = ds := List.takeWhile_eq_self_iff.mpr hds
  have hdrop : ds.dropWhile isdigit = [] := List.dropWhile_eq_nil_iff.mpr hds
  constructor
  · obtain ⟨c, cs, rfl⟩ := List.exists_cons_of_ne_nil hne
    obtain ⟨hspace, hminus, hplus⟩ := not_isspace_of_isdigit (hds c List.mem_cons_self)
    have htext : (c :: cs).dropWhile isspace = c :: cs := List.dropWhile_cons_of_neg (by rw [hspace]; decide)
    rw [strtoll]
    simp only [htext, List.head?_cons, Option.some.injEq, hminus, hplus, or_self, if_false, htake, hdrop, hne]
  · have htext : (0x2D :: ds).dropWhile isspace = 0x2D :: ds := rfl
    rw [strtoll]
    simp only [htext, List.head?_cons, List.tail_cons, true_or, if_true, htake, hdrop, if_neg hne]

theorem strtoll_decimal (n : Nat) :
  strtoll (decimal n) = (min (2 ^ 63 - 1) (n : Int), [])
    ∧ strtoll (0x2D :: decimal n) = (max (-2 ^ 63) (-(n : Int)), [])
  := by
  have h := strtoll_digits (decimal_ne_nil n) fun _ => isdigit_of_mem_decimal
  have hread : Numeral.readNat 0x61 10 (decimal n) = n := by
    have hread := Numeral.readNat_numeral isLetter_a (show 1 < 10 by decide) (show 10 ≤ 16 by decide) 0 n
    rwa [List.replicate_zero, List.nil_append] at hread
  rwa [hread] at h

/-- An index of 31 bits is printed as itself. -/
theorem printed_of_lt (h : n < 2 ^ 31) :
  printed n = decimal n
  := by
  have hint : (BitVec.ofInt 32 n).toInt = n := by
    rw [BitVec.toInt_ofInt]
    apply Int.bmod_eq_of_le <;> omega
  rw [printed]
  simp only [hint, Int.natAbs_natCast]
  rw [Numeral.signOf, if_neg (by omega), List.nil_append]

/-- What is printed is a number of 31 bits or one below 0. -/
theorem printed_eq (idx : Int) :
  (∃ k < 2 ^ 31, printed idx = decimal k) ∨ ∃ k > 0, printed idx = 0x2D :: decimal k
  := by
  have hlt := BitVec.toInt_lt (x := BitVec.ofInt 32 idx)
  rw [printed]
  simp only [Numeral.signOf]
  split_ifs with h
  · right
    use (BitVec.ofInt 32 idx).toInt.natAbs, by omega
    rfl
  · left
    use (BitVec.ofInt 32 idx).toInt.natAbs, by omega
    rfl

theorem length_decimal_le {k : Nat} (h : n < 10 ^ (k + 1)) :
  (decimal n).length ≤ k + 1
  := Numeral.length_numeral_le 0x61 (by decide) h

end

/-- What is printed is short. -/
theorem length_printed_le (idx : Int) :
  (printed idx).length ≤ 11
  := by
  have hlo := BitVec.le_toInt (BitVec.ofInt 32 idx)
  have hhi := BitVec.toInt_lt (x := BitVec.ofInt 32 idx)
  have hsign : (Numeral.signOf (BitVec.ofInt 32 idx).toInt).length ≤ 1 := by
    rw [Numeral.signOf]
    split <;> decide
  have hdigits : (decimal (BitVec.ofInt 32 idx).toInt.natAbs).length ≤ 9 + 1 := by
    apply Numeral.length_numeral_le 0x61 (by decide)
    omega
  rw [printed]
  simp only [List.length_append]
  omega

/-! ### Nodes -/

theorem jsonArrayLoop_eq (i k : Nat) (array : List JsonNode) :
  jsonArrayLoop (i + k : Nat) i array = array[k]?
  := by
  induction array generalizing i k with
  | nil => rfl
  | cons node next ih =>
    rw [jsonArrayLoop]
    cases k with
    | zero => simp
    | succ k =>
      rw [if_pos (by omega), List.getElem?_cons_succ, ← ih (i + 1) k]
      congr 1
      omega

/-- `JsonArrayAt` gives the element. -/
theorem jsonArrayAt_eq (j : JsonNode) (k : Nat) :
  jsonArrayAt j k = j.elem k
  := by
  cases j with
  | array self array =>
    have h := jsonArrayLoop_eq 0 k array
    rw [Nat.zero_add] at h
    rw [jsonArrayAt, if_neg (by omega)]
    apply h
  | _ => rfl

theorem jsonArrayAt_none {j : JsonNode} (h : j.type ≠ .array) (idx : Int) :
  jsonArrayAt j idx = none
  := by
  cases j with
  | scalar => rfl
  | array => cases h rfl
  | object => rfl

theorem jsonObjectAt_none {j : JsonNode} (h : j.type ≠ .object) (name : List Byte) :
  jsonObjectAt j name = none
  := by
  cases j with
  | scalar => rfl
  | array => rfl
  | object => cases h rfl

theorem map_val_inj {a b : List StrChar} :
  a.map Subtype.val = b.map Subtype.val ↔ a = b
  := (List.map_injective_iff.mpr Subtype.val_injective).eq_iff

theorem jsonObjectLoop_eq (name : List StrChar) (object : List (List StrChar × JsonNode)) :
  jsonObjectLoop (name.map Subtype.val) object = (object.find? fun m => m.1 = name).map Prod.snd
  := by
  induction object with
  | nil => rfl
  | cons m next ih =>
    obtain ⟨key, el⟩ := m
    rw [jsonObjectLoop, ih]
    rcases eq_or_ne name key with rfl | hne
    · simp
    · rw [if_pos (map_val_inj.not.mpr hne), List.find?_cons_of_neg]
      simpa using hne.symm

/-- `JsonObjectAt` gives the first member. -/
theorem jsonObjectAt_eq (j : JsonNode) (name : List StrChar) :
  jsonObjectAt j (name.map Subtype.val) = j.member name
  := by
  cases j with
  | object self object => exact jsonObjectLoop_eq name object
  | _ => rfl

/-! ### The loop -/

section

variable {s : State} {w tail : List Byte} {c : Byte} {r : Option (Option JsonNode)} {j : JsonNode}

/-- A turn of the loop takes a byte, or more. -/
theorem foot_lt {s' : State} (h : foot s = .inl s') :
  s'.ptr.length < s.ptr.length
  := by
  have htail : (if s.ptr.head? = some 0x5D then s.ptr.tail else s.ptr).length ≤ s.ptr.length := by
    split
    · rw [List.length_tail]
      omega
    · apply le_refl
  rw [foot] at h
  split at h
  case h_1 => cases h
  case h_2 c ptr hptr =>
    rw [hptr, List.length_cons] at htail
    split_ifs at h <;> cases h <;> apply htail

theorem copy_lt {s' : State} {len : Nat} (h : copy s len = .inl s') :
  s'.ptr = s.ptr
  := by
  rw [copy] at h
  split_ifs at h
  cases h
  rfl

theorem take_lt {s' : State} (h : take s c tail = .inl s') :
  s'.ptr = tail
  := by
  rw [take] at h
  split_ifs at h
  · cases h
    rfl
  · split at h
    · rw [copy_lt h]
    · rw [copy_lt h]
    all_goals cases h

theorem step_keeps : Loop.Keeps step (fun _ => True) (fun _ => True) fun s => s.ptr.length := by
  intro s _
  cases hs : step s with
  | inr r => trivial
  | inl s' =>
    use trivial
    rw [step] at hs
    split at hs
    case h_1 => cases hs
    case h_2 c ptr hptr =>
      split_ifs at hs
      · split at hs
        · cases hs
        · apply foot_lt hs
      · show s'.ptr.length < s.ptr.length
        rw [take_lt hs, hptr, List.length_cons]
        apply Nat.lt_succ_self
      · apply foot_lt hs

/-- The end of a turn does not depend on the step behind it. -/
theorem foot_eq (s : State) (next : Next) (path : List Byte) :
  foot { s with next, path } = foot s
  := by
  rfl

/-- Characters of a step are read to the path. -/
theorem returns_plain_iff (hnext : s.next ≠ .invald) (hw : ∀ c ∈ w, Plain c) (hptr : s.ptr = w ++ tail)
    (hlen : s.path.length + w.length ≤ maxBuf) :
  Loop.Returns step s r ↔ Loop.Returns step { s with path := s.path ++ w, ptr := tail } r
  := by
  induction w generalizing s with
  | nil =>
    rw [List.append_nil]
    rw [List.nil_append] at hptr
    rw [← hptr]
  | cons c w ih =>
    obtain ⟨hzero, hdelim, hstar⟩ := hw c List.mem_cons_self
    rw [List.length_cons] at hlen
    have hstep : step s = .inl { s with path := s.path ++ [c], ptr := w ++ tail } := by
      rw [step, hptr]
      simp only [List.cons_append, hzero, hdelim, Bool.false_eq_true, or_self, and_false, if_false, if_pos hnext]
      rw [take, if_pos hstar, if_neg (by omega)]
    have hrest := ih (s := { s with path := s.path ++ [c], ptr := w ++ tail }) hnext
      (fun c hc => hw c (List.mem_cons_of_mem _ hc)) rfl (by
        rw [List.length_append, List.length_singleton]
        omega)
    simp only [List.append_assoc, List.singleton_append] at hrest
    rw [Loop.returns_iff, hstep]
    apply hrest

/-- Characters that do not fit the path end the loop. -/
theorem returns_long (hnext : s.next ≠ .invald) (hw : ∀ c ∈ w, Plain c) (hptr : s.ptr = w ++ tail)
    (hpath : s.path.length ≤ maxBuf) (hlen : maxBuf < s.path.length + w.length) :
  Loop.Returns step s (some none)
  := by
  obtain ⟨c, rest, hrest⟩ : ∃ c rest, w.drop (maxBuf - s.path.length) = c :: rest := by
    apply List.exists_cons_of_ne_nil
    rw [Ne, List.drop_eq_nil_iff]
    omega
  have hw' : w = w.take (maxBuf - s.path.length) ++ c :: rest := by
    rw [← hrest, List.take_append_drop]
  have hfull : (w.take (maxBuf - s.path.length)).length = maxBuf - s.path.length := by
    rw [List.length_take]
    omega
  obtain ⟨hzero, hdelim, hstar⟩ := hw c (by
    rw [hw']
    apply List.mem_append_right _ List.mem_cons_self)
  rw [hw', List.append_assoc] at hptr
  rw [returns_plain_iff hnext (fun c hc => hw c (List.mem_of_mem_take hc)) hptr (by omega)]
  apply Loop.Returns.done
  rw [step]
  simp only [List.cons_append, hzero, hdelim, Bool.false_eq_true, or_self, and_false, if_false, if_pos hnext]
  rw [take, if_pos hstar, if_pos]
  rw [List.length_append]
  omega

theorem copy_eq {len : Nat} (hfits : s.path.length + len ≤ maxBuf) (hlen : len ≤ s.buf.length) :
  copy s len = .inl { s with path := s.path ++ s.buf.take len }
  := by
  rw [copy, if_neg (not_lt_of_ge hfits), if_neg (not_lt_of_ge hlen)]

theorem copy_behind {len : Nat} (hfits : s.path.length + len ≤ maxBuf) (hlen : s.buf.length < len) :
  copy s len = .inr none
  := by
  rw [copy, if_neg (not_lt_of_ge hfits), if_pos hlen]

/-- A name is copied, though not from its argument. -/
theorem returns_copy_iff {buf ptr : List Byte} {argv : List Arg} {n : List StrChar} :
  Loop.Returns step ⟨j, .obj, [], buf, .str n :: argv, 0x2A :: ptr⟩ r
    ↔ Loop.Leads step (copy ⟨j, .obj, [], buf, argv, ptr⟩ n.length) r
  := Loop.returns_iff

/-- What is read first is taken for a character, if it is not a `*`. -/
theorem step_first {buf ptr : List Byte} {argv : List Arg} (hstar : c ≠ 0x2A) :
  step ⟨j, .obj, [], buf, argv, c :: ptr⟩ = .inl ⟨j, .obj, [c], buf, argv, ptr⟩
  := by
  show take ⟨j, .obj, [], buf, argv, c :: ptr⟩ c ptr = _
  rw [take, if_pos hstar]
  rfl

/-- The rest of a selector is read with the node that there is. -/
def rest (buf : List Byte) (argv : List Arg) (ptr : List Byte) : Option JsonNode → State ⊕ Option (Option JsonNode)
  | none => .inr (some none)
  | some j => foot { j, next := .invald, path := [], buf, argv, ptr }

/-- A step that has been read to its end. -/
theorem returns_apply_iff {ptr : List Byte} (hpath : s.path ≠ []) (hptr : s.ptr = c :: ptr)
    (hc : c = 0 ∨ isDelim c = true) :
  Loop.Returns step s r ↔ Loop.Leads step (rest s.buf s.argv s.ptr (apply s)) r
  := by
  have hstep : step s = rest s.buf s.argv s.ptr (apply s) := by
    rw [step, hptr]
    simp only [if_pos (And.intro hpath hc)]
    cases apply s with
    | none => rfl
    | some j => exact hptr ▸ (foot_eq { s with j } .invald []).symm
  rw [Loop.returns_iff, hstep]

/-- The rest of a selector behind a step: the next one, a check or the 0. -/
def Ends (tail : List Byte) : Prop :=
  tail = [0] ∨ ∃ c ptr, tail = c :: ptr ∧ isDelim c = true ∧ c ≠ 0x5D

theorem Ends.exists_cons (h : Ends tail) :
  ∃ c ptr, tail = c :: ptr ∧ (c = 0 ∨ isDelim c = true) ∧ c ≠ 0x5D
  := by
  rcases h with rfl | ⟨c, ptr, rfl, hc, hne⟩
  · exact ⟨0, [], rfl, .inl rfl, by decide⟩
  · exact ⟨c, ptr, rfl, .inr hc, hne⟩

/-- The end of an index. -/
theorem rest_bracket (h : Ends tail) (buf : List Byte) (argv : List Arg) (o : Option JsonNode) :
  rest buf argv (0x5D :: tail) o = rest buf argv tail o
  := by
  obtain ⟨c, ptr, rfl, -, hne⟩ := h.exists_cons
  cases o with
  | none => rfl
  | some j =>
    have hhead : ¬(c :: ptr).head? = some 0x5D := by simpa using hne
    rw [rest, rest, foot, foot]
    simp only [List.head?_cons, if_true, List.tail_cons, Option.some.injEq, if_neg hne]

/-- A path without a 0 is the string in it. -/
theorem State.str_eq (h : ∀ b ∈ s.path, b ≠ 0) :
  s.str = s.path
  := List.takeWhile_eq_self_iff.mpr fun b hb => decide_eq_true (h b hb)

/-- A name that has been read to its end. -/
theorem returns_name_iff {name : List StrChar} (hnext : s.next = .obj) (hpath : s.path = name.map Subtype.val)
    (hne : name ≠ []) (hends : Ends s.ptr) :
  Loop.Returns step s r ↔ Loop.Leads step (rest s.buf s.argv s.ptr (s.j.member name)) r
  := by
  obtain ⟨c, ptr, hptr, hc, -⟩ := hends.exists_cons
  have hstr : s.str = name.map Subtype.val := by
    rw [State.str_eq, hpath]
    intro b hb
    rw [hpath] at hb
    obtain ⟨ch, -, rfl⟩ := List.mem_map.mp hb
    apply ch.property
  rw [returns_apply_iff (by rw [hpath]; exact List.map_eq_nil_iff.not.mpr hne) hptr hc, apply, hnext]
  simp only [hstr, jsonObjectAt_eq]

/-- An index that has been read to its end. -/
theorem returns_index_iff {i : Nat} (hnext : s.next = .array) (hpath : s.path = decimal i)
    (hptr : s.ptr = 0x5D :: tail) (hends : Ends tail) :
  Loop.Returns step s r
    ↔ Loop.Leads step (rest s.buf s.argv tail (s.j.elem (min (2 ^ 63 - 1) i))) r
  := by
  have hstr : s.str = decimal i := by
    rw [State.str_eq, hpath]
    intro b hb
    rw [hpath] at hb
    apply (plain_of_mem_decimal b hb).1
  have happly : apply s = s.j.elem (min (2 ^ 63 - 1) i) := by
    rw [← jsonArrayAt_eq, apply, hnext]
    simp only [hstr, (strtoll_decimal i).1]
    have hmin : ((min (2 ^ 63 - 1) i : Nat) : Int) = min (2 ^ 63 - 1) (i : Int) := by omega
    rw [if_neg, hmin]
    rintro (⟨-, h⟩ | h)
    · apply h rfl
    · omega
  rw [returns_apply_iff (by rw [hpath]; apply decimal_ne_nil) hptr (.inr rfl), happly, hptr, rest_bracket hends]

/-- An index below 0 ends the loop. -/
theorem returns_negative {n : Nat} (hnext : s.next = .array) (hn : n > 0) (hpath : s.path = 0x2D :: decimal n)
    (hptr : s.ptr = 0x5D :: tail) :
  Loop.Returns step s (some none)
  := by
  have hstr : s.str = 0x2D :: decimal n := by
    rw [State.str_eq, hpath]
    intro b hb
    rw [hpath] at hb
    rcases List.mem_cons.mp hb with rfl | hb
    · decide
    · apply (plain_of_mem_decimal b hb).1
  have happly : apply s = none := by
    rw [apply, hnext]
    simp only [hstr, (strtoll_decimal n).2]
    rw [if_pos]
    right
    omega
  rw [returns_apply_iff (by rw [hpath]; apply List.cons_ne_nil) hptr (.inr rfl), happly]
  rfl

/-- An index is printed to the buffer and read to the path. -/
theorem returns_printed_iff {buf ptr : List Byte} {argv : List Arg} {i : Int} :
  Loop.Returns step ⟨j, .array, [], buf, .int i :: argv, 0x2A :: ptr⟩ r
    ↔ Loop.Returns step ⟨j, .array, printed i, printed i ++ 0 :: buf.drop ((printed i).length + 1), argv, ptr⟩ r
  := by
  have hlen := length_printed_le i
  have hstep : step ⟨j, .array, [], buf, .int i :: argv, 0x2A :: ptr⟩
      = .inl ⟨j, .array, printed i, printed i ++ 0 :: buf.drop ((printed i).length + 1), argv, ptr⟩ := by
    show copy ⟨j, .array, [], printed i ++ 0 :: buf.drop ((printed i).length + 1), argv, ptr⟩ (printed i).length = _
    rw [copy_eq]
    · simp only [List.nil_append, List.take_left]
    · show 0 + (printed i).length ≤ 256
      omega
    · simp
  rw [Loop.returns_iff, hstep]
  rfl

/-- A name that is not empty is looked for in an object that has no such member. -/
def Missing (j : JsonNode) : State ⊕ Option (Option JsonNode) → Prop
  | .inl s => s.next = .obj ∧ s.j = j ∧ ∃ b p, s.path = b :: p ∧ b ≠ 0
  | .inr r => ∀ j', r ≠ some (some j')

theorem missing_copy (hs : Missing j (.inl s)) (len : Nat) :
  Missing j (copy s len)
  := by
  obtain ⟨hnext, hj, b, p, hpath, hb⟩ := hs
  rw [copy]
  split_ifs
  · exact fun _ => nofun
  · exact fun _ => nofun
  · exact ⟨hnext, hj, b, _, congrArg (· ++ _) hpath, hb⟩

theorem missing_take (hs : Missing j (.inl s)) (c : Byte) (ptr : List Byte) :
  Missing j (take s c ptr)
  := by
  obtain ⟨hnext, hj, b, p, hpath, hb⟩ := hs
  rw [take]
  split_ifs
  · exact fun _ => nofun
  · exact ⟨hnext, hj, b, _, congrArg (· ++ _) hpath, hb⟩
  · split
    case h_1 harray _ => cases hnext.symm.trans harray
    case h_2 =>
      apply missing_copy
      exact ⟨hnext, hj, b, p, hpath, hb⟩
    all_goals exact fun _ => nofun

/-- Such a name is not found, whatever is read to it. -/
theorem missing_step (h : ∀ b name, jsonObjectAt j (b :: name) = none) (s : State) (hs : Missing j (.inl s)) :
  Missing j (step s)
  := by
  obtain ⟨hnext, hj, b, p, hpath, hb⟩ := hs
  have happly : apply s = none := by
    have hstr : s.str = b :: p.takeWhile (· ≠ 0) := by
      rw [State.str, hpath]
      exact List.takeWhile_cons_of_pos (decide_eq_true hb)
    rw [apply, hnext]
    simp only [hstr]
    rw [hj, h]
  rw [step]
  split
  · exact fun _ => nofun
  · rw [happly]
    split_ifs
    · exact fun _ => nofun
    · exact missing_take ⟨hnext, hj, b, p, hpath, hb⟩ _ _
    case neg hinvald =>
      apply absurd _ hinvald
      rw [hnext]
      decide

/-- What a turn makes of the node: it keeps it, or it does not return another one. -/
def Stays (j : JsonNode) : State ⊕ Option (Option JsonNode) → Prop
  | .inl s => s.j = j
  | .inr r => ∀ j', r = some (some j') → j' = j

theorem stays_foot (s : State) :
  Stays s.j (foot s)
  := by
  rw [foot]
  split
  · intro j' h
    cases h
  · split_ifs
    · intro j' h
      cases h
      rfl
    · rfl
    · rfl
    · rfl
    · intro j' h
      cases h

theorem stays_copy (s : State) (len : Nat) :
  Stays s.j (copy s len)
  := by
  rw [copy]
  split_ifs
  · intro j' h
    cases h
  · intro j' h
    cases h
  · rfl

theorem stays_take (s : State) (c : Byte) (ptr : List Byte) :
  Stays s.j (take s c ptr)
  := by
  rw [take]
  split_ifs
  · intro j' h
    cases h
  · rfl
  · split
    · apply stays_copy
    · apply stays_copy
    all_goals
      intro j' h
      cases h

theorem stays_step (h : ∀ j, apply s = some j → j = s.j) :
  Stays s.j (step s)
  := by
  rw [step]
  split
  · intro j' h
    cases h
  · split_ifs
    · split
      · intro j' h
        cases h
      case h_2 j happly =>
        have hfoot := stays_foot { s with j }
        rwa [h j happly] at hfoot ⊢
    · apply stays_take
    · apply stays_foot

/-- A node that has no list is the only one that is returned behind it. -/
theorem stays_scalar {j : JsonNode} (harray : j.type ≠ .array) (hobject : j.type ≠ .object) (s : State)
    (hs : Stays j (.inl s)) :
  Stays j (step s)
  := by
  obtain rfl : s.j = j := hs
  apply stays_step
  intro j happly
  rw [apply] at happly
  split at happly
  · simp only [jsonArrayAt_none harray, ite_self] at happly
    cases happly
  · rw [jsonObjectAt_none hobject] at happly
    cases happly
  · split_ifs at happly
    cases happly
    rfl
  · cases happly

end

end JsonSel

/-! ### Steps -/

theorem JsonName.plain_of_mem (n : JsonName) :
  ∀ c ∈ n.text.map Subtype.val, JsonSel.Plain c
  := by
  intro c hc
  obtain ⟨ch, hch, rfl⟩ := List.mem_map.mp hc
  exact ⟨ch.property, n.plain ch hch⟩

namespace JsonStep

open JsonSel (Ends rest)

/-- A step is taken right, if `printed` is what was printed last. -/
def Followed (printed : List Byte) : JsonStep → Prop
  | name n => n.text.length ≤ JsonSel.maxBuf
  | index i => i < 2 ^ 63
  | anyName n _ => n ≠ [] ∧ n.map Subtype.val <+: printed
  | anyIndex i _ => i < 2 ^ 31

/-- What was printed last behind a step. -/
def leaves (printed : List Byte) : JsonStep → List Byte
  | anyIndex i _ => JsonSel.decimal i
  | _ => printed

/-- What the buffer has behind a step. -/
def buffer (buf : List Byte) : JsonStep → List Byte
  | anyIndex i _ => JsonSel.decimal i ++ 0 :: buf.drop ((JsonSel.decimal i).length + 1)
  | _ => buf

variable {st : JsonStep} {printed buf tail : List Byte} {argv : List JsonSel.Arg} {j : JsonNode}
  {r : Option (Option JsonNode)}

/-- An index is read, at most the greatest one that there can be. -/
theorem leads_index_iff {i : Nat} (hlen : (JsonSel.decimal i).length ≤ JsonSel.maxBuf) (hends : Ends tail) :
  Loop.Leads JsonSel.step (rest buf argv ((index i).text ++ tail) (some j)) r
    ↔ Loop.Leads JsonSel.step (rest buf argv tail (j.elem (min (2 ^ 63 - 1) i))) r
  := by
  have hptr : JsonSel.decimal i ++ [0x5D] ++ tail = JsonSel.decimal i ++ (0x5D :: tail) := List.append_assoc _ _ _
  show Loop.Returns JsonSel.step ⟨j, .array, [], buf, argv, JsonSel.decimal i ++ [0x5D] ++ tail⟩ r ↔ _
  rw [JsonSel.returns_plain_iff (show JsonSel.Next.array ≠ .invald by decide) JsonSel.plain_of_mem_decimal hptr
      (by simpa using hlen),
    JsonSel.returns_index_iff rfl rfl rfl hends]

/-- Behind a step that is taken right the rest of the selector is read with its node. -/
theorem Followed.leads_iff (h : st.Followed printed) (hbuf : printed <+: buf) (hends : Ends tail) :
  Loop.Leads JsonSel.step (rest buf (st.arg.toList ++ argv) (st.text ++ tail) (some j)) r
    ↔ Loop.Leads JsonSel.step (rest (st.buffer buf) argv tail (st.select j)) r
  := by
  cases st with
  | name n =>
    have hlen : (n.text.map Subtype.val).length ≤ JsonSel.maxBuf := by
      rw [List.length_map]
      apply h
    show Loop.Returns JsonSel.step ⟨j, .obj, [], buf, argv, n.text.map Subtype.val ++ tail⟩ r ↔ _
    rw [JsonSel.returns_plain_iff (show JsonSel.Next.obj ≠ .invald by decide) n.plain_of_mem rfl
        (by simpa using hlen),
      JsonSel.returns_name_iff rfl rfl n.ne hends]
    rfl
  | index i =>
    have hlen : (JsonSel.decimal i).length ≤ JsonSel.maxBuf :=
      (JsonSel.length_decimal_le (h.trans (by decide) : i < 10 ^ (18 + 1))).trans (by decide)
    have hmin : min (2 ^ 63 - 1) i = i := Nat.min_eq_right (Nat.le_sub_one_of_lt h)
    show Loop.Leads JsonSel.step (rest buf argv _ _) r ↔ _
    rw [leads_index_iff hlen hends, hmin]
    rfl
  | anyName n fits =>
    obtain ⟨hne, hprefix⟩ := h
    have hpre := hprefix.trans hbuf
    have hlen := hpre.length_le
    rw [List.length_map] at hlen
    have htake : buf.take n.length = n.map Subtype.val := by
      rw [← List.length_map (f := Subtype.val), ← List.prefix_iff_eq_take.mp hpre]
    show Loop.Returns JsonSel.step ⟨j, .obj, [], buf, .str n :: argv, 0x2A :: tail⟩ r ↔ _
    rw [JsonSel.returns_copy_iff, JsonSel.copy_eq (by simpa using fits) hlen]
    show Loop.Returns JsonSel.step ⟨j, .obj, buf.take n.length, buf, argv, tail⟩ r ↔ _
    rw [JsonSel.returns_name_iff rfl htake hne hends]
    rfl
  | anyIndex i fits =>
    have hmin : min (2 ^ 63 - 1) i = i := Nat.min_eq_right (Nat.le_sub_one_of_lt fits)
    show Loop.Returns JsonSel.step ⟨j, .array, [], buf, .int i :: argv, 0x2A :: 0x5D :: tail⟩ r ↔ _
    rw [JsonSel.returns_printed_iff, JsonSel.printed_of_lt h, JsonSel.returns_index_iff rfl rfl rfl hends, hmin]
    rfl

theorem leaves_prefix (hbuf : printed <+: buf) :
  st.leaves printed <+: st.buffer buf
  := by
  cases st with
  | anyIndex i fits => apply List.prefix_append
  | _ => exact hbuf

theorem leaves_zero_prefix (hbuf : printed ++ [0] <+: buf) :
  st.leaves printed ++ [0] <+: st.buffer buf
  := by
  cases st with
  | anyIndex i fits =>
    show JsonSel.decimal i ++ [0] <+: JsonSel.decimal i ++ ([0] ++ _)
    rw [← List.append_assoc]
    apply List.prefix_append
  | _ => exact hbuf

/-! ### Trees -/

/-- Another node. -/
def other : JsonNode := .scalar 0 .null (by decide)

/-- A tree in which a node is that of a step, behind others. -/
def tree (node : JsonNode) : JsonStep → JsonNode
  | name n => .object 0 [(n.text, node)]
  | index i => .array 0 (List.replicate i other ++ [node])
  | anyName n _ => .object 0 [(n, node)]
  | anyIndex i _ => .array 0 (List.replicate i other ++ [node])

theorem select_tree (st : JsonStep) (node : JsonNode) :
  st.select (st.tree node) = some node
  := by
  cases st with
  | name n => simp [select, tree, JsonNode.member]
  | index i => simp [select, tree, JsonNode.elem]
  | anyName n fits => simp [select, tree, JsonNode.member]
  | anyIndex i fits => simp [select, tree, JsonNode.elem]

variable {node target : JsonNode}

theorem elem_others {i k : Nat} (h : k < i) :
  (JsonNode.array 0 (List.replicate i other ++ [node])).elem k = some other
  := by
  rw [JsonNode.elem, List.getElem?_append_left (by rwa [List.length_replicate]), List.getElem?_replicate, if_pos h]

/-- Behind another node there is no way to one. -/
theorem not_leads_other (hne : target ≠ other) {ptr : List Byte} :
  ¬Loop.Leads JsonSel.step (rest buf argv ptr (some other)) (some (some target))
  := by
  intro hlead
  have hkeeps := JsonSel.stays_scalar (j := other) (by decide) (by decide)
  apply hne (Loop.Leads.post (JsonSel.Stays other) hkeeps (JsonSel.stays_foot _) hlead target rfl)

/-- A name that was not printed is not what is in the buffer. -/
theorem copied_ne {n : List StrChar} (h : ¬n.map Subtype.val <+: printed) (hbuf : printed ++ [0] <+: buf) :
  (buf.take n.length).takeWhile (· ≠ 0) ≠ n.map Subtype.val
  := by
  intro heq
  have hpre : n.map Subtype.val <+: buf := by
    rw [← heq]
    apply (List.takeWhile_prefix _).trans (List.take_prefix _ _)
  rcases Nat.lt_or_ge printed.length (n.map Subtype.val).length with hlt | hge
  · have hin : printed ++ [0] <+: n.map Subtype.val := by
      apply List.prefix_of_prefix_length_le hbuf hpre
      rwa [List.length_append]
    obtain ⟨ch, -, hch⟩ := List.mem_map.mp (hin.subset (List.mem_append_right _ (List.mem_singleton.mpr rfl)))
    apply ch.property hch
  · apply h (List.prefix_of_prefix_length_le hpre ((List.prefix_append _ _).trans hbuf) hge)

/-- A name that is empty or not printed is not found. -/
theorem not_leads_anyName {n : List StrChar} {fits : n.length ≤ JsonSel.maxBuf}
    (h : ¬(anyName n fits).Followed printed) (hbuf : printed ++ [0] <+: buf) (hends : Ends tail) :
  ¬Loop.Leads JsonSel.step (rest buf (.str n :: argv) ((anyName n fits).text ++ tail) (some (.object 0 [(n, node)])))
    (some (some target))
  := by
  intro hlead
  have hfits : ([] : List Byte).length + n.length ≤ JsonSel.maxBuf := by simpa using fits
  change Loop.Returns JsonSel.step ⟨.object 0 [(n, node)], .obj, [], buf, .str n :: argv, 0x2A :: tail⟩ _ at hlead
  rw [JsonSel.returns_copy_iff] at hlead
  rcases eq_or_ne n [] with rfl | hne
  · -- the next character is taken for one of the name
    have hnone : ([] : List StrChar).length ≤ buf.length := Nat.zero_le _
    rw [JsonSel.copy_eq hfits hnone] at hlead
    change Loop.Returns JsonSel.step ⟨.object 0 [([], node)], .obj, [], buf, argv, tail⟩ _ at hlead
    obtain ⟨c, ptr, rfl, hc, -⟩ := hends.exists_cons
    have hstar : c ≠ 0x2A := by
      rintro rfl
      revert hc
      decide
    rw [Loop.returns_iff, JsonSel.step_first hstar] at hlead
    rcases hends with heq | ⟨c, ptr, heq, hdelim, -⟩
    · cases heq
      have hbehind : Loop.Returns JsonSel.step ⟨.object 0 [([], node)], .obj, [0], buf, argv, []⟩ none := .done rfl
      cases hbehind.unique hlead
    · cases heq
      have hmissing : ∀ b name, jsonObjectAt (.object 0 [([], node)]) (b :: name) = none := fun _ _ => rfl
      have hzero : c ≠ 0 := by
        rintro rfl
        cases hdelim
      apply hlead.post (JsonSel.Missing _) (JsonSel.missing_step hmissing) _ target rfl
      exact ⟨rfl, rfl, c, [], rfl, hzero⟩
  · rcases Nat.lt_or_ge buf.length n.length with hlong | hshort
    · rw [JsonSel.copy_behind hfits hlong] at hlead
      cases hlead
    · rw [JsonSel.copy_eq hfits hshort] at hlead
      obtain ⟨c, ptr, hptr, hc, -⟩ := hends.exists_cons
      change Loop.Returns JsonSel.step ⟨.object 0 [(n, node)], .obj, buf.take n.length, buf, argv, tail⟩ _ at hlead
      have hpath : buf.take n.length ≠ [] := by
        have hpos := List.length_pos_of_ne_nil hne
        rw [← List.length_pos_iff, List.length_take]
        omega
      have happly : JsonSel.apply ⟨.object 0 [(n, node)], .obj, buf.take n.length, buf, argv, tail⟩ = none :=
        if_pos (copied_ne (fun hpre => h ⟨hne, hpre⟩) hbuf)
      rw [JsonSel.returns_apply_iff hpath hptr hc, happly] at hlead
      cases hlead

/-- A step that is not taken right does not lead to a node behind it. -/
theorem not_leads_of_not_followed (h : ¬st.Followed printed) (hbuf : printed ++ [0] <+: buf) (hends : Ends tail)
    (hne : target ≠ other) :
  ¬Loop.Leads JsonSel.step (rest buf (st.arg.toList ++ argv) (st.text ++ tail) (some (st.tree node)))
    (some (some target))
  := by
  intro hlead
  cases st with
  | name n =>
    have hlong := JsonSel.returns_long
      (s := ⟨tree node (name n), .obj, [], buf, argv, n.text.map Subtype.val ++ tail⟩)
      (show JsonSel.Next.obj ≠ .invald by decide) n.plain_of_mem rfl (Nat.zero_le _) (by
        rw [List.length_map]
        simpa [Followed] using h)
    cases hlong.unique hlead
  | index i =>
    have hge : 2 ^ 63 ≤ i := Nat.le_of_not_lt h
    rcases Nat.lt_or_ge JsonSel.maxBuf (JsonSel.decimal i).length with hlt | hle
    · have hlong := JsonSel.returns_long
        (s := ⟨tree node (index i), .array, [], buf, argv, JsonSel.decimal i ++ [0x5D] ++ tail⟩)
        (show JsonSel.Next.array ≠ .invald by decide) JsonSel.plain_of_mem_decimal (List.append_assoc _ _ _)
        (Nat.zero_le _) (by simpa using hlt)
      cases hlong.unique hlead
    · rw [leads_index_iff hle hends, Nat.min_eq_left (by omega), tree, elem_others (by omega)] at hlead
      apply not_leads_other hne hlead
  | anyName n fits =>
    apply not_leads_anyName h hbuf hends hlead
  | anyIndex i fits =>
    have hge : 2 ^ 31 ≤ i := Nat.le_of_not_lt h
    change Loop.Returns JsonSel.step ⟨_, .array, [], buf, .int i :: argv, 0x2A :: 0x5D :: tail⟩ _ at hlead
    rw [JsonSel.returns_printed_iff] at hlead
    rcases JsonSel.printed_eq i with ⟨k, hk, hprinted⟩ | ⟨k, hk, hprinted⟩
    · rw [hprinted, JsonSel.returns_index_iff rfl rfl rfl hends, Nat.min_eq_right (by omega), tree,
        elem_others (by omega)] at hlead
      apply not_leads_other hne hlead
    · have hneg := JsonSel.returns_negative (s := ⟨tree node (anyIndex i fits), .array, JsonSel.printed i,
        JsonSel.printed i ++ 0 :: buf.drop ((JsonSel.printed i).length + 1), argv, 0x5D :: tail⟩) rfl hk hprinted rfl
      cases hneg.unique hlead

end JsonStep

/-! ### Selectors -/

namespace JsonSelector

open JsonSel (Ends rest)

/-- All steps are taken right, if `printed` is what was printed last. -/
def AllFollowed : List Byte → List JsonStep → Prop
  | _, [] => True
  | printed, st :: steps => st.Followed printed ∧ AllFollowed (st.leaves printed) steps

variable {steps : List JsonStep} {letter : Option JsonLetter} {printed buf : List Byte} {j target : JsonNode}

theorem ends_text (steps : List JsonStep) (letter : Option JsonLetter) :
  Ends (steps.flatMap JsonStep.text ++ (check letter ++ [0]))
  := by
  cases steps with
  | nil =>
    cases letter with
    | none => exact .inl rfl
    | some l => exact .inr ⟨0x3A, [l.byte, 0], rfl, rfl, by decide⟩
  | cons st steps => cases st <;> exact .inr ⟨_, _, rfl, rfl, by decide⟩

theorem jsonTypeCheck_byte (j : JsonNode) (l : JsonLetter) :
  jsonTypeCheck j l.byte = decide (j.type = l.type)
  := by
  cases l <;> rfl

/-- The end of a selector. -/
theorem leads_check (buf : List Byte) (letter : Option JsonLetter) (j : JsonNode) :
  Loop.Leads JsonSel.step (rest buf [] (check letter ++ [0]) (some j)) (some (if Fits letter j then some j else none))
  := by
  cases letter with
  | none =>
    rw [if_pos (show Fits none j from nofun)]
    rfl
  | some l =>
    have hplain : ∀ c ∈ [l.byte], JsonSel.Plain c := by
      intro c hc
      rw [List.mem_singleton.mp hc]
      cases l <;> exact ⟨by decide, by decide, by decide⟩
    have hfits : Fits (some l) j ↔ j.type = l.type := by simp [Fits]
    have happly : JsonSel.apply ⟨j, .typecheck, [l.byte], buf, [], [0]⟩
        = if Fits (some l) j then some j else none := by
      show (if jsonTypeCheck j l.byte then some j else none) = _
      simp only [jsonTypeCheck_byte, decide_eq_true_eq, hfits]
    show Loop.Returns JsonSel.step ⟨j, .typecheck, [], buf, [], [l.byte] ++ [0]⟩ _
    rw [JsonSel.returns_plain_iff (show JsonSel.Next.typecheck ≠ .invald by decide) hplain rfl (by
        show 0 + 1 ≤ 256
        decide),
      JsonSel.returns_apply_iff (List.cons_ne_nil _ _) rfl (.inl rfl), List.nil_append, happly]
    split <;> rfl

theorem filterMap_arg (st : JsonStep) (steps : List JsonStep) :
  (st :: steps).filterMap JsonStep.arg = st.arg.toList ++ steps.filterMap JsonStep.arg
  := by
  cases st <;> rfl

/-- A selector whose steps are all taken right leads to its node. -/
theorem leads_select (h : AllFollowed printed steps) (hbuf : printed <+: buf) :
  Loop.Leads JsonSel.step
    (rest buf (steps.filterMap JsonStep.arg) (steps.flatMap JsonStep.text ++ (check letter ++ [0])) (some j))
    (some ((steps.foldlM (fun j st => JsonStep.select st j) j).bind fun j => if Fits letter j then some j else none))
  := by
  induction steps generalizing printed buf j with
  | nil => exact leads_check buf letter j
  | cons st steps ih =>
    rw [filterMap_arg, List.flatMap_cons, List.append_assoc, h.1.leads_iff hbuf (ends_text steps letter),
      List.foldlM_cons]
    cases st.select j with
    | none => rfl
    | some j' => exact ih h.2 (JsonStep.leaves_prefix hbuf)

theorem exists_tree (steps : List JsonStep) (target : JsonNode) :
  ∃ j, steps.foldlM (fun j st => JsonStep.select st j) j = some target
  := by
  induction steps with
  | nil => exact ⟨target, rfl⟩
  | cons st steps ih =>
    obtain ⟨j, hj⟩ := ih
    use st.tree j
    rw [List.foldlM_cons, JsonStep.select_tree]
    exact hj

/-- A selector whose steps are not all taken right does not lead to its node, in some tree. -/
theorem exists_not_leads (h : ¬AllFollowed printed steps) (hbuf : printed ++ [0] <+: buf)
    (hne : target ≠ JsonStep.other) :
  ∃ j, steps.foldlM (fun j st => JsonStep.select st j) j = some target ∧ ¬Loop.Leads JsonSel.step
    (rest buf (steps.filterMap JsonStep.arg) (steps.flatMap JsonStep.text ++ (check letter ++ [0])) (some j))
    (some (some target))
  := by
  induction steps generalizing printed buf with
  | nil => cases h trivial
  | cons st steps ih =>
    rw [filterMap_arg, List.flatMap_cons, List.append_assoc]
    rcases em (st.Followed printed) with hst | hst
    · have hrest : ¬AllFollowed (st.leaves printed) steps := fun hrest => h ⟨hst, hrest⟩
      obtain ⟨j, hj, hnot⟩ := ih hrest (JsonStep.leaves_zero_prefix hbuf)
      use st.tree j
      rw [List.foldlM_cons, hst.leads_iff ((List.prefix_append _ _).trans hbuf) (ends_text steps letter),
        JsonStep.select_tree]
      exact ⟨hj, hnot⟩
    · obtain ⟨j, hj⟩ := exists_tree steps target
      use st.tree j
      rw [List.foldlM_cons, JsonStep.select_tree]
      exact ⟨hj, JsonStep.not_leads_of_not_followed hst hbuf (ends_text steps letter) hne⟩

/-- The loop is left with what its first step leads to. -/
theorem jsonSelect_eq_iff (sel : JsonSelector) {r : Option JsonNode} :
  jsonSelect buf j sel.text sel.argv = some r
    ↔ Loop.Leads JsonSel.step (rest buf sel.argv (sel.text ++ [0]) (some j)) (some r)
  := by
  obtain ⟨c, ptr, htext, hc⟩ : ∃ c ptr, sel.text = c :: ptr ∧ (c = 0x2E ∨ c = 0x5B) := by
    obtain ⟨st, steps, hsteps⟩ := List.exists_cons_of_ne_nil sel.ne
    rw [text, hsteps]
    cases st with
    | name n => exact ⟨_, _, rfl, .inl rfl⟩
    | index i => exact ⟨_, _, rfl, .inr rfl⟩
    | anyName n fits => exact ⟨_, _, rfl, .inl rfl⟩
    | anyIndex i fits => exact ⟨_, _, rfl, .inr rfl⟩
  have hhead : ¬(sel.text.head? ≠ some 0x2E ∧ sel.text.head? ≠ some 0x5B) := by
    rw [htext, List.head?_cons]
    rcases hc with rfl | rfl <;> decide
  let s := JsonSel.start buf j sel.text sel.argv
  have hstep : JsonSel.step s = rest buf sel.argv (sel.text ++ [0]) (some j) := by
    have hptr : s.ptr = c :: (ptr ++ [0]) := congrArg (· ++ [0]) htext
    rw [JsonSel.step, hptr]
    rfl
  -- every turn takes a byte, so that the loop ends
  obtain ⟨r', hrun, -⟩ := JsonSel.step_keeps.run (s := s) trivial (show s.ptr.length < sel.text.length + 2 by
    show (sel.text ++ [0]).length < _
    rw [List.length_append, List.length_singleton]
    apply Nat.lt_succ_self)
  rw [jsonSelect, if_neg hhead, ← hstep, ← Loop.returns_iff]
  change (Loop.run _ _ s).join = _ ↔ _
  rw [hrun, Option.join_some]
  constructor
  · rintro rfl
    exact ⟨_, hrun⟩
  · apply (Loop.Returns.unique ⟨_, hrun⟩)

/-- A node of the type that is checked. -/
def sample : Option JsonLetter → JsonNode
  | none => .array 1 []
  | some .string => .scalar 1 .string (by decide)
  | some .float => .scalar 1 .float (by decide)
  | some .int => .scalar 1 .int (by decide)
  | some .array => .array 1 []
  | some .object => .object 1 []
  | some .bool => .scalar 1 .bool (by decide)
  | some .null => .scalar 1 .null (by decide)

theorem sample_spec (letter : Option JsonLetter) :
  Fits letter (sample letter) ∧ sample letter ≠ JsonStep.other
  := by
  constructor
  · rintro l rfl
    cases l <;> rfl
  · intro h
    cases letter with
    | none => cases h
    | some l => cases l <;> cases h

end JsonSelector

/-- `JsonSelect` follows a selector exactly when each of its names fits the path, each of its indexes is one of 63 bits,
each index that is an argument one of 31 bits, and each name that is an argument is not empty and what the index printed
last begins with. -/
theorem jsonSelector_follows_iff (sel : JsonSelector) :
  sel.Follows ↔ JsonSelector.AllFollowed [] sel.steps
  := by
  constructor
  · intro h
    by_contra hnot
    obtain ⟨hfits, hne⟩ := JsonSelector.sample_spec sel.letter
    have hbuf : ([] : List Byte) ++ [0] <+: List.replicate 64 0 := ⟨List.replicate 63 0, rfl⟩
    obtain ⟨j, hj, hleads⟩ := JsonSelector.exists_not_leads hnot hbuf hne
    apply hleads
    have hrun := h j (List.replicate 64 0) List.length_replicate
    rw [JsonSelector.jsonSelect_eq_iff, JsonSelector.select, hj, Option.bind_some, if_pos hfits, JsonSelector.text,
      List.append_assoc] at hrun
    exact hrun
  · intro h j buf hlen
    rw [JsonSelector.jsonSelect_eq_iff, JsonSelector.text, List.append_assoc]
    exact JsonSelector.leads_select h List.nil_prefix

/-- `JsonSelect` with `.*` and the name of the only member finds nothing if the buffer begins with a 0. -/
theorem not_jsonSelector_follows :
  ¬∀ sel : JsonSelector, sel.Follows
  := by
  intro h
  let a : StrChar := ⟨0x61, by decide⟩
  have hrun := h ⟨[.anyName [a] (by decide)], by decide, none⟩ (.object 0 [([a], .scalar 1 .int (by decide))])
    (List.replicate 64 0) List.length_replicate
  cases hrun

end Polyc
