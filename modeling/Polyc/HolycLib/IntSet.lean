import Mathlib.Data.Finset.SDiff
import Polyc.HolycLib.RBTreeCorrect

/-!
# Sets of integers

The sets of integers of `set.HC`, over the red-black tree.  The sets are kept in the order in
which they were made, and a pointer to a set is its place.  An iterator is what `IntSetIterNew`
makes of memory that was just allocated and may hold anything: its stack has entries for the
members of the set, `sp` may be anywhere, and an access outside the stack is `none`.
-/

namespace Polyc

/-- The sets that were made. -/
abbrev IntSets := List (RBTree Int)

/-- `IntSetCmp`. -/
def intSetCmp (k1 k2 : Int) : Int :=
  if k1 < k2 then -1
  else if k1 > k2 then 1
  else 0

/-- `IntSetNew`. -/
def intSetNew (m : IntSets) : IntSets × Nat := (m ++ [rbTreeNew Int], m.length)

/-- `IntSetSize`. -/
def intSetSize (m : IntSets) (set : Nat) : Option Nat := m[set]?.map RBTree.size

/-- `IntSetHas`. -/
def intSetHas (m : IntSets) (set : Nat) (key : Int) : Option Bool := do
  let tree ← m[set]?
  rbTreeHas intSetCmp tree key

/-- `IntSetAdd`. -/
def intSetAdd (m : IntSets) (set : Nat) (key : Int) : Option IntSets := do
  let tree ← m[set]?
  let tree ← rbTreeInsert intSetCmp tree key 0
  some (m.set set tree)

/-! ### Runs -/

/-- A call that makes a set, or adds a key to one. -/
inductive IntSetCall where
  | new
  | add (set : Nat) (key : Int)
  deriving DecidableEq

/-- What a call does to the sets. -/
def intSetCall (m : IntSets) : IntSetCall → Option IntSets
  | .new => some (intSetNew m).1
  | .add set key => intSetAdd m set key

/-- Some calls, from no sets at all. -/
def intSetRun (calls : List IntSetCall) : Option IntSets := calls.foldlM intSetCall []

/-- The key that a call adds to a set. -/
def IntSetCall.keyFor (set : Nat) : IntSetCall → Option Int
  | .new => none
  | .add set' key => if set' = set then some key else none

/-- The keys that some calls add to a set. -/
def keysAdded (calls : List IntSetCall) (set : Nat) : List Int :=
  calls.filterMap (IntSetCall.keyFor set)

/-! ### Iteration -/

/-- What the memory of an iterator and of its stack holds when it is allocated. -/
structure IntSetFresh where
  sp : Int
  stack : Int → RBPtr

/-- An `IntSetIter` of a set, with the number of entries that its stack was allocated for. -/
structure IntSetIter where
  set : Nat
  sp : Int
  stack : Int → RBPtr
  allocated : Nat

/-- The index of an entry of the stack. -/
def IntSetIter.InStack (it : IntSetIter) (i : Int) : Prop := 0 ≤ i ∧ i < it.allocated

instance (it : IntSetIter) (i : Int) : Decidable (it.InStack i) :=
  inferInstanceAs (Decidable (_ ∧ _))

/-- `it->stack[it->sp++] = node`. -/
def intSetIterPush (it : IntSetIter) (node : RBPtr) : Option IntSetIter :=
  if it.InStack it.sp then
    some { it with stack := Function.update it.stack it.sp node, sp := it.sp + 1 }
  else none

/-- `it->stack[--it->sp]`. -/
def intSetIterPop (it : IntSetIter) : Option (IntSetIter × RBPtr) :=
  if it.InStack (it.sp - 1) then some ({ it with sp := it.sp - 1 }, it.stack (it.sp - 1))
  else none

/-- The loops that push a node and its left descendants. -/
def intSetPushLeft (tree : RBTree Int) : Nat → IntSetIter → RBPtr → Option IntSetIter
  | 0, _, _ => none
  | fuel + 1, it, node =>
    if node ≠ .null ∧ node ≠ .sentinal then do
      let it ← intSetIterPush it node
      let left ← tree.child .left node
      intSetPushLeft tree fuel it left
    else some it

/-- `IntSetIterNew`: nothing is written to `sp`. -/
def intSetIterNew (m : IntSets) (set : Nat) (fresh : IntSetFresh) : Option IntSetIter := do
  let tree ← m[set]?
  intSetPushLeft tree (tree.size + 1) ⟨set, fresh.sp, fresh.stack, tree.size⟩ tree.root

/-- `IntSetIterNext`, with the key of the entry if one is returned. -/
def intSetIterNext (m : IntSets) (it : IntSetIter) : Option (IntSetIter × Option Int) :=
  if it.sp = 0 then some (it, none)
  else do
    let tree ← m[it.set]?
    let (it, node) ← intSetIterPop it
    let n ← tree.deref node
    let right ← tree.child .right node
    let it ← intSetPushLeft tree (tree.size + 1) it right
    some (it, some n.key)

section Each

variable {σ : Type}

/-- `while ((entry = IntSetIterNext(it)))` with a body, until the body leaves; `sets` are the sets
in a state. -/
def intSetEach (sets : σ → IntSets) (leave : σ → Bool) (body : σ → Int → Option σ) :
    Nat → IntSetIter → σ → Option σ
  | 0, _, _ => none
  | fuel + 1, it, s => do
    let (it, entry) ← intSetIterNext (sets s) it
    match entry with
    | none => some s
    | some key => do
      let s ← body s key
      if leave s then some s else intSetEach sets leave body fuel it s

end Each

/-! ### Operations -/

/-- The loops that add the keys that a test keeps to a set. -/
def intSetAddEach (set : Nat) (keep : IntSets → Int → Option Bool) (fuel : Nat) (it : IntSetIter)
    (m : IntSets) : Option IntSets :=
  intSetEach id (fun _ => false)
    (fun m key => do
      let b ← keep m key
      if b then intSetAdd m set key else some m)
    fuel it m

/-- `IntSetUnion`. -/
def intSetUnion (fuel : Nat) (m : IntSets) (s1 s2 : Nat) (fresh1 fresh2 : IntSetFresh) :
    Option (IntSets × Nat) := do
  let (m, unionSet) := intSetNew m
  let i1 ← intSetIterNew m s1 fresh1
  let i2 ← intSetIterNew m s2 fresh2
  let m ← intSetAddEach unionSet (fun _ _ => some true) fuel i1 m
  let m ← intSetAddEach unionSet (fun _ _ => some true) fuel i2 m
  some (m, unionSet)

/-- `IntSetDiff`. -/
def intSetDiff (fuel : Nat) (m : IntSets) (s1 s2 : Nat) (fresh1 : IntSetFresh) :
    Option (IntSets × Nat) := do
  let (m, diffSet) := intSetNew m
  let i1 ← intSetIterNew m s1 fresh1
  let m ← intSetAddEach diffSet (fun m key => (intSetHas m s2 key).map not) fuel i1 m
  some (m, diffSet)

/-- `IntSetIntersection`. -/
def intSetIntersection (fuel : Nat) (m : IntSets) (s1 s2 : Nat) (fresh1 fresh2 : IntSetFresh) :
    Option (IntSets × Nat) := do
  let (m, intersectionSet) := intSetNew m
  let i1 ← intSetIterNew m s1 fresh1
  let i2 ← intSetIterNew m s2 fresh2
  let m ← intSetAddEach intersectionSet (fun m key => intSetHas m s2 key) fuel i1 m
  let m ← intSetAddEach intersectionSet (fun m key => intSetHas m s1 key) fuel i2 m
  some (m, intersectionSet)

/-- A loop of `IntSetEq`: whether every key is in a set. -/
def intSetAllIn (m : IntSets) (set : Nat) (fuel : Nat) (it : IntSetIter) : Option Bool :=
  intSetEach (fun _ => m) not
    (fun retval key => (intSetHas m set key).map fun b => if !b then false else retval)
    fuel it true

/-- `IntSetEq`. -/
def intSetEq (fuel : Nat) (m : IntSets) (s1 s2 : Nat) (fresh1 fresh2 : IntSetFresh) :
    Option Bool := do
  let n1 ← intSetSize m s1
  let n2 ← intSetSize m s2
  if n1 ≠ n2 then some false
  else do
    let i1 ← intSetIterNew m s1 fresh1
    let i2 ← intSetIterNew m s2 fresh2
    let retval ← intSetAllIn m s2 fuel i1
    if !retval then some false else intSetAllIn m s1 fuel i2

/-- `IntSetToVec`, with the entries of the vector. -/
def intSetToVec (fuel : Nat) (m : IntSets) (set : Nat) (fresh1 : IntSetFresh) :
    Option (List Int) := do
  let i1 ← intSetIterNew m set fresh1
  intSetEach (fun _ => m) (fun _ => false) (fun vec key => some (vec ++ [key])) fuel i1 []

/-- `IntSetSymDiff`. -/
def intSetSymDiff (fuel : Nat) (m : IntSets) (s1 s2 : Nat) (fresh1 fresh2 : IntSetFresh) :
    Option (IntSets × Nat) := do
  let (m, symDiffSet) := intSetNew m
  let i1 ← intSetIterNew m s1 fresh1
  let i2 ← intSetIterNew m s2 fresh2
  let m ← intSetAddEach symDiffSet (fun m key => (intSetHas m s2 key).map not) fuel i1 m
  let m ← intSetAddEach symDiffSet (fun m key => (intSetHas m s1 key).map not) fuel i2 m
  some (m, symDiffSet)

/-!
## What the operations on sets of integers do

Calls of `IntSetNew` and `IntSetAdd` make sets whose members are the keys that were added.  An
iterator whose `sp` was 0 when it was allocated gives the members in increasing order; any other
`sp` is a base below the stack that it comes back to, and what is there is taken for a node.  So
the operations do what they are for exactly when the memory of their iterators holds a 0 there.
-/

open RedBlack

/-! ### Members -/

theorem keyCmp_intSetCmp :
  KeyCmp intSetCmp
  := by
  intro a b
  rw [intSetCmp]
  constructor
  · split
    · simp [*]
    · split <;> simp [*]
  · split
    · simp
      omega
    · split
      · simp
        omega
      · simp
        omega

/-- The tree of a set with some members. -/
def RBTree.IsSet (T : RBTree Int) (A : Finset Int) : Prop :=
  ∃ t, T.Valid t fun key => if key ∈ A then some 0 else none

variable {T : RBTree Int} {A : Finset Int} {key : Int}

theorem isSet_rbTreeNew :
  (rbTreeNew Int).IsSet ∅
  := by
  use .nil
  simp only [Finset.notMem_empty, if_false]
  apply valid_rbTreeNew

/-- An insertion adds a member. -/
theorem RBTree.IsSet.insert (h : T.IsSet A) (key : Int) :
  ∃ T', rbTreeInsert intSetCmp T key 0 = some T' ∧ T'.IsSet (Insert.insert key A)
  := by
  obtain ⟨t, hv⟩ := h
  obtain ⟨T', t', hinsert, hv'⟩ := hv.insert keyCmp_intSetCmp key 0
  use T', hinsert, t'
  convert hv' using 1
  funext k
  simp only [Finset.mem_insert, Function.update_apply]
  split_ifs <;> simp_all

/-- A lookup tells whether a key is a member. -/
theorem RBTree.IsSet.has (h : T.IsSet A) (key : Int) :
  rbTreeHas intSetCmp T key = some (decide (key ∈ A))
  := by
  obtain ⟨t, hv⟩ := h
  have hlen : t.toList.length < T.size + 1 := by
    rw [hv.size]
    apply Nat.lt_succ_self
  have hbinds := hv.binds key
  rw [rbTreeHas, show T.root = ptr t from hv.nodes.root]
  rcases Rep.find keyCmp_intSetCmp key hv.nodes.rep hv.sorted hlen with
    ⟨i, n, hfind, -, hmem⟩ | ⟨hfind, hno⟩
  · have hA : key ∈ A := by
      by_contra hA
      have hnone := (hbinds n.value).mpr ⟨i, hmem⟩
      rw [if_neg hA] at hnone
      cases hnone
    rw [hfind]
    simp [hA]
  · have hA : key ∉ A := by
      intro hA
      obtain ⟨i, hmem⟩ := (hbinds 0).mp (if_pos hA)
      apply hno _ hmem rfl
    rw [hfind]
    simp [hA]

/-- The keys of a tree, in order. -/
def keysOf (l : List (RBEntry Int)) : List Int := l.map fun e => e.2.1

/-- The keys of the tree of a set are its members, in increasing order. -/
theorem RBTree.Valid.keys
    {t : CTree (RBEntry Int)} (h : T.Valid t fun key => if key ∈ A then some 0 else none) :
  (keysOf t.toList).Pairwise (· < ·) ∧ (∀ key, key ∈ keysOf t.toList ↔ key ∈ A)
    ∧ T.size = A.card
  := by
  have hsorted : (keysOf t.toList).Pairwise (· < ·) := by
    rw [keysOf, List.pairwise_map]
    apply h.sorted
  have hmem (key : Int) : key ∈ keysOf t.toList ↔ key ∈ A := by
    rw [keysOf, List.mem_map]
    constructor
    · rintro ⟨⟨i, k, v⟩, he, rfl⟩
      by_contra hA
      have hv := (h.binds k v).mpr ⟨i, he⟩
      rw [if_neg hA] at hv
      cases hv
    · intro hA
      obtain ⟨i, he⟩ := (h.binds key 0).mp (if_pos hA)
      use (i, key, 0), he
  use hsorted, hmem
  have hA : (keysOf t.toList).toFinset = A := by
    ext key
    rw [List.mem_toFinset, hmem]
  rw [← hA, List.toFinset_card_of_nodup (hsorted.imp fun h => h.ne), keysOf, List.length_map, h.size]

/-! ### Runs -/

/-- The sets have the keys that the calls added as members. -/
structure HaveKeys (m : IntSets) (calls : List IntSetCall) : Prop where
  made : ∀ (set : Nat) (T : RBTree Int), m[set]? = some T → T.IsSet (keysAdded calls set).toFinset
  fresh : ∀ set ≥ m.length, keysAdded calls set = []

theorem keysAdded_concat (calls : List IntSetCall) (call : IntSetCall) (set : Nat) :
  keysAdded (calls ++ [call]) set = keysAdded calls set ++ (call.keyFor set).toList
  := by
  rw [keysAdded, List.filterMap_append, keysAdded]
  cases h : call.keyFor set <;> simp [h]

theorem keysAdded_new (calls : List IntSetCall) (set : Nat) :
  keysAdded (calls ++ [.new]) set = keysAdded calls set
  := by
  rw [keysAdded_concat]
  apply List.append_nil

theorem keysAdded_add (calls : List IntSetCall) (key : Int) (set : Nat) :
  keysAdded (calls ++ [.add set key]) set = keysAdded calls set ++ [key]
  := by rw [keysAdded_concat, IntSetCall.keyFor, if_pos rfl, Option.toList_some]

theorem keysAdded_add_of_ne (calls : List IntSetCall) (key : Int) {set set' : Nat} (h : set ≠ set') :
  keysAdded (calls ++ [.add set key]) set' = keysAdded calls set'
  := by
  rw [keysAdded_concat, IntSetCall.keyFor, if_neg h]
  apply List.append_nil

/-- A key is added to a set that was made. -/
theorem intSetAdd_eq {m : IntSets} {set : Nat} (hT : m[set]? = some T) (h : T.IsSet A) (key : Int) :
  ∃ T', intSetAdd m set key = some (m.set set T') ∧ T'.IsSet (insert key A)
  := by
  obtain ⟨T', hinsert, hT'⟩ := h.insert key
  use T'
  constructor
  · rw [intSetAdd, hT]
    show (rbTreeInsert intSetCmp T key 0).bind _ = _
    rw [hinsert]
    rfl
  · apply hT'

/-- A call keeps what the members are. -/
theorem HaveKeys.call
    {m m' : IntSets} {calls : List IntSetCall} {call : IntSetCall} (h : HaveKeys m calls)
    (hcall : intSetCall m call = some m') :
  HaveKeys m' (calls ++ [call])
  := by
  cases call with
  | new =>
    obtain rfl : m ++ [rbTreeNew Int] = m' := Option.some.inj hcall
    constructor
    · intro set T hT
      rw [keysAdded_new]
      rcases lt_trichotomy set m.length with hlt | rfl | hgt
      · rw [List.getElem?_append_left hlt] at hT
        apply h.made set T hT
      · rw [List.getElem?_concat_length] at hT
        rw [← Option.some.inj hT, h.fresh _ le_rfl]
        apply isSet_rbTreeNew
      · rw [List.getElem?_eq_none (by simp; omega)] at hT
        cases hT
    · intro set hset
      rw [List.length_append] at hset
      rw [keysAdded_new, h.fresh set (Nat.le_of_add_right_le hset)]
  | add set key =>
    cases hT : m[set]? with
    | none =>
      rw [intSetCall, intSetAdd, hT] at hcall
      cases hcall
    | some T =>
      obtain ⟨T', hadd, hT'⟩ := intSetAdd_eq hT (h.made set T hT) key
      obtain rfl : m.set set T' = m' := Option.some.inj (hadd.symm.trans hcall)
      obtain ⟨hset, -⟩ := List.getElem?_eq_some_iff.mp hT
      constructor
      · intro set' U hU
        rcases eq_or_ne set set' with rfl | hne
        · rw [List.getElem?_set_self hset] at hU
          rw [← Option.some.inj hU, keysAdded_add]
          convert hT' using 1
          ext k
          simp
        · rw [List.getElem?_set_ne hne] at hU
          rw [keysAdded_add_of_ne _ _ hne]
          apply h.made set' U hU
      · intro set' hset'
        rw [List.length_set] at hset'
        rw [keysAdded_add_of_ne _ _ (by omega), h.fresh set' hset']

/-- After a run the members are the keys that were added. -/
theorem haveKeys_of_run {m : IntSets} {calls : List IntSetCall} (h : intSetRun calls = some m) :
  HaveKeys m calls
  := by
  induction calls using List.reverseRecOn generalizing m with
  | nil =>
    obtain rfl : [] = m := Option.some.inj h
    constructor
    · intro set T hT
      cases hT
    · intro set _
      rfl
  | append_singleton calls call ih =>
    rw [intSetRun, List.foldlM_append] at h
    obtain ⟨m', hrun, hcall⟩ := Option.bind_eq_some_iff.mp h
    rw [List.foldlM_cons] at hcall
    obtain ⟨m'', hlast, hm⟩ := Option.bind_eq_some_iff.mp hcall
    obtain rfl : m'' = m := Option.some.inj hm
    apply (ih hrun).call hlast

/-! ### The stack of an iterator -/

/-- The entries of a stack from a base on are some pointers, given from the top down. -/
def StackAt (stack : Int → RBPtr) (base : Int) : List RBPtr → Prop
  | [] => True
  | p :: ps => stack (base + ps.length) = p ∧ StackAt stack base ps

/-- What is above a stack may change. -/
theorem StackAt.update
    {stack : Int → RBPtr} {base i : Int} {ps : List RBPtr} (h : StackAt stack base ps)
    (hi : base + ps.length ≤ i) (p : RBPtr) :
  StackAt (Function.update stack i p) base ps
  := by
  induction ps with
  | nil => trivial
  | cons q ps ih =>
    rw [List.length_cons] at hi
    push_cast at hi
    constructor
    · rw [Function.update_of_ne (by omega)]
      apply h.1
    · apply ih h.2 (by omega)

/-- The stack of an iterator holds pending nodes of a tree above a base. -/
structure IntSetIter.At (it : IntSetIter) (T : RBTree Int) (base : Int) (l : Pending Int) : Prop where
  sp : it.sp = base + l.stack.length
  inside : l ≠ [] → 0 ≤ base
  stack : StackAt it.stack base l.stack
  allocated : it.allocated = T.size
  nodes : l.Rep T

variable {base : Int} {l : Pending Int} {it : IntSetIter} {t : CTree (RBEntry Int)} {q : RBPtr}

/-- Pushing a node that is pending then. -/
theorem IntSetIter.At.push
    (h : it.At T base l) {it' : IntSetIter} {e : RBEntry Int × CTree (RBEntry Int)}
    (he : Pending.Rep T (e :: l)) (hpush : intSetIterPush it (.node e.1.1) = some it') :
  it'.At T base (e :: l) ∧ it'.set = it.set
  := by
  rw [intSetIterPush] at hpush
  split at hpush
  case isTrue hroom =>
    obtain rfl := Option.some.inj hpush
    refine ⟨⟨?_, ?_, ?_, h.allocated, he⟩, rfl⟩
    · simp only [Pending.stack, List.map_cons, List.length_cons, h.sp]
      push_cast
      omega
    · intro _
      cases l with
      | nil =>
        rw [IntSetIter.InStack, h.sp] at hroom
        simpa [Pending.stack] using hroom.1
      | cons e l => apply h.inside (List.cons_ne_nil e l)
    · constructor
      · rw [h.sp]
        apply Function.update_self
      · apply h.stack.update h.sp.ge
  case isFalse => cases hpush

/-- What the loops that push left descendants come to. -/
theorem intSetPushLeft_at
    {it' : IntSetIter} {fuel : Nat} (h : it.At T base l) (ht : Rep T.heap q t)
    (hpush : intSetPushLeft T fuel it (ptr t) = some it') :
  ∃ l' : Pending Int, it'.At T base l' ∧ it'.set = it.set ∧ l'.toList = t.toList ++ l.toList
  := by
  induction fuel generalizing it t q l with
  | zero => cases hpush
  | succ fuel ih =>
    cases t with
    | nil =>
      obtain rfl := Option.some.inj hpush
      exact ⟨l, h, rfl, rfl⟩
    | node c tl a tr =>
      obtain ⟨ha, htl, htr⟩ := ht
      have hl : Pending.Rep T ((a, tr) :: l) := by
        intro e he
        rcases List.mem_cons.mp he with rfl | he
        · exact ⟨⟨_, ha, rfl, rfl, rfl⟩, htr⟩
        · apply h.nodes e he
      change intSetPushLeft T (fuel + 1) it (.node a.1) = some it' at hpush
      rw [intSetPushLeft, if_pos (by simp)] at hpush
      obtain ⟨it₁, hit₁, hpush⟩ := Option.bind_eq_some_iff.mp hpush
      obtain ⟨hat, hset⟩ := h.push hl hit₁
      rw [child_node ha] at hpush
      obtain ⟨l', hat', hset', hout⟩ := ih hat htl hpush
      use l', hat', hset'.trans hset
      rw [hout]
      simp [CTree.toList, Pending.toList]

/-- Above the base 0 there is room for the members. -/
theorem intSetPushLeft_isSome
    {fuel : Nat} (h : it.At T 0 l) (ht : Rep T.heap q t) (hn : (t.toList ++ l.toList).length ≤ T.size)
    (hfuel : t.toList.length < fuel) :
  (intSetPushLeft T fuel it (ptr t)).isSome
  := by
  induction fuel generalizing it t q l with
  | zero => cases hfuel
  | succ fuel ih =>
    cases t with
    | nil => rfl
    | node c tl a tr =>
      obtain ⟨ha, htl, htr⟩ := ht
      have hl : Pending.Rep T ((a, tr) :: l) := by
        intro e he
        rcases List.mem_cons.mp he with rfl | he
        · exact ⟨⟨_, ha, rfl, rfl, rfl⟩, htr⟩
        · apply h.nodes e he
      have hlist : (CTree.node c tl a tr).toList ++ l.toList
          = tl.toList ++ Pending.toList ((a, tr) :: l) := by
        simp [CTree.toList, Pending.toList]
      rw [hlist] at hn
      rw [CTree.toList, List.length_append, List.length_cons] at hfuel
      have hroom : it.InStack it.sp := by
        have hle := Pending.length_le ((a, tr) :: l)
        rw [Pending.stack, List.map_cons, List.length_cons] at hle
        rw [List.length_append] at hn
        rw [IntSetIter.InStack, h.sp, h.allocated, Pending.stack]
        omega
      obtain ⟨it₁, hit₁⟩ : ∃ it₁, intSetIterPush it (.node a.1) = some it₁ :=
        ⟨_, if_pos hroom⟩
      obtain ⟨hat, -⟩ := h.push hl hit₁
      show (intSetPushLeft T (fuel + 1) it (.node a.1)).isSome
      rw [intSetPushLeft, if_pos (by simp), hit₁]
      show ((T.child .left (.node a.1)).bind _).isSome
      rw [child_node ha]
      apply ih hat htl hn (by omega)

/-- The keys that are pending. -/
def Pending.keys (l : Pending Int) : List Int := keysOf l.toList

variable {m : IntSets}

/-- An iterator whose stack is empty still. -/
theorem IntSetIter.at_nil {set : Nat} (fresh : IntSetFresh) :
  IntSetIter.At ⟨set, fresh.sp, fresh.stack, T.size⟩ T fresh.sp []
  where
  sp := by simp [Pending.stack]
  inside h := absurd rfl h
  stack := trivial
  allocated := rfl
  nodes e he := by cases he

/-- An iterator that was made for a set. -/
theorem intSetIterNew_at
    {set : Nat} {fresh : IntSetFresh} (hT : m[set]? = some T) (hv : T.At [] t)
    (h : intSetIterNew m set fresh = some it) :
  ∃ l : Pending Int, it.At T fresh.sp l ∧ it.set = set ∧ l.keys = keysOf t.toList
  := by
  have hroot : T.root = ptr t := hv.root
  rw [intSetIterNew, hT] at h
  change intSetPushLeft T (T.size + 1) _ T.root = some it at h
  rw [hroot] at h
  obtain ⟨l, hat, hset, hout⟩ := intSetPushLeft_at (IntSetIter.at_nil fresh) hv.rep h
  use l, hat, hset
  rw [Pending.keys, hout]
  simp [Pending.toList]

/-- An iterator is made when `sp` is 0. -/
theorem intSetIterNew_isSome
    {set : Nat} {fresh : IntSetFresh} (hT : m[set]? = some T) (hv : T.At [] t)
    (hsize : T.size = t.toList.length) (h : fresh.sp = 0) :
  (intSetIterNew m set fresh).isSome
  := by
  have hroot : T.root = ptr t := hv.root
  have hat : IntSetIter.At ⟨set, fresh.sp, fresh.stack, T.size⟩ T 0 [] := by
    rw [← h]
    apply IntSetIter.at_nil
  rw [intSetIterNew, hT]
  show (intSetPushLeft T (T.size + 1) _ T.root).isSome
  rw [hroot]
  apply intSetPushLeft_isSome hat hv.rep
  · simp [Pending.toList, hsize]
  · rw [hsize]
    apply Nat.lt_succ_self

variable {e : RBEntry Int × CTree (RBEntry Int)}

/-- The stack is not empty when a node is on it. -/
theorem IntSetIter.At.sp_ne (h : it.At T base (e :: l)) :
  it.sp ≠ 0
  := by
  have hbase := h.inside (List.cons_ne_nil e l)
  rw [h.sp, Pending.stack, List.map_cons, List.length_cons]
  omega

/-- The node on the top is popped. -/
theorem IntSetIter.At.pop (h : it.At T base (e :: l)) :
  it.stack (it.sp - 1) = .node e.1.1 ∧ IntSetIter.At { it with sp := it.sp - 1 } T base l
  := by
  have hsp : it.sp - 1 = base + l.stack.length := by
    rw [h.sp, Pending.stack, List.map_cons, List.length_cons, Pending.stack]
    omega
  constructor
  · rw [hsp]
    apply h.stack.1
  · constructor
    case sp => apply hsp
    case inside => apply fun _ => h.inside (List.cons_ne_nil e l)
    case stack => apply h.stack.2
    case allocated => apply h.allocated
    case nodes => apply fun e he => h.nodes e (List.mem_cons_of_mem _ he)

/-- A call of `IntSetIterNext` with a node on the stack, if the stack has room. -/
theorem IntSetIter.At.next_eq (h : it.At T base (e :: l)) (hT : m[it.set]? = some T) :
  intSetIterNext m it
    = if it.InStack (it.sp - 1) then
        (intSetPushLeft T (T.size + 1) { it with sp := it.sp - 1 } (ptr e.2)).map
          fun it => (it, some e.1.2.1)
      else none
  := by
  obtain ⟨hnode, -⟩ := h.pop
  obtain ⟨n, hn, hkey, -, hchild⟩ := (h.nodes e List.mem_cons_self).1
  have hright : T.child .right (.node e.1.1) = some (ptr e.2) := by
    rw [RBTree.child, hn, ← hchild]
    rfl
  rw [intSetIterNext, if_neg h.sp_ne, hT, intSetIterPop, hnode]
  split
  · show (T.heap e.1.1).bind _ = _
    rw [hn]
    show (T.child .right (.node e.1.1)).bind _ = _
    rw [hright, Option.bind_some, Option.map_eq_bind, ← hkey]
    rfl
  · rfl

/-- A call of `IntSetIterNext` with a node on the stack gives its key. -/
theorem IntSetIter.At.next
    {r : IntSetIter × Option Int} (h : it.At T base (e :: l)) (hT : m[it.set]? = some T)
    (hnext : intSetIterNext m it = some r) :
  ∃ l' : Pending Int, r.1.At T base l' ∧ r.1.set = it.set ∧ r.2 = some e.1.2.1
    ∧ Pending.keys (e :: l) = e.1.2.1 :: l'.keys
  := by
  rw [h.next_eq hT] at hnext
  split at hnext
  · obtain ⟨it', hpush, rfl⟩ := Option.map_eq_some_iff.mp hnext
    obtain ⟨-, hat⟩ := h.pop
    obtain ⟨-, htree⟩ := h.nodes e List.mem_cons_self
    obtain ⟨l', hat', hset, hout⟩ := intSetPushLeft_at hat htree hpush
    use l', hat', hset, rfl
    rw [Pending.keys, Pending.keys, hout, Pending.toList, List.flatMap_cons, keysOf]
    rfl
  · cases hnext

/-- Above the base 0 the call has room. -/
theorem IntSetIter.At.next_isSome
    (h : it.At T 0 (e :: l)) (hT : m[it.set]? = some T) (hn : (Pending.keys (e :: l)).length ≤ T.size) :
  (intSetIterNext m it).isSome
  := by
  have hlen : (Pending.keys (e :: l)).length = (e.2.toList ++ Pending.toList l).length + 1 := by
    rw [Pending.keys, keysOf, List.length_map, Pending.toList, List.flatMap_cons, List.cons_append,
      List.length_cons]
    rfl
  have hle := Pending.length_le l
  rw [hlen, List.length_append] at hn
  have hroom : it.InStack (it.sp - 1) := by
    rw [IntSetIter.InStack, h.sp, h.allocated, Pending.stack, List.map_cons, List.length_cons]
    rw [Pending.stack] at hle
    omega
  obtain ⟨-, hat⟩ := h.pop
  obtain ⟨-, htree⟩ := h.nodes e List.mem_cons_self
  rw [h.next_eq hT, if_pos hroom, Option.isSome_map]
  apply intSetPushLeft_isSome hat htree
  · rw [List.length_append]
    omega
  · omega

/-! ### Loops over the members -/

section Each

variable {σ : Type} {sets : σ → IntSets} {leave : σ → Bool} {body : σ → Int → Option σ}

/-- What a loop does for some keys. -/
def forKeys (leave : σ → Bool) (body : σ → Int → Option σ) : List Int → σ → Option σ
  | [], s => some s
  | key :: keys, s => do
    let s ← body s key
    if leave s then some s else forKeys leave body keys s

/-- A turn of the loop. -/
theorem intSetEach_succ {s : σ} {it' : IntSetIter} (fuel : Nat)
    (hnext : intSetIterNext (sets s) it = some (it', some key)) :
  intSetEach sets leave body (fuel + 1) it s
    = (body s key).bind fun s => if leave s then some s else intSetEach sets leave body fuel it' s
  := by
  rw [intSetEach, hnext]
  rfl

/-- From the base 0 the loop does for the pending keys, in order, what its body does. -/
theorem intSetEach_eq
    (Inv : σ → Prop) (htree : ∀ s, Inv s → (sets s)[it.set]? = some T)
    (hbody : ∀ s key s', Inv s → body s key = some s' → Inv s') {fuel : Nat} {s : σ}
    (h : it.At T 0 l) (hs : Inv s) (hn : l.keys.length ≤ T.size) (hfuel : l.keys.length < fuel) :
  intSetEach sets leave body fuel it s = forKeys leave body l.keys s
  := by
  induction fuel generalizing it l s with
  | zero => cases hfuel
  | succ fuel ih =>
    cases l with
    | nil =>
      have hsp : it.sp = 0 := h.sp
      rw [intSetEach, intSetIterNext, if_pos hsp]
      rfl
    | cons e l =>
      obtain ⟨r, hr⟩ := Option.isSome_iff_exists.mp (h.next_isSome (htree s hs) hn)
      obtain ⟨l', hat, hset, hkey, hkeys⟩ := h.next (htree s hs) hr
      rw [hkeys, List.length_cons] at hn hfuel
      rw [hkeys, intSetEach_succ fuel (hr.trans (congrArg some (Prod.ext rfl hkey))), forKeys]
      apply Option.bind_congr
      intro s' hs'
      rw [ih (fun s hs => by rw [hset, htree s hs]) hat (hbody s _ s' hs hs') (by omega) (by omega)]

/-- An iterator that gives some keys of a set, one after another. -/
structure IntSetIter.Gives (it : IntSetIter) (set : Nat) (T : RBTree Int) (keys : List Int) : Prop where
  set : it.set = set
  size : keys.length = T.size
  pending : ∃ l : Pending Int, it.At T 0 l ∧ l.keys = keys

/-- What such an iterator drives. -/
theorem IntSetIter.Gives.each
    {set : Nat} {keys : List Int} (h : it.Gives set T keys) (Inv : σ → Prop)
    (htree : ∀ s, Inv s → (sets s)[set]? = some T)
    (hbody : ∀ s key s', Inv s → body s key = some s' → Inv s') {fuel : Nat} {s : σ} (hs : Inv s)
    (hfuel : T.size < fuel) :
  intSetEach sets leave body fuel it s = forKeys leave body keys s
  := by
  obtain ⟨l, hat, rfl⟩ := h.pending
  apply intSetEach_eq Inv _ hbody hat hs h.size.le (h.size.trans_lt hfuel)
  intro s hs
  rw [h.set, htree s hs]

end Each

/-- An iterator whose `sp` was 0 gives the members in increasing order. -/
theorem RBTree.IsSet.iter
    {set : Nat} {fresh : IntSetFresh} (h : T.IsSet A) (hT : m[set]? = some T) (hsp : fresh.sp = 0) :
  ∃ it keys, intSetIterNew m set fresh = some it ∧ it.Gives set T keys
    ∧ keys.Pairwise (· < ·) ∧ ∀ key, key ∈ keys ↔ key ∈ A
  := by
  obtain ⟨t, hv⟩ := h
  obtain ⟨hsorted, hmem, -⟩ := hv.keys
  obtain ⟨it, hit⟩ := Option.isSome_iff_exists.mp (intSetIterNew_isSome hT hv.nodes hv.size hsp)
  obtain ⟨l, hat, hset, hl⟩ := intSetIterNew_at hT hv.nodes hit
  use it, keysOf t.toList, hit
  refine ⟨⟨hset, ?_, l, hsp ▸ hat, hl⟩, hsorted, hmem⟩
  rw [keysOf, List.length_map, hv.size]

/-! ### Operations that make a set -/

variable {U : RBTree Int} {B : Finset Int} {p : Int → Bool} {keep : IntSets → Int → Option Bool}
  {keys : List Int}

/-- The keys that are kept are added to the last set, and the others stay. -/
theorem forKeys_add
    (keys : List Int) (hkeep : ∀ (U : RBTree Int) key, keep (m ++ [U]) key = some (p key)) (hU : U.IsSet B) :
  ∃ U', forKeys (fun _ => false)
      (fun m' key => do
        let b ← keep m' key
        if b then intSetAdd m' m.length key else some m')
      keys (m ++ [U]) = some (m ++ [U'])
    ∧ U'.IsSet (B ∪ keys.toFinset.filter fun key => p key)
  := by
  induction keys generalizing U B with
  | nil =>
    use U, rfl
    simpa using hU
  | cons key keys ih =>
    rw [forKeys, hkeep]
    cases hp : p key with
    | false =>
      obtain ⟨U', hrun, hU'⟩ := ih hU
      use U', hrun
      rw [List.toFinset_cons, Finset.filter_insert, if_neg (by simp [hp])]
      apply hU'
    | true =>
      obtain ⟨U₁, hadd, hU₁⟩ := intSetAdd_eq List.getElem?_concat_length hU key
      obtain ⟨U', hrun, hU'⟩ := ih hU₁
      rw [List.set_append_right _ _ le_rfl, Nat.sub_self] at hadd
      use U'
      constructor
      · show ((intSetAdd (m ++ [U]) m.length key).bind _) = _
        rw [hadd]
        apply hrun
      · rw [List.toFinset_cons, Finset.filter_insert, if_pos hp, Finset.union_insert,
          ← Finset.insert_union]
        apply hU'

/-- The last set is the only one that an addition to it changes. -/
theorem exists_of_intSetAdd_concat {m' : IntSets} (h : intSetAdd (m ++ [U]) m.length key = some m') :
  ∃ U', m' = m ++ [U']
  := by
  rw [intSetAdd, List.getElem?_concat_length, Option.bind_eq_bind, Option.bind_some] at h
  obtain ⟨U', -, hm⟩ := Option.bind_eq_some_iff.mp h
  use U'
  rw [← Option.some.inj hm, List.set_append_right _ _ le_rfl, Nat.sub_self]
  rfl

/-- A loop that adds the members of a set that are kept to the last set. -/
theorem intSetAddEach_eq
    {set : Nat} (hkeep : ∀ (U : RBTree Int) key, keep (m ++ [U]) key = some (p key))
    (hT : m[set]? = some T) (hit : it.Gives set T keys) (hmem : ∀ key, key ∈ keys ↔ key ∈ A)
    (hU : U.IsSet B) :
  ∃ U', (∀ fuel > T.size, intSetAddEach m.length keep fuel it (m ++ [U]) = some (m ++ [U']))
    ∧ U'.IsSet (B ∪ A.filter fun key => p key)
  := by
  obtain ⟨U', hrun, hU'⟩ := forKeys_add keys hkeep hU
  have hA : keys.toFinset = A := by
    ext key
    rw [List.mem_toFinset, hmem]
  rw [hA] at hU'
  use U'
  constructor
  · intro fuel hfuel
    rw [intSetAddEach, hit.each (fun m' => ∃ V, m' = m ++ [V]) _ _ ⟨U, rfl⟩ hfuel, hrun]
    · rintro m' ⟨V, rfl⟩
      obtain ⟨hset, -⟩ := List.getElem?_eq_some_iff.mp hT
      rw [id, List.getElem?_append_left hset, hT]
    · rintro m' key m'' ⟨V, rfl⟩ hadd
      rw [hkeep, Option.bind_eq_bind, Option.bind_some] at hadd
      split at hadd
      · apply exists_of_intSetAdd_concat hadd
      · use V, (Option.some.inj hadd).symm
  · apply hU'

/-- Some sets with a new one at the end whose members are given come of an operation. -/
def IntSetMakes (m : IntSets) (op : Nat → Option (IntSets × Nat)) (p : Int → Prop) : Prop :=
  ∃ U, (∃ n, ∀ fuel ≥ n, op fuel = some (m ++ [U], m.length))
    ∧ ∀ key, ∃ b, intSetHas (m ++ [U]) m.length key = some b ∧ (b = true ↔ p key)

/-- A new set with some members. -/
theorem IntSetMakes.of_isSet
    {op : Nat → Option (IntSets × Nat)} {q : Int → Prop} (hU : U.IsSet B) {n : Nat}
    (hop : ∀ fuel > n, op fuel = some (m ++ [U], m.length)) (hB : ∀ key, key ∈ B ↔ q key) :
  IntSetMakes m op q
  := by
  use U
  constructor
  · use n + 1, hop
  · intro key
    use decide (key ∈ B)
    constructor
    · rw [intSetHas, List.getElem?_concat_length]
      apply hU.has key
    · rw [decide_eq_true_iff, hB]

/-- Whether a key is in a set that was there. -/
theorem intSetHas_concat {set : Nat} (hT : m[set]? = some T) (h : T.IsSet A) (U : RBTree Int) (key : Int) :
  intSetHas (m ++ [U]) set key = some (decide (key ∈ A))
  := by
  obtain ⟨hset, -⟩ := List.getElem?_eq_some_iff.mp hT
  rw [intSetHas, List.getElem?_append_left hset, hT]
  apply h.has key

section Operations

variable {T₁ T₂ : RBTree Int} {A₁ A₂ : Finset Int} {s1 s2 : Nat} {fresh1 fresh2 : IntSetFresh}

/-- An operation that adds members of one set, and then of another, to a new one. -/
theorem intSetMakes_of_two
    (h₁ : T₁.IsSet A₁) (hT₁ : m[s1]? = some T₁) (hsp₁ : fresh1.sp = 0)
    (h₂ : T₂.IsSet A₂) (hT₂ : m[s2]? = some T₂) (hsp₂ : fresh2.sp = 0)
    {keep₁ keep₂ : IntSets → Int → Option Bool} {p₁ p₂ : Int → Bool} {q : Int → Prop}
    (hkeep₁ : ∀ (U : RBTree Int) key, keep₁ (m ++ [U]) key = some (p₁ key))
    (hkeep₂ : ∀ (U : RBTree Int) key, keep₂ (m ++ [U]) key = some (p₂ key))
    (hq : ∀ key, (key ∈ A₁ ∧ p₁ key) ∨ (key ∈ A₂ ∧ p₂ key) ↔ q key) :
  IntSetMakes m
    (fun fuel => do
      let (m, set) := intSetNew m
      let i1 ← intSetIterNew m s1 fresh1
      let i2 ← intSetIterNew m s2 fresh2
      let m ← intSetAddEach set keep₁ fuel i1 m
      let m ← intSetAddEach set keep₂ fuel i2 m
      some (m, set)) q
  := by
  have hlt₁ := (List.getElem?_eq_some_iff.mp hT₁).1
  have hlt₂ := (List.getElem?_eq_some_iff.mp hT₂).1
  obtain ⟨i1, keys1, hi1, hgives₁, -, hmem₁⟩ := h₁.iter (m := m ++ [rbTreeNew Int])
    ((List.getElem?_append_left hlt₁).trans hT₁) hsp₁
  obtain ⟨i2, keys2, hi2, hgives₂, -, hmem₂⟩ := h₂.iter (m := m ++ [rbTreeNew Int])
    ((List.getElem?_append_left hlt₂).trans hT₂) hsp₂
  obtain ⟨U₁, hrun₁, hU₁⟩ := intSetAddEach_eq hkeep₁ hT₁ hgives₁ hmem₁ isSet_rbTreeNew
  obtain ⟨U₂, hrun₂, hU₂⟩ := intSetAddEach_eq hkeep₂ hT₂ hgives₂ hmem₂ hU₁
  apply IntSetMakes.of_isSet hU₂ (n := max T₁.size T₂.size)
  · intro fuel hfuel
    obtain ⟨hfuel₁, hfuel₂⟩ := max_lt_iff.mp hfuel
    dsimp only [intSetNew]
    rw [hi1, hi2]
    show (intSetAddEach m.length keep₁ fuel i1 (m ++ [rbTreeNew Int])).bind _ = _
    rw [hrun₁ fuel hfuel₁]
    show (intSetAddEach m.length keep₂ fuel i2 (m ++ [U₁])).bind _ = _
    rw [hrun₂ fuel hfuel₂]
    rfl
  · intro key
    rw [← hq key]
    simp

/-- An operation that adds members of one set to a new one. -/
theorem intSetMakes_of_one
    (h₁ : T₁.IsSet A₁) (hT₁ : m[s1]? = some T₁) (hsp₁ : fresh1.sp = 0)
    (hkeep : ∀ (U : RBTree Int) key, keep (m ++ [U]) key = some (p key)) {q : Int → Prop}
    (hq : ∀ key, key ∈ A₁ ∧ p key ↔ q key) :
  IntSetMakes m
    (fun fuel => do
      let (m, set) := intSetNew m
      let i1 ← intSetIterNew m s1 fresh1
      let m ← intSetAddEach set keep fuel i1 m
      some (m, set)) q
  := by
  have hlt₁ := (List.getElem?_eq_some_iff.mp hT₁).1
  obtain ⟨i1, keys1, hi1, hgives₁, -, hmem₁⟩ := h₁.iter (m := m ++ [rbTreeNew Int])
    ((List.getElem?_append_left hlt₁).trans hT₁) hsp₁
  obtain ⟨U₁, hrun₁, hU₁⟩ := intSetAddEach_eq hkeep hT₁ hgives₁ hmem₁ isSet_rbTreeNew
  apply IntSetMakes.of_isSet hU₁
  · intro fuel hfuel
    dsimp only [intSetNew]
    rw [hi1]
    show (intSetAddEach m.length keep fuel i1 (m ++ [rbTreeNew Int])).bind _ = _
    rw [hrun₁ fuel hfuel]
    rfl
  · intro key
    rw [← hq key]
    simp

/-! ### Operations that only look -/

/-- A loop of `IntSetEq` looks for a key that is not in the other set. -/
theorem forKeys_allIn {set : Nat} (hT : m[set]? = some T) (h : T.IsSet A) (keys : List Int) :
  forKeys not
      (fun retval key => (intSetHas m set key).map fun b => if !b then false else retval) keys true
    = some (decide (∀ key ∈ keys, key ∈ A))
  := by
  have hhas (key : Int) : intSetHas m set key = some (decide (key ∈ A)) := by
    rw [intSetHas, hT]
    apply h.has key
  induction keys with
  | nil => simp [forKeys]
  | cons key keys ih =>
    rw [forKeys, hhas, Option.map_some, Option.bind_eq_bind, Option.bind_some]
    by_cases hkey : key ∈ A
    · simpa [hkey] using ih
    · simp [hkey]

/-- `IntSetEq` tells whether two sets have the same members. -/
theorem intSetEq_eq
    (h₁ : T₁.IsSet A₁) (hT₁ : m[s1]? = some T₁) (hsp₁ : fresh1.sp = 0)
    (h₂ : T₂.IsSet A₂) (hT₂ : m[s2]? = some T₂) (hsp₂ : fresh2.sp = 0) {fuel : Nat}
    (hfuel₁ : T₁.size < fuel) (hfuel₂ : T₂.size < fuel) :
  intSetEq fuel m s1 s2 fresh1 fresh2 = some (decide (A₁ = A₂))
  := by
  obtain ⟨i1, keys1, hi1, hgives₁, -, hmem₁⟩ := h₁.iter hT₁ hsp₁
  obtain ⟨i2, keys2, hi2, hgives₂, -, hmem₂⟩ := h₂.iter hT₂ hsp₂
  have hrun₁ : intSetAllIn m s2 fuel i1 = some (decide (A₁ ⊆ A₂)) := by
    rw [intSetAllIn, hgives₁.each (fun _ => True) (fun _ _ => hT₁) (fun _ _ _ _ _ => trivial)
      trivial hfuel₁, forKeys_allIn hT₂ h₂]
    simp only [hmem₁]
    rfl
  have hrun₂ : intSetAllIn m s1 fuel i2 = some (decide (A₂ ⊆ A₁)) := by
    rw [intSetAllIn, hgives₂.each (fun _ => True) (fun _ _ => hT₂) (fun _ _ _ _ _ => trivial)
      trivial hfuel₂, forKeys_allIn hT₁ h₁]
    simp only [hmem₂]
    rfl
  obtain ⟨t₁, hv₁⟩ := h₁
  obtain ⟨t₂, hv₂⟩ := h₂
  have hsize₁ : intSetSize m s1 = some A₁.card := by
    rw [intSetSize, hT₁, Option.map_some, hv₁.keys.2.2]
  have hsize₂ : intSetSize m s2 = some A₂.card := by
    rw [intSetSize, hT₂, Option.map_some, hv₂.keys.2.2]
  rw [intSetEq, hsize₁, hsize₂, hi1, hi2]
  simp only [Option.bind_eq_bind, Option.bind_some, hrun₁, hrun₂]
  by_cases hcard : A₁.card = A₂.card
  · rw [if_neg (not_not.mpr hcard)]
    by_cases hsub : A₁ ⊆ A₂
    · have heq : A₁ = A₂ := Finset.eq_of_subset_of_card_le hsub hcard.ge
      simp [heq]
    · have hne : A₁ ≠ A₂ := fun heq => hsub heq.le
      simp [hsub, hne]
  · have hne : A₁ ≠ A₂ := fun heq => hcard (congrArg Finset.card heq)
    simp [hcard, hne]

/-- The keys that `IntSetToVec` pushes. -/
theorem forKeys_push (keys vec : List Int) :
  forKeys (fun _ => false) (fun vec key => some (vec ++ [key])) keys vec = some (vec ++ keys)
  := by
  induction keys generalizing vec with
  | nil => simp [forKeys]
  | cons key keys ih =>
    rw [forKeys, Option.bind_eq_bind, Option.bind_some, if_neg (by decide), ih, List.append_assoc]
    rfl

/-- The vector has some keys, in increasing order. -/
def IntSetLists (op : Nat → Option (List Int)) (p : Int → Prop) : Prop :=
  ∃ vec, (∃ n, ∀ fuel ≥ n, op fuel = some vec) ∧ vec.Pairwise (· < ·) ∧ ∀ key, key ∈ vec ↔ p key

/-- `IntSetToVec` lists the members. -/
theorem intSetToVec_lists
    (h₁ : T₁.IsSet A₁) (hT₁ : m[s1]? = some T₁) (hsp₁ : fresh1.sp = 0) :
  IntSetLists (fun fuel => intSetToVec fuel m s1 fresh1) fun key => key ∈ A₁
  := by
  obtain ⟨i1, keys1, hi1, hgives₁, hsorted, hmem⟩ := h₁.iter hT₁ hsp₁
  use keys1
  refine ⟨⟨T₁.size + 1, ?_⟩, hsorted, hmem⟩
  intro fuel hfuel
  show (intSetToVec fuel m s1 fresh1) = _
  rw [intSetToVec, hi1, Option.bind_eq_bind, Option.bind_some,
    hgives₁.each (fun _ => True) (fun _ _ => hT₁) (fun _ _ _ _ _ => trivial) trivial hfuel,
    forKeys_push]
  rfl

end Operations

/-! ### Other bases -/

/-- The loop of `IntSetToVec`. -/
def intSetPushEach (m : IntSets) : Nat → IntSetIter → List Int → Option (List Int) :=
  intSetEach (fun _ => m) (fun _ => false) fun vec key => some (vec ++ [key])

/-- A turn of the loop that pushes, when it gives a vector in the end. -/
theorem intSetPushEach_succ
    {fuel : Nat} {vec out : List Int} (h : intSetPushEach m (fuel + 1) it vec = some out) :
  ∃ r, intSetIterNext m it = some r ∧
    (r.2 = none ∧ vec = out ∨ ∃ key, r.2 = some key ∧ intSetPushEach m fuel r.1 (vec ++ [key]) = some out)
  := by
  rw [intSetPushEach, intSetEach] at h
  obtain ⟨⟨it', entry⟩, hr, h⟩ := Option.bind_eq_some_iff.mp h
  use (it', entry), hr
  cases entry with
  | none => apply Or.inl ⟨rfl, Option.some.inj h⟩
  | some key => apply Or.inr ⟨key, rfl, h⟩

/-- What was pushed stays. -/
theorem prefix_of_intSetPushEach
    {fuel : Nat} {vec out : List Int} (h : intSetPushEach m fuel it vec = some out) :
  vec <+: out
  := by
  induction fuel generalizing it vec with
  | zero => cases h
  | succ fuel ih =>
    obtain ⟨r, -, ⟨-, rfl⟩ | ⟨key, -, h⟩⟩ := intSetPushEach_succ h
    · apply List.prefix_rfl
    · apply (List.prefix_append vec [key]).trans (ih h)

/-- Above another base the keys are pushed, and then what the memory holds is taken for a node. -/
theorem exists_of_intSetPushEach
    {fuel : Nat} {vec out : List Int} (hT : m[it.set]? = some T) (h : it.At T base l)
    (hbase : base ≠ 0) (hrun : intSetPushEach m fuel it vec = some out) :
  ∃ key, vec ++ l.keys ++ [key] <+: out
  := by
  induction fuel generalizing it l vec with
  | zero => cases hrun
  | succ fuel ih =>
    obtain ⟨r, hr, hrun⟩ := intSetPushEach_succ hrun
    cases l with
    | nil =>
      have hsp : it.sp ≠ 0 := by
        rw [h.sp]
        simpa [Pending.stack] using hbase
      have hsome : r.2 ≠ none := by
        intro hnone
        rw [intSetIterNext, if_neg hsp, hT, Option.bind_eq_bind, Option.bind_some] at hr
        obtain ⟨it', -, hr⟩ := Option.bind_eq_some_iff.mp hr
        obtain ⟨n, -, hr⟩ := Option.bind_eq_some_iff.mp hr
        obtain ⟨right, -, hr⟩ := Option.bind_eq_some_iff.mp hr
        obtain ⟨it'', -, hr⟩ := Option.bind_eq_some_iff.mp hr
        rw [← Option.some.inj hr] at hnone
        cases hnone
      rcases hrun with ⟨hnone, -⟩ | ⟨key, -, hrun⟩
      · apply absurd hnone hsome
      · use key
        rw [show Pending.keys [] = [] from rfl, List.append_nil]
        apply prefix_of_intSetPushEach hrun
    | cons e l =>
      obtain ⟨l', hat, hset, hkey, hkeys⟩ := h.next hT hr
      rcases hrun with ⟨hnone, -⟩ | ⟨key, hkey', hrun⟩
      · rw [hkey] at hnone
        cases hnone
      · obtain ⟨key', hout⟩ := ih (by rw [hset, hT]) hat hrun
        rw [hkey] at hkey'
        use key'
        rw [hkeys, Option.some.inj hkey']
        simpa using hout

/-- The members are listed only when `sp` was 0. -/
theorem sp_eq_zero_of_lists
    {set : Nat} {fresh : IntSetFresh} (h : T.IsSet A) (hT : m[set]? = some T)
    (hlists : IntSetLists (fun fuel => intSetToVec fuel m set fresh) fun key => key ∈ A) :
  fresh.sp = 0
  := by
  obtain ⟨t, hv⟩ := h
  obtain ⟨-, hkeys, -⟩ := hv.keys
  obtain ⟨vec, ⟨n, hn⟩, hsorted, hmem⟩ := hlists
  obtain ⟨it, hit, hrun⟩ := Option.bind_eq_some_iff.mp (hn n le_rfl)
  obtain ⟨l, hat, hset, hl⟩ := intSetIterNew_at hT hv.nodes hit
  by_contra hbase
  obtain ⟨key, ⟨rest, rfl⟩⟩ := exists_of_intSetPushEach (by rw [hset, hT]) hat hbase hrun
  rw [List.nil_append, List.append_assoc] at hsorted
  obtain ⟨-, -, hlt⟩ := List.pairwise_append.mp hsorted
  have hkey : key ∈ l.keys := by
    rw [hl, hkeys]
    apply (hmem key).mp
    simp
  apply (hlt key hkey key (List.mem_append_left rest (List.mem_singleton.mpr rfl))).false

/-! ### The operations -/

/-- The operations are those on sets of keys: what is there stays, and a new set is the one that
is meant. -/
structure IntSetOpsRight (m : IntSets) (s1 s2 : Nat) (keys1 keys2 : List Int)
    (fresh1 fresh2 : IntSetFresh) : Prop where
  union : IntSetMakes m (fun fuel => intSetUnion fuel m s1 s2 fresh1 fresh2)
    fun key => key ∈ keys1 ∨ key ∈ keys2
  diff : IntSetMakes m (fun fuel => intSetDiff fuel m s1 s2 fresh1)
    fun key => key ∈ keys1 ∧ key ∉ keys2
  intersection : IntSetMakes m (fun fuel => intSetIntersection fuel m s1 s2 fresh1 fresh2)
    fun key => key ∈ keys1 ∧ key ∈ keys2
  symDiff : IntSetMakes m (fun fuel => intSetSymDiff fuel m s1 s2 fresh1 fresh2)
    fun key => key ∈ keys1 ∧ key ∉ keys2 ∨ key ∈ keys2 ∧ key ∉ keys1
  eq : ∃ b, (∃ n, ∀ fuel ≥ n, intSetEq fuel m s1 s2 fresh1 fresh2 = some b)
    ∧ (b = true ↔ ∀ key, key ∈ keys1 ↔ key ∈ keys2)
  toVec1 : IntSetLists (fun fuel => intSetToVec fuel m s1 fresh1) fun key => key ∈ keys1
  toVec2 : IntSetLists (fun fuel => intSetToVec fuel m s2 fresh2) fun key => key ∈ keys2

/-- After any calls that make sets and add keys, the operations on two of the sets are those on
sets of keys exactly when the memory of the iterators holds 0 as their `sp`. -/
theorem intSetOps_iff
    {calls : List IntSetCall} {m : IntSets} (hrun : intSetRun calls = some m) {s1 s2 : Nat}
    (h1 : s1 < m.length) (h2 : s2 < m.length) (fresh1 fresh2 : IntSetFresh) :
  IntSetOpsRight m s1 s2 (keysAdded calls s1) (keysAdded calls s2) fresh1 fresh2
    ↔ fresh1.sp = 0 ∧ fresh2.sp = 0
  := by
  have hT₁ : m[s1]? = some m[s1] := List.getElem?_eq_getElem h1
  have hT₂ : m[s2]? = some m[s2] := List.getElem?_eq_getElem h2
  have hA₁ := (haveKeys_of_run hrun).made s1 _ hT₁
  have hA₂ := (haveKeys_of_run hrun).made s2 _ hT₂
  constructor
  · intro h
    constructor
    · apply sp_eq_zero_of_lists hA₁ hT₁
      simpa using h.toVec1
    · apply sp_eq_zero_of_lists hA₂ hT₂
      simpa using h.toVec2
  · rintro ⟨hsp₁, hsp₂⟩
    have hhas₁ := intSetHas_concat hT₁ hA₁
    have hhas₂ := intSetHas_concat hT₂ hA₂
    have hnot₁ (U : RBTree Int) (key : Int) : (intSetHas (m ++ [U]) s1 key).map not
        = some (!decide (key ∈ (keysAdded calls s1).toFinset)) := by
      rw [hhas₁, Option.map_some]
    have hnot₂ (U : RBTree Int) (key : Int) : (intSetHas (m ++ [U]) s2 key).map not
        = some (!decide (key ∈ (keysAdded calls s2).toFinset)) := by
      rw [hhas₂, Option.map_some]
    constructor
    case union =>
      apply intSetMakes_of_two hA₁ hT₁ hsp₁ hA₂ hT₂ hsp₂ (fun _ _ => rfl) (fun _ _ => rfl)
      simp
    case diff =>
      apply intSetMakes_of_one hA₁ hT₁ hsp₁ hnot₂
      simp
    case intersection =>
      apply intSetMakes_of_two hA₁ hT₁ hsp₁ hA₂ hT₂ hsp₂ hhas₂ hhas₁
      simp [and_comm]
    case symDiff =>
      apply intSetMakes_of_two hA₁ hT₁ hsp₁ hA₂ hT₂ hsp₂ hnot₂ hnot₁
      simp
    case eq =>
      use decide ((keysAdded calls s1).toFinset = (keysAdded calls s2).toFinset)
      constructor
      · use max m[s1].size m[s2].size + 1
        intro fuel hfuel
        obtain ⟨hfuel₁, hfuel₂⟩ := max_lt_iff.mp (Nat.lt_of_succ_le hfuel)
        apply intSetEq_eq hA₁ hT₁ hsp₁ hA₂ hT₂ hsp₂ hfuel₁ hfuel₂
      · rw [decide_eq_true_iff, Finset.ext_iff]
        simp
    case toVec1 => simpa using intSetToVec_lists hA₁ hT₁ hsp₁
    case toVec2 => simpa using intSetToVec_lists hA₂ hT₂ hsp₂

/-- The sets of 3 and 1 and of 3, with iterators whose memory was cleared. -/
theorem intSetOps_two :
  ∃ m, intSetRun [.new, .add 0 3, .new, .add 1 3, .add 0 1] = some m
    ∧ IntSetOpsRight m 0 1 [3, 1] [3] ⟨0, fun _ => .null⟩ ⟨0, fun _ => .null⟩
  := by
  obtain ⟨m, hm, hlen⟩ : ∃ m, intSetRun [.new, .add 0 3, .new, .add 1 3, .add 0 1] = some m
      ∧ m.length = 2 := ⟨_, rfl, rfl⟩
  use m, hm
  have h0 : 0 < m.length := hlen ▸ Nat.zero_lt_two
  have h1 : 1 < m.length := hlen ▸ Nat.one_lt_two
  apply (intSetOps_iff hm h0 h1 ⟨0, fun _ => .null⟩ ⟨0, fun _ => .null⟩).mpr ⟨rfl, rfl⟩

/-- The set of 5, with an iterator whose memory held a 1 as its `sp`. -/
theorem not_intSetOps :
  ∃ m, intSetRun [.new, .add 0 5] = some m
    ∧ ¬IntSetOpsRight m 0 0 [5] [5] ⟨1, fun _ => .null⟩ ⟨0, fun _ => .null⟩
  := by
  obtain ⟨m, hm, hnone⟩ : ∃ m, intSetRun [.new, .add 0 5] = some m
      ∧ intSetIterNew m 0 ⟨1, fun _ => .null⟩ = none := ⟨_, rfl, rfl⟩
  use m, hm
  intro h
  obtain ⟨vec, ⟨n, hn⟩, -⟩ := h.toVec1
  have hvec := hn n le_rfl
  dsimp only at hvec
  rw [intSetToVec, hnone] at hvec
  cases hvec

end Polyc
