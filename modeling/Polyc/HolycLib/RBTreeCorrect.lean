import Polyc.HolycLib.RBTreeInsert
import Mathlib.Data.Finset.Card

/-!
# The red-black tree as an ordered map

After any insertions the nodes are those of a sorted and balanced tree; lookups give the value
that was last inserted, and an iteration gives the keys in increasing order on a stack that is
never larger than the tree.
-/

namespace Polyc

open RedBlack

section RBTree

variable {K : Type} [LinearOrder K] {keyCmp : K → K → Int} {T : RBTree K}
  {t : CTree (RBEntry K)} {M : K → Option Word} {key : K} {q : RBPtr}

/-! ### Lookup -/

/-- The search of a lookup: the node of the key, or `NULL`. -/
theorem Rep.find
    (hcmp : KeyCmp keyCmp) (key : K) {fuel : Nat} (h : Rep T.heap q t) (hsorted : Sorted t.toList)
    (hfuel : t.toList.length < fuel) :
  (∃ i n, rbNodeFind keyCmp T key fuel (ptr t) = some (.node i) ∧ T.heap i = some n
      ∧ (i, key, n.value) ∈ t.toList)
    ∨ rbNodeFind keyCmp T key fuel (ptr t) = some .null ∧ ∀ e ∈ t.toList, e.2.1 ≠ key
  := by
  induction fuel generalizing t q with
  | zero => cases hfuel
  | succ fuel ih =>
    cases t with
    | nil => exact .inr ⟨rfl, by simp [CTree.toList]⟩
    | node c l a r =>
      obtain ⟨ha, hl, hr⟩ := h
      obtain ⟨hsl, hsr⟩ := hsorted.sides
      obtain ⟨-, har, hla⟩ := List.pairwise_append.mp hsorted
      have har := (List.pairwise_cons.mp har).1
      have hla := fun e he => hla e he a List.mem_cons_self
      have hnode : rbNodeFind keyCmp T key (fuel + 1) (.node a.1)
          = if keyCmp key a.2.1 = 0 then some (.node a.1)
            else if keyCmp key a.2.1 < 0 then rbNodeFind keyCmp T key fuel (ptr l)
            else rbNodeFind keyCmp T key fuel (ptr r) := by
        rw [rbNodeFind, if_pos (by simp)]
        show ((T.heap a.1).bind _) = _
        rw [ha, Option.bind_some, child_node ha, child_node ha]
        rfl
      have hptr : ptr (.node c l a r) = .node a.1 := rfl
      simp only [hptr, hnode, (hcmp key a.2.1).1, (hcmp key a.2.1).2, CTree.toList]
      rw [CTree.toList, List.length_append, List.length_cons] at hfuel
      rcases lt_trichotomy key a.2.1 with hlt | rfl | hgt
      · rw [if_neg hlt.ne, if_pos hlt]
        rcases ih hl hsl (by omega) with ⟨i, n, hfind, hn, hmem⟩ | ⟨hfind, hno⟩
        · exact .inl ⟨i, n, hfind, hn, List.mem_append_left _ hmem⟩
        · right
          refine ⟨hfind, ?_⟩
          intro e he
          rcases List.mem_append.mp he with he | he
          · apply hno e he
          · rcases List.mem_cons.mp he with rfl | he
            · apply hlt.ne'
            · apply (hlt.trans (har e he)).ne'
      · rw [if_pos rfl]
        exact .inl ⟨a.1, _, rfl, ha, by simp⟩
      · rw [if_neg hgt.ne', if_neg (lt_asymm hgt)]
        rcases ih hr hsr (by omega) with ⟨i, n, hfind, hn, hmem⟩ | ⟨hfind, hno⟩
        · exact .inl ⟨i, n, hfind, hn, List.mem_append_right _ (List.mem_cons_of_mem a hmem)⟩
        · right
          refine ⟨hfind, ?_⟩
          intro e he
          rcases List.mem_append.mp he with he | he
          · apply ((hla e he).trans hgt).ne
          · rcases List.mem_cons.mp he with rfl | he
            · apply hgt.ne
            · apply hno e he

/-- A lookup gives the value of the key, or `NULL`. -/
theorem RBTree.Valid.get (hcmp : KeyCmp keyCmp) (h : T.Valid t M) (key : K) :
  rbTreeGet keyCmp T key = some ((M key).getD 0)
  := by
  have hroot : T.root = ptr t := h.nodes.root
  have hlen : t.toList.length < T.size + 1 := by
    rw [h.size]
    apply Nat.lt_succ_self
  rcases Rep.find hcmp key h.nodes.rep h.sorted hlen with
    ⟨i, n, hfind, hn, hmem⟩ | ⟨hfind, hno⟩
  · have hM : M key = some n.value := (h.binds key n.value).mpr ⟨i, hmem⟩
    rw [rbTreeGet, hroot, hfind, hM]
    show (T.heap i).map RBNode.value = _
    rw [hn]
    rfl
  · have hM : M key = none := by
      rw [Option.eq_none_iff_forall_ne_some]
      intro v hv
      obtain ⟨i, hmem⟩ := (h.binds key v).mp hv
      exact hno _ hmem rfl
    rw [rbTreeGet, hroot, hfind, hM]
    rfl

end RBTree

/-! ### Iteration -/

section Iteration

variable {K : Type} {T : RBTree K} {t : CTree (RBEntry K)} {q : RBPtr}

/-- Nodes on the stack of an iterator, with their right subtrees. -/
abbrev Pending (K : Type) := List (RBEntry K × CTree (RBEntry K))

/-- What is still to come from the stack. -/
def Pending.toList (l : Pending K) : List (RBEntry K) := l.flatMap fun e => e.1 :: e.2.toList

/-- The pointers on the stack. -/
def Pending.stack (l : Pending K) : List RBPtr := l.map fun e => .node e.1.1

/-- The nodes on the stack are there, with their right subtrees. -/
def Pending.Rep (T : RBTree K) (l : Pending K) : Prop :=
  ∀ e ∈ l, (∃ n, T.heap e.1.1 = some n ∧ n.key = e.1.2.1 ∧ n.value = e.1.2.2
    ∧ n.child .right = ptr e.2) ∧ Polyc.Rep T.heap (.node e.1.1) e.2

theorem Pending.length_le (l : Pending K) :
  l.stack.length ≤ l.toList.length
  := by
  induction l with
  | nil => apply Nat.zero_le
  | cons e l ih =>
    rw [Pending.stack, Pending.toList] at *
    simp at ih ⊢
    omega

/-- Pushing a subtree's left descendants. -/
theorem rbPushLeft_rep
    {l : Pending K} (fuel : Nat) {n : Nat} (ht : Rep T.heap q t) (hl : l.Rep T)
    (hn : (t.toList ++ l.toList).length ≤ n) (hfuel : t.toList.length < fuel) :
  ∃ l' : Pending K, rbPushLeft T fuel ⟨l.stack, n⟩ (ptr t) = some ⟨l'.stack, n⟩ ∧ l'.Rep T
    ∧ l'.toList = t.toList ++ l.toList
  := by
  induction fuel generalizing t q l with
  | zero => cases hfuel
  | succ fuel ih =>
    cases t with
    | nil => exact ⟨l, rfl, hl, rfl⟩
    | node c tl a tr =>
      obtain ⟨ha, htl, htr⟩ := ht
      have hl' : Pending.Rep T ((a, tr) :: l) := by
        intro e he
        rcases List.mem_cons.mp he with rfl | he
        · exact ⟨⟨_, ha, rfl, rfl, rfl⟩, htr⟩
        · apply hl e he
      have hlist : (CTree.node c tl a tr).toList ++ l.toList
          = tl.toList ++ Pending.toList ((a, tr) :: l) := by
        simp [CTree.toList, Pending.toList]
      rw [hlist] at hn ⊢
      rw [CTree.toList, List.length_append, List.length_cons] at hfuel
      obtain ⟨l', hpush, hrep, hout⟩ := ih htl hl' hn (by omega)
      refine ⟨l', ?_, hrep, hout⟩
      have hroom : l.stack.length < n := by
        have hle := Pending.length_le ((a, tr) :: l)
        rw [List.length_append] at hn
        rw [Pending.stack, List.map_cons, List.length_cons] at hle
        rw [Pending.stack]
        omega
      show rbPushLeft T (fuel + 1) ⟨l.stack, n⟩ (.node a.1) = _
      rw [rbPushLeft, if_pos (by simp), if_pos hroom]
      show ((T.child .left (.node a.1)).bind _) = _
      rw [child_node ha]
      apply hpush

/-- The calls of `RBIterNext` give what is still to come. -/
theorem rbYields_rep
    {l : Pending K} {fuel : Nat} (hl : l.Rep T) (hn : l.toList.length ≤ T.size)
    (hfuel : l.toList.length < fuel) :
  rbYields T fuel ⟨l.stack, T.size⟩ = some (l.toList.map Prod.snd)
  := by
  induction fuel generalizing l with
  | zero => cases hfuel
  | succ fuel ih =>
    cases l with
    | nil => rfl
    | cons e l =>
      obtain ⟨⟨⟨n, hnode, hkey, hvalue, hchild⟩, htree⟩, hl⟩ := List.forall_mem_cons.mp hl
      have hlist : Pending.toList (e :: l) = e.1 :: (e.2.toList ++ Pending.toList l) := by
        simp [Pending.toList]
      rw [hlist] at hn hfuel ⊢
      rw [List.length_cons] at hn hfuel
      obtain ⟨l', hpush, hrep, hout⟩ := rbPushLeft_rep (T.size + 1) htree hl
        (show (e.2.toList ++ Pending.toList l).length ≤ T.size by omega)
        (by rw [List.length_append] at hn; omega)
      have hrest := ih hrep (by rw [hout]; omega) (by rw [hout]; omega)
      have hright : T.child .right (.node e.1.1) = some (ptr e.2) := by
        rw [RBTree.child, hnode, ← hchild]
        rfl
      have hnext : rbIterNext T ⟨Pending.stack (e :: l), T.size⟩
          = some (⟨l'.stack, T.size⟩, .node e.1.1) := by
        show ((T.child .right (.node e.1.1)).bind _) = _
        rw [hright, Option.bind_some]
        show ((rbPushLeft T (T.size + 1) ⟨Pending.stack l, T.size⟩ (ptr e.2)).bind _) = _
        rw [hpush]
        rfl
      rw [rbYields, hnext]
      show ((T.heap e.1.1).bind _) = _
      rw [hnode, Option.bind_some, hrest, hout, hkey, hvalue]
      rfl

end Iteration

section RBTree

variable {K : Type} [LinearOrder K] {keyCmp : K → K → Int} {T : RBTree K}
  {t : CTree (RBEntry K)} {M : K → Option Word}

/-- An iteration gives the keys and values in order. -/
theorem RBTree.Valid.iterate (h : T.Valid t M) :
  rbIterate T = some (t.toList.map Prod.snd)
  := by
  have hroot : T.root = ptr t := h.nodes.root
  have hempty : Pending.Rep T ([] : Pending K) := by
    intro e he
    cases he
  obtain ⟨l', hpush, hrep, hout⟩ := rbPushLeft_rep (n := T.size) (T.size + 1) h.nodes.rep
    hempty (by simp [Pending.toList, h.size]) (by rw [h.size]; omega)
  have hout' : l'.toList = t.toList := by
    rw [hout]
    simp [Pending.toList]
  rw [rbIterate, rbIterNew, hroot]
  show ((rbPushLeft T (T.size + 1) ⟨Pending.stack ([] : Pending K), T.size⟩ (ptr t)).bind _) = _
  rw [hpush, Option.bind_some, rbYields_rep hrep _ _, hout']
  · rw [hout', h.size]
  · rw [hout', h.size]
    apply Nat.lt_succ_self

/-! ### Runs -/

/-- Some insertions into a new tree. -/
def rbTreeRun (keyCmp : K → K → Int) (kvs : List (K × Word)) : Option (RBTree K) :=
  kvs.foldlM (fun T kv => rbTreeInsert keyCmp T kv.1 kv.2) (rbTreeNew K)

/-- The value that was last inserted under a key. -/
def lastInserted (kvs : List (K × Word)) (key : K) : Option Word :=
  (kvs.reverse.find? fun kv => kv.1 = key).map Prod.snd

/-- After some insertions the nodes are those of a sorted tree, whose root is black and which is
balanced; its size is the number of keys, lookups give the values last inserted, and an iteration
gives every key once, in increasing order. -/
def RBTreeOrdered (keyCmp : K → K → Int) (kvs : List (K × Word)) : Prop :=
  ∃ T t, rbTreeRun keyCmp kvs = some T ∧ T.At [] t ∧ Sorted t.toList
    ∧ (∃ n, Balanced t .black n) ∧ T.size = (kvs.map Prod.fst).toFinset.card
    ∧ (∀ key, rbTreeGet keyCmp T key = some ((lastInserted kvs key).getD 0))
    ∧ ∃ l, rbIterate T = some l ∧ l.Pairwise (fun kv kv' => kv.1 < kv'.1)
      ∧ ∀ key value, (key, value) ∈ l ↔ lastInserted kvs key = some value

/-- An insertion comes last. -/
theorem lastInserted_concat (kvs : List (K × Word)) (key : K) (value : Word) :
  lastInserted (kvs ++ [(key, value)]) = Function.update (lastInserted kvs) key (some value)
  := by
  funext key'
  rw [lastInserted, List.reverse_append]
  show ((((key, value) :: kvs.reverse).find? fun kv => kv.1 = key').map Prod.snd) = _
  rw [List.find?_cons]
  by_cases h : key = key'
  · subst h
    simp
  · rw [Function.update_of_ne (Ne.symm h)]
    simp [h, lastInserted]

/-- A key has a value when it was inserted. -/
theorem lastInserted_isSome (kvs : List (K × Word)) (key : K) :
  (∃ value, lastInserted kvs key = some value) ↔ key ∈ kvs.map Prod.fst
  := by
  rw [← Option.isSome_iff_exists, lastInserted, Option.isSome_map, List.find?_isSome]
  simp

/-- A new tree is empty. -/
theorem valid_rbTreeNew : (rbTreeNew K).Valid .nil (fun _ => none) where
  nodes := ⟨rfl, trivial, trivial, by simp [ids, CTree.toList, ctxIds]⟩
  balanced := ⟨0, .nil⟩
  sorted := List.Pairwise.nil
  size := rfl
  fresh i hi := by cases hi
  binds k v := by simp [CTree.toList]

/-- What is kept is kept by all insertions. -/
theorem rbTreeRun_valid (hcmp : KeyCmp keyCmp) (kvs : List (K × Word)) :
  ∃ T t, rbTreeRun keyCmp kvs = some T ∧ T.Valid t (lastInserted kvs)
  := by
  induction kvs using List.reverseRecOn with
  | nil => exact ⟨rbTreeNew K, .nil, rfl, valid_rbTreeNew⟩
  | append_singleton kvs kv ih =>
    obtain ⟨T, t, hrun, hv⟩ := ih
    obtain ⟨T', t', hinsert, hv'⟩ := hv.insert hcmp kv.1 kv.2
    refine ⟨T', t', ?_, ?_⟩
    · rw [rbTreeRun] at hrun
      rw [rbTreeRun, List.foldlM_append, hrun]
      show ((rbTreeInsert keyCmp T kv.1 kv.2).bind _) = _
      rw [hinsert]
      rfl
    · rw [lastInserted_concat]
      apply hv'

/-- The keys of a sorted tree are as many as those that are bound. -/
theorem RBTree.Valid.size_eq {kvs : List (K × Word)} (h : T.Valid t (lastInserted kvs)) :
  T.size = (kvs.map Prod.fst).toFinset.card
  := by
  have hnodup : (t.toList.map fun e => e.2.1).Nodup := by
    rw [List.Nodup, List.pairwise_map]
    apply h.sorted.imp
    intro e e' hlt
    apply hlt.ne
  have hkeys : (t.toList.map fun e => e.2.1).toFinset = (kvs.map Prod.fst).toFinset := by
    ext key
    rw [List.mem_toFinset, List.mem_toFinset, ← lastInserted_isSome]
    simp only [h.binds]
    constructor
    · intro hmem
      obtain ⟨e, he, rfl⟩ := List.mem_map.mp hmem
      exact ⟨e.2.2, e.1, he⟩
    · rintro ⟨v, i, he⟩
      exact List.mem_map.mpr ⟨_, he, rfl⟩
  rw [h.size, ← hkeys, List.toFinset_card_of_nodup hnodup, List.length_map]

/-- The red-black tree is an ordered map. -/
theorem rbTree_ordered (hcmp : KeyCmp keyCmp) (kvs : List (K × Word)) :
  RBTreeOrdered keyCmp kvs
  := by
  obtain ⟨T, t, hrun, hv⟩ := rbTreeRun_valid hcmp kvs
  refine ⟨T, t, hrun, hv.nodes, hv.sorted, hv.balanced, hv.size_eq, hv.get hcmp, _, hv.iterate,
    ?_, ?_⟩
  · rw [List.pairwise_map]
    apply hv.sorted
  · intro key value
    rw [hv.binds, List.mem_map]
    constructor
    · rintro ⟨e, he, heq⟩
      obtain ⟨i, k, v⟩ := e
      cases heq
      exact ⟨i, he⟩
    · rintro ⟨i, he⟩
      exact ⟨_, he, rfl⟩

end RBTree

/-- Numbers, compared by their difference. -/
theorem rbTree_ordered_int : RBTreeOrdered (fun a b : Int => a - b) [(3, 30), (1, 10), (2, 20), (1, 11)] := by
  apply rbTree_ordered
  intro a b
  constructor
  · constructor
    · apply Int.lt_of_sub_neg
    · apply Int.sub_neg_of_lt
  · apply Int.sub_eq_zero

end Polyc
