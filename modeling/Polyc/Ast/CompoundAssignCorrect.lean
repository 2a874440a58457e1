import Polyc.Ast.CompoundAssign

/-!
# Compound assignments evaluate their target twice

The events of an execution are of the nodes of its tree, and an execution without a side effect
leaves the memory.  A compound assignment does to its target what it should where the second
computation of the address is without effect.
-/

namespace Polyc

/-! ### Executions -/

namespace Exec

variable {M α β γ : Type}

/-- What one execution after another does. -/
theorem bind_eq_some {x : Exec M α} {f : α → Exec M β} {m m' : M} {b : β} {es : List ExprEvent} :
  x.bind f m = some (b, m', es) ↔ ∃ a m₁ es₁ es₂, x m = some (a, m₁, es₁) ∧
    f a m₁ = some (b, m', es₂) ∧ es = es₁ ++ es₂
  := by
  rw [Exec.bind, Option.bind_eq_some_iff]
  constructor
  · rintro ⟨⟨a, m₁, es₁⟩, hx, hf⟩
    rw [Option.map_eq_some_iff] at hf
    obtain ⟨⟨b', m₂, es₂⟩, hf, heq⟩ := hf
    cases heq
    exact ⟨a, m₁, es₁, es₂, hx, hf, rfl⟩
  · rintro ⟨a, m₁, es₁, es₂, hx, hf, rfl⟩
    refine ⟨(a, m₁, es₁), hx, ?_⟩
    rw [Option.map_eq_some_iff]
    exact ⟨(b, m', es₂), hf, rfl⟩

/-- The first execution is without an event. -/
theorem pure_bind (a : α) (f : α → Exec M β) :
  (Exec.pure a).bind f = f a
  := by
  funext m
  rw [Exec.bind, Exec.pure, Option.bind_some]
  exact Option.map_id'

/-- Three executions. -/
theorem bind_assoc (x : Exec M α) (f : α → Exec M β) (g : β → Exec M γ) :
  (x.bind f).bind g = x.bind fun a => (f a).bind g
  := by
  funext m
  apply Option.ext
  rintro ⟨c, m', es⟩
  constructor
  · intro h
    obtain ⟨b, m₂, es₂, es₃, hxf, hg, rfl⟩ := bind_eq_some.mp h
    obtain ⟨a, m₁, es₁, es₂, hx, hf, rfl⟩ := bind_eq_some.mp hxf
    apply bind_eq_some.mpr
    refine ⟨a, m₁, es₁, _, hx, bind_eq_some.mpr ⟨b, m₂, es₂, es₃, hf, hg, rfl⟩, ?_⟩
    rw [List.append_assoc]
  · intro h
    obtain ⟨a, m₁, es₁, _, hx, hfg, rfl⟩ := bind_eq_some.mp h
    obtain ⟨b, m₂, es₂, es₃, hf, hg, rfl⟩ := bind_eq_some.mp hfg
    apply bind_eq_some.mpr
    refine ⟨b, m₂, _, es₃, bind_eq_some.mpr ⟨a, m₁, es₁, es₂, hx, hf, rfl⟩, hg, ?_⟩
    rw [List.append_assoc]

/-- Every event of an execution is of some nodes, and without a side effect it leaves the
memory. -/
def EventsOf (x : Exec M α) (nodes : List Nat) : Prop :=
  ∀ m a m' es, x m = some (a, m', es) →
    (∀ e ∈ es, e.node ∈ nodes) ∧ ((∀ e ∈ es, e.isSideEffect = false) → m' = m)

/-- An execution without an event. -/
theorem EventsOf.pure (a : α) (nodes : List Nat) :
  (Exec.pure a : Exec M α).EventsOf nodes
  := by
  rintro m _ _ _ ⟨⟩
  exact ⟨nofun, fun _ => rfl⟩

/-- One execution after another. -/
theorem EventsOf.bind {x : Exec M α} {f : α → Exec M β} {nodes : List Nat}
    (hx : x.EventsOf nodes) (hf : ∀ a, (f a).EventsOf nodes) :
  (x.bind f).EventsOf nodes
  := by
  intro m b m' es h
  obtain ⟨a, m₁, es₁, es₂, hxm, hfm, rfl⟩ := bind_eq_some.mp h
  obtain ⟨hnodes₁, hkeep₁⟩ := hx m a m₁ es₁ hxm
  obtain ⟨hnodes₂, hkeep₂⟩ := hf a m₁ b m' es₂ hfm
  constructor
  · intro e he
    rcases List.mem_append.mp he with he | he
    · exact hnodes₁ e he
    · exact hnodes₂ e he
  · intro hes
    rw [hkeep₂ fun e he => hes e (List.mem_append_right _ he),
      hkeep₁ fun e he => hes e (List.mem_append_left _ he)]

/-- More nodes. -/
theorem EventsOf.mono {x : Exec M α} {nodes nodes' : List Nat} (hx : x.EventsOf nodes)
    (hsub : nodes ⊆ nodes') :
  x.EventsOf nodes'
  := fun m a m' es h =>
    ⟨fun e he => hsub ((hx m a m' es h).1 e he), (hx m a m' es h).2⟩

end Exec

section Nodes

variable {M : Type} (X : ExprMachine M)

/-- A load is of its node. -/
theorem execLoad_eventsOf {isLoaded : Bool} {node : Nat} {nodes : List Nat}
    (h : isLoaded = true → node ∈ nodes) (type : ExprType) (a : Word) :
  (execLoad X isLoaded node type a).EventsOf nodes
  := by
  intro m v m' es hm
  rw [execLoad] at hm
  split at hm
  case isTrue hloaded =>
    cases hm
    exact ⟨fun e he => List.mem_singleton.mp he ▸ h hloaded, fun _ => rfl⟩
  case isFalse =>
    cases hm
    exact ⟨nofun, fun _ => rfl⟩

/-- A store is of its node. -/
theorem execStore_eventsOf {node : Nat} {nodes : List Nat} (h : node ∈ nodes) (type : ExprType)
    (a v : Word) :
  (execStore X node type a v).EventsOf nodes
  := by
  rintro m _ _ _ ⟨⟩
  refine ⟨fun e he => List.mem_singleton.mp he ▸ h, ?_⟩
  intro hes
  cases hes _ List.mem_cons_self

/-- A call is of its node. -/
theorem execCall_eventsOf {node : Nat} {nodes : List Nat} (h : node ∈ nodes) (fname : Word)
    (args : List Word) :
  (execCall X node fname args).EventsOf nodes
  := by
  intro m v m' es hm
  rw [execCall, Option.map_eq_some_iff] at hm
  obtain ⟨r, -, heq⟩ := hm
  cases heq
  refine ⟨fun e he => List.mem_singleton.mp he ▸ h, ?_⟩
  intro hes
  cases hes _ List.mem_cons_self

/-- An operator has no event. -/
theorem execArith_eventsOf (type : ExprType) (op : AstBinOp) (left right : ExprType) (v w : Word)
    (nodes : List Nat) :
  (execArith X type op left right v w).EventsOf nodes
  := by
  intro m r m' es hm
  rw [execArith, Option.map_eq_some_iff] at hm
  obtain ⟨r, -, heq⟩ := hm
  cases heq
  exact ⟨nofun, fun _ => rfl⟩

/-- The nodes in the address of a target are nodes of it. -/
theorem addrNodes_subset (t : ExprTree) :
  t.addrNodes ⊆ t.nodes
  := by
  cases t with
  | deref node type operand => exact List.subset_cons_self node _
  | classRef node type cls offset => exact List.subset_cons_self node _
  | _ => exact List.nil_subset _

/-- A target that `&` loads has a name. -/
theorem node_mem_of_addrIsLoaded {t : ExprTree} (h : t.addrIsLoaded = true) :
  t.node ∈ t.nodes
  := by
  cases t with
  | var node => exact List.mem_singleton_self node
  | _ => cases h

mutual

/-- The events of an expression are of its nodes. -/
theorem execValue_eventsOf : ∀ t : ExprTree, (execValue X t).EventsOf t.nodes
  | .literal _ _ => Exec.EventsOf.pure _ _
  | .var node type _ _ => execLoad_eventsOf X (fun _ => List.mem_singleton_self node) type _
  | .deref node type operand => by
    apply Exec.EventsOf.bind
    · exact (execValue_eventsOf operand).mono (List.subset_cons_self node _)
    · exact fun a => execLoad_eventsOf X (fun _ => List.mem_cons_self) type a
  | .classRef node type cls offset => by
    apply Exec.EventsOf.bind
    · apply (execAddr_eventsOf cls).mono
      exact fun n hn => List.mem_cons_of_mem node (addrNodes_subset cls hn)
    · exact fun a => execLoad_eventsOf X (fun _ => List.mem_cons_self) type _
  | .addr _ operand => by
    apply Exec.EventsOf.bind
    · exact (execAddr_eventsOf operand).mono (addrNodes_subset operand)
    · exact fun a => execLoad_eventsOf X node_mem_of_addrIsLoaded operand.type a
  | .cast _ operand =>
    (execValue_eventsOf operand).bind fun v => Exec.EventsOf.pure _ _
  | .funcall node _ fname args => by
    apply Exec.EventsOf.bind
    · exact (execArgs_eventsOf args).mono (List.subset_cons_self node _)
    · exact fun vs => execCall_eventsOf X List.mem_cons_self fname vs
  | .unop _ operand =>
    (execValue_eventsOf operand).bind fun v => Exec.EventsOf.pure _ _
  | .incDec node op operand => by
    apply Exec.EventsOf.bind
    · apply (execAddr_eventsOf operand).mono
      exact fun n hn => List.mem_cons_of_mem node (addrNodes_subset operand hn)
    · intro a
      apply (execLoad_eventsOf X (fun _ => List.mem_cons_self) _ a).bind
      intro cur
      apply (execStore_eventsOf X List.mem_cons_self _ a _).bind
      exact fun _ => Exec.EventsOf.pure _ _
  | .binop type op left right => by
    apply Exec.EventsOf.bind
    · exact (execValue_eventsOf left).mono (List.subset_append_left _ _)
    · intro v
      apply ((execValue_eventsOf right).mono (List.subset_append_right _ _)).bind
      exact fun w => execArith_eventsOf X type op _ _ v w _
  | .logAnd left right => by
    apply Exec.EventsOf.bind
    · exact (execValue_eventsOf left).mono (List.subset_append_left _ _)
    · intro v
      split
      · exact Exec.EventsOf.pure _ _
      · apply ((execValue_eventsOf right).mono (List.subset_append_right _ _)).bind
        exact fun w => Exec.EventsOf.pure _ _
  | .logOr left right => by
    apply Exec.EventsOf.bind
    · exact (execValue_eventsOf left).mono (List.subset_append_left _ _)
    · intro v
      split
      · apply ((execValue_eventsOf right).mono (List.subset_append_right _ _)).bind
        exact fun w => Exec.EventsOf.pure _ _
      · exact Exec.EventsOf.pure _ _
  | .assign node type left right => by
    apply Exec.EventsOf.bind
    · apply (execAddr_eventsOf left).mono
      exact fun n hn =>
        List.mem_cons_of_mem node (List.mem_append_left _ (addrNodes_subset left hn))
    · intro a
      apply Exec.EventsOf.bind
      · apply (execValue_eventsOf right).mono
        exact fun n hn => List.mem_cons_of_mem node (List.mem_append_right _ hn)
      · intro v
        apply (execStore_eventsOf X List.mem_cons_self _ a v).bind
        exact fun _ => Exec.EventsOf.pure _ _

/-- The events of an address are of the nodes in it. -/
theorem execAddr_eventsOf : ∀ t : ExprTree, (execAddr X t).EventsOf t.addrNodes
  | .var _ _ _ _ => Exec.EventsOf.pure _ _
  | .deref _ _ operand => execValue_eventsOf operand
  | .classRef _ _ cls _ =>
    ((execAddr_eventsOf cls).mono (addrNodes_subset cls)).bind fun _ => Exec.EventsOf.pure _ _
  | .literal _ _ | .addr _ _ | .cast _ _ | .funcall _ _ _ _ | .unop _ _ | .incDec _ _ _
  | .binop _ _ _ _ | .logAnd _ _ | .logOr _ _ | .assign _ _ _ _ => nofun

/-- The events of arguments are of their nodes. -/
theorem execArgs_eventsOf : ∀ ts : List ExprTree,
    (execArgs X ts).EventsOf (ExprTree.argsNodes ts)
  | [] => Exec.EventsOf.pure _ _
  | t :: ts => by
    apply Exec.EventsOf.bind
    · exact (execValue_eventsOf t).mono (List.subset_append_left _ _)
    · intro v
      apply ((execArgs_eventsOf ts).mono (List.subset_append_right _ _)).bind
      exact fun vs => Exec.EventsOf.pure _ _

end

end Nodes

/-! ### The tree of a compound assignment -/

section Tree

variable {M : Type} {X : ExprMachine M} {node : Nat} {op : AstBinOp} {type : ExprType}
  {LHS RHS : ExprTree}

/-- The value of a target is what is at its address. -/
theorem execValue_of_execAddr {m : M} (haddr : (execAddr X LHS m).isSome) :
  execValue X LHS = (execAddr X LHS).bind (execLoad X LHS.isLoaded LHS.node LHS.type)
  := by
  cases LHS with
  | var node type isLocal id => exact (Exec.pure_bind _ _).symm
  | deref node type operand => rfl
  | classRef node type cls offset =>
    rw [execValue, execAddr, Exec.bind_assoc]
    congr 1
    funext a
    exact (Exec.pure_bind _ _).symm
  | _ => cases haddr

/-- The tree that is built for a compound assignment. -/
theorem parseAssign_eq_some {tok : AssignToken} {tree : ExprTree}
    (htok : parseCompoundAssign tok = some op) (h : parseAssign node tok LHS RHS = some tree) :
  ∃ type type', astGetResultType (.arith op) LHS.type RHS.type = some type ∧
    tree = .assign node type' LHS (if exchanges (.arith op) LHS.type RHS.type
      then .binop type op RHS LHS else .binop type op LHS RHS)
  := by
  rw [parseAssign] at h
  split at h
  case isFalse => cases h
  case isTrue =>
    rw [htok] at h
    obtain ⟨value, hvalue, htree⟩ := Option.bind_eq_some_iff.mp h
    rw [parseCreateBinaryOp, Option.map_eq_some_iff] at hvalue htree
    obtain ⟨type, htype, rfl⟩ := hvalue
    obtain ⟨type', -, rfl⟩ := htree
    have hassign : ∀ a b, exchanges .assign a b = false := fun a b => rfl
    refine ⟨type, type', htype, ?_⟩
    simp only [hassign, Bool.false_eq_true, if_false, ExprTree.ofTreeOp]

/-- What an execution of a target and then of its value does. -/
theorem execValue_target (hloaded : LHS.isLoaded = true)
    (htarget : ∃ m, (execAddr X LHS m).isSome) {m m' : M} {v : Word} {es : List ExprEvent}
    (h : execValue X LHS m = some (v, m', es)) :
  ∃ a es', execAddr X LHS m = some (a, m', es') ∧ v = X.load m' a LHS.type ∧
    es = es' ++ [.load LHS.node a v]
  := by
  obtain ⟨m₀, hsome⟩ := htarget
  rw [execValue_of_execAddr hsome] at h
  obtain ⟨a, m₁, es₁, es₂, haddr, hload, rfl⟩ := Exec.bind_eq_some.mp h
  rw [execLoad, if_pos hloaded] at hload
  cases hload
  exact ⟨a, es₁, haddr, rfl, rfl⟩

/-- What an execution of the tree does, unless the operands are exchanged. -/
theorem execValue_compound (hloaded : LHS.isLoaded = true) {type' : ExprType} {m m' : M}
    {v : Word} {es : List ExprEvent}
    (h : execValue X (.assign node type' LHS (.binop type op LHS RHS)) m = some (v, m', es)) :
  ∃ a m₁ es₁ a₂ m₂ es₂ r m₃ es₃ w, execAddr X LHS m = some (a, m₁, es₁)
    ∧ execAddr X LHS m₁ = some (a₂, m₂, es₂) ∧ execValue X RHS m₂ = some (r, m₃, es₃)
    ∧ X.arith type op LHS.type RHS.type (X.load m₂ a₂ LHS.type) r = some w
    ∧ es = es₁ ++ (es₂ ++ .load LHS.node a₂ (X.load m₂ a₂ LHS.type) :: es₃) ++ [.store node a w]
  := by
  rw [execValue] at h
  obtain ⟨a, m₁, es₁, _, haddr, hrest, rfl⟩ := Exec.bind_eq_some.mp h
  obtain ⟨w, m₄, es₄, _, hvalue, hlast, rfl⟩ := Exec.bind_eq_some.mp hrest
  obtain ⟨_, m₅, es₅, _, hstore, hpure, rfl⟩ := Exec.bind_eq_some.mp hlast
  cases hstore
  cases hpure
  rw [execValue] at hvalue
  obtain ⟨old, m₂, _, _, hold, hright, rfl⟩ := Exec.bind_eq_some.mp hvalue
  obtain ⟨r, m₃, es₃, _, hr, hop, rfl⟩ := Exec.bind_eq_some.mp hright
  rw [execArith, Option.map_eq_some_iff] at hop
  obtain ⟨w', harith, heq⟩ := hop
  cases heq
  have hsome : ∃ m, (execAddr X LHS m).isSome := ⟨m, by rw [haddr]; rfl⟩
  obtain ⟨a₂, es₂, haddr₂, rfl, rfl⟩ := execValue_target hloaded hsome hold
  refine ⟨a, m₁, es₁, a₂, m₂, es₂, r, _, es₃, _, haddr, haddr₂, hr, harith, ?_⟩
  simp

/-- What an execution of the tree does when the operands are exchanged. -/
theorem execValue_exchanged (hloaded : LHS.isLoaded = true) {type' : ExprType} {m m' : M}
    {v : Word} {es : List ExprEvent}
    (h : execValue X (.assign node type' LHS (.binop type op RHS LHS)) m = some (v, m', es)) :
  ∃ a m₁ es₁ r m₂ es₂ a₂ m₃ es₃ w, execAddr X LHS m = some (a, m₁, es₁)
    ∧ execValue X RHS m₁ = some (r, m₂, es₂) ∧ execAddr X LHS m₂ = some (a₂, m₃, es₃)
    ∧ X.arith type op RHS.type LHS.type r (X.load m₃ a₂ LHS.type) = some w
    ∧ es = es₁ ++ (es₂ ++ (es₃ ++ [.load LHS.node a₂ (X.load m₃ a₂ LHS.type)]))
      ++ [.store node a w]
  := by
  rw [execValue] at h
  obtain ⟨a, m₁, es₁, _, haddr, hrest, rfl⟩ := Exec.bind_eq_some.mp h
  obtain ⟨w, m₄, es₄, _, hvalue, hlast, rfl⟩ := Exec.bind_eq_some.mp hrest
  obtain ⟨_, m₅, es₅, _, hstore, hpure, rfl⟩ := Exec.bind_eq_some.mp hlast
  cases hstore
  cases hpure
  rw [execValue] at hvalue
  obtain ⟨r, m₂, es₂, _, hr, hright, rfl⟩ := Exec.bind_eq_some.mp hvalue
  obtain ⟨old, m₃, _, _, hold, hop, rfl⟩ := Exec.bind_eq_some.mp hright
  rw [execArith, Option.map_eq_some_iff] at hop
  obtain ⟨w', harith, heq⟩ := hop
  cases heq
  have hsome : ∃ m, (execAddr X LHS m).isSome := ⟨m, by rw [haddr]; rfl⟩
  obtain ⟨a₂, es₃, haddr₂, rfl, rfl⟩ := execValue_target hloaded hsome hold
  refine ⟨a, m₁, es₁, r, m₂, es₂, a₂, _, es₃, _, haddr, hr, haddr₂, harith, ?_⟩
  simp

/-! ### The events of the tree -/

/-- Side effects of two runs of events. -/
theorem sideEffects_append (nodes : List Nat) (es es' : List ExprEvent) :
  sideEffects nodes (es ++ es') = sideEffects nodes es ++ sideEffects nodes es'
  := List.filter_append _ _

/-- Events of other nodes. -/
theorem sideEffects_of_apart {nodes : List Nat} {es : List ExprEvent}
    (h : ∀ e ∈ es, e.node ∉ nodes) :
  sideEffects nodes es = []
  := by
  rw [sideEffects, List.filter_eq_nil_iff]
  intro e he
  simp [h e he]

/-- Events of the nodes have no side effect when none is filtered. -/
theorem sideEffects_eq_nil {nodes : List Nat} {es : List ExprEvent}
    (h : ∀ e ∈ es, e.node ∈ nodes) :
  sideEffects nodes es = [] ↔ ∀ e ∈ es, e.isSideEffect = false
  := by
  rw [sideEffects, List.filter_eq_nil_iff]
  apply forall₂_congr
  intro e he
  simp [h e he]

/-- Events of other nodes are not those of one node. -/
theorem filter_node_eq_nil {n : Nat} {es : List ExprEvent} (h : ∀ e ∈ es, e.node ≠ n) :
  es.filter (fun e => decide (e.node = n)) = []
  := by
  rw [List.filter_eq_nil_iff]
  intro e he
  simp [h e he]

/-- Both filters of the events of a tree: those of its address, of some events around the load of
its old value, and of the store at the end. -/
theorem filters_of_parts (hapart : NodesApart node LHS RHS) {a old addr new : Word}
    {es₁ es₂ es₃ es : List ExprEvent} (h₁ : ∀ e ∈ es₁, e.node ∈ LHS.addrNodes)
    (h₂ : ∀ e ∈ es₂, e.node ∈ LHS.addrNodes) (h₃ : ∀ e ∈ es₃, e.node ∈ RHS.nodes)
    (hes : es = es₁ ++ (es₂ ++ ExprEvent.load LHS.node a old :: es₃)
        ++ [ExprEvent.store node addr new]
      ∨ es = es₁ ++ (es₃ ++ (es₂ ++ [ExprEvent.load LHS.node a old]))
        ++ [ExprEvent.store node addr new]) :
  sideEffects LHS.addrNodes es
      = sideEffects LHS.addrNodes es₁ ++ sideEffects LHS.addrNodes es₂
    ∧ es.filter (fun e => decide (e.node = LHS.node)) = [ExprEvent.load LHS.node a old]
    ∧ es.getLast? = some (ExprEvent.store node addr new)
  := by
  have hrest : sideEffects LHS.addrNodes es₃ = [] :=
    sideEffects_of_apart fun e he hn => hapart.value _ (List.mem_cons_of_mem _ hn) (h₃ e he)
  have hload : sideEffects LHS.addrNodes [ExprEvent.load LHS.node a old] = [] := by
    apply sideEffects_of_apart
    rintro e he
    rw [List.mem_singleton.mp he]
    exact hapart.target
  have hstore : sideEffects LHS.addrNodes [ExprEvent.store node addr new] = [] := by
    apply sideEffects_of_apart
    rintro e he hn
    rw [List.mem_singleton.mp he] at hn
    exact hapart.assign (List.mem_cons_of_mem _ hn)
  have hne : ∀ e : ExprEvent, e.node ∈ LHS.addrNodes → e.node ≠ LHS.node := by
    intro e he hn
    rw [hn] at he
    exact hapart.target he
  have hnode₁ := filter_node_eq_nil fun e he => hne e (h₁ e he)
  have hnode₂ := filter_node_eq_nil fun e he => hne e (h₂ e he)
  have hnode₃ : es₃.filter (fun e => decide (e.node = LHS.node)) = [] := by
    apply filter_node_eq_nil
    intro e he hn
    have hmem := h₃ e he
    rw [hn] at hmem
    exact hapart.value _ List.mem_cons_self hmem
  have hnodeL : [ExprEvent.load LHS.node a old].filter (fun e => decide (e.node = LHS.node))
      = [ExprEvent.load LHS.node a old] := by
    simp [ExprEvent.node]
  have hnodeS : [ExprEvent.store node addr new].filter (fun e => decide (e.node = LHS.node))
      = [] := by
    apply filter_node_eq_nil
    intro e he hn
    rw [List.mem_singleton.mp he] at hn
    exact hapart.assign (hn ▸ List.mem_cons_self)
  have hcons : ExprEvent.load LHS.node a old :: es₃ = [ExprEvent.load LHS.node a old] ++ es₃ := rfl
  rcases hes with rfl | rfl
  · refine ⟨?_, ?_, List.getLast?_concat⟩
    · simp only [hcons, sideEffects_append, hrest, hload, hstore, List.append_nil]
    · simp only [hcons, List.filter_append, hnode₁, hnode₂, hnode₃, hnodeL, hnodeS,
        List.append_nil, List.nil_append]
  · refine ⟨?_, ?_, List.getLast?_concat⟩
    · simp only [sideEffects_append, hrest, hload, hstore, List.append_nil, List.nil_append]
    · simp only [List.filter_append, hnode₁, hnode₂, hnode₃, hnodeL, hnodeS,
        List.append_nil, List.nil_append]

/-- An address that is computed once more has no side effect exactly if those of the tree are those
of the address. -/
theorem sideEffects_again {m m' : M} {a : Word} {es₁ es₂ : List ExprEvent}
    (h : execAddr X LHS m = some (a, m', es₂)) :
  sideEffects LHS.addrNodes es₁ ++ sideEffects LHS.addrNodes es₂ = sideEffects LHS.addrNodes es₁
    ↔ ∀ e ∈ es₂, e.isSideEffect = false
  := by
  rw [List.append_right_eq_self]
  exact sideEffects_eq_nil (execAddr_eventsOf X LHS m a m' es₂ h).1

/-- A tree whose operands are in order computes the address before the value. -/
theorem targetOnce_inOrder (hapart : NodesApart node LHS RHS)
    (htype : astGetResultType (.arith op) LHS.type RHS.type = some type)
    (hexchanges : exchanges (.arith op) LHS.type RHS.type = false)
    (hloaded : LHS.isLoaded = true) {type' : ExprType} {m m' : M} {v : Word}
    {events : List ExprEvent}
    (hrun : execValue X (.assign node type' LHS (.binop type op LHS RHS)) m
      = some (v, m', events)) :
  TargetOnce X node op LHS RHS m events ↔ AddrRepeats X op LHS RHS m
  := by
  obtain ⟨a, m₁, es₁, a₂, m₂, es₂, r, m₃, es₃, w, haddr, haddr₂, hr, harith, hes⟩ :=
    execValue_compound hloaded hrun
  obtain ⟨heffects, hloads, hlast⟩ := filters_of_parts hapart
    (execAddr_eventsOf X LHS _ _ _ _ haddr).1 (execAddr_eventsOf X LHS _ _ _ _ haddr₂).1
    (execValue_eventsOf X RHS _ _ _ _ hr).1 (.inl hes)
  constructor
  · rintro ⟨a', m₁', es₁', value, m₂', es₂', old, new, haddr', -, heffects', hloads', -, -⟩
    cases haddr.symm.trans haddr'
    cases hloads.symm.trans hloads'
    rintro _ _ _ heq
    cases haddr.symm.trans heq
    rw [hexchanges, if_neg Bool.false_ne_true]
    use m₂, es₂, haddr₂
    apply (sideEffects_again haddr₂).mp
    rw [← heffects, heffects']
  · intro hrepeats
    have hagain := hrepeats a m₁ es₁ haddr
    rw [hexchanges, if_neg Bool.false_ne_true] at hagain
    obtain ⟨_, _, heq, hsilent⟩ := hagain
    cases haddr₂.symm.trans heq
    cases (execAddr_eventsOf X LHS _ _ _ _ haddr₂).2 hsilent
    refine ⟨a, m₁, es₁, r, m₃, es₃, _, w, haddr, hr, ?_, hloads, hlast, ?_⟩
    · rw [heffects]
      exact (sideEffects_again haddr₂).mpr hsilent
    · intro t ht
      cases htype.symm.trans ht
      exact harith

/-- A tree whose operands are exchanged computes the address once more after the value. -/
theorem targetOnce_exchanged (hapart : NodesApart node LHS RHS)
    (htype : astGetResultType (.arith op) LHS.type RHS.type = some type)
    (hexchanges : exchanges (.arith op) LHS.type RHS.type = true)
    (hloaded : LHS.isLoaded = true) {type' : ExprType} {m m' : M} {v : Word}
    {events : List ExprEvent}
    (hrun : execValue X (.assign node type' LHS (.binop type op RHS LHS)) m
      = some (v, m', events)) :
  TargetOnce X node op LHS RHS m events ↔ AddrRepeats X op LHS RHS m
  := by
  obtain ⟨a, m₁, es₁, r, m₂, es₂, a₂, m₃, es₃, w, haddr, hr, haddr₂, harith, hes⟩ :=
    execValue_exchanged hloaded hrun
  obtain ⟨heffects, hloads, hlast⟩ := filters_of_parts hapart
    (execAddr_eventsOf X LHS _ _ _ _ haddr).1 (execAddr_eventsOf X LHS _ _ _ _ haddr₂).1
    (execValue_eventsOf X RHS _ _ _ _ hr).1 (.inr hes)
  constructor
  · rintro ⟨a', m₁', es₁', value, m₂', es₂', old, new, haddr', hr', heffects', hloads', hlast',
      hnew⟩
    cases haddr.symm.trans haddr'
    cases hr.symm.trans hr'
    cases hloads.symm.trans hloads'
    cases hlast.symm.trans hlast'
    rintro _ _ _ heq
    cases haddr.symm.trans heq
    rw [hexchanges, if_pos rfl]
    rintro _ _ _ heq
    cases hr.symm.trans heq
    refine ⟨m₃, es₃, haddr₂, ?_, ?_⟩
    · apply (sideEffects_again haddr₂).mp
      rw [← heffects, heffects']
    · intro t ht
      cases htype.symm.trans ht
      rw [hnew type htype, harith]
  · intro hrepeats
    have hagain := hrepeats a m₁ es₁ haddr
    rw [hexchanges, if_pos rfl] at hagain
    obtain ⟨_, _, heq, hsilent, hops⟩ := hagain r m₂ es₂ hr
    cases haddr₂.symm.trans heq
    refine ⟨a, m₁, es₁, r, m₂, es₂, _, w, haddr, hr, ?_, hloads, hlast, ?_⟩
    · rw [heffects]
      exact (sideEffects_again haddr₂).mpr hsilent
    · intro t ht
      rw [hops t ht]
      cases htype.symm.trans ht
      exact harith

/-- An address without a side effect is the same when it is computed again. -/
theorem addrRepeats_of_silent (hexchanges : exchanges (.arith op) LHS.type RHS.type = false) {m : M}
    (hsilent : ∀ a m₁ es₁, execAddr X LHS m = some (a, m₁, es₁) →
      ∀ e ∈ es₁, e.isSideEffect = false) :
  AddrRepeats X op LHS RHS m
  := by
  intro a m₁ es₁ haddr
  have hes := hsilent a m₁ es₁ haddr
  have hm := (execAddr_eventsOf X LHS _ _ _ _ haddr).2 hes
  subst hm
  rw [hexchanges, if_neg Bool.false_ne_true]
  exact ⟨m₁, es₁, haddr, hes⟩

/-- A target that is not loaded has no event of its own. -/
theorem execValue_unloaded_eventsOf (hloaded : LHS.isLoaded = false)
    (htarget : ∃ m, (execAddr X LHS m).isSome) :
  (execValue X LHS).EventsOf LHS.addrNodes
  := by
  obtain ⟨m, hsome⟩ := htarget
  rw [execValue_of_execAddr hsome]
  apply (execAddr_eventsOf X LHS).bind
  intro a m v m' es h
  rw [execLoad, if_neg (by rw [hloaded]; exact Bool.false_ne_true)] at h
  cases h
  exact ⟨nofun, fun _ => rfl⟩

/-- No tree loads a target that is not loaded. -/
theorem not_targetOnce_of_unloaded (hapart : NodesApart node LHS RHS)
    (hloaded : LHS.isLoaded = false) {type' : ExprType} {m m' : M} {v : Word}
    {events : List ExprEvent} {value : ExprTree}
    (hvalue : value = .binop type op LHS RHS ∨ value = .binop type op RHS LHS)
    (hrun : execValue X (.assign node type' LHS value) m = some (v, m', events)) :
  ¬ TargetOnce X node op LHS RHS m events
  := by
  rintro ⟨a, m₁, es₁, r, m₂, es₂, old, new, haddr, -, -, hloads, -⟩
  have htarget : ∃ m, (execAddr X LHS m).isSome := ⟨m, by rw [haddr]; rfl⟩
  let nodes := node :: (LHS.addrNodes ++ RHS.nodes)
  have hleft : LHS.addrNodes ⊆ nodes :=
    fun n hn => List.mem_cons_of_mem _ (List.mem_append_left _ hn)
  have hright : RHS.nodes ⊆ nodes :=
    fun n hn => List.mem_cons_of_mem _ (List.mem_append_right _ hn)
  have hLHS := (execValue_unloaded_eventsOf hloaded htarget).mono hleft
  have hRHS := (execValue_eventsOf X RHS).mono hright
  have hop : (execValue X value).EventsOf nodes := by
    rcases hvalue with rfl | rfl
    · exact hLHS.bind fun v => hRHS.bind fun w => execArith_eventsOf X type op _ _ v w _
    · exact hRHS.bind fun v => hLHS.bind fun w => execArith_eventsOf X type op _ _ v w _
  have hassign : (execValue X (.assign node type' LHS value)).EventsOf nodes := by
    apply ((execAddr_eventsOf X LHS).mono hleft).bind
    intro a
    apply hop.bind
    intro v
    apply (execStore_eventsOf X List.mem_cons_self _ a v).bind
    exact fun _ => Exec.EventsOf.pure _ _
  have hmem : ExprEvent.load LHS.node a old ∈ events := by
    apply List.mem_of_mem_filter
    rw [hloads]
    exact List.mem_singleton_self _
  rcases List.mem_cons.mp ((hassign m v m' events hrun).1 _ hmem) with hn | hn
  · exact hapart.assign (hn ▸ List.mem_cons_self)
  · rcases List.mem_append.mp hn with hn | hn
    · exact hapart.target hn
    · exact hapart.value _ List.mem_cons_self hn

/-- **Theorem.** A run of the tree for `target op= e` does to its target what it should exactly if
the target has a value and its address, computed a second time, has no side effect and is the
same. -/
theorem targetOnce_iff {tok : AssignToken} {tree : ExprTree}
    (htok : parseCompoundAssign tok = some op) (htree : parseAssign node tok LHS RHS = some tree)
    (hapart : NodesApart node LHS RHS) {m m' : M} {v : Word} {events : List ExprEvent}
    (hrun : execValue X tree m = some (v, m', events)) :
  TargetOnce X node op LHS RHS m events
    ↔ LHS.isLoaded = true ∧ AddrRepeats X op LHS RHS m
  := by
  obtain ⟨type, type', htype, rfl⟩ := parseAssign_eq_some htok htree
  cases hloaded : LHS.isLoaded with
  | false =>
    apply iff_of_false _ (fun h => Bool.false_ne_true h.1)
    cases hexchanges : exchanges (.arith op) LHS.type RHS.type with
    | false =>
      rw [hexchanges, if_neg Bool.false_ne_true] at hrun
      exact not_targetOnce_of_unloaded hapart hloaded (.inl rfl) hrun
    | true =>
      rw [hexchanges, if_pos rfl] at hrun
      exact not_targetOnce_of_unloaded hapart hloaded (.inr rfl) hrun
  | true =>
    rw [and_iff_right rfl]
    cases hexchanges : exchanges (.arith op) LHS.type RHS.type with
    | false =>
      rw [hexchanges, if_neg Bool.false_ne_true] at hrun
      exact targetOnce_inOrder hapart htype hexchanges hloaded hrun
    | true =>
      rw [hexchanges, if_pos rfl] at hrun
      exact targetOnce_exchanged hapart htype hexchanges hloaded hrun

end Tree

/-! ### `x[2] += 1` and `x[f()] += 1` -/

/-- A machine whose memory counts the calls, and whose calls return their number. -/
def countingMachine : ExprMachine Nat where
  varAddr id := BitVec.ofNat 64 id
  load _ a _ := a
  store m _ _ _ := m
  call m _ _ := some (BitVec.ofNat 64 m, m + 1)
  cast _ _ v := v
  unop _ _ v := v
  incDec _ _ v := v + 1
  arith _ _ _ _ v w := some (v + w)

/-- `x[index]` with `x` a pointer to integers. -/
def indexTree (index : ExprTree) : ExprTree :=
  .deref 1 astIntType (.binop (astMakePointerType (some astIntType)) .add
    (.var 2 (astMakePointerType (some astIntType)) true 1000) index)

/-- The nodes of `x[2] += 1`. -/
theorem nodesApart_literal :
  NodesApart 0 (indexTree (.literal astIntType 2)) (.literal astIntType 1)
  := ⟨by decide, by decide, by decide⟩

/-- `x[2] += 1` does to `x[2]` what it should. -/
theorem targetOnce_literal :
  TargetOnce countingMachine 0 .add (indexTree (.literal astIntType 2)) (.literal astIntType 1) 0
    [.load 2 1000 1000, .load 2 1000 1000, .load 1 1002 1002, .store 0 1002 1003]
  := by
  have hsilent : ∀ a m₁ es₁, execAddr countingMachine (indexTree (.literal astIntType 2)) 0
      = some (a, m₁, es₁) → ∀ e ∈ es₁, e.isSideEffect = false := by
    rintro _ _ _ ⟨⟩ e he
    cases List.mem_singleton.mp he
    rfl
  have htok : parseCompoundAssign .addEqu = some .add := rfl
  exact (targetOnce_iff (X := countingMachine) htok rfl nodesApart_literal
    (m := 0) rfl).mpr ⟨rfl, addrRepeats_of_silent rfl hsilent⟩

/-- Every compound assignment does to its target what it should. -/
def TargetsOnce : Prop :=
  ∀ (X : ExprMachine Nat) (node : Nat) (tok : AssignToken) (op : AstBinOp) (LHS RHS tree : ExprTree)
    (m m' : Nat) (v : Word) (events : List ExprEvent), parseCompoundAssign tok = some op →
    parseAssign node tok LHS RHS = some tree → NodesApart node LHS RHS →
    LHS.isLoaded = true → execValue X tree m = some (v, m', events) →
    TargetOnce X node op LHS RHS m events

/-- `x[f()] += 1` calls `f` twice: it reads one cell and writes another. -/
theorem not_targetsOnce :
  ¬ TargetsOnce
  := by
  intro h
  have hrun : ∃ v, execValue countingMachine
      (.assign 0 astIntType (indexTree (.funcall 3 astIntType 7 []))
        (.binop astIntType .add (indexTree (.funcall 3 astIntType 7 [])) (.literal astIntType 1))) 0
      = some v := ⟨_, rfl⟩
  obtain ⟨⟨v, m', events⟩, hrun⟩ := hrun
  obtain ⟨a, m₁, es₁, value, m₂, es₂, old, new, haddr, hvalue, heffects, -⟩ :=
    h countingMachine 0 .addEqu .add (indexTree (.funcall 3 astIntType 7 []))
      (.literal astIntType 1) _ 0 m' v events rfl rfl ⟨by decide, by decide, by decide⟩ rfl hrun
  cases hrun
  cases haddr
  exact absurd heffects (by decide)

end Polyc
