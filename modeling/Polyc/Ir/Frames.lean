import Mathlib.Logic.Function.Iterate
import Polyc.Ir.SSA

/-!
# The meaning of the intermediate representation over places

A variable has its word in a slot, or in the machine register that it is pinned to.  Slots whose
address is taken are memory: calls, stores and loads through pointers and inline assembly may see
and change them, and inline assembly sees and may change every register.  The destination of
`IR_GEP` is no variable of its own but a field in such a slot.  What is outside has a state, and
answers by it and by the places it sees; homes may be narrower than a word.
-/

namespace Polyc

/-! ### Places -/

/-- Where the word of a variable is. -/
inductive Place where
  | reg (name : String)
  | slot (key : VarKey)
  deriving DecidableEq

/-- The place of a variable; only locals and parameters are pinned. -/
def IrValue.place (v : IrValue) : Place :=
  if v.kind = .tmp then .slot v.key
  else
    match v.pinnedReg with
    | some name => .reg name
    | none => .slot v.key

/-- A variable that is not pinned is in its slot. -/
theorem IrValue.place_of_unpinned {v : IrValue} (h : v.pinnedReg = none) :
  v.place = .slot v.key
  := by
  rw [place, h]
  exact ite_self _

/-- A temporary is in its slot. -/
theorem IrValue.place_of_tmp {v : IrValue} (h : v.kind = .tmp) :
  v.place = .slot v.key
  := if_pos h

/-- A variable that is pinned is in its register. -/
theorem IrValue.place_of_pinned {v : IrValue} {name : String} (hkind : v.kind ≠ .tmp)
    (h : v.pinnedReg = some name) :
  v.place = .reg name
  := by
  rw [place, if_neg hkind, h]

/-- The words in the places of a function. -/
abbrev IrFrame := Place → Word

/-- Which variables are memory. -/
structure Sight where
  /-- The address of the slot is taken. -/
  exposed : VarKey → Bool
  /-- The temporary is a field of another slot. -/
  field : VarKey → Bool

/-- The instruction takes the address of a slot. -/
def IrInstr.takesAddress (I : IrInstr) (k : VarKey) : Bool :=
  (I.op = .lea ∨ I.op = .gep) ∧ I.r1.any fun v => v.kind.isVar ∧ v.key = k

/-- The instruction names a field. -/
def IrInstr.namesField (I : IrInstr) (k : VarKey) : Bool :=
  I.op = .gep ∧ I.dst.any fun v => v.kind = .tmp ∧ v.key = k

/-- The variables of a function that are memory. -/
def IrFunction.sight (fn : IrFunction) : Sight where
  exposed k := fn.instrs.any (·.takesAddress k)
  field k := fn.instrs.any (·.namesField k)

/-- Functions with the same instructions that take an address see the same variables as memory. -/
theorem IrFunction.sight_congr {fn fn' : IrFunction}
    (h : ∀ q : IrInstr → Bool, (∀ I, q I = true → I.op = .lea ∨ I.op = .gep) →
      fn'.instrs.any q = fn.instrs.any q) :
  fn'.sight = fn.sight
  := by
  have hexposed : ∀ k, fn'.instrs.any (·.takesAddress k) = fn.instrs.any (·.takesAddress k) := by
    intro k
    apply h
    exact fun I hI => (of_decide_eq_true hI).1
  have hfield : ∀ k, fn'.instrs.any (·.namesField k) = fn.instrs.any (·.namesField k) := by
    intro k
    apply h
    exact fun I hI => .inr (of_decide_eq_true hI).1
  rw [sight, sight]
  simp only [hexposed, hfield]

/-- The places that an opcode which reaches the outside lets it see. -/
def Sight.sees (sight : Sight) (op : IrOp) : Place → Bool
  | .reg _ => op = .asm
  | .slot k => sight.exposed k

/-- The words that the outside sees. -/
def Sight.visible (sight : Sight) (op : IrOp) (φ : IrFrame) : IrFrame :=
  fun p => if sight.sees op p then φ p else 0

/-- The words after the outside has changed those that it sees. -/
def Sight.overlay (sight : Sight) (op : IrOp) (φ ψ : IrFrame) : IrFrame :=
  fun p => if sight.sees op p then ψ p else φ p

/-! ### Surroundings -/

/-- What is outside a function: a state, the answers to what the function asks, and the changes that
its events make. -/
structure Surroundings (W : Type) where
  /-- The answers, by the state and the places that are seen. -/
  machine : W → IrFrame → Machine
  /-- The state after some events. -/
  next : W → IrFrame → List Event → W
  /-- The places after some events, as far as they are seen. -/
  changes : W → IrFrame → List Event → IrFrame
  /-- What the home of a variable holds of a result. -/
  home : IrValue → Word → Word
  /-- What the home of a variable holds after a store: its destination, its operand, the word of
  the operand and the word before. -/
  stored : IrValue → IrValue → Word → Word → Word
  /-- Homes of eight bytes hold words. -/
  home_word : ∀ v w, v.as.varSize = 8 → home v w = w

/-- The word of a value. -/
def IrValue.wordIn (sight : Sight) (m : Machine) (tr : List Event) (φ : IrFrame) (v : IrValue) :
    Word :=
  if v.kind = .constInt then v.as.toI64
  else if v.kind.isVar ∧ ¬ sight.field v.key then φ v.place
  else m.operand tr v

/-- The operands of an instruction, as far as its opcode reads them. -/
def IrInstr.operandsIn (sight : Sight) (m : Machine) (tr : List Event) (φ : IrFrame)
    (I : IrInstr) : Operands where
  dst := if I.op.readsDst then I.dst.map (·.wordIn sight m tr φ) else none
  r1 := if I.op.readsR1 then I.r1.map (·.wordIn sight m tr φ) else none
  r2 := if I.op.readsR2 then I.r2.map (·.wordIn sight m tr φ) else none
  idx := if I.op.readsIdx then I.idx.map (·.wordIn sight m tr φ) else none
  args := if I.op = .call then I.args.map (·.wordIn sight m tr φ) else []

/-- What an instruction does with its operands: a store to a field goes to memory. -/
def effectIn (sight : Sight) (m : Machine) (tr : List Event) (I : IrInstr) (o : Operands) :
    Option (Option Word × List Event) :=
  if I.op = .store ∧ I.dst.any fun d => sight.field d.key then
    some (none, [.storeGlobal I.dst o.r1])
  else effect m tr I o

/-- The events that reach the outside. -/
def Event.reaches : Event → Bool
  | .branch _ | .ret _ => false
  | _ => true

/-- The words in the places, the events so far and the state of the outside. -/
structure FrameState (W : Type) where
  frame : IrFrame
  trace : List Event
  world : W

section Runs

variable {W : Type} (S : Surroundings W)

/-- What the home of a destination holds after an instruction, by the word that is written and the
one before. -/
def homeAfter (I : IrInstr) (d : IrValue) (w old : Word) : Word :=
  match I.op, I.r1 with
  | .store, some v => S.stored d v w old
  | _, _ => S.home d w

/-- Write a word to the home of a destination, when there are both. -/
def assignIn (I : IrInstr) (w : Option Word) (φ : IrFrame) : IrFrame :=
  match I.dst, w with
  | some d, some w => Function.update φ d.place (homeAfter S I d w (φ d.place))
  | _, _ => φ

/-- The operands of an instruction in a state. -/
def FrameState.operands (s : FrameState W) (sight : Sight) (I : IrInstr) : Operands :=
  I.operandsIn sight (S.machine s.world (sight.visible I.op s.frame)) s.trace s.frame

/-- Execute one instruction, with its events; `none` is a trap. -/
def execIn (sight : Sight) (I : IrInstr) (s : FrameState W) :
    Option (FrameState W × List Event) :=
  let vis := sight.visible I.op s.frame
  (effectIn sight (S.machine s.world vis) s.trace I (s.operands S sight I)).map fun r =>
    let φ := if r.2.any Event.reaches then
        sight.overlay I.op s.frame (S.changes s.world vis r.2)
      else s.frame
    (⟨assignIn S I r.1 φ, s.trace ++ r.2, S.next s.world vis r.2⟩, r.2)

/-- Make copies on an edge at once: the words are read before any is written. -/
def parallelCopyIn (sight : Sight) (s : FrameState W) (copies : List (IrValue × IrValue)) :
    FrameState W :=
  let m := S.machine s.world (sight.visible .phi s.frame)
  let ws := copies.map fun c => (c.1, c.2.wordIn sight m s.trace s.frame)
  { s with frame := ws.foldl (fun φ w => Function.update φ w.1.place (S.home w.1 w.2)) s.frame }

/-- Where a run is. -/
inductive FrameConfig (W : Type) where
  | at (p : Point) (s : FrameState W)
  | returned (s : FrameState W)
  | stuck (s : FrameState W)

/-- One step of a run. -/
def stepIn (fn : IrFunction) : FrameConfig W → FrameConfig W
  | .at p s =>
    match fn.instrAt p with
    | none => .stuck s
    | some I =>
      match execIn S fn.sight I s with
      | none => .stuck s
      | some (s', es) =>
        match I.next p es with
        | none => .returned s'
        | some q => .at q (parallelCopyIn S fn.sight s' (fn.edgeCopies p q I))
  | c => c

/-- A run of `n` steps from the entry of a function. -/
def runIn (fn : IrFunction) (s : FrameState W) (n : Nat) : FrameConfig W :=
  (stepIn S fn)^[n] (.at (fn.entryBlock, 0) s)

end Runs

/-! ### Frames that agree -/

/-- The word of a value depends on its place only. -/
theorem IrValue.wordIn_congr {sight : Sight} {m : Machine} {tr : List Event} {φ φ' : IrFrame}
    {v : IrValue} (h : φ' v.place = φ v.place) :
  v.wordIn sight m tr φ' = v.wordIn sight m tr φ
  := by
  rw [wordIn, wordIn, h]

/-- The words of an operand that may be missing. -/
theorem map_wordIn_congr {sight : Sight} {m : Machine} {tr : List Event} {φ φ' : IrFrame}
    {b : Bool} {v : Option IrValue}
    (h : ∀ x ∈ (if b then v.toList else []), φ' x.place = φ x.place) :
  (if b then v.map (·.wordIn sight m tr φ') else none)
    = if b then v.map (·.wordIn sight m tr φ) else none
  := by
  cases b with
  | false => rfl
  | true =>
    cases v with
    | none => rfl
    | some x => exact congrArg some (IrValue.wordIn_congr (h x (List.mem_singleton_self x)))

/-- The operands of an instruction depend on the places that it reads. -/
theorem IrInstr.operandsIn_congr {sight : Sight} {m : Machine} {tr : List Event}
    {φ φ' : IrFrame} {I : IrInstr} (h : ∀ v ∈ I.inputs, φ' v.place = φ v.place) :
  I.operandsIn sight m tr φ' = I.operandsIn sight m tr φ
  := by
  simp only [inputs, List.forall_mem_append] at h
  obtain ⟨⟨⟨⟨hdst, hr1⟩, hr2⟩, hidx⟩, hargs⟩ := h
  have hmap : (if I.op = .call then I.args.map (·.wordIn sight m tr φ') else [])
      = if I.op = .call then I.args.map (·.wordIn sight m tr φ) else [] := by
    split
    case isTrue hcall =>
      rw [if_pos hcall] at hargs
      apply List.map_congr_left
      exact fun v hv => IrValue.wordIn_congr (hargs v hv)
    case isFalse => rfl
  rw [operandsIn, operandsIn, map_wordIn_congr hdst, map_wordIn_congr hr1, map_wordIn_congr hr2,
    map_wordIn_congr hidx, hmap]

section Agreement

variable {W : Type} {S : Surroundings W} {sight : Sight} {dead : Place → Prop}

/-- What holds of two optional results, weakened. -/
theorem rel_imp {α β : Type} {R R' : α → β → Prop} (h : ∀ a b, R a b → R' a b) {x : Option α}
    {y : Option β} (hxy : Option.Rel R x y) :
  Option.Rel R' x y
  := by
  cases hxy with
  | none => exact .none
  | some hab => exact .some (h _ _ hab)

/-- Two states that differ in some places only. -/
structure SameButFor (dead : Place → Prop) (s s' : FrameState W) : Prop where
  trace : s'.trace = s.trace
  world : s'.world = s.world
  frame : ∀ p, ¬ dead p → s'.frame p = s.frame p

/-- A state is the same as itself. -/
theorem SameButFor.refl (dead : Place → Prop) (s : FrameState W) :
  SameButFor dead s s
  := ⟨rfl, rfl, fun _ _ => rfl⟩

/-- The outside sees the same in both states. -/
theorem SameButFor.visible_eq {s s' : FrameState W} (h : SameButFor dead s s') {op : IrOp}
    (hsees : ∀ p, sight.sees op p → ¬ dead p) :
  sight.visible op s'.frame = sight.visible op s.frame
  := by
  funext p
  rw [Sight.visible, Sight.visible]
  split
  case isTrue hp => exact h.frame p (hsees p hp)
  case isFalse => rfl

/-- What is in a place after a write depends on what was there. -/
theorem assignIn_congr {I : IrInstr} {w : Option Word} {φ φ' : IrFrame} {p : Place}
    (h : φ' p = φ p) :
  assignIn S I w φ' p = assignIn S I w φ p
  := by
  rcases w with _ | w
  · unfold assignIn
    cases I.dst with
    | none => exact h
    | some d => exact h
  · unfold assignIn
    cases I.dst with
    | none => exact h
    | some d =>
      by_cases hp : p = d.place
      · subst hp
        dsimp only
        rw [Function.update_self, Function.update_self, h]
      · dsimp only
        rw [Function.update_of_ne hp, Function.update_of_ne hp, h]

/-- An instruction without events does not reach the outside. -/
theorem execIn_of_silent {I : IrInstr} {s : FrameState W} {w : Option Word}
    (h : effectIn sight (S.machine s.world (sight.visible I.op s.frame)) s.trace I
      (s.operands S sight I) = some (w, [])) :
  execIn S sight I s = some
    (⟨assignIn S I w s.frame, s.trace, S.next s.world (sight.visible I.op s.frame) []⟩, [])
  := by
  rw [execIn]
  dsimp only
  rw [h, Option.map_some, List.append_nil]
  rfl

/-- An instruction that neither reads the places that differ nor shows them to the outside has the
same operands in both states. -/
theorem SameButFor.operands_eq {s s' : FrameState W} (h : SameButFor dead s s') {I : IrInstr}
    (hreads : ∀ v ∈ I.inputs, ¬ dead v.place) (hsees : ∀ p, sight.sees I.op p → ¬ dead p) :
  s'.operands S sight I = s.operands S sight I
  := by
  rw [FrameState.operands, FrameState.operands, h.visible_eq hsees, h.trace, h.world]
  exact IrInstr.operandsIn_congr fun v hv => h.frame _ (hreads v hv)

/-- An instruction that neither reads the places that differ nor shows them to the outside does the
same in both states. -/
theorem SameButFor.execIn {s s' : FrameState W} (h : SameButFor dead s s') {I : IrInstr}
    (hreads : ∀ v ∈ I.inputs, ¬ dead v.place) (hsees : ∀ p, sight.sees I.op p → ¬ dead p) :
  Option.Rel (fun r r' => r'.2 = r.2 ∧ SameButFor dead r.1 r'.1)
    (execIn S sight I s) (execIn S sight I s')
  := by
  rw [Polyc.execIn, Polyc.execIn]
  simp only [h.visible_eq hsees, h.operands_eq hreads hsees, h.trace, h.world]
  cases effectIn sight _ s.trace I _ with
  | none => exact .none
  | some r =>
    apply Option.Rel.some
    refine ⟨rfl, rfl, rfl, ?_⟩
    intro p hp
    apply assignIn_congr
    split
    · rw [Sight.overlay, Sight.overlay, h.frame p hp]
    · exact h.frame p hp

/-- Copies of values that are in places with the same words. -/
theorem SameButFor.parallelCopyIn {s s' : FrameState W} (h : SameButFor dead s s')
    (hsees : ∀ p, sight.sees .phi p → ¬ dead p) {copies : List (IrValue × IrValue)}
    (hreads : ∀ c ∈ copies, ¬ dead c.2.place) :
  SameButFor dead (parallelCopyIn S sight s copies) (parallelCopyIn S sight s' copies)
  := by
  have hwords : copies.map (fun c => (c.1, c.2.wordIn sight
        (S.machine s'.world (sight.visible .phi s'.frame)) s'.trace s'.frame))
      = copies.map fun c => (c.1, c.2.wordIn sight
        (S.machine s.world (sight.visible .phi s.frame)) s.trace s.frame) := by
    apply List.map_congr_left
    intro c hc
    rw [h.visible_eq hsees, h.trace, h.world,
      IrValue.wordIn_congr (h.frame _ (hreads c hc))]
  have hwrites : ∀ (ws : List (IrValue × Word)) (φ φ' : IrFrame), (∀ p, ¬ dead p → φ' p = φ p) →
      ∀ p, ¬ dead p →
        ws.foldl (fun φ w => Function.update φ w.1.place (S.home w.1 w.2)) φ' p
          = ws.foldl (fun φ w => Function.update φ w.1.place (S.home w.1 w.2)) φ p := by
    intro ws
    induction ws with
    | nil => exact fun φ φ' hφ => hφ
    | cons w ws ih =>
      intro φ φ' hφ
      apply ih
      intro p hp
      by_cases hplace : p = w.1.place
      · dsimp only
        rw [hplace, Function.update_self, Function.update_self]
      · dsimp only
        rw [Function.update_of_ne hplace, Function.update_of_ne hplace, hφ p hp]
  constructor
  case trace => exact h.trace
  case world => exact h.world
  case frame =>
    rw [Polyc.parallelCopyIn, Polyc.parallelCopyIn, hwords]
    exact hwrites _ _ _ h.frame

end Agreement

end Polyc
