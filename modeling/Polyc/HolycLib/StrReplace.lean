import Polyc.HolycLib.OutStr
import Polyc.HolycLib.WildMatch

/-!
# Replacing in a string

`str_replace` of `fzf.HC`, with `StrNCpy` and `StrCpy` of `strings.HC`.  A string is the list of its
characters before the 0, and a pointer into it what it has from there on; what is written goes to the
blocks of `MAlloc`, with a note of every place.

`ReplacedAll rep new s out` says that `out` is `s` with the occurrences of `rep` replaced by `new`, from the
left and without overlaps.  `str_replace` gives that in the block it returns, and writes nowhere else,
exactly when there is nothing to replace: each replacement is written to a block of `StrNCpy`.
-/

namespace Polyc

open Bytes (Byte)

/-! ### Noted stores -/

/-- A heap, and the places that were written, the last first. -/
structure StrWrites where
  heap : StrHeap
  written : List StrPtr

namespace StrWrites

/-- `*dst = ch`. -/
def store (s : StrWrites) (dst : StrPtr) (ch : Byte) : Option StrWrites :=
  (s.heap.store dst ch).map fun heap => { heap, written := dst :: s.written }

/-- Some characters, one behind the other. -/
def stores (s : StrWrites) (dst : StrPtr) : List Byte → Option StrWrites
  | [] => some s
  | ch :: chs => do
    let s ← s.store dst ch
    s.stores { dst with off := dst.off + 1 } chs

/-- `MemCpy` of the first characters of a string. -/
def memCpy (s : StrWrites) (dst : StrPtr) (src : List StrChar) (len : Nat) : Option StrWrites :=
  if len ≤ src.length then s.stores dst ((src.take len).map Subtype.val) else none

/-- `StrCpy`. -/
def strCpy (s : StrWrites) (dst : StrPtr) (src : List StrChar) : Option StrWrites :=
  s.stores dst (src.map Subtype.val ++ [0])

end StrWrites

section

-- what is in memory that was allocated
variable (fresh : Nat → Nat → Byte)

/-- `MAlloc`. -/
def StrWrites.mAlloc (s : StrWrites) (n : Nat) : StrWrites × StrPtr :=
  let (heap, block) := s.heap.mAlloc fresh n
  ({ s with heap }, ⟨block, 0⟩)

/-- `StrNCpy`. -/
def StrWrites.strNCpy (s : StrWrites) (buf : List StrChar) (len : Nat) : Option (StrWrites × StrPtr) :=
  let (s, str) := s.mAlloc fresh (len + 1)
  if len = 0 then some (s, str)
  else do
    let s ← s.memCpy str buf len
    let s ← s.store { str with off := str.off + len } 0
    return (s, str)

/-! ### The replacement -/

/-- `strstr`: a string from the first occurrence of another one on, or `NULL`. -/
def strstr (rep : List StrChar) : List StrChar → Option (List StrChar)
  | [] => if rep <+: [] then some [] else none
  | c :: big => if rep <+: c :: big then some (c :: big) else strstr rep big

/-- A turn of the loop that counts the occurrences, on `ins` and `count`. -/
def countStep (rep : List StrChar) : List StrChar × Nat → List StrChar × Nat ⊕ Nat
  | (ins, count) =>
    match strstr rep ins with
    | some tmp => .inl (tmp.drop rep.length, count + 1)
    | none => .inr count

/-- The variables of the loop that replaces. -/
structure ReplaceState where
  writes : StrWrites
  tmp : StrPtr
  orig : List StrChar
  lenOrig : Int

/-- A turn of the loop that replaces. -/
def replaceTurn (rep with_ : List StrChar) (s : ReplaceState) : Option ReplaceState := do
  let ins ← strstr rep s.orig
  let lenFront := s.orig.length - ins.length
  let (writes, str) ← s.writes.strNCpy fresh s.orig lenFront
  let tmp := { str with off := str.off + lenFront }
  let writes ← writes.strCpy tmp with_
  return { writes
           tmp := { tmp with off := tmp.off + with_.length }
           orig := s.orig.drop (lenFront + rep.length)
           lenOrig := s.lenOrig - (lenFront + rep.length) }

/-- The loop that replaces, with its turns. -/
def replaceTurns (rep with_ : List StrChar) : Nat → ReplaceState → Option ReplaceState
  | 0, s => some s
  | count + 1, s => do
    let s ← replaceTurn fresh rep with_ s
    replaceTurns rep with_ count s

/-- `str_replace`, with fuel for the turns of the loop that counts; a string may be `NULL`, and `MAlloc`
does not fail. -/
def strReplace (fuel : Nat) (h : StrHeap) :
    Option (List StrChar) → Option (List StrChar) → Option (List StrChar) →
      Option (StrWrites × Option StrPtr)
  | some orig, some rep, some with_ =>
    if rep.length = 0 then some (⟨h, []⟩, none)
    else do
      let count ← Loop.run (countStep rep) fuel (orig, 0)
      let size : Int := orig.length + ((with_.length : Int) - rep.length) * count + 1
      let (writes, result) := StrWrites.mAlloc fresh ⟨h, []⟩ size.toNat
      let s ← replaceTurns fresh rep with_ count ⟨writes, result, orig, orig.length⟩
      let writes ← s.writes.memCpy s.tmp s.orig s.lenOrig.toNat
      let writes ← writes.store { s.tmp with off := s.tmp.off + s.lenOrig.toNat } 0
      return (writes, some result)
  | _, _, _ => some (⟨h, []⟩, none)

end

/-! ### Replaced occurrences -/

section ReplacedAll

variable {α : Type}

/-- A list with the occurrences of `rep` replaced by `new`, from the left. -/
inductive ReplacedAll (rep new : List α) : List α → List α → Prop
  | none {s : List α} (h : ¬rep <:+: s) : ReplacedAll rep new s s
  | first {front rest out : List α}
    (h : ∀ front' rest', front ++ (rep ++ rest) = front' ++ (rep ++ rest') → front.length ≤ front'.length)
    (hrest : ReplacedAll rep new rest out) : ReplacedAll rep new (front ++ (rep ++ rest)) (front ++ (new ++ out))

variable {rep new s out out' : List α}

end ReplacedAll

/-- `str_replace` returns the string with every occurrence replaced, in the block that it allocates first,
and writes only there. -/
def StrReplaces (fresh : Nat → Nat → Byte) (h : StrHeap) (orig rep with_ : List StrChar) : Prop :=
  ∃ fuel s out rest,
    strReplace fresh fuel h (some orig) (some rep) (some with_) = some (s, some ⟨h.next, 0⟩)
    ∧ ReplacedAll rep with_ orig out
    ∧ s.heap.blocks h.next = some (out.map Subtype.val ++ 0 :: rest)
    ∧ ∀ p ∈ s.written, p.block = h.next

/-! ### Stores -/

section

variable {s s' : StrWrites} {dst p : StrPtr} {chs : List Byte}

/-- The notes that a piece of code adds, and the blocks that it allocates. -/
structure StrWrites.Grows (s s' : StrWrites) : Prop where
  written : ∀ p ∈ s.written, p ∈ s'.written
  next : s.heap.next ≤ s'.heap.next

theorem StrWrites.Grows.trans {s'' : StrWrites} (h : s.Grows s') (h' : s'.Grows s'') :
  s.Grows s''
  where
  written p hp := h'.written p (h.written p hp)
  next := h.next.trans h'.next

/-- A store is noted. -/
theorem StrWrites.store_grows {ch : Byte} (h : s.store dst ch = some s') :
  s.Grows s' ∧ dst ∈ s'.written
  := by
  rw [store, Option.map_eq_some_iff] at h
  obtain ⟨heap, hheap, rfl⟩ := h
  constructor
  · constructor
    · intro p hp
      apply List.mem_cons_of_mem _ hp
    · rw [StrHeap.store] at hheap
      split at hheap
      · cases hheap
      · split at hheap
        · cases hheap
          apply le_refl
        · cases hheap
  · apply List.mem_cons_self

/-- The stores of characters are noted. -/
theorem StrWrites.stores_grows (h : s.stores dst chs = some s') :
  s.Grows s' ∧ (chs ≠ [] → dst ∈ s'.written)
  := by
  induction chs generalizing s dst with
  | nil =>
    cases h
    use ⟨fun _ hp => hp, le_refl _⟩
    intro hne
    cases hne rfl
  | cons ch chs ih =>
    obtain ⟨s₁, hs₁, hrest⟩ := Option.bind_eq_some_iff.mp h
    obtain ⟨hgrows, hmem⟩ := store_grows hs₁
    have hgrows' := (ih hrest).1
    use hgrows.trans hgrows'
    intro _
    apply hgrows'.written _ hmem

theorem StrWrites.memCpy_grows {src : List StrChar} {len : Nat} (h : s.memCpy dst src len = some s') :
  s.Grows s'
  := by
  rw [memCpy] at h
  split at h
  · apply (stores_grows h).1
  · cases h

/-- `StrCpy` writes a 0 at least. -/
theorem StrWrites.strCpy_grows {src : List StrChar} (h : s.strCpy dst src = some s') :
  s.Grows s' ∧ dst ∈ s'.written
  := by
  rw [strCpy] at h
  use (stores_grows h).1
  apply (stores_grows h).2
  simp

variable {fresh : Nat → Nat → Byte}

/-- The block that is allocated is a new one. -/
theorem StrWrites.mAlloc_grows (n : Nat) :
  s.Grows (s.mAlloc fresh n).1
  := ⟨fun _ hp => hp, Nat.le_succ _⟩

/-- `StrNCpy` gives a block of its own. -/
theorem StrWrites.strNCpy_grows {buf : List StrChar} {len : Nat} {str : StrPtr}
    (h : s.strNCpy fresh buf len = some (s', str)) :
  s.Grows s' ∧ str = ⟨s.heap.next, 0⟩
  := by
  have hnew : s.Grows (s.mAlloc fresh (len + 1)).1 := s.mAlloc_grows (len + 1)
  rcases eq_or_ne len 0 with hlen | hlen
  · simp only [strNCpy, if_pos hlen] at h
    cases h
    use hnew
    rfl
  · simp only [strNCpy, if_neg hlen] at h
    obtain ⟨s₁, hs₁, h⟩ := Option.bind_eq_some_iff.mp h
    obtain ⟨s₂, hs₂, h⟩ := Option.bind_eq_some_iff.mp h
    cases h
    use (hnew.trans (memCpy_grows hs₁)).trans (store_grows hs₂).1
    rfl

/-- The bytes of a block that are stored over others of the same number. -/
theorem StrWrites.stores_eq {text old rest : List Byte} {buf : Nat} (hlen : old.length = chs.length)
    (hbuf : s.heap.blocks buf = some (text ++ (old ++ rest))) :
  ∃ s', s.stores ⟨buf, text.length⟩ chs = some s'
    ∧ s'.heap.blocks buf = some (text ++ (chs ++ rest))
    ∧ ∀ p ∈ s'.written, p.block = buf ∨ p ∈ s.written
  := by
  induction chs generalizing s text old with
  | nil =>
    obtain rfl := List.length_eq_zero_iff.mp hlen
    use s, rfl, hbuf
    intro p hp
    right
    apply hp
  | cons ch chs ih =>
    obtain ⟨o, old, rfl⟩ := List.exists_cons_of_length_eq_add_one hlen
    have hstore : s.store ⟨buf, text.length⟩ ch = some
        { heap := { s.heap with
            blocks := Function.update s.heap.blocks buf (some (text ++ ch :: (old ++ rest))) }
          written := ⟨buf, text.length⟩ :: s.written } := by
      simp [store, StrHeap.store, hbuf]
    have hrest : Function.update s.heap.blocks buf (some (text ++ ch :: (old ++ rest))) buf
        = some (text ++ [ch] ++ (old ++ rest)) := by
      simp
    obtain ⟨s', hs', hblock, hmem⟩ := ih
      (s := { heap := { s.heap with
                blocks := Function.update s.heap.blocks buf (some (text ++ ch :: (old ++ rest))) }
              written := ⟨buf, text.length⟩ :: s.written })
      (Nat.succ.inj hlen) hrest
    use s'
    constructor
    · rw [stores, hstore]
      rw [List.length_append] at hs'
      apply hs'
    · constructor
      · rw [hblock, List.append_assoc]
        rfl
      · intro p hp
        rcases hmem p hp with hp | hp
        · left
          apply hp
        · rcases List.mem_cons.mp hp with rfl | hp
          · left
            rfl
          · right
            apply hp

end

/-! ### Occurrences -/

section

variable {rep with_ s : List StrChar} {fresh : Nat → Nat → Byte}

/-- `strstr` finds an occurrence exactly when there is one. -/
theorem strstr_eq_none_iff :
  strstr rep s = none ↔ ¬rep <:+: s
  := by
  induction s with
  | nil =>
    rw [strstr, List.infix_nil]
    split
    case isTrue h => simp [List.prefix_nil.mp h]
    case isFalse h => simpa using h
  | cons c s ih =>
    rw [strstr, List.infix_cons_iff]
    split
    case isTrue h => simp [h]
    case isFalse h => simp [h, ih]

/-- The count does not go down. -/
theorem le_of_countLoop {fuel count r : Nat} {ins : List StrChar}
    (h : Loop.run (countStep rep) fuel (ins, count) = some r) :
  count ≤ r
  := by
  induction fuel generalizing ins count with
  | zero => cases h
  | succ fuel ih =>
    rw [Loop.run, countStep] at h
    cases hs : strstr rep ins with
    | none =>
      rw [hs] at h
      cases h
      apply le_refl
    | some tmp =>
      rw [hs] at h
      apply (Nat.le_succ _).trans (ih h)

/-- An occurrence is counted. -/
theorem pos_of_countLoop {fuel r : Nat} (hocc : rep <:+: s)
    (h : Loop.run (countStep rep) fuel (s, 0) = some r) :
  0 < r
  := by
  cases fuel with
  | zero => cases h
  | succ fuel =>
    cases hs : strstr rep s with
    | none => cases strstr_eq_none_iff.mp hs hocc
    | some tmp =>
      rw [Loop.run, countStep, hs] at h
      apply le_of_countLoop h

/-- A turn of the loop that replaces writes to a block that it allocates. -/
theorem replaceTurn_grows {t t' : ReplaceState} (h : replaceTurn fresh rep with_ t = some t') :
  t.writes.Grows t'.writes ∧ ∃ p ∈ t'.writes.written, p.block = t.writes.heap.next
  := by
  obtain ⟨ins, -, h⟩ := Option.bind_eq_some_iff.mp h
  obtain ⟨⟨s₁, str⟩, hs₁, h⟩ := Option.bind_eq_some_iff.mp h
  obtain ⟨s₂, hs₂, h⟩ := Option.bind_eq_some_iff.mp h
  cases h
  obtain ⟨hgrows₁, rfl⟩ := StrWrites.strNCpy_grows hs₁
  obtain ⟨hgrows₂, hmem⟩ := StrWrites.strCpy_grows hs₂
  exact ⟨hgrows₁.trans hgrows₂, _, hmem, rfl⟩

/-- The turns keep what is noted. -/
theorem replaceTurns_grows {count : Nat} {t t' : ReplaceState}
    (h : replaceTurns fresh rep with_ count t = some t') :
  t.writes.Grows t'.writes
  := by
  induction count generalizing t with
  | zero =>
    cases h
    exact ⟨fun _ hp => hp, le_refl _⟩
  | succ count ih =>
    obtain ⟨t₁, ht₁, h⟩ := Option.bind_eq_some_iff.mp h
    apply (replaceTurn_grows ht₁).1.trans (ih h)

/-! ### The result -/

/-- Where there is nothing to replace the string is copied to the block that is returned. -/
theorem strReplaces_of_notInfix (h : StrHeap) (hrep : rep ≠ []) (hocc : ¬rep <:+: s) :
  StrReplaces fresh h s rep with_
  := by
  have hcount : Loop.run (countStep rep) 1 (s, 0) = some 0 := by
    rw [Loop.run, countStep, strstr_eq_none_iff.mpr hocc]
  have hrep' : rep.length ≠ 0 := by
    rw [Ne, List.length_eq_zero_iff]
    apply hrep
  have hsize : ((s.length : Int) + ((with_.length : Int) - rep.length) * ((0 : Nat) : Int) + 1).toNat
      = s.length + 1 := by
    rw [Nat.cast_zero, Int.mul_zero]
    omega
  let w := (StrWrites.mAlloc fresh ⟨h, []⟩ (s.length + 1)).1
  obtain ⟨old, last, hblock⟩ : ∃ old last, w.heap.blocks h.next = some ([] ++ (old ++ [last]))
      ∧ old.length = (s.map Subtype.val).length := by
    use (List.range s.length).map (fresh h.next), fresh h.next s.length
    constructor
    · simp [w, StrWrites.mAlloc, StrHeap.mAlloc, List.range_succ]
    · simp
  obtain ⟨s₁, hs₁, hblock₁, hmem₁⟩ := w.stores_eq hblock.2 hblock.1
  have hlast : s₁.heap.blocks h.next = some ((s.map Subtype.val) ++ ([last] ++ [])) := hblock₁
  have hone : [last].length = [(0 : Byte)].length := rfl
  obtain ⟨s₂, hs₂, hblock₂, hmem₂⟩ := s₁.stores_eq hone hlast
  use 1, s₂, s, []
  constructor
  · have hcpy : w.memCpy ⟨h.next, 0⟩ s s.length = some s₁ := by
      rw [StrWrites.memCpy, if_pos (le_refl _), List.take_length]
      apply hs₁
    have hend : s₁.store ⟨h.next, s.length⟩ 0 = some s₂ := by
      rw [List.length_map, StrWrites.stores, Option.bind_eq_bind] at hs₂
      cases hstore : s₁.store ⟨h.next, s.length⟩ 0 with
      | none =>
        rw [hstore] at hs₂
        cases hs₂
      | some s₃ =>
        rw [hstore] at hs₂
        apply hs₂
    rw [strReplace, if_neg hrep', hcount, Option.bind_eq_bind, Option.bind_some]
    simp only [hsize]
    show (w.memCpy ⟨h.next, 0⟩ s s.length).bind _ = _
    rw [hcpy, Option.bind_some]
    show (s₁.store ⟨h.next, 0 + s.length⟩ 0).bind _ = _
    rw [Nat.zero_add, hend]
    rfl
  · constructor
    · apply ReplacedAll.none hocc
    · use hblock₂
      intro p hp
      rcases hmem₂ p hp with hp | hp
      · apply hp
      · rcases hmem₁ p hp with hp | hp
        · apply hp
        · cases hp

/-- `str_replace` does what it is for exactly when there is nothing to replace. -/
theorem strReplaces_iff (fresh : Nat → Nat → Byte) (h : StrHeap) (orig rep with_ : List StrChar)
    (hrep : rep ≠ []) :
  StrReplaces fresh h orig rep with_ ↔ ¬rep <:+: orig
  := by
  constructor
  · rintro ⟨fuel, s, out, rest, hrun, -, -, hwritten⟩ hocc
    have hrep' : rep.length ≠ 0 := by
      rw [Ne, List.length_eq_zero_iff]
      apply hrep
    rw [strReplace, if_neg hrep'] at hrun
    obtain ⟨count, hcount, hrun⟩ := Option.bind_eq_some_iff.mp hrun
    obtain ⟨t, hturns, hrun⟩ := Option.bind_eq_some_iff.mp hrun
    obtain ⟨s₁, hs₁, hrun⟩ := Option.bind_eq_some_iff.mp hrun
    obtain ⟨s₂, hs₂, hrun⟩ := Option.bind_eq_some_iff.mp hrun
    cases hrun
    -- the first turn writes to a block behind the one that is returned
    obtain ⟨count, rfl⟩ := Nat.exists_eq_add_of_lt (pos_of_countLoop hocc hcount)
    rw [Nat.zero_add, replaceTurns] at hturns
    obtain ⟨t₁, ht₁, hturns⟩ := Option.bind_eq_some_iff.mp hturns
    obtain ⟨-, p, hp, hblock⟩ := replaceTurn_grows ht₁
    have hmem := (StrWrites.store_grows hs₂).1.written p ((StrWrites.memCpy_grows hs₁).written p
      ((replaceTurns_grows hturns).written p hp))
    have hlt : p.block = h.next + 1 := hblock
    rw [hwritten p hmem] at hlt
    omega
  · apply strReplaces_of_notInfix h hrep

/-- `ba` is to be replaced by `c` in `ab`. -/
theorem strReplaces_iff_apart :
  StrReplaces (fun _ _ => 0xFF) emptyStrHeap [⟨0x61, by decide⟩, ⟨0x62, by decide⟩]
      [⟨0x62, by decide⟩, ⟨0x61, by decide⟩] [⟨0x63, by decide⟩]
    ↔ ¬[(⟨0x62, by decide⟩ : StrChar), ⟨0x61, by decide⟩]
      <:+: [⟨0x61, by decide⟩, ⟨0x62, by decide⟩]
  := strReplaces_iff _ _ _ _ _ (by simp)

/-- `a` is not replaced by `b` in `a`: the 0 behind the `b` is written outside of the block of `StrNCpy`. -/
theorem not_strReplaces :
  ¬StrReplaces (fun _ _ => 0xFF) emptyStrHeap [⟨0x61, by decide⟩] [⟨0x61, by decide⟩] [⟨0x62, by decide⟩]
  := by
  rintro ⟨fuel, s, out, rest, hrun, -⟩
  match fuel with
  | 0 => cases hrun
  | 1 => cases hrun
  | fuel + 2 => cases hrun

end

end Polyc
