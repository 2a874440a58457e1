import Mathlib.Logic.Function.Basic
import Mathlib.Tactic.Use
import Polyc.HolycLib.Integers
import Polyc.Lib.Bytes

/-!
# Building strings

`SPutChar` and `OutStr` of `strings.HC` on buffers from `MAlloc`.  A heap has the bytes of the blocks
that are allocated, each under a number of its own, and `MSize` is their number; an access outside of a
block that is allocated has no result, nor has the difference of pointers into two blocks.
-/

namespace Polyc

open Bytes (Byte)

/-! ### Blocks -/

/-- A pointer: a block and the offset in it. -/
structure StrPtr where
  block : Nat
  off : Nat
  deriving DecidableEq

/-- The blocks of `MAlloc`, and the number of the next one. -/
structure StrHeap where
  blocks : Nat → Option (List Byte)
  next : Nat

namespace StrHeap

/-- `MSize`. -/
def mSize (h : StrHeap) (buf : Nat) : Option Nat := (h.blocks buf).map List.length

/-- `*dst = ch`. -/
def store (h : StrHeap) (dst : StrPtr) (ch : Byte) : Option StrHeap :=
  match h.blocks dst.block with
  | none => none
  | some bytes =>
    if dst.off < bytes.length then
      some { h with blocks := Function.update h.blocks dst.block (some (bytes.set dst.off ch)) }
    else none

/-- `Free`. -/
def free (h : StrHeap) (buf : Nat) : Option StrHeap :=
  if (h.blocks buf).isSome then some { h with blocks := Function.update h.blocks buf none } else none

/-- `MemCpy` from the beginning of a block to that of another. -/
def memCpy (h : StrHeap) (dst src n : Nat) : Option StrHeap :=
  match h.blocks dst, h.blocks src with
  | some old, some bytes =>
    if n ≤ old.length ∧ n ≤ bytes.length then
      some { h with blocks := Function.update h.blocks dst (some (bytes.take n ++ old.drop n)) }
    else none
  | _, _ => none

end StrHeap

section

-- what is in memory that was allocated
variable (fresh : Nat → Nat → Byte)

/-- `MAlloc`. -/
def StrHeap.mAlloc (h : StrHeap) (n : Nat) : StrHeap × Nat :=
  ({ blocks := Function.update h.blocks h.next (some ((List.range n).map (fresh h.next)))
     next := h.next + 1 }, h.next)

/-- `ReAlloc`. -/
def StrHeap.reAlloc (h : StrHeap) (buf n : Nat) : Option (StrHeap × Nat) := do
  let (h, new) := h.mAlloc fresh n
  let size ← h.mSize buf
  let h ← h.memCpy new buf size
  let h ← h.free buf
  return (h, new)

/-! ### Putting characters -/

/-- The end of `SPutChar`: the character, and a 0 behind it. -/
def StrHeap.put (h : StrHeap) (dst : StrPtr) (ch : Byte) : Option (StrHeap × StrPtr) := do
  let h ← h.store dst ch
  let dst := { dst with off := dst.off + 1 }
  let h ← h.store dst 0
  return (h, dst)

/-- `SPutChar` with a buffer that may grow: the precedence of the language makes `i<<1+1` four times
`i`. -/
def sPutChar (h : StrHeap) (dst : StrPtr) (ch : Byte) (buf : Nat) :
    Option (StrHeap × StrPtr × Nat) := do
  if dst.block ≠ buf then none
  else
    let i := dst.off
    let size ← h.mSize buf
    if i ≥ size then
      let (h, new) := h.mAlloc fresh (i <<< (1 + 1))
      let h ← h.memCpy new buf i
      let h ← h.free buf
      let (h, dst) ← h.put ⟨new, i⟩ ch
      return (h, dst, new)
    else
      let (h, dst) ← h.put dst ch
      return (h, dst, buf)

/-- A loop of `SPutChar`. -/
def sPutChars (h : StrHeap) (dst : StrPtr) : List Byte → Nat → Option (StrHeap × StrPtr × Nat)
  | [], buf => some (h, dst, buf)
  | ch :: chs, buf => do
    let (h, dst, buf) ← sPutChar fresh h dst ch buf
    sPutChars h dst chs buf

/-! ### Putting strings -/

/-- `PRTF_LEFT_JUSTIFY`. -/
def prtfLeftJustify : BitVec 64 := 0x002

/-- `PRTF_TRUNCATE`. -/
def prtfTruncate : BitVec 64 := 0x004

/-- `CH_SPACE`. -/
def chSpace : Byte := 0x20

/-- How many characters of a string `OutStr` puts. -/
def outStrCount (instr : Option (List Byte)) (len : Int) (flags : BitVec 64) : Int :=
  let i : Int := (instr.getD []).length
  if flags &&& prtfTruncate ≠ 0 ∧ i > len then len else i

/-- The size of the buffer behind the check of `OutStr`. -/
def outStrSize (size dstLen : Nat) (instr : Option (List Byte)) : Nat :=
  let i := (instr.getD []).length
  if (i : Int) ≥ (size : Int) - dstLen then size * 10 + i else size

/-- `OutStr`: a string is its characters before the 0, or `NULL`. -/
def outStr (h : StrHeap) (instr : Option (List Byte)) (buf : Nat) (dst : StrPtr) (len : Int)
    (flags : BitVec 64) : Option (StrHeap × StrPtr × Nat) := do
  let text := instr.getD []
  if dst.block ≠ buf then none
  else
    let size ← h.mSize buf
    let (h, dst, buf) ←
      if (text.length : Int) ≥ (size : Int) - dst.off then do
        let (h, buf) ← h.reAlloc fresh buf (size * 10 + text.length)
        pure (h, { block := buf, off := dst.off }, buf)
      else pure (h, dst, buf)
    let i := outStrCount instr len flags
    let spaces := List.replicate (toI64 (len - i)).toNat chSpace
    if flags &&& prtfLeftJustify ≠ 0 then
      let (h, dst, buf) ← sPutChars fresh h dst (text.take i.toNat) buf
      sPutChars fresh h dst spaces buf
    else
      -- the spaces are put with a cursor of their own
      let (h, _, buf) ← sPutChars fresh h dst spaces buf
      sPutChars fresh h dst (text.take (len - toI64 (len - i)).toNat) buf

/-! ### Runs -/

/-- A call of `SPutChar` or of `OutStr`. -/
inductive StrCall where
  | sPutChar (ch : Byte)
  | outStr (instr : Option (List Byte)) (len : Int) (flags : BitVec 64)

/-- A buffer that is built: the heap, the cursor and the buffer. -/
structure StrState where
  heap : StrHeap
  dst : StrPtr
  buf : Nat

/-- A call. -/
def strStep (s : StrState) : StrCall → Option StrState
  | .sPutChar ch => (sPutChar fresh s.heap s.dst ch s.buf).map fun r => ⟨r.1, r.2.1, r.2.2⟩
  | .outStr instr len flags =>
    (outStr fresh s.heap instr s.buf s.dst len flags).map fun r => ⟨r.1, r.2.1, r.2.2⟩

/-- A sequence of calls. -/
def strRun (s : StrState) : List StrCall → Option StrState
  | [] => some s
  | c :: cs => do
    let s ← strStep fresh s c
    strRun s cs

/-- A buffer of `size` bytes from `MAlloc`, with the cursor at its beginning. -/
def strInit (h : StrHeap) (size : Nat) : StrState :=
  let (h, buf) := h.mAlloc fresh size
  { heap := h, dst := ⟨buf, 0⟩, buf }

end

/-!
## When strings are built right

A character is put right unless it goes into the last byte of the buffer, since the 0 behind it is then
outside.  A string is put right when it needs no spaces, or has them behind it and there is room for them.
Runs of calls that are each put right build the texts one after the other.
-/

open Bytes (Byte)

/-! ### What is asked for -/

/-- The text of a call: a string is truncated to the width when that is asked for, and has spaces on the
side asked for up to the width. -/
def StrCall.text : StrCall → List Byte
  | .sPutChar ch => [ch]
  | .outStr instr len flags =>
    let t := instr.getD []
    let t := if flags &&& prtfTruncate ≠ 0 then t.take len.toNat else t
    let spaces := List.replicate (len - t.length).toNat chSpace
    if flags &&& prtfLeftJustify ≠ 0 then t ++ spaces else spaces ++ t

/-- The texts of some calls. -/
def textOf (calls : List StrCall) : List Byte := calls.flatMap StrCall.text

/-- The buffer has the text and a 0 behind it. -/
def StrState.Built (s : StrState) (text : List Byte) : Prop :=
  ∃ bytes, s.heap.blocks s.buf = some bytes ∧ bytes.take text.length = text
    ∧ bytes[text.length]? = some 0

/-- A call is put right: a character has a byte behind it for the 0; a string needs no spaces, or has them
behind it with room for them and the 0, there is a 0 already if it puts nothing, and the number of spaces
does not overflow. -/
def StrCall.Fits (size off : Nat) : StrCall → Prop
  | .sPutChar _ => off + 1 < size
  | .outStr instr len flags =>
    let i := outStrCount instr len flags
    toI64 (len - i) = len - i ∧ (0 < off ∨ 0 < i ∨ 0 < len)
      ∧ (len ≤ i ∨ flags &&& prtfLeftJustify ≠ 0 ∧ off + len < outStrSize size off instr)

/-- Every call of a run is put right. -/
def RunFits (fresh : Nat → Nat → Byte) (s : StrState) : List StrCall → Prop
  | [] => True
  | c :: cs => (∃ size, s.heap.mSize s.buf = some size ∧ c.Fits size s.dst.off)
    ∧ ∀ s', strStep fresh s c = some s' → RunFits fresh s' cs

variable {fresh : Nat → Nat → Byte} {h : StrHeap} {buf : Nat} {text : List Byte}

/-! ### Characters -/

/-- The buffer has the text and some more bytes, of which the first is 0 when there is a text. -/
structure BufHolds (h : StrHeap) (buf : Nat) (text rest : List Byte) : Prop where
  bytes : h.blocks buf = some (text ++ rest)
  old : buf < h.next
  more : rest ≠ []
  ends : text ≠ [] → rest.head? = some 0

/-- A character is put. -/
theorem StrHeap.put_eq (ch : Byte) {r r' : Byte} {rest : List Byte}
    (hbuf : h.blocks buf = some (text ++ r :: r' :: rest)) :
  ∃ h', h.put ⟨buf, text.length⟩ ch = some (h', ⟨buf, text.length + 1⟩) ∧ h'.next = h.next
    ∧ h'.blocks buf = some (text ++ [ch] ++ 0 :: rest)
  := by
  have hstore : h.store ⟨buf, text.length⟩ ch = some
      { h with blocks := Function.update h.blocks buf (some (text ++ ch :: r' :: rest)) } := by
    simp [StrHeap.store, hbuf]
  have hstore' : StrHeap.store
      { h with blocks := Function.update h.blocks buf (some (text ++ ch :: r' :: rest)) }
      ⟨buf, text.length + 1⟩ 0 = some { h with
        blocks := Function.update (Function.update h.blocks buf (some (text ++ ch :: r' :: rest))) buf
          (some (text ++ ch :: 0 :: rest)) } := by
    simp [StrHeap.store, List.set_append_right]
  use { h with
    blocks := Function.update (Function.update h.blocks buf (some (text ++ ch :: r' :: rest))) buf
      (some (text ++ ch :: 0 :: rest)) }
  constructor
  · rw [StrHeap.put, hstore, Option.bind_eq_bind, Option.bind_some]
    simp only [hstore']
    rfl
  · constructor
    · rfl
    · simp

/-- A loop of `SPutChar` puts characters for which there is room. -/
theorem sPutChars_eq (fresh : Nat → Nat → Byte) (chs : List Byte) :
  ∀ (h : StrHeap) (text rest : List Byte), BufHolds h buf text rest → chs.length < rest.length →
    ∃ h' rest', sPutChars fresh h ⟨buf, text.length⟩ chs buf
        = some (h', ⟨buf, (text ++ chs).length⟩, buf)
      ∧ BufHolds h' buf (text ++ chs) rest' ∧ rest'.length + chs.length = rest.length
  := by
  induction chs with
  | nil =>
    intro h text rest hholds _
    use h, rest
    simp only [List.append_nil, List.length_nil, Nat.add_zero]
    use rfl, hholds
  | cons ch chs ih =>
    intro h text rest hholds hlen
    obtain ⟨r, r', rest, rfl⟩ : ∃ r r' rest', rest = r :: r' :: rest' := by
      match rest, hlen with
      | r :: r' :: rest', _ => use r, r', rest'
    obtain ⟨h', hput, hnext, hblock⟩ := StrHeap.put_eq ch hholds.bytes
    have hstep : sPutChar fresh h ⟨buf, text.length⟩ ch buf
        = some (h', ⟨buf, (text ++ [ch]).length⟩, buf) := by
      have hsize : h.mSize buf = some (text ++ r :: r' :: rest).length := by
        rw [StrHeap.mSize, hholds.bytes]
        rfl
      have hroom : ¬text.length ≥ (text ++ r :: r' :: rest).length := by simp
      rw [sPutChar, if_neg (by simp), hsize, Option.bind_eq_bind, Option.bind_some, if_neg hroom, hput,
        List.length_append]
      rfl
    have hholds' : BufHolds h' buf (text ++ [ch]) (0 :: rest) := by
      constructor
      case bytes => apply hblock
      case old =>
        rw [hnext]
        apply hholds.old
      case more => apply List.cons_ne_nil
      case ends =>
        intro _
        rfl
    have hlen' : chs.length < (0 :: rest).length := by
      simp only [List.length_cons] at hlen ⊢
      omega
    obtain ⟨h₂, rest₂, hrun, hholds₂, hlen₂⟩ := ih h' (text ++ [ch]) (0 :: rest) hholds' hlen'
    use h₂, rest₂
    rw [List.append_assoc, List.singleton_append] at hrun hholds₂
    constructor
    · rw [sPutChars, hstep]
      apply hrun
    · use hholds₂
      simp only [List.length_cons] at hlen₂ ⊢
      omega

/-! ### Strings -/

/-- `ReAlloc` to a larger size keeps what is in the buffer. -/
theorem BufHolds.reAlloc (fresh : Nat → Nat → Byte) {rest : List Byte} (hholds : BufHolds h buf text rest) {n : Nat}
    (hn : (text ++ rest).length ≤ n) :
  ∃ h' rest', h.reAlloc fresh buf n = some (h', h.next) ∧ BufHolds h' h.next text rest'
    ∧ text.length + rest'.length = n
  := by
  have hne : h.next ≠ buf := Nat.ne_of_gt hholds.old
  have hne' : buf ≠ h.next := Ne.symm hne
  have hbytes := hholds.bytes
  let new := (List.range n).map (fresh h.next)
  let h₁ : StrHeap := { blocks := Function.update h.blocks h.next (some new), next := h.next + 1 }
  let bytes := text ++ rest ++ new.drop (text ++ rest).length
  let h₂ : StrHeap := { h₁ with blocks := Function.update h₁.blocks h.next (some bytes) }
  let h₃ : StrHeap := { h₂ with blocks := Function.update h₂.blocks buf none }
  have hnew : new.length = n := by
    simp [new]
  have hsize : h₁.mSize buf = some (text ++ rest).length := by
    simp [StrHeap.mSize, h₁, hne', hbytes]
  have hcopy : h₁.memCpy h.next buf (text ++ rest).length = some h₂ := by
    have hold : h₁.blocks h.next = some new := by
      simp [h₁]
    have hsrc : h₁.blocks buf = some (text ++ rest) := by
      simp [h₁, hne', hbytes]
    rw [StrHeap.memCpy, hold, hsrc]
    simp only [hnew]
    rw [if_pos ⟨hn, Nat.le_refl _⟩, List.take_length]
  have hfree : h₂.free buf = some h₃ := by
    have hsome : (h₂.blocks buf).isSome := by
      simp [h₂, h₁, hne', hbytes]
    rw [StrHeap.free, if_pos hsome]
  use h₃, rest ++ new.drop (text ++ rest).length
  constructor
  · rw [StrHeap.reAlloc]
    simp only [StrHeap.mAlloc, Option.bind_eq_bind]
    rw [hsize, Option.bind_some, hcopy, Option.bind_some, hfree]
    rfl
  · constructor
    · constructor
      case bytes => simp [h₃, h₂, hne, bytes]
      case old => apply Nat.lt_succ_self
      case more =>
        intro hnil
        apply hholds.more (List.append_eq_nil_iff.mp hnil).1
      case ends =>
        intro htext
        rw [List.head?_append, hholds.ends htext]
        rfl
    · simp only [List.length_append, List.length_drop, hnew] at hn ⊢
      omega

/-- The number of characters that are put, and what they are. -/
theorem outStrCount_spec (instr : Option (List Byte)) (len : Int) (flags : BitVec 64) :
  ∃ t, (if flags &&& prtfTruncate ≠ 0 then (instr.getD []).take len.toNat else instr.getD []) = t
    ∧ (instr.getD []).take (outStrCount instr len flags).toNat = t
    ∧ t.length = (outStrCount instr len flags).toNat
    ∧ (len - t.length).toNat = (len - outStrCount instr len flags).toNat
    ∧ t.length ≤ (instr.getD []).length
  := by
  rw [outStrCount]
  generalize instr.getD [] = text
  rcases em (flags &&& prtfTruncate ≠ 0) with htrunc | htrunc
  · rw [if_pos htrunc]
    use text.take len.toNat, rfl
    rcases Int.lt_or_le len text.length with hlt | hle
    · rw [if_pos ⟨htrunc, hlt⟩]
      simp only [List.length_take, true_and]
      omega
    · rw [if_neg (by omega)]
      simp only [Int.toNat_natCast, List.take_length, List.length_take]
      have htake : text.take len.toNat = text := List.take_of_length_le (by omega)
      rw [htake]
      simp only [true_and]
      omega
  · rw [if_neg htrunc, if_neg (fun h => htrunc h.1)]
    use text
    simp

/-- What `OutStr` does behind its check. -/
def outStrPut (fresh : Nat → Nat → Byte) (h : StrHeap) (instr : Option (List Byte)) (buf : Nat)
    (dst : StrPtr) (len : Int) (flags : BitVec 64) : Option (StrHeap × StrPtr × Nat) :=
  let i := outStrCount instr len flags
  let spaces := List.replicate (toI64 (len - i)).toNat chSpace
  if flags &&& prtfLeftJustify ≠ 0 then
    (sPutChars fresh h dst ((instr.getD []).take i.toNat) buf).bind
      fun r => sPutChars fresh r.1 r.2.1 spaces r.2.2
  else
    (sPutChars fresh h dst spaces buf).bind
      fun r => sPutChars fresh r.1 dst ((instr.getD []).take (len - toI64 (len - i)).toNat) r.2.2

/-- Behind the check of `OutStr` there is room for the string. -/
theorem outStr_check (fresh : Nat → Nat → Byte) {rest : List Byte}
    (hholds : BufHolds h buf text rest) (instr : Option (List Byte)) (len : Int) (flags : BitVec 64) :
  ∃ h₁ buf₁ rest₁, outStr fresh h instr buf ⟨buf, text.length⟩ len flags
      = outStrPut fresh h₁ instr buf₁ ⟨buf₁, text.length⟩ len flags
    ∧ BufHolds h₁ buf₁ text rest₁
    ∧ text.length + rest₁.length = outStrSize (text ++ rest).length text.length instr
    ∧ (instr.getD []).length < rest₁.length
  := by
  have hpos : 0 < rest.length := List.length_pos_iff.mpr hholds.more
  have hmsize : h.mSize buf = some (text ++ rest).length := by
    rw [StrHeap.mSize, hholds.bytes]
    rfl
  rw [outStr, if_neg (by simp), outStrSize]
  simp only [hmsize, Option.bind_eq_bind, Option.bind_some]
  rcases em (((instr.getD []).length : Int) ≥ ((text ++ rest).length : Int) - text.length)
    with hge | hlt
  · obtain ⟨h₁, rest₁, hrealloc, hholds₁, hlen₁⟩ := hholds.reAlloc fresh
      (n := (text ++ rest).length * 10 + (instr.getD []).length) (by omega)
    use h₁, h.next, rest₁
    rw [if_pos hge, if_pos hge, hrealloc]
    use rfl, hholds₁, hlen₁
    rw [List.length_append] at hlen₁
    omega
  · use h, buf, rest
    rw [if_neg hlt, if_neg hlt]
    use rfl, hholds, (List.length_append).symm
    rw [List.length_append] at hlt
    omega

/-- The text of a call of `OutStr` is as long as the width or what is put of the string. -/
theorem length_text (instr : Option (List Byte)) (len : Int) (flags : BitVec 64) :
  (StrCall.outStr instr len flags).text.length
    = (outStrCount instr len flags).toNat + (len - outStrCount instr len flags).toNat
  := by
  obtain ⟨t, ht, -, htlen, hspaces, -⟩ := outStrCount_spec instr len flags
  simp only [StrCall.text, ht]
  rcases em (flags &&& prtfLeftJustify ≠ 0) with hleft | hleft
  · rw [if_pos hleft, List.length_append, List.length_replicate, htlen, ← htlen, hspaces]
  · rw [if_neg hleft, List.length_append, List.length_replicate, htlen, ← htlen, hspaces,
      Nat.add_comm]

/-- `OutStr` puts a string that fits. -/
theorem outStr_eq (fresh : Nat → Nat → Byte) {rest : List Byte}
    (hholds : BufHolds h buf text rest) {instr : Option (List Byte)} {len : Int} {flags : BitVec 64}
    (hfits : (StrCall.outStr instr len flags).Fits (text ++ rest).length text.length) :
  ∃ h' buf' rest', outStr fresh h instr buf ⟨buf, text.length⟩ len flags
      = some (h', ⟨buf', (text ++ (StrCall.outStr instr len flags).text).length⟩, buf')
    ∧ BufHolds h' buf' (text ++ (StrCall.outStr instr len flags).text) rest'
  := by
  obtain ⟨hpad, -, hroom⟩ := hfits
  obtain ⟨t, ht, htake, htlen, hspaces, hle⟩ := outStrCount_spec instr len flags
  obtain ⟨h₁, buf₁, rest₁, hcheck, hholds₁, hsize₁, hlong⟩ :=
    outStr_check fresh hholds instr len flags
  obtain ⟨h₂, rest₂, hput, hholds₂, hlen₂⟩ := sPutChars_eq fresh t h₁ text rest₁ hholds₁
    (Nat.lt_of_le_of_lt hle hlong)
  let spaces := List.replicate (len - outStrCount instr len flags).toNat chSpace
  rw [hcheck, outStrPut]
  simp only [hpad, htake]
  rcases em (flags &&& prtfLeftJustify ≠ 0) with hleft | hleft
  · have hcall : (StrCall.outStr instr len flags).text = t ++ spaces := by
      simp only [StrCall.text, ht, if_pos hleft, hspaces, spaces]
    have hroom' : spaces.length < rest₂.length := by
      simp only [spaces, List.length_replicate]
      rcases hroom with hshort | ⟨-, hroom⟩ <;> omega
    obtain ⟨h₃, rest₃, hput', hholds₃, -⟩ :=
      sPutChars_eq fresh spaces h₂ (text ++ t) rest₂ hholds₂ hroom'
    use h₃, buf₁, rest₃
    rw [if_pos hleft, hput, hcall, ← List.append_assoc]
    constructor
    · apply hput'
    · apply hholds₃
  · have hshort : len ≤ outStrCount instr len flags := hroom.resolve_right (fun h => hleft h.1)
    have hzero : (len - outStrCount instr len flags).toNat = 0 := by omega
    have hcall : (StrCall.outStr instr len flags).text = t := by
      simp only [StrCall.text, ht, if_neg hleft, hspaces, hzero, List.replicate_zero, List.nil_append]
    have hback : len - (len - outStrCount instr len flags) = outStrCount instr len flags := by omega
    use h₂, buf₁, rest₂
    rw [if_neg hleft, hzero, hback, htake, hcall]
    constructor
    · apply hput
    · apply hholds₂

/-! ### Runs -/

/-- The cursor is behind the text in the buffer. -/
def StrState.At (s : StrState) (text : List Byte) : Prop :=
  s.dst = ⟨s.buf, text.length⟩ ∧ ∃ rest, BufHolds s.heap s.buf text rest

/-- A call that fits puts its text, and there is a 0 behind it. -/
theorem strStep_at (fresh : Nat → Nat → Byte) {s : StrState} (hat : s.At text) {c : StrCall} {size : Nat}
    (hsize : s.heap.mSize s.buf = some size) (hfits : c.Fits size s.dst.off) :
  ∃ s', strStep fresh s c = some s' ∧ s'.At (text ++ c.text) ∧ text ++ c.text ≠ []
  := by
  obtain ⟨h, dst, buf⟩ := s
  obtain ⟨hdst, rest, hholds⟩ := hat
  simp only at hdst hholds hsize hfits
  subst hdst
  have hlen : size = (text ++ rest).length := by
    rw [StrHeap.mSize, hholds.bytes] at hsize
    apply (Option.some_inj.mp hsize).symm
  subst hlen
  cases c with
  | sPutChar ch =>
    have hroom : [ch].length < rest.length := by
      simp only [StrCall.Fits, List.length_append] at hfits
      simp only [List.length_singleton]
      omega
    obtain ⟨h', rest', hrun, hholds', -⟩ := sPutChars_eq fresh [ch] h text rest hholds hroom
    use ⟨h', ⟨buf, (text ++ [ch]).length⟩, buf⟩
    constructor
    · rw [sPutChars] at hrun
      obtain ⟨⟨h₂, dst₂, buf₂⟩, hr, hrest⟩ := Option.bind_eq_some_iff.mp hrun
      simp only [sPutChars, Option.some_inj] at hrest
      rw [strStep, hr, hrest]
      rfl
    · constructor
      · use rfl, rest'
        apply hholds'
      · simp [StrCall.text]
  | outStr instr len flags =>
    obtain ⟨h', buf', rest', hrun, hholds'⟩ := outStr_eq fresh hholds hfits
    use ⟨h', ⟨buf', (text ++ (StrCall.outStr instr len flags).text).length⟩, buf'⟩
    constructor
    · rw [strStep, hrun]
      rfl
    · constructor
      · use rfl, rest'
      · obtain ⟨-, hsome, -⟩ := hfits
        intro hnil
        obtain ⟨rfl, hcall⟩ := List.append_eq_nil_iff.mp hnil
        have hlen := length_text instr len flags
        rw [hcall, List.length_nil] at hlen
        simp only [List.length_nil] at hsome
        omega

/-- The text of a call ends with a 0. -/
theorem StrState.At.built {s : StrState} (hat : s.At text) (htext : text ≠ []) :
  s.Built text
  := by
  obtain ⟨hdst, rest, hholds⟩ := hat
  use text ++ rest, hholds.bytes
  constructor
  · rw [List.take_left]
  · rw [List.getElem?_append_right (Nat.le_refl _), Nat.sub_self, ← List.head?_eq_getElem?]
    apply hholds.ends htext

/-- A run whose calls all fit puts their texts. -/
theorem strRun_at (calls : List StrCall) :
  ∀ (s : StrState) (text : List Byte), s.At text → RunFits fresh s calls →
    ∃ s', strRun fresh s calls = some s' ∧ s'.At (text ++ textOf calls)
      ∧ (calls ≠ [] → text ++ textOf calls ≠ [])
  := by
  induction calls with
  | nil =>
    intro s text hat _
    use s, rfl
    rw [textOf, List.flatMap_nil, List.append_nil]
    use hat, fun h => absurd rfl h
  | cons c calls ih =>
    intro s text hat hfits
    obtain ⟨⟨size, hsize, hfit⟩, hrest⟩ := hfits
    obtain ⟨s₁, hstep, hat₁, hne⟩ := strStep_at fresh hat hsize hfit
    obtain ⟨s₂, hrun, hat₂, -⟩ := ih s₁ (text ++ c.text) hat₁ (hrest s₁ hstep)
    use s₂
    have htext : text ++ textOf (c :: calls) = text ++ c.text ++ textOf calls := by
      rw [textOf, List.flatMap_cons, List.append_assoc]
      rfl
    rw [htext]
    constructor
    · rw [strRun, hstep]
      apply hrun
    · use hat₂
      intro _ hnil
      apply hne (List.append_eq_nil_iff.mp hnil).1

/-- The calls of a part of a run fit. -/
theorem RunFits.take {s : StrState} {calls : List StrCall} (h : RunFits fresh s calls) (k : Nat) :
  RunFits fresh s (calls.take k)
  := by
  induction calls generalizing s k with
  | nil =>
    rw [List.take_nil]
    apply h
  | cons c calls ih =>
    cases k with
    | zero => trivial
    | succ k =>
      use h.1
      intro s' hs'
      apply ih (h.2 s' hs')

/-- In a run from a buffer of `MAlloc` whose calls all fit, there is after every call the concatenation of the
texts in the buffer with a 0 behind it; a write outside of the buffer would have no result. -/
theorem strRun_built (fresh : Nat → Nat → Byte) (h : StrHeap) (size : Nat) (hsize : 0 < size)
    (calls : List StrCall) (hfits : RunFits fresh (strInit fresh h size) calls) (k : Nat) (hk : 0 < k)
    (hlen : k ≤ calls.length) :
  ∃ s, strRun fresh (strInit fresh h size) (calls.take k) = some s
    ∧ s.Built (textOf (calls.take k))
  := by
  have hinit : (strInit fresh h size).At [] := by
    use rfl, (List.range size).map (fresh h.next)
    constructor
    case bytes => simp [strInit, StrHeap.mAlloc]
    case old => apply Nat.lt_succ_self
    case more =>
      intro hnil
      simp at hnil
      omega
    case ends =>
      intro htext
      cases htext rfl
  obtain ⟨s, hrun, hat, hne⟩ := strRun_at (calls.take k) (strInit fresh h size) [] hinit (hfits.take k)
  rw [List.nil_append] at hat hne
  use s, hrun
  apply hat.built (hne _)
  intro hnil
  have hzero := congrArg List.length hnil
  rw [List.length_take, List.length_nil] at hzero
  omega

/-- A heap with no blocks. -/
def emptyStrHeap : StrHeap := { blocks := fun _ => none, next := 0 }

/-- A character and a string with two spaces behind it in a buffer of 16 bytes. -/
theorem strRun_built_two :
  ∃ s, strRun (fun _ _ => 0xFF) (strInit (fun _ _ => 0xFF) emptyStrHeap 16)
      [.sPutChar 0x61, .outStr (some [0x62, 0x63]) 4 prtfLeftJustify] = some s
    ∧ s.Built [0x61, 0x62, 0x63, 0x20, 0x20]
  := by
  apply strRun_built (fun _ _ => 0xFF) emptyStrHeap 16 (by simp)
    [.sPutChar 0x61, .outStr (some [0x62, 0x63]) 4 prtfLeftJustify] _ 2 (by simp) (by simp)
  constructor
  · use 16, rfl
    change 0 + 1 < 16
    simp
  · rintro _ ⟨⟩
    constructor
    · use 16, rfl
      change toI64 (4 - 2) = 4 - 2 ∧ (0 < 1 ∨ (0 : Int) < 2 ∨ (0 : Int) < 4)
        ∧ ((4 : Int) ≤ 2 ∨ prtfLeftJustify &&& prtfLeftJustify ≠ 0 ∧ (1 : Int) + 4 < 16)
      decide
    · intro _ _
      trivial

/-- The 0 behind a character in a buffer of one byte is outside, and the space before a string is lost. -/
theorem not_strRun_built :
  (¬∃ s, strRun (fun _ _ => 0xFF) (strInit (fun _ _ => 0xFF) emptyStrHeap 1) [.sPutChar 0x61] = some s
      ∧ s.Built [0x61])
    ∧ ¬∃ s, strRun (fun _ _ => 0xFF) (strInit (fun _ _ => 0xFF) emptyStrHeap 16)
        [.outStr (some [0x61]) 2 0] = some s ∧ s.Built [0x20, 0x61]
  := by
  constructor
  · rintro ⟨s, hs, -⟩
    cases hs
  · rintro ⟨s, hs, bytes, hbytes, htake, -⟩
    cases hs
    cases hbytes
    revert htake
    decide

end Polyc
