import Mathlib.Data.List.Induction
import Mathlib.Tactic.Linarith
import Polyc.Memory.AoStrPool

/-!
# The JSON writer

`jsonEscapeInto` appends to a string of `aostr.c`, whose buffer grows to twice its size.  The size that is
asked for is cut to 32 bits, so that there is no result at 2³¹: the characters are copied behind the buffer.
-/

namespace Polyc

open Bytes (Byte)

/-! ### The string -/

/-- An `AoStr`: the characters without the 0 behind them, and the capacity. -/
structure JsonOut where
  data : List Byte
  capacity : BitVec 32

namespace JsonOut

/-- `aoStrNew`. -/
def new : JsonOut := ⟨[], 32⟩

variable (buf : JsonOut)

/-- The bytes that the pool gives for a buffer of the capacity. -/
def room : Nat := (arenaAlignMemorySize buf.capacity).toNat

/-- `aoStrExtendBufferIfNeeded` extends the buffer. -/
def Grows (additional : Nat) : Prop := buf.data.length + additional + 1 ≥ buf.capacity.toNat

instance (additional : Nat) : Decidable (buf.Grows additional) :=
  inferInstanceAs (Decidable (buf.data.length + additional + 1 ≥ buf.capacity.toNat))

/-- The capacity that `aoStrPoolAlloc` answers with. -/
def poolCapacity (requested : BitVec 32) : BitVec 32 :=
  if requested > 65536 then requested else aoStrPoolBucketSize requested

/-- `aoStrExtendBuffer`, which copies the characters. -/
def aoStrExtendBuffer (additional : Nat) : Option JsonOut :=
  let desired := buf.capacity.toNat * 2 + additional
  let buf := { buf with capacity := poolCapacity (BitVec.ofNat 32 desired) }
  if buf.data.length ≤ buf.room then some buf else none

/-- Some characters and the 0 behind them are written where there is room for some more. -/
def append (additional : Nat) (bytes : List Byte) : Option JsonOut := do
  let buf ← if buf.Grows additional then buf.aoStrExtendBuffer (additional + 1) else some buf
  if buf.data.length + bytes.length < buf.room then some { buf with data := buf.data ++ bytes } else none

end JsonOut

/-! ### Escapes -/

/-- A digit of `%x`. -/
def jsonHexChar (d : Nat) : Byte := if d < 10 then 0x30 + BitVec.ofNat 8 d else 0x61 + BitVec.ofNat 8 (d - 10)

/-- The case of a byte in `jsonEscapeInto`. -/
def jsonEscapeByte (c : Byte) : List Byte :=
  if c = 0x22 then [0x5C, 0x22]
  else if c = 0x5C then [0x5C, 0x5C]
  else if c = 0x08 then [0x5C, 0x62]
  else if c = 0x0C then [0x5C, 0x66]
  else if c = 0x0A then [0x5C, 0x6E]
  else if c = 0x0D then [0x5C, 0x72]
  else if c = 0x09 then [0x5C, 0x74]
  else if c < 0x20 then
    [0x5C, 0x75, 0x30, 0x30, jsonHexChar (c.toNat / 16), jsonHexChar (c.toNat % 16)]
  else [c]

/-- The characters that there is to be room for: `aoStrPutChar` asks for ten, `aoStrCatLen` for those that it
appends. -/
def jsonAdditional (c : Byte) : Nat := if jsonEscapeByte c = [c] then 10 else (jsonEscapeByte c).length

/-- `jsonEscapeInto`. -/
def jsonEscapeInto (buf : JsonOut) : List Byte → Option JsonOut
  | [] => some buf
  | c :: s => do
    let buf ← buf.append (jsonAdditional c) (jsonEscapeByte c)
    jsonEscapeInto buf s

/-- The text of a string. -/
def jsonEscaped (s : List Byte) : List Byte := s.flatMap jsonEscapeByte

/-- The buffer has fewer than 2³¹ bytes whenever it is extended. -/
def NeverCut (s : List Byte) : Prop :=
  ∀ t c rest buf, s = t ++ c :: rest → jsonEscapeInto .new t = some buf → buf.Grows (jsonAdditional c) →
    buf.capacity.toNat < 2 ^ 31

/-! ### The capacity -/

/-- Some characters are appended, and more is asked for. -/
theorem jsonAdditional_spec (c : Byte) :
  (jsonEscapeByte c).length ≤ jsonAdditional c ∧ jsonAdditional c ≤ 10
    ∧ jsonAdditional c ≤ (jsonEscapeByte c).length + 9 ∧ 0 < (jsonEscapeByte c).length
  := by
  have hlen : (jsonEscapeByte c).length ≤ 6 ∧ 0 < (jsonEscapeByte c).length := by
    rw [jsonEscapeByte]
    split_ifs <;> simp
  rw [jsonAdditional]
  split <;> omega

namespace JsonOut

/-- A buffer that was doubled from 32 bytes on, each time for ten characters more at most. -/
structure Doubled (buf : JsonOut) : Prop where
  capacity : ∃ k ≤ 31, ∃ e, buf.capacity.toNat = 2 ^ k + e ∧ e + 11 ≤ 11 * 2 ^ (k - 15)
  lt : buf.data.length < buf.capacity.toNat

theorem doubled_new :
  Doubled new
  where
  capacity := ⟨5, by decide, 0, rfl, by decide⟩
  lt := by decide

variable {buf : JsonOut} {additional : Nat} {bytes : List Byte}

/-- A doubled buffer below 2³¹ bytes, and one beyond. -/
theorem Doubled.capacity_cases (h : buf.Doubled) :
  (buf.capacity.toNat ≤ 2 ^ 30 + 11 * 2 ^ 15 ∧ ∃ k ≤ 30, ∃ e,
      buf.capacity.toNat = 2 ^ k + e ∧ e + 11 ≤ 11 * 2 ^ (k - 15))
    ∨ 2 ^ 31 ≤ buf.capacity.toNat ∧ buf.capacity.toNat + 11 ≤ 2 ^ 31 + 11 * 2 ^ 16
  := by
  obtain ⟨k, hk, e, hcap, he⟩ := h.capacity
  rcases Nat.lt_or_eq_of_le hk with hlt | rfl
  · left
    have hpow : 2 ^ k ≤ 2 ^ 30 := Nat.pow_le_pow_right (by decide) (by omega)
    have hextra : 2 ^ (k - 15) ≤ 2 ^ 15 := Nat.pow_le_pow_right (by decide) (by omega)
    exact ⟨by omega, k, by omega, e, hcap, he⟩
  · right
    omega

/-- There are as many bytes as the capacity says. -/
theorem capacity_le_room (h : buf.capacity.toNat ≤ 2 ^ 32 - 8) :
  buf.capacity.toNat ≤ buf.room
  := by
  rw [room, arenaAlignMemorySize_toNat]
  omega

/-- A doubled buffer has the bytes that its capacity says. -/
theorem Doubled.le_room (h : buf.Doubled) :
  buf.capacity.toNat ≤ buf.room
  := by
  apply capacity_le_room
  rcases h.capacity_cases with ⟨hsmall, -⟩ | ⟨-, hlarge⟩ <;> omega

/-- What the pool gives for a size that is not cut: a power of two for a small one. -/
theorem poolCapacity_toNat {desired : Nat} (h : desired < 2 ^ 32) :
  (65536 < desired ∧ (poolCapacity (BitVec.ofNat 32 desired)).toNat = desired)
    ∨ desired ≤ 65536 ∧ ∃ k ≤ 16, (poolCapacity (BitVec.ofNat 32 desired)).toNat = 2 ^ k ∧ desired ≤ 2 ^ k
  := by
  have hnat : (BitVec.ofNat 32 desired).toNat = desired := by
    rw [BitVec.toNat_ofNat, Nat.mod_eq_of_lt h]
  have hlimit : BitVec.ofNat 32 desired > 65536 ↔ 65536 < desired := by
    rw [gt_iff_lt, BitVec.lt_def, hnat]
    rfl
  rw [poolCapacity]
  by_cases hlarge : 65536 < desired
  · left
    rw [if_pos (hlimit.mpr hlarge), hnat]
    exact ⟨hlarge, rfl⟩
  · right
    have hsmall : (BitVec.ofNat 32 desired).toNat ≤ 65536 := hnat.trans_le (not_lt.mp hlarge)
    obtain ⟨k, hk, hbucket, hle⟩ := aoStrPoolBucketSize_eq hsmall
    rw [if_neg (mt hlimit.mp hlarge)]
    refine ⟨by omega, k + 5, ?_, ?_, ?_⟩
    · exact Nat.le_sub_one_of_lt (Nat.add_lt_add_right hk 5)
    · rw [hbucket, classSize]
    · rw [hnat] at hle
      exact hle

/-- An extension that is not cut gives a doubled buffer with room for more. -/
theorem Doubled.extend (h : buf.Doubled) (hcut : buf.capacity.toNat < 2 ^ 31) (hmore : additional ≤ 11) :
  ∃ capacity, buf.aoStrExtendBuffer additional = some { buf with capacity }
    ∧ buf.capacity.toNat * 2 + additional ≤ capacity.toNat
    ∧ Doubled { buf with capacity }
  := by
  have hlen := h.lt
  rcases h.capacity_cases with ⟨hsmall, k, hk, e, hcap, he⟩ | ⟨hlarge, -⟩
  case inr => omega
  have hgrown : buf.capacity.toNat * 2 + additional
        ≤ (poolCapacity (BitVec.ofNat 32 (buf.capacity.toNat * 2 + additional))).toNat
      ∧ ∃ k ≤ 31, ∃ e, (poolCapacity (BitVec.ofNat 32 (buf.capacity.toNat * 2 + additional))).toNat = 2 ^ k + e
        ∧ e + 11 ≤ 11 * 2 ^ (k - 15) := by
    have hdesired : buf.capacity.toNat * 2 + additional < 2 ^ 32 := by omega
    rcases poolCapacity_toNat hdesired with
      ⟨hbig, heq⟩ | ⟨-, j, hj, heq, hle⟩
    · have hk' : 14 < k := by
        by_contra hlt
        have hpow : 2 ^ k ≤ 2 ^ 14 := Nat.pow_le_pow_right (by decide) (by omega)
        have hextra : k - 15 = 0 := by omega
        rw [hextra] at he
        omega
      have hdouble : k + 1 - 15 = k - 15 + 1 := by omega
      refine ⟨heq.ge, k + 1, by omega, 2 * e + additional, ?_, ?_⟩
      · rw [heq, hcap, pow_succ]
        omega
      · rw [hdouble, pow_succ]
        omega
    · have hpos : 0 < 2 ^ (j - 15) := Nat.two_pow_pos _
      exact ⟨heq ▸ hle, j, by omega, 0, heq, by omega⟩
  obtain ⟨hle, hdoubled⟩ := hgrown
  have hnew : Doubled { buf with capacity := poolCapacity (BitVec.ofNat 32 (buf.capacity.toNat * 2 + additional)) } :=
    ⟨hdoubled, lt_of_lt_of_le hlen (le_trans (by omega) hle)⟩
  refine ⟨_, ?_, hle, hnew⟩
  rw [aoStrExtendBuffer]
  apply if_pos
  exact hnew.lt.le.trans hnew.le_room

/-- An extension that is cut asks for less than there is to copy. -/
theorem Doubled.extend_of_cut (h : buf.Doubled) (hcut : 2 ^ 31 ≤ buf.capacity.toNat) (hmore : additional ≤ 11)
    (hgrows : buf.capacity.toNat ≤ buf.data.length + 11) :
  buf.aoStrExtendBuffer additional = none
  := by
  rcases h.capacity_cases with ⟨hsmall, -⟩ | ⟨-, hlarge⟩
  case inl => omega
  have hmod : BitVec.ofNat 32 (buf.capacity.toNat * 2 + additional)
      = BitVec.ofNat 32 (buf.capacity.toNat * 2 + additional - 2 ^ 32) := by
    apply BitVec.eq_of_toNat_eq
    rw [BitVec.toNat_ofNat, BitVec.toNat_ofNat]
    omega
  have hsize : (poolCapacity (BitVec.ofNat 32 (buf.capacity.toNat * 2 + additional))).toNat ≤ 2 ^ 21 := by
    rw [hmod]
    have hrest : buf.capacity.toNat * 2 + additional - 2 ^ 32 < 2 ^ 32 := by omega
    rcases poolCapacity_toNat hrest with
      ⟨-, heq⟩ | ⟨-, k, hk, heq, -⟩
    · omega
    · have hpow : 2 ^ k ≤ 2 ^ 16 := Nat.pow_le_pow_right (by decide) hk
      omega
  rw [aoStrExtendBuffer]
  apply if_neg
  rw [not_le, room, arenaAlignMemorySize_toNat]
  dsimp only
  omega

/-- Characters are appended, unless the buffer is to be extended beyond 2³¹ bytes. -/
theorem Doubled.append (h : buf.Doubled) (hbytes : bytes.length ≤ additional) (hmore : additional ≤ 10) :
  (buf.Grows additional → buf.capacity.toNat < 2 ^ 31) →
    ∃ capacity, buf.append additional bytes = some ⟨buf.data ++ bytes, capacity⟩
      ∧ Doubled ⟨buf.data ++ bytes, capacity⟩
  := by
  intro hcut
  have hlen := h.lt
  by_cases hgrows : buf.Grows additional
  · obtain ⟨capacity, hextend, hle, hnew⟩ := h.extend (hcut hgrows) (Nat.succ_le_succ hmore)
    have hroom := hnew.le_room
    dsimp only at hroom
    refine ⟨capacity, ?_, hnew.capacity, ?_⟩
    · rw [JsonOut.append, if_pos hgrows, hextend]
      apply if_pos
      dsimp only
      omega
    · rw [List.length_append]
      dsimp only
      omega
  · have hroom := h.le_room
    have hless : buf.data.length + additional + 1 < buf.capacity.toNat := not_le.mp hgrows
    refine ⟨buf.capacity, ?_, h.capacity, ?_⟩
    · rw [JsonOut.append, if_neg hgrows]
      apply if_pos
      omega
    · rw [List.length_append]
      dsimp only
      omega

/-- Nothing is appended to a buffer that is to be extended beyond 2³¹ bytes. -/
theorem Doubled.append_of_cut (h : buf.Doubled) (hmore : additional ≤ 10) (hgrows : buf.Grows additional)
    (hcut : 2 ^ 31 ≤ buf.capacity.toNat) :
  buf.append additional bytes = none
  := by
  have hle : buf.capacity.toNat ≤ buf.data.length + additional + 1 := hgrows
  rw [JsonOut.append, if_pos hgrows, h.extend_of_cut hcut (Nat.succ_le_succ hmore) (by omega)]
  rfl

end JsonOut

/-! ### The text -/

section

variable {buf buf' : JsonOut} {s : List Byte}

/-- The text is appended. -/
theorem jsonEscapeInto_doubled (h : buf.Doubled) (hs : jsonEscapeInto buf s = some buf') :
  buf'.data = buf.data ++ jsonEscaped s ∧ buf'.Doubled
  := by
  induction s generalizing buf with
  | nil =>
    cases hs
    exact ⟨(List.append_nil _).symm, h⟩
  | cons c s ih =>
    obtain ⟨hbytes, hmore, -⟩ := jsonAdditional_spec c
    rw [jsonEscapeInto] at hs
    obtain ⟨buf₁, happend, hs⟩ := Option.bind_eq_some_iff.mp hs
    by_cases hcut : buf.Grows (jsonAdditional c) → buf.capacity.toNat < 2 ^ 31
    · obtain ⟨capacity, hsome, hnew⟩ := h.append hbytes hmore hcut
      cases happend.symm.trans hsome
      obtain ⟨hdata, hdoubled⟩ := ih hnew hs
      refine ⟨?_, hdoubled⟩
      rw [hdata, List.append_assoc]
      rfl
    · obtain ⟨hgrows, hlarge⟩ := Classical.not_imp.mp hcut
      rw [h.append_of_cut hmore hgrows (not_lt.mp hlarge)] at happend
      cases happend

/-- The bytes before come first. -/
theorem jsonEscapeInto_append (buf : JsonOut) (t s : List Byte) :
  jsonEscapeInto buf (t ++ s) = (jsonEscapeInto buf t).bind (jsonEscapeInto · s)
  := by
  induction t generalizing buf with
  | nil => rfl
  | cons c t ih =>
    rw [List.cons_append, jsonEscapeInto, jsonEscapeInto]
    cases buf.append (jsonAdditional c) (jsonEscapeByte c) with
    | none => rfl
    | some b => apply ih b

/-- There is a text exactly when the size of the buffer is never cut. -/
theorem jsonEscapeInto_isSome_iff (s : List Byte) :
  (∃ buf, jsonEscapeInto .new s = some buf) ↔ NeverCut s
  := by
  constructor
  · rintro ⟨buf', hs⟩ t c rest buf rfl ht hgrows
    obtain ⟨-, hdoubled⟩ := jsonEscapeInto_doubled JsonOut.doubled_new ht
    obtain ⟨-, hmore, -⟩ := jsonAdditional_spec c
    by_contra hlarge
    rw [jsonEscapeInto_append, ht, Option.bind_some, jsonEscapeInto,
      hdoubled.append_of_cut hmore hgrows (not_lt.mp hlarge)] at hs
    cases hs
  · intro hnever
    induction s using List.reverseRecOn with
    | nil => exact ⟨.new, rfl⟩
    | append_singleton s c ih =>
      obtain ⟨buf, hs⟩ := ih fun t d rest buf hsplit ht hgrows =>
        hnever t d (rest ++ [c]) buf (by rw [hsplit, List.append_assoc, List.cons_append]) ht hgrows
      obtain ⟨hbytes, hmore, -⟩ := jsonAdditional_spec c
      obtain ⟨-, hdoubled⟩ := jsonEscapeInto_doubled JsonOut.doubled_new hs
      obtain ⟨capacity, hsome, -⟩ := hdoubled.append hbytes hmore (hnever s c [] buf rfl hs)
      rw [jsonEscapeInto_append, hs, Option.bind_some, jsonEscapeInto, hsome]
      exact ⟨_, rfl⟩

/-- The text of a string is shorter than its buffer. -/
theorem length_jsonEscaped_of_neverCut (h : NeverCut s) :
  (jsonEscaped s).length < 2 ^ 31 + 11 * 2 ^ 16
  := by
  obtain ⟨buf, hs⟩ := (jsonEscapeInto_isSome_iff s).mpr h
  obtain ⟨hdata, hdoubled⟩ := jsonEscapeInto_doubled JsonOut.doubled_new hs
  have hlt := hdoubled.lt
  rw [hdata] at hlt
  have hlen : (JsonOut.new.data ++ jsonEscaped s).length = (jsonEscaped s).length := rfl
  rw [hlen] at hlt
  rcases hdoubled.capacity_cases with ⟨hsmall, -⟩ | ⟨-, hlarge⟩ <;> omega

/-- The size is not cut for a text of fewer than 2³¹ characters. -/
theorem neverCut_of_length (h : (jsonEscaped s).length + 10 < 2 ^ 31) :
  NeverCut s
  := by
  rintro t c rest buf rfl ht hgrows
  obtain ⟨hdata, -⟩ := jsonEscapeInto_doubled JsonOut.doubled_new ht
  obtain ⟨-, -, hmore, -⟩ := jsonAdditional_spec c
  have hle : buf.capacity.toNat ≤ buf.data.length + jsonAdditional c + 1 := hgrows
  have hlen : buf.data.length = (jsonEscaped t).length := congrArg List.length hdata
  have htext : (jsonEscaped (t ++ c :: rest)).length
      = (jsonEscaped t).length + ((jsonEscapeByte c).length + (jsonEscaped rest).length) := by
    rw [jsonEscaped, List.flatMap_append, List.flatMap_cons, List.length_append, List.length_append]
    rfl
  omega

end

end Polyc
