import Polyc.Lib.Bytes
import Polyc.Lib.Loop
import Polyc.Memory.AoStrPool

/-!
# Splitting a string

`aoStrSplit` of `aostr.c` with the strings it makes.  A C string is its bytes up to the 0 and with it;
nothing is known of what comes behind, and reading there has no result.  The same holds for writing behind
a buffer or behind the slots of the result array, and for an `int` that overflows.  Allocations succeed.

The loop of `aoStrSplit` looks for the delimiter from its pointer on and takes the pieces from its offsets
on.  These go over the same text unless it begins with the delimiter: then the characters that are taken
are each the one before that which is looked at.
-/

namespace Polyc

open Bytes (Byte)

/-! ### Strings of the pool -/

/-- The size that `aoStrPoolAlloc` writes to `_actual`. -/
def aoStrPoolAlloc (requested : BitVec 32) : BitVec 32 :=
  if 65536 < requested then requested else aoStrPoolBucketSize requested

/-- `aoStrDupRaw`: `len` bytes of the string from `s` on, and a 0, in a buffer from the pool. -/
def aoStrDupRaw (toSplit : List Byte) (s len : Nat) : Option (List Byte) :=
  if len + 1 ≤ (aoStrPoolAlloc (BitVec.ofNat 32 (len + 1))).toNat ∧ s + len ≤ toSplit.length then
    some ((toSplit.drop s).take len)
  else none

/-! ### The loop -/

/-- The variables of `aoStrSplit`, and the slots of the array. -/
structure StrSplitState where
  outArr : List (List Byte)
  slots : Nat
  memslot : Nat
  arrsize : Nat
  start : Nat
  «end» : Nat
  ptr : Nat

/-- `if (arrsize + 1 >= memslot)`: as many records of 24 bytes as there should be pointers of 8. -/
def StrSplitState.grow (st : StrSplitState) : Option StrSplitState :=
  if st.arrsize + 1 ≥ st.memslot then
    if st.memslot * 5 < 2 ^ 31 then
      some { st with memslot := st.memslot * 5, slots := 24 * (st.memslot * 5) / 8 }
    else none
  else some st

/-- `outArr[arrsize] = aoStrDupRaw(to_split + start, end - start); arrsize++;` -/
def StrSplitState.put (toSplit : List Byte) (st : StrSplitState) : Option StrSplitState :=
  match aoStrDupRaw toSplit st.start (st.end - st.start) with
  | none => none
  | some piece =>
    if st.arrsize < st.slots then
      some { st with outArr := st.outArr ++ [piece], arrsize := st.arrsize + 1 }
    else none

/-- A turn of the loop of `aoStrSplit`. -/
def strSplitStep (toSplit : List Byte) (delimiter : Byte) (st : StrSplitState) :
    StrSplitState ⊕ Option StrSplitState :=
  match toSplit[st.ptr]? with
  | none => .inr none
  | some c =>
    if c = 0 then .inr (some st)
    else
      match st.grow with
      | none => .inr none
      | some st =>
        if c = delimiter then
          match st.put toSplit with
          | none => .inr none
          | some st =>
            .inl { st with ptr := st.ptr + 1, start := st.end + 1, «end» := st.end + 1 }
        else .inl { st with «end» := st.end + 1, ptr := st.ptr + 1 }

/-- `aoStrSplit`. -/
def aoStrSplit (fuel : Nat) (toSplit : List Byte) (delimiter : Byte) : Option (List (List Byte)) := do
  let c ← toSplit[0]?
  let st : StrSplitState :=
    { outArr := [], slots := 5, memslot := 5, arrsize := 0, start := 0, «end» := 0,
      ptr := if c = delimiter then 1 else 0 }
  let st ← (Loop.run (strSplitStep toSplit delimiter) fuel st).join
  let st ← st.put toSplit
  return st.outArr

/-! ### Buffers -/

/-- The buffer of a string has room for its characters and the 0 unless their number is not one of 32
bits. -/
theorem capacity_iff (len : Nat) :
  len + 1 ≤ (aoStrPoolAlloc (BitVec.ofNat 32 (len + 1))).toNat ↔ len + 1 < 2 ^ 32
  := by
  constructor
  · intro h
    apply Nat.lt_of_le_of_lt h (BitVec.isLt _)
  · intro h
    have hreq : (BitVec.ofNat 32 (len + 1)).toNat = len + 1 := by
      rw [BitVec.toNat_ofNat, Nat.mod_eq_of_lt h]
    rw [aoStrPoolAlloc]
    rcases em ((65536 : BitVec 32) < BitVec.ofNat 32 (len + 1)) with hlt | hle
    · rw [if_pos hlt, hreq]
    · rw [if_neg hle]
      obtain ⟨k, -, hbucket, hroom⟩ := aoStrPoolBucketSize_eq (Nat.le_of_not_lt hle)
      rwa [hbucket, ← hreq]

/-- The string of some characters is there when its buffer has room for them. -/
theorem aoStrDupRaw_eq {toSplit : List Byte} {s len : Nat} (h : s + len ≤ toSplit.length) :
  aoStrDupRaw toSplit s len = if len + 1 < 2 ^ 32 then some ((toSplit.drop s).take len) else none
  := by
  rw [aoStrDupRaw]
  apply if_congr _ rfl rfl
  rw [capacity_iff]
  constructor
  · apply And.left
  · intro hlt
    use hlt

/-! ### The pieces -/

variable {d : Byte}

/-- The pieces between the delimiters of the first characters of some pairs, each made of the second
characters. -/
def pairSplit (d : Byte) : List (Byte × Byte) → List (List Byte)
  | [] => [[]]
  | (b, c) :: l => if b = d then [] :: pairSplit d l else (pairSplit d l).modifyHead (c :: ·)

/-- No piece is too long for a buffer. -/
def Small (ps : List (List Byte)) : Prop := ∀ p ∈ ps, p.length + 1 < 2 ^ 32

/-- The array has room: there are not too many delimiters before the last character. -/
def Fits (d : Byte) (arrsize : Nat) (body : List Byte) : Prop :=
  body ≠ [] → arrsize + body.dropLast.count d + 1 < 5 ^ 13

/-- The state of the loop when it looks at `body` and has taken up to `cs`, with the characters `cur` of the
next piece. -/
structure StrSplitInv (toSplit body cs cur : List Byte) (st : StrSplitState) : Prop where
  ptr : toSplit.drop st.ptr = body ++ [0]
  taken : ∃ rest, toSplit.drop st.end = cs ++ rest ∧ rest ≠ []
  lengths : cs.length = body.length
  piece : (toSplit.drop st.start).take (st.end - st.start) = cur
  le : st.start ≤ st.end ∧ st.end ≤ toSplit.length
  size : ∃ j, st.memslot = 5 ^ j ∧ j ≤ 13 ∧ 1 ≤ j
  room : st.arrsize + 1 ≤ st.memslot ∧ st.memslot ≤ st.slots

/-- The array after the first check of a turn has room for one more piece, and it is there unless there
are too many of them. -/
theorem StrSplitState.grow_spec {st : StrSplitState} (hsize : ∃ j, st.memslot = 5 ^ j ∧ j ≤ 13 ∧ 1 ≤ j)
    (hroom : st.arrsize + 1 ≤ st.memslot ∧ st.memslot ≤ st.slots) :
  (∃ m s, st.grow = some { st with memslot := m, slots := s } ∧ (∃ j, m = 5 ^ j ∧ j ≤ 13 ∧ 1 ≤ j)
      ∧ st.arrsize + 1 < m ∧ m ≤ s)
    ∨ st.grow = none ∧ st.arrsize + 1 = 5 ^ 13
  := by
  obtain ⟨j, hj, hj13, hj1⟩ := hsize
  rw [grow]
  rcases Nat.lt_or_ge (st.arrsize + 1) st.memslot with hlt | hge
  · rw [if_neg (by omega)]
    apply Or.inl
    use st.memslot, st.slots, rfl, ⟨j, hj, hj13, hj1⟩, hlt, hroom.2
  · rw [if_pos hge]
    have heq : st.arrsize + 1 = 5 ^ j := by omega
    rcases Nat.lt_or_eq_of_le hj13 with hlt | rfl
    · have hpow : 5 ^ j ≤ 5 ^ 12 := Nat.pow_le_pow_right (by norm_num) (by omega)
      have hpow' : 5 ^ j * 5 < 2 ^ 31 := by
        norm_num at hpow ⊢
        omega
      apply Or.inl
      use st.memslot * 5, 24 * (st.memslot * 5) / 8
      rw [hj, if_pos hpow']
      use rfl, ⟨j + 1, rfl, hlt, by omega⟩
      constructor
      · have hpos : 0 < 5 ^ j := by positivity
        omega
      · omega
    · apply Or.inr
      rw [hj, if_neg (by norm_num)]
      use rfl, heq

/-- The length of the piece so far. -/
theorem StrSplitInv.length_cur {toSplit body cs cur : List Byte} {st : StrSplitState}
    (h : StrSplitInv toSplit body cs cur st) :
  cur.length = st.end - st.start
  := by
  obtain ⟨hle, hend⟩ := h.le
  rw [← h.piece, List.length_take, List.length_drop]
  omega

/-- A piece is put into the array unless it is too long. -/
theorem StrSplitInv.put {toSplit body cs cur : List Byte} {st : StrSplitState}
    (h : StrSplitInv toSplit body cs cur st) {m s : Nat} (hroom : st.arrsize < s) :
  ({ st with memslot := m, slots := s } : StrSplitState).put toSplit
    = if cur.length + 1 < 2 ^ 32 then
        some { st with
          memslot := m, slots := s, outArr := st.outArr ++ [cur], arrsize := st.arrsize + 1 }
      else none
  := by
  obtain ⟨hle, hend⟩ := h.le
  have hdup : aoStrDupRaw toSplit st.start (st.end - st.start)
      = if st.end - st.start + 1 < 2 ^ 32 then some cur else none := by
    rw [aoStrDupRaw_eq (by omega), h.piece]
  rw [StrSplitState.put, h.length_cur]
  simp only [hdup]
  rcases Nat.lt_or_ge (st.end - st.start + 1) (2 ^ 32) with hlt | hge
  · simp only [if_pos hlt, if_pos hroom]
  · simp only [if_neg (Nat.not_lt.mpr hge)]

/-- The loop goes over a character. -/
theorem StrSplitInv.next {toSplit body cs cur : List Byte} {b c : Byte} {st : StrSplitState}
    (h : StrSplitInv toSplit (b :: body) (c :: cs) cur st) {m s : Nat}
    (hsize : ∃ j, m = 5 ^ j ∧ j ≤ 13 ∧ 1 ≤ j) (hroom : st.arrsize + 1 < m ∧ m ≤ s) :
  StrSplitInv toSplit body cs (cur ++ [c])
      { st with memslot := m, slots := s, «end» := st.end + 1, ptr := st.ptr + 1 }
    ∧ ∀ out, StrSplitInv toSplit body cs []
      { outArr := out, memslot := m, slots := s, arrsize := st.arrsize + 1, ptr := st.ptr + 1,
        start := st.end + 1, «end» := st.end + 1 }
  := by
  obtain ⟨hle, hend⟩ := h.le
  obtain ⟨rest, hrest, hne⟩ := h.taken
  have hptr : toSplit.drop (st.ptr + 1) = body ++ [0] := by
    rw [List.drop_add_one_eq_tail_drop, h.ptr]
    rfl
  have htaken : toSplit.drop (st.end + 1) = cs ++ rest := by
    rw [List.drop_add_one_eq_tail_drop, hrest]
    rfl
  have hread : toSplit[st.end]? = some c := by
    rw [← Nat.add_zero st.end, ← List.getElem?_drop, hrest]
    rfl
  have hlt : st.end < toSplit.length := (List.getElem?_eq_some_iff.mp hread).1
  have hlengths : cs.length = body.length := Nat.succ.inj h.lengths
  constructor
  · constructor
    case ptr => apply hptr
    case taken => use rest
    case lengths => apply hlengths
    case piece =>
      have hsub : st.end + 1 - st.start = st.end - st.start + 1 := by omega
      rw [hsub, List.take_add_one, h.piece, List.getElem?_drop, Nat.add_sub_cancel' hle, hread]
      rfl
    case le => use Nat.le_succ_of_le hle, hlt
    case size => apply hsize
    case room => use Nat.le_of_lt hroom.1, hroom.2
  · intro out
    constructor
    case ptr => apply hptr
    case taken => use rest
    case lengths => apply hlengths
    case piece =>
      rw [Nat.sub_self]
      rfl
    case le => use Nat.le_refl _, hlt
    case size => apply hsize
    case room => use hroom.1, hroom.2

/-- How many delimiters come before the last character, from the next one on. -/
theorem fits_cons {arrsize : Nat} {b : Byte} {body : List Byte} (h : arrsize + 1 < 5 ^ 13) :
  Fits d arrsize (b :: body) ↔ Fits d (if b = d then arrsize + 1 else arrsize) body
  := by
  rcases body with - | ⟨b', body⟩
  · simpa [Fits] using h
  · simp only [Fits, ne_eq, reduceCtorEq, not_false_eq_true, forall_const, List.dropLast_cons_cons]
    rcases em (b = d) with rfl | hd
    · rw [List.count_cons_self, if_pos rfl]
      constructor <;> intro h <;> omega
    · rw [List.count_cons_of_ne hd, if_neg hd]

/-- The array at the end of a run of the loop. -/
def strSplitEnd (toSplit : List Byte) (d : Byte) (fuel : Nat) (st : StrSplitState) :
    Option (List (List Byte)) := do
  let st ← (Loop.run (strSplitStep toSplit d) fuel st).join
  let st ← st.put toSplit
  return st.outArr

theorem pairSplit_ne_nil (d : Byte) (l : List (Byte × Byte)) : pairSplit d l ≠ []
  := by
  induction l with
  | nil => simp [pairSplit]
  | cons p l ih =>
    rw [pairSplit]
    rcases em (p.1 = d) with hd | hd
    · simp [hd]
    · simpa [hd] using ih

/-- The loop gives the pieces when none is too long and there are not too many, and nothing otherwise. -/
theorem strSplitEnd_eq {toSplit : List Byte} (body : List Byte) :
  ∀ (cs cur : List Byte) (st : StrSplitState) (fuel : Nat), 0 ∉ body → body.length < fuel →
    StrSplitInv toSplit body cs cur st →
    (Fits d st.arrsize body ∧ Small ((pairSplit d (body.zip cs)).modifyHead (cur ++ ·))
      ∧ strSplitEnd toSplit d fuel st
        = some (st.outArr ++ (pairSplit d (body.zip cs)).modifyHead (cur ++ ·)))
    ∨ ¬(Fits d st.arrsize body ∧ Small ((pairSplit d (body.zip cs)).modifyHead (cur ++ ·)))
      ∧ strSplitEnd toSplit d fuel st = none
  := by
  induction body with
  | nil =>
    intro cs cur st fuel _ hfuel hinv
    obtain ⟨fuel, rfl⟩ : ∃ k, fuel = k + 1 := ⟨fuel - 1, by omega⟩
    obtain ⟨hroom, hslots⟩ := hinv.room
    have hfits : Fits d st.arrsize [] := fun h => absurd rfl h
    have hread : toSplit[st.ptr]? = some 0 := by
      rw [← Nat.add_zero st.ptr, ← List.getElem?_drop, hinv.ptr]
      rfl
    have hstep : strSplitStep toSplit d st = .inr (some st) := by
      rw [strSplitStep, hread]
      rfl
    have hput := hinv.put (m := st.memslot) (s := st.slots) (by omega)
    have hpieces : (pairSplit d (([] : List Byte).zip cs)).modifyHead (cur ++ ·) = [cur] := by
      simp [pairSplit]
    rw [hpieces, strSplitEnd, Loop.run, hstep]
    simp only [Option.join_some, Option.bind_eq_bind, Option.bind_some]
    rcases Nat.lt_or_ge (cur.length + 1) (2 ^ 32) with hlt | hge
    · rw [if_pos hlt] at hput
      apply Or.inl
      use hfits
      constructor
      · intro p hp
        rw [List.mem_singleton.mp hp]
        apply hlt
      · rw [hput]
        rfl
    · rw [if_neg (Nat.not_lt.mpr hge)] at hput
      apply Or.inr
      constructor
      · rintro ⟨-, hsmall⟩
        apply Nat.not_lt.mpr hge
        apply hsmall cur (List.mem_singleton_self cur)
      · rw [hput]
        rfl
  | cons b body ih =>
    intro cs cur st fuel hzero hfuel hinv
    obtain ⟨fuel, rfl⟩ : ∃ k, fuel = k + 1 := ⟨fuel - 1, by omega⟩
    obtain ⟨hb, hzero⟩ := not_or.mp (mt List.mem_cons.mpr hzero)
    obtain ⟨c, cs, rfl⟩ : ∃ c cs', cs = c :: cs' := by
      cases cs with
      | nil => cases hinv.lengths
      | cons c cs => use c, cs
    have hread : toSplit[st.ptr]? = some b := by
      rw [← Nat.add_zero st.ptr, ← List.getElem?_drop, hinv.ptr]
      rfl
    rcases StrSplitState.grow_spec hinv.size hinv.room with
      ⟨m, s, hgrow, hsize, hroom, hslots⟩ | ⟨hgrow, hmany⟩
    · obtain ⟨hnext, hput'⟩ := hinv.next hsize ⟨hroom, hslots⟩
      have hmax : st.arrsize + 1 < 5 ^ 13 := by
        obtain ⟨j, rfl, hj, -⟩ := hsize
        apply Nat.lt_of_lt_of_le hroom (Nat.pow_le_pow_right (by norm_num) hj)
      rw [fits_cons hmax, List.zip_cons_cons, pairSplit]
      rcases em (b = d) with rfl | hd
      · -- the delimiter: the piece is put into the array
        have hput := hinv.put (m := m) (s := s) (by omega)
        rw [if_pos rfl, if_pos rfl, List.modifyHead_cons, List.append_nil]
        rcases Nat.lt_or_ge (cur.length + 1) (2 ^ 32) with hlt | hge
        · rw [if_pos hlt] at hput
          have hstep : strSplitStep toSplit b st = .inl
              { outArr := st.outArr ++ [cur], memslot := m, slots := s, arrsize := st.arrsize + 1,
                ptr := st.ptr + 1, start := st.end + 1, «end» := st.end + 1 } := by
            simp only [strSplitStep, hread, if_neg (Ne.symm hb), hgrow, if_pos, hput]
          have hrun : strSplitEnd toSplit b (fuel + 1) st = strSplitEnd toSplit b fuel
              { outArr := st.outArr ++ [cur], memslot := m, slots := s, arrsize := st.arrsize + 1,
                ptr := st.ptr + 1, start := st.end + 1, «end» := st.end + 1 } := by
            rw [strSplitEnd, Loop.run, hstep, strSplitEnd]
          have ih := ih cs [] _ fuel hzero (Nat.lt_of_succ_lt_succ hfuel) (hput' (st.outArr ++ [cur]))
          have hnil : (pairSplit b (body.zip cs)).modifyHead (fun p => [] ++ p)
              = pairSplit b (body.zip cs) := by
            cases pairSplit b (body.zip cs) <;> rfl
          have hsmall : Small (cur :: pairSplit b (body.zip cs))
              ↔ Small (pairSplit b (body.zip cs)) := by
            rw [Small, List.forall_mem_cons]
            apply and_iff_right hlt
          rw [hrun, hsmall]
          simp only [hnil, List.append_assoc, List.singleton_append] at ih
          apply ih
        · rw [if_neg (Nat.not_lt.mpr hge)] at hput
          have hstep : strSplitStep toSplit b st = .inr none := by
            simp only [strSplitStep, hread, if_neg (Ne.symm hb), hgrow, if_pos, hput]
          apply Or.inr
          constructor
          · rintro ⟨-, hsmall⟩
            apply Nat.not_lt.mpr hge
            apply hsmall cur List.mem_cons_self
          · rw [strSplitEnd, Loop.run, hstep]
            rfl
      · -- another character of the piece
        have hstep : strSplitStep toSplit d st = .inl
            { st with memslot := m, slots := s, «end» := st.end + 1, ptr := st.ptr + 1 } := by
          simp only [strSplitStep, hread, if_neg (Ne.symm hb), hgrow, if_neg hd]
        have hrun : strSplitEnd toSplit d (fuel + 1) st = strSplitEnd toSplit d fuel
            { st with memslot := m, slots := s, «end» := st.end + 1, ptr := st.ptr + 1 } := by
          rw [strSplitEnd, Loop.run, hstep, strSplitEnd]
        have ih := ih cs (cur ++ [c]) _ fuel hzero (Nat.lt_of_succ_lt_succ hfuel) hnext
        have hmodify : ((pairSplit d (body.zip cs)).modifyHead (c :: ·)).modifyHead (cur ++ ·)
            = (pairSplit d (body.zip cs)).modifyHead (cur ++ [c] ++ ·) := by
          cases pairSplit d (body.zip cs) <;> simp
        rw [hrun, if_neg hd, if_neg hd, hmodify]
        apply ih
    · have hstep : strSplitStep toSplit d st = .inr none := by
        simp only [strSplitStep, hread, if_neg (Ne.symm hb), hgrow]
      apply Or.inr
      constructor
      · rintro ⟨hfits, -⟩
        have hlt := hfits (List.cons_ne_nil b body)
        omega
      · rw [strSplitEnd, Loop.run, hstep]
        rfl

/-! ### What the pieces are -/

/-- The pieces joined: a delimiter where the first characters have one, and the second characters
elsewhere. -/
theorem intercalate_pairSplit (d : Byte) (l : List (Byte × Byte)) :
  [d].intercalate (pairSplit d l) = l.map fun p => if p.1 = d then d else p.2
  := by
  induction l with
  | nil => rfl
  | cons p l ih =>
    rw [List.map_cons, ← ih, pairSplit]
    obtain ⟨q, qs, hq⟩ := List.exists_cons_of_ne_nil (pairSplit_ne_nil d l)
    rw [hq]
    rcases em (p.1 = d) with hd | hd
    · rw [if_pos hd, if_pos hd]
      rfl
    · rw [if_neg hd, if_neg hd]
      cases qs <;> rfl

/-- The characters of the pieces. -/
theorem flatten_pairSplit (d : Byte) (l : List (Byte × Byte)) :
  (pairSplit d l).flatten = (l.filter fun p => p.1 ≠ d).map Prod.snd
  := by
  induction l with
  | nil => rfl
  | cons p l ih =>
    rw [pairSplit]
    obtain ⟨q, qs, hq⟩ := List.exists_cons_of_ne_nil (pairSplit_ne_nil d l)
    rw [hq] at ih ⊢
    rcases em (p.1 = d) with hd | hd
    · rw [if_pos hd, List.filter_cons_of_neg (by simpa using hd), ← ih]
      rfl
    · rw [if_neg hd, List.filter_cons_of_pos (by simpa using hd), List.map_cons, ← ih]
      rfl

theorem mem_pairSplit {c : Byte} (l : List (Byte × Byte)) :
  (∃ p ∈ pairSplit d l, c ∈ p) ↔ ∃ b, (b, c) ∈ l ∧ b ≠ d
  := by
  rw [← List.mem_flatten, flatten_pairSplit]
  simp

/-- Of a string with itself the pieces are those between its delimiters. -/
theorem pairSplit_zip_self (d : Byte) (s : List Byte) :
  pairSplit d (s.zip s) = s.splitOn d
  := by
  induction s with
  | nil => rfl
  | cons c s ih =>
    rw [List.zip_cons_cons, pairSplit, ih, List.splitOn_cons_eq_if_modifyHead]
    simp only [beq_iff_eq]

/-- Where there are delimiters only, the pieces are empty. -/
theorem pairSplit_of_forall {l : List (Byte × Byte)} (h : ∀ p ∈ l, p.1 = d) :
  ∀ p ∈ pairSplit d l, p = []
  := by
  intro p hp
  apply List.eq_nil_iff_forall_not_mem.mpr
  intro c hc
  obtain ⟨b, hb, hne⟩ := (mem_pairSplit l).mp ⟨p, hp, hc⟩
  apply hne (h (b, c) hb)

/-- When the characters before those that are not delimiters are none either, all are delimiters. -/
theorem forall_eq_of_shifted (s : List Byte) (h : ∀ p ∈ s.zip (d :: s), p.1 ≠ d → p.2 ≠ d) :
  ∀ c ∈ s, c = d
  := by
  induction s with
  | nil =>
    intro c hc
    cases hc
  | cons b s ih =>
    have hb : b = d := by
      by_contra hne
      apply h (b, d) List.mem_cons_self hne rfl
    subst hb
    intro c hc
    rcases List.mem_cons.mp hc with rfl | hc
    · rfl
    · apply ih _ c hc
      intro p hp
      apply h p (List.mem_cons_of_mem _ hp)

/-! ### Splitting -/

/-- Splitting loses nothing: there is a result, its pieces have no delimiter in them, and joined with the
delimiter they are the string or the string without its leading delimiter. -/
def SplitsRight (s : List Byte) (d : Byte) : Prop :=
  ∃ pieces, (∃ n, ∀ fuel ≥ n, aoStrSplit fuel (s ++ [0]) d = some pieces)
    ∧ (∀ p ∈ pieces, d ∉ p)
    ∧ ([d].intercalate pieces = s ∨ ∃ s', s = d :: s' ∧ [d].intercalate pieces = s')

/-- The run of `aoStrSplit` from the first character on. -/
theorem aoStrSplit_eq {s : List Byte} {c : Byte} (h : (s ++ [0])[0]? = some c) (fuel : Nat) :
  aoStrSplit fuel (s ++ [0]) d = strSplitEnd (s ++ [0]) d fuel
    { outArr := [], slots := 5, memslot := 5, arrsize := 0, start := 0, «end» := 0,
      ptr := if c = d then 1 else 0 }
  := by
  rw [aoStrSplit, h]
  rfl

/-- What `aoStrSplit` gives when it looks at `body` and takes the characters `cs`. -/
theorem aoStrSplit_cases {s : List Byte} {c : Byte} (body cs rest : List Byte)
    (h : (s ++ [0])[0]? = some c) (hzero : 0 ∉ body) (hptr : (s ++ [0]).drop (if c = d then 1 else 0) = body ++ [0])
    (hcs : s ++ [0] = cs ++ rest) (hrest : rest ≠ []) (hlen : cs.length = body.length) :
  ((Fits d 0 body ∧ Small (pairSplit d (body.zip cs)))
      ∧ ∀ fuel > body.length, aoStrSplit fuel (s ++ [0]) d = some (pairSplit d (body.zip cs)))
    ∨ ¬(Fits d 0 body ∧ Small (pairSplit d (body.zip cs)))
      ∧ ∀ fuel > body.length, aoStrSplit fuel (s ++ [0]) d = none
  := by
  have hinv : StrSplitInv (s ++ [0]) body cs []
      { outArr := [], slots := 5, memslot := 5, arrsize := 0, start := 0, «end» := 0,
        ptr := if c = d then 1 else 0 } := by
    constructor
    case ptr => apply hptr
    case taken => use rest, hcs
    case lengths => apply hlen
    case piece => rfl
    case le => use Nat.le_refl _, Nat.zero_le _
    case size => use 1, rfl, by norm_num
    case room => simp
  have hnil : (pairSplit d (body.zip cs)).modifyHead (fun p => p) = pairSplit d (body.zip cs) := by
    cases pairSplit d (body.zip cs) <;> rfl
  have hend := fun fuel hfuel => strSplitEnd_eq (d := d) body cs [] _ fuel hzero hfuel hinv
  simp only [List.nil_append, hnil, ← aoStrSplit_eq h] at hend
  rcases em (Fits d 0 body ∧ Small (pairSplit d (body.zip cs))) with hcond | hcond
  · apply Or.inl
    use hcond
    intro fuel hfuel
    rcases hend fuel hfuel with ⟨-, -, hrun⟩ | ⟨hnot, -⟩
    · apply hrun
    · cases hnot hcond
  · apply Or.inr
    use hcond
    intro fuel hfuel
    rcases hend fuel hfuel with ⟨hfits, hsmall, -⟩ | ⟨-, hrun⟩
    · cases hcond ⟨hfits, hsmall⟩
    · apply hrun

/-- What `aoStrSplit` gives is the pieces, if it gives something. -/
theorem SplitsRight.of_cases {s : List Byte} {cond : Prop} {pieces : List (List Byte)} {m : Nat}
    (h : cond ∧ (∀ fuel > m, aoStrSplit fuel (s ++ [0]) d = some pieces)
      ∨ ¬cond ∧ ∀ fuel > m, aoStrSplit fuel (s ++ [0]) d = none) :
  SplitsRight s d ↔ cond ∧ (∀ p ∈ pieces, d ∉ p)
    ∧ ([d].intercalate pieces = s ∨ ∃ s', s = d :: s' ∧ [d].intercalate pieces = s')
  := by
  constructor
  · rintro ⟨pieces', ⟨n, hn⟩, hprop⟩
    have hrun := hn (max n (m + 1)) (Nat.le_max_left _ _)
    rcases h with ⟨hcond, h⟩ | ⟨-, h⟩
    · rw [h _ (Nat.le_max_right n (m + 1))] at hrun
      cases hrun
      use hcond
    · rw [h _ (Nat.le_max_right n (m + 1))] at hrun
      cases hrun
  · rintro ⟨hcond, hprop⟩
    rcases h with ⟨-, h⟩ | ⟨hnot, -⟩
    · use pieces, ⟨m + 1, h⟩
    · cases hnot hcond

/-- The result is right for a string that does not begin with the delimiter when none of its pieces is too
long and there are not too many. -/
theorem splitsRight_of_ne {s : List Byte} (hs : 0 ∉ s) (hd : (s ++ [0]).head? ≠ some d) :
  SplitsRight s d ↔ Fits d 0 s ∧ Small (s.splitOn d)
  := by
  obtain ⟨c, hc⟩ : ∃ c, (s ++ [0])[0]? = some c := by
    cases s <;> exact ⟨_, rfl⟩
  have hcd : c ≠ d := by
    rintro rfl
    rw [← List.head?_eq_getElem?] at hc
    apply hd hc
  have hcases := aoStrSplit_cases (d := d) s s [0] hc hs (by rw [if_neg hcd]; rfl) rfl (by simp) rfl
  have hjoin : [d].intercalate (pairSplit d (s.zip s)) = s := by
    rw [intercalate_pairSplit]
    apply List.ext_getElem
    · simp
    · intro i hi hi'
      simp
      intro h
      rw [h]
  rw [SplitsRight.of_cases hcases, hjoin, pairSplit_zip_self]
  constructor
  · apply And.left
  · intro h
    use h
    constructor
    · intro p hp hmem
      rw [← pairSplit_zip_self] at hp
      obtain ⟨b, hb, hne⟩ := (mem_pairSplit _).mp ⟨p, hp, hmem⟩
      apply hne
      obtain ⟨i, hi, hget⟩ := List.mem_iff_getElem.mp hb
      simp only [List.getElem_zip, Prod.mk.injEq] at hget
      rw [← hget.1, hget.2]
    · apply Or.inl rfl

/-- The result is right for a string that begins with the delimiter when it consists of delimiters, but
not too many. -/
theorem splitsRight_of_eq {s : List Byte} (hs : 0 ∉ d :: s) :
  SplitsRight (d :: s) d ↔ (∀ c ∈ s, c = d) ∧ Fits d 0 s
  := by
  have hzero : 0 ∉ s := fun h => hs (List.mem_cons_of_mem d h)
  have htake : d :: s ++ [0] = (d :: s).take s.length ++ ((d :: s).drop s.length ++ [0]) := by
    rw [← List.append_assoc, List.take_append_drop]
  have hcases := aoStrSplit_cases (d := d) (s := d :: s) s ((d :: s).take s.length)
    ((d :: s).drop s.length ++ [0]) rfl hzero (by rw [if_pos rfl]; rfl) htake (by simp) (by simp)
  have hzip : s.zip ((d :: s).take s.length) = s.zip (d :: s) := by
    apply List.ext_getElem
    · simp
    · intro i hi hi'
      simp
  rw [hzip] at hcases
  rw [SplitsRight.of_cases hcases]
  constructor
  · rintro ⟨⟨hfits, -⟩, hclean, -⟩
    constructor
    · apply forall_eq_of_shifted
      rintro ⟨b, c⟩ hmem hne rfl
      obtain ⟨p, hp, hc⟩ := (mem_pairSplit _).mpr ⟨b, hmem, hne⟩
      apply hclean p hp hc
    · apply hfits
  · rintro ⟨hall, hfits⟩
    have hfst : ∀ p ∈ s.zip (d :: s), p.1 = d := fun p hp => hall p.1 (List.of_mem_zip hp).1
    have hempty := pairSplit_of_forall hfst
    constructor
    · use hfits
      intro p hp
      rw [hempty p hp]
      norm_num
    · constructor
      · intro p hp
        rw [hempty p hp]
        apply List.not_mem_nil
      · apply Or.inr
        use s, rfl
        rw [intercalate_pairSplit]
        apply List.ext_getElem
        · simp
        · intro i hi hi'
          simp [hall _ (List.getElem_mem hi')]

/-- The room of the array, for the first character on. -/
theorem fits_zero (d : Byte) (body : List Byte) :
  Fits d 0 body ↔ body.dropLast.count d + 1 < 5 ^ 13
  := by
  rw [Fits]
  cases body with
  | nil => simp
  | cons b body => simp

/-- Behind the 0 of the empty string nothing can be read. -/
theorem not_splitsRight_nil : ¬SplitsRight [] 0
  := by
  rintro ⟨pieces, ⟨n, hn⟩, -⟩
  have hrun := hn (n + 1) (Nat.le_succ n)
  have hnone : aoStrSplit (n + 1) ([] ++ [0]) 0 = none := rfl
  rw [hnone] at hrun
  cases hrun

/-- The result is right exactly for the strings that do not begin with the delimiter (the 0 at the end of the
empty string counts) or consist of it, with fewer than 5 ^ 13 - 1 delimiters between the first and the last
character and no piece of 2 ^ 32 - 1 characters or more. -/
theorem aoStrSplit_splitsRight_iff (s : List Byte) (hs : 0 ∉ s) (d : Byte) :
  SplitsRight s d ↔ ((s ++ [0]).head? ≠ some d ∨ s ≠ [] ∧ ∀ c ∈ s, c = d)
    ∧ s.tail.dropLast.count d + 1 < 5 ^ 13 ∧ ∀ p ∈ s.splitOn d, p.length + 1 < 2 ^ 32
  := by
  rcases s with - | ⟨c, s⟩
  · rcases eq_or_ne 0 d with rfl | hd
    · constructor
      · intro h
        cases not_splitsRight_nil h
      · rintro ⟨h | h, -⟩
        · cases h rfl
        · cases h.1 rfl
    · have hhead : (([] : List Byte) ++ [0]).head? ≠ some d := fun h => hd (Option.some_inj.mp h)
      rw [splitsRight_of_ne hs hhead, fits_zero]
      constructor
      · rintro ⟨hfits, hsmall⟩
        use .inl hhead, hfits, hsmall
      · rintro ⟨-, hfits, hsmall⟩
        use hfits, hsmall
  · rcases eq_or_ne c d with rfl | hd
    · rw [splitsRight_of_eq hs, fits_zero, List.tail_cons]
      constructor
      · rintro ⟨hall, hfits⟩
        have hall' : ∀ e ∈ c :: s, e = c := List.forall_mem_cons.mpr ⟨rfl, hall⟩
        use .inr ⟨List.cons_ne_nil c s, hall'⟩, hfits
        rw [← pairSplit_zip_self]
        intro p hp
        rw [pairSplit_of_forall (fun p hp => hall' p.1 (List.of_mem_zip hp).1) p hp]
        norm_num
      · rintro ⟨h | ⟨-, hall⟩, hfits, -⟩
        · cases h rfl
        · use (List.forall_mem_cons.mp hall).2, hfits
    · have hhead : (c :: s ++ [0]).head? ≠ some d := fun h => hd (Option.some_inj.mp h)
      have hcount : (c :: s).dropLast.count d = s.dropLast.count d := by
        cases s with
        | nil => rfl
        | cons c' s => rw [List.dropLast_cons_cons, List.count_cons_of_ne hd]
      rw [splitsRight_of_ne hs hhead, fits_zero, hcount, List.tail_cons]
      constructor
      · rintro ⟨hfits, hsmall⟩
        use .inl hhead, hfits, hsmall
      · rintro ⟨-, hfits, hsmall⟩
        use hfits, hsmall

/-- `a,b` is split right at its comma. -/
theorem aoStrSplit_splitsRight_two : SplitsRight [0x61, 0x2C, 0x62] 0x2C
  := by
  apply (aoStrSplit_splitsRight_iff [0x61, 0x2C, 0x62] (by decide) 0x2C).mpr
  decide

/-- `,ab` is split at its comma into `,a`. -/
theorem not_aoStrSplit_splitsRight :
  (∀ fuel, aoStrSplit (fuel + 3) ([0x2C, 0x61, 0x62] ++ [0]) 0x2C = some [[0x2C, 0x61]])
    ∧ ¬SplitsRight [0x2C, 0x61, 0x62] 0x2C
  := by
  have hrun : ∀ fuel, aoStrSplit (fuel + 3) ([0x2C, 0x61, 0x62] ++ [0]) 0x2C
      = some [[0x2C, 0x61]] := by
    intro fuel
    rfl
  use hrun
  rintro ⟨pieces, ⟨n, hn⟩, hclean, -⟩
  have hpieces := hn (n + 3) (Nat.le_add_right n 3)
  rw [hrun n] at hpieces
  cases hpieces
  apply hclean [0x2C, 0x61] List.mem_cons_self List.mem_cons_self

end Polyc
