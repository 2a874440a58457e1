import Polyc.Lexer.TokenCursor

/-!
# What the token ring holds

The ring keeps the last sixteen tokens that the lexer gave, the ones that were taken among them
until they are written over.  Each operation is described by the place of the tail in the stream
and by how many tokens were loaded.  The loops that look for a token that is no comment are shown
to be cut off only where they never end.
-/

namespace Polyc.TokenStream

variable {τ : Type} {isComment : τ → Bool}

/-! ### Tokens and comments -/

/-- The tokens of two streams in a row. -/
theorem code_append (xs ys : List τ) :
  code isComment (xs ++ ys) = code isComment xs ++ code isComment ys
  := List.filter_append xs ys

/-- Comments alone are no tokens. -/
theorem code_eq_nil {ts : List τ} (h : ∀ t ∈ ts, isComment t = true) :
  code isComment ts = []
  := by
  apply List.filter_eq_nil_iff.2
  intro t ht
  simp [h t ht]

/-- Without comments all are tokens. -/
theorem code_eq_self {ts : List τ} (h : ∀ t ∈ ts, isComment t = false) :
  code isComment ts = ts
  := by
  apply List.filter_eq_self.2
  intro t ht
  simp [h t ht]

/-- The number of tokens among the first `n` of a stream. -/
def codeBefore (isComment : τ → Bool) (stream : List τ) (n : Nat) : Nat :=
  (code isComment (stream.take n)).length

/-- The number of tokens further on. -/
theorem codeBefore_add (stream : List τ) (n k : Nat) :
  codeBefore isComment stream (n + k)
    = codeBefore isComment stream n + (code isComment ((stream.drop n).take k)).length
  := by
  rw [codeBefore, List.take_add, code_append, List.length_append]
  rfl

/-- The number of tokens does not shrink. -/
theorem codeBefore_le (isComment : τ → Bool) (stream : List τ) {n m : Nat} (h : n ≤ m) :
  codeBefore isComment stream n ≤ codeBefore isComment stream m
  := by
  rw [← Nat.add_sub_cancel' h, codeBefore_add]
  apply Nat.le_add_right

/-- There are no more tokens than places. -/
theorem codeBefore_le_self (isComment : τ → Bool) (stream : List τ) (n : Nat) :
  codeBefore isComment stream n ≤ n
  := by
  apply Nat.le_trans (List.length_filter_le _ _)
  apply List.length_take_le

/-- The tokens of a stream, counted from a place in it. -/
theorem getElem?_code (stream : List τ) (n k : Nat) :
  (code isComment stream)[codeBefore isComment stream n + k]?
    = (code isComment (stream.drop n))[k]?
  := by
  have hsplit : code isComment stream
      = code isComment (stream.take n) ++ code isComment (stream.drop n) := by
    rw [← code_append, List.take_append_drop]
  rw [hsplit, codeBefore, List.getElem?_append_right (Nat.le_add_right _ _),
    Nat.add_sub_cancel_left]

/-- A token is found where it stands when no comment stands before it. -/
theorem getElem?_code_of_take {ts : List τ} {k : Nat}
    (h : ∀ t ∈ ts.take (k + 1), isComment t = false) :
  (code isComment ts)[k]? = ts[k]?
  := by
  rw [← List.take_append_drop (k + 1) ts, code_append, code_eq_self h]
  rcases Nat.lt_or_ge k ts.length with hk | hk
  · have hlt : k < (ts.take (k + 1)).length := by
      rw [List.length_take]
      omega
    rw [List.getElem?_append_left hlt, List.getElem?_append_left hlt]
  · rw [List.drop_eq_nil_of_le (Nat.le_succ_of_le hk)]
    rfl

/-- The first token after some comments. -/
theorem getElem?_code_of_comments {ts : List τ} {k : Nat} {t : τ}
    (h : ∀ t ∈ ts.take k, isComment t = true) (hk : ts[k]? = some t)
    (ht : isComment t = false) :
  (code isComment ts)[0]? = some t
  := by
  have hsplit : ts = ts.take k ++ t :: ts.drop (k + 1) := by
    obtain ⟨hlt, rfl⟩ := List.getElem?_eq_some_iff.1 hk
    rw [← List.drop_eq_getElem_cons hlt, List.take_append_drop]
  have hhead : code isComment (t :: ts.drop (k + 1)) = t :: code isComment (ts.drop (k + 1)) :=
    List.filter_cons_of_pos (by simp [ht])
  rw [hsplit, code_append, code_eq_nil h, List.nil_append, hhead]
  rfl

/-- Looking further ahead gives an entry. -/
theorem peekBy_eq {b : TokenRingBuffer τ} (hsize : b.size ≠ 0) (k : Nat) :
  tokenRingBufferPeekBy b k = entryAt b (k + 1)
  := by
  rw [tokenRingBufferPeekBy, if_neg hsize]
  rfl

/-! ### The ring in the stream -/

/-- The ring has the tokens of a stream from `r` to `loaded`, and the lexer gives the rest. -/
structure Cctrl.At (cc : Cctrl τ) (stream : List τ) (loaded r : Nat) : Prop where
  capacity : cc.tokenBuffer.capacity = 16
  length : cc.tokenBuffer.entries.length = 16
  tail : cc.tokenBuffer.tail = r % 16
  head : cc.tokenBuffer.head = loaded % 16
  size : r + cc.tokenBuffer.size = loaded
  fits : cc.tokenBuffer.size ≤ 16
  within : loaded ≤ stream.length
  lexer : cc.lexer = stream.drop loaded
  keeps : Ring.Keeps cc.tokenBuffer.entries none 16 (stream[·]?) loaded
  blank : ∀ j, loaded ≤ j → j < 16 → cc.tokenBuffer.entries.getD j none = none

namespace Cctrl.At

variable {cc : Cctrl τ} {stream : List τ} {loaded r : Nat}

/-- Nothing was loaded yet. -/
theorem new (stream : List τ) :
  At ⟨tokenRingBufferStaticNew, stream⟩ stream 0 0
  where
  capacity := rfl
  length := rfl
  tail := rfl
  head := rfl
  size := rfl
  fits := Nat.zero_le 16
  within := Nat.zero_le _
  lexer := rfl
  keeps := Ring.Keeps.zero _ _ _ _
  blank j _ hj := by
    change (List.replicate 16 none).getD j none = none
    rw [List.getD_replicate none hj]

/-- The place of an entry. -/
theorem index (h : cc.At stream loaded r) (offset : Nat) :
  (cc.tokenBuffer.tail + offset) &&& (cc.tokenBuffer.capacity - 1) = (r + offset) % 16
  := by
  rw [h.capacity, h.tail, ← Nat.mod_add_mod]
  apply Nat.and_two_pow_sub_one_eq_mod _ 4

/-- The tokens that the ring holds are those of the stream. -/
theorem entryAt_eq (h : cc.At stream loaded r) {k : Nat} (hk : k < cc.tokenBuffer.size) :
  entryAt cc.tokenBuffer k = stream[r + k]?
  := by
  have hsize := h.size
  have hfits := h.fits
  rw [entryAt, h.index]
  apply h.keeps <;> omega

/-- The token at the tail. -/
theorem peek_eq (h : cc.At stream loaded r) (hsize : cc.tokenBuffer.size ≠ 0) :
  tokenRingBufferPeek cc.tokenBuffer = stream[r]?
  := by
  have hentry := h.entryAt_eq (Nat.pos_of_ne_zero hsize)
  rw [entryAt, h.index, Nat.add_zero] at hentry
  rw [tokenRingBufferPeek, if_neg hsize, h.tail, hentry]

/-- What the ring holds. -/
theorem held_eq (h : cc.At stream loaded r) :
  held cc.tokenBuffer = ((stream.drop r).take cc.tokenBuffer.size).map some
  := by
  have hsize := h.size
  have hloaded := h.within
  apply List.ext_getElem?
  intro k
  rw [held, Ring.window, List.getElem?_map, List.getElem?_map, List.getElem?_take,
    List.getElem?_drop]
  rcases Nat.lt_or_ge k cc.tokenBuffer.size with hk | hk
  · have hlt : r + k < stream.length := by omega
    have hentry := h.entryAt_eq hk
    rw [entryAt, h.index] at hentry
    rw [List.getElem?_range hk, if_pos hk, Option.map_some, h.capacity, h.tail, Nat.mod_add_mod,
      hentry, List.getElem?_eq_getElem hlt]
    rfl
  · rw [if_neg (Nat.not_lt.2 hk), List.getElem?_eq_none (by rw [List.length_range]; apply hk)]
    rfl

/-- An entry that was never written is not among the tokens, and fewer than sixteen were
loaded. -/
theorem of_entryAt_eq_none (h : cc.At stream loaded r) {k : Nat}
    (hk : entryAt cc.tokenBuffer k = none) :
  cc.tokenBuffer.size ≤ k ∧ loaded < 16
  := by
  have hsize := h.size
  have hloaded := h.within
  constructor
  · by_contra hlt
    rw [h.entryAt_eq (Nat.lt_of_not_le hlt), List.getElem?_eq_none_iff] at hk
    omega
  · by_contra hfull
    -- the entry is the last one that was written at its place
    have hmod := Nat.mod_lt (r + k) (show 0 < 16 by omega)
    have hlast : (loaded - 1 - (loaded - 1 - (r + k) % 16) % 16) % 16 = (r + k) % 16 := by omega
    have hkeeps := h.keeps (loaded - 1 - (loaded - 1 - (r + k) % 16) % 16) (by omega) (by omega)
    rw [hlast] at hkeeps
    rw [entryAt, h.index, hkeeps, List.getElem?_eq_none_iff] at hk
    omega

/-- One token is loaded. -/
theorem push (h : cc.At stream loaded r) (hsize : cc.tokenBuffer.size < 16) {t : τ}
    (ht : stream[loaded]? = some t) :
  At ⟨tokenRingBufferPush cc.tokenBuffer t, stream.drop (loaded + 1)⟩ stream (loaded + 1) r
  := by
  have hne : cc.tokenBuffer.size ≠ cc.tokenBuffer.capacity := by
    rw [h.capacity]
    omega
  rw [tokenRingBufferPush, if_neg hne, h.capacity, tokenRingBufferGetIdx_eq, h.head]
  constructor
  case capacity => rfl
  case length =>
    change (List.set _ _ _).length = 16
    rw [List.length_set, h.length]
  case tail => apply h.tail
  case head =>
    change (loaded % 16 + 1) % 16 = _
    rw [Nat.mod_add_mod]
  case size =>
    change r + (cc.tokenBuffer.size + 1) = _
    rw [← h.size, Nat.add_assoc]
  case fits => apply hsize
  case within =>
    obtain ⟨hlt, -⟩ := List.getElem?_eq_some_iff.1 ht
    apply hlt
  case lexer => rfl
  case keeps =>
    have hset := h.keeps.set h.length (by omega)
    simp only [ht] at hset
    apply hset
  case blank =>
    intro j hj hlt
    change (List.set _ _ _).getD j none = none
    rw [List.getD_eq_getElem?_getD, List.getElem?_set_ne (by omega), ← List.getD_eq_getElem?_getD]
    apply h.blank j (Nat.le_of_succ_le hj) hlt

/-- Some tokens are loaded. -/
theorem load (n : Nat) (h : cc.At stream loaded r) (hsize : cc.tokenBuffer.size + n ≤ 16) :
  (cctrLoadNextTokens n cc).At stream (min (loaded + n) stream.length) r
  := by
  induction n generalizing cc loaded with
  | zero =>
    rw [Nat.add_zero, Nat.min_eq_left h.within]
    apply h
  | succ n ih =>
    have hloaded := h.within
    have hlexer := h.lexer
    rw [cctrLoadNextTokens]
    rcases Nat.lt_or_ge loaded stream.length with hlt | hge
    · rw [List.drop_eq_getElem_cons hlt] at hlexer
      rw [hlexer]
      have hpush := h.push (by omega) (List.getElem?_eq_getElem hlt)
      have hnext : (⟨tokenRingBufferPush cc.tokenBuffer stream[loaded],
          stream.drop (loaded + 1)⟩ : Cctrl τ).tokenBuffer.size + n ≤ 16 := by
        have hs := hpush.size
        have hs' := h.size
        omega
      have hrest := ih hpush hnext
      rw [Nat.add_right_comm] at hrest
      apply hrest
    · rw [List.drop_eq_nil_of_le hge] at hlexer
      rw [hlexer, Nat.min_eq_right (by omega), Nat.le_antisymm hge hloaded]
      apply h

/-- One token is taken. -/
theorem pop (h : cc.At stream loaded r) (hsize : cc.tokenBuffer.size ≠ 0) :
  At { cc with tokenBuffer := tokenRingBufferPop cc.tokenBuffer } stream loaded (r + 1)
  := by
  have hs := h.size
  have hf := h.fits
  rw [tokenRingBufferPop, if_neg hsize, h.capacity, tokenRingBufferGetIdx_eq, h.tail,
    Nat.mod_add_mod]
  constructor
  case capacity => rfl
  case length => apply h.length
  case tail => rfl
  case head => apply h.head
  case size =>
    change r + 1 + (cc.tokenBuffer.size - 1) = loaded
    omega
  case fits =>
    change cc.tokenBuffer.size - 1 ≤ 16
    omega
  case within => apply h.within
  case lexer => apply h.lexer
  case keeps => apply h.keeps
  case blank => apply h.blank

/-- The place before the tail. -/
theorem rewindIndex_eq (h : cc.At stream loaded (r + 1)) :
  rewindIndex cc.tokenBuffer.capacity cc.tokenBuffer.tail 1 = r % 16
  := by
  rw [h.capacity, h.tail, rewindIndex]
  omega

/-- A token that is no comment is gone back to at once. -/
theorem rewind_eq (isComment : τ → Bool) (h : cc.At stream loaded (r + 1))
    (hcode : (cc.tokenBuffer.entries.getD (r % 16) none).any isComment = false) :
  cctrlTokenRewind isComment cc = some { cc with tokenBuffer :=
    { cc.tokenBuffer with tail := r % 16, size := cc.tokenBuffer.size + 1 } }
  := by
  have hturns : rewindTurns cc.tokenBuffer = 31 + 1 := by rw [rewindTurns, h.capacity]
  rw [cctrlTokenRewind, tokenRingBufferRewind, hturns, rewindLoop, h.rewindIndex_eq, hcode]
  rfl

/-- One token is given back. -/
theorem back (h : cc.At stream loaded (r + 1)) (hsize : cc.tokenBuffer.size < 16) :
  At { cc with tokenBuffer :=
    { cc.tokenBuffer with tail := r % 16, size := cc.tokenBuffer.size + 1 } } stream loaded r
  where
  capacity := h.capacity
  length := h.length
  tail := rfl
  head := h.head
  size := by
    have hs := h.size
    change r + (cc.tokenBuffer.size + 1) = loaded
    omega
  fits := hsize
  within := h.within
  lexer := h.lexer
  keeps := h.keeps
  blank := h.blank

end Cctrl.At

/-! ### The next token -/

/-- What the loop of `cctrlTokenGet` does: it takes comments and the first token after them, or
comments alone. -/
theorem getLoop_spec (isComment : τ → Bool) {stream : List τ} {loaded : Nat} (n : Nat)
    {cc : Cctrl τ} {r : Nat} (h : cc.At stream loaded r) (hn : cc.tokenBuffer.size = n) :
  (∃ k t cc', k < n ∧ (∀ t ∈ (stream.drop r).take k, isComment t = true) ∧
      stream[r + k]? = some t ∧ isComment t = false ∧ cc'.At stream loaded (r + k + 1) ∧
      getLoop isComment n cc = (some t, cctrlRefill cc')) ∨
    ((∀ t ∈ (stream.drop r).take n, isComment t = true) ∧
      ∃ cc', cc'.At stream loaded loaded ∧ cc'.lexer = cc.lexer ∧
        getLoop isComment n cc = (none, cc'))
  := by
  have hsize := h.size
  induction n generalizing cc r with
  | zero =>
    right
    rw [hn, Nat.add_zero] at hsize
    subst hsize
    constructor
    · intro t ht
      cases ht
    · use cc
      apply And.intro h (And.intro rfl rfl)
  | succ n ih =>
    have hne : cc.tokenBuffer.size ≠ 0 := by omega
    have hlt : r < stream.length := by
      have := h.within
      omega
    have hpeek := h.peek_eq hne
    have hpop := h.pop hne
    have hget := List.getElem?_eq_getElem hlt
    rw [hget] at hpeek
    rw [getLoop, hpeek, List.drop_eq_getElem_cons hlt]
    cases hcomment : isComment stream[r] with
    | false =>
      left
      use 0, stream[r], { cc with tokenBuffer := tokenRingBufferPop cc.tokenBuffer }
      apply And.intro (Nat.succ_pos n)
      constructor
      · intro t ht
        cases ht
      · simp only [hcomment]
        apply And.intro hget (And.intro trivial (And.intro hpop rfl))
    | true =>
      have hnext := hpop.size
      rcases ih hpop (by omega) hnext with
        ⟨k, t, cc', hk, hbefore, ht, hcode, hat, heq⟩ | ⟨hbefore, cc', hat, hlexer, heq⟩
      · left
        use k + 1, t, cc'
        have hplace : r + 1 + k = r + (k + 1) := by omega
        rw [hplace] at ht hat
        apply And.intro (Nat.succ_lt_succ hk)
        constructor
        · rw [List.take_succ_cons, List.forall_mem_cons]
          apply And.intro hcomment hbefore
        · simp only [hcomment, if_true]
          apply And.intro ht (And.intro hcode (And.intro hat heq))
      · right
        constructor
        · rw [List.take_succ_cons, List.forall_mem_cons]
          apply And.intro hcomment hbefore
        · use cc'
          simp only [hcomment, if_true]
          apply And.intro hat (And.intro hlexer heq)

/-- The load of `cctrlTokenGet` leaves three tokens or has the end of the stream. -/
theorem refill_spec {stream : List τ} {loaded r : Nat} {cc : Cctrl τ}
    (h : cc.At stream loaded r) :
  ∃ loaded', (cctrlRefill cc).At stream loaded' r ∧ loaded ≤ loaded' ∧
    (loaded' ≤ loaded ∨ loaded' ≤ r + 7) ∧
    (3 ≤ (cctrlRefill cc).tokenBuffer.size ∨ (cctrlRefill cc).lexer = [])
  := by
  have hsize := h.size
  have hwithin := h.within
  rw [cctrlRefill]
  split
  case isTrue hfew =>
    have hload := h.load 5 (by omega)
    have hsize' := hload.size
    have hlexer := hload.lexer
    use min (loaded + 5) stream.length
    refine ⟨hload, by omega, by omega, ?_⟩
    rcases Nat.le_total (loaded + 5) stream.length with hle | hge
    · left
      omega
    · right
      rw [hlexer]
      apply List.drop_eq_nil_of_le
      omega
  case isFalse hmany =>
    use loaded
    apply And.intro h (And.intro (Nat.le_refl _) (And.intro (Or.inl (Nat.le_refl _)) (Or.inl _)))
    omega

/-! ### Loops that do not end -/

/-- The look ahead goes on as long as it finds comments. -/
theorem peekLoop_eq_none_iff {b : TokenRingBuffer τ} (hsize : b.size ≠ 0) (fuel j : Nat) :
  peekLoop isComment b fuel j (entryAt b j) = none ↔
    ∀ i < fuel, (entryAt b (j + i)).any isComment = true
  := by
  induction fuel generalizing j with
  | zero => simp [peekLoop]
  | succ fuel ih =>
    rw [Nat.forall_lt_succ_left, Nat.add_zero]
    cases hentry : entryAt b j with
    | none => simp [peekLoop]
    | some t =>
      rw [peekLoop, peekBy_eq hsize, Option.any_some]
      simp only [← Nat.add_assoc, Nat.add_right_comm j _ 1]
      split
      case isTrue hcomment =>
        rw [ih, hcomment]
        simp
      case isFalse hcode => simp [hcode]

/-- The entries come again after sixteen places. -/
theorem entryAt_mod {b : TokenRingBuffer τ} (hcapacity : b.capacity = 16) (k : Nat) :
  entryAt b (k % 16) = entryAt b k
  := by
  have hmask : ∀ n, n &&& (16 - 1) = n % 16 := fun n => Nat.and_two_pow_sub_one_eq_mod n 4
  rw [entryAt, entryAt, hcapacity, hmask, hmask, Nat.add_mod_mod]

/-- A look ahead that is cut off after all entries never ends. -/
theorem peekLoop_endless {b : TokenRingBuffer τ} (hcapacity : b.capacity = 16)
    (hsize : b.size ≠ 0)
    (h : peekLoop isComment b (b.capacity + 1) 0 (entryAt b 0) = none) (fuel : Nat) :
  peekLoop isComment b fuel 0 (entryAt b 0) = none
  := by
  rw [peekLoop_eq_none_iff hsize, hcapacity] at h
  rw [peekLoop_eq_none_iff hsize]
  intro i _
  rw [← entryAt_mod hcapacity, Nat.zero_add]
  have hentry := h (i % 16) (by omega)
  rwa [Nat.zero_add] at hentry

/-- The places that the loop of `tokenRingBufferRewind` goes to. -/
def rewindPlace (tail offset : Nat) : Nat → Nat
  | 0 => rewindIndex 16 tail offset
  | i + 1 => rewindPlace (rewindIndex 16 tail offset) (offset + 1) i

/-- The way back goes on as long as it finds comments. -/
theorem rewindLoop_eq_none_iff {b : TokenRingBuffer τ} (hcapacity : b.capacity = 16)
    (fuel tail offset : Nat) :
  rewindLoop isComment b fuel tail offset = none ↔
    ∀ i < fuel, (b.entries.getD (rewindPlace tail offset i) none).any isComment = true
  := by
  induction fuel generalizing tail offset with
  | zero => simp [rewindLoop]
  | succ fuel ih =>
    rw [Nat.forall_lt_succ_left, rewindLoop, hcapacity]
    simp only [rewindPlace]
    split
    case isTrue hcomment =>
      rw [ih, hcomment]
      simp
    case isFalse hcode =>
      constructor
      · intro hsome
        cases hsome
      · intro hall
        cases hcode hall.1

/-- Only the place round the ring and the offset up to the capacity matter. -/
theorem rewindIndex_mod (tail offset : Nat) :
  rewindIndex 16 tail (offset % 16) = rewindIndex 16 tail offset
  := by
  rw [rewindIndex, rewindIndex]
  omega

/-- The places depend on the offset up to the capacity. -/
theorem rewindPlace_congr {offset offset' : Nat} (h : offset % 16 = offset' % 16) (tail i : Nat) :
  rewindPlace tail offset i = rewindPlace tail offset' i
  := by
  have hindex : rewindIndex 16 tail offset = rewindIndex 16 tail offset' := by
    rw [← rewindIndex_mod, h, rewindIndex_mod]
  induction i generalizing tail offset offset' with
  | zero => apply hindex
  | succ i ih =>
    have hnext : (offset + 1) % 16 = (offset' + 1) % 16 := by omega
    rw [rewindPlace, rewindPlace, hindex]
    apply ih hnext
    rw [← rewindIndex_mod, hnext, rewindIndex_mod]

/-- The places that come after some turns. -/
theorem rewindPlace_add (tail offset n i : Nat) :
  rewindPlace tail offset (n + 1 + i) = rewindPlace (rewindPlace tail offset n) (offset + n + 1) i
  := by
  induction n generalizing tail offset with
  | zero => rw [Nat.zero_add, Nat.add_comm, rewindPlace, rewindPlace, Nat.add_zero]
  | succ n ih =>
    rw [Nat.add_right_comm, rewindPlace, rewindPlace, ih, Nat.add_right_comm offset 1 n,
      Nat.add_assoc offset n 1]

/-- After as many turns the way back is where it was. -/
theorem rewindPlace_add_turns {tail : Nat} (htail : tail < 16) (offset i : Nat) :
  rewindPlace tail offset (32 + i) = rewindPlace tail offset i
  := by
  have hround : ∀ t < 16, ∀ o < 16, rewindPlace t o 31 = t := by decide +kernel
  have hback : rewindPlace tail offset 31 = tail := by
    rw [rewindPlace_congr (Nat.mod_mod offset 16).symm]
    apply hround tail htail
    apply Nat.mod_lt _ (by omega)
  rw [show 32 + i = 31 + 1 + i from rfl, rewindPlace_add, hback]
  apply rewindPlace_congr
  omega

/-- A way back that is cut off never ends. -/
theorem rewindLoop_endless {b : TokenRingBuffer τ} (hcapacity : b.capacity = 16)
    (htail : b.tail < 16) (h : rewindLoop isComment b (rewindTurns b) b.tail 1 = none)
    (fuel : Nat) :
  rewindLoop isComment b fuel b.tail 1 = none
  := by
  rw [rewindLoop_eq_none_iff hcapacity, rewindTurns, hcapacity] at h
  rw [rewindLoop_eq_none_iff hcapacity]
  have hall : ∀ i, (b.entries.getD (rewindPlace b.tail 1 i) none).any isComment = true := by
    intro i
    induction i using Nat.strong_induction_on with
    | _ i ih =>
      rcases Nat.lt_or_ge i 32 with hlt | hge
      · apply h i hlt
      · rw [← Nat.add_sub_cancel' hge, rewindPlace_add_turns htail]
        apply ih
        omega
  intro i _
  apply hall

end Polyc.TokenStream
