import Polyc.Lexer.TokenCursorRing

/-!
# The token ring moves as a cursor

Where no comment is in the way, and no look goes beyond what was loaded, the calls of the parser
act as on the list of the tokens that are no comments.  The invariant says where the tail is in
the stream and where its furthest place was, and that the tokens between the two are no comments,
so that eight steps back stay within what the ring keeps.
-/

namespace Polyc.TokenStream

variable {τ : Type} {isComment : τ → Bool}

/-! ### The invariant -/

/-- The ring stands where the cursor does: `r` is the place of the tail in the stream and `R` the
furthest one it had. -/
structure Follows (isComment : τ → Bool) (stream : List τ) (cc : Cctrl τ) (c : Cursor)
    (loaded r R : Nat) : Prop where
  holds : cc.At stream loaded r
  near : r ≤ R
  reached : R ≤ loaded
  between : ∀ j, r ≤ j → j < R → ∀ t, stream[j]? = some t → isComment t = false
  ahead : loaded ≤ 16 ∨ loaded ≤ R + 7
  enough : 3 ≤ cc.tokenBuffer.size ∨ ∀ t ∈ cc.lexer, isComment t = true
  whole : loaded < 16 → loaded = stream.length
  position : c.position = codeBefore isComment stream r
  furthest : c.furthest = codeBefore isComment stream R

/-- The first load. -/
theorem Follows.init (isComment : τ → Bool) (stream : List τ) :
  Follows isComment stream (cctrlInitParse stream) .start (min 16 stream.length) 0 0
  := by
  have hload := (Cctrl.At.new stream).load 16 (Nat.le_refl 16)
  rw [Nat.zero_add] at hload
  have hsize := hload.size
  constructor
  case holds => apply hload
  case near => apply Nat.le_refl
  case reached => apply Nat.zero_le
  case between =>
    intro j _ hj
    cases hj
  case ahead => omega
  case enough =>
    rcases Nat.lt_or_ge 16 stream.length with hlong | hshort
    · left
      change 3 ≤ (cctrLoadNextTokens 16 _).tokenBuffer.size
      omega
    · right
      intro t ht
      have hlexer := hload.lexer
      rw [Nat.min_eq_right hshort, List.drop_length] at hlexer
      change t ∈ (cctrLoadNextTokens 16 _).lexer at ht
      rw [hlexer] at ht
      cases ht
  case whole => omega
  case position => rfl
  case furthest => rfl

namespace Follows

variable {stream : List τ} {cc : Cctrl τ} {c : Cursor} {loaded r R : Nat}

/-- What the ring holds and what the lexer gives are the rest of the stream. -/
theorem drop_eq (h : cc.At stream loaded r) :
  stream.drop r = (stream.drop r).take cc.tokenBuffer.size ++ cc.lexer
  := by
  rw [h.lexer, ← h.size, ← List.drop_drop, List.take_append_drop]

/-- A token that is no comment is among those that are held. -/
theorem any_held (h : cc.At stream loaded r) :
  (held cc.tokenBuffer).any (isCode isComment) = false ↔
    ∀ t ∈ (stream.drop r).take cc.tokenBuffer.size, isComment t = true
  := by
  rw [h.held_eq, List.any_map, List.any_eq_false]
  apply forall₂_congr
  intro t _
  simp [isCode]

/-- When the lexer gives no token any more and all that is held are comments, the position is at
the end. -/
theorem code_drop_eq_nil (h : cc.At stream loaded r)
    (hheld : ∀ t ∈ (stream.drop r).take cc.tokenBuffer.size, isComment t = true)
    (hlexer : ∀ t ∈ cc.lexer, isComment t = true) :
  code isComment (stream.drop r) = []
  := by
  rw [drop_eq h, code_append, code_eq_nil hheld, code_eq_nil hlexer, List.append_nil]

/-- When fewer than sixteen tokens were loaded, the lexer gives no more. -/
theorem lexer_eq_nil (h : Follows isComment stream cc c loaded r R) (hloaded : loaded < 16) :
  cc.lexer = []
  := by
  rw [h.holds.lexer, h.whole hloaded, List.drop_length]

/-- An empty ring is at the end. -/
theorem code_drop_of_empty (h : Follows isComment stream cc c loaded r R)
    (hsize : cc.tokenBuffer.size = 0) :
  code isComment (stream.drop r) = []
  := by
  rcases h.enough with hmany | hlexer
  · omega
  · apply code_drop_eq_nil h.holds _ hlexer
    intro t ht
    rw [hsize] at ht
    cases ht

/-- The token at the position. -/
theorem token_eq (h : Follows isComment stream cc c loaded r R) (k : Nat) :
  (code isComment stream)[c.position + k]? = (code isComment (stream.drop r))[k]?
  := by
  rw [h.position, getElem?_code]

/-- Past some comments and a token the position is one further. -/
theorem codeBefore_succ {k : Nat} {t : τ}
    (hbefore : ∀ t ∈ (stream.drop r).take k, isComment t = true) (ht : stream[r + k]? = some t)
    (hcode : isComment t = false) :
  codeBefore isComment stream (r + k + 1) = codeBefore isComment stream r + 1
  := by
  have hnext : (stream.drop (r + k)).take 1 = [t] := by
    obtain ⟨hlt, rfl⟩ := List.getElem?_eq_some_iff.1 ht
    rw [List.drop_eq_getElem_cons hlt]
    rfl
  have hone : code isComment [t] = [t] := List.filter_cons_of_pos (by simp [hcode])
  rw [codeBefore_add, codeBefore_add, code_eq_nil hbefore, hnext, hone]
  rfl

/-- A token is taken: the tail passes the comments before it and the token. -/
theorem get_token {k : Nat} {t : τ} {cc' : Cctrl τ}
    (h : Follows isComment stream cc c loaded r R)
    (hbefore : ∀ t ∈ (stream.drop r).take k, isComment t = true) (ht : stream[r + k]? = some t)
    (hcode : isComment t = false) (hat : cc'.At stream loaded (r + k + 1)) :
  (code isComment stream)[c.position]? = some t ∧
    ∃ loaded' r' R', Follows isComment stream (cctrlRefill cc')
      (c.step (code isComment stream) .get).2 loaded' r' R'
  := by
  have htoken : (code isComment stream)[c.position]? = some t := by
    have hdrop : (stream.drop r)[k]? = some t := by rw [List.getElem?_drop, ht]
    rw [← Nat.add_zero c.position, h.token_eq, getElem?_code_of_comments hbefore hdrop hcode]
  constructor
  · apply htoken
  · obtain ⟨loaded', hrefill, hle, hahead, henough⟩ := refill_spec hat
    obtain ⟨hlt, -⟩ := List.getElem?_eq_some_iff.1 htoken
    have hnear := h.near
    have hreached := h.reached
    have hsucc := codeBefore_succ hbefore ht hcode
    have hfar := codeBefore_le isComment stream (Nat.le_max_left R (r + k + 1))
    have hsize := hat.size
    rw [Cursor.step, if_pos hlt]
    use loaded', r + k + 1, max R (r + k + 1)
    constructor
    case holds => apply hrefill
    case near => apply Nat.le_max_right
    case reached => omega
    case between =>
      intro j hj hlt
      apply h.between j <;> omega
    case ahead =>
      have := h.ahead
      omega
    case enough =>
      apply henough.imp_right
      intro hnil t ht
      rw [hnil] at ht
      cases ht
    case whole =>
      have := h.whole
      have := hrefill.within
      omega
    case position => rw [hsucc, ← h.position]
    case furthest =>
      change max c.furthest (c.position + 1) = _
      rw [h.furthest, h.position, ← hsucc]
      rcases Nat.le_total R (r + k + 1) with hle | hge
      · rw [Nat.max_eq_right hle, Nat.max_eq_right (codeBefore_le isComment stream hle)]
      · rw [Nat.max_eq_left hge, Nat.max_eq_left (codeBefore_le isComment stream hge)]

/-- No token is left: the tail passes all comments. -/
theorem get_end {cc' : Cctrl τ} (h : Follows isComment stream cc c loaded r R)
    (hheld : ∀ t ∈ (stream.drop r).take cc.tokenBuffer.size, isComment t = true)
    (hlexer : ∀ t ∈ cc.lexer, isComment t = true) (hat : cc'.At stream loaded loaded)
    (hsame : cc'.lexer = cc.lexer) :
  (code isComment stream)[c.position]? = none ∧
    Follows isComment stream cc' (c.step (code isComment stream) .get).2 loaded loaded loaded
  := by
  have htoken : (code isComment stream)[c.position]? = none := by
    rw [← Nat.add_zero c.position, h.token_eq, code_drop_eq_nil h.holds hheld hlexer]
    rfl
  have hcount : codeBefore isComment stream loaded = codeBefore isComment stream r := by
    rw [← h.holds.size, codeBefore_add, code_eq_nil hheld]
    rfl
  constructor
  · apply htoken
  · rw [Cursor.step, if_neg (Nat.not_lt.2 (List.getElem?_eq_none_iff.1 htoken))]
    constructor
    case holds => apply hat
    case near => apply Nat.le_refl
    case reached => apply Nat.le_refl
    case between =>
      intro j hj hlt
      omega
    case ahead => omega
    case enough =>
      right
      rw [hsame]
      apply hlexer
    case whole => apply h.whole
    case position => rw [hcount, h.position]
    case furthest =>
      have hnear := codeBefore_le isComment stream h.near
      have hreached := codeBefore_le isComment stream h.reached
      rw [h.furthest]
      omega

/-- `cctrlTokenGet` gives the token at the position and goes one on. -/
theorem get (h : Follows isComment stream cc c loaded r R)
    (hclear : Call.clear isComment cc .get = true) :
  ∃ cc' loaded' r' R', cctrlTokenGet isComment cc
      = ((c.step (code isComment stream) .get).1, cc') ∧
    Follows isComment stream cc' (c.step (code isComment stream) .get).2 loaded' r' R'
  := by
  rcases getLoop_spec isComment cc.tokenBuffer.size h.holds rfl with
    ⟨k, t, cc', hk, hbefore, ht, hcode, hat, heq⟩ | ⟨hheld, cc', hat, hsame, heq⟩
  · obtain ⟨htoken, loaded', r', R', hnext⟩ := h.get_token hbefore ht hcode hat
    use cctrlRefill cc', loaded', r', R'
    constructor
    · rw [cctrlTokenGet, heq, Cursor.step, htoken]
    · apply hnext
  · have hlexer : ∀ t ∈ cc.lexer, isComment t = true := by
      rw [Call.clear, (any_held h.holds).2 hheld, Bool.false_or, List.all_eq_true] at hclear
      apply hclear
    obtain ⟨htoken, hnext⟩ := h.get_end hheld hlexer hat hsame
    use cc', loaded, loaded, loaded
    constructor
    · rw [cctrlTokenGet, heq, Cursor.step, htoken]
    · apply hnext

/-- A look ahead passes the comments before the token it gives. -/
theorem peekLoop_eq {b : TokenRingBuffer τ} (hsize : b.size ≠ 0) {fuel j k : Nat} (hj : j ≤ k)
    (hfuel : k < j + fuel)
    (hbefore : ∀ i, j ≤ i → i < k → ∃ t, entryAt b i = some t ∧ isComment t = true)
    (hlast : isCode isComment (entryAt b k) = true) :
  peekLoop isComment b fuel j (entryAt b j) = some (entryAt b k)
  := by
  induction fuel generalizing j with
  | zero => omega
  | succ fuel ih =>
    rcases Nat.eq_or_lt_of_le hj with rfl | hlt
    · cases hentry : entryAt b j with
      | none => rfl
      | some t =>
        rw [hentry] at hlast
        have hcode : isComment t = false := by simpa [isCode] using hlast
        simp [peekLoop, hcode]
    · obtain ⟨t, ht, hcomment⟩ := hbefore j (Nat.le_refl j) hlt
      rw [ht, peekLoop, if_pos hcomment, peekBy_eq hsize]
      apply ih hlt (by omega)
      intro i hi
      apply hbefore i (Nat.le_of_succ_le hi)

/-- The entries that stand before place `k` of the ring are comments when the tokens are. -/
theorem entries_comments (h : cc.At stream loaded r) {k : Nat} (hk : k ≤ cc.tokenBuffer.size)
    (hbefore : ∀ t ∈ (stream.drop r).take k, isComment t = true) {i : Nat} (hi : i < k) :
  ∃ t, entryAt cc.tokenBuffer i = some t ∧ isComment t = true
  := by
  have hsize := h.size
  have hwithin := h.within
  have hlt : r + i < stream.length := by omega
  use stream[r + i]
  constructor
  · rw [h.entryAt_eq (by omega), List.getElem?_eq_getElem hlt]
  · apply hbefore
    apply List.mem_of_getElem? (i := i)
    rw [List.getElem?_take, if_pos hi, List.getElem?_drop, List.getElem?_eq_getElem hlt]

/-- Looking at the tail is looking no place further. -/
theorem peek_eq_entryAt (h : cc.At stream loaded r) (hsize : cc.tokenBuffer.size ≠ 0) :
  tokenRingBufferPeek cc.tokenBuffer = entryAt cc.tokenBuffer 0
  := by
  rw [h.peek_eq hsize, h.entryAt_eq (Nat.pos_of_ne_zero hsize)]
  rfl

/-- `cctrlTokenPeek` gives the token at the position. -/
theorem peek (h : Follows isComment stream cc c loaded r R)
    (hclear : Call.clear isComment cc .peek = true) :
  cctrlTokenPeek isComment cc = some (code isComment stream)[c.position]?
  := by
  have hfits := h.holds.fits
  have htoken := h.token_eq 0
  rw [Nat.add_zero] at htoken
  rw [cctrlTokenPeek, h.holds.capacity, htoken]
  rcases Nat.eq_zero_or_pos cc.tokenBuffer.size with hempty | hpos
  · rw [h.code_drop_of_empty hempty, tokenRingBufferPeek, if_pos hempty]
    rfl
  have hsize := Nat.ne_of_gt hpos
  rw [peek_eq_entryAt h.holds hsize]
  rcases getLoop_spec isComment cc.tokenBuffer.size h.holds rfl with
    ⟨k, t, -, hk, hbefore, ht, hcode, -, -⟩ | ⟨hheld, -⟩
  · have hdrop : (stream.drop r)[k]? = some t := by rw [List.getElem?_drop, ht]
    have hentry := h.holds.entryAt_eq hk
    rw [ht] at hentry
    rw [getElem?_code_of_comments hbefore hdrop hcode, ← hentry]
    apply peekLoop_eq hsize (Nat.zero_le k) (by omega)
    · intro i _ hi
      apply entries_comments h.holds (Nat.le_of_lt hk) hbefore hi
    · rw [hentry]
      simp [isCode, hcode]
  · have hblank : entryAt cc.tokenBuffer cc.tokenBuffer.size = none := by
      rw [Call.clear, (any_held h.holds).2 hheld] at hclear
      simpa [hsize] using hclear
    obtain ⟨-, hloaded⟩ := h.holds.of_entryAt_eq_none hblank
    have hnil := h.lexer_eq_nil hloaded
    have hend : code isComment (stream.drop r) = [] := by
      apply code_drop_eq_nil h.holds hheld
      rw [hnil]
      intro t ht
      cases ht
    rw [hend, List.getElem?_nil, ← hblank]
    apply peekLoop_eq hsize (Nat.zero_le _) (by omega)
    · intro i _ hi
      apply entries_comments h.holds (Nat.le_refl _) hheld hi
    · rw [hblank]
      rfl

/-- `cctrlTokenPeekBy` gives the token that stands so far after the position. -/
theorem peekBy {cnt : Nat} (h : Follows isComment stream cc c loaded r R)
    (hallows : c.allows (.peekBy cnt) = true)
    (hclear : Call.clear isComment cc (.peekBy cnt) = true) :
  cctrlTokenPeekBy cc cnt = some (code isComment stream)[c.position + cnt]?
  := by
  have hpos : 0 < cnt := by simpa [Cursor.allows] using hallows
  rw [cctrlTokenPeekBy, if_pos hpos, h.token_eq]
  rcases Nat.eq_zero_or_pos cc.tokenBuffer.size with hempty | hsize
  · rw [h.code_drop_of_empty hempty, tokenRingBufferPeekBy, if_pos hempty]
    rfl
  rw [peekBy_eq (Nat.ne_of_gt hsize), Nat.sub_add_cancel hpos]
  simp only [Call.clear, Bool.or_eq_true, Bool.and_eq_true, decide_eq_true_eq, h.holds.held_eq,
    Option.isNone_iff_eq_none] at hclear
  rcases hclear with (⟨hlt, hall⟩ | hempty) | hblank
  · have hcode : ∀ t ∈ (stream.drop r).take (cnt + 1), isComment t = false := by
      rw [← List.map_take, List.take_take, Nat.min_eq_left hlt, List.all_map,
        List.all_eq_true] at hall
      intro t ht
      simpa [isCode] using hall t ht
    rw [getElem?_code_of_take hcode, List.getElem?_drop, h.holds.entryAt_eq hlt]
  · omega
  · obtain ⟨hle, hloaded⟩ := h.holds.of_entryAt_eq_none hblank
    have hnil := h.lexer_eq_nil hloaded
    have hlength : (code isComment (stream.drop r)).length ≤ cnt := by
      apply Nat.le_trans (List.length_filter_le _ _)
      rw [drop_eq h.holds, hnil, List.append_nil]
      apply Nat.le_trans (List.length_take_le _ _) hle
    rw [hblank, List.getElem?_eq_none hlength]

/-- Between two places without comments there are as many tokens. -/
theorem codeBefore_between (hnear : r ≤ R) (hR : R ≤ stream.length)
    (hbetween : ∀ j, r ≤ j → j < R → ∀ t, stream[j]? = some t → isComment t = false) :
  codeBefore isComment stream R = codeBefore isComment stream r + (R - r)
  := by
  have hcode : ∀ t ∈ (stream.drop r).take (R - r), isComment t = false := by
    intro t ht
    obtain ⟨i, hi, rfl⟩ := List.mem_take_iff_getElem.1 ht
    rw [List.length_drop] at hi
    rw [List.getElem_drop]
    apply hbetween (r + i) (by omega) (by omega)
    apply List.getElem?_eq_getElem
  rw [← Nat.add_sub_cancel' hnear, codeBefore_add, code_eq_self hcode, List.length_take,
    List.length_drop]
  omega

/-- The token before the tail is still there, and there is room for it. -/
theorem kept_before (h : Follows isComment stream cc c loaded (r + 1) R)
    (hback : c.furthest ≤ c.position - 1 + 8) :
  cc.tokenBuffer.entries.getD (r % 16) none = stream[r]? ∧ cc.tokenBuffer.size < 16
  := by
  have hsize := h.holds.size
  have hwithin := h.holds.within
  have hnear := h.near
  have hreached := h.reached
  have hahead := h.ahead
  have hcount := codeBefore_between h.near (by omega) h.between
  rw [← h.furthest, ← h.position] at hcount
  constructor
  · apply h.holds.keeps r <;> omega
  · omega

/-- `cctrlTokenRewind` goes back to the token before. -/
theorem rewind (h : Follows isComment stream cc c loaded r R)
    (hallows : c.allows .rewind = true) (hclear : Call.clear isComment cc .rewind = true) :
  ∃ cc' r', cctrlTokenRewind isComment cc = some cc' ∧
    Follows isComment stream cc' (c.step (code isComment stream) .rewind).2 loaded r' R
  := by
  simp only [Cursor.allows, Bool.and_eq_true, decide_eq_true_eq] at hallows
  obtain ⟨hpos, hback⟩ := hallows
  have hposition := h.position
  have hle := codeBefore_le_self isComment stream r
  obtain ⟨r, rfl⟩ : ∃ r', r = r' + 1 := ⟨r - 1, by omega⟩
  obtain ⟨hkept, hfew⟩ := h.kept_before hback
  have hsize := h.holds.size
  have hwithin := h.holds.within
  have hlt : r < stream.length := by omega
  have hget := List.getElem?_eq_getElem hlt
  have hcode : isComment stream[r] = false := by
    rw [Call.clear, h.holds.rewindIndex_eq, hkept, hget] at hclear
    simpa [isCode] using hclear
  have hone : codeBefore isComment stream (r + 1) = codeBefore isComment stream r + 1 := by
    apply codeBefore_succ (k := 0) _ hget hcode
    intro t ht
    cases ht
  have hrewind := h.holds.rewind_eq isComment (by
    rw [hkept, hget, Option.any_some, hcode])
  refine ⟨_, r, hrewind, ?_⟩
  constructor
  case holds => apply h.holds.back hfew
  case near => apply Nat.le_of_succ_le h.near
  case reached => apply h.reached
  case between =>
    intro j hj hjR t ht
    rcases Nat.eq_or_lt_of_le hj with rfl | hgt
    · rw [hget] at ht
      cases ht
      apply hcode
    · apply h.between j hgt hjR t ht
  case ahead => apply h.ahead
  case enough =>
    apply h.enough.imp_left
    intro hmany
    apply Nat.le_succ_of_le hmany
  case whole => apply h.whole
  case position =>
    change c.position - 1 = _
    omega
  case furthest => apply h.furthest

/-- Each call that is allowed and clear acts as on the cursor. -/
theorem step {call : Call} (h : Follows isComment stream cc c loaded r R)
    (hallows : c.allows call = true) (hclear : call.clear isComment cc = true) :
  ∃ cc' loaded' r' R', call.step isComment cc
      = some ((c.step (code isComment stream) call).1, cc') ∧
    Follows isComment stream cc' (c.step (code isComment stream) call).2 loaded' r' R'
  := by
  cases call with
  | get =>
    obtain ⟨cc', loaded', r', R', heq, hnext⟩ := h.get hclear
    use cc', loaded', r', R'
    rw [Call.step, heq]
    apply And.intro rfl hnext
  | peek =>
    use cc, loaded, r, R
    rw [Call.step, h.peek hclear]
    apply And.intro rfl h
  | peekBy cnt =>
    use cc, loaded, r, R
    rw [Call.step, h.peekBy hallows hclear]
    apply And.intro rfl h
  | rewind =>
    obtain ⟨cc', r', heq, hnext⟩ := h.rewind hallows hclear
    use cc', loaded, r', R
    rw [Call.step, heq]
    apply And.intro rfl hnext

/-- A sequence of calls that are allowed and clear acts as on the cursor. -/
theorem run (calls : List Call) (h : Follows isComment stream cc c loaded r R)
    (hallows : Cursor.allowsAll (code isComment stream) calls c = true)
    (hclear : Call.clearAll isComment calls cc = true) :
  ∃ cc', Call.run isComment calls cc = some (Cursor.run (code isComment stream) calls c, cc') ∧
    cc'.tokenBuffer.size ≤ cc'.tokenBuffer.capacity
  := by
  induction calls generalizing cc c loaded r R with
  | nil =>
    use cc
    constructor
    · rfl
    · rw [h.holds.capacity]
      apply h.holds.fits
  | cons call calls ih =>
    rw [Cursor.allowsAll, Bool.and_eq_true] at hallows
    rw [Call.clearAll, Bool.and_eq_true] at hclear
    obtain ⟨cc₁, loaded₁, r₁, R₁, hstep, hnext⟩ := h.step hallows.1 hclear.1
    obtain ⟨-, hclear⟩ := hclear
    rw [hstep] at hclear
    obtain ⟨cc', hrun, hsize⟩ := ih hnext hallows.2 hclear
    use cc'
    constructor
    · simp only [Call.run, hstep, hrun, Option.bind_eq_bind, Option.bind_some, Cursor.run]
      rfl
    · apply hsize

end Follows

/-- The tokens of calls that are those of a cursor. -/
theorem IsCursor.tokens_eq {stream : List τ} {calls : List Call}
    (h : IsCursor isComment stream calls) :
  (Call.run isComment calls (cctrlInitParse stream)).map Prod.fst
    = some (Cursor.run (code isComment stream) calls .start)
  := by
  obtain ⟨tokens, cc, hrun, rfl, -⟩ := h
  rw [hrun]
  rfl

/-! ### Streams without comments -/

namespace Follows

variable {stream : List τ} {cc : Cctrl τ} {c : Cursor} {loaded r R : Nat}

end Follows

/-! ### Calls that no comment is in the way of -/

/-- From the first load on, the calls of the parser are those of a cursor as long as each finds
the ring in a state that lets it do what it is for. -/
theorem tokenRing_isCursor (isComment : τ → Bool) (stream : List τ) (calls : List Call)
    (hallows : Cursor.allowsAll (code isComment stream) calls .start = true)
    (hclear : Call.clearAll isComment calls (cctrlInitParse stream) = true) :
  IsCursor isComment stream calls
  := by
  obtain ⟨cc, hrun, hsize⟩ := (Follows.init isComment stream).run calls hallows hclear
  refine ⟨_, cc, hrun, rfl, hsize⟩

/-- Over three tokens the calls are those of a cursor. -/
theorem tokenRing_isCursor_three :
  IsCursor (· == 0) [1, 2, 3] [.get, .peek, .peekBy 1, .rewind, .get]
  := tokenRing_isCursor (· == 0) [1, 2, 3] [.get, .peek, .peekBy 1, .rewind, .get]
    (by decide +kernel) (by decide +kernel)

/-- A look sixteen tokens ahead comes back to the token at the tail, and after a comment two steps
back go too far. -/
theorem not_tokenRing_isCursor :
  (Cursor.allowsAll (code (· == 0) (List.range' 1 17)) [.peekBy 16] .start = true ∧
      ¬ IsCursor (· == 0) (List.range' 1 17) [.peekBy 16]) ∧
    Cursor.allowsAll (code (· == 0) [1, 0, 2]) [.get, .get, .rewind, .rewind, .get] .start
      = true ∧
    ¬ IsCursor (· == 0) [1, 0, 2] [.get, .get, .rewind, .rewind, .get]
  := by
  constructor
  · constructor
    · decide +kernel
    · intro h
      apply absurd h.tokens_eq
      decide +kernel
  · constructor
    · decide +kernel
    · intro h
      apply absurd h.tokens_eq
      decide +kernel

end Polyc.TokenStream
