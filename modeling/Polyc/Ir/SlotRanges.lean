import Polyc.Ir.RegAlloc
import Mathlib.Data.List.Zip

/-!
# Ranges and slots

A temporary is mentioned only at positions in its range.  The slots that are handed out are
those of a linear scan over the ranges, so two temporaries with one slot are mentioned one
after the other.
-/

namespace Polyc

/-- The instructions that have positions. -/
def emitted (l : List IrInstr) : List IrInstr := l.filter (·.op ≠ .nop)

/-- A temporary is mentioned at a position. -/
def MentionedAt (l : List IrInstr) (id pos : Nat) : Prop :=
  ∃ I, (emitted l)[pos]? = some I ∧ ∃ v ∈ I.refs, v.hasRange ∧ v.varId = id

/-! ### Ranges cover mentions -/

/-- A position is in the range of a temporary. -/
def InRange (ranges : List IrCgRange) (id pos : Nat) : Prop :=
  ∃ r ∈ ranges, r.varId = id ∧ r.first ≤ pos ∧ pos ≤ r.last

/-- Recording a value keeps positions in ranges. -/
theorem InRange.recordRef
    {ranges : List IrCgRange} {id x : Nat} (h : InRange ranges id x) (pos : Nat) (v : IrValue) :
  InRange (irCgRecordRef ranges pos v) id x
  := by
  obtain ⟨r, hr, hid, hfirst, hlast⟩ := h
  unfold irCgRecordRef
  split
  · split
    · by_cases he : r.varId = v.varId
      · refine ⟨r.extend pos, List.mem_map.mpr ⟨r, hr, if_pos he⟩, hid, ?_, ?_⟩
        · apply le_trans (min_le_left _ _) hfirst
        · apply le_trans hlast (le_max_left _ _)
      · exact ⟨r, List.mem_map.mpr ⟨r, hr, if_neg he⟩, hid, hfirst, hlast⟩
    · exact ⟨r, List.mem_append_left _ hr, hid, hfirst, hlast⟩
  · exact ⟨r, hr, hid, hfirst, hlast⟩

/-- A value that is recorded has the position in its range. -/
theorem inRange_recordRef
    (ranges : List IrCgRange) (pos : Nat) {v : IrValue} (hv : v.hasRange) :
  InRange (irCgRecordRef ranges pos v) v.varId pos
  := by
  unfold irCgRecordRef
  rw [if_pos hv]
  split
  · rename_i hany
    obtain ⟨r, hr, hid⟩ := List.any_eq_true.mp hany
    have hid : r.varId = v.varId := by simpa using hid
    refine ⟨r.extend pos, List.mem_map.mpr ⟨r, hr, if_pos hid⟩, hid, ?_, ?_⟩
    · apply min_le_right
    · apply le_max_right
  · exact ⟨_, List.mem_append_right _ (List.mem_singleton_self _), rfl, le_refl pos, le_refl pos⟩

/-- Temporaries have one range each. -/
theorem nodup_recordRef
    {ranges : List IrCgRange} (h : (ranges.map IrCgRange.varId).Nodup) (pos : Nat) (v : IrValue) :
  ((irCgRecordRef ranges pos v).map IrCgRange.varId).Nodup
  := by
  unfold irCgRecordRef
  split
  · split
    · have hids : (ranges.map fun r => if r.varId = v.varId then r.extend pos else r).map
          IrCgRange.varId = ranges.map IrCgRange.varId := by
        rw [List.map_map]
        apply List.map_congr_left
        intro r _
        dsimp only [Function.comp]
        split <;> rfl
      rw [hids]
      apply h
    · rename_i hany
      rw [List.map_append, List.nodup_append_comm]
      apply List.nodup_cons.mpr ⟨?_, h⟩
      intro hmem
      obtain ⟨r, hr, hid⟩ := List.mem_map.mp hmem
      apply hany
      rw [List.any_eq_true]
      use r, hr
      simpa using hid
  · apply h

/-- Recording the values of an instruction. -/
theorem recordRefs_fold
    (ranges : List IrCgRange) (pos : Nat) (vs : List IrValue) :
  (∀ {id x}, InRange ranges id x → InRange (vs.foldl (irCgRecordRef · pos ·) ranges) id x)
    ∧ (∀ v ∈ vs, v.hasRange → InRange (vs.foldl (irCgRecordRef · pos ·) ranges) v.varId pos)
    ∧ ((ranges.map IrCgRange.varId).Nodup →
        ((vs.foldl (irCgRecordRef · pos ·) ranges).map IrCgRange.varId).Nodup)
  := by
  induction vs generalizing ranges with
  | nil =>
    refine ⟨fun h => h, ?_, fun h => h⟩
    intro v hv
    cases hv
  | cons w vs ih =>
    obtain ⟨hkeep, hnew, hnodup⟩ := ih (irCgRecordRef ranges pos w)
    refine ⟨fun h => hkeep (h.recordRef pos w), ?_, fun h => hnodup (nodup_recordRef h pos w)⟩
    intro v hv hr
    rcases List.mem_cons.mp hv with rfl | hv
    · apply hkeep (inRange_recordRef ranges pos hr)
    · apply hnew v hv hr

/-- All mentions are in ranges, and temporaries have one range each. -/
theorem recordRefs_spec
    {ranges : List IrCgRange} (hnodup : (ranges.map IrCgRange.varId).Nodup) (pos : Nat)
    (l : List IrInstr) :
  (∀ {id x}, InRange ranges id x → InRange (irCgRecordRefs ranges pos l) id x)
    ∧ (∀ id x, MentionedAt l id x → InRange (irCgRecordRefs ranges pos l) id (pos + x))
    ∧ ((irCgRecordRefs ranges pos l).map IrCgRange.varId).Nodup
  := by
  induction l generalizing ranges pos with
  | nil =>
    refine ⟨fun h => h, ?_, hnodup⟩
    rintro id x ⟨I, hI, -⟩
    cases hI
  | cons I l ih =>
    unfold irCgRecordRefs
    split
    · rename_i hnop
      obtain ⟨hkeep, hnew, hids⟩ := ih hnodup pos
      refine ⟨hkeep, ?_, hids⟩
      rintro id x ⟨J, hJ, hv⟩
      apply hnew id x
      refine ⟨J, ?_, hv⟩
      simpa [emitted, hnop] using hJ
    · rename_i hnop
      obtain ⟨hkeep', hnew', hids'⟩ := recordRefs_fold ranges pos I.refs
      obtain ⟨hkeep, hnew, hids⟩ := ih (hids' hnodup) (pos + 1)
      refine ⟨fun h => hkeep (hkeep' h), ?_, hids⟩
      rintro id x ⟨J, hJ, v, hv, hr, rfl⟩
      have hcons : emitted (I :: l) = I :: emitted l := by simp [emitted, hnop]
      rw [hcons] at hJ
      cases x with
      | zero =>
        rw [List.getElem?_cons_zero, Option.some_inj] at hJ
        subst hJ
        apply hkeep (hnew' v hv hr)
      | succ x =>
        rw [List.getElem?_cons_succ] at hJ
        have hin := hnew v.varId x ⟨J, hJ, v, hv, hr, rfl⟩
        rwa [Nat.add_right_comm] at hin

/-- A range is that of a value that was recorded. -/
theorem mem_recordRef
    {ranges : List IrCgRange} {pos : Nat} {v : IrValue} {r : IrCgRange}
    (h : r ∈ irCgRecordRef ranges pos v) :
  (∃ r' ∈ ranges, r'.varId = r.varId) ∨ (v.hasRange ∧ v.varId = r.varId)
  := by
  unfold irCgRecordRef at h
  split at h
  · rename_i hv
    split at h
    · obtain ⟨r', hr', rfl⟩ := List.mem_map.mp h
      left
      use r', hr'
      split <;> rfl
    · rcases List.mem_append.mp h with h | h
      · exact .inl ⟨r, h, rfl⟩
      · obtain rfl := List.mem_singleton.mp h
        exact .inr ⟨hv, rfl⟩
  · exact .inl ⟨r, h, rfl⟩

/-- Every range is that of a value that an instruction mentions. -/
theorem mem_recordRefs
    {ranges : List IrCgRange} {pos : Nat} {l : List IrInstr} {r : IrCgRange}
    (h : r ∈ irCgRecordRefs ranges pos l) :
  (∃ r' ∈ ranges, r'.varId = r.varId)
    ∨ ∃ I ∈ l, ∃ v ∈ I.refs, v.hasRange ∧ v.varId = r.varId
  := by
  induction l generalizing ranges pos with
  | nil => exact .inl ⟨r, h, rfl⟩
  | cons I l ih =>
    unfold irCgRecordRefs at h
    split at h
    · rcases ih h with hold | ⟨J, hJ, hv⟩
      · exact .inl hold
      · exact .inr ⟨J, List.mem_cons_of_mem I hJ, hv⟩
    · rcases ih h with ⟨r', hr', hid⟩ | ⟨J, hJ, hv⟩
      · -- the values of the instruction, one after the other
        have hfold : ∀ (vs : List IrValue) (ranges : List IrCgRange) (r' : IrCgRange),
            r' ∈ vs.foldl (irCgRecordRef · pos ·) ranges →
            (∃ r'' ∈ ranges, r''.varId = r'.varId)
              ∨ ∃ v ∈ vs, v.hasRange ∧ v.varId = r'.varId := by
          intro vs
          induction vs with
          | nil =>
            intro ranges r' hr'
            exact .inl ⟨r', hr', rfl⟩
          | cons w vs ihv =>
            intro ranges r' hr'
            rcases ihv _ r' hr' with ⟨r'', hr'', hid⟩ | ⟨v, hv, hrest⟩
            · rcases mem_recordRef hr'' with ⟨r₀, hr₀, hid₀⟩ | ⟨hw, hid₀⟩
              · exact .inl ⟨r₀, hr₀, hid₀.trans hid⟩
              · exact .inr ⟨w, List.mem_cons_self, hw, hid₀.trans hid⟩
            · exact .inr ⟨v, List.mem_cons_of_mem w hv, hrest⟩
        rcases hfold I.refs ranges r' hr' with ⟨r'', hr'', hid'⟩ | ⟨v, hv, hrange, hid'⟩
        · exact .inl ⟨r'', hr'', hid'.trans hid⟩
        · exact .inr ⟨I, List.mem_cons_self, v, hv, hrange, hid'.trans hid⟩
      · exact .inr ⟨J, List.mem_cons_of_mem I hJ, hv⟩

/-! ### Slots are those of a linear scan -/

/-- The offset of the slot with number `n`, below `extra` bytes of buffers. -/
def slotLoff (start extra n : Nat) : Int := -((start + extra + 8 * (n + 1) : Nat) : Int)

theorem slotLoff_injective (start extra : Nat) :
  Function.Injective (slotLoff start extra)
  := by
  intro m n h
  unfold slotLoff at h
  omega

/-- The fresh name does not matter when a slot is free. -/
theorem place_of_any
    {N : Type} {r : PosRange} {slots : List (ScanSlot N)} (h : slots.any (·.last < r.first))
    (fresh fresh' : N) :
  LinearScan.place fresh r slots = LinearScan.place fresh' r slots
    ∧ (LinearScan.place fresh r slots).2.length = slots.length
  := by
  induction slots with
  | nil => cases h
  | cons s ss ih =>
    unfold LinearScan.place
    split
    · exact ⟨rfl, rfl⟩
    · rename_i hlt
      have hss : ss.any (·.last < r.first) := by simpa [hlt] using h
      obtain ⟨heq, hlen⟩ := ih hss
      rw [← heq]
      exact ⟨rfl, congrArg (· + 1) hlen⟩

/-- A slot is added when none is free. -/
theorem length_place_of_not_any
    {N : Type} {r : PosRange} {slots : List (ScanSlot N)} (h : ¬ slots.any (·.last < r.first))
    (fresh : N) :
  (LinearScan.place fresh r slots).2.length = slots.length + 1
  := by
  rcases LinearScan.place_cases fresh r slots with ⟨pre, s, post, rfl, hs, -⟩ | ⟨-, hplace⟩
  · exfalso
    apply h
    rw [List.any_eq_true]
    use s
    simpa using hs
  · rw [hplace, List.length_append, List.length_singleton]

/-- What `irCgSetLoff` does when it does not panic. -/
theorem irCgSetLoff_eq_some
    {ra ra' : IrRaCtx} {id : Nat} {loff : Int} (h : ra.irCgSetLoff id loff = some ra') :
  ra.has id = false ∧ ra' = { ra with idToLoff := ra.idToLoff ++ [(id, loff)] }
  := by
  unfold IrRaCtx.irCgSetLoff at h
  split at h
  · cases h
  · rename_i hnew
    exact ⟨by simpa using hnew, (Option.some_inj.mp h).symm⟩

/-- The slots of the second pass. -/
theorem irCgColour_eq
    {start : Nat} {ra ra' : IrRaCtx} {slots : List (ScanSlot Int)} {rs : List IrCgRange}
    (extra : Nat) (hextra : ra.extraStack = extra + 8 * slots.length)
    (h : irCgColour start ra slots rs = some ra') :
  ra'.idToLoff = ra.idToLoff ++ (rs.map IrCgRange.varId).zip
      (LinearScan.scan (slotLoff start extra) slots (rs.map IrCgRange.toPosRange)).1
    ∧ ra'.extraStack = extra + 8
      * (LinearScan.scan (slotLoff start extra) slots (rs.map IrCgRange.toPosRange)).2.length
  := by
  induction rs generalizing ra slots with
  | nil =>
    obtain rfl := Option.some_inj.mp h
    exact ⟨(List.append_nil _).symm, hextra⟩
  | cons r rs ih =>
    unfold irCgColour at h
    obtain ⟨ra1, hset, h⟩ := Option.bind_eq_some_iff.mp h
    obtain ⟨-, rfl⟩ := irCgSetLoff_eq_some hset
    -- the offset of a fresh slot is the one that the scan gives it
    have hplace : LinearScan.place
          (-((start + (if slots.any (·.last < r.first) then ra.extraStack
            else ra.extraStack + 8) : Nat) : Int)) r.toPosRange slots
        = LinearScan.place (slotLoff start extra slots.length) r.toPosRange slots := by
      split
      · rename_i hany
        apply (place_of_any hany _ _).1
      · congr 1
        unfold slotLoff
        omega
    have hlength : (if slots.any (·.last < r.first) then ra.extraStack
          else ra.extraStack + 8)
        = extra + 8 * (LinearScan.place (slotLoff start extra slots.length) r.toPosRange
            slots).2.length := by
      split
      · rename_i hany
        rw [(place_of_any hany (slotLoff start extra slots.length) 0).2, hextra]
      · rename_i hany
        rw [length_place_of_not_any hany, hextra]
        omega
    rw [hplace] at h
    obtain ⟨hids, hbytes⟩ := ih hlength h
    constructor
    · rw [hids]
      simp only [List.map_cons, LinearScan.scan, List.zip_cons_cons, List.append_assoc,
        List.singleton_append]
    · apply hbytes

/-! ### Shared slots -/

/-- A temporary has a slot of the second pass, which starts from `ra` and ends in `ra'`. -/
def HasSlot (ra ra' : IrRaCtx) (id : Nat) (loff : Int) : Prop :=
  ra.has id = false ∧ ra'.idToLoff.lookup id = some loff

/-- A temporary with a slot has a range, and the scan put it there. -/
theorem HasSlot.index
    {start : Nat} {ra ra' : IrRaCtx} {rs : List IrCgRange}
    (h : irCgColour start ra [] rs = some ra') {t : Nat} {loff : Int}
    (ht : HasSlot ra ra' t loff) :
  ∃ (i : Nat) (r : IrCgRange), rs[i]? = some r ∧ r.varId = t
    ∧ (LinearScan.scan (slotLoff start ra.extraStack) [] (rs.map IrCgRange.toPosRange)).1[i]?
        = some loff
  := by
  obtain ⟨hnew, hlookup⟩ := ht
  have hids := (irCgColour_eq ra.extraStack (by rfl) h).1
  have hnone : ra.idToLoff.lookup t = none := by simpa [IrRaCtx.has] using hnew
  rw [hids, List.lookup_append, hnone, Option.none_or] at hlookup
  obtain ⟨l₁, l₂, hsplit, -⟩ := List.lookup_eq_some_iff.mp hlookup
  have hmem : (t, loff) ∈ (rs.map IrCgRange.varId).zip
      (LinearScan.scan (slotLoff start ra.extraStack) [] (rs.map IrCgRange.toPosRange)).1 := by
    rw [hsplit]
    apply List.mem_append_right _ List.mem_cons_self
  obtain ⟨i, hi⟩ := List.mem_iff_getElem?.mp hmem
  obtain ⟨hid, hloff⟩ := List.getElem?_zip_eq_some.mp hi
  rw [List.getElem?_map, Option.map_eq_some_iff] at hid
  obtain ⟨r, hr, hrt⟩ := hid
  exact ⟨i, r, hr, hrt, hloff⟩

/-- Temporaries that share a slot are mentioned one after the other. -/
theorem mentions_apart
    {qsort : List IrCgRange → List IrCgRange} (hqsort : IsQsort qsort) {start : Nat}
    {ra ra' : IrRaCtx} {l : List IrInstr}
    (h : irCgColour start ra [] (qsort (irCgSlotRanges ra (irCgRecordRefs [] 0 l))) = some ra')
    {t u : Nat} {loff : Int} (ht : HasSlot ra ra' t loff) (hu : HasSlot ra ra' u loff)
    (hne : t ≠ u) :
  (∀ x y, MentionedAt l t x → MentionedAt l u y → x < y)
    ∨ (∀ x y, MentionedAt l t x → MentionedAt l u y → y < x)
  := by
  obtain ⟨i, r, hr, hrt, hri⟩ := ht.index h
  obtain ⟨j, s, hs, hsu, hsj⟩ := hu.index h
  have hnil : (([] : List IrCgRange).map IrCgRange.varId).Nodup := List.nodup_nil
  obtain ⟨-, hmention, hnodup⟩ := recordRefs_spec hnil 0 l
  -- a temporary is mentioned only within the range that was placed
  have hrange : ∀ {k : Nat} {r : IrCgRange} {x : Nat},
      (qsort (irCgSlotRanges ra (irCgRecordRefs [] 0 l)))[k]? = some r →
      MentionedAt l r.varId x → r.first ≤ x ∧ x ≤ r.last := by
    intro k r x hr hx
    have hmem : r ∈ irCgRecordRefs [] 0 l := by
      apply List.mem_of_mem_filter
      apply (hqsort.perm _).mem_iff.mp
      apply List.mem_of_getElem? hr
    obtain ⟨r', hr', hid, hfirst, hlast⟩ := hmention r.varId x hx
    obtain rfl := List.inj_on_of_nodup_map hnodup hr' hmem hid
    rw [Nat.zero_add] at hfirst hlast
    exact ⟨hfirst, hlast⟩
  have hplace : ∀ {k : Nat} {r : IrCgRange},
      (qsort (irCgSlotRanges ra (irCgRecordRefs [] 0 l)))[k]? = some r →
      ((qsort (irCgSlotRanges ra (irCgRecordRefs [] 0 l))).map IrCgRange.toPosRange)[k]?
        = some r.toPosRange := by
    intro k r hr
    rw [List.getElem?_map, hr]
    rfl
  have hinj := slotLoff_injective start ra.extraStack
  rcases Nat.lt_trichotomy i j with hij | rfl | hij
  · left
    intro x y hx hy
    have hlt := LinearScan.lt_of_scan hinj hij (hplace hr) (hplace hs) hri hsj
    have hx := (hrange hr (hrt.symm ▸ hx)).2
    have hy := (hrange hs (hsu.symm ▸ hy)).1
    omega
  · rw [hr, Option.some_inj] at hs
    rw [hs] at hrt
    cases hne (hrt.symm.trans hsu)
  · right
    intro x y hx hy
    have hlt := LinearScan.lt_of_scan hinj hij (hplace hs) (hplace hr) hsj hri
    have hx := (hrange hr (hrt.symm ▸ hx)).1
    have hy := (hrange hs (hsu.symm ▸ hy)).2
    omega

/-! ### Buffers and aliases lie above the slots -/

/-- No offset is below the bytes that are taken. -/
def IrRaCtx.Above (ra : IrRaCtx) (start : Nat) : Prop :=
  ∀ e ∈ ra.idToLoff, -((start + ra.extraStack : Nat) : Int) ≤ e.2

/-- An offset of an alias does not lead below its base. -/
def IrInstr.GepForward (I : IrInstr) : Prop :=
  I.op = .gep → ∀ off, I.r2 = some off → off.kind = .constInt → 0 ≤ off.toInt

/-- Setting an offset that is not below the bytes that are taken. -/
theorem IrRaCtx.Above.setLoff
    {ra ra' : IrRaCtx} {start id : Nat} {loff : Int} (h : ra.Above start)
    (hloff : -((start + ra.extraStack : Nat) : Int) ≤ loff)
    (hs : ra.irCgSetLoff id loff = some ra') :
  ra'.Above start
  := by
  obtain ⟨-, rfl⟩ := irCgSetLoff_eq_some hs
  intro e he
  rcases List.mem_append.mp he with he | he
  · apply h e he
  · obtain rfl := List.mem_singleton.mp he
    apply hloff

/-- One instruction of the first pass. -/
theorem IrRaCtx.Above.operands
    {ra ra' : IrRaCtx} {start : Nat} {I : IrInstr} (h : ra.Above start) (hI : I.GepForward)
    (hs : irCgAllocOperandsForInstr ra I start = some ra') :
  ra'.Above start
  := by
  unfold irCgAllocOperandsForInstr at hs
  split at hs
  · unfold IrRaCtx.irCgAllocTmpSized at hs
    split at hs
    · apply IrRaCtx.Above.setLoff _ (le_refl _) hs
      intro e he
      have hle := h e he
      dsimp only
      omega
    · rw [← Option.some_inj.mp hs]
      apply h
  · rename_i hop _
    split at hs
    · rename_i base off hbase hoff
      split at hs
      · rename_i hk
        obtain ⟨baseLoff, hlookup, hs⟩ := Option.bind_eq_some_iff.mp hs
        split at hs
        · rw [← Option.some_inj.mp hs]
          apply h
        · apply h.setLoff _ hs
          obtain ⟨l₁, l₂, hsplit, -⟩ := List.lookup_eq_some_iff.mp hlookup
          have hle := h (base.varId, baseLoff) (by rw [hsplit]; simp)
          have hpos := hI hop off hoff hk.2
          dsimp only at hle
          omega
      · rw [← Option.some_inj.mp hs]
        apply h
    · rw [← Option.some_inj.mp hs]
      apply h
  · rw [← Option.some_inj.mp hs]
    apply h

/-- The first pass. -/
theorem IrRaCtx.Above.buffers
    {ra ra' : IrRaCtx} {start : Nat} {l : List IrInstr} (h : ra.Above start)
    (hl : ∀ I ∈ l, I.GepForward) (hs : irCgAllocBuffers start ra l = some ra') :
  ra'.Above start
  := by
  induction l generalizing ra with
  | nil =>
    rw [← Option.some_inj.mp hs]
    apply h
  | cons I l ih =>
    obtain ⟨ra1, h1, hs⟩ := Option.bind_eq_some_iff.mp hs
    apply ih (h.operands (hl I List.mem_cons_self) h1) _ hs
    intro J hJ
    apply hl J (List.mem_cons_of_mem I hJ)

/-- Slots lie below all offsets that there are before the second pass. -/
theorem slot_below
    {start : Nat} {ra ra' : IrRaCtx} {rs : List IrCgRange} (habove : ra.Above start)
    (h : irCgColour start ra [] rs = some ra') {t id : Nat} {loff loff' : Int}
    (ht : HasSlot ra ra' t loff) (hid : ra.idToLoff.lookup id = some loff') :
  loff + 8 ≤ loff'
  := by
  obtain ⟨i, r, -, -, hi⟩ := ht.index h
  obtain ⟨l₁, l₂, hsplit, -⟩ := List.lookup_eq_some_iff.mp hid
  have hle := habove (id, loff') (by rw [hsplit]; simp)
  rcases LinearScan.mem_scan (List.mem_of_getElem? hi) with hmem | ⟨k, rfl⟩
  · cases hmem
  · unfold slotLoff
    dsimp only at hle
    omega

end Polyc
