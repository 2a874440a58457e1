import Polyc.Asm.JitCorrect

/-!
# What `asm_jit_finalize` gives

The code that it gives transfers control where its fixups say exactly if no branch distance is
cut where it is computed in 32 bits.
-/

namespace Polyc

open Bytes BitField

/-! ### The result of the loop -/

section
variable {arch : JitArch} {host : JitHost} {enc : AsmEnc} {buf : Word} {s : JitState}
  {code : AsmJitCode}

/-- A veneer has bytes. -/
theorem JitArch.veneerSize_pos (arch : JitArch) :
  0 < arch.veneerSize
  := by
  cases arch <;> decide

/-- A relocation that may lead through a veneer is for its whole target. -/
theorem AsmFixup.goal_of_viaVeneer {f : AsmFixup} (h : f.reloc.viaVeneer = true) (d : Word) :
  f.goal d = d
  := by
  rw [goal]
  cases hr : f.reloc with
  | aarch64Page21 | aarch64PageOff12 =>
    rw [hr] at h
    cases h
  | _ => rfl

/-- The fixups whose distance may be cut and that may lead through a veneer are the branches of
26 bits. -/
theorem AsmFixup.Cut.branch26 {f : AsmFixup} {d : Word} (h : f.Cut buf d)
    (hvia : f.reloc.viaVeneer = true) :
  f.reloc = .aarch64Call26 ∨ f.reloc = .aarch64Jump26
  := by
  rw [Cut] at h
  cases hr : f.reloc with
  | aarch64Call26 => apply Or.inl rfl
  | aarch64Jump26 => apply Or.inr rfl
  | aarch64Bcond19 =>
    rw [hr] at hvia
    cases hvia
  | _ =>
    rw [hr] at h
    cases h

/-- The branches of the same processor have 26 bits. -/
theorem AsmFixupReloc.branch26_of_arch {r r' : AsmFixupReloc}
    (hr : r = .aarch64Call26 ∨ r = .aarch64Jump26) (harch : r'.arch = r.arch)
    (hvia : r'.viaVeneer = true) :
  r' = .aarch64Call26 ∨ r' = .aarch64Jump26
  := by
  have haarch : r'.arch = .aarch64 := by
    rw [harch]
    rcases hr with rfl | rfl <;> rfl
  cases r' with
  | aarch64Call26 => apply Or.inl rfl
  | aarch64Jump26 => apply Or.inr rfl
  | aarch64Bcond19 | aarch64Page21 | aarch64PageOff12 => cases hvia
  | _ => cases haarch

/-- A distance that is cut is one that the fixup takes. -/
theorem AsmFixup.Cut.takes {f : AsmFixup} {d : Word} (h : f.Cut buf d) :
  f.Takes buf d
  := by
  rw [Cut] at h
  rw [Takes]
  cases hr : f.reloc with
  | aarch64Call26 | aarch64Jump26 | aarch64Bcond19 =>
    rw [hr] at h
    apply h.1
  | _ =>
    rw [hr] at h
    cases h

/-- Where a veneer lies. -/
theorem JitInv.veneer_offset {asked done : List AsmFixup}
    (h : JitInv arch host.resolver enc buf asked done s) {v : VeneerSlot} (hv : v ∈ s.vmap) :
  ∃ o, v.veneer = buf + BitVec.ofNat 64 o ∧ enc.bytes.length ≤ o
    ∧ o < enc.bytes.length + (asked.map AsmFixup.veneerBytes).sum
  := by
  obtain ⟨k, hk, hget⟩ := List.mem_iff_getElem.1 hv
  have hslot : s.vmap[k]? = some v := by rw [List.getElem?_eq_getElem hk, hget]
  have hroom := h.room
  have hend : arch.veneerSize * (k + 1) ≤ arch.veneerSize * s.vmap.length :=
    Nat.mul_le_mul_left _ hk
  have hpos := arch.veneerSize_pos
  rw [Nat.mul_succ] at hend
  refine ⟨_, (h.slots k v hslot).1, ?_, ?_⟩ <;> omega

/-- A fixup that is patched with the address of a veneer goes there. -/
theorem AsmFixup.lands_veneer {f : AsmFixup} {d : Word} (hvia : f.reloc.viaVeneer = true)
    (htakes : f.Takes buf d) {o : Nat} (hd : d = buf + BitVec.ofNat 64 o)
    (hf : f.patchOffset ≤ o) (ho : o < 2 ^ 33) (w : BitVec 32) :
  f.lands buf (f.word buf w d) = d
  := by
  have hcut : ¬ f.Cut buf d := by
    rw [hd]
    apply not_cut_veneer buf hf ho
  rw [(lands_word_iff htakes w).2 hcut, goal_of_viaVeneer hvia]

/-- A fixup without a veneer is patched with its target. -/
theorem Patched.direct {resolver : String → Word} {f : AsmFixup}
    (h : Patched resolver enc buf s f) (hvia : f.reloc.viaVeneer = false) :
  f.Takes buf (jitTarget resolver enc.labels buf f)
    ∧ read s.mem f.patchOffset 4
      = f.word buf (read (ofList enc.bytes) f.patchOffset 4) (jitTarget resolver enc.labels buf f)
  := by
  obtain ⟨-, d, htakes, hread, rfl | ⟨htrue, -⟩⟩ := h
  · apply And.intro htakes hread
  · rw [hvia] at htrue
    cases htrue

/-- What the invariant says about the finalised code, if every fixup reaches its target. -/
theorem JitInv.transfers (hsize : enc.bytes.length + enc.veneerArea ≤ code.mappingSize)
    (h : JitInv arch host.resolver enc buf enc.fixups enc.fixups s)
    (hcode : code.veneers = s.vmap)
    (hreaches : ∀ f ∈ enc.fixups, f.kind ≠ .classMember →
      f.lands buf (read s.mem f.patchOffset 4)
          = f.goal (jitTarget host.resolver enc.labels buf f)
        ∨ f.reloc.viaVeneer = true ∧ ∃ v ∈ code.veneers,
          v.target = jitTarget host.resolver enc.labels buf f
            ∧ f.lands buf (read s.mem f.patchOffset 4) = v.veneer) :
  Transfers arch host enc buf code s.mem
  := by
  constructor
  case reaches => apply hreaches
  case pages =>
    intro f hf g hg hfkind hgkind hpage hoff htarget
    have hfvia : f.reloc.viaVeneer = false := by rw [hpage]; rfl
    have hgvia : g.reloc.viaVeneer = false := by rw [hoff]; rfl
    obtain ⟨hftakes, hfread⟩ := (h.landed f hf hfkind).direct hfvia
    obtain ⟨hgtakes, hgread⟩ := (h.landed g hg hgkind).direct hgvia
    have hfcut (d : Word) : ¬ f.Cut buf d := by
      rw [AsmFixup.Cut, hpage]
      apply not_false
    have hgcut (d : Word) : ¬ g.Cut buf d := by
      rw [AsmFixup.Cut, hoff]
      apply not_false
    rw [hfread, hgread, (AsmFixup.lands_word_iff hftakes _).2 (hfcut _),
      (AsmFixup.lands_word_iff hgtakes _).2 (hgcut _), ← htarget, AsmFixup.goal, hpage,
      AsmFixup.goal, hoff]
    apply page_add_offset
  case keeps =>
    intro f hf hkind
    obtain ⟨-, d, -, hread, -⟩ := h.landed f hf hkind
    rw [hread]
    apply AsmFixup.word_keeps
  case veneers =>
    intro k v hv
    rw [hcode] at hv
    exact (h.slots k v hv).imp_right JitArch.VeneerAt.runs
  case room =>
    rw [hcode]
    apply le_trans (Nat.add_le_add_left h.room _) hsize
  case untouched => apply h.untouched

/-- If no distance is cut, every fixup reaches its target. -/
theorem JitInv.reaches (hwf : enc.WellFormed arch) (hhost : host.Maps enc)
    (h : JitInv arch host.resolver enc buf enc.fixups enc.fixups s)
    {f : AsmFixup} (hf : f ∈ enc.fixups) (hkind : f.kind ≠ .classMember)
    (hcut : ¬ f.Cut buf (jitTarget host.resolver enc.labels buf f)) :
  f.lands buf (read s.mem f.patchOffset 4) = f.goal (jitTarget host.resolver enc.labels buf f)
    ∨ f.reloc.viaVeneer = true ∧ ∃ v ∈ s.vmap,
      v.target = jitTarget host.resolver enc.labels buf f
        ∧ f.lands buf (read s.mem f.patchOffset 4) = v.veneer
  := by
  have hpatched := h.landed f hf hkind
  have hinside := hwf.inside f hf (hpatched.inCode hkind)
  obtain ⟨-, d, htakes, hread, rfl | ⟨hvia, -, hslot⟩⟩ := hpatched
  · left
    rw [hread]
    apply (AsmFixup.lands_word_iff htakes _).2 hcut
  · right
    obtain ⟨o, ho, hlo, hhi⟩ := h.veneer_offset hslot
    have hsize := hhost.size
    rw [AsmEnc.veneerArea] at hsize
    refine ⟨hvia, _, hslot, rfl, ?_⟩
    rw [hread]
    apply AsmFixup.lands_veneer hvia htakes ho (by omega) (by omega)

/-- If every fixup reaches its target, no distance is cut: no veneer helps a cut branch, since
the fixups that share a veneer would take the target itself. -/
theorem Transfers.not_cut (hwf : enc.WellFormed arch)
    (h : JitInv arch host.resolver enc buf enc.fixups enc.fixups s)
    (hcode : code.veneers = s.vmap) (htransfers : Transfers arch host enc buf code s.mem)
    {f : AsmFixup} (hf : f ∈ enc.fixups) (hkind : f.kind ≠ .classMember) :
  ¬ f.Cut buf (jitTarget host.resolver enc.labels buf f)
  := by
  intro hcut
  have hpatched := h.landed f hf hkind
  have harch := hwf.arch f hf (hpatched.inCode hkind)
  obtain ⟨-, d, htakes, hread, rfl | ⟨-, hnot, -⟩⟩ := hpatched
  · have hreaches := htransfers.reaches f hf hkind
    rw [hread] at hreaches
    rcases hreaches with hland | ⟨hvia, v, hv, htarget, hland⟩
    · apply (AsmFixup.lands_word_iff htakes _).1 hland hcut
    · rw [hcode] at hv
      obtain ⟨g, -, hgvia, hgarch, hnot, hgtakes⟩ := h.given v hv
      have hbranch := hcut.branch26 hvia
      apply hnot
      rw [htarget]
      apply AsmFixup.takes_of_branch26 _ hbranch
        (AsmFixupReloc.branch26_of_arch hbranch (hgarch.trans harch.symm) hgvia) htakes
      rwa [hland]
  · apply hnot hcut.takes

/-- After a loop that succeeds, no target is out of reach. -/
theorem JitInv.not_unreachable
    (h : JitInv arch host.resolver enc buf enc.fixups enc.fixups s)
    {f : AsmFixup} (hf : f ∈ enc.fixups) (hkind : f.kind ≠ .classMember) :
  ¬ f.Unreachable buf enc.bytes.length (enc.bytes.length + enc.veneerArea)
    (jitTarget host.resolver enc.labels buf f)
  := by
  obtain ⟨hzero, d, htakes, -, rfl | ⟨hvia, -, hslot⟩⟩ := h.landed f hf hkind
  · rintro (hnull | ⟨hnot, -⟩)
    · apply hzero hnull
    · apply hnot htakes
  · rintro (hnull | ⟨-, hall⟩)
    · apply hzero hnull
    · obtain ⟨o, ho, hlo, hhi⟩ := h.veneer_offset hslot
      apply hall hvia o hlo (Nat.le_of_lt hhi)
      rwa [← ho]

end

/-! ### Finalised code -/

/-- Rounding up does not go below. -/
theorem le_asmPageRoundUp {k n : Nat} (hk : k ≤ 30) (hn : n ≤ 2 ^ 33) :
  n ≤ (asmPageRoundUp (BitVec.twoPow 64 k) (BitVec.ofNat 64 n)).toNat
  := by
  have hpow : 2 ^ k ≤ 2 ^ 30 := Nat.pow_le_pow_right (by decide) hk
  have hpos : 0 < 2 ^ k := Nat.two_pow_pos k
  have hmod := Nat.mod_lt (n + 2 ^ k - 1) hpos
  have hpred : BitVec.twoPow 64 k - 1 = mask 64 k := by
    rw [← BitVec.toNat_inj, BitVec.toNat_sub, BitVec.toNat_twoPow, mask, BitVec.toNat_ofNat,
      Nat.mod_eq_of_lt (a := 2 ^ k) (by omega)]
    change (2 ^ 64 - 1 + 2 ^ k) % 2 ^ 64 = _
    omega
  have hsum : (BitVec.ofNat 64 n + BitVec.twoPow 64 k - 1).toNat = n + 2 ^ k - 1 := by
    rw [BitVec.toNat_sub, BitVec.toNat_add, BitVec.toNat_twoPow, BitVec.toNat_ofNat,
      Nat.mod_eq_of_lt (a := 2 ^ k) (by omega)]
    change (2 ^ 64 - 1 + _) % 2 ^ 64 = _
    omega
  rw [asmPageRoundUp, hpred, toNat_and_not_mask _ (by omega), hsum]
  omega

/-- What `asm_jit_finalize` does on code that is not empty, when it is given a mapping. -/
theorem asmJitFinalize_cases {arch : JitArch} {host : JitHost} {enc : AsmEnc} {buf : Word}
    (hwf : enc.WellFormed arch) (hhost : host.Maps enc) (hmmap : host.mmap = some buf)
    (hlen : enc.bytes.length ≠ 0) :
  asmJitFinalize host enc = (-1, .empty)
    ∨ ∃ s, JitInv arch host.resolver enc buf enc.fixups enc.fixups s
      ∧ (asmJitFinalize host enc).1 = 0 ∧ (asmJitFinalize host enc).2.code = some s.mem
      ∧ (asmJitFinalize host enc).2.veneers = s.vmap
      ∧ enc.bytes.length + enc.veneerArea ≤ (asmJitFinalize host enc).2.mappingSize
  := by
  cases hloop : jitFixups host.resolver enc buf with
  | none =>
    left
    simp only [asmJitFinalize, hlen, hmmap, hloop, if_false]
  | some s =>
    cases hprot : host.mprotect with
    | false =>
      left
      simp [asmJitFinalize, hlen, hmmap, hloop, hprot]
    | true =>
      right
      simp only [asmJitFinalize, hlen, hmmap, hloop, hprot, if_false, if_true]
      obtain ⟨k, hk, hpage⟩ := hhost.page
      refine ⟨s, JitInv.init.loop hwf enc.fixups rfl hloop, trivial, rfl, rfl, ?_⟩
      rw [AsmEnc.mapSize, hpage]
      apply le_asmPageRoundUp hk hhost.size

/-- When `asm_jit_finalize` gives code, the code transfers control where its fixups say exactly
if no distance is cut; it returns 0 or -1, gives no code with -1, and returns -1 when a target
cannot be reached. -/
theorem asmJitFinalize_iff (arch : JitArch) (host : JitHost) (enc : AsmEnc)
    (hwf : enc.WellFormed arch) (hhost : host.Maps enc) :
  (∀ buf m, host.mmap = some buf → (asmJitFinalize host enc).2.code = some m →
    (Transfers arch host enc buf (asmJitFinalize host enc).2 m
      ↔ ∀ f ∈ enc.fixups, f.kind ≠ .classMember →
        ¬ f.Cut buf (jitTarget host.resolver enc.labels buf f)))
    ∧ ((asmJitFinalize host enc).1 = 0
        ∧ ((asmJitFinalize host enc).2.code.isSome = true ∨ enc.bytes = [])
      ∨ (asmJitFinalize host enc).1 = -1 ∧ (asmJitFinalize host enc).2.code = none)
    ∧ ∀ buf, host.mmap = some buf →
      (∃ f ∈ enc.fixups, f.kind ≠ .classMember
        ∧ f.Unreachable buf enc.bytes.length (enc.bytes.length + enc.veneerArea)
          (jitTarget host.resolver enc.labels buf f)) →
      enc.bytes ≠ [] → (asmJitFinalize host enc).1 = -1
  := by
  by_cases hlen : enc.bytes.length = 0
  · have hempty : asmJitFinalize host enc = (0, .empty) := by rw [asmJitFinalize, if_pos hlen]
    have hnil : enc.bytes = [] := List.eq_nil_of_length_eq_zero hlen
    rw [hempty]
    refine ⟨?_, Or.inl ⟨rfl, Or.inr hnil⟩, ?_⟩
    · rintro buf m - ⟨⟩
    · rintro buf - - hne
      apply absurd hnil hne
  · refine ⟨?_, ?_, ?_⟩
    · intro buf m hmmap hcode
      rcases asmJitFinalize_cases hwf hhost hmmap hlen with hnone | ⟨s, hinv, -, hmem, hv, hsize⟩
      · rw [hnone] at hcode
        cases hcode
      · rw [hmem] at hcode
        obtain rfl := Option.some.inj hcode
        constructor
        · intro htransfers f hf hkind
          apply htransfers.not_cut hwf hinv hv hf hkind
        · intro hcut
          apply hinv.transfers hsize hv
          intro f hf hkind
          rw [hv]
          apply hinv.reaches hwf hhost hf hkind (hcut f hf hkind)
    · cases hmmap : host.mmap with
      | none =>
        right
        rw [asmJitFinalize, if_neg hlen, hmmap]
        exact ⟨rfl, rfl⟩
      | some buf =>
        rcases asmJitFinalize_cases hwf hhost hmmap hlen with hnone | ⟨s, -, hrc, hmem, -⟩
        · right
          rw [hnone]
          exact ⟨rfl, rfl⟩
        · left
          rw [hmem]
          exact ⟨hrc, Or.inl rfl⟩
    · rintro buf hmmap ⟨f, hf, hkind, hun⟩ -
      rcases asmJitFinalize_cases hwf hhost hmmap hlen with hnone | ⟨s, hinv, -⟩
      · rw [hnone]
      · apply absurd hun (hinv.not_unreachable hf hkind)

/-- A mapping for small code, and a function of the host. -/
def hostAt (callee : Word) : JitHost :=
  { pageSize := 4096#64, mmap := some 0x7F0000000000#64, mprotect := true,
    resolver := fun _ => callee }

/-- A call of the function of the host. -/
def callEnc : AsmEnc :=
  { bytes := layout 4 0x94000000#32
    labels := []
    fixups := [{ kind := .symbol, reloc := .aarch64Call26, patchOffset := 0, width := 4,
                 pcrel := true, sym := "Foo" }]
    errors := 0 }

/-- A function that is near is called. -/
theorem asmJitFinalize_iff_near :
  (asmJitFinalize (hostAt 0x7F0000001000#64) callEnc).1 = 0
    ∧ ∃ m, (asmJitFinalize (hostAt 0x7F0000001000#64) callEnc).2.code = some m
      ∧ read m 0 4 = 0x94000400#32
      ∧ Transfers .aarch64 (hostAt 0x7F0000001000#64) callEnc 0x7F0000000000#64
        (asmJitFinalize (hostAt 0x7F0000001000#64) callEnc).2 m
  := by
  have hwf : callEnc.WellFormed .aarch64 := by
    constructor <;> simp [callEnc, AsmFixupReloc.arch]
  have hhost : (hostAt 0x7F0000001000#64).Maps callEnc := by
    constructor
    · use 12
      decide
    · decide
  refine ⟨rfl, _, rfl, by decide, ?_⟩
  apply ((asmJitFinalize_iff .aarch64 (hostAt 0x7F0000001000#64) callEnc hwf hhost).1
    0x7F0000000000#64 _ rfl rfl).2
  intro f hf hkind
  rw [List.mem_singleton.1 hf]
  change ¬ Wraps 26 _
  decide

/-- A call of a function that is 2^34 bytes away is accepted, and calls itself. -/
theorem asmJitFinalize_far :
  (asmJitFinalize (hostAt 0x7F0400000000#64) callEnc).1 = 0
    ∧ ∃ m, (asmJitFinalize (hostAt 0x7F0400000000#64) callEnc).2.code = some m
      ∧ read m 0 4 = 0x94000000#32
      ∧ a64Branch26 0x7F0000000000#64 (read m 0 4) = 0x7F0000000000#64
      ∧ (asmJitFinalize (hostAt 0x7F0400000000#64) callEnc).2.veneers = []
      ∧ ¬ Transfers .aarch64 (hostAt 0x7F0400000000#64) callEnc 0x7F0000000000#64
        (asmJitFinalize (hostAt 0x7F0400000000#64) callEnc).2 m
  := by
  refine ⟨rfl, _, rfl, by decide, by decide, rfl, ?_⟩
  intro h
  rcases h.reaches _ (List.mem_singleton_self _) (by decide) with hland | ⟨-, v, hv, -⟩
  · revert hland
    decide
  · cases hv

end Polyc
