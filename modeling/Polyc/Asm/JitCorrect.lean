import Polyc.Asm.JitPatch

/-!
# Finalised code transfers control where it should

The loop of `asm_jit_finalize` keeps an invariant: every fixup that it has passed stands for its
target or for a veneer of it, the veneers lie one after another behind the code, and nothing
else is written.  A branch goes wrong exactly if the distance to its target is cut.
-/

namespace Polyc

open Bytes BitField

/-! ### What is expected of the encoder and the host -/

/-- A fixup that stands for the word of an instruction. -/
def AsmFixup.InCode (f : AsmFixup) : Prop := f.kind ≠ .classMember ∧ f.reloc ≠ .none

instance (f : AsmFixup) : Decidable f.InCode := inferInstanceAs (Decidable (_ ∧ _))

/-- The fixups of an encoder for a processor: their words lie in the code and do not overlap. -/
structure AsmEnc.WellFormed (arch : JitArch) (enc : AsmEnc) : Prop where
  inside : ∀ f ∈ enc.fixups, f.InCode → f.patchOffset + 4 ≤ enc.bytes.length
  apart : enc.fixups.Pairwise fun f g => f.InCode → g.InCode →
    f.patchOffset + 4 ≤ g.patchOffset ∨ g.patchOffset + 4 ≤ f.patchOffset
  arch : ∀ f ∈ enc.fixups, f.InCode → f.reloc.arch = arch

/-- The size of a page is a power of two, and the code has at most 2^33 bytes with its
veneers. -/
structure JitHost.Maps (host : JitHost) (enc : AsmEnc) : Prop where
  page : ∃ k ≤ 30, host.pageSize = BitVec.twoPow 64 k
  size : enc.bytes.length + enc.veneerArea ≤ 2 ^ 33

/-! ### What is expected of the code -/

/-- The bits that the patcher of a relocation may change. -/
def AsmFixupReloc.fieldMask : AsmFixupReloc → BitVec 32
  | .aarch64Call26 | .aarch64Jump26 => mask 32 26 <<< 0
  | .aarch64Bcond19 => mask 32 19 <<< 5
  | .aarch64Page21 => (0x3#32 <<< 29) ||| (0x7FFFF#32 <<< 5)
  | .aarch64PageOff12 => mask 32 12 <<< 10
  | _ => BitVec.allOnes 32

/-- The instruction of a fixup: `BL` and `B` for the branches of 26 bits, and else what the
encoder left. -/
def AsmFixupReloc.instruction (w : BitVec 32) : AsmFixupReloc → BitVec 32
  | .aarch64Call26 => 0x94000000#32
  | .aarch64Jump26 => 0x14000000#32
  | _ => w

/-- The bits of an instruction outside the field of its fixup are kept. -/
theorem AsmFixup.word_keeps (f : AsmFixup) (buf : Word) (w : BitVec 32) (d : Word) :
  f.word buf w d &&& ~~~f.reloc.fieldMask = f.reloc.instruction w &&& ~~~f.reloc.fieldMask
  := by
  obtain ⟨kind, reloc, off, width, pcrel, localNum, sym⟩ := f
  cases reloc with
  | aarch64Call26 => apply setField_and_not
  | aarch64Jump26 => apply setField_and_not
  | aarch64Bcond19 => apply setField_and_not
  | aarch64Page21 => apply adrpWord_and_not
  | aarch64PageOff12 => apply setField_and_not
  | _ => simp [AsmFixupReloc.fieldMask]

/-- Finalised code does what its fixups say. -/
structure Transfers (arch : JitArch) (host : JitHost) (enc : AsmEnc) (buf : Word)
    (code : AsmJitCode) (m : Mem) : Prop where
  reaches : ∀ f ∈ enc.fixups, f.kind ≠ .classMember →
    f.lands buf (read m f.patchOffset 4) = f.goal (jitTarget host.resolver enc.labels buf f)
      ∨ f.reloc.viaVeneer = true ∧ ∃ v ∈ code.veneers,
        v.target = jitTarget host.resolver enc.labels buf f
          ∧ f.lands buf (read m f.patchOffset 4) = v.veneer
  pages : ∀ f ∈ enc.fixups, ∀ g ∈ enc.fixups, f.kind ≠ .classMember → g.kind ≠ .classMember →
    f.reloc = .aarch64Page21 → g.reloc = .aarch64PageOff12 →
    jitTarget host.resolver enc.labels buf f = jitTarget host.resolver enc.labels buf g →
    f.lands buf (read m f.patchOffset 4) + g.lands buf (read m g.patchOffset 4)
      = jitTarget host.resolver enc.labels buf f
  keeps : ∀ f ∈ enc.fixups, f.kind ≠ .classMember →
    read m f.patchOffset 4 &&& ~~~f.reloc.fieldMask
      = f.reloc.instruction (read (ofList enc.bytes) f.patchOffset 4) &&& ~~~f.reloc.fieldMask
  veneers : ∀ k v, code.veneers[k]? = some v →
    v.veneer = buf + BitVec.ofNat 64 (enc.bytes.length + arch.veneerSize * k)
      ∧ arch.Runs m (enc.bytes.length + arch.veneerSize * k) v.target
  room : enc.bytes.length + arch.veneerSize * code.veneers.length ≤ code.mappingSize
  untouched : ∀ i < enc.bytes.length,
    (∀ f ∈ enc.fixups, f.kind ≠ .classMember → i < f.patchOffset ∨ f.patchOffset + 4 ≤ i) →
    m i = ofList enc.bytes i

/-! ### The invariant -/

section
variable (arch : JitArch) (resolver : String → Word) (enc : AsmEnc) (buf : Word)

/-- How a fixup that has been passed was patched. -/
def Patched (s : JitState) (f : AsmFixup) : Prop :=
  jitTarget resolver enc.labels buf f ≠ 0 ∧ ∃ d, f.Takes buf d
    ∧ read s.mem f.patchOffset 4 = f.word buf (read (ofList enc.bytes) f.patchOffset 4) d
    ∧ (d = jitTarget resolver enc.labels buf f
      ∨ f.reloc.viaVeneer = true ∧ ¬ f.Takes buf (jitTarget resolver enc.labels buf f)
        ∧ ⟨jitTarget resolver enc.labels buf f, d⟩ ∈ s.vmap)

/-- The state after the fixups in `done`; the veneers have been asked for by those in
`asked`. -/
structure JitInv (asked done : List AsmFixup) (s : JitState) : Prop where
  off : s.veneerOff = enc.bytes.length + arch.veneerSize * s.vmap.length
  room : arch.veneerSize * s.vmap.length ≤ (asked.map AsmFixup.veneerBytes).sum
  slots : ∀ k v, s.vmap[k]? = some v →
    v.veneer = buf + BitVec.ofNat 64 (enc.bytes.length + arch.veneerSize * k)
      ∧ arch.VeneerAt s.mem (enc.bytes.length + arch.veneerSize * k) v.target
  given : ∀ v ∈ s.vmap, ∃ g ∈ asked, g.reloc.viaVeneer = true ∧ g.reloc.arch = arch
    ∧ ¬ g.Takes buf v.target ∧ g.Takes buf v.veneer
  landed : ∀ f ∈ done, f.kind ≠ .classMember → Patched resolver enc buf s f
  untouched : ∀ i < enc.bytes.length,
    (∀ f ∈ done, f.kind ≠ .classMember → i < f.patchOffset ∨ f.patchOffset + 4 ≤ i) →
    s.mem i = ofList enc.bytes i

variable {arch resolver enc buf} {asked done : List AsmFixup} {s : JitState}

/-- The state before the loop. -/
theorem JitInv.init :
  JitInv arch resolver enc buf [] [] ⟨ofList enc.bytes, enc.bytes.length, []⟩
  := by
  constructor <;> simp

/-- One more fixup may have asked. -/
theorem JitInv.ask (h : JitInv arch resolver enc buf asked done s) (f : AsmFixup) :
  JitInv arch resolver enc buf (asked ++ [f]) done s
  := by
  constructor
  case off => apply h.off
  case room =>
    rw [List.map_append, List.sum_append]
    apply Nat.le_add_right_of_le h.room
  case slots => apply h.slots
  case given =>
    intro v hv
    obtain ⟨g, hg, hrest⟩ := h.given v hv
    exact ⟨g, List.mem_append_left _ hg, hrest⟩
  case landed => apply h.landed
  case untouched => apply h.untouched

/-- A fixup of a class member is passed over. -/
theorem JitInv.skip (h : JitInv arch resolver enc buf asked done s) {f : AsmFixup}
    (hf : f.kind = .classMember) :
  JitInv arch resolver enc buf (asked ++ [f]) (done ++ [f]) s
  := by
  constructor
  case off => apply h.off
  case room => apply (h.ask f).room
  case slots => apply h.slots
  case given => apply (h.ask f).given
  case landed =>
    intro g hg hkind
    rcases List.mem_append.1 hg with hg | hg
    · apply h.landed g hg hkind
    · rw [List.mem_singleton.1 hg] at hkind
      apply absurd hf hkind
  case untouched =>
    intro i hi hout
    apply h.untouched i hi
    intro g hg
    apply hout g (List.mem_append_left _ hg)

/-- The veneer of a fixup has its place. -/
theorem veneerBytes_of_viaVeneer {f : AsmFixup} (hvia : f.reloc.viaVeneer = true)
    (harch : f.reloc.arch = arch) :
  f.veneerBytes = arch.veneerSize
  := by
  rw [← harch, AsmFixup.veneerBytes]
  cases hr : f.reloc with
  | aarch64Call26 | aarch64Jump26 | x86Call32 | x86Jmp32 | x86Jcc32 => rfl
  | _ =>
    rw [hr] at hvia
    cases hvia

/-- A veneer that is found is there. -/
theorem mem_of_veneerLookup {vmap : List VeneerSlot} {target vp : Word}
    (h : veneerLookup vmap target = some vp) :
  ⟨target, vp⟩ ∈ vmap
  := by
  rw [veneerLookup, Option.map_eq_some_iff] at h
  obtain ⟨slot, hfind, rfl⟩ := h
  have htarget : slot.target = target := by simpa using List.find?_some hfind
  rw [← htarget]
  apply List.mem_of_find?_eq_some hfind

/-- A fixup that was patched stands for the word of an instruction. -/
theorem Patched.inCode {f : AsmFixup} (h : Patched resolver enc buf s f)
    (hkind : f.kind ≠ .classMember) :
  f.InCode
  := by
  obtain ⟨-, d, htakes, -⟩ := h
  apply And.intro hkind htakes.reloc_ne

/-- What lies in the code is not changed by a veneer. -/
theorem Patched.emit {s' : JitState} {f : AsmFixup} (h : Patched resolver enc buf s f)
    (hf : f.patchOffset + 4 ≤ enc.bytes.length)
    (hmem : ∀ i < enc.bytes.length, s'.mem i = s.mem i) (hvmap : ∀ v ∈ s.vmap, v ∈ s'.vmap) :
  Patched resolver enc buf s' f
  := by
  obtain ⟨hzero, d, htakes, hread, hd⟩ := h
  refine ⟨hzero, d, htakes, ?_, hd.imp_right (And.imp_right (And.imp_right (hvmap _)))⟩
  rw [← hread]
  apply read_congr
  intro i _ hi
  apply hmem
  omega

/-- A veneer for a target that a fixup does not take. -/
theorem JitInv.emit (h : JitInv arch resolver enc buf asked done s)
    (hdone : ∀ g ∈ done, g.InCode → g.patchOffset + 4 ≤ enc.bytes.length)
    {f : AsmFixup} {target : Word} (hvia : f.reloc.viaVeneer = true) (harch : f.reloc.arch = arch)
    (hnot : ¬ f.Takes buf target) (htakes : f.Takes buf (arch.veneerOf buf s target).1) :
  JitInv arch resolver enc buf (asked ++ [f]) done (arch.veneerOf buf s target).2
    ∧ ⟨target, (arch.veneerOf buf s target).1⟩ ∈ (arch.veneerOf buf s target).2.vmap
    ∧ ∀ i < enc.bytes.length, (arch.veneerOf buf s target).2.mem i = s.mem i
  := by
  rw [JitArch.veneerOf, jitVeneer] at htakes ⊢
  cases hlook : veneerLookup s.vmap target with
  | some vp => exact ⟨h.ask f, mem_of_veneerLookup hlook, fun _ _ => rfl⟩
  | none =>
    rw [hlook] at htakes
    have hmem : ∀ i < s.veneerOff,
        write s.mem s.veneerOff (arch.veneer target) i = s.mem i := by
      intro i hi
      apply write_of_lt hi
    have hoff := h.off
    have hcode : ∀ i < enc.bytes.length,
        write s.mem s.veneerOff (arch.veneer target) i = s.mem i := by
      intro i hi
      apply hmem
      omega
    refine ⟨?_, List.mem_append_right _ (List.mem_singleton_self _), hcode⟩
    constructor
    case off =>
      change s.veneerOff + arch.veneerSize = _
      rw [List.length_append, List.length_singleton, Nat.mul_succ, hoff, Nat.add_assoc]
    case room =>
      change arch.veneerSize * (s.vmap ++ [_]).length ≤ _
      rw [List.length_append, List.length_singleton, Nat.mul_succ, List.map_append,
        List.sum_append, List.map_singleton, List.sum_singleton,
        veneerBytes_of_viaVeneer hvia harch]
      apply Nat.add_le_add_right h.room
    case slots =>
      intro k v hv
      rcases Nat.lt_or_ge k s.vmap.length with hk | hk
      · rw [List.getElem?_append_left hk] at hv
        obtain ⟨hveneer, hat⟩ := h.slots k v hv
        have hend : arch.veneerSize * (k + 1) ≤ arch.veneerSize * s.vmap.length :=
          Nat.mul_le_mul_left _ hk
        rw [Nat.mul_succ] at hend
        refine ⟨hveneer, ?_⟩
        intro i hlo hhi
        change write s.mem s.veneerOff (arch.veneer target) i = _
        rw [hmem i (by omega), hat i hlo hhi, write, write]
        have hin : enc.bytes.length + arch.veneerSize * k ≤ i
            ∧ i < enc.bytes.length + arch.veneerSize * k + (arch.veneer v.target).length := by
          rw [JitArch.length_veneer]
          exact ⟨hlo, hhi⟩
        rw [if_pos hin, if_pos hin]
      · have hlen : k - s.vmap.length = 0 := by
          have := (List.getElem?_eq_some_iff.1 hv).1
          rw [List.length_append, List.length_singleton] at this
          omega
        rw [List.getElem?_append_right hk, hlen] at hv
        obtain rfl := Option.some.inj hv
        obtain rfl : k = s.vmap.length := by omega
        rw [← hoff]
        refine ⟨rfl, ?_⟩
        intro i hlo hhi
        change write s.mem s.veneerOff (arch.veneer target) i
          = write (write s.mem s.veneerOff (arch.veneer target)) s.veneerOff
            (arch.veneer target) i
        have hin : s.veneerOff ≤ i ∧ i < s.veneerOff + (arch.veneer target).length := by
          rw [JitArch.length_veneer]
          exact ⟨hlo, hhi⟩
        rw [write, if_pos hin, write, if_pos hin]
    case given =>
      intro v hv
      rcases List.mem_append.1 hv with hv | hv
      · apply (h.ask f).given v hv
      · rw [List.mem_singleton.1 hv]
        exact ⟨f, List.mem_append_right _ (List.mem_singleton_self f), hvia, harch, hnot, htakes⟩
    case landed =>
      intro g hg hkind
      have hg' := h.landed g hg hkind
      apply hg'.emit (hdone g hg (hg'.inCode hkind)) hcode
      intro v hv
      apply List.mem_append_left _ hv
    case untouched =>
      intro i hi hout
      apply (hcode i hi).trans (h.untouched i hi hout)

/-- The word of a fixup is written. -/
theorem JitInv.patch (h : JitInv arch resolver enc buf asked done s)
    {f : AsmFixup} (hkind : f.kind ≠ .classMember)
    (hf : f.patchOffset + 4 ≤ enc.bytes.length)
    (happart : ∀ g ∈ done, g.kind ≠ .classMember →
      g.patchOffset + 4 ≤ f.patchOffset ∨ f.patchOffset + 4 ≤ g.patchOffset)
    (hzero : jitTarget resolver enc.labels buf f ≠ 0) {d : Word} (htakes : f.Takes buf d)
    (hd : d = jitTarget resolver enc.labels buf f
      ∨ f.reloc.viaVeneer = true ∧ ¬ f.Takes buf (jitTarget resolver enc.labels buf f)
        ∧ ⟨jitTarget resolver enc.labels buf f, d⟩ ∈ s.vmap) :
  JitInv arch resolver enc buf asked (done ++ [f]) (s.patched f buf d)
  := by
  have hlayout (w : BitVec 32) : (layout 4 w).length = 4 := length_layout 4 w
  have houtside : ∀ i, i < f.patchOffset ∨ f.patchOffset + 4 ≤ i →
      (s.patched f buf d).mem i = s.mem i := by
    intro i hi
    rcases hi with hi | hi
    · apply write_of_lt hi
    · apply write_of_ge
      rwa [hlayout]
  constructor
  case off => apply h.off
  case room => apply h.room
  case slots =>
    intro k v hv
    obtain ⟨hveneer, hat⟩ := h.slots k v hv
    refine ⟨hveneer, ?_⟩
    intro i hlo hhi
    rw [houtside i (by omega), hat i hlo hhi]
    have hin : enc.bytes.length + arch.veneerSize * k ≤ i
        ∧ i < enc.bytes.length + arch.veneerSize * k + (arch.veneer v.target).length := by
      rw [JitArch.length_veneer]
      exact ⟨hlo, hhi⟩
    rw [write, write, if_pos hin, if_pos hin]
  case given => apply h.given
  case landed =>
    intro g hg hkind
    rcases List.mem_append.1 hg with hg | hg
    · obtain ⟨hgzero, e, hgtakes, hread, he⟩ := h.landed g hg hkind
      refine ⟨hgzero, e, hgtakes, ?_, he⟩
      rw [← hread]
      apply read_congr
      intro i hlo hhi
      apply houtside
      have := happart g hg hkind
      omega
    · obtain rfl := List.mem_singleton.1 hg
      refine ⟨hzero, d, htakes, ?_, hd⟩
      have hbefore : read s.mem g.patchOffset 4 = read (ofList enc.bytes) g.patchOffset 4 := by
        apply read_congr
        intro i hlo hhi
        apply h.untouched i (by omega)
        intro e he hekind
        have := happart e he hekind
        omega
      rw [← hbefore]
      apply read_write_layout
  case untouched =>
    intro i hi hout
    rw [houtside i (hout f (List.mem_append_right _ (List.mem_singleton_self f)) hkind)]
    apply h.untouched i hi
    intro g hg
    apply hout g (List.mem_append_left _ hg)

/-- One turn of the loop keeps the invariant. -/
theorem JitInv.step {f : AsmFixup} {rest : List AsmFixup} (hwf : enc.WellFormed arch)
    (hfixups : enc.fixups = done ++ f :: rest) (h : JitInv arch resolver enc buf done done s)
    {s' : JitState} (hstep : jitFixup resolver enc.labels buf s f = some s') :
  JitInv arch resolver enc buf (done ++ [f]) (done ++ [f]) s'
  := by
  rw [jitFixup] at hstep
  by_cases hkind : f.kind = .classMember
  · rw [if_pos hkind] at hstep
    obtain rfl := Option.some.inj hstep
    apply h.skip hkind
  · rw [if_neg hkind] at hstep
    by_cases hzero : jitTarget resolver enc.labels buf f = 0
    · simp only [hzero, if_pos] at hstep
      cases hstep
    · simp only [hzero, if_false] at hstep
      have hmem : f ∈ enc.fixups := by
        rw [hfixups]
        simp
      have hdone : ∀ g ∈ done, g ∈ enc.fixups := by
        intro g hg
        rw [hfixups]
        apply List.mem_append_left _ hg
      have hdoneIn : ∀ g ∈ done, g.InCode → g.patchOffset + 4 ≤ enc.bytes.length := by
        intro g hg
        apply hwf.inside g (hdone g hg)
      have happart : f.InCode → ∀ g ∈ done, g.kind ≠ .classMember →
          g.patchOffset + 4 ≤ f.patchOffset ∨ f.patchOffset + 4 ≤ g.patchOffset := by
        intro hf g hg hgkind
        have hpair := hwf.apart
        rw [hfixups, List.pairwise_append] at hpair
        apply hpair.2.2 g hg f List.mem_cons_self ((h.landed g hg hgkind).inCode hgkind) hf
      rcases jitPatch_cases hstep with ⟨htakes, rfl⟩ | ⟨hvia, hnot, htakes, rfl⟩
      · have hf : f.InCode := ⟨hkind, htakes.reloc_ne⟩
        apply (h.ask f).patch hkind (hwf.inside f hmem hf) (happart hf) hzero htakes (Or.inl rfl)
      · have hf : f.InCode := ⟨hkind, htakes.reloc_ne⟩
        have harch := hwf.arch f hmem hf
        rw [harch] at htakes ⊢
        obtain ⟨hemit, hslot, -⟩ := h.emit hdoneIn hvia harch hnot htakes
        apply hemit.patch hkind (hwf.inside f hmem hf) (happart hf) hzero htakes
        right
        exact ⟨hvia, hnot, hslot⟩

/-- The loop keeps the invariant. -/
theorem JitInv.loop (hwf : enc.WellFormed arch) (rest : List AsmFixup)
    (hfixups : enc.fixups = done ++ rest) (h : JitInv arch resolver enc buf done done s)
    {s' : JitState} (hloop : rest.foldlM (jitFixup resolver enc.labels buf) s = some s') :
  JitInv arch resolver enc buf enc.fixups enc.fixups s'
  := by
  induction rest generalizing done s with
  | nil =>
    obtain rfl := Option.some.inj hloop
    rw [hfixups, List.append_nil]
    apply h
  | cons f rest ih =>
    rw [List.foldlM_cons, Option.bind_eq_bind, Option.bind_eq_some_iff] at hloop
    obtain ⟨s₁, hstep, hrest⟩ := hloop
    apply ih _ (h.step hwf hfixups hstep) hrest
    rw [hfixups, List.append_assoc, List.singleton_append]

end

end Polyc
