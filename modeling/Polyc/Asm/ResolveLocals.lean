import Polyc.Asm.LocalLabels

/-!
# What `asm_encode` leaves

Every reference to a local label is resolved, kept or reported, and nothing else changes.  The
distances that do not fit their field are left out, and so are the data directives with local
labels on AArch64.
-/

namespace Polyc

open Bytes BitField

/-! ### One reference -/

namespace AsmFixup

variable (arch : JitArch) (labels : List AsmLabelDef) (f : AsmFixup)

/-- A reference that waits for the address of the code. -/
def isPaged : Bool :=
  arch = .aarch64 && (f.reloc = .aarch64Page21 || f.reloc = .aarch64PageOff12)

/-- A reference to a local label that is resolved. -/
def isResolved : Bool :=
  f.kind = .local && !f.isPaged arch && (findLocalNum labels f.localNum).isSome

/-- A reference to a local label that is not there. -/
def isMissing : Bool :=
  f.kind = .local && !f.isPaged arch && (findLocalNum labels f.localNum).isNone

/-- What is left of a fixup: those that are not local and those that wait for the address of the
code, and on x86-64 the data directives, which wait for it under a symbol. -/
def kept : Option AsmFixup :=
  if f.kind ≠ .local ∨ f.isPaged arch = true then some f
  else if f.isResolved arch labels = true ∧ arch = .x86 ∧ f.pcrel = false then
    some { f with kind := .symbol, sym := "__asm_local_" ++ toString f.localNum }
  else none

/-- The bytes that are written for a reference to a label at an offset. -/
def resolvedBytes (target : Nat) (m : Mem) : List Byte :=
  match arch with
  | .aarch64 =>
    if f.width = 19 then
      layout 4 (setField (read m f.patchOffset 4) 5 19 (aarch64RelWords target f.patchOffset))
    else layout 4 (setField (read m f.patchOffset 4) 0 26 (aarch64RelWords target f.patchOffset))
  | .x86 =>
    if f.pcrel then layout 4 (BitVec.ofInt 32 ((target : Int) - (f.patchOffset + f.width)))
    else layout f.width (BitVec.ofNat 64 target)

/-- The offset of the label of a reference. -/
def targetOf : Nat := ((findLocalNum labels f.localNum).map AsmLabelDef.byteOffset).getD 0

/-- What is written for a reference. -/
def newBytes (m : Mem) : List Byte := f.resolvedBytes arch (f.targetOf labels) m

end AsmFixup

/-- A branch of 26 bits with its field set. -/
theorem setField_branch26 (w relWords : BitVec 32) :
  (w &&& 0xFC000000#32) ||| (relWords &&& 0x03FFFFFF#32) = setField w 0 26 relWords
  := by
  rw [setField, BitVec.shiftLeft_zero, BitVec.shiftLeft_zero]
  rfl

/-- The references of x86-64 instructions have words of four bytes. -/
theorem AsmFixup.Stands.width_eq {f : AsmFixup} {bytes : List Byte}
    (h : f.Stands .x86 bytes) (hpcrel : f.pcrel = true) :
  f.width = 4
  := by
  cases h with
  | instr instr hwidth _ _ _ =>
    rw [hwidth]
    cases instr <;> rfl
  | data _ hdata _ =>
    rw [isData, hpcrel] at hdata
    cases hdata

/-- What a turn of the loop does with a fixup. -/
def AsmFixup.resolve (arch : JitArch) (e : AsmEnc) (f : AsmFixup) : AsmEnc :=
  { e with
    bytes := if f.isResolved arch e.labels then
        overwrite e.bytes f.patchOffset (f.newBytes arch e.labels (ofList e.bytes))
      else e.bytes
    fixups := e.fixups ++ (f.kept arch e.labels).toList
    errors := e.errors + if f.isMissing arch e.labels then 1 else 0 }

/-- One turn of the loop on AArch64. -/
theorem aarch64ResolveFixup_eq (e : AsmEnc) {f : AsmFixup} (hkind : f.kind = .local) :
  aarch64ResolveFixup e f = f.resolve .aarch64 e
  := by
  rw [aarch64ResolveFixup, if_neg (not_not.2 hkind)]
  by_cases hpage : f.reloc = .aarch64Page21 ∨ f.reloc = .aarch64PageOff12
  · have hpaged : f.isPaged .aarch64 = true := by simpa [AsmFixup.isPaged] using hpage
    simp [if_pos hpage, AsmFixup.resolve, AsmFixup.isResolved, AsmFixup.isMissing,
      AsmFixup.kept, hpaged, asmAddFixup]
  · have hpaged : f.isPaged .aarch64 = false := by simpa [AsmFixup.isPaged] using hpage
    rw [if_neg hpage]
    cases hfind : findLocalNum e.labels f.localNum with
    | none =>
      simp [AsmFixup.resolve, AsmFixup.isResolved, AsmFixup.isMissing, AsmFixup.kept, hkind,
        hpaged, hfind, asmErrAt]
    | some d =>
      have htarget : f.targetOf e.labels = d.byteOffset := by rw [AsmFixup.targetOf, hfind]; rfl
      by_cases hwidth : f.width = 19
      · simp [AsmFixup.resolve, AsmFixup.isResolved, AsmFixup.isMissing, AsmFixup.kept, hkind,
          hpaged, hfind, hwidth, AsmFixup.newBytes, AsmFixup.resolvedBytes, htarget,
          aarch64EncPatchImm19]
        rfl
      · simp [AsmFixup.resolve, AsmFixup.isResolved, AsmFixup.isMissing, AsmFixup.kept, hkind,
          hpaged, hfind, hwidth, AsmFixup.newBytes, AsmFixup.resolvedBytes, htarget,
          aarch64EncPatchBranch26, setField_branch26]

/-- One turn of the loop on x86-64. -/
theorem x86ResolveFixup_eq (e : AsmEnc) {f : AsmFixup} (hkind : f.kind = .local)
    (hwidth : f.pcrel = true → f.width = 4) :
  x86ResolveFixup e f = f.resolve .x86 e
  := by
  have hpaged : f.isPaged .x86 = false := rfl
  rw [x86ResolveFixup, if_neg (not_not.2 hkind)]
  cases hfind : findLocalNum e.labels f.localNum with
  | none =>
    simp [AsmFixup.resolve, AsmFixup.isResolved, AsmFixup.isMissing, AsmFixup.kept, hkind,
      hpaged, hfind, asmErrAt]
  | some d =>
    have htarget : f.targetOf e.labels = d.byteOffset := by rw [AsmFixup.targetOf, hfind]; rfl
    cases hpcrel : f.pcrel with
    | true =>
      simp [AsmFixup.resolve, AsmFixup.isResolved, AsmFixup.isMissing, AsmFixup.kept, hkind,
        hpaged, hfind, hwidth hpcrel, hpcrel, AsmFixup.newBytes, AsmFixup.resolvedBytes, htarget]
    | false =>
      simp [AsmFixup.resolve, AsmFixup.isResolved, AsmFixup.isMissing, AsmFixup.kept, hkind,
        hpaged, hfind, hpcrel, AsmFixup.newBytes, AsmFixup.resolvedBytes, htarget, asmAddFixup]

/-- One turn of the loop. -/
theorem resolveFixup_eq {arch : JitArch} (e : AsmEnc) {f : AsmFixup} {bytes : List Byte}
    (hf : f.kind = .local → f.Stands arch bytes) :
  resolveFixup arch e f = f.resolve arch e
  := by
  by_cases hkind : f.kind = .local
  · cases arch with
    | aarch64 => apply aarch64ResolveFixup_eq e hkind
    | x86 => apply x86ResolveFixup_eq e hkind (hf hkind).width_eq
  · have hresolved : f.isResolved arch e.labels = false := by simp [AsmFixup.isResolved, hkind]
    have hmissing : f.isMissing arch e.labels = false := by simp [AsmFixup.isMissing, hkind]
    rw [AsmFixup.resolve, hresolved, hmissing, AsmFixup.kept, if_pos (Or.inl hkind)]
    cases arch <;> simp [resolveFixup, aarch64ResolveFixup, x86ResolveFixup, hkind, asmAddFixup]

/-! ### The loop -/

section
variable {arch : JitArch} {labels : List AsmLabelDef} {f : AsmFixup} {bytes : List Byte}

/-- On AArch64 a word is written. -/
theorem AsmFixup.length_newBytes_aarch64 (f : AsmFixup) (m : Mem) :
  (f.newBytes .aarch64 labels m).length = 4
  := by
  change (if _ then layout 4 _ else layout 4 _).length = 4
  split_ifs <;> apply length_layout

/-- The number of bytes that are written for a reference. -/
theorem AsmFixup.Stands.length_newBytes (h : f.Stands arch bytes) (labels : List AsmLabelDef)
    (m : Mem) :
  (f.newBytes arch labels m).length = f.span
  := by
  cases h with
  | data harch hdata hwidth =>
    have hpcrel : f.pcrel = false := by
      rw [isData, Bool.and_eq_true, Bool.not_eq_true'] at hdata
      apply hdata.1
    subst harch
    change (if f.pcrel = true then layout 4 _ else layout f.width _).length = _
    rw [hpcrel, span, hdata]
    apply length_layout
  | instr instr hwidth hpcrel hreloc hread =>
    have hdata : f.isData = false := by
      rw [isData, hpcrel, hreloc]
      cases instr <;> rfl
    rw [span, hdata]
    cases arch with
    | aarch64 => apply length_newBytes_aarch64
    | x86 =>
      have hp : f.pcrel = true := by
        rw [hpcrel]
        cases instr <;> rfl
      change (if f.pcrel = true then layout 4 _ else layout f.width _).length = _
      rw [if_pos hp]
      apply length_layout

/-- What is written for a reference depends on its own bytes. -/
theorem AsmFixup.Stands.newBytes_congr (h : f.Stands arch bytes) {m m' : Mem}
    (hm : ∀ i, f.patchOffset ≤ i → i < f.patchOffset + f.span → m i = m' i) :
  f.newBytes arch labels m = f.newBytes arch labels m'
  := by
  cases arch with
  | x86 => rfl
  | aarch64 =>
    have hspan : f.span = 4 := by
      rw [← h.length_newBytes labels m]
      apply length_newBytes_aarch64
    have hread : read m f.patchOffset 4 = read m' f.patchOffset 4 := by
      apply read_congr
      rwa [← hspan]
    change (if f.width = 19 then layout 4 (setField (read m f.patchOffset 4) _ _ _) else _) = _
    rw [hread]
    rfl

end

/-- What the loop does with a list of fixups. -/
structure Resolves (arch : JitArch) (e : AsmEnc) (fs : List AsmFixup) (e' : AsmEnc) :
    Prop where
  labels : e'.labels = e.labels
  length : e'.bytes.length = e.bytes.length
  fixups : e'.fixups = e.fixups ++ fs.filterMap (AsmFixup.kept arch e.labels)
  errors : e'.errors = e.errors + fs.countP (AsmFixup.isMissing arch e.labels)
  bytes : ofList e'.bytes = writes AsmFixup.patchOffset (AsmFixup.newBytes arch e.labels)
    (ofList e.bytes) (fs.filter (AsmFixup.isResolved arch e.labels))

/-- The loop over fixups that stand for references. -/
theorem resolves_foldl {arch : JitArch} {bytes : List Byte} (fixups : List AsmFixup) (e : AsmEnc)
    (hstands : ∀ f ∈ fixups, f.kind = .local → f.Stands arch bytes)
    (hinside : ∀ f ∈ fixups, f.kind = .local → f.patchOffset + f.span ≤ e.bytes.length) :
  Resolves arch e fixups (fixups.foldl (resolveFixup arch) e)
  := by
  induction fixups generalizing e with
  | nil => constructor <;> simp [writes]
  | cons f fixups ih =>
    rw [List.forall_mem_cons] at hstands hinside
    have hlen : (f.resolve arch e).bytes.length = e.bytes.length := by
      rw [AsmFixup.resolve]
      simp only
      split_ifs <;> simp
    have hrest := ih (f.resolve arch e) hstands.2 (by simpa only [hlen] using hinside.2)
    have hlabels : (f.resolve arch e).labels = e.labels := rfl
    have hbytes : ofList (f.resolve arch e).bytes
        = if f.isResolved arch e.labels then
            write (ofList e.bytes) f.patchOffset (f.newBytes arch e.labels (ofList e.bytes))
          else ofList e.bytes := by
      rw [AsmFixup.resolve]
      simp only
      split_ifs with hresolved
      · have hkind : f.kind = .local := by
          simp only [AsmFixup.isResolved, Bool.and_eq_true, decide_eq_true_eq] at hresolved
          apply hresolved.1.1
        apply ofList_overwrite
        rw [(hstands.1 hkind).length_newBytes]
        apply hinside.1 hkind
      · rfl
    rw [List.foldl_cons, resolveFixup_eq e hstands.1]
    constructor
    case labels => rw [hrest.labels, hlabels]
    case length => rw [hrest.length, hlen]
    case fixups =>
      rw [hrest.fixups, hlabels, AsmFixup.resolve]
      cases hkept : f.kept arch e.labels <;> simp [hkept]
    case errors =>
      rw [hrest.errors, hlabels, AsmFixup.resolve, List.countP_cons]
      simp only
      omega
    case bytes =>
      rw [hrest.bytes, hlabels, hbytes, List.filter_cons]
      split_ifs <;> rfl

/-! ### The displacements -/

/-- How far `B`, `BL`, `B.cond`, `CBZ` and `CBNZ` go. -/
def a64Displacement (w : BitVec 32) : Option Int :=
  if w.extractLsb' 26 5 = 0b00101 then some (4 * (w.extractLsb' 0 26).toInt)
  else if w.extractLsb' 24 8 = 0x54 ∨ w.extractLsb' 25 6 = 0x1A then
    some (4 * (w.extractLsb' 5 19).toInt)
  else none

namespace AsmFixup

variable (arch : JitArch) (f : AsmFixup)

/-- The offset that a reference relative to its address leads to. -/
def landsAt (bytes : List Byte) : Option Int :=
  let w := read (ofList bytes) f.patchOffset 4
  match arch with
  | .aarch64 => (a64Displacement w).map (f.patchOffset + ·)
  | .x86 => some (f.patchOffset + 4 + w.toInt)

/-- The distance to an offset fits the field of a reference. -/
def InRange (target : Nat) : Prop :=
  match arch with
  | .aarch64 => (4 : Int) ∣ target - f.patchOffset
    ∧ Fits (if f.width = 19 then 19 else 26) (((target : Int) - f.patchOffset) / 4)
  | .x86 => Fits 32 ((target : Int) - (f.patchOffset + 4))

instance (target : Nat) : Decidable (f.InRange arch target) := by
  cases arch <;> unfold InRange <;> infer_instance

end AsmFixup

/-- The number of words to a target that fits a field of at most 26 bits. -/
theorem toInt_aarch64RelWords {target off n : Nat} (hn : n ≤ 26)
    (hdvd : (4 : Int) ∣ (target : Int) - off) (hfits : Fits n (((target : Int) - off) / 4)) :
  (aarch64RelWords target off).toInt = ((target : Int) - off) / 4
  := by
  have hpow : (2 : Int) ^ (n - 1) ≤ 2 ^ 25 := by
    apply pow_le_pow_right₀ (by decide)
    omega
  obtain ⟨hlo, hhi⟩ := hfits
  have hfour : (4 : BitVec 32).toInt = 4 := rfl
  have hword : (BitVec.ofInt 32 ((target : Int) - off)).toInt = (target : Int) - off := by
    rw [BitVec.toInt_ofInt]
    apply Int.bmod_eq_of_le <;> norm_num at hpow ⊢ <;> omega
  rw [aarch64RelWords, BitVec.toInt_sdiv, hfour, hword, Int.tdiv_eq_ediv_of_dvd hdvd]
  apply Int.bmod_eq_of_le <;> norm_num at hpow ⊢ <;> omega

/-- The branches of 26 bits are recognised after their field is set. -/
theorem a64Displacement_branch (isBl : Bool) {v : BitVec 32} (hv : Fits 26 v.toInt) :
  a64Displacement (setField (aarch64Placeholder (.branch isBl)) 0 26 v) = some (4 * v.toInt)
  := by
  have hop : (aarch64Placeholder (.branch isBl)).extractLsb' 26 5 = 0b00101 := by
    cases isBl <;> decide
  rw [a64Displacement, extract_setField_of_disjoint _ _ (by decide) (by decide), if_pos hop,
    extract_setField _ _ (by decide), toInt_setWidth_of_fits (by decide) (by decide) hv]

/-- The branches of 19 bits are recognised after their field is set. -/
theorem a64Displacement_imm19 {w v : BitVec 32} (hnot : w.extractLsb' 26 5 ≠ 0b00101)
    (hop : w.extractLsb' 24 8 = 0x54 ∨ w.extractLsb' 25 6 = 0x1A) (hv : Fits 19 v.toInt) :
  a64Displacement (setField w 5 19 v) = some (4 * v.toInt)
  := by
  rw [a64Displacement, extract_setField_of_disjoint _ _ (by decide) (by decide), if_neg hnot,
    extract_setField_of_disjoint _ _ (by decide) (by decide),
    extract_setField_of_disjoint _ _ (by decide) (by decide), if_pos hop,
    extract_setField _ _ (by decide), toInt_setWidth_of_fits (by decide) (by decide) hv]

/-- The placeholder of `B.cond`. -/
theorem placeholder_bCond (cc : BitVec 4) :
  (aarch64Placeholder (.bCond cc)).extractLsb' 26 5 ≠ 0b00101
    ∧ (aarch64Placeholder (.bCond cc)).extractLsb' 24 8 = 0x54
  := by
  revert cc
  decide

/-- The placeholders of `CBZ` and `CBNZ`. -/
theorem placeholder_cbz (is64 isNonzero : Bool) (rt : BitVec 5) :
  (aarch64Placeholder (.cbz is64 isNonzero rt)).extractLsb' 26 5 ≠ 0b00101
    ∧ (aarch64Placeholder (.cbz is64 isNonzero rt)).extractLsb' 25 6 = 0x1A
  := by
  revert rt
  cases is64 <;> cases isNonzero <;> decide

/-! ### The result -/

/-- The bits of a word that a branch field takes on AArch64. -/
def AsmFixup.branchMask (f : AsmFixup) : BitVec 32 :=
  if f.width = 19 then mask 32 19 <<< 5 else mask 32 26 <<< 0

/-- What resolving the local labels of a block leaves. -/
structure LocalsResolved (arch : JitArch) (pre post : AsmEnc) : Prop where
  length : post.bytes.length = pre.bytes.length
  reaches : ∀ f ∈ pre.fixups, f.kind = .local → f.isPaged arch = false → f.pcrel = true →
    ∀ d ∈ pre.labels, d.localNum = f.localNum → f.InRange arch d.byteOffset →
    f.landsAt arch post.bytes = some (d.byteOffset : Int)
  keeps : ∀ f ∈ pre.fixups, f.isResolved arch pre.labels = true → arch = .aarch64 →
    read (ofList post.bytes) f.patchOffset 4 &&& ~~~f.branchMask
      = read (ofList pre.bytes) f.patchOffset 4 &&& ~~~f.branchMask
  data : ∀ f ∈ pre.fixups, f.kind = .local → f.isData = true → arch = .x86 →
    ∀ d ∈ pre.labels, d.localNum = f.localNum →
    ∀ k < f.width, ofList post.bytes (f.patchOffset + k)
      = (BitVec.ofNat 64 d.byteOffset).extractLsb' (8 * k) 8
  reported : post.errors = pre.errors + pre.fixups.countP fun f =>
    f.kind = .local && !f.isPaged arch && pre.labels.all fun d => d.localNum ≠ f.localNum
  untouched : ∀ i,
    (∀ f ∈ pre.fixups, f.isResolved arch pre.labels = true →
      i < f.patchOffset ∨ f.patchOffset + f.span ≤ i) →
    ofList post.bytes i = ofList pre.bytes i
  left : post.fixups = pre.fixups.filterMap (AsmFixup.kept arch pre.labels)

section
variable {arch : JitArch} {lines : List (AsmLine arch)}

/-- A reference that is resolved is local. -/
theorem AsmFixup.kind_of_isResolved {labels : List AsmLabelDef} {f : AsmFixup}
    (h : f.isResolved arch labels = true) :
  f.kind = .local
  := by
  simp only [isResolved, Bool.and_eq_true, decide_eq_true_eq] at h
  apply h.1.1

/-- The references of a block are resolved by the loop. -/
theorem resolves_asmEncode (h : ∀ line ∈ lines, line.Resolvable) :
  Resolves arch { asmEncLines lines with fixups := [] } (asmEncLines lines).fixups
    (asmEncode lines)
  := by
  have hrefers := refers_asmEncLines h
  apply resolves_foldl _ { asmEncLines lines with fixups := [] } hrefers.stands hrefers.inside

/-- A byte of a reference that is resolved. -/
theorem byte_asmEncode (h : ∀ line ∈ lines, line.Resolvable) {f : AsmFixup}
    (hf : f ∈ (asmEncLines lines).fixups)
    (hresolved : f.isResolved arch (asmEncLines lines).labels = true) {i : Nat}
    (hlo : f.patchOffset ≤ i) (hhi : i < f.patchOffset + f.span) :
  ofList (asmEncode lines).bytes i = write (ofList (asmEncLines lines).bytes) f.patchOffset
    (f.newBytes arch (asmEncLines lines).labels (ofList (asmEncLines lines).bytes)) i
  := by
  have hrefers := refers_asmEncLines h
  rw [(resolves_asmEncode h).bytes]
  apply writes_of_inside AsmFixup.span _ _ _ _ hlo hhi
  · intro g hg m
    rw [List.mem_filter] at hg
    apply (hrefers.stands g hg.1 (AsmFixup.kind_of_isResolved hg.2)).length_newBytes
  · intro g hg m m' hm
    rw [List.mem_filter] at hg
    apply (hrefers.stands g hg.1 (AsmFixup.kind_of_isResolved hg.2)).newBytes_congr hm
  · rw [List.pairwise_filter]
    apply hrefers.apart.imp
    intro x y hxy hx hy
    apply hxy (AsmFixup.kind_of_isResolved hx) (AsmFixup.kind_of_isResolved hy)
  · apply List.mem_filter.2 ⟨hf, hresolved⟩

/-- The word of a reference that is resolved. -/
theorem read_asmEncode (h : ∀ line ∈ lines, line.Resolvable) {f : AsmFixup}
    (hf : f ∈ (asmEncLines lines).fixups)
    (hresolved : f.isResolved arch (asmEncLines lines).labels = true) (hspan : f.span = 4)
    {w : BitVec 32}
    (hnew : f.newBytes arch (asmEncLines lines).labels (ofList (asmEncLines lines).bytes)
      = layout 4 w) :
  read (ofList (asmEncode lines).bytes) f.patchOffset 4 = w
  := by
  calc read (ofList (asmEncode lines).bytes) f.patchOffset 4
    _ = read (write (ofList (asmEncLines lines).bytes) f.patchOffset (layout 4 w))
          f.patchOffset 4 := by
        apply read_congr
        intro i hlo hhi
        rw [byte_asmEncode h hf hresolved hlo (by rwa [hspan]), hnew]
    _ = w := read_write_layout _ _ _ _

/-- The label of a reference. -/
theorem targetOf_asmEncLines (h : ∀ line ∈ lines, line.Resolvable)
    (hunique : (lines.filterMap AsmLine.localLabel).Nodup) {f : AsmFixup}
    (hf : f ∈ (asmEncLines lines).fixups) (hkind : f.kind = .local) {d : AsmLabelDef}
    (hd : d ∈ (asmEncLines lines).labels) (hnum : d.localNum = f.localNum) :
  findLocalNum (asmEncLines lines).labels f.localNum = some d
    ∧ f.targetOf (asmEncLines lines).labels = d.byteOffset
  := by
  have hnonneg : 0 ≤ d.localNum := by
    rw [hnum]
    apply (refers_asmEncLines h).numbered f hf hkind
  have hfind := findLocalNum_of_mem hunique hd hnonneg
  rw [hnum] at hfind
  rw [AsmFixup.targetOf, hfind]
  exact ⟨rfl, rfl⟩

/-- No label is found if none has the number. -/
theorem isNone_findLocalNum (labels : List AsmLabelDef) (localNum : Int) :
  (findLocalNum labels localNum).isNone = labels.all fun d => d.localNum ≠ localNum
  := by
  rw [findLocalNum, Bool.eq_iff_iff, Option.isNone_iff_eq_none, List.find?_eq_none,
    List.all_eq_true]
  simp

/-- A reference to a label that is there is resolved. -/
theorem isResolved_of_find {labels : List AsmLabelDef} {f : AsmFixup} (hkind : f.kind = .local)
    (hpaged : f.isPaged arch = false) {d : AsmLabelDef}
    (hfind : findLocalNum labels f.localNum = some d) :
  f.isResolved arch labels = true
  := by
  simp [AsmFixup.isResolved, hkind, hpaged, hfind]

end

/-- The word that is written on AArch64. -/
theorem newBytes_aarch64 {labels : List AsmLabelDef} {f : AsmFixup} {target : Nat}
    (htarget : f.targetOf labels = target) (m : Mem) :
  f.newBytes .aarch64 labels m = layout 4 (if f.width = 19 then
      setField (read m f.patchOffset 4) 5 19 (aarch64RelWords target f.patchOffset)
    else setField (read m f.patchOffset 4) 0 26 (aarch64RelWords target f.patchOffset))
  := by
  rw [AsmFixup.newBytes, htarget]
  change (if f.width = 19 then layout 4 _ else layout 4 _) = _
  split_ifs <;> rfl

/-- A reference on AArch64 stands for a word. -/
theorem AsmFixup.Stands.span_aarch64 {f : AsmFixup} {bytes : List Byte}
    (h : f.Stands .aarch64 bytes) :
  f.span = 4
  := by
  rw [← h.length_newBytes [] (ofList [])]
  apply length_newBytes_aarch64

/-- The word of a reference that is resolved on AArch64. -/
theorem read_aarch64 {lines : List (AsmLine .aarch64)} (h : ∀ line ∈ lines, line.Resolvable)
    {f : AsmFixup} (hf : f ∈ (asmEncLines lines).fixups)
    (hresolved : f.isResolved .aarch64 (asmEncLines lines).labels = true) :
  read (ofList (asmEncode lines).bytes) f.patchOffset 4
    = if f.width = 19 then
        setField (read (ofList (asmEncLines lines).bytes) f.patchOffset 4) 5 19
          (aarch64RelWords (f.targetOf (asmEncLines lines).labels) f.patchOffset)
      else
        setField (read (ofList (asmEncLines lines).bytes) f.patchOffset 4) 0 26
          (aarch64RelWords (f.targetOf (asmEncLines lines).labels) f.patchOffset)
  := by
  have hstands := (refers_asmEncLines h).stands f hf (AsmFixup.kind_of_isResolved hresolved)
  apply read_asmEncode h hf hresolved hstands.span_aarch64
  apply newBytes_aarch64 rfl

/-- On AArch64 a reference whose distance fits reaches its label. -/
theorem reaches_aarch64 {lines : List (AsmLine .aarch64)} (h : ∀ line ∈ lines, line.Resolvable)
    {f : AsmFixup} (hf : f ∈ (asmEncLines lines).fixups) (hpcrel : f.pcrel = true)
    (hpaged : f.isPaged .aarch64 = false)
    (hresolved : f.isResolved .aarch64 (asmEncLines lines).labels = true)
    (hrange : f.InRange .aarch64 (f.targetOf (asmEncLines lines).labels)) :
  f.landsAt .aarch64 (asmEncode lines).bytes
    = some (f.targetOf (asmEncLines lines).labels : Int)
  := by
  obtain ⟨hdvd, hfits⟩ := hrange
  have hkind := AsmFixup.kind_of_isResolved hresolved
  have hsum : (f.patchOffset : Int)
      + 4 * (((f.targetOf (asmEncLines lines).labels : Int) - f.patchOffset) / 4)
        = f.targetOf (asmEncLines lines).labels := by omega
  change (a64Displacement (read (ofList (asmEncode lines).bytes) f.patchOffset 4)).map _ = _
  rw [read_aarch64 h hf hresolved]
  cases (refers_asmEncLines h).stands f hf hkind with
  | data harch => cases harch
  | instr instr hwidth hp hreloc hread =>
    rw [hread]
    cases instr with
    | branch isBl =>
      have hwidth4 : f.width = 4 := hwidth
      rw [hwidth4, if_neg (by decide)] at hfits ⊢
      have hrel := toInt_aarch64RelWords (by decide) hdvd hfits
      rw [← hrel] at hfits hsum
      rw [LocalInstr.placeholder, a64Displacement_branch isBl hfits, Option.map_some, hsum]
    | bCond cc =>
      have hwidth19 : f.width = 19 := hwidth
      rw [if_pos hwidth19] at hfits ⊢
      have hrel := toInt_aarch64RelWords (by decide) hdvd hfits
      rw [← hrel] at hfits hsum
      obtain ⟨hnot, hop⟩ := placeholder_bCond cc
      rw [LocalInstr.placeholder, a64Displacement_imm19 hnot (Or.inl hop) hfits,
        Option.map_some, hsum]
    | cbz is64 isNonzero rt =>
      have hwidth19 : f.width = 19 := hwidth
      rw [if_pos hwidth19] at hfits ⊢
      have hrel := toInt_aarch64RelWords (by decide) hdvd hfits
      rw [← hrel] at hfits hsum
      obtain ⟨hnot, hop⟩ := placeholder_cbz is64 isNonzero rt
      rw [LocalInstr.placeholder, a64Displacement_imm19 hnot (Or.inr hop) hfits,
        Option.map_some, hsum]
    | adrp rd =>
      rw [AsmFixup.isPaged, hreloc] at hpaged
      cases hpaged
    | addImm is64 rd rn =>
      rw [hp] at hpcrel
      cases hpcrel

/-- On x86-64 a reference whose distance fits reaches its label. -/
theorem reaches_x86 {lines : List (AsmLine .x86)} (h : ∀ line ∈ lines, line.Resolvable)
    {f : AsmFixup} (hf : f ∈ (asmEncLines lines).fixups) (hpcrel : f.pcrel = true)
    (hresolved : f.isResolved .x86 (asmEncLines lines).labels = true)
    (hrange : f.InRange .x86 (f.targetOf (asmEncLines lines).labels)) :
  f.landsAt .x86 (asmEncode lines).bytes = some (f.targetOf (asmEncLines lines).labels : Int)
  := by
  have hstands := (refers_asmEncLines h).stands f hf (AsmFixup.kind_of_isResolved hresolved)
  have hwidth := hstands.width_eq hpcrel
  have hspan : f.span = 4 := by
    rw [AsmFixup.span, AsmFixup.isData, hpcrel]
    rfl
  have hnew : f.newBytes .x86 (asmEncLines lines).labels (ofList (asmEncLines lines).bytes)
      = layout 4 (BitVec.ofInt 32 ((f.targetOf (asmEncLines lines).labels : Int)
        - (f.patchOffset + 4))) := by
    change (if f.pcrel = true then layout 4 _ else _) = _
    rw [if_pos hpcrel, hwidth]
    rfl
  obtain ⟨hlo, hhi⟩ := hrange
  have hword : (BitVec.ofInt 32 ((f.targetOf (asmEncLines lines).labels : Int)
      - (f.patchOffset + 4))).toInt
        = (f.targetOf (asmEncLines lines).labels : Int) - (f.patchOffset + 4) := by
    rw [BitVec.toInt_ofInt]
    apply Int.bmod_eq_of_le <;> norm_num at hlo hhi ⊢ <;> omega
  change some (_ + _ + (read (ofList (asmEncode lines).bytes) f.patchOffset 4).toInt) = _
  rw [read_asmEncode h hf hresolved hspan hnew, hword, add_sub_cancel]

/-- The bytes of a data directive on x86-64. -/
theorem data_x86 {lines : List (AsmLine .x86)} (h : ∀ line ∈ lines, line.Resolvable)
    {f : AsmFixup} (hf : f ∈ (asmEncLines lines).fixups) (hdata : f.isData = true)
    (hresolved : f.isResolved .x86 (asmEncLines lines).labels = true) {k : Nat}
    (hk : k < f.width) :
  ofList (asmEncode lines).bytes (f.patchOffset + k)
    = (BitVec.ofNat 64 (f.targetOf (asmEncLines lines).labels)).extractLsb' (8 * k) 8
  := by
  have hspan : f.span = f.width := by rw [AsmFixup.span, if_pos hdata]
  have hpcrel : f.pcrel = false := by
    rw [AsmFixup.isData, Bool.and_eq_true, Bool.not_eq_true'] at hdata
    apply hdata.1
  have hnew : f.newBytes .x86 (asmEncLines lines).labels (ofList (asmEncLines lines).bytes)
      = layout f.width (BitVec.ofNat 64 (f.targetOf (asmEncLines lines).labels)) := by
    change (if f.pcrel = true then _ else layout f.width _) = _
    rw [hpcrel]
    rfl
  rw [byte_asmEncode h hf hresolved (by omega) (by omega), hnew,
    write_of_mem (by rwa [length_layout]), layout, List.getD_eq_getElem?_getD, List.getElem?_map,
    List.getElem?_range hk]
  rfl

/-- The local labels of a block resolve, on AArch64 as long as no data directive refers to one:
a reference relative to its address whose distance fits its field reaches its label, a data
directive holds the offset of its label, a missing label is reported, nothing else changes, and
what is left are the fixups for symbols and those that wait for the address of the code. -/
theorem asmEncode_resolves (arch : JitArch) (lines : List (AsmLine arch))
    (hlines : ∀ line ∈ lines, line.Resolvable)
    (hunique : (lines.filterMap AsmLine.localLabel).Nodup) :
  LocalsResolved arch (asmEncLines lines) (asmEncode lines)
  := by
  have hrefers := refers_asmEncLines hlines
  have hloop := resolves_asmEncode hlines
  constructor
  case length => apply hloop.length
  case reaches =>
    intro f hf hkind hpaged hpcrel d hd hnum hrange
    obtain ⟨hfind, htarget⟩ := targetOf_asmEncLines hlines hunique hf hkind hd hnum
    have hresolved := isResolved_of_find hkind hpaged hfind
    rw [← htarget] at hrange ⊢
    cases arch with
    | aarch64 => apply reaches_aarch64 hlines hf hpcrel hpaged hresolved hrange
    | x86 => apply reaches_x86 hlines hf hpcrel hresolved hrange
  case keeps =>
    rintro f hf hresolved rfl
    rw [read_aarch64 hlines hf hresolved, AsmFixup.branchMask]
    split_ifs <;> apply setField_and_not
  case data =>
    rintro f hf hkind hdata rfl d hd hnum k hk
    obtain ⟨hfind, htarget⟩ := targetOf_asmEncLines hlines hunique hf hkind hd hnum
    rw [← htarget]
    apply data_x86 hlines hf hdata (isResolved_of_find hkind rfl hfind) hk
  case reported =>
    rw [hloop.errors]
    congr 2
    funext f
    rw [AsmFixup.isMissing, isNone_findLocalNum]
  case untouched =>
    intro i hi
    rw [hloop.bytes]
    apply writes_of_outside AsmFixup.span
    · intro f hf m
      rw [List.mem_filter] at hf
      apply (hrefers.stands f hf.1 (AsmFixup.kind_of_isResolved hf.2)).length_newBytes
    · intro f hf
      rw [List.mem_filter] at hf
      apply hi f hf.1 hf.2
  case left =>
    rw [hloop.fixups]
    rfl

/-- A branch over an instruction with its label behind it, on AArch64. -/
theorem asmEncode_resolves_forward :
  LocalsResolved .aarch64
    (asmEncLines [.refLocal (.bCond 1) 1, .plain ⟨[0x1F, 0x20, 0x03, 0xD5], [], 0, by simp⟩,
      .labelLocal 1])
    (asmEncode [.refLocal (.bCond 1) 1, .plain ⟨[0x1F, 0x20, 0x03, 0xD5], [], 0, by simp⟩,
      .labelLocal 1])
  := by
  apply asmEncode_resolves
  · rintro line hline
    simp only [List.mem_cons, List.not_mem_nil, or_false] at hline
    rcases hline with rfl | rfl | rfl <;> trivial
  · decide

/-- On x86-64 a data directive with a local label leaves a symbol fixup, though no symbol is
named. -/
theorem asmEncode_keeps_data :
  (asmEncode ([.directive "dq" [.local 1], .labelLocal 1] : List (AsmLine .x86))).errors = 0
    ∧ (asmEncode ([.directive "dq" [.local 1], .labelLocal 1] : List (AsmLine .x86))).fixups
      ≠ (asmEncLines
        ([.directive "dq" [.local 1], .labelLocal 1] : List (AsmLine .x86))).fixups.filter
          fun f => f.kind = .symbol
  := by
  decide

end Polyc
