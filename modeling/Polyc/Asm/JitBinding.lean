import Polyc.Asm.JitChunk

/-!
# What calls bind to

A call binds to the first label of its chunk that stands for its symbol, and else to the symbol
of the host, which is the last definition that was finalised and is not static.  The labels of a
chunk are its definitions in order; a call to one of them goes to another one exactly if a label
that differs by an underscore comes before it.
-/

namespace Polyc

open Bytes

/-! ### Definitions -/

/-- The names of the definitions of a chunk, in order. -/
def JitChunk.names (c : JitChunk) : List String :=
  c.allFunctions.map (fun f => c.normalise f.fname)
    ++ c.asmFunctions.flatMap fun f =>
      f.asmfname :: (f.text.map fun sub => sub.labels.filterMap AsmLabelDef.name).getD []

/-- A name of a chunk is that of a `static` function. -/
def JitChunk.isStaticName (c : JitChunk) (name : String) : Bool :=
  c.allFunctions.any fun f => f.isStatic && c.normalise f.fname = name

/-- A definition that has been finalised. -/
structure JitDef where
  name : String
  isStatic : Bool
  address : Word
  deriving DecidableEq

/-- The definitions of a chunk whose code is at an address. -/
def JitChunk.defs (c : JitChunk) (code : Word) (labels : List AsmLabelDef) : List JitDef :=
  labels.filterMap fun d => d.name.map fun name =>
    ⟨name, c.isStaticName name, code + BitVec.ofNat 64 d.byteOffset⟩

/-- The address of the last definition of a name that is not static. -/
def latestDef : List JitDef → String → Option Word
  | [], _ => none
  | d :: ds, sym =>
    (latestDef ds sym).or (if d.name = sym ∧ d.isStatic = false then some d.address else none)

/-- Of two lists of definitions the second one is later. -/
theorem latestDef_append (ds ds' : List JitDef) (sym : String) :
  latestDef (ds ++ ds') sym = (latestDef ds' sym).or (latestDef ds sym)
  := by
  induction ds with
  | nil => rw [List.nil_append, latestDef, Option.or_none]
  | cons d ds ih => rw [List.cons_append, latestDef, ih, latestDef, Option.or_assoc]

/-- A last definition is one of the definitions. -/
theorem mem_of_latestDef {ds : List JitDef} {sym : String} {a : Word} (h : latestDef ds sym = some a) :
  ∃ d ∈ ds, d.address = a
  := by
  induction ds with
  | nil => cases h
  | cons d ds ih =>
    rw [latestDef, Option.or_eq_some_iff] at h
    rcases h with h | ⟨-, h⟩
    · obtain ⟨e, he, ha⟩ := ih h
      exact ⟨e, List.mem_cons_of_mem d he, ha⟩
    · split_ifs at h
      use d
      exact ⟨List.mem_cons_self, Option.some.inj h⟩

/-! ### Runs -/

/-- Code that is mapped for a chunk does not lie at address 0. -/
def JitHost.Places (host : JitHost) (enc : AsmEnc) : Prop :=
  ∀ buf, host.mmap = some buf → ∀ d ∈ enc.labels, buf + BitVec.ofNat 64 d.byteOffset ≠ 0

/-- The definitions that a chunk adds, if it is finalised. -/
def jitFinalised (b : HccJitBackend) (host : JitHost) (jit : HccJit) (c : JitChunk) :
    List JitDef :=
  let out := hccJitCompileChunk b host jit c
  if out.1 = 0 ∧ out.2.enc.bytes.length ≠ 0 then c.defs (host.mmap.getD 0) out.2.enc.labels
  else []

/-- The states after chunks, with the definitions that have been finalised. -/
inductive JitReaches (b : HccJitBackend) : HccJit → List JitDef → Prop where
  | start (jit : HccJit) : JitReaches b jit []
  | chunk {jit : HccJit} {defs : List JitDef} (host : JitHost) (c : JitChunk) :
    JitReaches b jit defs →
    host.Places (hccJitCompileChunk b host jit c).2.enc →
    JitReaches b (hccJitCompileChunk b host jit c).2 (defs ++ jitFinalised b host jit c)

/-! ### Labels of a chunk -/

/-- The names of the public labels. -/
def AsmEnc.labelNames (e : AsmEnc) : List String := e.labels.filterMap AsmLabelDef.name

@[simp] theorem labelNames_putBytes (e : AsmEnc) (bytes : List Byte) :
  (putBytes e bytes).labelNames = e.labelNames
  := rfl

@[simp] theorem labelNames_putSite (e : AsmEnc) (site : JitSite) (kind : AsmFixupKind)
    (localNum : Int) (sym : String) :
  (putSite e site kind localNum sym).labelNames = e.labelNames
  := rfl

/-- A label that is defined comes last. -/
theorem labelNames_defineLabel (e : AsmEnc) (localNum : Int) (name : Option String) :
  (asmDefineLabel e localNum name).labelNames = e.labelNames ++ name.toList
  := by
  rw [AsmEnc.labelNames, asmDefineLabel, List.filterMap_append]
  cases name <;> rfl

/-- The parts of a function define no public labels. -/
theorem labelNames_emitItem (b : HccJitBackend) (dlsym : String → Word) (c : JitChunk)
    (jit : HccJit) (e : AsmEnc) (item : JitItem) :
  (jitEmitItem b dlsym c jit e item).labelNames = e.labelNames
  := by
  cases item with
  | code bytes => apply labelNames_putBytes
  | label localNum =>
    rw [jitEmitItem, labelNames_defineLabel]
    apply List.append_nil
  | branch site localNum => apply labelNames_putSite
  | call fname => apply labelNames_putSite
  | globalAddr reg sym =>
    rw [jitEmitItem, jitGlobalAddr]
    split
    · induction b.labelAddress reg generalizing e with
      | nil => rfl
      | cons site sites ih =>
        rw [List.foldl_cons, ih]
        apply labelNames_putSite
    · apply labelNames_putBytes

/-- A function defines its symbol. -/
theorem labelNames_compileFunction (b : HccJitBackend) (dlsym : String → Word) (c : JitChunk)
    (jit : HccJit) (e : AsmEnc) (f : JitFunction) :
  (jitCompileFunction b dlsym c jit e f).labelNames = e.labelNames ++ [c.normalise f.fname]
  := by
  have hitems (items : List JitItem) (e : AsmEnc) :
      (items.foldl (jitEmitItem b dlsym c jit) e).labelNames = e.labelNames := by
    induction items generalizing e with
    | nil => rfl
    | cons item items ih => rw [List.foldl_cons, ih, labelNames_emitItem]
  rw [jitCompileFunction, hitems, labelNames_defineLabel, Option.toList_some]

/-- A text that is spliced in brings its public labels. -/
theorem labelNames_assembleText (e sub : AsmEnc) :
  (hccJitAssembleText e sub).labelNames = e.labelNames ++ sub.labelNames
  := by
  have hpublic : (sub.publicLabels e.bytes.length).filterMap AsmLabelDef.name
      = sub.labelNames := by
    rw [AsmEnc.publicLabels, List.filterMap_filterMap, AsmEnc.labelNames]
    congr 1
    funext d
    cases d.name <;> rfl
  rw [AsmEnc.labelNames, hccJitAssembleText, List.filterMap_append, hpublic]
  rfl

/-- The public labels of the `asm` blocks. -/
theorem labelNames_asmFunctions {fs : List JitAsmFunction} {e e' : AsmEnc}
    (h : jitAsmFunctions fs e = some e') :
  e'.labelNames = e.labelNames ++ fs.flatMap fun f =>
    f.asmfname :: (f.text.map fun sub => sub.labels.filterMap AsmLabelDef.name).getD []
  := by
  induction fs generalizing e with
  | nil =>
    obtain rfl := Option.some.inj h
    rw [List.flatMap_nil, List.append_nil]
  | cons f fs ih =>
    rw [jitAsmFunctions, Option.bind_eq_some_iff] at h
    obtain ⟨sub, htext, hrest⟩ := h
    rw [ih hrest, labelNames_assembleText, labelNames_defineLabel, List.flatMap_cons, htext,
      List.append_assoc, List.append_assoc]
    rfl

/-- The public labels of a chunk are its definitions. -/
theorem labelNames_emitChunk {b : HccJitBackend} {dlsym : String → Word} {c : JitChunk}
    {jit : HccJit} {e : AsmEnc} (h : jitEmitChunk b dlsym c jit = some e)
    (hempty : jit.enc.labelNames = []) :
  e.labelNames = c.names
  := by
  have hfunctions (fs : List JitFunction) (e : AsmEnc) :
      (fs.foldl (jitCompileFunction b dlsym c jit) e).labelNames
        = e.labelNames ++ fs.map fun f => c.normalise f.fname := by
    induction fs generalizing e with
    | nil => rw [List.foldl_nil, List.map_nil, List.append_nil]
    | cons f fs ih =>
      rw [List.foldl_cons, ih, labelNames_compileFunction, List.append_assoc, List.map_cons]
      rfl
  rw [labelNames_asmFunctions h, hfunctions, hempty, List.nil_append, JitChunk.names]

/-! ### Static names -/

/-- The names that are in a list after others were added. -/
theorem mem_foldl_nameAdd {α : Type} (g : α → String) (xs : List α) (names : List String)
    (name : String) :
  name ∈ xs.foldl (fun names x => jitNameAdd names (g x)) names
    ↔ name ∈ names ∨ ∃ x ∈ xs, g x = name
  := by
  induction xs generalizing names with
  | nil => simp
  | cons x xs ih =>
    have hadd : name ∈ jitNameAdd names (g x) ↔ name ∈ names ∨ g x = name := by
      rw [jitNameAdd]
      split_ifs with h
      · constructor
        · apply Or.inl
        · rintro (hmem | rfl)
          · apply hmem
          · apply h
      · rw [List.mem_append, List.mem_singleton, eq_comm]
    simp only [List.foldl_cons, ih, hadd, List.mem_cons, exists_eq_or_imp, or_assoc]

/-- The private functions of a chunk are its static ones. -/
theorem mem_privateFns (jit : HccJit) (c : JitChunk) (slots : List (String × Word))
    (name : String) :
  name ∈ (jit.prepare c slots).privateFns ↔ c.isStaticName name = true
  := by
  rw [HccJit.prepare, JitChunk.registerNames]
  change name ∈ (c.allFunctions.filter JitFunction.isStatic).foldl
    (fun names f => jitNameAdd names (c.normalise f.fname)) [] ↔ _
  rw [mem_foldl_nameAdd fun f : JitFunction => c.normalise f.fname]
  simp [JitChunk.isStaticName, and_assoc]

/-! ### Symbols of the host -/

/-- The globals of a chunk leave the symbols that are there. -/
theorem jitAllocateGlobals_of_ne {tbl : String → Word} {sym : String} (h : tbl sym ≠ 0)
    (slots : List (String × Word)) :
  jitAllocateGlobals slots tbl sym = tbl sym
  := by
  rw [jitAllocateGlobals]
  induction slots generalizing tbl with
  | nil => rfl
  | cons slot slots ih =>
    have hslot : (if tbl slot.1 ≠ 0 then tbl else Function.update tbl slot.1 slot.2) sym
        = tbl sym := by
      split_ifs with hzero
      · rfl
      · apply Function.update_of_ne
        rintro rfl
        apply hzero h
    rw [List.foldl_cons, ih, hslot]
    rwa [hslot]

/-- The symbols of a chunk that has been finalised. -/
theorem jitRegisterLabels_eq {privateFns : List String} (c : JitChunk)
    (hstatic : ∀ name, name ∈ privateFns ↔ c.isStaticName name = true) (code : Word)
    (labels : List AsmLabelDef) (tbl : String → Word) (sym : String) :
  jitRegisterLabels code privateFns labels tbl sym
    = (latestDef (c.defs code labels) sym).getD (tbl sym)
  := by
  induction labels generalizing tbl with
  | nil => rfl
  | cons d labels ih =>
    obtain ⟨localNum, name, off⟩ := d
    cases name with
    | none => apply ih
    | some name =>
      have hstep : jitRegisterLabels code privateFns (⟨localNum, some name, off⟩ :: labels) tbl
          = jitRegisterLabels code privateFns labels (if name ∈ privateFns then tbl
            else Function.update tbl name (code + BitVec.ofNat 64 off)) := rfl
      have hdefs : c.defs code (⟨localNum, some name, off⟩ :: labels)
          = ⟨name, c.isStaticName name, code + BitVec.ofNat 64 off⟩ :: c.defs code labels := rfl
      rw [hstep, ih, hdefs, latestDef]
      cases latestDef (c.defs code labels) sym with
      | some a => rfl
      | none =>
        rw [Option.none_or, Option.getD_none]
        by_cases hmem : name ∈ privateFns
        · rw [if_pos hmem, if_neg, Option.getD_none]
          rintro ⟨-, hs⟩
          rw [(hstatic name).1 hmem] at hs
          cases hs
        · have hs : c.isStaticName name = false := by
            rwa [hstatic, Bool.not_eq_true] at hmem
          rw [if_neg hmem]
          by_cases hsym : name = sym
          · rw [if_pos ⟨hsym, hs⟩, Option.getD_some, hsym, Function.update_self]
          · rw [if_neg (fun h => hsym h.1), Option.getD_none,
              Function.update_of_ne (Ne.symm hsym)]

/-- Code that is finalised has been mapped. -/
theorem asmJitFinalize_mmap {host : JitHost} {enc : AsmEnc} (hlen : enc.bytes.length ≠ 0)
    (h : (asmJitFinalize host enc).1 = 0) :
  ∃ buf, host.mmap = some buf
  := by
  cases hmmap : host.mmap with
  | some buf => exact ⟨buf, rfl⟩
  | none =>
    rw [asmJitFinalize, if_neg hlen, hmmap] at h
    cases h

/-- What the end of a chunk does: nothing, or it adds the labels to the symbols. -/
theorem jitFinishChunk_cases (host : JitHost) (jit : HccJit) :
  (jitFinishChunk host jit = (0, jit) ∧ jit.enc.bytes.length = 0)
    ∨ jitFinishChunk host jit = (-1, jit)
    ∨ ∃ buf, host.mmap = some buf ∧ jit.enc.bytes.length ≠ 0
      ∧ jitFinishChunk host jit = (0,
        { jit with
          symbols := jitRegisterLabels buf jit.privateFns jit.enc.labels jit.symbols
          hostSymbols := jitRegisterLabels buf jit.privateFns jit.enc.labels jit.hostSymbols })
  := by
  rw [jitFinishChunk]
  by_cases hlen : jit.enc.bytes.length = 0
  · left
    exact ⟨if_pos hlen, hlen⟩
  · right
    rw [if_neg hlen]
    by_cases hrc : (asmJitFinalize
        { host with resolver := jitResolveSymbol jit.hostSymbols host.resolver } jit.enc).1 = 0
    · right
      obtain ⟨buf, hmmap⟩ := asmJitFinalize_mmap hlen hrc
      use buf
      simp only [hrc, ne_eq, not_true_eq_false, if_false]
      rw [hmmap, Option.getD_some]
      exact ⟨rfl, hlen, rfl⟩
    · left
      simp only [ne_eq, hrc, not_false_eq_true, if_true]

/-- What a chunk does to the symbols of the host: only one that is finalised adds
definitions. -/
theorem hccJitCompileChunk_cases (b : HccJitBackend) (host : JitHost) (jit : HccJit)
    (c : JitChunk) :
  (∃ slots, (hccJitCompileChunk b host jit c).2.hostSymbols
        = jitAllocateGlobals slots jit.hostSymbols
      ∧ jitFinalised b host jit c = [])
    ∨ ∃ slots buf, host.mmap = some buf
      ∧ (hccJitCompileChunk b host jit c).2.hostSymbols
        = jitRegisterLabels buf (jit.prepare c slots).privateFns
          (hccJitCompileChunk b host jit c).2.enc.labels
          (jitAllocateGlobals slots jit.hostSymbols)
      ∧ jitFinalised b host jit c
        = c.defs buf (hccJitCompileChunk b host jit c).2.enc.labels
  := by
  rw [jitFinalised, hccJitCompileChunk]
  cases c.globals with
  | none =>
    left
    use []
    exact ⟨rfl, rfl⟩
  | some slots =>
    cases hemit : jitEmitChunk b host.resolver c (jit.prepare c slots) with
    | none =>
      left
      use slots
      simp only [hemit]
      exact ⟨rfl, rfl⟩
    | some enc =>
      simp only [hemit]
      rcases jitFinishChunk_cases host { jit.prepare c slots with enc := enc } with
        ⟨hfinish, hlen⟩ | hfinish | ⟨buf, hmmap, hlen, hfinish⟩
      · left
        use slots
        rw [hfinish]
        exact ⟨rfl, if_neg fun h => h.2 hlen⟩
      · left
        use slots
        rw [hfinish]
        exact ⟨rfl, rfl⟩
      · right
        use slots, buf
        rw [hfinish, hmmap]
        exact ⟨rfl, rfl, if_pos ⟨rfl, hlen⟩⟩

/-- The symbols of the host are up to date with the definitions. -/
structure HccJit.Knows (jit : HccJit) (defs : List JitDef) : Prop where
  placed : ∀ d ∈ defs, d.address ≠ 0
  agrees : ∀ sym a, latestDef defs sym = some a → jit.hostSymbols sym = a

/-- Globals that are allocated leave the definitions known. -/
theorem HccJit.Knows.allocate {jit : HccJit} {defs : List JitDef} (h : jit.Knows defs)
    {sym : String} {a : Word} (ha : latestDef defs sym = some a) (slots : List (String × Word)) :
  jitAllocateGlobals slots jit.hostSymbols sym = a
  := by
  have hsym := h.agrees sym a ha
  obtain ⟨d, hd, hda⟩ := mem_of_latestDef ha
  rw [jitAllocateGlobals_of_ne _ slots, hsym]
  rw [hsym, ← hda]
  apply h.placed d hd

/-- The definitions of a run are known. -/
theorem JitReaches.knows {b : HccJitBackend} {jit : HccJit} {defs : List JitDef}
    (h : JitReaches b jit defs) :
  jit.Knows defs
  := by
  induction h with
  | start jit =>
    constructor
    · intro d hd
      cases hd
    · intro sym a ha
      cases ha
  | @chunk jit defs host c _ hplaces ih =>
    rcases hccJitCompileChunk_cases b host jit c with
      ⟨slots, hsymbols, hnone⟩ | ⟨slots, buf, hmmap, hsymbols, hdefs⟩
    · rw [hnone, List.append_nil]
      constructor
      · apply ih.placed
      · intro sym a ha
        rw [hsymbols]
        apply ih.allocate ha
    · rw [hdefs]
      constructor
      · intro d hd
        rcases List.mem_append.1 hd with hd | hd
        · apply ih.placed d hd
        · rw [JitChunk.defs, List.mem_filterMap] at hd
          obtain ⟨label, hlabel, hname⟩ := hd
          rw [Option.map_eq_some_iff] at hname
          obtain ⟨name, -, rfl⟩ := hname
          apply hplaces buf hmmap label hlabel
      · intro sym a ha
        rw [hsymbols, jitRegisterLabels_eq c (mem_privateFns jit c slots)]
        rw [latestDef_append, Option.or_eq_some_iff] at ha
        rcases ha with ha | ⟨hnone, ha⟩
        · rw [ha, Option.getD_some]
        · rw [hnone, Option.getD_none]
          apply ih.allocate ha

/-! ### The label that is found -/

/-- Two names that differ by an underscore in front of one of them. -/
def Underscored (name sym : String) : Prop := name = "_" ++ sym ∨ sym = "_" ++ name

/-- No name that differs from a symbol by an underscore comes before the symbol. -/
def ClearOf (names : List String) (sym : String) : Prop :=
  ∀ before name after, names = before ++ name :: after → Underscored name sym → sym ∈ before

/-- What stands for a symbol is its name, or differs by an underscore. -/
theorem labelMatches_iff (name sym : String) :
  labelMatches name sym = true ↔ name = sym ∨ Underscored name sym
  := by
  simp [labelMatches, Underscored, or_assoc]

/-- A name differs from itself by no underscore. -/
theorem not_underscored_self (sym : String) :
  ¬ Underscored sym sym
  := by
  have hne : sym ≠ "_" ++ sym := by
    intro h
    have hlen := congrArg String.length h
    rw [String.length_append] at hlen
    change _ = 1 + _ at hlen
    omega
  rintro (h | h) <;> apply hne h

/-- The first name that stands for a symbol of the list is the symbol exactly if the list is
clear of it. -/
theorem find_labelMatches_iff {names : List String} {sym : String} (h : sym ∈ names) :
  names.find? (labelMatches · sym) = some sym ↔ ClearOf names sym
  := by
  constructor
  · rintro hfind before name after rfl hname
    rw [List.find?_append, Option.or_eq_some_iff] at hfind
    rcases hfind with hfind | ⟨-, hfind⟩
    · apply List.mem_of_find?_eq_some hfind
    · rw [List.find?_cons_of_pos (p := (labelMatches · sym))
        ((labelMatches_iff name sym).2 (Or.inr hname))] at hfind
      obtain rfl := Option.some.inj hfind
      apply absurd hname (not_underscored_self name)
  · intro hclear
    obtain ⟨before, after, rfl, hbefore⟩ := List.eq_append_cons_of_mem h
    rw [List.find?_append, Option.or_eq_some_iff]
    right
    constructor
    · rw [List.find?_eq_none]
      intro name hname hmatch
      obtain ⟨pre, post, rfl⟩ := List.append_of_mem hname
      rcases (labelMatches_iff name sym).1 hmatch with rfl | hunder
      · apply hbefore hname
      · apply hbefore
        apply List.mem_append_left
        apply hclear pre name (post ++ sym :: after) _ hunder
        rw [List.append_assoc, List.cons_append]
    · apply List.find?_cons_of_pos (p := (labelMatches · sym))
      apply (labelMatches_iff sym sym).2 (Or.inl rfl)

/-- No name stands for a symbol that is not in the list exactly if the list is clear of it. -/
theorem find_labelMatches_eq_none_iff {names : List String} {sym : String} (h : sym ∉ names) :
  names.find? (labelMatches · sym) = none ↔ ClearOf names sym
  := by
  rw [List.find?_eq_none]
  constructor
  · rintro hnone before name after rfl hname
    apply absurd ((labelMatches_iff name sym).2 (Or.inr hname))
    apply hnone name
    apply List.mem_append_right _ List.mem_cons_self
  · intro hclear name hname hmatch
    rcases (labelMatches_iff name sym).1 hmatch with rfl | hunder
    · apply h hname
    · obtain ⟨pre, post, rfl⟩ := List.append_of_mem hname
      apply h
      apply List.mem_append_left _ (hclear pre name post rfl hunder)

/-- The label that is found has the first name that stands for the symbol. -/
theorem jitSymbolLabel_name (labels : List AsmLabelDef) (sym : String) :
  (jitSymbolLabel labels sym).bind AsmLabelDef.name
    = (labels.filterMap AsmLabelDef.name).find? (labelMatches · sym)
  := by
  rw [jitSymbolLabel]
  induction labels with
  | nil => rfl
  | cons d labels ih =>
    obtain ⟨localNum, name, off⟩ := d
    cases name with
    | none => apply ih
    | some name =>
      cases hmatch : labelMatches name sym with
      | true =>
        rw [List.find?_cons_of_pos (by rw [Option.any_some, hmatch]),
          List.filterMap_cons_some (f := AsmLabelDef.name) rfl,
          List.find?_cons_of_pos (p := (labelMatches · sym)) hmatch]
        rfl
      | false =>
        rw [List.find?_cons_of_neg (by rw [Option.any_some, hmatch]; apply Bool.false_ne_true),
          List.filterMap_cons_some (f := AsmLabelDef.name) rfl,
          List.find?_cons_of_neg (p := (labelMatches · sym)) (by rw [hmatch]; apply Bool.false_ne_true),
          ih]

/-- A label that is found has a name. -/
theorem jitSymbolLabel_eq_none_iff (labels : List AsmLabelDef) (sym : String) :
  jitSymbolLabel labels sym = none
    ↔ (labels.filterMap AsmLabelDef.name).find? (labelMatches · sym) = none
  := by
  rw [← jitSymbolLabel_name]
  cases hfind : jitSymbolLabel labels sym with
  | none => simp
  | some d =>
    have hany : d.name.any (labelMatches · sym) = true := by
      simpa [jitSymbolLabel] using List.find?_some hfind
    cases hname : d.name with
    | none =>
      rw [hname] at hany
      cases hany
    | some name => simp [hname]

/-! ### Binding -/

/-- A reference to a symbol goes to the definition of its name: the one of its chunk, or else
the last one that was finalised. -/
structure JitBinds (c : JitChunk) (defs : List JitDef) (labels : List AsmLabelDef)
    (resolver : String → Word) (buf : Word) (f : AsmFixup) : Prop where
  inChunk : f.sym ∈ c.names → ∃ d, jitSymbolLabel labels f.sym = some d ∧ d.name = some f.sym
    ∧ jitTarget resolver labels buf f = buf + BitVec.ofNat 64 d.byteOffset
  across : f.sym ∉ c.names → ∀ a, latestDef defs f.sym = some a →
    jitSymbolLabel labels f.sym = none ∧ jitTarget resolver labels buf f = a

/-- The target of a symbol that has a label. -/
theorem jitTarget_of_label {resolver : String → Word} {labels : List AsmLabelDef} {buf : Word}
    {f : AsmFixup} (hkind : f.kind = .symbol) {d : AsmLabelDef}
    (hd : jitSymbolLabel labels f.sym = some d) (hne : buf + BitVec.ofNat 64 d.byteOffset ≠ 0) :
  jitTarget resolver labels buf f = buf + BitVec.ofNat 64 d.byteOffset
  := by
  rw [jitTarget, hkind]
  simp only [hd, labelAddress, hne, if_false]

/-- The target of a symbol without a label. -/
theorem jitTarget_of_none {resolver : String → Word} {labels : List AsmLabelDef} {buf : Word}
    {f : AsmFixup} (hkind : f.kind = .symbol) (hnone : jitSymbolLabel labels f.sym = none) :
  jitTarget resolver labels buf f = resolver f.sym
  := by
  rw [jitTarget, hkind]
  simp only [hnone, labelAddress, if_true]

/-- After any run, the references of a chunk go to the definitions of their names exactly if no
name that differs by an underscore comes first: before the definition, if the chunk has one, and
anywhere in the chunk, if an earlier chunk has. -/
theorem jitBinds_iff {b : HccJitBackend} {jit : HccJit} {defs : List JitDef}
    (hrun : JitReaches b jit defs) (host : JitHost) {c : JitChunk}
    {slots : List (String × Word)} {enc : AsmEnc}
    (hemit : jitEmitChunk b host.resolver c (jit.prepare c slots) = some enc)
    (hplaces : host.Places enc) {buf : Word} (hmmap : host.mmap = some buf)
    {f : AsmFixup} (hkind : f.kind = .symbol) :
  JitBinds c defs enc.labels
      (jitResolveSymbol (jit.prepare c slots).hostSymbols host.resolver) buf f
    ↔ (f.sym ∈ c.names ∨ (latestDef defs f.sym).isSome = true → ClearOf c.names f.sym)
  := by
  have hnames : enc.labels.filterMap AsmLabelDef.name = c.names := labelNames_emitChunk hemit rfl
  have hname := jitSymbolLabel_name enc.labels f.sym
  have hnone := jitSymbolLabel_eq_none_iff enc.labels f.sym
  rw [hnames] at hname hnone
  by_cases hmem : f.sym ∈ c.names
  · rw [imp_iff_right (Or.inl hmem), ← find_labelMatches_iff hmem, ← hname,
      Option.bind_eq_some_iff]
    constructor
    · intro h
      obtain ⟨d, hd, hdname, -⟩ := h.inChunk hmem
      exact ⟨d, hd, hdname⟩
    · rintro ⟨d, hd, hdname⟩
      constructor
      · intro _
        have hlabel : d ∈ enc.labels := List.mem_of_find?_eq_some hd
        exact ⟨d, hd, hdname, jitTarget_of_label hkind hd (hplaces buf hmmap d hlabel)⟩
      · intro hnot
        apply absurd hmem hnot
  · rw [← find_labelMatches_eq_none_iff hmem, ← hnone]
    constructor
    · rintro h (hin | hsome)
      · apply absurd hin hmem
      · obtain ⟨a, ha⟩ := Option.isSome_iff_exists.1 hsome
        apply (h.across hmem a ha).1
    · intro h
      constructor
      · intro hin
        apply absurd hin hmem
      · intro _ a ha
        have hlabel := h (Or.inr (Option.isSome_iff_exists.2 ⟨a, ha⟩))
        have hhost : (jit.prepare c slots).hostSymbols f.sym = a := hrun.knows.allocate ha slots
        obtain ⟨d, hd, rfl⟩ := mem_of_latestDef ha
        have hne := hrun.knows.placed d hd
        rw [jitTarget_of_none hkind hlabel, jitResolveSymbol, hhost, if_pos hne]
        exact ⟨hlabel, rfl⟩

/-- The words that are patched on x86-64. -/
def x86JitBackend : HccJitBackend where
  callSite := ⟨[0xE8], 0, .x86Call32, true⟩
  labelAddress reg := [⟨[0x48, 0x8D, BitVec.ofNat 8 (8 * reg + 5)], 0, .x86Signed, true⟩]
  movImm reg address := [0x48, BitVec.ofNat 8 (0xB8 + reg)] ++ layout 8 address

/-- The host of the first chunk and of the second one. -/
def chunkHost (code : Word) : JitHost :=
  { pageSize := 4096#64, mmap := some code, mprotect := true, resolver := fun _ => 0 }

/-- A chunk of functions on Linux. -/
def linuxChunk (functions : List JitFunction) : JitChunk :=
  { darwin := false, hasInitialisers := false, globals := some [], functions := functions,
    extraFn := none, asmFunctions := [] }

/-- The state before the first chunk. -/
def jitEmpty : HccJit := ⟨asmEncInit, fun _ => 0, fun _ => 0, [], []⟩

/-- A call of the function `Foo`. -/
def callFoo : AsmFixup :=
  { kind := .symbol, reloc := .x86Call32, patchOffset := 1, width := 4, pcrel := true,
    sym := "Foo" }

/-- A function that returns. -/
def retFunction (fname : String) : JitFunction := ⟨fname, false, [.code [0xC3]]⟩

/-- A function that calls `Foo`. -/
def barFunction : JitFunction := ⟨"Bar", false, [.call "Foo", .code [0xC3]]⟩

/-- A call in a second chunk goes to the function of the first one. -/
theorem jitBinds_iff_across :
  JitBinds (linuxChunk [barFunction]) [⟨"Foo", false, 0x10000#64⟩]
    [⟨-1, some "Bar", 0⟩]
    (jitResolveSymbol
      ((hccJitCompileChunk x86JitBackend (chunkHost 0x10000#64) jitEmpty
        (linuxChunk [retFunction "Foo"])).2.prepare (linuxChunk [barFunction]) []).hostSymbols
      fun _ => 0)
    0x20000#64 callFoo
  := by
  have hrun : JitReaches x86JitBackend
      (hccJitCompileChunk x86JitBackend (chunkHost 0x10000#64) jitEmpty
        (linuxChunk [retFunction "Foo"])).2 [⟨"Foo", false, 0x10000#64⟩] := by
    apply JitReaches.chunk (chunkHost 0x10000#64) (linuxChunk [retFunction "Foo"])
      (JitReaches.start jitEmpty)
    rintro buf ⟨⟩ d hd
    rw [List.mem_singleton.1 hd]
    decide
  have hplaces : (chunkHost 0x20000#64).Places
      ⟨[0xE8, 0, 0, 0, 0, 0xC3], [⟨-1, some "Bar", 0⟩], [callFoo], 0⟩ := by
    rintro buf ⟨⟩ d hd
    rw [List.mem_singleton.1 hd]
    decide
  apply (jitBinds_iff hrun (chunkHost 0x20000#64) rfl hplaces rfl rfl).2
  rintro - before name after hnames hunder
  change ["Bar"] = _ at hnames
  cases before with
  | nil =>
    obtain ⟨rfl, -⟩ := List.cons.inj hnames
    rcases hunder with h | h <;> revert h <;> decide
  | cons _ before => simp at hnames

/-- A call of `Foo` goes to the function `_Foo` that comes before it. -/
theorem jitBinds_underscore :
  ∃ enc, jitEmitChunk x86JitBackend (fun _ => 0)
      (linuxChunk [retFunction "_Foo", retFunction "Foo", barFunction])
      (jitEmpty.prepare (linuxChunk [retFunction "_Foo", retFunction "Foo", barFunction]) [])
        = some enc
    ∧ (linuxChunk [retFunction "_Foo", retFunction "Foo", barFunction]).names
      = ["_Foo", "Foo", "Bar"]
    ∧ (jitSymbolLabel enc.labels "Foo").bind AsmLabelDef.name = some "_Foo"
    ∧ ∃ f ∈ enc.fixups, f.sym = "Foo"
      ∧ ¬ JitBinds (linuxChunk [retFunction "_Foo", retFunction "Foo", barFunction]) []
        enc.labels (fun _ => 0) 0x10000#64 f
  := by
  refine ⟨_, rfl, by decide, by decide, { callFoo with patchOffset := 3 }, by decide, rfl, ?_⟩
  intro h
  obtain ⟨d, hd, hname, -⟩ := h.inChunk (by decide)
  have hfound : (some d).bind AsmLabelDef.name = some "_Foo" := by
    rw [← hd]
    decide
  rw [Option.bind_some, hname] at hfound
  revert hfound
  decide

end Polyc
