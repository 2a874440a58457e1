import Polyc.Asm.Jit

/-!
# Chunks of the JIT

`hccJitCompileChunk`: the functions of a chunk and its `asm` blocks are emitted one after
another, each behind a public label, then finalised and registered as symbols of the host.
The code of a function is given by its parts; the instruction words around a fixup come from the
backend.
-/

namespace Polyc

open Bytes

/-! ### Names -/

/-- `asmNormaliseFunctionName`: symbols have a prefix on Darwin, and `Main` has a name of its
own. -/
def asmNormaliseFunctionName (darwin hasInitialisers : Bool) (fname : String) : String :=
  let newfn := if darwin && fname.toList.head? ≠ some '_' then "_" ++ fname else fname
  if fname = "Main" then
    if hasInitialisers then newfn ++ "Fn" else if darwin then "_main" else "main"
  else newfn

/-! ### Input -/

/-- The bytes in front of a patched word, that word, and the relocation of its fixup. -/
structure JitSite where
  lead : List Byte
  word : BitVec 32
  reloc : AsmFixupReloc
  pcrel : Bool

/-- What a backend emits for a call, for the address of a label in a register, and for an
address that is known. -/
structure HccJitBackend where
  callSite : JitSite
  labelAddress : Nat → List JitSite
  movImm : Nat → Word → List Byte

/-- The parts of a function's code. -/
inductive JitItem where
  | code (bytes : List Byte)
  | label (localNum : Int)
  | branch (site : JitSite) (localNum : Int)
  | call (fname : String)
  | globalAddr (reg : Nat) (sym : String)

/-- A HolyC function. -/
structure JitFunction where
  fname : String
  isStatic : Bool
  items : List JitItem

/-- A function of an `asm` block with what its text assembles to, if it does. -/
structure JitAsmFunction where
  asmfname : String
  text : Option AsmEnc

/-- What is new since the last chunk: the labels of globals with their slots, if there is memory
for them, the functions, the function that is injected, and the functions of `asm` blocks. -/
structure JitChunk where
  darwin : Bool
  hasInitialisers : Bool
  globals : Option (List (String × Word))
  functions : List JitFunction
  extraFn : Option JitFunction
  asmFunctions : List JitAsmFunction

/-- The symbol of a function. -/
def JitChunk.normalise (c : JitChunk) (fname : String) : String :=
  asmNormaliseFunctionName c.darwin c.hasInitialisers fname

/-- The HolyC functions of a chunk. -/
def JitChunk.allFunctions (c : JitChunk) : List JitFunction := c.functions ++ c.extraFn.toList

/-! ### State -/

/-- The fields of an `HccJit` that binding reads.  A symbol that is not in a map has the
address 0. -/
structure HccJit where
  enc : AsmEnc
  symbols : String → Word
  hostSymbols : String → Word
  chunkFns : List String
  privateFns : List String

/-- `jitResolveSymbol`. -/
def jitResolveSymbol (hostSymbols dlsym : String → Word) (sym : String) : Word :=
  if hostSymbols sym ≠ 0 then hostSymbols sym else dlsym sym

/-- `hccJitIsInternalFunc`. -/
def hccJitIsInternalFunc (jit : HccJit) (sym : String) : Bool := sym ∈ jit.chunkFns

/-- The state of `hccJitCompileChunk` before it looks at the chunk. -/
def HccJit.reset (jit : HccJit) : HccJit :=
  { jit with enc := asmEncInit, chunkFns := [], privateFns := [] }

/-- `jitAllocateGlobals`, as far as symbols go: a label that is there keeps its address. -/
def jitAllocateGlobals (slots : List (String × Word)) (hostSymbols : String → Word) :
    String → Word :=
  slots.foldl (fun tbl slot => if tbl slot.1 ≠ 0 then tbl else Function.update tbl slot.1 slot.2)
    hostSymbols

/-- `jitChunkFnAdd`, and the same for `private_fns`. -/
def jitNameAdd (names : List String) (name : String) : List String :=
  if name ∈ names then names else names ++ [name]

/-- The names of a chunk are registered before its code is emitted. -/
def JitChunk.registerNames (c : JitChunk) (jit : HccJit) : HccJit :=
  { jit with
    privateFns := (c.allFunctions.filter JitFunction.isStatic).foldl
      (fun names f => jitNameAdd names (c.normalise f.fname)) jit.privateFns
    chunkFns := c.asmFunctions.foldl
      (fun names f => jitNameAdd (jitNameAdd names f.asmfname) (c.normalise f.asmfname))
      (c.allFunctions.foldl (fun names f => jitNameAdd names (c.normalise f.fname))
        jit.chunkFns) }

/-! ### Emission -/

/-- A site with its fixup. -/
def putSite (e : AsmEnc) (site : JitSite) (kind : AsmFixupKind) (localNum : Int)
    (sym : String) : AsmEnc :=
  let e := putBytes e site.lead
  putBytes
    (asmAddFixup e
      { kind := kind, reloc := site.reloc, patchOffset := e.bytes.length, width := 4,
        pcrel := site.pcrel, localNum := localNum, sym := sym })
    (layout 4 site.word)

/-- `jitGlobalAddr`: a function of the chunk by its label, and else the address that is known. -/
def jitGlobalAddr (b : HccJitBackend) (dlsym : String → Word) (jit : HccJit) (e : AsmEnc)
    (reg : Nat) (sym : String) : AsmEnc :=
  if hccJitIsInternalFunc jit sym then
    (b.labelAddress reg).foldl (fun e site => putSite e site .symbol 0 sym) e
  else putBytes e (b.movImm reg (jitResolveSymbol jit.hostSymbols dlsym sym))

/-- One part of a function. -/
def jitEmitItem (b : HccJitBackend) (dlsym : String → Word) (c : JitChunk) (jit : HccJit)
    (e : AsmEnc) : JitItem → AsmEnc
  | .code bytes => putBytes e bytes
  | .label localNum => asmDefineLabel e localNum none
  | .branch site localNum => putSite e site .local localNum ""
  | .call fname => putSite e b.callSite .symbol 0 (c.normalise fname)
  | .globalAddr reg sym => jitGlobalAddr b dlsym jit e reg sym

/-- `jitCompileFunction`. -/
def jitCompileFunction (b : HccJitBackend) (dlsym : String → Word) (c : JitChunk) (jit : HccJit)
    (e : AsmEnc) (f : JitFunction) : AsmEnc :=
  f.items.foldl (jitEmitItem b dlsym c jit) (asmDefineLabel e (-1) (some (c.normalise f.fname)))

/-- The labels of an assembled text that have names, moved to where the text is spliced in. -/
def AsmEnc.publicLabels (sub : AsmEnc) (base : Nat) : List AsmLabelDef :=
  sub.labels.filterMap fun d => d.name.map fun name => ⟨-1, some name, base + d.byteOffset⟩

/-- `hccJitAssembleText`, with what the text assembles to. -/
def hccJitAssembleText (e sub : AsmEnc) : AsmEnc :=
  { e with
    bytes := e.bytes ++ sub.bytes
    labels := e.labels ++ sub.publicLabels e.bytes.length
    fixups := e.fixups ++ sub.fixups.map fun f =>
      { f with patchOffset := f.patchOffset + e.bytes.length } }

/-- The functions of the `asm` blocks, up to one that does not assemble. -/
def jitAsmFunctions : List JitAsmFunction → AsmEnc → Option AsmEnc
  | [], e => some e
  | f :: fs, e =>
    f.text.bind fun sub =>
      jitAsmFunctions fs (hccJitAssembleText (asmDefineLabel e (-1) (some f.asmfname)) sub)

/-- The code of a chunk. -/
def jitEmitChunk (b : HccJitBackend) (dlsym : String → Word) (c : JitChunk) (jit : HccJit) :
    Option AsmEnc :=
  jitAsmFunctions c.asmFunctions
    (c.allFunctions.foldl (jitCompileFunction b dlsym c jit) jit.enc)

/-- `jit` before the code of a chunk is emitted. -/
def HccJit.prepare (jit : HccJit) (c : JitChunk) (slots : List (String × Word)) : HccJit :=
  c.registerNames
    { jit.reset with hostSymbols := jitAllocateGlobals slots jit.reset.hostSymbols }

/-- The public labels of a finalised chunk, except those of `private_fns`, are added to a map. -/
def jitRegisterLabels (code : Word) (privateFns : List String) (labels : List AsmLabelDef)
    (tbl : String → Word) : String → Word :=
  labels.foldl
    (fun tbl d =>
      match d.name with
      | none => tbl
      | some name =>
        if name ∈ privateFns then tbl
        else Function.update tbl name (code + BitVec.ofNat 64 d.byteOffset))
    tbl

/-- A chunk that has been emitted is finalised; the resolver of the host is that of
`asm_jit_dlsym_resolver`. -/
def jitFinishChunk (host : JitHost) (jit : HccJit) : Int × HccJit :=
  if jit.enc.bytes.length = 0 then (0, jit)
  else
    let out := asmJitFinalize
      { host with resolver := jitResolveSymbol jit.hostSymbols host.resolver } jit.enc
    if out.1 ≠ 0 then (-1, jit)
    else
      let code := host.mmap.getD 0
      (0,
        { jit with
          symbols := jitRegisterLabels code jit.privateFns jit.enc.labels jit.symbols
          hostSymbols := jitRegisterLabels code jit.privateFns jit.enc.labels jit.hostSymbols })

/-- `hccJitCompileChunk`. -/
def hccJitCompileChunk (b : HccJitBackend) (host : JitHost) (jit : HccJit) (c : JitChunk) :
    Int × HccJit :=
  match c.globals with
  | none => (-1, jit.reset)
  | some slots =>
    match jitEmitChunk b host.resolver c (jit.prepare c slots) with
    | none => (-1, jit.prepare c slots)
    | some enc => jitFinishChunk host { jit.prepare c slots with enc := enc }

end Polyc
