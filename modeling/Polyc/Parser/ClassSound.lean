import Polyc.Parser.ClassLayout

/-!
# Soundness of the layout of classes and unions

The definitions that a program makes, anonymous ones included, and when all of them are sound:
exactly when every member has a complete type and no field has the name of another.
-/

namespace Polyc

open Blocks

/-! ### Definitions -/

/-- A definition that `parseClassOrUnion` accepts. -/
structure Definition where
  /-- What is registered when the body is parsed. -/
  cc : ParserEnv
  /-- Whether it defines a union. -/
  isUnion : Bool
  /-- The base class. -/
  base : Option ClassDef
  /-- The body. -/
  body : Members
  /-- The members as they are parsed. -/
  members : List ClsField
  /-- The object that is completed. -/
  result : ClassDef

/-- A body that is parsed and laid out. -/
def defineBody (cc : ParserEnv) (name : Option String) (isUnion : Bool)
    (base : Option ClassDef) (body : Members) : Option Definition :=
  (parseClassOrUnionFields cc name body).bind fun fs =>
    (parseOffsets isUnion base fs).map fun r => ⟨cc, isUnion, base, body, fs, r⟩

/-- The anonymous definitions in a body. -/
def anonDefinitions (cc : ParserEnv) : Members → List Definition
  | .done => []
  | .field _ _ rest => anonDefinitions cc rest
  | .anon isUnion body rest =>
    anonDefinitions cc body ++ (defineBody cc none isUnion none body).toList
      ++ anonDefinitions cc rest

/-- The definitions that a declaration makes. -/
def declDefinitions (cc : ParserEnv) (d : ClassDecl) : List Definition :=
  match parseBase cc d, d.body with
  | some base, some body =>
    anonDefinitions (preRegister cc d).1 body
      ++ (defineBody (preRegister cc d).1 (some d.tag) d.isUnion base body).toList
  | _, _ => []

/-- The definitions that a program makes, up to the first declaration that is rejected. -/
def definitions : ParserEnv → List ClassDecl → List Definition
  | _, [] => []
  | cc, d :: ds =>
    match parseClassOrUnion cc d with
    | none => []
    | some r => declDefinitions cc d ++ definitions r.1 ds

namespace Definition

/-- The fields of the base. -/
def baseFields (x : Definition) : FieldMap := (x.base.bind ClassDef.fields).getD []

/-- The fields. -/
def fields (x : Definition) : FieldMap := x.result.fields.getD []

/-- A layout is sound.  The fields are those of the base, at the offsets they have there, and
those of the members, where those of an anonymous member lie as far from its offset as from its
start; each has its own name.  They are aligned and inside, and apart when they come from no
union. -/
structure Sound (U : List Nat) (x : Definition) : Prop where
  complete : ∀ f ∈ x.members, f.type.Complete
  names : (keys x.fields).Nodup
  inside : ∀ p ∈ x.fields, 0 ≤ p.offset ∧ p.offset + p.item.type.size ≤ x.result.size
  aligned : ∀ p ∈ x.fields, astTypeAlign p.item.type ∣ p.offset
  multiple : x.result.alignment ∣ x.result.size
  disjoint : x.isUnion = false → x.fields.Pairwise fun p q =>
    p.item.decl ∉ U → q.item.decl ∉ U →
      p.offset + p.item.type.size ≤ q.offset ∨ q.offset + q.item.type.size ≤ p.offset
  offsets : ∃ offs, offs.length = x.members.length ∧
    x.fields = x.baseFields ++ placed x.members offs ∧
    (x.isUnion = true → ∀ o ∈ offs, o = 0) ∧
    ∀ p ∈ x.baseFields, ∀ o ∈ offs, p.offset + p.item.type.size ≤ o

end Definition

/-- The members that are declared with a name have complete types. -/
def Members.Complete (cc : ParserEnv) : Members → Prop
  | done => True
  | field spec d rest => (∀ t ∈ parseMemberType cc spec d, t.Complete) ∧ rest.Complete cc
  | anon _ _ rest => rest.Complete cc

/-- The members of a definition have complete types, and its fields, those of the base included,
have different names. -/
structure Definition.Regular (x : Definition) : Prop where
  complete : x.body.Complete x.cc
  names : (keys x.baseFields ++ x.body.names).Nodup

/-! ### The types that are registered -/

/-- The classes and unions that are defined can be laid out. -/
structure ParserEnv.Good (U : List Nat) (cc : ParserEnv) : Prop where
  classes : ∀ tag d, cc.clsdefs.lookup tag = some d → d.fields.isSome → d.Good U
  unions : ∀ tag d, cc.uniondefs.lookup tag = some d → d.fields.isSome → d.Good U

variable {U : List Nat}

/-- A complete base type can be laid out. -/
theorem ParserEnv.Good.base {cc : ParserEnv} (h : cc.Good U) {spec : BaseDeclSpec}
    {t : MemberType} (ht : parseBaseDeclSpec cc spec = some t) (hc : t.Complete) :
  t.Good
  := by
  cases spec with
  | builtIn b =>
    obtain rfl := Option.some.inj ht
    trivial
  | named name =>
    rw [parseBaseDeclSpec] at ht
    split at ht
    case h_1 d hd =>
      obtain rfl := Option.some.inj ht
      exact (h.classes name d hd hc).type
    case h_2 =>
      obtain ⟨d, hd, rfl⟩ := Option.map_eq_some_iff.1 ht
      exact (h.unions name d hd hc).type

/-- An array is made of its element type. -/
theorem astMakeArrayType_eq {type t : MemberType} {len : Int}
    (h : astMakeArrayType type len = some t) :
  t = .array type len
  := by
  rw [astMakeArrayType] at h
  split at h
  · apply (Option.some.inj h).symm
  · obtain ⟨_, _, rfl⟩ := Option.map_eq_some_iff.1 h
    rfl

/-- A complete array of a type that can be laid out when it is complete can be laid out. -/
theorem parseArrayDimensions_good {baseType : MemberType}
    (hbase : baseType.Complete → baseType.Good) :
  ∀ {dims : List (Option Int)} {t : MemberType},
    parseArrayDimensions baseType dims = some t → t.Complete → t.Good
  | [], t, h, hc => by
      obtain rfl := Option.some.inj h
      apply hbase hc
  | d :: ds, t, h, hc => by
      obtain ⟨sub, hsub, h⟩ := Option.bind_eq_some_iff.1 h
      split at h
      · cases h
      · rw [astMakeArrayType_eq h] at hc ⊢
        exact ⟨hc.1, parseArrayDimensions_good hbase hsub hc.2⟩

/-- A complete member type can be laid out. -/
theorem ParserEnv.Good.memberType {cc : ParserEnv} (h : cc.Good U) {spec : BaseDeclSpec}
    {d : Declarator} {t : MemberType} (ht : parseMemberType cc spec d = some t)
    (hc : t.Complete) :
  t.Good
  := by
  obtain ⟨baseType, hbase, ht⟩ := Option.bind_eq_some_iff.1 ht
  cases d with
  | fnptr =>
    obtain rfl := Option.some.inj ht
    trivial
  | object stars =>
    apply parseArrayDimensions_good _ ht hc
    intro hp
    rw [parsePointerType] at hp ⊢
    split at hp
    · rename_i hz
      rw [if_pos hz]
      apply h.base hbase hp
    · rename_i hz
      rw [if_neg hz]
      trivial

/-! ### One definition -/

/-- A body that is parsed and laid out is a definition. -/
theorem defineBody_eq {cc : ParserEnv} {name : Option String} {isUnion : Bool}
    {base : Option ClassDef} {body : Members} {fs : List ClsField} {r : ClassDef}
    (hfs : parseClassOrUnionFields cc name body = some fs)
    (hr : parseOffsets isUnion base fs = some r) :
  defineBody cc name isUnion base body = some ⟨cc, isUnion, base, body, fs, r⟩
  := by
  rw [defineBody, hfs, Option.bind_some, hr]
  rfl

/-- A sound definition is regular, when its members have the names in its body. -/
theorem defineBody_regular {cc : ParserEnv} {name : Option String} {isUnion : Bool}
    {base : Option ClassDef} {body : Members} {x : Definition}
    (h : defineBody cc name isUnion base body = some x) (hsound : x.Sound U)
    (hbody : ∀ {fs : List ClsField}, parseClassOrUnionFields cc name body = some fs →
      (∀ f ∈ fs, f.type.Complete) → body.Complete cc ∧ fieldNames fs = body.names) :
  x.Regular
  := by
  obtain ⟨fs, hfs, h⟩ := Option.bind_eq_some_iff.1 h
  obtain ⟨r, _, rfl⟩ := Option.map_eq_some_iff.1 h
  obtain ⟨hcomplete, hnames⟩ := hbody hfs hsound.complete
  obtain ⟨offs, hlen, hfields, _⟩ := hsound.offsets
  constructor
  · apply hcomplete
  · have hnodup := hsound.names
    rw [hfields, keys_append, keys_placed hlen, hnames] at hnodup
    apply hnodup

/-- What the loop over the members starts with: the fields of the base. -/
theorem baseOffsets_block {base : Option ClassDef} {s : Offsets}
    (h : baseOffsets base = some s)
    (hbase : ∀ b ∈ base, b.fields.isSome → b.Good U) :
  s.fieldsDict = (base.bind ClassDef.fields).getD [] ∧
    FieldBlock U s.offset s.maxAlign s.fieldsDict
  := by
  cases base with
  | none =>
    obtain rfl := Option.some.inj h
    exact ⟨rfl, Block.nil⟩
  | some b =>
    obtain ⟨fields, hfields, h⟩ := Option.bind_eq_some_iff.1 h
    obtain ⟨dict, hdict, rfl⟩ := Option.map_eq_some_iff.1 h
    have hgood := hbase b rfl (by rw [hfields]; rfl)
    have hget : b.fields.getD [] = fields := by rw [hfields]; rfl
    have hnodup := hgood.nodup
    have hblock := hgood.block
    rw [hget] at hnodup hblock
    have heq := parseFlattenAnnonymous_eq hdict hnodup
    rw [shift_zero, List.nil_append] at heq
    rw [heq]
    constructor
    · exact hget.symm
    · have halign : astTypeAlign b.type = b.alignment :=
        MemberType.astTypeAlign_aggregate _ _ _ hblock.alignment
      rw [halign]
      exact hblock.mono (le_refl _) (isAlignment_one.max hblock.alignment)
        (isAlignment_one.dvd_max_right hblock.alignment)

/-- Padding the size to the alignment keeps the block. -/
theorem Offsets.finish_good {isUnion : Bool} {s : Offsets} {r : ClassDef}
    (h : s.finish isUnion = some r) (hs : FieldBlock U s.offset s.maxAlign s.fieldsDict)
    (hnodup : (keys s.fieldsDict).Nodup) :
  r.fields = some s.fieldsDict ∧ r.Good U
  := by
  obtain ⟨size, hsize, rfl⟩ := Option.map_eq_some_iff.1 h
  have hpos := hs.alignment.pos
  have hpad := calcPadding_nonneg hs.nonneg hpos
  have hdvd := dvd_add_calcPadding hs.nonneg hpos
  rw [← cint_eq_some hsize] at hdvd
  constructor
  · rfl
  · constructor
    case defined => rfl
    case block =>
      apply hs.mono _ hs.alignment (dvd_refl _)
      show s.offset ≤ size
      rw [cint_eq_some hsize]
      omega
    case dvd => apply hdvd
    case nodup => apply hnodup

/-- The layout of members that can be laid out and have different names. -/
theorem parseOffsets_block {isUnion : Bool} {base : Option ClassDef} {fs : List ClsField}
    {r : ClassDef} (h : parseOffsets isUnion base fs = some r)
    (hbase : ∀ b ∈ base, b.fields.isSome → b.Good U) (hunion : isUnion = true → base = none)
    (hgood : ∀ f ∈ fs, f.Good U)
    (hfree : isUnion = true → ∀ p ∈ fs.flatMap ClsField.entries, p.item.decl ∈ U)
    (hnodup : (keys ((base.bind ClassDef.fields).getD []) ++ fieldNames fs).Nodup) :
  r.Good U ∧ ∃ offs, offs.length = fs.length ∧
    r.fields = some ((base.bind ClassDef.fields).getD [] ++ placed fs offs) ∧
    (isUnion = true → ∀ o ∈ offs, o = 0) ∧
    ∀ p ∈ (base.bind ClassDef.fields).getD [], ∀ o ∈ offs, p.offset + p.item.type.size ≤ o
  := by
  cases isUnion with
  | true =>
    obtain rfl := hunion rfl
    obtain ⟨s, hloop, hfin⟩ := Option.bind_eq_some_iff.1 h
    obtain ⟨offs, hlen, hoffs, hdict, hblock⟩ := unionOffsets_block hloop Block.nil hgood
      (hfree rfl) hnodup
    have hkeys : (keys s.fieldsDict).Nodup := by
      rw [hdict, keys_append, keys_placed hlen]
      apply hnodup
    obtain ⟨hfields, hr⟩ := Offsets.finish_good hfin hblock hkeys
    use hr, offs, hlen
    constructor
    · rw [hfields, hdict]
      rfl
    · constructor
      · intro _
        apply hoffs
      · intro p hp
        cases hp
  | false =>
    obtain ⟨s₀, hstart, h⟩ := Option.bind_eq_some_iff.1 h
    obtain ⟨s, hloop, hfin⟩ := Option.bind_eq_some_iff.1 h
    obtain ⟨hdict₀, hblock₀⟩ := baseOffsets_block hstart hbase
    rw [← hdict₀] at hnodup ⊢
    obtain ⟨offs, hlen, hoffs, hdict, hblock⟩ := classOffsets_block hloop hblock₀ hgood hnodup
    have hkeys : (keys s.fieldsDict).Nodup := by
      rw [hdict, keys_append, keys_placed hlen]
      apply hnodup
    obtain ⟨hfields, hr⟩ := Offsets.finish_good hfin hblock hkeys
    use hr, offs, hlen
    constructor
    · rw [hfields, hdict]
    · constructor
      · intro hfalse
        cases hfalse
      · intro p hp o ho
        exact (hblock₀.inside p hp).2.trans (hoffs o ho)

/-- A definition is sound when its members can be laid out and have different names. -/
theorem defineBody_sound {cc : ParserEnv} {name : Option String} {isUnion : Bool}
    {base : Option ClassDef} {body : Members} {x : Definition}
    (h : defineBody cc name isUnion base body = some x)
    (hbase : ∀ b ∈ base, b.fields.isSome → b.Good U) (hunion : isUnion = true → base = none)
    (hgood : ∀ f ∈ x.members, f.Good U)
    (hfree : isUnion = true → ∀ p ∈ x.members.flatMap ClsField.entries, p.item.decl ∈ U)
    (hnodup : (keys x.baseFields ++ fieldNames x.members).Nodup) :
  x.Sound U ∧ x.result.Good U ∧ ∃ offs, offs.length = x.members.length ∧
    x.fields = x.baseFields ++ placed x.members offs
  := by
  obtain ⟨fs, hfs, h⟩ := Option.bind_eq_some_iff.1 h
  obtain ⟨r, hr, rfl⟩ := Option.map_eq_some_iff.1 h
  obtain ⟨hrgood, offs, hlen, hfields, hzero, hbefore⟩ :=
    parseOffsets_block hr hbase hunion hgood hfree hnodup
  have hget : r.fields.getD [] = (base.bind ClassDef.fields).getD [] ++ placed fs offs := by
    rw [hfields]
    rfl
  constructor
  · constructor
    case complete => exact fun f hf => (hgood f hf).type.complete
    case names => exact hrgood.nodup
    case inside => exact hrgood.block.inside
    case aligned => exact hrgood.block.aligned
    case multiple => exact hrgood.dvd
    case disjoint => exact fun _ => hrgood.block.apart
    case offsets => exact ⟨offs, hlen, hget, hzero, hbefore⟩
  · exact ⟨hrgood, offs, hlen, hget⟩

/-! ### The definitions of a declaration -/

/-- What stands in unions inside a body stands in the body. -/
theorem Members.unionDecls_subset : ∀ m : Members, m.unionDecls ⊆ m.decls
  | done => List.Subset.refl _
  | field _ _ rest => List.subset_cons_of_subset _ (unionDecls_subset rest)
  | anon true _ rest =>
      List.append_subset.2
        ⟨List.subset_append_left _ _, List.subset_append_of_subset_right _ (unionDecls_subset rest)⟩
  | anon false body rest =>
      List.append_subset.2
        ⟨List.subset_append_of_subset_left _ (unionDecls_subset body),
          List.subset_append_of_subset_right _ (unionDecls_subset rest)⟩

/-- The members of a body whose definitions are regular can be laid out, and the definitions are
sound. -/
theorem body_sound {cc : ParserEnv} (hcc : cc.Good U) :
  ∀ {body : Members} {name : Option String} {fs : List ClsField},
    parseClassOrUnionFields cc name body = some fs → body.Complete cc →
    (∀ x ∈ anonDefinitions cc body, x.Regular) → body.unionDecls ⊆ U →
    (∀ f ∈ fs, f.Good U) ∧ fieldNames fs = body.names ∧
      (∀ p ∈ fs.flatMap ClsField.entries, p.item.decl ∈ body.decls) ∧
      ∀ x ∈ anonDefinitions cc body, x.Sound U
  | .done, _, fs, h, _, _, _ => by
      obtain rfl := Option.some.inj h
      simp [anonDefinitions, Members.names]
  | .field spec d rest, name, fs, h, hc, hreg, hU => by
      obtain ⟨t, ht, h⟩ := Option.bind_eq_some_iff.1 h
      obtain ⟨fs, hfs, rfl⟩ := Option.map_eq_some_iff.1 h
      obtain ⟨hgood, hnames, hdecls, hsound⟩ := body_sound hcc hfs hc.2 hreg hU
      constructor
      · intro f hf
        rcases List.mem_cons.1 hf with rfl | hf
        · exact hcc.memberType ht (hc.1 t ht)
        · apply hgood f hf
      · constructor
        · rw [fieldNames_cons, hnames]
          rfl
        · constructor
          · intro p hp
            rcases List.mem_append.1 hp with hp | hp
            · rw [List.mem_singleton.1 hp]
              apply List.mem_cons_self
            · apply List.mem_cons_of_mem _ (hdecls p hp)
          · apply hsound
  | .anon isUnion body rest, name, fs, h, hc, hreg, hU => by
      rw [parseClassOrUnionFields] at h
      split at h
      · cases h
      obtain ⟨d, hd, h⟩ := Option.bind_eq_some_iff.1 h
      obtain ⟨fs, hfs, rfl⟩ := Option.map_eq_some_iff.1 h
      obtain ⟨inner, hinner, hoff⟩ := Option.bind_eq_some_iff.1 hd
      have hx := defineBody_eq hinner hoff
      rw [anonDefinitions, hx, Option.toList_some] at hreg ⊢
      simp only [List.mem_append, List.mem_singleton] at hreg ⊢
      have hxreg := hreg _ (.inl (.inr rfl))
      have hUbody : body.unionDecls ⊆ U := by
        cases isUnion with
        | true =>
          exact List.Subset.trans (Members.unionDecls_subset body)
            (List.append_subset.1 hU).1
        | false => exact (List.append_subset.1 hU).1
      have hUrest : rest.unionDecls ⊆ U := by
        cases isUnion with
        | true => exact (List.append_subset.1 hU).2
        | false => exact (List.append_subset.1 hU).2
      obtain ⟨hgood, hnames, hdecls, hsound⟩ := body_sound hcc hinner hxreg.complete
        (fun x hx => hreg x (.inl (.inl hx))) hUbody
      obtain ⟨hgood', hnames', hdecls', hsound'⟩ := body_sound hcc hfs hc
        (fun x hx => hreg x (.inr hx)) hUrest
      obtain ⟨hxsound, hdgood, offs, hlen, hfields⟩ := defineBody_sound (U := U) hx
        (by simp) (fun _ => rfl) hgood
        (fun hu p hp => by
          subst hu
          exact (List.append_subset.1 hU).1 (hdecls p hp))
        (by
          rw [hnames]
          apply hxreg.names)
      change d.fields.getD [] = placed inner offs at hfields
      constructor
      · intro f hf
        rcases List.mem_cons.1 hf with rfl | hf
        · apply hdgood
        · apply hgood' f hf
      · constructor
        · rw [fieldNames_cons, hnames', Members.names, ← hnames, ← keys_placed hlen, ← hfields]
          rfl
        · constructor
          · intro p hp
            rcases List.mem_append.1 hp with hp | hp
            · apply List.mem_append_left
              have hp' : p ∈ placed inner offs := by
                rw [← hfields]
                apply hp
              obtain ⟨q, hq, hitem⟩ := exists_of_mem_placed hp'
              rw [hitem]
              apply hdecls q hq
            · apply List.mem_append_right
              apply hdecls' p hp
          · rintro x ((hx | rfl) | hx)
            · apply hsound x hx
            · apply hxsound
            · apply hsound' x hx

/-- The definitions of a body that are sound are regular, and the members have the names in the
body. -/
theorem body_regular {cc : ParserEnv} :
  ∀ {body : Members}, (∀ x ∈ anonDefinitions cc body, x.Sound U) →
    (∀ x ∈ anonDefinitions cc body, x.Regular) ∧
    ∀ {name : Option String} {fs : List ClsField},
      parseClassOrUnionFields cc name body = some fs → (∀ f ∈ fs, f.type.Complete) →
      body.Complete cc ∧ fieldNames fs = body.names
  | .done, _ => by
      constructor
      · intro x hx
        cases hx
      · intro name fs h _
        obtain rfl := Option.some.inj h
        exact ⟨trivial, rfl⟩
  | .field spec d rest, hsound => by
      obtain ⟨hreg, hrest⟩ := @body_regular cc rest hsound
      constructor
      · apply hreg
      · intro name fs h hc
        obtain ⟨t, ht, h⟩ := Option.bind_eq_some_iff.1 h
        obtain ⟨fs, hfs, rfl⟩ := Option.map_eq_some_iff.1 h
        obtain ⟨hcomplete, hnames⟩ := hrest hfs fun f hf => hc f (List.mem_cons_of_mem _ hf)
        constructor
        · constructor
          · intro t' ht'
            obtain rfl := Option.some.inj (ht'.symm.trans ht)
            apply hc _ List.mem_cons_self
          · apply hcomplete
        · rw [fieldNames_cons, hnames]
          rfl
  | .anon isUnion body rest, hsound => by
      simp only [anonDefinitions, List.mem_append] at hsound ⊢
      obtain ⟨hregBody, hbody⟩ := body_regular fun x hx => hsound x (.inl (.inl hx))
      obtain ⟨hregRest, hrest⟩ := body_regular fun x hx => hsound x (.inr hx)
      constructor
      · rintro x ((hx | hx) | hx)
        · apply hregBody x hx
        · exact defineBody_regular (Option.mem_toList.1 hx) (hsound x (.inl (.inr hx))) hbody
        · apply hregRest x hx
      · intro name fs h hc
        rw [parseClassOrUnionFields] at h
        split at h
        · cases h
        obtain ⟨d, hd, h⟩ := Option.bind_eq_some_iff.1 h
        obtain ⟨fs, hfs, rfl⟩ := Option.map_eq_some_iff.1 h
        obtain ⟨inner, hinner, hoff⟩ := Option.bind_eq_some_iff.1 hd
        have hx := defineBody_eq hinner hoff
        have hxsound := hsound _ (.inl (.inr (Option.mem_toList.2 hx)))
        obtain ⟨_, hnames⟩ := hbody hinner hxsound.complete
        obtain ⟨hcomplete, hnames'⟩ := hrest hfs fun f hf => hc f (List.mem_cons_of_mem _ hf)
        obtain ⟨offs, hlen, hfields, _⟩ := hxsound.offsets
        change d.fields.getD [] = placed inner offs at hfields
        constructor
        · apply hcomplete
        · rw [fieldNames_cons, hnames', Members.names, ← hnames, ← keys_placed hlen, ← hfields]
          rfl

/-! ### Programs -/

/-- Registering keeps what is registered under other tags. -/
theorem ParserEnv.Good.add {cc : ParserEnv} (h : cc.Good U) (isUnion : Bool) (tag : String)
    {d : ClassDef} (hd : d.fields.isSome → d.Good U) :
  (cc.add isUnion tag d).Good U
  := by
  have hlookup {env : List (String × ClassDef)}
      (henv : ∀ t e, env.lookup t = some e → e.fields.isSome → e.Good U) (t : String)
      (e : ClassDef) (he : ((tag, d) :: env).lookup t = some e) (hs : e.fields.isSome) :
      e.Good U := by
    rw [List.lookup_cons] at he
    split at he
    · obtain rfl := Option.some.inj he
      apply hd hs
    · apply henv t e he hs
  rw [ParserEnv.add]
  split
  · constructor
    · apply h.classes
    · apply hlookup h.unions
  · constructor
    · apply hlookup h.classes
    · apply h.unions

/-- The placeholder of a tag has no fields yet. -/
theorem ParserEnv.Good.preRegister {cc : ParserEnv} (h : cc.Good U) (d : ClassDecl) :
  (preRegister cc d).1.Good U
  := by
  rw [Polyc.preRegister]
  split
  · apply h
  · apply h.add
    intro hs
    cases hs

/-- The base of a declaration can be laid out where it is defined. -/
theorem ParserEnv.Good.parseBase {cc : ParserEnv} (h : cc.Good U) {d : ClassDecl}
    {base : Option ClassDef} (hb : parseBase cc d = some base) :
  (∀ b ∈ base, b.fields.isSome → b.Good U) ∧ (d.isUnion = true → base = none)
  := by
  rw [Polyc.parseBase] at hb
  split at hb
  · obtain rfl := Option.some.inj hb
    simp
  · split at hb
    · cases hb
    · rename_i hu
      obtain ⟨b, hlookup, rfl⟩ := Option.map_eq_some_iff.1 hb
      constructor
      · rintro b' ⟨⟩ hs
        apply h.classes _ _ hlookup hs
      · intro hu'
        exact absurd hu' hu

/-- The definitions of a declaration that are sound are regular. -/
theorem declDefinitions_regular {cc : ParserEnv} {d : ClassDecl}
    (hsound : ∀ x ∈ declDefinitions cc d, x.Sound U) :
  ∀ x ∈ declDefinitions cc d, x.Regular
  := by
  rw [declDefinitions] at hsound ⊢
  split at hsound
  · rename_i base body _ _
    simp only [List.mem_append] at hsound ⊢
    obtain ⟨hreg, hbody⟩ := body_regular fun x hx => hsound x (.inl hx)
    rintro x (hx | hx)
    · apply hreg x hx
    · exact defineBody_regular (Option.mem_toList.1 hx) (hsound x (.inr hx)) hbody
  · intro x hx
    cases hx

/-- The tokens in unions of one declaration of a program. -/
theorem unionDecls_cons {d : ClassDecl} {ds : List ClassDecl} (h : unionDecls (d :: ds) ⊆ U) :
  (∀ body ∈ d.body, (d.isUnion = true → body.decls ⊆ U) ∧ body.unionDecls ⊆ U) ∧
    unionDecls ds ⊆ U
  := by
  rw [unionDecls, List.flatMap_cons] at h
  obtain ⟨hd, hds⟩ := List.append_subset.1 h
  constructor
  · intro body hbody
    rw [Option.mem_def.1 hbody] at hd
    change (if d.isUnion = true then body.decls else body.unionDecls) ⊆ U at hd
    by_cases hu : d.isUnion = true
    · rw [if_pos hu] at hd
      exact ⟨fun _ => hd, List.Subset.trans (Members.unionDecls_subset body) hd⟩
    · rw [if_neg hu] at hd
      exact ⟨fun hu' => absurd hu' hu, hd⟩
  · apply hds

/-- The definitions of a declaration that are regular are sound, and what is registered
afterwards can be laid out. -/
theorem declDefinitions_sound {cc : ParserEnv} (hcc : cc.Good U) {d : ClassDecl}
    (hU : ∀ body ∈ d.body, (d.isUnion = true → body.decls ⊆ U) ∧ body.unionDecls ⊆ U)
    {r : ParserEnv × ClassDef} (hr : parseClassOrUnion cc d = some r)
    (hreg : ∀ x ∈ declDefinitions cc d, x.Regular) :
  (∀ x ∈ declDefinitions cc d, x.Sound U) ∧ r.1.Good U
  := by
  obtain ⟨base, hbase, hr⟩ := Option.bind_eq_some_iff.1 hr
  obtain ⟨hbgood, hbunion⟩ := hcc.parseBase hbase
  have hpre := hcc.preRegister d
  rw [declDefinitions, hbase] at hreg ⊢
  cases hbody : d.body with
  | none =>
    rw [hbody] at hr
    obtain rfl := Option.some.inj hr
    constructor
    · intro x hx
      cases hx
    · apply hpre
  | some body =>
    rw [hbody] at hr
    simp only [hbody] at hreg ⊢
    obtain ⟨hUd, hUbody⟩ := hU body hbody
    obtain ⟨r, hoff, rfl⟩ := Option.map_eq_some_iff.1 hr
    obtain ⟨fs, hfs, hoff⟩ := Option.bind_eq_some_iff.1 hoff
    have hx := defineBody_eq hfs hoff
    rw [hx, Option.toList_some] at hreg ⊢
    simp only [List.mem_append, List.mem_singleton] at hreg ⊢
    have hxreg := hreg _ (.inr rfl)
    obtain ⟨hgood, hnames, hdecls, hsound⟩ := body_sound hpre hfs hxreg.complete
      (fun x hx => hreg x (.inl hx)) hUbody
    obtain ⟨hxsound, hrgood, _⟩ := defineBody_sound (U := U) hx hbgood hbunion hgood
      (fun hu p hp => hUd hu (hdecls p hp))
      (by
        rw [hnames]
        apply hxreg.names)
    constructor
    · rintro x (hx | rfl)
      · apply hsound x hx
      · apply hxsound
    · apply hpre.add
      intro _
      apply hrgood

/-- The regular definitions of a program are sound. -/
theorem definitions_sound : ∀ {ds : List ClassDecl} {cc : ParserEnv}, cc.Good U →
    unionDecls ds ⊆ U → (∀ x ∈ definitions cc ds, x.Regular) →
    ∀ x ∈ definitions cc ds, x.Sound U
  | [], _, _, _, _ => by
      intro x hx
      cases hx
  | d :: ds, cc, hcc, hU, hreg => by
      obtain ⟨hUd, hUds⟩ := unionDecls_cons hU
      rw [definitions] at hreg ⊢
      split at hreg
      · intro x hx
        cases hx
      · rename_i r hr
        simp only [List.mem_append] at hreg ⊢
        obtain ⟨hsound, hcc'⟩ :=
          declDefinitions_sound hcc hUd hr fun x hx => hreg x (.inl hx)
        have hrest := definitions_sound hcc' hUds fun x hx => hreg x (.inr hx)
        rintro x (hx | hx)
        · apply hsound x hx
        · apply hrest x hx

/-- The sound definitions of a program are regular. -/
theorem definitions_regular : ∀ {ds : List ClassDecl} {cc : ParserEnv},
    (∀ x ∈ definitions cc ds, x.Sound U) → ∀ x ∈ definitions cc ds, x.Regular
  | [], _, _ => by
      intro x hx
      cases hx
  | d :: ds, cc, hsound => by
      rw [definitions] at hsound ⊢
      split at hsound
      · intro x hx
        cases hx
      · simp only [List.mem_append] at hsound ⊢
        have hd := declDefinitions_regular fun x hx => hsound x (.inl hx)
        have hds := definitions_regular fun x hx => hsound x (.inr hx)
        rintro x (hx | hx)
        · apply hd x hx
        · apply hds x hx

/-- **Layout of classes and unions.**  Every definition of a program is laid out soundly exactly
when all its definitions have members of complete types and fields with different names. -/
theorem definitions_sound_iff (ds : List ClassDecl) :
  (∀ x ∈ definitions ⟨[], []⟩ ds, x.Sound (unionDecls ds))
    ↔ ∀ x ∈ definitions ⟨[], []⟩ ds, x.Regular
  := by
  constructor
  · apply definitions_regular
  · apply definitions_sound _ (List.Subset.refl _)
    constructor
    · intro tag d h
      cases h
    · intro tag d h
      cases h

/-- The declaration `class T { T x; I64 y; };`. -/
def selfMember : ClassDecl :=
  ⟨false, "T", none, some (.field (.named "T") (.object 0 "x" [] 0)
    (.field (.builtIn .i64) (.object 0 "y" [] 1) .done))⟩

/-- A class may have itself for a member, of size 0. -/
theorem selfMember_unsound :
  ¬ ∀ x ∈ definitions ⟨[], []⟩ [selfMember], x.Sound (unionDecls [selfMember])
  := by
  intro h
  have hall : ∀ x ∈ definitions ⟨[], []⟩ [selfMember], ∀ f ∈ x.members, f.type.Complete :=
    fun x hx => (h x hx).complete
  revert hall
  decide

end Polyc
