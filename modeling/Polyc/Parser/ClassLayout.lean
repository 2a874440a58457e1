import Polyc.Parser.ClassOffsets

/-!
# What the loops over members leave

Members of complete types under different names are laid out as blocks: those of a class one
after the other, those of a union over one another.
-/

namespace Polyc

open Blocks

/-! ### Types -/

namespace MemberType

/-- A complete type with a size and an alignment that can be laid out. -/
def Good : MemberType → Prop
  | scalar _ | pointer | func => True
  | array ptr len => 0 ≤ len ∧ ptr.Good
  | aggregate _ hasFields size alignment =>
    hasFields = true ∧ 0 ≤ size ∧ IsAlignment alignment

/-- Types that can be laid out are complete. -/
theorem Good.complete : ∀ {t : MemberType}, t.Good → t.Complete
  | scalar _, _ | pointer, _ | func, _ => trivial
  | array _ _, h => ⟨h.1, h.2.complete⟩
  | aggregate _ _ _ _, h => h.1

/-- The sizes of built-in types are alignments or nothing. -/
theorem isAlignment_scalar (b : BuiltInType) :
  IsAlignment (astTypeAlign (scalar b))
  := by
  cases b
  case i16 => exact ⟨1, rfl⟩
  case u16 => exact ⟨1, rfl⟩
  case i32 => exact ⟨2, rfl⟩
  case u32 => exact ⟨2, rfl⟩
  case f32 => exact ⟨2, rfl⟩
  case i64 => exact ⟨3, rfl⟩
  case u64 => exact ⟨3, rfl⟩
  case f64 => exact ⟨3, rfl⟩
  all_goals apply isAlignment_one

/-- The alignment of an aggregate is the one that was recorded. -/
theorem astTypeAlign_aggregate {alignment : Int} (isUnion hasFields : Bool) (size : Int)
    (h : IsAlignment alignment) :
  astTypeAlign (aggregate isUnion hasFields size alignment) = alignment
  := by
  have hpos := h.pos
  have hle : ¬ alignment ≤ 0 := not_le.2 hpos
  rw [astTypeAlign]
  simp only [if_neg hle]
  apply if_pos hpos

/-- Good types have a size. -/
theorem Good.size_nonneg : ∀ {t : MemberType}, t.Good → 0 ≤ t.size
  | scalar b, _ => by cases b <;> decide
  | pointer, _ => by decide
  | func, _ => by decide
  | array ptr len, h => by
      rw [size, if_neg (not_lt.2 h.1)]
      apply mul_nonneg h.2.size_nonneg h.1
  | aggregate _ _ _ _, h => h.2.1

/-- Good types have an alignment. -/
theorem Good.isAlignment : ∀ {t : MemberType}, t.Good → IsAlignment (astTypeAlign t)
  | scalar b, _ => isAlignment_scalar b
  | pointer, _ => ⟨3, rfl⟩
  | func, _ => ⟨3, rfl⟩
  | array _ _, h => h.2.isAlignment
  | aggregate isUnion hasFields size _, h => by
      rw [astTypeAlign_aggregate isUnion hasFields size h.2.2]
      apply h.2.2

end MemberType

/-! ### Padding -/

/-- The padding brings an offset to the next multiple of an alignment. -/
theorem dvd_add_calcPadding {offset size : Int} (ho : 0 ≤ offset) (hs : 0 < size) :
  size ∣ offset + CalcPadding offset size
  := by
  rw [CalcPadding, if_neg hs.ne', Int.tmod_eq_emod_of_nonneg ho]
  have hdiv := Int.emod_add_mul_ediv offset size
  split
  · rename_i h
    rw [Int.add_zero]
    apply Int.dvd_of_emod_eq_zero h
  · use offset / size + 1
    rw [mul_add, mul_one]
    omega

/-- Padding does not go back. -/
theorem calcPadding_nonneg {offset size : Int} (ho : 0 ≤ offset) (hs : 0 < size) :
  0 ≤ CalcPadding offset size
  := by
  rw [CalcPadding, if_neg hs.ne', Int.tmod_eq_emod_of_nonneg ho]
  have hlt := Int.emod_lt_of_pos offset hs
  split
  · apply le_refl
  · omega

/-! ### Blocks of fields -/

/-- A block of fields; those whose names are among the given tokens may overlap. -/
abbrev FieldBlock (U : List Nat) (limit a : Int) (l : FieldMap) : Prop :=
  Block (fun f : ClassField => f.type.size) (fun f => astTypeAlign f.type) (fun f => f.decl ∈ U)
    limit a l

/-- A class or union whose fields are laid out as a block. -/
structure ClassDef.Good (U : List Nat) (d : ClassDef) : Prop where
  defined : d.fields.isSome
  block : FieldBlock U d.size d.alignment (d.fields.getD [])
  dvd : d.alignment ∣ d.size
  nodup : (keys (d.fields.getD [])).Nodup

/-- The type of such a class can be laid out. -/
theorem ClassDef.Good.type {U : List Nat} {d : ClassDef} (h : d.Good U) :
  d.type.Good
  := ⟨h.defined, h.block.nonneg, h.block.alignment⟩

/-- A member that can be laid out. -/
def ClsField.Good (U : List Nat) : ClsField → Prop
  | named _ type _ => type.Good
  | anon d => d.Good U

variable {U : List Nat}

theorem ClsField.Good.type : ∀ {f : ClsField}, f.Good U → f.type.Good
  | named .., h => h
  | anon _, h => ClassDef.Good.type h

/-- The fields that a member brings are a block of its size. -/
theorem ClsField.Good.block : ∀ {f : ClsField}, f.Good U →
    FieldBlock U f.type.size (astTypeAlign f.type) f.entries
  | named name type decl, h =>
      Block.single name (⟨type, decl⟩ : ClassField) h.size_nonneg h.isAlignment
  | anon d, h => by
      have halign : astTypeAlign (anon d).type = d.alignment :=
        MemberType.astTypeAlign_aggregate _ _ _ (ClassDef.Good.block h).alignment
      rw [halign]
      apply ClassDef.Good.block h

/-! ### The map of fields -/

/-- The fields of an anonymous member come last, each moved by its offset. -/
theorem parseFlattenAnnonymous_eq {offset : Int} :
  ∀ {anon dict fields : FieldMap}, parseFlattenAnnonymous anon dict offset = some fields →
    (keys dict ++ keys anon).Nodup → fields = dict ++ shift offset anon
  | [], dict, fields, h, _ => by
      rw [shift_nil, List.append_nil]
      apply (Option.some.inj h).symm
  | p :: anon, dict, fields, h, hnodup => by
      rw [parseFlattenAnnonymous, List.foldlM_cons] at h
      obtain ⟨dict', hput, hrest⟩ := Option.bind_eq_some_iff.1 h
      obtain ⟨o, ho, rfl⟩ := Option.map_eq_some_iff.1 hput
      rw [keys_cons, List.append_cons] at hnodup
      have hkeys : p.key ∉ keys dict := by
        have hsub := hnodup.of_append_left
        rw [List.nodup_append] at hsub
        intro hmem
        exact hsub.2.2 _ hmem _ (List.mem_singleton_self _) rfl
      have hdict : put { p with offset := o } dict = dict ++ [{ p with offset := o }] :=
        put_of_notMem hkeys
      rw [hdict] at hrest
      have hrec := parseFlattenAnnonymous_eq hrest (by simpa [keys] using hnodup)
      rw [hrec, shift_cons, ← cint_eq_some ho, List.append_assoc]
      rfl

/-- A member goes into the map with all its fields. -/
theorem addField_eq {dict fields : FieldMap} {offset : Int} :
  ∀ {f : ClsField}, addField dict offset f = some fields →
    (keys dict ++ keys f.entries).Nodup → fields = dict ++ shift offset f.entries
  | .named name type decl, h, hnodup => by
      have hkeys : name ∉ keys dict := by
        rw [List.nodup_append] at hnodup
        intro hmem
        exact hnodup.2.2 _ hmem _ (List.mem_singleton_self _) rfl
      rw [ClsField.entries, shift_cons, shift_nil, Int.zero_add]
      rw [← Option.some.inj h]
      apply put_of_notMem hkeys
  | .anon _, h, hnodup => parseFlattenAnnonymous_eq h hnodup

/-- The fields of some members, each member at its offset. -/
def placed (fs : List ClsField) (offs : List Int) : FieldMap :=
  (List.zipWith (fun f o => shift o f.entries) fs offs).flatten

/-- The names of the fields of some members. -/
def fieldNames (fs : List ClsField) : List String := fs.flatMap fun f => keys f.entries

@[simp] theorem placed_nil (offs : List Int) : placed [] offs = [] := rfl

@[simp] theorem placed_cons (f : ClsField) (fs : List ClsField) (o : Int) (offs : List Int) :
  placed (f :: fs) (o :: offs) = shift o f.entries ++ placed fs offs
  := rfl

@[simp] theorem fieldNames_nil : fieldNames [] = [] := rfl

@[simp] theorem fieldNames_cons (f : ClsField) (fs : List ClsField) :
  fieldNames (f :: fs) = keys f.entries ++ fieldNames fs
  := rfl

/-- The placed fields have the names of the members. -/
theorem keys_placed : ∀ {fs : List ClsField} {offs : List Int}, offs.length = fs.length →
    keys (placed fs offs) = fieldNames fs
  | [], _, _ => rfl
  | f :: fs, o :: offs, h => by
      rw [placed_cons, keys_append, keys_shift, fieldNames_cons, keys_placed (Nat.succ.inj h)]

/-- A placed field is a field of a member. -/
theorem exists_of_mem_placed : ∀ {fs : List ClsField} {offs : List Int} {p : Placed String ClassField},
    p ∈ placed fs offs → ∃ q ∈ fs.flatMap ClsField.entries, p.item = q.item
  | f :: fs, o :: offs, p, h => by
      rw [placed_cons] at h
      rcases List.mem_append.1 h with h | h
      · obtain ⟨q, hq, rfl⟩ := exists_of_mem_shift h
        use q
        constructor
        · apply List.mem_append_left _ hq
        · rfl
      · obtain ⟨q, hq, hitem⟩ := exists_of_mem_placed h
        use q
        constructor
        · apply List.mem_append_right _ hq
        · apply hitem

/-! ### Classes -/

/-- One member of a class comes after those before it. -/
theorem classOffset_block {s s' : Offsets} {f : ClsField} (h : classOffset s f = some s')
    (hs : FieldBlock U s.offset s.maxAlign s.fieldsDict) (hf : f.Good U)
    (hnodup : (keys s.fieldsDict ++ keys f.entries).Nodup) :
  ∃ o, s.offset ≤ o ∧ s.offset ≤ s'.offset ∧
    s'.fieldsDict = s.fieldsDict ++ shift o f.entries ∧
    FieldBlock U s'.offset s'.maxAlign s'.fieldsDict
  := by
  obtain ⟨o, ho, h⟩ := Option.bind_eq_some_iff.1 h
  obtain ⟨fields, hadd, h⟩ := Option.bind_eq_some_iff.1 h
  obtain ⟨next, hnext, rfl⟩ := Option.map_eq_some_iff.1 h
  have hpos := hf.type.isAlignment.pos
  have hdvd := dvd_add_calcPadding hs.nonneg hpos
  have hpad := calcPadding_nonneg hs.nonneg hpos
  have hsize := hf.type.size_nonneg
  rw [← cint_eq_some ho] at hdvd
  have hle : s.offset ≤ o := by
    rw [cint_eq_some ho]
    omega
  have hfields := addField_eq hadd hnodup
  rw [cint_eq_some hnext, hfields]
  use o, hle
  constructor
  · show s.offset ≤ o + f.type.size
    omega
  · constructor
    · rfl
    · exact hs.append hf.block hle hdvd

/-- The members of a class come one after the other. -/
theorem classOffsets_block : ∀ {fs : List ClsField} {s s' : Offsets},
    fs.foldlM classOffset s = some s' →
    FieldBlock U s.offset s.maxAlign s.fieldsDict → (∀ f ∈ fs, f.Good U) →
    (keys s.fieldsDict ++ fieldNames fs).Nodup →
  ∃ offs, offs.length = fs.length ∧ (∀ o ∈ offs, s.offset ≤ o) ∧
    s'.fieldsDict = s.fieldsDict ++ placed fs offs ∧
    FieldBlock U s'.offset s'.maxAlign s'.fieldsDict
  | [], s, s', h, hs, _, _ => by
      obtain rfl := Option.some.inj h
      use [], rfl
      constructor
      · intro o ho
        cases ho
      · constructor
        · rw [placed_nil, List.append_nil]
        · apply hs
  | f :: fs, s, s', h, hs, hgood, hnodup => by
      rw [List.foldlM_cons] at h
      obtain ⟨t, hstep, hrest⟩ := Option.bind_eq_some_iff.1 h
      rw [fieldNames_cons, ← List.append_assoc] at hnodup
      obtain ⟨o, hle, hle', hdict, ht⟩ :=
        classOffset_block hstep hs (hgood f List.mem_cons_self) hnodup.of_append_left
      obtain ⟨offs, hlen, hoffs, hdict', ht'⟩ := classOffsets_block hrest ht
        (fun g hg => hgood g (List.mem_cons_of_mem f hg))
        (by rwa [hdict, keys_append, keys_shift])
      use o :: offs
      constructor
      · rw [List.length_cons, hlen, List.length_cons]
      · constructor
        · intro o' ho'
          rcases List.mem_cons.1 ho' with rfl | ho'
          · apply hle
          · exact hle'.trans (hoffs o' ho')
        · constructor
          · rw [hdict', hdict, placed_cons, List.append_assoc]
          · apply ht'

/-! ### Unions -/

/-- One member of a union lies over the others. -/
theorem unionOffset_block {s s' : Offsets} {f : ClsField} (h : unionOffset s f = some s')
    (hs : FieldBlock U s.offset s.maxAlign s.fieldsDict) (hf : f.Good U)
    (hfree : ∀ p ∈ s.fieldsDict ++ f.entries, p.item.decl ∈ U)
    (hnodup : (keys s.fieldsDict ++ keys f.entries).Nodup) :
  s'.fieldsDict = s.fieldsDict ++ f.entries ∧ FieldBlock U s'.offset s'.maxAlign s'.fieldsDict
  := by
  obtain ⟨fields, hadd, rfl⟩ := Option.map_eq_some_iff.1 h
  have hfields := addField_eq hadd hnodup
  rw [shift_zero] at hfields
  rw [hfields]
  constructor
  · rfl
  · exact hs.overlay hf.block hfree

/-- All members of a union start at its start. -/
theorem unionOffsets_block : ∀ {fs : List ClsField} {s s' : Offsets},
    fs.foldlM unionOffset s = some s' →
    FieldBlock U s.offset s.maxAlign s.fieldsDict → (∀ f ∈ fs, f.Good U) →
    (∀ p ∈ s.fieldsDict ++ fs.flatMap ClsField.entries, p.item.decl ∈ U) →
    (keys s.fieldsDict ++ fieldNames fs).Nodup →
  ∃ offs, offs.length = fs.length ∧ (∀ o ∈ offs, o = 0) ∧
    s'.fieldsDict = s.fieldsDict ++ placed fs offs ∧
    FieldBlock U s'.offset s'.maxAlign s'.fieldsDict
  | [], s, s', h, hs, _, _, _ => by
      obtain rfl := Option.some.inj h
      use [], rfl
      constructor
      · intro o ho
        cases ho
      · constructor
        · rw [placed_nil, List.append_nil]
        · apply hs
  | f :: fs, s, s', h, hs, hgood, hfree, hnodup => by
      rw [List.foldlM_cons] at h
      obtain ⟨t, hstep, hrest⟩ := Option.bind_eq_some_iff.1 h
      rw [fieldNames_cons, ← List.append_assoc] at hnodup
      rw [List.flatMap_cons, ← List.append_assoc] at hfree
      obtain ⟨hdict, ht⟩ := unionOffset_block hstep hs (hgood f List.mem_cons_self)
        (fun p hp => hfree p (List.mem_append_left _ hp)) hnodup.of_append_left
      obtain ⟨offs, hlen, hoffs, hdict', ht'⟩ := unionOffsets_block hrest ht
        (fun g hg => hgood g (List.mem_cons_of_mem f hg)) (by rwa [hdict])
        (by rwa [hdict, keys_append])
      use 0 :: offs
      constructor
      · rw [List.length_cons, hlen, List.length_cons]
      · constructor
        · intro o' ho'
          rcases List.mem_cons.1 ho' with rfl | ho'
          · rfl
          · apply hoffs o' ho'
        · constructor
          · rw [hdict', hdict, placed_cons, shift_zero, List.append_assoc]
          · apply ht'

end Polyc
