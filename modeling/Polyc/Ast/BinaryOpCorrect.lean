import Polyc.Ast.BinaryOp

/-!
# Exchanged operands

`astBinaryOp` puts a pointer first when an integer stands before it.  The tree keeps its value for
the operators that commute and for no other one.
-/

namespace Polyc

/-! ### The types of exchanged operands -/

/-- What has been converted is no array. -/
theorem kind_astConvertArray_ne (t : ExprType) :
  (astConvertArray t).kind ≠ .array
  := by
  rw [astConvertArray]
  split
  · assumption
  · exact nofun

/-- Pointers and arrays are what is converted to a pointer. -/
theorem isBase_iff (t : ExprType) :
  t.isBase = true ↔ (astConvertArray t).kind = .pointer
  := by
  rw [ExprType.isBase, astConvertArray, Bool.or_eq_true, decide_eq_true_iff, decide_eq_true_iff]
  split
  case isTrue h => exact ⟨fun h' => h'.resolve_right h, Or.inl⟩
  case isFalse h => exact ⟨fun _ => rfl, fun _ => Or.inr (not_not.mp h)⟩

/-- What is converted to an integer is one. -/
theorem kind_of_astConvertArray_int {t : ExprType} (h : (astConvertArray t).kind = .int) :
  t.kind = .int
  := by
  rw [astConvertArray] at h
  split at h
  · exact h
  · cases h

/-- The operands whose result type is a pointer: an integer and the pointer. -/
theorem resultTypeOrdered_base {op : AstBinOp} {ptr1 ptr2 type : ExprType}
    (h : resultTypeOrdered (.arith op) ptr1 ptr2 = some type) (hbase : type.isBase = true)
    (harray : ptr1.kind ≠ .array ∧ ptr2.kind ≠ .array) :
  ptr2.kind = .pointer ∧ ptr1.kind = .int ∧ type = ptr2
  := by
  rw [resultTypeOrdered] at h
  simp only [reduceCtorEq, if_false] at h
  split at h
  case isTrue hkind =>
    split at h
    · cases h
    · split at h
      · cases h
        cases hbase
      · split at h
        · cases h
        · rename_i hint
          split at h
          · cases h
            cases hbase
          · cases h
            rw [ExprType.isBase, Bool.or_eq_true, decide_eq_true_iff, decide_eq_true_iff] at hbase
            exact ⟨hbase.resolve_right harray.2, not_not.mp hint, rfl⟩
  case isFalse hkind =>
    exfalso
    have hfloat : ∀ {t : ExprType}, t.kind = .float → some t = some type → False := by
      intro t ht h
      cases h
      rw [ExprType.isBase, ht] at hbase
      cases hbase
    have hint : some astIntType = some type → False := by
      intro h
      cases h
      cases hbase
    split at h
    · split at h <;> first | exact hint h | (split at h <;> first | exact hint h | cases h) |
        exact hfloat (by assumption) h | cases h
    · split at h <;> first | exact hint h | (split at h <;> first | exact hint h | cases h) |
        exact hfloat (by assumption) h | cases h
    · split at h
      · rename_i h₁ h₂
        split at h
        · exact hfloat h₁ h
        · exact hfloat h₂ h
      · cases h
    · split at h
      · rename_i hassign
        cases hassign.1
      · split at h
        · exact hint h
        · split at h
          · exact hint h
          · split at h
            · exact hint h
            · cases h
    · cases h

/-- A pointer result comes from a pointer on the left, unless the operands are exchanged. -/
theorem left_isBase_of_not_exchanges {op : AstBinOp} {a b type : ExprType}
    (h : astGetResultType (.arith op) a b = some type) (hbase : type.isBase = true)
    (hex : exchanges (.arith op) a b = false) :
  a.isBase = true ∧ b.isBase = false
  := by
  have ha := kind_astConvertArray_ne a
  have hb := kind_astConvertArray_ne b
  rw [astGetResultType] at h
  split at h
  · obtain ⟨hpointer, hint, -⟩ := resultTypeOrdered_base h hbase ⟨hb, ha⟩
    refine ⟨(isBase_iff a).mpr hpointer, ?_⟩
    rw [← Bool.not_eq_true, isBase_iff, hint]
    exact nofun
  · obtain ⟨hpointer, hint, -⟩ := resultTypeOrdered_base h hbase ⟨ha, hb⟩
    rw [exchanges, decide_eq_false_iff_not, hint, hpointer] at hex
    exact absurd ⟨nofun, nofun, rfl⟩ hex

/-- Exchanged operands are an integer and a pointer; the result is the pointer for a sum or a
difference and an integer without sign otherwise. -/
theorem types_of_exchanges {op : TreeOp} {a b type : ExprType}
    (h : astGetResultType op a b = some type) (hex : exchanges op a b = true) :
  a.isBase = false ∧ b.isBase = true ∧ astIsValidPointerOp op = true ∧
    type = if op = .arith .add ∨ op = .arith .sub then astConvertArray b else astUintType
  := by
  rw [exchanges, decide_eq_true_iff] at hex
  obtain ⟨hassign, hne, hpointer⟩ := hex
  rw [astGetResultType] at h
  split at h
  case isTrue hgt =>
    exfalso
    rw [hpointer] at hgt
    rw [resultTypeOrdered, if_neg hassign, hpointer] at h
    split at h
    · split at h
      · cases h
      · rename_i hkind _
        rcases hkind with hkind | hkind
        · exact hne hkind
        · rw [if_pos nofun] at h
          cases h
    · cases h
  case isFalse hle =>
    rw [resultTypeOrdered, if_pos (Or.inl hpointer), if_neg hassign] at h
    split at h
    · cases h
    · rename_i hvalid
      have hkinds : (astConvertArray b).kind ≠ (astConvertArray a).kind :=
        fun heq => hne (heq.symm.trans hpointer)
      rw [if_neg hkinds] at h
      split at h
      · cases h
      · rename_i hint
        have ha := kind_of_astConvertArray_int (not_not.mp hint)
        refine ⟨?_, (isBase_iff b).mpr hpointer, not_not.mp hvalid, ?_⟩
        · rw [ExprType.isBase, ha]
          rfl
        · split at h
          · rename_i hop
            rw [if_neg fun hor => hor.elim hop.1 hop.2]
            exact (Option.some.inj h).symm
          · rename_i hop
            rw [not_and_or, not_not, not_not] at hop
            rw [if_pos hop]
            exact (Option.some.inj h).symm

/-! ### Values of exchanged operands -/

/-- The operators whose operands may be exchanged. -/
def TreeOp.commutes : TreeOp → Bool
  | .arith .add | .arith .mul | .arith .bitAnd | .arith .bitXor | .arith .bitOr
  | .arith .eq | .arith .ne => true
  | _ => false

/-- The tree of `left op right` has the value of `left op right`. -/
def KeepsMeaning (op : TreeOp) (a b type : ExprType) : Prop :=
  ∀ (m : Machine) (v w : Option Word) (t : BinTree), astBinaryOp op ⟨a, v⟩ ⟨b, w⟩ = some t →
    t.value m = meaning m type op ⟨a, v⟩ ⟨b, w⟩

/-- A tree whose operands are not exchanged has the value of what is written. -/
theorem value_of_not_exchanges {op : TreeOp} {a b type : ExprType}
    (h : astGetResultType op a b = some type) (hex : exchanges op a b = false) (m : Machine)
    (v w : Option Word) :
  BinTree.value m ⟨type, op, ⟨a, v⟩, ⟨b, w⟩⟩ = meaning m type op ⟨a, v⟩ ⟨b, w⟩
  := by
  cases op with
  | logAnd => rfl
  | logOr => rfl
  | assign => rfl
  | arith op =>
    cases v with
    | none => rfl
    | some v =>
      cases w with
      | none => rfl
      | some w =>
        change irLowerArith m type op a b v w = if _ then _ else irLowerArith m type op a b v w
        split
        case isFalse => rfl
        case isTrue hbase =>
          obtain ⟨ha, hb⟩ := left_isBase_of_not_exchanges h hbase.1 hex
          rw [irLowerArith, if_neg (by simp [hb]), if_pos hbase, ha, hb]
          rfl

/-- The value of the tree of exchanged operands of an arithmetic operator or a comparison. -/
theorem value_of_exchanges {op : AstBinOp} {a b type : ExprType}
    (h : astGetResultType (.arith op) a b = some type)
    (hex : exchanges (.arith op) a b = true) (m : Machine) (v w : Word) :
  BinTree.value m ⟨type, .arith op, ⟨b, some w⟩, ⟨a, some v⟩⟩ =
    if op = .add then some (w + scaled type v)
    else if op = .sub then some (w - scaled type v)
    else aluResult m (op.toIr false).1 (op.toIr false).2 (some w) (some v)
  := by
  obtain ⟨ha, hb, -, htype⟩ := types_of_exchanges h hex
  change irLowerArith m type op b a w v = _
  rw [irLowerArith, if_neg (by simp [ha])]
  by_cases hop : op = .add ∨ op = .sub
  · have hop' : TreeOp.arith op = .arith .add ∨ TreeOp.arith op = .arith .sub :=
      hop.imp (congrArg _) (congrArg _)
    have hbase : type.isBase = true := by
      rw [htype, if_pos hop', ExprType.isBase, (isBase_iff b).mp hb]
      rfl
    rw [if_pos ⟨hbase, hop⟩, hb]
    rcases hop with rfl | rfl <;> rfl
  · have htype : type = astUintType := by
      rw [htype, if_neg]
      rintro (heq | heq)
      · exact hop (Or.inl (TreeOp.arith.inj heq))
      · exact hop (Or.inr (TreeOp.arith.inj heq))
    rw [not_or] at hop
    rw [if_neg fun h => h.2.elim hop.1 hop.2, if_neg hop.1, if_neg hop.2, htype]
    rfl

/-- What is written, where the operands are exchanged. -/
theorem meaning_of_exchanges {op : AstBinOp} {a b type : ExprType}
    (h : astGetResultType (.arith op) a b = some type)
    (hex : exchanges (.arith op) a b = true) (m : Machine) (v w : Word) :
  meaning m type (.arith op) ⟨a, some v⟩ ⟨b, some w⟩ =
    if op = .add then some (scaled type v + w)
    else if op = .sub then some (scaled type v - w)
    else aluResult m (op.toIr false).1 (op.toIr false).2 (some v) (some w)
  := by
  obtain ⟨ha, hb, -, htype⟩ := types_of_exchanges h hex
  change (if _ then _ else irLowerArith m type op a b v w) = _
  by_cases hop : op = .add ∨ op = .sub
  · have hop' : TreeOp.arith op = .arith .add ∨ TreeOp.arith op = .arith .sub :=
      hop.imp (congrArg _) (congrArg _)
    have hbase : type.isBase = true := by
      rw [htype, if_pos hop', ExprType.isBase, (isBase_iff b).mp hb]
      rfl
    rw [if_pos ⟨hbase, hop⟩, ha, hb]
    rcases hop with rfl | rfl <;> rfl
  · have htype : type = astUintType := by
      rw [htype, if_neg]
      rintro (heq | heq)
      · exact hop (Or.inl (TreeOp.arith.inj heq))
      · exact hop (Or.inr (TreeOp.arith.inj heq))
    rw [not_or] at hop
    rw [if_neg fun h => h.2.elim hop.1 hop.2, irLowerArith, if_neg (by simp [ha]),
      if_neg fun h => h.2.elim hop.1 hop.2, if_neg hop.1, if_neg hop.2, htype]
    rfl

/-- Operators that commute have the same value on exchanged operands. -/
theorem aluResult_comm (m : Machine) {op : AstBinOp} (h : (TreeOp.arith op).commutes = true)
    (issigned : Bool) (v w : Word) :
  aluResult m (op.toIr issigned).1 (op.toIr issigned).2 (some v) (some w) =
    aluResult m (op.toIr issigned).1 (op.toIr issigned).2 (some w) (some v)
  := by
  cases op with
  | add => exact congrArg some (BitVec.add_comm v w)
  | mul => exact congrArg some (BitVec.mul_comm v w)
  | bitAnd => exact congrArg some (BitVec.and_comm v w)
  | bitXor => exact congrArg some (BitVec.xor_comm v w)
  | bitOr => exact congrArg some (BitVec.or_comm v w)
  | eq => simp [AstBinOp.toIr, aluResult, intCmp, eq_comm]
  | ne => simp [AstBinOp.toIr, aluResult, intCmp, eq_comm]
  | _ => cases h

/-- A binary tree has the value of what is written exactly when its operands stay in their places
or its operator commutes. -/
theorem keepsMeaning_iff {op : TreeOp} {a b type : ExprType}
    (h : astGetResultType op a b = some type) :
  KeepsMeaning op a b type ↔ (exchanges op a b = true → op.commutes = true)
  := by
  have htree : ∀ v w, astBinaryOp op ⟨a, v⟩ ⟨b, w⟩ =
      some (if exchanges op a b then ⟨type, op, ⟨b, w⟩, ⟨a, v⟩⟩
        else ⟨type, op, ⟨a, v⟩, ⟨b, w⟩⟩) := by
    intro v w
    rw [astBinaryOp, h]
    rfl
  constructor
  · intro hkeeps hex
    have hvalid := (types_of_exchanges h hex).2.2.1
    have hkeeps : ∀ v w, BinTree.value zeroMachine ⟨type, op, ⟨b, w⟩, ⟨a, v⟩⟩ =
        meaning zeroMachine type op ⟨a, v⟩ ⟨b, w⟩ := by
      intro v w
      have ht := htree v w
      rw [if_pos hex] at ht
      exact hkeeps zeroMachine v w _ ht
    cases op with
    | logAnd => cases hkeeps (some 0) none
    | logOr => cases hkeeps (some 1) none
    | assign => cases hvalid
    | arith op =>
      have hvalues := hkeeps (some 0) (some 1)
      rw [value_of_exchanges h hex, meaning_of_exchanges h hex] at hvalues
      have hzero : scaled type 0 = 0 := BitVec.zero_mul
      rw [hzero] at hvalues
      cases op with
      | add | eq | ne => rfl
      | sub | lt | le | gt | ge => exact absurd hvalues (by decide)
      | _ => cases hvalid
  · intro hcommutes m v w t ht
    rw [htree] at ht
    cases ht
    split
    case isFalse hex => exact value_of_not_exchanges h (Bool.not_eq_true _ ▸ hex) m v w
    case isTrue hex =>
      have hcommutes := hcommutes hex
      cases op with
      | logAnd => cases hcommutes
      | logOr => cases hcommutes
      | assign => cases hcommutes
      | arith op =>
        cases v with
        | none => cases w <;> rfl
        | some v =>
          cases w with
          | none => rfl
          | some w =>
            rw [value_of_exchanges h hex, meaning_of_exchanges h hex,
              aluResult_comm m hcommutes, BitVec.add_comm]
            split
            · rfl
            · split
              · rename_i hsub
                rw [hsub] at hcommutes
                cases hcommutes
              · rfl

/-- An integer and a pointer to bytes. -/
theorem keepsMeaning_add_iff :
  KeepsMeaning (.arith .add) astIntType (astMakePointerType none) (astMakePointerType none) ↔
    (exchanges (.arith .add) astIntType (astMakePointerType none) = true →
      TreeOp.commutes (.arith .add) = true)
  := keepsMeaning_iff rfl

/-- `5 < p` for a pointer `p` with the value 7. -/
theorem not_keepsMeaning_lt :
  ¬ KeepsMeaning (.arith .lt) astIntType (astMakePointerType none) astUintType
  := by
  intro h
  have hvalues := h zeroMachine (some 5) (some 7) _ rfl
  exact absurd hvalues (by decide)

end Polyc
