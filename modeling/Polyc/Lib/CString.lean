import Mathlib.Algebra.Order.Ring.Int
import Mathlib.Tactic.Use

/-!
# Strings in memory

Strings that end with the first 0 of a memory after their address, and how they compare: as
lists of unsigned characters, where a proper prefix comes first.
-/

namespace CString

variable {a c : Nat}

/-- A memory holds a string at an address. -/
def Holds (mem : BitVec a → BitVec c) : BitVec a → List (BitVec c) → Prop
  | s, [] => mem s = 0
  | s, x :: l => mem s = x ∧ x ≠ 0 ∧ Holds mem (s + 1) l

/-- The characters of a memory from an address on, whatever they are. -/
def fetch (mem : BitVec a → BitVec c) : BitVec a → Nat → List (BitVec c)
  | _, 0 => []
  | s, n + 1 => mem s :: fetch mem (s + 1) n

/-- How two characters compare follows from the numbers they are. -/
theorem compare_eq_toInt {w : Nat} (x y : BitVec w) :
  compare x y = compare (x.toNat : Int) y.toNat
  := by
  show compareOfLessAndEq x y = _
  rw [compareOfLessAndEq]
  rcases lt_trichotomy x.toNat y.toNat with h | h | h
  · rw [if_pos (BitVec.lt_def.2 h), eq_comm, compare_lt_iff_lt]
    omega
  · rw [if_neg (fun hlt => absurd (BitVec.lt_def.1 hlt) (by omega)),
      if_pos (BitVec.eq_of_toNat_eq h), eq_comm, compare_eq_iff_eq, h]
  · have hne : x ≠ y := fun heq => by
      rw [heq] at h
      omega
    rw [if_neg (fun hlt => absurd (BitVec.lt_def.1 hlt) (by omega)), if_neg hne, eq_comm,
      compare_gt_iff_gt]
    omega

/-- No character comes before 0. -/
theorem compare_zero {w : Nat} {x : BitVec w} (hx : x ≠ 0) :
  compare 0 x = .lt
  := by
  rw [compare_eq_toInt, compare_lt_iff_lt]
  have hpos : x.toNat ≠ 0 := fun h => hx (BitVec.eq_of_toNat_eq h)
  show ((0#w).toNat : Int) < x.toNat
  rw [BitVec.toNat_zero]
  omega

/-- Every character but 0 comes after 0. -/
theorem compare_zero_right {w : Nat} {x : BitVec w} (hx : x ≠ 0) :
  compare x 0 = .gt
  := by
  rw [Std.OrientedOrd.eq_swap, compare_zero hx]
  rfl

/-- The difference of two characters in a longer register has the sign of the comparison. -/
theorem compare_sub {w v : Nat} (hv : w < v) (x y : BitVec w) :
  compare (x.setWidth v - y.setWidth v).toInt 0 = compare x y
  := by
  have hx := x.isLt
  have hy := y.isLt
  have hpow : 2 ^ w * 2 ≤ 2 ^ v := by
    rw [← Nat.pow_succ]
    apply Nat.pow_le_pow_right (by decide) hv
  have hlt {z : BitVec w} : (z.setWidth v).toNat = z.toNat := by
    apply BitVec.toNat_setWidth_of_le
    omega
  have hsub : (x.setWidth v - y.setWidth v).toInt = (x.toNat : Int) - y.toNat := by
    rw [BitVec.toInt_sub, BitVec.toInt_eq_toNat_of_lt, BitVec.toInt_eq_toNat_of_lt, hlt, hlt]
    · apply Int.bmod_eq_of_le <;> omega
    · rw [hlt]
      omega
    · rw [hlt]
      omega
  rw [hsub, compare_eq_toInt]
  rcases lt_trichotomy (x.toNat : Int) y.toNat with h | h | h
  · rw [compare_lt_iff_lt.2 h, compare_lt_iff_lt]
    omega
  · rw [compare_eq_iff_eq.2 h, compare_eq_iff_eq]
    omega
  · rw [compare_gt_iff_gt.2 h, compare_gt_iff_gt]
    omega

/-- Characters of the same value in a longer register are the same. -/
theorem sub_eq_zero_iff {w v : Nat} (hv : w < v) (x y : BitVec w) :
  x.setWidth v - y.setWidth v = 0 ↔ x = y
  := by
  constructor
  · intro h
    apply Std.LawfulEqOrd.eq_of_compare
    rw [← compare_sub hv, h]
    show compare (0#v).toInt 0 = .eq
    rw [BitVec.toInt_zero]
    rfl
  · rintro rfl
    apply BitVec.sub_self

/-- Characters that differ settle how lists compare that begin with them. -/
theorem then_of_ne {w : Nat} {x y : BitVec w} (h : x ≠ y) (o : Ordering) :
  (compare x y).then o = compare x y
  := by
  cases hc : compare x y with
  | lt => rfl
  | gt => rfl
  | eq => exact absurd (Std.LawfulEqOrd.eq_of_compare hc) h

variable {mem : BitVec a → BitVec c}

/-- How two strings compare, folded by a function, as told by their first characters. -/
inductive Heads (mem : BitVec a → BitVec c) (f : BitVec c → BitVec c) (s t : BitVec a) :
    List (BitVec c) → List (BitVec c) → Prop
  /-- The characters differ. -/
  | differ {l m : List (BitVec c)} (hne : f (mem s) ≠ f (mem t))
    (hl : compare (l.map f) (m.map f) = compare (f (mem s)) (f (mem t)))
    (hn : ∀ n, compare ((l.take (n + 1)).map f) ((m.take (n + 1)).map f) =
      compare (f (mem s)) (f (mem t))) : Heads mem f s t l m
  /-- Both strings end. -/
  | ends (hs : mem s = 0) (ht : mem t = 0) : Heads mem f s t [] []
  /-- Both strings go on with the same character. -/
  | same {x y : BitVec c} {l m : List (BitVec c)} (hs : mem s = x) (ht : mem t = y) (hx : x ≠ 0)
    (hy : y ≠ 0) (hf : f x = f y) (hl : Holds mem (s + 1) l) (hm : Holds mem (t + 1) m) :
    Heads mem f s t (x :: l) (y :: m)

/-- The first characters of two strings, where no character but 0 is folded to 0. -/
theorem Holds.heads {f : BitVec c → BitVec c} (hf : ∀ x, f x = 0 ↔ x = 0) {s t : BitVec a}
    {l m : List (BitVec c)} (hl : Holds mem s l) (hm : Holds mem t m) :
  Heads mem f s t l m
  := by
  have hzero : f 0 = 0 := (hf 0).2 rfl
  cases l with
  | nil =>
    cases m with
    | nil => exact .ends hl hm
    | cons y m =>
      obtain ⟨rfl, hy, -⟩ := hm
      have hfy : f (mem t) ≠ 0 := fun h => hy ((hf _).1 h)
      have hs : f (mem s) = 0 := (hf _).2 hl
      apply Heads.differ
      · rw [hs]
        apply hfy.symm
      · rw [hs, compare_zero hfy]
        rfl
      · intro n
        rw [hs, compare_zero hfy]
        rfl
  | cons x l =>
    obtain ⟨rfl, hx, hl⟩ := hl
    have hfx : f (mem s) ≠ 0 := fun h => hx ((hf _).1 h)
    cases m with
    | nil =>
      have ht : f (mem t) = 0 := (hf _).2 hm
      apply Heads.differ
      · rw [ht]
        apply hfx
      · rw [ht, compare_zero_right hfx]
        rfl
      · intro n
        rw [ht, compare_zero_right hfx]
        rfl
    | cons y m =>
      obtain ⟨rfl, hy, hm⟩ := hm
      rcases em (f (mem s) = f (mem t)) with heq | hne
      · exact .same rfl rfl hx hy heq hl hm
      · apply Heads.differ hne
        · rw [List.map_cons, List.map_cons, List.compare_cons_cons, then_of_ne hne]
        · intro n
          rw [List.take_succ_cons, List.take_succ_cons, List.map_cons, List.map_cons,
            List.compare_cons_cons, then_of_ne hne]

/-- Strings that begin with the same character compare as the rest does. -/
theorem compare_cons_of_eq {w : Nat} {x y : BitVec w} (h : x = y) (l m : List (BitVec w)) :
  compare (x :: l) (y :: m) = compare l m
  := by
  rw [List.compare_cons_cons, h, Std.ReflOrd.compare_self]
  rfl

/-- Characters fetched from different strings compare as the strings do. -/
theorem compare_fetch {s t : BitVec a} {l m : List (BitVec c)} {n : Nat} (hl : Holds mem s l)
    (hm : Holds mem t m) (hne : l.take n ≠ m.take n) :
  compare (fetch mem s n) (fetch mem t n) = compare (l.take n) (m.take n)
  := by
  induction n generalizing s t l m with
  | zero => exact absurd rfl hne
  | succ n ih =>
    cases hl.heads (f := id) (fun _ => Iff.rfl) hm with
    | differ hne hl hn =>
      have hn := hn n
      rw [List.map_id, List.map_id] at hn
      rw [fetch, fetch, List.compare_cons_cons, hn]
      apply then_of_ne hne
    | ends hs ht => exact absurd rfl hne
    | same hs ht hx hy hf hl' hm' =>
      subst hs ht
      have hf : mem s = mem t := hf
      rw [fetch, fetch, compare_cons_of_eq hf, List.take_succ_cons, List.take_succ_cons,
        compare_cons_of_eq hf]
      apply ih hl' hm'
      intro htake
      apply hne
      rw [List.take_succ_cons, List.take_succ_cons, htake]
      rw [hf]

end CString
