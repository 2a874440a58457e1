import Polyc.Containers.MapCorrect
import Polyc.Memsafe.Memsafe

/-!
# The map of the blocks that are tracked

The map is never cleared, so all its nodes in use or deleted stay indexed, and what its
operations need is only that the keys they look for are findable.
-/

namespace Polyc

namespace Map

variable {m : Map Word}

/-- The invariant of a map that is never cleared: it is valid, and every node that is not free is
indexed. -/
structure Kept (m : Map Word) : Prop extends m.Valid memsafeMap where
  used : ∀ i < m.capacity, m.node i ≠ .free → i ∈ m.indexes

/-- Nodes in use are indexed. -/
theorem Kept.listed (h : m.Kept) :
  m.Listed
  := by
  intro i hi htaken
  apply h.used i hi
  intro hfree
  rw [hfree] at htaken
  cases htaken

/-- A key is not bound. -/
def Unbound (m : Map Word) (key : Word) : Prop := ¬ ∃ v, m.Binds memsafeMap key v

/-- The keys of the map are the same when they are equal. -/
theorem memsafeMap_match (a b : Word) :
  memsafeMap.match a b = true ↔ a = b
  := decide_eq_true_iff

/-- A key that is not bound is not found, and the map stays as it is. -/
theorem Kept.get_unbound (h : m.Kept) {key : Word} (hkey : key ≠ BitVec.ofNat 64 ulongMax)
    (hno : m.Unbound key) :
  mapGet memsafeMap m key = some (m, 0)
  := by
  have hcached : m.cachedKey ≠ memsafeMap.pointer key := by
    intro heq
    rcases h.cache with ⟨hreset, -⟩ | ⟨hlt, k, v, len, key', hk, hp, hm⟩
    · exact hkey (heq.symm.trans hreset)
    · obtain rfl : key' = key := hp.trans heq
      exact hno ⟨v, _, hlt, k, len, hk, hm⟩
  obtain ⟨i, hi, hsearch, hlands⟩ := h.toNodes.search_absent (not_exists.mp hno) h.used_lt
  have hnot : ¬ (m.node i).isTaken := by
    rw [isTaken_iff, not_not]
    apply hlands.1
  rw [mapGet, if_neg hcached, mapGetSearch, mapGetIdx, hsearch, Option.map_some, Option.map_some,
    if_neg hnot]
  rfl

/-- A map that differs in the cache only keeps the invariant. -/
theorem Kept.sameNodes (h : m.Kept) {m' : Map Word} (hv : m'.Valid memsafeMap)
    (hsame : m'.SameNodes m) :
  m'.Kept
  := by
  constructor
  case toValid => apply hv
  case used =>
    obtain ⟨hc, he, hi⟩ := hsame
    rw [hc, hi]
    unfold node
    rw [he]
    apply h.used

/-- A key is bound to one value only. -/
theorem Kept.binds_unique (h : m.Kept) {key v w : Word} (hv : m.Binds memsafeMap key v)
    (hw : m.Binds memsafeMap key w) :
  v = w
  := by
  obtain ⟨i, hi, k, len, hk, hm⟩ := hv
  obtain ⟨j, hj, l, len', hl, hm'⟩ := hw
  rw [memsafeMap_match] at hm hm'
  subst hm hm'
  obtain rfl := h.distinct i hi j hj _ _ (slot_of_taken hk) (slot_of_taken hl)
    ((memsafeMap_match _ _).2 rfl)
  rw [hk] at hl
  cases hl
  rfl

/-- A key that is bound and findable is found. -/
theorem Kept.get_bound (h : m.Kept) {key v : Word} (hkey : key ≠ BitVec.ofNat 64 ulongMax)
    (hb : m.Binds memsafeMap key v) (hf : m.Findable memsafeMap key) :
  ∃ m', mapGet memsafeMap m key = some (m', v) ∧ m'.Kept ∧ m'.SameNodes m
  := by
  obtain ⟨m', w, hget, hv, hsame, hgives⟩ :=
    h.toValid.get mapUintToUintType_lawful (fun heq => absurd heq hkey) (.inr hf)
  rcases hgives with hw | ⟨hno, -⟩
  · obtain rfl := h.binds_unique hb hw
    exact ⟨m', hget, h.sameNodes hv hsame, hsame⟩
  · exact absurd ⟨v, hb⟩ hno

/-- A node that is put into use is indexed. -/
theorem Kept.put (h : m.Kept) {key v : Word} {i : Nat}
    (hv : (m.put memsafeMap (i, true) key v).Valid memsafeMap) :
  (m.put memsafeMap (i, true) key v).Kept
  := by
  constructor
  case toValid => apply hv
  case used =>
    intro j hj hne
    show j ∈ (m.count i).indexes
    have hj : j < m.capacity := hj
    rcases eq_or_ne j i with rfl | hji
    · rw [count]
      cases hn : m.node j with
      | free => apply List.mem_append_right _ (List.mem_singleton_self j)
      | taken k v len => apply List.mem_append_right _ (List.mem_singleton_self j)
      | deleted =>
        apply h.used j hj
        rw [hn]
        intro hfree
        cases hfree
    · have hnode : m.node j ≠ .free := by
        have heq : (m.put memsafeMap (i, true) key v).node j = m.node j :=
          node_write_ne hji (m := m.count i) _
        rwa [heq] at hne
      have hmem := h.used j hj hnode
      rw [count]
      cases m.node i with
      | free => apply List.mem_append_left _ hmem
      | taken k v len => apply List.mem_append_left _ hmem
      | deleted => apply hmem

/-- The resize with which an addition may begin keeps the invariant. -/
theorem Kept.reserve (h : m.Kept) :
  ∃ m', mapReserve memsafeMap m = some m' ∧ m'.Kept ∧
    (∀ key v, m'.Binds memsafeMap key v ↔ m.Binds memsafeMap key v) ∧ m'.size < m'.threashold
  := by
  rw [mapReserve]
  split
  case isTrue hfull =>
    obtain ⟨m', hr, hv, hb, hl, hf, hd, hroom⟩ := h.toValid.resize mapUintToUintType_lawful h.listed
    refine ⟨m', hr, ⟨hv, ?_⟩, hb, hroom⟩
    intro i hi hne
    apply hl i hi
    cases hn : m'.node i with
    | free => exact absurd hn hne
    | taken k v len => rfl
    | deleted => exact absurd hn (hd i)
  case isFalse hfull => exact ⟨m, rfl, h, fun _ _ => Iff.rfl, by omega⟩

/-- A key that is not bound is added. -/
theorem Kept.add (h : m.Kept) {key : Word} (hno : m.Unbound key) (v : Word) :
  ∃ m', mapAddOrErr memsafeMap m key v = some (m', true) ∧ m'.Kept ∧
    ∀ key' w, m'.Binds memsafeMap key' w ↔
      if key = key' then w = v else m.Binds memsafeMap key' w
  := by
  obtain ⟨m₁, hres, hk, hb, hroom⟩ := h.reserve
  have hno₁ : m₁.Unbound key := by
    rintro ⟨w, hw⟩
    exact hno ⟨w, (hb key w).1 hw⟩
  obtain ⟨i, hi, hput, hbinds, -⟩ :=
    hk.toValid.put_unbound mapUintToUintType_lawful hno₁ hroom v
  refine ⟨m₁.put memsafeMap (i, true) key v, ?_, hk.put hput, ?_⟩
  · rw [mapAddOrErr, hres, Option.bind_some, hi]
    rfl
  · intro key' w
    rw [hbinds]
    simp only [memsafeMap_match, hb]

/-- A key that is findable is removed. -/
theorem Kept.remove (h : m.Kept) {key v : Word} (hb : m.Binds memsafeMap key v)
    (hf : m.Findable memsafeMap key) :
  ∃ m', mapRemove memsafeMap m key = some m' ∧ m'.Kept ∧
    ∀ key' w, m'.Binds memsafeMap key' w ↔ key ≠ key' ∧ m.Binds memsafeMap key' w
  := by
  obtain ⟨m', hrem, hv, hbinds, hl⟩ := h.toValid.remove mapUintToUintType_lawful hf
  refine ⟨m', hrem, ⟨hv, ?_⟩, ?_⟩
  · obtain ⟨i, hi, k, len, hk, hm⟩ := hb
    have hdelete : mapRemove memsafeMap m key = some (m.delete i) := by
      rw [mapRemove, mapGetIdx, h.toNodes.search_held mapUintToUintType_lawful hf hi hk hm,
        Option.map_some, Option.map_some, hk]
      rfl
    rw [hdelete] at hrem
    cases hrem
    intro j hj hne
    show j ∈ m.indexes
    apply h.used j hj
    rcases eq_or_ne j i with rfl | hji
    · rw [hk]
      intro hfree
      cases hfree
    · have heq : (m.delete i).node j = m.node j := node_write_ne hji _
      rwa [heq] at hne
  · intro key' w
    rw [hbinds, memsafeMap_match]

/-- The cache is not part of what is findable. -/
theorem SameNodes.findable {m' : Map Word} (h : m'.SameNodes m) {key : Word}
    (hf : m.Findable memsafeMap key) :
  m'.Findable memsafeMap key
  := by
  obtain ⟨hc, he, -⟩ := h
  have hslot : m'.slot = m.slot := by
    funext i
    rw [slot, slot, node, node, he]
  rw [Findable, hc, hslot]
  apply hf

end Map

end Polyc
