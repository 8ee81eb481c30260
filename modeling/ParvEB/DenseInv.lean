import ParvEB.Bitset
import ParvEB.ViewQueries

/-! The invariant of the dense branch, and its queries as those of an abstract branch. -/
namespace ParvEB

open Outcome

section Split

variable {b w c h h' : ℕ}

theorem combine_congr {hi : BitVec h} {hi' : BitVec h'} (he : hi.toNat = hi'.toNat)
    (lo : BitVec c) : combine b w hi lo = combine b w hi' lo := by
  have : hi.setWidth w = hi'.setWidth w := by
    apply BitVec.eq_of_toNat_eq
    rw [BitVec.toNat_setWidth, BitVec.toNat_setWidth, he]
  rw [combine, combine, this]

end Split

section Fresh

variable {c : ℕ} {C : Type} [VebNode C c]

theorem fresh_min {b : ℕ} [LawfulVeb C b] : VebNode.min (VebNode.fresh : C) = pure none := by
  have hfresh : LawfulVeb.Inv True (VebNode.fresh : C) := LawfulVeb.fresh_inv
  obtain ⟨r, hr, h⟩ := LawfulVeb.min_spec hfresh
  rw [hr, Option.map_eq_none_iff.mp ((isFirst_none_iff h).mpr LawfulVeb.keys_fresh)]

theorem fresh_max {b : ℕ} [LawfulVeb C b] : VebNode.max (VebNode.fresh : C) = pure none := by
  have hfresh : LawfulVeb.Inv True (VebNode.fresh : C) := LawfulVeb.fresh_inv
  obtain ⟨r, hr, h⟩ := LawfulVeb.max_spec hfresh
  rw [hr, Option.map_eq_none_iff.mp ((isLast_none_iff h).mpr LawfulVeb.keys_fresh)]

end Fresh

namespace DenseBranch

variable {b w c : ℕ} {inl : Bool} {C : Type} [VebNode C c] [LawfulVeb C b] {lax : Prop}

/-- What one index of the masks and the arrays holds. -/
@[ext] structure SlotState (c : ℕ) (C : Type) where
  inlineBit : Bool
  clusterBit : Bool
  value : BitVec c
  child : Option C

def slotAt (t : DenseBranch b w c inl C) (i : Fin (2 ^ b)) : SlotState c C where
  inlineBit := t.inlineMask.has i
  clusterBit := t.clusterMask.has i
  value := t.inlineValue i
  child := (t.clusters i).get inl

def SlotState.active (s : SlotState c C) : Bool := s.inlineBit || s.clusterBit

/-- Whether a cluster is present at an index. -/
def active (t : DenseBranch b w c inl C) (i : ℕ) : Bool := t.inlineMask.has i || t.clusterMask.has i

/-- The indices set in either mask. -/
def indices (t : DenseBranch b w c inl C) : Set ℕ := {i | t.active i = true}

/-- What one index may hold. A null pointer is the absence of a child, and an array child outside
`clusterMask` is empty. -/
structure SlotInv (b : ℕ) [LawfulVeb C b] (lax : Prop) (inl : Bool) (s : SlotState c C) :
    Prop where
  disjoint : ¬ (s.inlineBit = true ∧ s.clusterBit = true)
  pointer : s.child.isSome = (inl || s.clusterBit)
  child : ∀ x, s.child = some x →
    LawfulVeb.Inv lax x ∧ ((LawfulVeb.keys x).Nonempty ↔ s.clusterBit = true)
  value_lt : s.inlineBit = true → s.value.toNat < 2 ^ b

/-- The summary is null when there is nothing to list, and else lists it. -/
structure SummaryInv (b : ℕ) [LawfulVeb C b] (lax : Prop) (summary : Option C) (indices : Set ℕ) :
    Prop where
  null : summary = none ↔ indices = ∅
  lists : ∀ s, summary = some s → LawfulVeb.Inv lax s ∧ LawfulVeb.keys s = indices

/-- The representation invariant. -/
structure Inv (lax : Prop) (t : DenseBranch b w c inl C) : Prop where
  slot : ∀ i, SlotInv b lax inl (t.slotAt i)
  summary : SummaryInv b lax t.summary t.indices

/-- The cluster that an index holds. -/
def SlotState.cluster (s : SlotState c C) : Option (Cluster c C) :=
  if s.inlineBit then some (.inline s.value)
  else if s.clusterBit then s.child.map .child
  else none

def cluster (t : DenseBranch b w c inl C) (i : ℕ) : Option (Cluster c C) :=
  if h : i < 2 ^ b then (t.slotAt ⟨i, h⟩).cluster else none

/-- A null summary stands for an empty one. -/
def view (t : DenseBranch b w c inl C) : View c C := ⟨t.summary.getD VebNode.fresh, t.cluster⟩

omit [LawfulVeb C b] in
@[simp] theorem view_cluster (t : DenseBranch b w c inl C) : t.view.cluster = t.cluster := rfl

variable {t : DenseBranch b w c inl C} {s : SlotState c C}

omit [VebNode C c] [LawfulVeb C b] in
theorem cluster_of_lt {i : ℕ} (hi : i < 2 ^ b) : t.cluster i = (t.slotAt ⟨i, hi⟩).cluster :=
  dif_pos hi

omit [VebNode C c] [LawfulVeb C b] in
theorem cluster_inline {i : ℕ} (hi : i < 2 ^ b) (hil : t.inlineMask.has i = true) :
    t.cluster i = some (.inline (t.inlineValue ⟨i, hi⟩)) := by
  simp [cluster_of_lt hi, SlotState.cluster, slotAt, hil]

namespace SlotInv

theorem get_isSome (h : SlotInv b lax inl s) (hc : s.clusterBit = true) :
    ∃ x, s.child = some x := by
  rw [← Option.isSome_iff_exists, h.pointer, hc, Bool.or_true]

theorem clusterBit_eq_false (h : SlotInv b lax inl s) (hil : s.inlineBit = true) :
    s.clusterBit = false :=
  Bool.eq_false_iff.mpr fun hc => h.disjoint ⟨hil, hc⟩

theorem inlineBit_eq_false (h : SlotInv b lax inl s) (hc : s.clusterBit = true) :
    s.inlineBit = false :=
  Bool.eq_false_iff.mpr fun hil => h.disjoint ⟨hil, hc⟩

/-- The pointer behind an inline value is null. -/
theorem null_of_inline (h : SlotInv b lax false s) (hil : s.inlineBit = true) : s.child = none := by
  rw [← Option.isNone_iff_eq_none, ← Option.not_isSome, h.pointer, h.clusterBit_eq_false hil]
  rfl

/-- Nothing is stored behind an inline value. -/
theorem hidden (h : SlotInv b lax inl s) (hil : s.inlineBit = true) :
    LawfulVeb.Inv lax (s.child.getD VebNode.fresh) ∧
      LawfulVeb.keys (s.child.getD VebNode.fresh) = ∅ := by
  have hc : ¬ s.clusterBit = true := Bool.eq_false_iff.mp (h.clusterBit_eq_false hil)
  cases hx : s.child with
  | none => exact ⟨LawfulVeb.fresh_inv, LawfulVeb.keys_fresh⟩
  | some x =>
    obtain ⟨hinv, hne⟩ := h.child x hx
    exact ⟨hinv, Set.not_nonempty_iff_eq_empty.mp (hc ∘ hne.mp)⟩

theorem mono {lax' : Prop} (hl : lax → lax') (h : SlotInv b lax inl s) :
    SlotInv b lax' inl s where
  disjoint := h.disjoint
  pointer := h.pointer
  child x hx := ⟨LawfulVeb.mono hl (h.child x hx).1, (h.child x hx).2⟩
  value_lt := h.value_lt

theorem cluster_isSome (h : SlotInv b lax inl s) :
    s.cluster.isSome = s.active := by
  unfold SlotState.cluster SlotState.active
  cases hil : s.inlineBit with
  | true => rfl
  | false =>
    cases hc : s.clusterBit with
    | true =>
      obtain ⟨x, hx⟩ := h.get_isSome hc
      simp [hx]
    | false => rfl

theorem cluster_inv (h : SlotInv b lax inl s) {cl : Cluster c C} (hcl : s.cluster = some cl) :
    cl.Inv b lax := by
  unfold SlotState.cluster at hcl
  split at hcl
  next hil =>
    cases hcl
    exact h.value_lt hil
  next =>
    split at hcl
    next hc =>
      obtain ⟨x, hx, rfl⟩ := Option.map_eq_some_iff.mp hcl
      exact ⟨(h.child x hx).1, (h.child x hx).2.mpr hc⟩
    next => cases hcl

end SlotInv

theorem SummaryInv.mono {lax' : Prop} (hl : lax → lax') {o : Option C} {I : Set ℕ}
    (h : SummaryInv b lax o I) : SummaryInv b lax' o I where
  null := h.null
  lists s hs := ⟨LawfulVeb.mono hl (h.lists s hs).1, (h.lists s hs).2⟩

theorem SummaryInv.nonempty {o : Option C} {I : Set ℕ} (h : SummaryInv b lax o I) {s : C}
    (hs : o = some s) : (LawfulVeb.keys s).Nonempty := by
  rw [(h.lists s hs).2, Set.nonempty_iff_ne_empty, Ne, ← h.null, hs]
  simp

theorem SummaryInv.getD {o : Option C} {I : Set ℕ} (h : SummaryInv b lax o I) :
    LawfulVeb.Inv lax (o.getD VebNode.fresh) ∧ LawfulVeb.keys (o.getD VebNode.fresh) = I := by
  cases ho : o with
  | none => exact ⟨LawfulVeb.fresh_inv, LawfulVeb.keys_fresh.trans (h.null.mp ho).symm⟩
  | some s => exact h.lists s ho

namespace Inv

theorem summary_some (h : t.Inv lax) {s : C} (hs : t.summary = some s) :
    LawfulVeb.Inv lax s ∧ ∀ i, i ∈ LawfulVeb.keys s ↔ t.active i = true := by
  obtain ⟨hinv, hkeys⟩ := h.summary.lists s hs
  exact ⟨hinv, fun i => by rw [hkeys]; rfl⟩

theorem cluster_isSome (h : t.Inv lax) {i : ℕ} (hi : i < 2 ^ b) :
    (t.cluster i).isSome = t.active i := by
  rw [cluster_of_lt hi, (h.slot _).cluster_isSome]
  rfl

theorem view_inv (hb : 6 ≤ b) (h : t.Inv lax) : t.view.Inv b lax where
  summary := h.summary.getD.1
  mem_summary i := by
    change i ∈ LawfulVeb.keys (t.summary.getD VebNode.fresh) ↔ (t.cluster i).isSome = true
    rw [h.summary.getD.2]
    by_cases hi : i < 2 ^ b
    · rw [h.cluster_isSome hi, indices, Set.mem_ofPred_eq]
    · have hoff : ∀ m : DenseBitset b, m.has i = false := fun m =>
        Bool.eq_false_iff.mpr fun hm => hi (DenseBitset.lt_of_has hb hm)
      simp [cluster, hi, indices, active, hoff]
  cluster i cl hcl := by
    change t.cluster i = some cl at hcl
    by_cases hi : i < 2 ^ b
    · rw [cluster_of_lt hi] at hcl
      exact (h.slot _).cluster_inv hcl
    · rw [cluster, dif_neg hi] at hcl
      cases hcl

end Inv

section Access

variable [Widths b w c] {idx : BitVec 32} {i : ℕ}

omit [VebNode C c] [LawfulVeb C b] in
theorem clusterActive_eq (hidx : idx.toNat < 2 ^ b) :
    t.clusterActive idx = pure (t.active idx.toNat) := by
  have hb : 6 ≤ b := Widths.fan w c
  rw [clusterActive, DenseBitset.test_eq hb hidx, pure_bind, DenseBitset.test_eq hb hidx, active]
  split <;> simp [*]

theorem clusterPtr_eq (h : t.Inv lax) (hidx : idx.toNat < 2 ^ b)
    (hil : t.inlineMask.has idx.toNat = false) :
    ∃ p, t.clusterPtr idx = pure p ∧ t.cluster idx.toNat = p.map .child := by
  have hptr := (h.slot ⟨_, hidx⟩).pointer
  have hb : 6 ≤ b := Widths.fan w c
  rw [clusterPtr, DenseBitset.test_eq hb hidx, arrayGet_of_lt hidx, cluster_of_lt hidx]
  simp only [SlotState.cluster, slotAt, hil] at hptr ⊢
  cases inl with
  | true =>
    cases hc : t.clusterMask.has idx.toNat with
    | true => exact ⟨Slot.get true (t.clusters ⟨idx.toNat, hidx⟩), by simp, by simp⟩
    | false => exact ⟨none, by simp, by simp⟩
  | false =>
    refine ⟨Slot.get false (t.clusters ⟨idx.toNat, hidx⟩), by simp, ?_⟩
    cases hc : t.clusterMask.has idx.toNat with
    | true => simp
    | false =>
      rw [hc, Bool.or_false, Option.isSome_eq_false_iff, Option.isNone_iff_eq_none] at hptr
      simp [hptr]

end Access

theorem toNat_hiPart {key : BitVec w} (hb : b ≤ 32) (hk : key.toNat < 2 ^ (2 * b)) :
    (hiPart b key).toNat = key.toNat / 2 ^ b := by
  have hlt : key.toNat / 2 ^ b < 2 ^ 32 :=
    (div_lt_of_lt hk).trans_le (Nat.pow_le_pow_right (by omega) hb)
  rw [hiPart, BitVec.toNat_setWidth, toNat_shiftRight, Nat.mod_eq_of_lt hlt]

section Queries

variable [Widths b w c] {key : BitVec w} {idx : BitVec 32} {hi : BitVec c}

theorem hiPart_lt (c : ℕ) [Widths b w c] (hk : key.toNat < 2 ^ (2 * b)) :
    (hiPart b key).toNat < 2 ^ b := by
  rw [toNat_hiPart (Widths.index w c) hk]
  exact div_lt_of_lt hk

theorem not_maxKey_lt (c : ℕ) [Widths b w c] (hk : key.toNat < 2 ^ (2 * b)) :
    ¬ maxKey (2 * b) w < key := by
  rw [BitVec.not_lt, le_maxKey_iff (Widths.double c) (Widths.key b c)]
  exact hk

theorem contains_eq (h : t.Inv lax) (hk : key.toNat < 2 ^ (2 * b)) :
    t.contains key = t.view.contains (key.toNat / 2 ^ b) (loPart b key) := by
  have hidx := hiPart_lt c hk
  have hhi := toNat_hiPart (Widths.index w c) hk
  unfold contains View.contains
  rw [if_neg (not_maxKey_lt c hk)]
  dsimp only
  rw [DenseBitset.test_eq (Widths.fan w c) hidx, pure_bind,
    arrayGet_of_lt hidx, ← hhi]
  rw [view_cluster]
  cases hil : t.inlineMask.has (hiPart b key).toNat with
  | true =>
    rw [cluster_inline hidx hil]
    simp [Cluster.contains]
  | false =>
    obtain ⟨p, hp, hcl⟩ := clusterPtr_eq h hidx hil
    rw [hp, hcl]
    cases p <;> simp [Cluster.contains]

/-- The tails of `min` and `successor` differ only in how they meet a null child, and there is
none. -/
theorem firstOf_eq (h : t.Inv lax) (hidx : idx.toNat = hi.toNat) (hact : t.active hi.toNat = true)
    (hlt : hi.toNat < 2 ^ b) (e : Outcome (Option (BitVec w))) :
    (do
      if ← t.inlineMask.test idx then
        let value ← arrayGet t.inlineValue idx.toNat
        pure (some (combine b w idx value))
      else
        match ← t.clusterPtr idx with
        | none => e
        | some child =>
          match ← VebNode.min child with
          | none => .fallback none
          | some lo => pure (some (combine b w idx lo))) = t.view.firstOf b w hi := by
  have hidx' : idx.toNat < 2 ^ b := hidx ▸ hlt
  unfold View.firstOf
  rw [DenseBitset.test_eq (Widths.fan w c) hidx', pure_bind, arrayGet_of_lt hidx']
  rw [view_cluster]
  have hsome := h.cluster_isSome hlt
  rw [← hidx] at hact hsome ⊢
  cases hil : t.inlineMask.has idx.toNat with
  | true =>
    rw [cluster_inline hidx' hil]
    simp [Cluster.min, combine_congr hidx]
  | false =>
    obtain ⟨p, hp, hcl⟩ := clusterPtr_eq h hidx' hil
    rw [hcl, hact] at hsome
    rw [hp, hcl]
    cases p with
    | none => simp at hsome
    | some x =>
      rw [if_neg (by simp), pure_bind]
      refine congrArg (VebNode.min x >>= ·) (funext fun r => ?_)
      cases r with
      | none => rfl
      | some lo => exact congrArg (pure ∘ some) (combine_congr hidx lo)

theorem lastOf_eq (h : t.Inv lax) (hidx : idx.toNat = hi.toNat) (hact : t.active hi.toNat = true)
    (hlt : hi.toNat < 2 ^ b) (e : Outcome (Option (BitVec w))) :
    (do
      if ← t.inlineMask.test idx then
        let value ← arrayGet t.inlineValue idx.toNat
        pure (some (combine b w idx value))
      else
        match ← t.clusterPtr idx with
        | none => e
        | some child =>
          match ← VebNode.max child with
          | none => .fallback none
          | some lo => pure (some (combine b w idx lo))) = t.view.lastOf b w hi := by
  have hidx' : idx.toNat < 2 ^ b := hidx ▸ hlt
  unfold View.lastOf
  rw [DenseBitset.test_eq (Widths.fan w c) hidx', pure_bind, arrayGet_of_lt hidx']
  rw [view_cluster]
  have hsome := h.cluster_isSome hlt
  rw [← hidx] at hact hsome ⊢
  cases hil : t.inlineMask.has idx.toNat with
  | true =>
    rw [cluster_inline hidx' hil]
    simp [Cluster.max, combine_congr hidx]
  | false =>
    obtain ⟨p, hp, hcl⟩ := clusterPtr_eq h hidx' hil
    rw [hcl, hact] at hsome
    rw [hp, hcl]
    cases p with
    | none => simp at hsome
    | some x =>
      rw [if_neg (by simp), pure_bind]
      refine congrArg (VebNode.max x >>= ·) (funext fun r => ?_)
      cases r with
      | none => rfl
      | some lo => exact congrArg (pure ∘ some) (combine_congr hidx lo)

theorem min_eq (h : t.Inv lax) : t.min = t.view.min b w := by
  unfold min View.min view
  cases hs : t.summary with
  | none => simp [fresh_min (C := C)]
  | some s =>
    obtain ⟨hinv, hkeys⟩ := h.summary_some hs
    obtain ⟨r, hr, hmin⟩ := LawfulVeb.min_spec hinv
    simp only [Option.getD_some, hr, pure_bind]
    cases r with
    | none => exact ((h.summary.nonempty hs).ne_empty hmin).elim
    | some hi =>
      have hmem := hmin.1
      have heq := firstOf_eq (w := w) h (toNat_setWidth_of_le (Widths.child b w))
        ((hkeys _).mp hmem) (LawfulVeb.key_lt hinv hmem) (.fallback none)
      rw [view, hs] at heq
      exact heq

theorem max_eq (h : t.Inv lax) : t.max = t.view.max b w := by
  unfold max View.max view
  cases hs : t.summary with
  | none => simp [fresh_max (C := C)]
  | some s =>
    obtain ⟨hinv, hkeys⟩ := h.summary_some hs
    obtain ⟨r, hr, hmax⟩ := LawfulVeb.max_spec hinv
    simp only [Option.getD_some, hr, pure_bind]
    cases r with
    | none => exact ((h.summary.nonempty hs).ne_empty hmax).elim
    | some hi =>
      have hmem := hmax.1
      have heq := lastOf_eq (w := w) h (toNat_setWidth_of_le (Widths.child b w))
        ((hkeys _).mp hmem) (LawfulVeb.key_lt hinv hmem) (.fallback none)
      rw [view, hs] at heq
      exact heq

theorem clusterSuccessor_eq (h : t.Inv lax) (hidx : idx.toNat < 2 ^ b) (lo : BitVec c) :
    t.clusterSuccessor idx lo = t.view.clusterSuccessor idx.toNat lo := by
  unfold clusterSuccessor View.clusterSuccessor
  rw [clusterActive_eq (w := w) (c := c) hidx, DenseBitset.test_eq (Widths.fan w c) hidx,
    arrayGet_of_lt hidx]
  rw [view_cluster]
  have hsome := h.cluster_isSome hidx
  cases hact : t.active idx.toNat with
  | false =>
    rw [hact, Option.isSome_eq_false_iff, Option.isNone_iff_eq_none] at hsome
    simp [hsome]
  | true =>
    cases hil : t.inlineMask.has idx.toNat with
    | true =>
      rw [cluster_inline hidx hil]
      simp [Cluster.successor]
    | false =>
      obtain ⟨p, hp, hcl⟩ := clusterPtr_eq h hidx hil
      rw [hp, hcl]
      cases p <;> simp [Cluster.successor]

theorem clusterPredecessor_eq (h : t.Inv lax) (hidx : idx.toNat < 2 ^ b) (limit : BitVec c) :
    t.clusterPredecessor idx limit = t.view.clusterPredecessor idx.toNat limit := by
  unfold clusterPredecessor View.clusterPredecessor
  rw [clusterActive_eq (w := w) (c := c) hidx, DenseBitset.test_eq (Widths.fan w c) hidx,
    arrayGet_of_lt hidx]
  rw [view_cluster]
  have hsome := h.cluster_isSome hidx
  cases hact : t.active idx.toNat with
  | false =>
    rw [hact, Option.isSome_eq_false_iff, Option.isNone_iff_eq_none] at hsome
    simp [hsome]
  | true =>
    cases hil : t.inlineMask.has idx.toNat with
    | true =>
      rw [cluster_inline hidx hil]
      simp [Cluster.predecessor]
    | false =>
      obtain ⟨p, hp, hcl⟩ := clusterPtr_eq h hidx hil
      rw [hp, hcl]
      cases p <;> simp [Cluster.predecessor]

theorem successor_eq (h : t.Inv lax) (hk : key.toNat < 2 ^ (2 * b)) {s : C}
    (hs : t.summary = some s) (hmax : ¬ maxKey (2 * b) w ≤ key) :
    t.successor key = t.view.successor b w ((hiPart b key).setWidth c) (loPart b key) := by
  have hidx := hiPart_lt c hk
  obtain ⟨hinv, hkeys⟩ := h.summary_some hs
  have hc : 2 ^ b ≤ 2 ^ c := Nat.pow_le_pow_right (by omega) (LawfulVeb.bits_le C)
  have hw := toNat_setWidth_of_lt (hidx.trans_le hc)
  unfold successor View.successor
  rw [hs, if_neg (by simp), if_neg hmax]
  dsimp only
  rw [clusterSuccessor_eq h hidx, hw]
  congr 1
  funext found
  cases found with
  | some x => simp only [combine_congr hw.symm]
  | none =>
    obtain ⟨r, hr, hfirst⟩ := LawfulVeb.successor_spec hinv (hw ▸ hidx)
    have hsum : t.view.summary = s := by simp [view, hs]
    simp only [summarySuccessor, hs, hsum, hr, pure_bind]
    cases r with
    | none => rfl
    | some next =>
      have hmem := hfirst.1.1
      exact firstOf_eq h (toNat_setWidth_of_le (Widths.child b w)) ((hkeys _).mp hmem)
        (LawfulVeb.key_lt hinv hmem) (.fault .nullDereference)

theorem predecessor_eq (h : t.Inv lax) (hk : key.toNat < 2 ^ (2 * b)) {s : C}
    (hs : t.summary = some s) (h0 : key ≠ 0) :
    t.predecessor key = t.view.predecessor b w ((hiPart b key).setWidth c) (loPart b key) := by
  have hidx := hiPart_lt c hk
  obtain ⟨hinv, hkeys⟩ := h.summary_some hs
  have hc : 2 ^ b ≤ 2 ^ c := Nat.pow_le_pow_right (by omega) (LawfulVeb.bits_le C)
  have hw := toNat_setWidth_of_lt (hidx.trans_le hc)
  unfold predecessor View.predecessor
  rw [hs, if_neg (by simp), if_neg (not_or.mpr ⟨h0, not_maxKey_lt c hk⟩)]
  dsimp only
  rw [clusterPredecessor_eq h hidx, hw]
  congr 1
  funext found
  cases found with
  | some x => simp only [combine_congr hw.symm]
  | none =>
    obtain ⟨r, hr, hlast⟩ := LawfulVeb.predecessor_spec hinv (hw ▸ hidx)
    have hsum : t.view.summary = s := by simp [view, hs]
    simp only [summaryPredecessor, hs, hsum, hr, pure_bind]
    cases r with
    | none => rfl
    | some prev =>
      have hmem := hlast.1.1
      exact lastOf_eq h (toNat_setWidth_of_le (Widths.child b w)) ((hkeys _).mp hmem)
        (LawfulVeb.key_lt hinv hmem) (.fault .nullDereference)

end Queries

end DenseBranch

end ParvEB
