import ParvEB.DenseInv
import ParvEB.ViewUpdates

/-! Insertion into and erasure from a dense branch. -/
namespace ParvEB

open Outcome

namespace Slot

variable {C : Type} {inl : Bool}

@[simp] theorem get_put (x : C) : (put x inl).get inl = some x := by
  cases inl <;> rfl

@[simp] theorem get_drop (x : C) : (drop x inl).get inl = if inl then some x else none := by
  cases inl <;> rfl

end Slot

namespace DenseBranch

variable {b w c : ℕ} {inl : Bool} {C : Type} {t t' : DenseBranch b w c inl C} {i : Fin (2 ^ b)}
  {s : SlotState c C}

section Slots

theorem slotAt_inlineMask {mask : DenseBitset b} {v : Bool}
    (h : ∀ j, mask.has j = if j = i then v else t.inlineMask.has j) :
    ({ t with inlineMask := mask } : DenseBranch b w c inl C).slotAt =
      Function.update t.slotAt i { t.slotAt i with inlineBit := v } := by
  funext j
  by_cases hj : j = i
  · simp [slotAt, hj, h]
  · simp [slotAt, hj, h, Fin.val_inj]

theorem slotAt_clusterMask {mask : DenseBitset b} {v : Bool}
    (h : ∀ j, mask.has j = if j = i then v else t.clusterMask.has j) :
    ({ t with clusterMask := mask } : DenseBranch b w c inl C).slotAt =
      Function.update t.slotAt i { t.slotAt i with clusterBit := v } := by
  funext j
  by_cases hj : j = i
  · simp [slotAt, hj, h]
  · simp [slotAt, hj, h, Fin.val_inj]

theorem slotAt_inlineValue (v : BitVec c) :
    ({ t with inlineValue := Function.update t.inlineValue i v } : DenseBranch b w c inl C).slotAt =
      Function.update t.slotAt i { t.slotAt i with value := v } := by
  funext j
  by_cases hj : j = i <;> simp [slotAt, hj]

theorem slotAt_clusters (x : Slot C inl) :
    ({ t with clusters := Function.update t.clusters i x } : DenseBranch b w c inl C).slotAt =
      Function.update t.slotAt i { t.slotAt i with child := x.get inl } := by
  funext j
  by_cases hj : j = i <;> simp [slotAt, hj]

/-- The state after a call on the child at `i` that left it as `y`. -/
def setChild (t : DenseBranch b w c inl C) (i : Fin (2 ^ b)) (y : C) : DenseBranch b w c inl C :=
  { t with clusters := Function.update t.clusters i (.put y inl) }

theorem slotAt_setChild (y : C) : (t.setChild i y).slotAt =
    Function.update t.slotAt i { t.slotAt i with child := some y } := by
  rw [setChild, slotAt_clusters, Slot.get_put]

end Slots

section Replaces

theorem SlotState.cluster_inline (h : s.inlineBit = true) : s.cluster = some (.inline s.value) :=
  if_pos h

theorem SlotState.cluster_child {x : C} (hil : s.inlineBit = false) (hc : s.clusterBit = true)
    (hx : s.child = some x) : s.cluster = some (.child x) := by
  simp [cluster, hil, hc, hx]

theorem SlotState.cluster_inactive (h : s.active = false) : s.cluster = none := by
  obtain ⟨hil, hc⟩ := Bool.or_eq_false_iff.mp h
  simp [cluster, hil, hc]

theorem SlotState.cluster_eq_inline {v : BitVec c} (h : s.cluster = some (.inline v)) :
    s.inlineBit = true ∧ s.value = v := by
  unfold cluster at h
  split at h
  next hil =>
    cases h
    exact ⟨hil, rfl⟩
  next =>
    split at h
    next =>
      obtain ⟨y, _, he⟩ := Option.map_eq_some_iff.mp h
      cases he
    next => cases h

theorem SlotState.cluster_eq_child {x : C} (h : s.cluster = some (.child x)) :
    s.inlineBit = false ∧ s.clusterBit = true ∧ s.child = some x := by
  unfold cluster at h
  split at h
  next => cases h
  next hil =>
    split at h
    next hc =>
      obtain ⟨y, hy, he⟩ := Option.map_eq_some_iff.mp h
      cases he
      exact ⟨Bool.eq_false_iff.mpr hil, hc, hy⟩
    next => cases h

variable [VebNode C c] [LawfulVeb C b] {lax : Prop}

/-- `t'` is `t` with `s` in place of what index `i` held, and its summary is up to date. -/
structure Replaces (lax : Prop) (t : DenseBranch b w c inl C) (i : Fin (2 ^ b))
    (s : SlotState c C) (t' : DenseBranch b w c inl C) : Prop where
  slots : t'.slotAt = Function.update t.slotAt i s
  slot : SlotInv b lax inl s
  summary : SummaryInv b lax t'.summary
    (if s.active then insert i.val t.indices else t.indices \ {i.val})

namespace Replaces

theorem active (hb : 6 ≤ b) (h : Replaces lax t i s t') (j : ℕ) :
    t'.active j = if j = i then s.active else t.active j := by
  by_cases hj : j < 2 ^ b
  · change (t'.slotAt ⟨j, hj⟩).active = _
    rw [h.slots]
    by_cases hji : j = i
    · rw [show (⟨j, hj⟩ : Fin (2 ^ b)) = i from Fin.ext hji, Function.update_self, if_pos hji]
    · rw [Function.update_of_ne (fun he => hji (congrArg Fin.val he)), if_neg hji]
      rfl
  · have hoff : ∀ m : DenseBitset b, m.has j = false := fun m =>
      Bool.eq_false_iff.mpr fun hm => hj (DenseBitset.lt_of_has hb hm)
    rw [if_neg (fun he : j = i => hj (he ▸ i.isLt))]
    simp [DenseBranch.active, hoff]

theorem indices (hb : 6 ≤ b) (h : Replaces lax t i s t') :
    t'.indices = if s.active then insert i.val t.indices else t.indices \ {i.val} := by
  ext j
  change t'.active j = true ↔ _
  rw [h.active hb]
  by_cases hji : j = i <;> cases hs : s.active <;> simp [hji, DenseBranch.indices]

theorem inv (hb : 6 ≤ b) (h : Replaces lax t i s t') (ht : t.Inv lax) : t'.Inv lax where
  slot j := by
    rw [h.slots]
    by_cases hj : j = i
    · rw [hj, Function.update_self]
      exact h.slot
    · rw [Function.update_of_ne hj]
      exact ht.slot j
  summary := by
    rw [h.indices hb]
    exact h.summary

theorem cluster_of_ne (h : Replaces lax t i s t') {j : ℕ} (hj : j ≠ i) :
    t'.cluster j = t.cluster j := by
  unfold cluster
  split
  · rw [h.slots, Function.update_of_ne (fun he => hj (congrArg Fin.val he))]
  · rfl

theorem cluster_self (h : Replaces lax t i s t') : t'.cluster i = s.cluster := by
  rw [cluster_of_lt i.isLt, h.slots, Function.update_self]

/-- Nothing changes when the slot keeps what it has. -/
theorem refl (h : t.Inv lax) (i : Fin (2 ^ b)) : Replaces lax t i (t.slotAt i) t where
  slots := (Function.update_eq_self i t.slotAt).symm
  slot := h.slot i
  summary := by
    have hs := h.summary
    split
    next ha => rwa [Set.insert_eq_of_mem (show i.val ∈ t.indices from ha)]
    next ha => rwa [Set.sdiff_singleton_eq_self (show i.val ∉ t.indices from ha)]

/-- A cluster that stays present needs no new summary. -/
theorem of_active (h : t.Inv lax) (hslots : t'.slotAt = Function.update t.slotAt i s)
    (hslot : SlotInv b lax inl s) (hs : s.active = true) (hact : t.active i = true)
    (hsum : t'.summary = t.summary) : Replaces lax t i s t' where
  slots := hslots
  slot := hslot
  summary := by
    rw [if_pos hs, Set.insert_eq_of_mem (show i.val ∈ t.indices from hact), hsum]
    exact h.summary

variable {hi lo : BitVec c}

theorem grows (h : Replaces lax t i s t') (hhi : hi.toNat = i)
    (hg : Cluster.Grows b lax lo (t.slotAt i).cluster s.cluster)
    (hold : (t.slotAt i).cluster.isSome = true → t'.summary = t.summary)
    (hnew : (t.slotAt i).cluster = none →
      Inserted (t.summary.getD VebNode.fresh) hi (t'.summary.getD VebNode.fresh)) :
    t.view.Grows b lax hi lo t'.view := by
  have hcl : t.cluster hi.toNat = (t.slotAt i).cluster := by rw [hhi, cluster_of_lt i.isLt]
  refine ⟨fun j hj => h.cluster_of_ne (hhi ▸ hj), ?_, fun ho => ?_, fun ho => ?_⟩
  · rw [view_cluster, view_cluster, hcl, hhi, h.cluster_self]
    exact hg
  · rw [view_cluster, hcl] at ho
    exact congrArg (·.getD VebNode.fresh) (hold ho)
  · rw [view_cluster, hcl] at ho
    exact hnew ho

theorem shrinks (h : Replaces lax t i s t') (hhi : hi.toNat = i)
    (hs : Cluster.Shrinks lo (t.slotAt i).cluster s.cluster)
    (hold : s.cluster.isSome = (t.slotAt i).cluster.isSome → t'.summary = t.summary)
    (hgone : (t.slotAt i).cluster.isSome = true → s.cluster = none →
      ∃ o, Erased (t.summary.getD VebNode.fresh) hi o ∧ (t'.summary.getD VebNode.fresh = o ∨
        VebNode.empty o = true ∧ t'.summary.getD VebNode.fresh = VebNode.fresh)) :
    t.view.Shrinks hi lo t'.view := by
  have hcl : t.cluster hi.toNat = (t.slotAt i).cluster := by rw [hhi, cluster_of_lt i.isLt]
  have hcl' : t'.cluster hi.toNat = s.cluster := by rw [hhi, h.cluster_self]
  refine ⟨fun j hj => h.cluster_of_ne (hhi ▸ hj), ?_, fun ho => ?_, fun ho hn => ?_⟩
  · rw [view_cluster, view_cluster, hcl, hcl']
    exact hs
  · rw [view_cluster, view_cluster, hcl, hcl'] at ho
    exact congrArg (·.getD VebNode.fresh) (hold ho)
  · rw [view_cluster, hcl] at ho
    rw [view_cluster, hcl'] at hn
    exact hgone ho hn

end Replaces

end Replaces

section Parts

variable [VebNode C c] [LawfulVeb C b] [Widths b w c] {lax : Prop} {m : Mem} {idx : BitVec 32}

omit [VebNode C c] [LawfulVeb C b] [Widths b w c] in
theorem toNat_index (hidx : idx.toNat < 2 ^ b) (hc : b ≤ c) : (idx.setWidth c).toNat = idx.toNat :=
  toNat_setWidth_of_lt (hidx.trans_le (Nat.pow_le_pow_right (by omega) hc))

omit [LawfulVeb C b] [Widths b w c] in
theorem summaryInsert_some {o : C} (ho : t.summary = some o) :
    t.summaryInsert idx m = (VebNode.insert o (idx.setWidth c) m).within
      fun o => { t with summary := some o } := by
  rw [summaryInsert, ensureSummary, ho, returned_andThen, ho]

omit [LawfulVeb C b] [Widths b w c] in
theorem summaryInsert_none (ho : t.summary = none) :
    t.summaryInsert idx m = m.alloc t fun m =>
      (VebNode.insert VebNode.fresh (idx.setWidth c) m).within
        fun o => { t with summary := some o } := by
  rw [summaryInsert, ensureSummary, ho, alloc_andThen]
  simp only [returned_andThen]

omit [Widths b w c] in
theorem insert_summary {o : C} (hinv : LawfulVeb.Inv lax o) (hidx : idx.toNat < 2 ^ b) :
    ((VebNode.insert o (idx.setWidth c) m).within
        fun o => ({ t with summary := some o } : DenseBranch b w c inl C)).Ends m
      fun t' => ∃ o', t' = { t with summary := some o' } ∧
        SummaryInv b lax (some o') (insert idx.toNat (LawfulVeb.keys o)) ∧
        Inserted o (idx.setWidth c) o' := by
  have hw := toNat_index hidx (LawfulVeb.bits_le C)
  refine Ends.within ((inserted_spec hinv (hw ▸ hidx)).mono ?_)
  intro o' ho'
  obtain ⟨hinv', hkeys'⟩ := ho'.spec hinv (hw ▸ hidx)
  rw [hw] at hkeys'
  refine ⟨o', rfl, ⟨by simpa using (Set.insert_nonempty _ _).ne_empty, ?_⟩, ho'⟩
  rintro _ ⟨⟩
  exact ⟨hinv', hkeys'⟩

omit [Widths b w c] in
theorem summaryInsert_spec (h : SummaryInv b lax t.summary t.indices) (hidx : idx.toNat < 2 ^ b) :
    (t.summaryInsert idx m).Ends m fun t' => ∃ o, t' = { t with summary := some o } ∧
      SummaryInv b lax (some o) (insert idx.toNat t.indices) ∧
      Inserted (t.summary.getD VebNode.fresh) (idx.setWidth c) o := by
  cases hs : t.summary with
  | none =>
    rw [summaryInsert_none hs, h.null.mp hs, ← LawfulVeb.keys_fresh (T := C)]
    exact Ends.alloc fun m' _ => insert_summary LawfulVeb.fresh_inv hidx
  | some o =>
    obtain ⟨hinv, hkeys⟩ := h.lists o hs
    rw [summaryInsert_some hs, ← hkeys]
    exact insert_summary hinv hidx

omit [Widths b w c] in
theorem summaryErase_spec {I : Set ℕ} (h : SummaryInv b lax t.summary I)
    (hidx : idx.toNat < 2 ^ b) (hmem : idx.toNat ∈ I) :
    (t.summaryErase idx).Returns fun t' => ∃ o, t' = { t with summary := o } ∧
      SummaryInv b lax o (I \ {idx.toNat}) ∧
      ∃ s, Erased (t.summary.getD VebNode.fresh) (idx.setWidth c) s ∧
        (o.getD VebNode.fresh = s ∨
          VebNode.empty s = true ∧ o.getD VebNode.fresh = VebNode.fresh) := by
  have hw := toNat_index hidx (LawfulVeb.bits_le C)
  unfold summaryErase
  cases hs : t.summary with
  | none =>
    rw [h.null.mp hs] at hmem
    exact hmem.elim
  | some s =>
    obtain ⟨hinv, hkeys⟩ := h.lists s hs
    refine (erased_spec hinv (hw ▸ hidx)).bind ?_
    intro s' hs'
    obtain ⟨hinv', hkeys'⟩ := hs'.spec hinv (hw ▸ hidx)
    rw [hkeys, hw] at hkeys'
    have hempty := LawfulVeb.empty_spec hinv'
    rw [hkeys'] at hempty
    refine returns_pure.mpr ⟨_, rfl, ?_⟩
    split
    next he => exact ⟨⟨by simp [hempty.mp he], by simp⟩, s', hs', Or.inr ⟨he, rfl⟩⟩
    next he =>
      refine ⟨⟨by simp [← hempty, he], ?_⟩, s', hs', Or.inl rfl⟩
      rintro _ ⟨⟩
      exact ⟨hinv', hkeys'⟩

omit [LawfulVeb C b] in
/-- A child held by value is there already. -/
theorem ensureCluster_value {t : DenseBranch b w c true C} (hidx : idx.toNat = i) :
    ∃ t₁, (∀ m, t.ensureCluster idx m = pure (.returned t₁ m)) ∧ t₁.summary = t.summary ∧
      t₁.slotAt = Function.update t.slotAt i { t.slotAt i with clusterBit := true } := by
  have hlt : idx.toNat < 2 ^ b := hidx ▸ i.isLt
  obtain ⟨mask, hmask, hhas⟩ := DenseBitset.set_spec (t := t.clusterMask) (Widths.fan w c) hlt
  rw [hidx] at hhas
  refine ⟨{ t with clusterMask := mask }, fun m => ?_, rfl, slotAt_clusterMask hhas⟩
  rw [ensureCluster, if_pos rfl, hmask, pure_bind]

omit [LawfulVeb C b] [Widths b w c] in
theorem ensureCluster_some {t : DenseBranch b w c false C} {x : C} (hidx : idx.toNat = i)
    (hx : (t.slotAt i).child = some x) : t.ensureCluster idx m = pure (.returned t m) := by
  have hlt : idx.toNat < 2 ^ b := hidx ▸ i.isLt
  have hi : (⟨idx.toNat, hlt⟩ : Fin (2 ^ b)) = i := Fin.ext hidx
  rw [ensureCluster, if_neg (by simp), arrayGet_of_lt hlt, pure_bind, hi,
    show (t.clusters i).get false = some x from hx]

omit [LawfulVeb C b] in
/-- A child behind a null pointer is made. -/
theorem ensureCluster_none {t : DenseBranch b w c false C} (hidx : idx.toNat = i)
    (hx : (t.slotAt i).child = none) :
    ∃ t₁, (∀ m, t.ensureCluster idx m = m.alloc t fun m => pure (.returned t₁ m)) ∧
      t₁.summary = t.summary ∧ t₁.slotAt = Function.update t.slotAt i
        { t.slotAt i with clusterBit := true, child := some VebNode.fresh } := by
  have hlt : idx.toNat < 2 ^ b := hidx ▸ i.isLt
  have hi : (⟨idx.toNat, hlt⟩ : Fin (2 ^ b)) = i := Fin.ext hidx
  obtain ⟨mask, hmask, hhas⟩ := DenseBitset.set_spec (t := t.clusterMask) (Widths.fan w c) hlt
  rw [hidx] at hhas
  refine ⟨{ t.setChild i VebNode.fresh with clusterMask := mask }, fun m => ?_, rfl, ?_⟩
  · rw [ensureCluster, if_neg (by simp), arrayGet_of_lt hlt, pure_bind, hi,
      show (t.clusters i).get false = none from hx]
    refine congrArg (m.alloc t) (funext fun m => ?_)
    rw [arraySet_of_lt hlt, pure_bind, hi, hmask, pure_bind]
    rfl
  · rw [slotAt_clusterMask (t := t.setChild i VebNode.fresh) hhas, slotAt_setChild,
      Function.update_self, Function.update_idem]

omit [LawfulVeb C b] in
theorem ensureCluster_spec (h : (t.slotAt i).child.isSome = (inl || (t.slotAt i).clusterBit))
    (hidx : idx.toNat = i) :
    (t.ensureCluster idx m).Ends m fun t' => t'.summary = t.summary ∧
      t'.slotAt = Function.update t.slotAt i { t.slotAt i with
        clusterBit := true, child := some ((t.slotAt i).child.getD VebNode.fresh) } := by
  cases inl with
  | true =>
    obtain ⟨t₁, ht₁, hsum, hslots⟩ := ensureCluster_value (t := t) hidx
    rw [ht₁]
    exact ends_returned ⟨hsum, hslots⟩
  | false =>
    cases hx : (t.slotAt i).child with
    | some x =>
      rw [ensureCluster_some hidx hx]
      refine ends_returned ⟨rfl, ?_⟩
      have hbit : (t.slotAt i).clusterBit = true := by simpa [hx] using h.symm
      rw [Option.getD_some, ← hx, ← hbit, Function.update_eq_self]
    | none =>
      obtain ⟨t₁, ht₁, hsum, hslots⟩ := ensureCluster_none hidx hx
      rw [ht₁]
      exact Ends.alloc fun _ _ => ends_returned ⟨hsum, hslots⟩

omit [LawfulVeb C b] [Widths b w c] in
theorem childInsert_eq {x : C} {k : BitVec c} (hidx : idx.toNat = i)
    (hx : (t.slotAt i).child = some x) :
    t.childInsert idx k m = (VebNode.insert x k m).within (t.setChild i) := by
  have hlt : idx.toNat < 2 ^ b := hidx ▸ i.isLt
  have hi : (⟨idx.toNat, hlt⟩ : Fin (2 ^ b)) = i := Fin.ext hidx
  rw [childInsert, arrayGet_of_lt hlt, pure_bind, hi, show (t.clusters i).get inl = some x from hx]
  refine congrArg (VebNode.insert x k m >>= ·) (funext fun e => ?_)
  rw [arraySet_of_lt hlt, pure_bind, hi]
  cases e <;> rfl

omit [Widths b w c] in
theorem childInsert_spec {x : C} {k : BitVec c} (hx : (t.slotAt i).child = some x)
    (hinv : LawfulVeb.Inv lax x) (hidx : idx.toNat = i) (hk : k.toNat < 2 ^ b) :
    (t.childInsert idx k m).Ends m fun t' => ∃ y, Inserted x k y ∧ t'.summary = t.summary ∧
      t'.slotAt = Function.update t.slotAt i { t.slotAt i with child := some y } := by
  rw [childInsert_eq hidx hx]
  exact Ends.within ((inserted_spec hinv hk).mono fun y hy => ⟨y, hy, rfl, slotAt_setChild y⟩)

end Parts

section Tests

variable [VebNode C c] [Widths b w c] {m : Mem} {key : BitVec w}

/-- The index that a key in range falls under. -/
def indexOf (c : ℕ) [Widths b w c] (key : BitVec w) (hk : key.toNat < 2 ^ (2 * b)) : Fin (2 ^ b) :=
  ⟨(hiPart b key).toNat, hiPart_lt c hk⟩

theorem insert_of_absent (hk : key.toNat < 2 ^ (2 * b))
    (hact : t.active (indexOf c key hk) = false) :
    t.insert key m = ((t.summaryInsert (hiPart b key) m).andThen fun t m => do
      let mask ← t.inlineMask.set (hiPart b key)
      let values ← arraySet t.inlineValue (hiPart b key).toNat (loPart b key)
      pure (.returned { t with inlineMask := mask, inlineValue := values } m)) := by
  unfold DenseBranch.insert
  dsimp only
  rw [clusterActive_eq (w := w) (c := c) (hiPart_lt c hk), pure_bind,
    show t.active (hiPart b key).toNat = false from hact, if_pos (by simp)]

theorem insert_of_inline (hk : key.toNat < 2 ^ (2 * b))
    (hil : t.inlineMask.has (indexOf c key hk) = true) :
    t.insert key m =
      if t.inlineValue (indexOf c key hk) = loPart b key then pure (.returned t m)
      else ((t.ensureCluster (hiPart b key) m).andThen fun t₁ m =>
        (t₁.childInsert (hiPart b key) (t.inlineValue (indexOf c key hk)) m).andThen fun t₂ m => do
          let mask ← t₂.inlineMask.reset (hiPart b key)
          DenseBranch.childInsert { t₂ with inlineMask := mask } (hiPart b key) (loPart b key)
            m) := by
  have hidx := hiPart_lt c hk
  have hact : t.active (hiPart b key).toNat = true := Bool.or_eq_true_iff.mpr (Or.inl hil)
  unfold DenseBranch.insert
  dsimp only
  rw [clusterActive_eq (w := w) (c := c) hidx, pure_bind, hact, if_neg (by simp),
    DenseBitset.test_eq (Widths.fan w c) hidx, pure_bind,
    show t.inlineMask.has (hiPart b key).toNat = true from hil, if_pos rfl, arrayGet_of_lt hidx,
    pure_bind]
  rfl

theorem insert_of_child (hk : key.toNat < 2 ^ (2 * b))
    (hact : t.active (indexOf c key hk) = true)
    (hil : t.inlineMask.has (indexOf c key hk) = false) :
    t.insert key m = (t.ensureCluster (hiPart b key) m).andThen fun t m =>
      t.childInsert (hiPart b key) (loPart b key) m := by
  have hidx := hiPart_lt c hk
  unfold DenseBranch.insert
  dsimp only
  rw [clusterActive_eq (w := w) (c := c) hidx, pure_bind,
    show t.active (hiPart b key).toNat = true from hact, if_neg (by simp),
    DenseBitset.test_eq (Widths.fan w c) hidx, pure_bind,
    show t.inlineMask.has (hiPart b key).toNat = false from hil, if_neg (by simp)]

theorem erase_of_inline (hk : key.toNat < 2 ^ (2 * b))
    (hil : t.inlineMask.has (indexOf c key hk) = true) :
    t.erase key =
      if t.inlineValue (indexOf c key hk) ≠ loPart b key then pure t
      else (do
        let mask ← t.inlineMask.reset (hiPart b key)
        DenseBranch.summaryErase { t with inlineMask := mask } (hiPart b key)) := by
  have hidx := hiPart_lt c hk
  have hact : t.active (hiPart b key).toNat = true := Bool.or_eq_true_iff.mpr (Or.inl hil)
  unfold erase
  dsimp only
  rw [if_neg (not_maxKey_lt c hk), clusterActive_eq (w := w) (c := c) hidx, pure_bind, hact,
    if_neg (by simp), DenseBitset.test_eq (Widths.fan w c) hidx, pure_bind,
    show t.inlineMask.has (hiPart b key).toNat = true from hil, if_pos rfl, arrayGet_of_lt hidx,
    pure_bind]
  rfl

theorem erase_of_absent (hk : key.toNat < 2 ^ (2 * b))
    (hact : t.active (indexOf c key hk) = false) : t.erase key = pure t := by
  unfold erase
  dsimp only
  rw [if_neg (not_maxKey_lt c hk), clusterActive_eq (w := w) (c := c) (hiPart_lt c hk), pure_bind,
    show t.active (hiPart b key).toNat = false from hact]
  rfl

omit [VebNode C c] in
theorem clusterPtr_present {x : C} {idx : BitVec 32} (hidx : idx.toNat = i)
    (hbit : (t.slotAt i).clusterBit = true) (hx : (t.slotAt i).child = some x) :
    t.clusterPtr idx = pure (some x) := by
  have hlt : idx.toNat < 2 ^ b := hidx ▸ i.isLt
  have hi : (⟨idx.toNat, hlt⟩ : Fin (2 ^ b)) = i := Fin.ext hidx
  have hget : arrayGet t.clusters idx.toNat = pure (t.clusters i) := by
    rw [arrayGet_of_lt hlt, hi]
  have hbit' : t.clusterMask.has idx.toNat = true := hidx ▸ hbit
  rw [clusterPtr, DenseBitset.test_eq (Widths.fan w c) hlt, hbit', hget, pure_bind, pure_bind,
    if_pos rfl, show (t.clusters i).get inl = some x from hx, ite_self]

theorem erase_of_child {x : C} (hk : key.toNat < 2 ^ (2 * b))
    (hx : (t.slotAt (indexOf c key hk)).cluster = some (.child x)) :
    t.erase key = t.childErase (hiPart b key) x (loPart b key) := by
  have hi : (hiPart b key).toNat = indexOf c key hk := rfl
  have hidx := hiPart_lt c hk
  obtain ⟨hil, hbit, hchild⟩ := SlotState.cluster_eq_child hx
  have hact : t.active (hiPart b key).toNat = true := Bool.or_eq_true_iff.mpr (Or.inr hbit)
  unfold erase
  dsimp only
  rw [if_neg (not_maxKey_lt c hk), clusterActive_eq (w := w) (c := c) hidx, pure_bind, hact,
    if_neg (by simp), DenseBitset.test_eq (Widths.fan w c) hidx, pure_bind,
    show t.inlineMask.has (hiPart b key).toNat = false from hil, if_neg (by simp),
    clusterPtr_present hi hbit hchild, pure_bind]

end Tests

section Operations

variable [VebNode C c] [LawfulVeb C b] [Widths b w c] {lax : Prop} {m : Mem} {idx : BitVec 32}
  {lo : BitVec c}

/-- A cluster that was absent becomes an inline value. -/
theorem insert_absent (h : t.Inv lax) (hidx : idx.toNat = i) (hlo : lo.toNat < 2 ^ b)
    (hact : t.active i = false) :
    ((t.summaryInsert idx m).andThen fun t m => do
      let mask ← t.inlineMask.set idx
      let values ← arraySet t.inlineValue idx.toNat lo
      pure (.returned { t with inlineMask := mask, inlineValue := values } m)).Ends m fun t' =>
      ∃ s, Replaces lax t i s t' ∧ t.view.Grows b lax (idx.setWidth c) lo t'.view := by
  have hb : 6 ≤ b := Widths.fan w c
  have hlt : idx.toNat < 2 ^ b := hidx ▸ i.isLt
  have hi : (⟨idx.toNat, hlt⟩ : Fin (2 ^ b)) = i := Fin.ext hidx
  have hslot := h.slot i
  have hbits : (t.slotAt i).inlineBit = false ∧ (t.slotAt i).clusterBit = false :=
    Bool.or_eq_false_iff.mp hact
  have hnone : (t.slotAt i).cluster = none := SlotState.cluster_inactive hact
  refine (summaryInsert_spec h.summary hlt).andThen ?_
  rintro _ m' ⟨o, rfl, ho, hins⟩ _
  obtain ⟨mask, hmask, hhas⟩ := DenseBitset.set_spec (t := t.inlineMask) hb hlt
  rw [hidx] at hhas ho
  rw [hmask, pure_bind, arraySet_of_lt hlt, pure_bind, hi]
  let t' : DenseBranch b w c inl C := { t with
    summary := some o, inlineMask := mask, inlineValue := Function.update t.inlineValue i lo }
  have hr : Replaces lax t i { t.slotAt i with inlineBit := true, value := lo } t' := by
    refine ⟨?_, ⟨by simp [hbits.2], hslot.pointer, hslot.child, fun _ => hlo⟩, ho⟩
    have hvalue := slotAt_inlineValue (i := i)
      (t := ({ t with inlineMask := mask } : DenseBranch b w c inl C)) lo
    rw [slotAt_inlineMask hhas, Function.update_self, Function.update_idem] at hvalue
    exact hvalue
  refine ends_returned ⟨_, hr, hr.grows ((toNat_index hlt (LawfulVeb.bits_le C)).trans hidx) ?_
    (fun hs => by simp [hnone] at hs) fun _ => hins⟩
  rw [hnone, SlotState.cluster_inline rfl]
  exact .absent

/-- A second value turns an inline value into a child. -/
theorem insert_expand (h : t.Inv lax) (hidx : idx.toNat = i) (hlo : lo.toNat < 2 ^ b)
    (hil : t.inlineMask.has i = true) (hne : t.inlineValue i ≠ lo) :
    ((t.ensureCluster idx m).andThen fun t₁ m =>
      (t₁.childInsert idx (t.inlineValue i) m).andThen fun t₂ m => do
        let mask ← t₂.inlineMask.reset idx
        DenseBranch.childInsert { t₂ with inlineMask := mask } idx lo m).Ends m fun t' =>
      ∃ s, Replaces lax t i s t' ∧ t.view.Grows b lax (idx.setWidth c) lo t'.view := by
  have hb : 6 ≤ b := Widths.fan w c
  have hlt : idx.toNat < 2 ^ b := hidx ▸ i.isLt
  have hslot := h.slot i
  have hbit : (t.slotAt i).inlineBit = true := hil
  have hval : (t.inlineValue i).toNat < 2 ^ b := hslot.value_lt hbit
  obtain ⟨hx, hxkeys⟩ := hslot.hidden hbit
  refine (ensureCluster_spec hslot.pointer hidx).andThen ?_
  rintro t₁ m₁ ⟨hsum₁, hslots₁⟩ _
  have hx₁ : (t₁.slotAt i).child = some ((t.slotAt i).child.getD VebNode.fresh) := by
    rw [hslots₁, Function.update_self]
  refine (childInsert_spec hx₁ hx hidx hval).andThen ?_
  rintro t₂ m₂ ⟨y, hy, hsum₂, hslots₂⟩ _
  obtain ⟨hyinv, _⟩ := hy.spec hx hval
  rw [hslots₁, Function.update_self, Function.update_idem] at hslots₂
  obtain ⟨mask, hmask, hhas⟩ := DenseBitset.reset_spec (t := t₂.inlineMask) hb hlt
  rw [hidx] at hhas
  rw [hmask, pure_bind]
  have hslots₃ := slotAt_inlineMask hhas
  rw [hslots₂, Function.update_self, Function.update_idem] at hslots₃
  have hy₃ : (({ t₂ with inlineMask := mask } : DenseBranch b w c inl C).slotAt i).child =
      some y := by
    rw [hslots₃, Function.update_self]
  refine (childInsert_spec hy₃ hyinv hidx hlo).mono ?_
  rintro t₄ ⟨z, hz, hsum₄, hslots₄⟩
  obtain ⟨hzinv, hzkeys⟩ := hz.spec hyinv hlo
  rw [hslots₃, Function.update_self, Function.update_idem] at hslots₄
  have hsum : t₄.summary = t.summary := hsum₄.trans (hsum₂.trans hsum₁)
  have hr : Replaces lax t i ⟨false, true, t.inlineValue i, some z⟩ t₄ := by
    refine .of_active h hslots₄ ⟨by simp, by simp, ?_, by simp⟩ rfl (by simp [active, hil]) hsum
    rintro _ ⟨⟩
    exact ⟨hzinv, by simp [hzkeys, Set.insert_nonempty]⟩
  refine ⟨_, hr, hr.grows ((toNat_index hlt (LawfulVeb.bits_le C)).trans hidx) ?_ (fun _ => hsum)
    fun hs => ?_⟩
  · rw [SlotState.cluster_inline hbit, SlotState.cluster_child rfl rfl rfl]
    exact .expand hne hx (hxkeys ▸ Set.empty_subset _) (fun _ => hxkeys) hy hz
  · rw [SlotState.cluster_inline hbit] at hs
    cases hs

/-- A key goes into a child that is present. -/
theorem insert_child (h : t.Inv lax) (hidx : idx.toNat = i) (hlo : lo.toNat < 2 ^ b)
    (hil : t.inlineMask.has i = false) (hact : t.active i = true) :
    ((t.ensureCluster idx m).andThen fun t m => t.childInsert idx lo m).Ends m fun t' =>
      ∃ s, Replaces lax t i s t' ∧ t.view.Grows b lax (idx.setWidth c) lo t'.view := by
  have hlt : idx.toNat < 2 ^ b := hidx ▸ i.isLt
  have hslot := h.slot i
  have hbit : (t.slotAt i).clusterBit = true := by
    simpa [active, slotAt, hil] using hact
  obtain ⟨x, hx⟩ := hslot.get_isSome hbit
  have hxinv := (hslot.child x hx).1
  refine (ensureCluster_spec hslot.pointer hidx).andThen ?_
  rintro t₁ m₁ ⟨hsum₁, hslots₁⟩ _
  rw [hx, Option.getD_some] at hslots₁
  have hx₁ : (t₁.slotAt i).child = some x := by rw [hslots₁, Function.update_self]
  refine (childInsert_spec hx₁ hxinv hidx hlo).mono ?_
  rintro t₂ ⟨y, hy, hsum₂, hslots₂⟩
  obtain ⟨hyinv, hykeys⟩ := hy.spec hxinv hlo
  rw [hslots₁, Function.update_self, Function.update_idem] at hslots₂
  have hsum : t₂.summary = t.summary := hsum₂.trans hsum₁
  have hr : Replaces lax t i ⟨t.inlineMask.has i, true, t.inlineValue i, some y⟩ t₂ := by
    refine .of_active h hslots₂ ⟨by simp [hil], by simp, ?_, by simp [hil]⟩
      (by simp [SlotState.active]) hact hsum
    rintro _ ⟨⟩
    exact ⟨hyinv, by simp [hykeys, Set.insert_nonempty]⟩
  refine ⟨_, hr, hr.grows ((toNat_index hlt (LawfulVeb.bits_le C)).trans hidx) ?_ (fun _ => hsum)
    fun hs => ?_⟩
  · rw [SlotState.cluster_child hil hbit hx, SlotState.cluster_child hil rfl rfl]
    exact .child hy
  · rw [SlotState.cluster_child hil hbit hx] at hs
    cases hs

variable {key : BitVec w}

theorem insert_replaces (h : t.Inv lax) (hk : key.toNat < 2 ^ (2 * b)) :
    (t.insert key m).Ends m fun t' => ∃ s, Replaces lax t (indexOf c key hk) s t' ∧
      t.view.Grows b lax ((hiPart b key).setWidth c) (loPart b key) t'.view := by
  have hidx := hiPart_lt c hk
  have hi : (hiPart b key).toNat = indexOf c key hk := rfl
  have hlo := (loPart_lt C key).2
  cases hact : t.active (indexOf c key hk) with
  | false =>
    rw [insert_of_absent hk hact]
    exact insert_absent h hi hlo hact
  | true =>
    cases hil : t.inlineMask.has (indexOf c key hk) with
    | false =>
      rw [insert_of_child hk hact hil]
      exact insert_child h hi hlo hil hact
    | true =>
      rw [insert_of_inline hk hil]
      split
      next hv =>
        have hr := Replaces.refl h (indexOf c key hk)
        have hcl : (t.slotAt (indexOf c key hk)).cluster = some (.inline (loPart b key)) := by
          rw [SlotState.cluster_inline hil]
          exact congrArg (some ∘ Cluster.inline) hv
        refine ends_returned ⟨_, hr, hr.grows (toNat_index hidx (LawfulVeb.bits_le C)) ?_
          (fun _ => rfl) fun hn => ?_⟩
        · rw [hcl]
          exact .present
        · rw [hcl] at hn
          cases hn
      next hv => exact insert_expand h hi hlo hil hv

omit [Widths b w c] in
/-- The index of a cluster that has gone leaves the summary. -/
theorem summaryErase_shrinks (h : t.Inv lax) (hidx : idx.toNat = i) (hact : t.active i = true)
    (hsum : t'.summary = t.summary) (hslots : t'.slotAt = Function.update t.slotAt i s)
    (hslot : SlotInv b lax inl s) (hs : s.active = false)
    (hgone : Cluster.Shrinks lo (t.slotAt i).cluster none) :
    (t'.summaryErase idx).Returns fun t'' =>
      ∃ s, Replaces lax t i s t'' ∧ t.view.Shrinks (idx.setWidth c) lo t''.view := by
  have hlt : idx.toNat < 2 ^ b := hidx ▸ i.isLt
  have hmem : idx.toNat ∈ t.indices := by
    rw [hidx]
    exact hact
  have hsummary : SummaryInv b lax t'.summary t.indices := hsum ▸ h.summary
  refine (summaryErase_spec hsummary hlt hmem).mono ?_
  rintro _ ⟨o, rfl, ho, herased⟩
  rw [hidx] at ho
  rw [hsum] at herased
  have hr : Replaces lax t i s { t' with summary := o } := by
    refine ⟨hslots, hslot, ?_⟩
    rwa [hs, if_neg (by simp)]
  have hnone : s.cluster = none := SlotState.cluster_inactive hs
  have hsome : (t.slotAt i).cluster.isSome = true := by
    rw [(h.slot i).cluster_isSome]
    exact hact
  refine ⟨s, hr, hr.shrinks ((toNat_index hlt (LawfulVeb.bits_le C)).trans hidx) ?_ (fun he => ?_)
    fun _ _ => herased⟩
  · rw [hnone]
    exact hgone
  · rw [hnone, hsome] at he
    cases he

/-- An inline value goes, and its index with it. -/
theorem erase_inline (h : t.Inv lax) (hidx : idx.toNat = i) (hil : t.inlineMask.has i = true)
    (hlo : t.inlineValue i = lo) :
    (do
      let mask ← t.inlineMask.reset idx
      DenseBranch.summaryErase { t with inlineMask := mask } idx).Returns fun t' =>
      ∃ s, Replaces lax t i s t' ∧ t.view.Shrinks (idx.setWidth c) lo t'.view := by
  have hlt : idx.toNat < 2 ^ b := hidx ▸ i.isLt
  have hslot := h.slot i
  have hbit : (t.slotAt i).inlineBit = true := hil
  have hnobit : (t.slotAt i).clusterBit = false := hslot.clusterBit_eq_false hbit
  obtain ⟨mask, hmask, hhas⟩ :=
    DenseBitset.reset_spec (t := t.inlineMask) (Widths.fan w c) hlt
  rw [hidx] at hhas
  rw [hmask, pure_bind]
  refine summaryErase_shrinks h hidx (Bool.or_eq_true_iff.mpr (Or.inl hil)) rfl
    (slotAt_inlineMask hhas) ⟨by simp, hslot.pointer, hslot.child, by simp⟩ hnobit ?_
  rw [SlotState.cluster_inline hbit, ← hlo]
  exact .inline

/-- A child that an erasure empties goes, and its index with it. -/
theorem childErase_drop (h : t.Inv lax) (hidx : idx.toNat = i) (hlo : lo.toNat < 2 ^ b) {x y : C}
    (hx : (t.slotAt i).cluster = some (.child x)) (hy : Erased x lo y)
    (he : VebNode.empty y = true) :
    (do
      let clusters ← arraySet t.clusters idx.toNat (.drop y inl)
      let mask ← t.clusterMask.reset idx
      DenseBranch.summaryErase { t with clusters := clusters, clusterMask := mask } idx).Returns
      fun t' => ∃ s, Replaces lax t i s t' ∧ t.view.Shrinks (idx.setWidth c) lo t'.view := by
  have hlt : idx.toNat < 2 ^ b := hidx ▸ i.isLt
  have hi : (⟨idx.toNat, hlt⟩ : Fin (2 ^ b)) = i := Fin.ext hidx
  obtain ⟨hil, hbit, hchild⟩ := SlotState.cluster_eq_child hx
  have hyinv := (hy.spec ((h.slot i).child x hchild).1 hlo).1
  have hempty := (LawfulVeb.empty_spec hyinv).mp he
  obtain ⟨mask, hmask, hhas⟩ :=
    DenseBitset.reset_spec (t := t.clusterMask) (Widths.fan w c) hlt
  rw [hidx] at hhas
  rw [arraySet_of_lt hlt, pure_bind, hi, hmask, pure_bind]
  let t₁ : DenseBranch b w c inl C :=
    { t with clusters := Function.update t.clusters i (.drop y inl) }
  have hslots₁ := slotAt_clusters (t := t) (i := i) (.drop y inl)
  have hslots : ({ t₁ with clusterMask := mask } : DenseBranch b w c inl C).slotAt = _ :=
    slotAt_clusterMask hhas
  rw [hslots₁, Function.update_self, Function.update_idem, Slot.get_drop] at hslots
  refine summaryErase_shrinks h hidx (Bool.or_eq_true_iff.mpr (Or.inr hbit)) rfl hslots
    ⟨by simp, ?_, ?_, (h.slot i).value_lt⟩ (Bool.or_eq_false_iff.mpr ⟨hil, rfl⟩) ?_
  · cases inl <;> rfl
  · cases inl with
    | true =>
      rintro _ ⟨⟩
      exact ⟨hyinv, by simp [hempty]⟩
    | false => simp
  · rw [hx]
    exact .drop hy he

omit [Widths b w c] in
theorem childErase_keep (h : t.Inv lax) (hidx : idx.toNat = i) (hlo : lo.toNat < 2 ^ b) {x y : C}
    (hx : (t.slotAt i).cluster = some (.child x)) (hy : Erased x lo y)
    (he : ¬ VebNode.empty y = true) :
    ∃ s, Replaces lax t i s (t.setChild i y) ∧
      t.view.Shrinks (idx.setWidth c) lo (t.setChild i y).view := by
  have hlt : idx.toNat < 2 ^ b := hidx ▸ i.isLt
  have hslot := h.slot i
  obtain ⟨hil, hbit, hchild⟩ := SlotState.cluster_eq_child hx
  have hyinv := (hy.spec (hslot.child x hchild).1 hlo).1
  have hr : Replaces lax t i { t.slotAt i with child := some y } (t.setChild i y) := by
    refine .of_active h (slotAt_setChild y) ⟨hslot.disjoint, by simp [hbit], ?_, hslot.value_lt⟩
      (Bool.or_eq_true_iff.mpr (Or.inr hbit)) (Bool.or_eq_true_iff.mpr (Or.inr hbit)) rfl
    rintro _ ⟨⟩
    rw [LawfulVeb.empty_spec hyinv] at he
    exact ⟨hyinv, iff_of_true (Set.nonempty_iff_ne_empty.mpr he) hbit⟩
  have hsome : ({ t.slotAt i with child := some y } : SlotState c C).cluster = some (.child y) :=
    SlotState.cluster_child hil hbit rfl
  refine ⟨_, hr, hr.shrinks ((toNat_index hlt (LawfulVeb.bits_le C)).trans hidx) ?_ (fun _ => rfl)
    fun _ hn => ?_⟩
  · rw [hx, hsome]
    exact .keep hy (Bool.eq_false_iff.mpr he)
  · rw [hsome] at hn
    cases hn

/-- A key leaves a child, which is dropped if that empties it. -/
theorem childErase_spec (h : t.Inv lax) (hidx : idx.toNat = i) (hlo : lo.toNat < 2 ^ b)
    (hil : t.inlineMask.has i = false) (hact : t.active i = true) {x : C}
    (hx : (t.slotAt i).child = some x) :
    (t.childErase idx x lo).Returns fun t' =>
      ∃ s, Replaces lax t i s t' ∧ t.view.Shrinks (idx.setWidth c) lo t'.view := by
  have hlt : idx.toNat < 2 ^ b := hidx ▸ i.isLt
  have hi : (⟨idx.toNat, hlt⟩ : Fin (2 ^ b)) = i := Fin.ext hidx
  have hbit : (t.slotAt i).clusterBit = true := by
    simpa [active, slotAt, hil] using hact
  have hcl : (t.slotAt i).cluster = some (.child x) := SlotState.cluster_child hil hbit hx
  refine (erased_spec ((h.slot i).child x hx).1 hlo).bind ?_
  intro y hy
  split
  next he => exact childErase_drop h hidx hlo hcl hy he
  next he =>
    rw [arraySet_of_lt hlt, pure_bind, hi]
    exact returns_pure.mpr (childErase_keep h hidx hlo hcl hy he)

theorem erase_replaces (h : t.Inv lax) (hk : key.toNat < 2 ^ (2 * b)) :
    (t.erase key).Returns fun t' => ∃ s, Replaces lax t (indexOf c key hk) s t' ∧
      t.view.Shrinks ((hiPart b key).setWidth c) (loPart b key) t'.view := by
  have hidx := hiPart_lt c hk
  have hi : (hiPart b key).toNat = indexOf c key hk := rfl
  have hhi := toNat_index hidx (LawfulVeb.bits_le C)
  have hlo := (loPart_lt C key).2
  have hr := Replaces.refl h (indexOf c key hk)
  cases hil : t.inlineMask.has (indexOf c key hk) with
  | true =>
    rw [erase_of_inline hk hil]
    split
    next hv =>
      have hcl := SlotState.cluster_inline (s := t.slotAt (indexOf c key hk)) hil
      refine returns_pure.mpr ⟨_, hr, hr.shrinks hhi ?_ (fun _ => rfl) fun _ hn => ?_⟩
      · rw [hcl]
        exact .other hv
      · rw [hcl] at hn
        cases hn
    next hv => exact erase_inline h hi hil (not_not.mp hv)
  | false =>
    cases hact : t.active (indexOf c key hk) with
    | false =>
      have hcl : (t.slotAt (indexOf c key hk)).cluster = none := SlotState.cluster_inactive hact
      rw [erase_of_absent hk hact]
      refine returns_pure.mpr ⟨_, hr, hr.shrinks hhi ?_ (fun _ => rfl) fun hs => ?_⟩
      · rw [hcl]
        exact .absent
      · rw [hcl] at hs
        cases hs
    | true =>
      have hbit : (t.slotAt (indexOf c key hk)).clusterBit = true := by
        simpa [active, slotAt, hil] using hact
      obtain ⟨x, hx⟩ := (h.slot (indexOf c key hk)).get_isSome hbit
      rw [erase_of_child hk (SlotState.cluster_child hil hbit hx)]
      exact childErase_spec h hi hlo hil hact hx

theorem toNat_key (C : Type) [VebNode C c] [LawfulVeb C b] (hk : key.toNat < 2 ^ (2 * b)) :
    ((hiPart b key).setWidth c).toNat * 2 ^ b + (loPart b key : BitVec c).toNat = key.toNat := by
  rw [toNat_index (hiPart_lt c hk) (LawfulVeb.bits_le C), toNat_hiPart (Widths.index w c) hk,
    (loPart_lt C key).1, split_eq]

end Operations

section Fresh

variable [VebNode C c] [LawfulVeb C b] {lax : Prop}

theorem fresh_inv : (VebNode.fresh : DenseBranch b w c inl C).Inv lax where
  slot i := by
    have hbits : ∀ j, (DenseBitset.zero : DenseBitset b).has j = false := DenseBitset.has_zero
    refine ⟨fun h => absurd h.1 (by simp [slotAt, VebNode.fresh, hbits]), ?_, ?_,
      fun h => absurd h (by simp [slotAt, VebNode.fresh, hbits])⟩
    · cases inl <;> simp [slotAt, VebNode.fresh, hbits, Slot.get, Slot.init]
    · cases inl with
      | true =>
        rintro _ ⟨⟩
        refine ⟨LawfulVeb.fresh_inv, ?_⟩
        change (LawfulVeb.keys (VebNode.fresh : C)).Nonempty ↔ DenseBitset.zero.has i = true
        simp [LawfulVeb.keys_fresh, hbits]
      | false => rintro _ ⟨⟩
  summary := by
    refine ⟨iff_of_true rfl (Set.eq_empty_iff_forall_notMem.mpr fun i hi => ?_), by rintro _ ⟨⟩⟩
    simp [indices, active, VebNode.fresh] at hi

end Fresh

section Instance

variable [VebNode C c] [LawfulVeb C b] [Widths b w c] {lax : Prop} {key : BitVec w}

theorem Inv.keys_eq_empty_iff (h : t.Inv lax) : t.view.keys b = ∅ ↔ t.summary = none := by
  rw [(h.view_inv (Widths.fan w c)).keys_eq_empty_iff, h.summary.null]
  change LawfulVeb.keys (t.summary.getD VebNode.fresh) = ∅ ↔ _
  rw [h.summary.getD.2]

theorem Inv.successor_spec (h : t.Inv lax) (hk : key.toNat < 2 ^ (2 * b)) :
    (t.successor key).Returns fun r =>
      IsFirst (above (t.view.keys b) key.toNat) (r.map BitVec.toNat) := by
  have hv := h.view_inv (Widths.fan w c)
  have hd : 2 * b ≤ w := Widths.double c
  cases hs : t.summary with
  | none =>
    rw [successor, hs, if_pos Option.isNone_none, returns_pure, h.keys_eq_empty_iff.mpr hs]
    exact Set.sep_empty _
  | some s =>
    by_cases hmax : maxKey (2 * b) w ≤ key
    · rw [successor, hs, if_neg (by simp), if_pos hmax, returns_pure]
      refine Set.eq_empty_iff_forall_notMem.mpr ?_
      rintro k ⟨hk', hlt⟩
      have := hv.key_lt hk'
      rw [BitVec.le_def, toNat_maxKey hd (Widths.key b c)] at hmax
      omega
    · rw [successor_eq h hk hs hmax]
      refine hv.successor_spec hk ?_ (loPart_lt C key).1
      rw [toNat_index (hiPart_lt c hk) (LawfulVeb.bits_le C), toNat_hiPart (Widths.index w c) hk]

theorem Inv.predecessor_spec (h : t.Inv lax) (hk : key.toNat < 2 ^ (2 * b)) :
    (t.predecessor key).Returns fun r =>
      IsLast (below (t.view.keys b) key.toNat) (r.map BitVec.toNat) := by
  have hv := h.view_inv (Widths.fan w c)
  cases hs : t.summary with
  | none =>
    rw [predecessor, hs, if_pos Option.isNone_none, returns_pure, h.keys_eq_empty_iff.mpr hs]
    exact Set.sep_empty _
  | some s =>
    by_cases h0 : key = 0
    · rw [predecessor, hs, if_neg (by simp), if_pos (Or.inl h0), returns_pure, h0]
      refine Set.eq_empty_iff_forall_notMem.mpr ?_
      rintro k ⟨_, hlt⟩
      simp at hlt
    · rw [predecessor_eq h hk hs h0]
      refine hv.predecessor_spec hk ?_ (loPart_lt C key).1
      rw [toNat_index (hiPart_lt c hk) (LawfulVeb.bits_le C), toNat_hiPart (Widths.index w c) hk]

instance lawful : LawfulVeb (DenseBranch b w c inl C) (2 * b) where
  keys t := t.view.keys b
  Inv := DenseBranch.Inv
  bits_le := Widths.double c
  mono hl h := ⟨fun i => (h.slot i).mono hl, h.summary.mono hl⟩
  key_lt h := (h.view_inv (Widths.fan w c)).key_lt
  fresh_inv := fresh_inv
  keys_fresh := by
    have h : Inv True (VebNode.fresh : DenseBranch b w c inl C) := fresh_inv
    exact h.keys_eq_empty_iff.mpr rfl
  empty_spec h := by
    rw [h.keys_eq_empty_iff]
    exact Option.isNone_iff_eq_none
  insert_spec h hk := by
    refine (insert_replaces h hk).mono ?_
    rintro t' ⟨s, hr, hg⟩
    refine ⟨hr.inv (Widths.fan w c) h, ?_⟩
    rw [hg.keys (h.view_inv (Widths.fan w c)) (loPart_lt C _).2, toNat_key C hk]
  erase_spec h hk := by
    refine (erase_replaces h hk).mono ?_
    rintro t' ⟨s, hr, hs⟩
    refine ⟨hr.inv (Widths.fan w c) h, ?_⟩
    rw [hs.keys (h.view_inv (Widths.fan w c)) (loPart_lt C _).2, toNat_key C hk]
  contains_spec h hk := by
    change (contains _ _).Returns _
    rw [contains_eq h hk]
    exact (h.view_inv (Widths.fan w c)).contains_spec (loPart_lt C _).1
  min_spec h := by
    change (DenseBranch.min _).Returns _
    rw [min_eq h]
    exact (h.view_inv (Widths.fan w c)).min_spec
  max_spec h := by
    change (DenseBranch.max _).Returns _
    rw [max_eq h]
    exact (h.view_inv (Widths.fan w c)).max_spec
  successor_spec h hk := h.successor_spec hk
  predecessor_spec h hk := h.predecessor_spec hk

end Instance

end DenseBranch

end ParvEB
