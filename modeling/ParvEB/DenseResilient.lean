import ParvEB.Resilient

/-! The top of a dense tree through failed allocations. -/
namespace ParvEB.DenseBranch

open Outcome

variable {b w c : ℕ} {C : Type} [VebNode C c] [LawfulVeb C b]

/-- What one index may hold. A failed expansion leaves an empty child behind an inline value, and
that child outlives the value. -/
structure SlotSafe (b : ℕ) [LawfulVeb C b] (s : SlotState c C) : Prop where
  pointer : s.child.isSome = s.clusterBit
  child : ∀ x, s.child = some x → LawfulVeb.Inv False x
  value_lt : s.inlineBit = true → s.value.toNat < 2 ^ b
  hidden : s.inlineBit = true → ∀ x, s.child = some x → LawfulVeb.keys x = ∅

/-- The slots are safe, and the summary, which may miss an index, lists none without keys. -/
structure Safe (t : DenseBranch b w c false C) : Prop where
  slot : ∀ i, SlotSafe b (t.slotAt i)
  lists : ∀ o, t.summary = some o → LawfulVeb.Inv False o ∧
    ∀ j ∈ LawfulVeb.keys o, (t.view.keysAt j).Nonempty

section Slots

variable {s : SlotState c C}

/-- The low parts that a slot shows. -/
def SlotState.keys (s : SlotState c C) : Set ℕ := Cluster.keysOf s.cluster

theorem SlotState.keys_inline (h : s.inlineBit = true) : s.keys = {s.value.toNat} := by
  rw [keys, cluster_inline h, Cluster.keysOf_some, Cluster.keys]

theorem SlotState.keys_inactive (h : s.active = false) : s.keys = ∅ := by
  rw [keys, cluster_inactive h, Cluster.keysOf_none]

theorem SlotState.keys_child {x : C} (hil : s.inlineBit = false) (hc : s.clusterBit = true)
    (hx : s.child = some x) : s.keys = LawfulVeb.keys x := by
  rw [keys, cluster_child hil hc hx, Cluster.keysOf_some, Cluster.keys]

/-- Without its inline value a slot shows nothing more. -/
theorem SlotSafe.keys_reset (h : SlotSafe b s) (hil : s.inlineBit = true) :
    SlotState.keys { s with inlineBit := false } = ∅ := by
  by_cases hc : s.clusterBit = true
  · obtain ⟨x, hx⟩ := Option.isSome_iff_exists.mp (h.pointer.trans hc)
    rw [SlotState.keys_child (s := { s with inlineBit := false }) rfl hc hx]
    exact h.hidden hil x hx
  · exact SlotState.keys_inactive (by simpa [SlotState.active] using hc)

theorem SlotSafe.of_child {x : C} {v : BitVec c} (hx : LawfulVeb.Inv False x) :
    SlotSafe b ⟨false, true, v, some x⟩ :=
  ⟨rfl, by rintro _ ⟨⟩; exact hx, by rintro ⟨⟩, by rintro ⟨⟩⟩

end Slots

section Updates

variable {t t' : DenseBranch b w c false C} {i : Fin (2 ^ b)} {s : SlotState c C} {l : ℕ}

theorem keysAt_slot (t : DenseBranch b w c false C) (i : Fin (2 ^ b)) :
    t.view.keysAt i = (t.slotAt i).keys := by
  change Cluster.keysOf (t.cluster i) = _
  rw [cluster_of_lt i.isLt, SlotState.keys]

omit [VebNode C c] [LawfulVeb C b] in
theorem cluster_update_of_ne (h : t'.slotAt = Function.update t.slotAt i s) {j : ℕ} (hj : j ≠ i) :
    t'.cluster j = t.cluster j := by
  unfold cluster
  split
  · rw [h, Function.update_of_ne (fun he => hj (congrArg Fin.val he))]
  · rfl

theorem keysAt_update (h : t'.slotAt = Function.update t.slotAt i s) :
    t'.view.keysAt i = s.keys := by
  rw [keysAt_slot, h, Function.update_self]

theorem keys_grow (h : t'.slotAt = Function.update t.slotAt i s) (hl : l < 2 ^ b)
    (hkeys : s.keys = insert l (t.slotAt i).keys) :
    t'.view.keys b = insert (i.val * 2 ^ b + l) (t.view.keys b) := by
  refine View.keys_insert hl (fun j hj => cluster_update_of_ne h hj) ?_
  rw [keysAt_update h, hkeys, keysAt_slot]

theorem keys_shrink (h : t'.slotAt = Function.update t.slotAt i s) (hl : l < 2 ^ b)
    (hkeys : s.keys = (t.slotAt i).keys \ {l}) :
    t'.view.keys b = t.view.keys b \ {i.val * 2 ^ b + l} := by
  refine View.keys_erase hl (fun j hj => cluster_update_of_ne h hj) ?_
  rw [keysAt_update h, hkeys, keysAt_slot]

theorem keys_stay (h : t'.slotAt = Function.update t.slotAt i s)
    (hkeys : s.keys = (t.slotAt i).keys) : t'.view.keys b = t.view.keys b := by
  refine View.keys_congr fun j => ?_
  by_cases hj : j = i
  · rw [hj, keysAt_update h, hkeys, keysAt_slot]
  · change Cluster.keysOf (t'.cluster j) = Cluster.keysOf (t.cluster j)
    rw [cluster_update_of_ne h hj]

namespace Safe

/-- A slot changes, and the summary lists it only if it shows a key. -/
theorem update (h : t.Safe) (hslots : t'.slotAt = Function.update t.slotAt i s)
    (hs : SlotSafe b s) (hsum : ∀ o, t'.summary = some o → LawfulVeb.Inv False o ∧
      ∀ j ∈ LawfulVeb.keys o, if j = i then s.keys.Nonempty else (t.view.keysAt j).Nonempty) :
    t'.Safe where
  slot j := by
    rw [hslots]
    by_cases hj : j = i
    · rw [hj, Function.update_self]
      exact hs
    · rw [Function.update_of_ne hj]
      exact h.slot j
  lists o ho := by
    obtain ⟨hinv, hlists⟩ := hsum o ho
    refine ⟨hinv, fun j hj => ?_⟩
    have hne := hlists j hj
    split at hne
    next hji =>
      rw [hji, keysAt_update hslots]
      exact hne
    next hji =>
      change (Cluster.keysOf (t'.cluster j)).Nonempty
      rw [cluster_update_of_ne hslots hji]
      exact hne

/-- A slot changes that keeps showing a key if it did. -/
theorem update_slot (h : t.Safe) (hslots : t'.slotAt = Function.update t.slotAt i s)
    (hs : SlotSafe b s) (hsum : t'.summary = t.summary)
    (hne : (t.slotAt i).keys.Nonempty → s.keys.Nonempty) : t'.Safe := by
  refine h.update hslots hs fun o ho => ?_
  obtain ⟨hinv, hlists⟩ := h.lists o (hsum ▸ ho)
  refine ⟨hinv, fun j hj => ?_⟩
  have hold := hlists j hj
  split
  next hji =>
    rw [hji, keysAt_slot] at hold
    exact hne hold
  next => exact hold

/-- A summary without keys does no harm. -/
theorem freshSummary (h : t.Safe) :
    ({ t with summary := some VebNode.fresh } : DenseBranch b w c false C).Safe where
  slot := h.slot
  lists := by
    rintro _ ⟨⟩
    refine ⟨LawfulVeb.fresh_inv, fun j hj => ?_⟩
    rw [LawfulVeb.keys_fresh] at hj
    exact hj.elim

end Safe

end Updates

section Fresh

variable [Widths b w c]

theorem fresh_keys : (VebNode.fresh : DenseBranch b w c false C).view.keys b = ∅ := by
  have hinv : Inv False (VebNode.fresh : DenseBranch b w c false C) := fresh_inv
  exact hinv.keys_eq_empty_iff.mpr rfl

omit [Widths b w c] in
theorem fresh_safe : (VebNode.fresh : DenseBranch b w c false C).Safe := by
  have hinv : Inv False (VebNode.fresh : DenseBranch b w c false C) := fresh_inv
  refine ⟨fun i => ?_, by rintro _ ⟨⟩⟩
  have hslot := hinv.slot i
  refine ⟨hslot.pointer, fun x hx => (hslot.child x hx).1, hslot.value_lt, fun hil x hx => ?_⟩
  rw [hslot.null_of_inline hil] at hx
  cases hx

end Fresh

section Insertion

variable [AllocOnce C] [Widths b w c] {t t' : DenseBranch b w c false C} {i : Fin (2 ^ b)}
  {m : Mem} {idx : BitVec 32} {lo : BitVec c} {key : BitVec w}

omit [LawfulVeb C b] [AllocOnce C] [Widths b w c] in
theorem summary_within [LawfulVeb C b] [AllocOnce C] {o : C} {n : ℕ} (ho : LawfulVeb.Inv False o)
    (hidx : idx.toNat < 2 ^ b) (hn : n = 1 ∨ n = 0 ∧ (LawfulVeb.keys o).Nonempty) :
    ((VebNode.insert o (idx.setWidth c) m).within
        fun o => ({ t with summary := some o } : DenseBranch b w c false C)).Settles m n
      (fun t' => t' = { t with summary := some o }) fun t' => ∃ o', LawfulVeb.Inv False o' ∧
        LawfulVeb.keys o' = insert idx.toNat (LawfulVeb.keys o) ∧
        t' = { t with summary := some o' } := by
  have hw := toNat_index hidx (LawfulVeb.bits_le C)
  refine Settles.within ((AllocOnce.insert_settles ho (hw ▸ hidx) hn).mono le_rfl ?_ ?_)
  · rintro _ rfl
    rfl
  · rintro o' ⟨hinv, hkeys⟩
    exact ⟨o', hinv, by rw [hkeys, hw], rfl⟩

omit [Widths b w c] in
/-- An index joins the summary. A summary made for it stays when it cannot take it in. -/
theorem summaryInsert_settles (h : t.Safe) (hidx : idx.toNat < 2 ^ b) :
    (t.summaryInsert idx m).Settles m 2 (fun t' => t'.Safe ∧ t'.view.keys b = t.view.keys b)
      fun t' => ∃ o, t' = { t with summary := some o } ∧ LawfulVeb.Inv False o ∧
        ∀ j ∈ LawfulVeb.keys o, j = idx.toNat ∨ (t.view.keysAt j).Nonempty := by
  cases hs : t.summary with
  | none =>
    rw [summaryInsert_none hs]
    refine Settles.alloc ⟨h, rfl⟩ fun m₁ => (summary_within (t := t) LawfulVeb.fresh_inv hidx
      (Or.inl rfl)).mono le_rfl ?_ ?_
    · rintro _ rfl
      exact ⟨h.freshSummary, rfl⟩
    · rintro _ ⟨o, ho, hkeys, rfl⟩
      refine ⟨o, rfl, ho, fun j hj => Or.inl ?_⟩
      rw [hkeys, LawfulVeb.keys_fresh] at hj
      simpa using hj
  | some o =>
    obtain ⟨ho, hlists⟩ := h.lists o hs
    rw [summaryInsert_some hs]
    refine (summary_within (t := t) ho hidx (Or.inl rfl)).mono (by omega) ?_ ?_
    · rintro _ rfl
      rw [← hs]
      exact ⟨h, rfl⟩
    · rintro _ ⟨o', ho', hkeys, rfl⟩
      refine ⟨o', rfl, ho', fun j hj => ?_⟩
      rw [hkeys] at hj
      exact hj.imp_right (hlists j)

omit [AllocOnce C] in
/-- The child behind a slot is made when there is none. -/
theorem ensureCluster_settles (h : SlotSafe b (t.slotAt i)) (hidx : idx.toNat = i) :
    (t.ensureCluster idx m).Settles m 1 (fun t' => t' = t) fun t' => t'.summary = t.summary ∧
      t'.slotAt = Function.update t.slotAt i { t.slotAt i with
        clusterBit := true, child := some ((t.slotAt i).child.getD VebNode.fresh) } := by
  cases hx : (t.slotAt i).child with
  | some x =>
    rw [ensureCluster_some hidx hx]
    refine (settles_returned ⟨rfl, ?_⟩).mono (Nat.zero_le 1) (fun _ => id) fun _ => id
    have hbit : (t.slotAt i).clusterBit = true := by rw [← h.pointer, hx]; rfl
    rw [Option.getD_some, ← hx, ← hbit, Function.update_eq_self]
  | none =>
    obtain ⟨t₁, ht₁, hsum, hslots⟩ := ensureCluster_none hidx hx
    rw [ht₁]
    exact Settles.alloc (n := 0) (P := fun t' => t' = t) rfl fun _ =>
      settles_returned ⟨hsum, hslots⟩

omit [Widths b w c] in
theorem childInsert_settles {x : C} {k : BitVec c} {n : ℕ} (hx : (t.slotAt i).child = some x)
    (hinv : LawfulVeb.Inv False x) (hidx : idx.toNat = i) (hk : k.toNat < 2 ^ b)
    (hn : n = 1 ∨ n = 0 ∧ (LawfulVeb.keys x).Nonempty) :
    (t.childInsert idx k m).Settles m n (fun t' => t'.summary = t.summary ∧ t'.slotAt = t.slotAt)
      fun t' => ∃ y, LawfulVeb.Inv False y ∧
        LawfulVeb.keys y = insert k.toNat (LawfulVeb.keys x) ∧ t'.summary = t.summary ∧
        t'.slotAt = Function.update t.slotAt i { t.slotAt i with child := some y } := by
  rw [childInsert_eq hidx hx]
  refine Settles.within ((AllocOnce.insert_settles hinv hk hn).mono le_rfl ?_ ?_)
  · rintro _ rfl
    refine ⟨rfl, ?_⟩
    rw [slotAt_setChild, ← hx, Function.update_eq_self]
  · rintro y ⟨hy, hkeys⟩
    exact ⟨y, hy, hkeys, rfl, slotAt_setChild y⟩

theorem insert_absent_settles (h : t.Safe) (hidx : idx.toNat = i) (hlo : lo.toNat < 2 ^ b)
    (hact : t.active i = false) :
    ((t.summaryInsert idx m).andThen fun t m => do
      let mask ← t.inlineMask.set idx
      let values ← arraySet t.inlineValue idx.toNat lo
      pure (.returned { t with inlineMask := mask, inlineValue := values } m)).Settles m (2 + 0)
      (fun t' => t'.Safe ∧ t'.view.keys b = t.view.keys b)
      fun t' => t'.Safe ∧ t'.view.keys b = insert (i.val * 2 ^ b + lo.toNat) (t.view.keys b) := by
  have hlt : idx.toNat < 2 ^ b := hidx ▸ i.isLt
  have hi : (⟨idx.toNat, hlt⟩ : Fin (2 ^ b)) = i := Fin.ext hidx
  have hslot := h.slot i
  have hbits : (t.slotAt i).inlineBit = false ∧ (t.slotAt i).clusterBit = false :=
    Bool.or_eq_false_iff.mp hact
  have hnull : (t.slotAt i).child = none := by
    rw [← Option.isNone_iff_eq_none, ← Option.not_isSome, hslot.pointer, hbits.2]
    rfl
  refine (summaryInsert_settles h hlt).andThen ?_
  rintro _ m' ⟨o, rfl, ho, hlists⟩
  obtain ⟨mask, hmask, hhas⟩ :=
    DenseBitset.set_spec (t := t.inlineMask) (Widths.fan w c) hlt
  rw [hidx] at hhas
  rw [hmask, pure_bind, arraySet_of_lt hlt, pure_bind, hi]
  let t' : DenseBranch b w c false C := { t with
    summary := some o, inlineMask := mask, inlineValue := Function.update t.inlineValue i lo }
  have hslots : t'.slotAt =
      Function.update t.slotAt i { t.slotAt i with inlineBit := true, value := lo } := by
    have hvalue := slotAt_inlineValue (i := i)
      (t := ({ t with inlineMask := mask } : DenseBranch b w c false C)) lo
    rw [slotAt_inlineMask hhas, Function.update_self, Function.update_idem] at hvalue
    exact hvalue
  have hkeys : SlotState.keys { t.slotAt i with inlineBit := true, value := lo } =
      {lo.toNat} := SlotState.keys_inline rfl
  refine settles_returned ⟨h.update hslots ?_ ?_, keys_grow hslots hlo ?_⟩
  · exact ⟨hslot.pointer, hslot.child, fun _ => hlo, fun _ x hx => by rw [hnull] at hx; cases hx⟩
  · rintro _ ⟨⟩
    refine ⟨ho, fun j hj => ?_⟩
    split
    next => exact hkeys ▸ Set.singleton_nonempty _
    next hji => exact (hlists j hj).resolve_left (hidx ▸ hji)
  · rw [hkeys, SlotState.keys_inactive (s := t.slotAt i) hact, insert_empty_eq]

/-- The child has taken the inline value: it replaces it, and takes the new key. -/
theorem switch_settles {t₂ : DenseBranch b w c false C} {y : C} (h : t.Safe) (hidx : idx.toNat = i)
    (hlo : lo.toNat < 2 ^ b) (hy : LawfulVeb.Inv False y)
    (hykeys : LawfulVeb.keys y = {(t.inlineValue i).toNat})
    (hold : (t.slotAt i).keys = {(t.inlineValue i).toNat}) (hsum : t₂.summary = t.summary)
    (hslots : t₂.slotAt = Function.update t.slotAt i
      { t.slotAt i with clusterBit := true, child := some y }) :
    (do
      let mask ← t₂.inlineMask.reset idx
      DenseBranch.childInsert { t₂ with inlineMask := mask } idx lo m).Settles m 0
      (fun t' : DenseBranch b w c false C => t'.Safe ∧ t'.view.keys b = t.view.keys b)
      fun t' => t'.Safe ∧ t'.view.keys b = insert (i.val * 2 ^ b + lo.toNat) (t.view.keys b) := by
  have hlt : idx.toNat < 2 ^ b := hidx ▸ i.isLt
  obtain ⟨mask, hmask, hhas⟩ :=
    DenseBitset.reset_spec (t := t₂.inlineMask) (Widths.fan w c) hlt
  rw [hidx] at hhas
  rw [hmask, pure_bind]
  have hslots₃ := slotAt_inlineMask hhas
  rw [hslots, Function.update_self, Function.update_idem] at hslots₃
  have hy₃ : (({ t₂ with inlineMask := mask } : DenseBranch b w c false C).slotAt i).child =
      some y := by
    rw [hslots₃, Function.update_self]
  have hne : (LawfulVeb.keys y).Nonempty := hykeys ▸ Set.singleton_nonempty _
  refine (childInsert_settles hy₃ hy hidx hlo (Or.inr ⟨rfl, hne⟩)).mono le_rfl ?_ ?_
  · rintro t₄ ⟨hsum₄, hslots₄⟩
    have hslots := hslots₄.trans hslots₃
    have hkeys : SlotState.keys ⟨false, true, t.inlineValue i, some y⟩ = (t.slotAt i).keys := by
      rw [SlotState.keys_child rfl rfl rfl, hykeys, hold]
    exact ⟨h.update_slot hslots (.of_child hy) (hsum₄.trans hsum) (fun hne => hkeys ▸ hne),
      keys_stay hslots hkeys⟩
  · rintro t₄ ⟨z, hz, hzkeys, hsum₄, hslots₄⟩
    rw [hslots₃, Function.update_self, Function.update_idem] at hslots₄
    have hkeys : SlotState.keys ⟨false, true, t.inlineValue i, some z⟩ =
        insert lo.toNat (t.slotAt i).keys := by
      rw [SlotState.keys_child rfl rfl rfl, hzkeys, hykeys, hold]
    exact ⟨h.update_slot hslots₄ (.of_child hz) (hsum₄.trans hsum)
      (fun _ => hkeys ▸ Set.insert_nonempty _ _), keys_grow hslots₄ hlo hkeys⟩

/-- The inline value stays until the child has taken it. -/
theorem insert_expand_settles (h : t.Safe) (hidx : idx.toNat = i) (hlo : lo.toNat < 2 ^ b)
    (hil : t.inlineMask.has i = true) :
    ((t.ensureCluster idx m).andThen fun t₁ m =>
      (t₁.childInsert idx (t.inlineValue i) m).andThen fun t₂ m => do
        let mask ← t₂.inlineMask.reset idx
        DenseBranch.childInsert { t₂ with inlineMask := mask } idx lo m).Settles m (1 + (1 + 0))
      (fun t' => t'.Safe ∧ t'.view.keys b = t.view.keys b)
      fun t' => t'.Safe ∧ t'.view.keys b = insert (i.val * 2 ^ b + lo.toNat) (t.view.keys b) := by
  have hslot := h.slot i
  have hbit : (t.slotAt i).inlineBit = true := hil
  have hval : (t.inlineValue i).toNat < 2 ^ b := hslot.value_lt hbit
  have hold : (t.slotAt i).keys = {(t.inlineValue i).toNat} := SlotState.keys_inline hbit
  have hx : LawfulVeb.Inv False ((t.slotAt i).child.getD VebNode.fresh) ∧
      LawfulVeb.keys ((t.slotAt i).child.getD VebNode.fresh) = ∅ := by
    cases hc : (t.slotAt i).child with
    | none => exact ⟨LawfulVeb.fresh_inv, LawfulVeb.keys_fresh⟩
    | some x => exact ⟨hslot.child x hc, hslot.hidden hbit x hc⟩
  refine Settles.andThen ((ensureCluster_settles hslot hidx).mono le_rfl ?_ fun _ => id) ?_
  · rintro _ rfl
    exact ⟨h, rfl⟩
  rintro t₁ m₁ ⟨hsum₁, hslots₁⟩
  have hx₁ : (t₁.slotAt i).child = some ((t.slotAt i).child.getD VebNode.fresh) := by
    rw [hslots₁, Function.update_self]
  have hkeys₁ : SlotState.keys { t.slotAt i with
      clusterBit := true, child := some ((t.slotAt i).child.getD VebNode.fresh) } =
        {(t.inlineValue i).toNat} := SlotState.keys_inline hbit
  refine Settles.andThen ((childInsert_settles hx₁ hx.1 hidx hval (Or.inl rfl)).mono le_rfl ?_
    fun _ => id) ?_
  · rintro t₂ ⟨hsum₂, hslots₂⟩
    have hslots := hslots₂.trans hslots₁
    refine ⟨h.update_slot hslots ⟨rfl, ?_, hslot.value_lt, ?_⟩ (hsum₂.trans hsum₁) ?_,
      keys_stay hslots ?_⟩
    · rintro _ ⟨⟩
      exact hx.1
    · rintro _ _ ⟨⟩
      exact hx.2
    · rw [hkeys₁, hold]
      exact id
    · rw [hkeys₁, hold]
  rintro t₂ m₂ ⟨y, hy, hykeys, hsum₂, hslots₂⟩
  rw [hx.2, insert_empty_eq] at hykeys
  rw [hslots₁, Function.update_self, Function.update_idem] at hslots₂
  exact switch_settles h hidx hlo hy hykeys hold (hsum₂.trans hsum₁) hslots₂

omit [Widths b w c] in
theorem insert_child_settles (h : t.Safe) (hidx : idx.toNat = i) (hlo : lo.toNat < 2 ^ b)
    (hil : t.inlineMask.has i = false) (hact : t.active i = true) :
    ((t.ensureCluster idx m).andThen fun t m => t.childInsert idx lo m).Settles m (1 + 1)
      (fun t' => t'.Safe ∧ t'.view.keys b = t.view.keys b)
      fun t' => t'.Safe ∧ t'.view.keys b = insert (i.val * 2 ^ b + lo.toNat) (t.view.keys b) := by
  have hslot := h.slot i
  have hbit : (t.slotAt i).clusterBit = true := by
    simpa [active, slotAt, hil] using hact
  obtain ⟨x, hx⟩ := Option.isSome_iff_exists.mp (hslot.pointer.trans hbit)
  have hold : (t.slotAt i).keys = LawfulVeb.keys x := SlotState.keys_child hil hbit hx
  rw [ensureCluster_some hidx hx, returned_andThen]
  refine (childInsert_settles hx (hslot.child x hx) hidx hlo (Or.inl rfl)).mono (by omega) ?_ ?_
  · rintro t' ⟨hsum, hslots⟩
    have hself : t'.slotAt = Function.update t.slotAt i (t.slotAt i) := by
      rw [hslots, Function.update_eq_self]
    exact ⟨h.update_slot hself hslot hsum id, keys_stay hself rfl⟩
  · rintro t' ⟨y, hy, hykeys, hsum, hslots⟩
    have hkeys : SlotState.keys { t.slotAt i with child := some y } =
        insert lo.toNat (t.slotAt i).keys := by
      rw [SlotState.keys_child (s := { t.slotAt i with child := some y }) hil hbit rfl, hykeys,
        hold]
    refine ⟨h.update_slot hslots ⟨hbit.symm, ?_, hslot.value_lt, ?_⟩ hsum
      (fun _ => hkeys ▸ Set.insert_nonempty _ _), keys_grow hslots hlo hkeys⟩
    · rintro _ ⟨⟩
      exact hy
    · intro hil'
      rw [show (t.slotAt i).inlineBit = false from hil] at hil'
      cases hil'

/-- A key of the universe from its index and its low part. -/
theorem index_key (C : Type) [VebNode C c] [LawfulVeb C b] (hk : key.toNat < 2 ^ (2 * b)) :
    (indexOf c key hk).val * 2 ^ b + (loPart b key : BitVec c).toNat = key.toNat := by
  rw [← toNat_key C hk, toNat_index (hiPart_lt c hk) (LawfulVeb.bits_le C)]
  rfl

theorem insert_settles (h : t.Safe) (hk : key.toNat < 2 ^ (2 * b)) :
    (t.insert key m).Settles m 2 (fun t' => t'.Safe ∧ t'.view.keys b = t.view.keys b)
      fun t' => t'.Safe ∧ t'.view.keys b = insert key.toNat (t.view.keys b) := by
  have hi : (hiPart b key).toNat = indexOf c key hk := rfl
  have hlo := (loPart_lt C key).2
  rw [← index_key C hk]
  cases hact : t.active (indexOf c key hk) with
  | false =>
    rw [insert_of_absent hk hact]
    exact insert_absent_settles h hi hlo hact
  | true =>
    cases hil : t.inlineMask.has (indexOf c key hk) with
    | false =>
      rw [insert_of_child hk hact hil]
      exact insert_child_settles h hi hlo hil hact
    | true =>
      rw [insert_of_inline hk hil]
      split
      next hv =>
        refine (settles_returned ⟨h, ?_⟩).mono (Nat.zero_le 2) (fun _ => id) fun _ => id
        refine (Set.insert_eq_of_mem ?_).symm
        refine ⟨.inline (loPart b key), ?_, ?_⟩
        · rw [split_div hlo, view_cluster, cluster_inline (indexOf c key hk).isLt hil]
          exact congrArg (some ∘ Cluster.inline) hv
        · rw [split_mod hlo]
          rfl
      next => exact insert_expand_settles h hi hlo hil

end Insertion

section Erasure

variable [Widths b w c] {t t' : DenseBranch b w c false C} {i : Fin (2 ^ b)} {s : SlotState c C}
  {idx : BitVec 32} {lo : BitVec c} {key : BitVec w}

omit [Widths b w c] in
/-- A slot that shows nothing any more leaves the summary, if it was there. -/
theorem summaryErase_safe (h : t.Safe) (hidx : idx.toNat = i) (hlo : lo.toNat < 2 ^ b)
    (hslots : t'.slotAt = Function.update t.slotAt i s) (hs : SlotSafe b s)
    (hsum : t'.summary = t.summary) (hempty : s.keys = ∅)
    (hold : (t.slotAt i).keys ⊆ {lo.toNat}) :
    (t'.summaryErase idx).Returns fun t'' => t''.Safe ∧
      t''.view.keys b = t.view.keys b \ {i.val * 2 ^ b + lo.toNat} := by
  have hlt : idx.toNat < 2 ^ b := hidx ▸ i.isLt
  have hkeys : s.keys = (t.slotAt i).keys \ {lo.toNat} := by
    rw [hempty, Set.sdiff_eq_empty.mpr hold]
  have hw := toNat_index hlt (LawfulVeb.bits_le C)
  unfold summaryErase
  cases ho : t'.summary with
  | none =>
    refine returns_pure.mpr ⟨h.update hslots hs fun o ho' => ?_, keys_shrink hslots hlo hkeys⟩
    rw [ho] at ho'
    cases ho'
  | some o =>
    obtain ⟨hinv, hlists⟩ := h.lists o (hsum ▸ ho)
    refine (LawfulVeb.erase_spec hinv (hw ▸ hlt)).bind ?_
    rintro o' ⟨hinv', hokeys⟩
    refine returns_pure.mpr ⟨?_, keys_shrink hslots hlo hkeys⟩
    have hupdate := h.update (show DenseBranch.slotAt
      { t' with summary := if VebNode.empty o' then none else some o' } = _ from hslots) hs
    refine hupdate fun o'' ho'' => ?_
    obtain rfl : o' = o'' := by
      dsimp only at ho''
      split at ho''
      · cases ho''
      · exact Option.some_inj.mp ho''
    refine ⟨hinv', fun j hj => ?_⟩
    rw [hokeys, hw, hidx] at hj
    rw [if_neg (show ¬ j = i.val from hj.2)]
    exact hlists j hj.1

/-- A child that an erasure empties goes. -/
theorem childErase_safe (h : t.Safe) (hidx : idx.toNat = i) (hlo : lo.toNat < 2 ^ b)
    (hil : (t.slotAt i).inlineBit = false) (hbit : (t.slotAt i).clusterBit = true) {x : C}
    (hx : (t.slotAt i).child = some x) :
    (t.childErase idx x lo).Returns fun t' => t'.Safe ∧
      t'.view.keys b = t.view.keys b \ {i.val * 2 ^ b + lo.toNat} := by
  have hlt : idx.toNat < 2 ^ b := hidx ▸ i.isLt
  have hi : (⟨idx.toNat, hlt⟩ : Fin (2 ^ b)) = i := Fin.ext hidx
  have hslot := h.slot i
  have hold : (t.slotAt i).keys = LawfulVeb.keys x := SlotState.keys_child hil hbit hx
  unfold childErase
  refine (LawfulVeb.erase_spec (hslot.child x hx) hlo).bind ?_
  rintro y ⟨hy, hykeys⟩
  rw [arraySet_of_lt hlt, arraySet_of_lt hlt, pure_bind, pure_bind, hi]
  split
  next he =>
    have hempty := (LawfulVeb.empty_spec hy).mp he
    rw [hykeys, Set.sdiff_eq_empty, ← hold] at hempty
    obtain ⟨mask, hmask, hhas⟩ :=
      DenseBitset.reset_spec (t := t.clusterMask) (Widths.fan w c) hlt
    rw [hidx] at hhas
    rw [hmask, pure_bind]
    let t₁ : DenseBranch b w c false C :=
      { t with clusters := Function.update t.clusters i (.drop y false) }
    have hslots₁ := slotAt_clusters (t := t) (i := i) (.drop y false)
    have hslots : ({ t₁ with clusterMask := mask } : DenseBranch b w c false C).slotAt = _ :=
      slotAt_clusterMask hhas
    rw [hslots₁, Function.update_self, Function.update_idem, Slot.get_drop, if_neg (by simp)]
      at hslots
    refine summaryErase_safe h hidx hlo hslots ⟨rfl, by rintro _ ⟨⟩, hslot.value_lt, by
      rintro _ _ ⟨⟩⟩ rfl (SlotState.keys_inactive ?_) hempty
    simp [SlotState.active, hil]
  next he =>
    have hslots := slotAt_setChild (t := t) (i := i) y
    have hkeys : SlotState.keys { t.slotAt i with child := some y } =
        (t.slotAt i).keys \ {lo.toNat} := by
      rw [SlotState.keys_child (s := { t.slotAt i with child := some y }) hil hbit rfl, hykeys,
        hold]
    refine returns_pure.mpr ⟨h.update_slot hslots ⟨hbit.symm, ?_, hslot.value_lt, ?_⟩ rfl
      fun _ => ?_, keys_shrink hslots hlo hkeys⟩
    · rintro _ ⟨⟩
      exact hy
    · intro hil'
      rw [show (t.slotAt i).inlineBit = true from hil'] at hil
      cases hil
    · rw [LawfulVeb.empty_spec hy, hykeys, ← hold] at he
      rw [hkeys]
      exact Set.nonempty_iff_ne_empty.mpr he

theorem erase_safe (h : t.Safe) (hk : key.toNat < 2 ^ (2 * b)) :
    (t.erase key).Returns fun t' => t'.Safe ∧
      t'.view.keys b = t.view.keys b \ {key.toNat} := by
  have hidx := hiPart_lt c hk
  have hi : (hiPart b key).toNat = indexOf c key hk := rfl
  have hlo := (loPart_lt C key).2
  have hslot := h.slot (indexOf c key hk)
  have hself := (Function.update_eq_self (indexOf c key hk) t.slotAt).symm
  rw [← index_key C hk]
  cases hil : t.inlineMask.has (indexOf c key hk) with
  | true =>
    have hbit : (t.slotAt (indexOf c key hk)).inlineBit = true := hil
    have hold := SlotState.keys_inline hbit
    rw [erase_of_inline hk hil]
    split
    next hv =>
      refine returns_pure.mpr ⟨h, keys_shrink hself hlo ?_⟩
      rw [hold, Set.sdiff_singleton_eq_self]
      exact fun hm => hv (BitVec.eq_of_toNat_eq hm.symm)
    next hv =>
      obtain ⟨mask, hmask, hhas⟩ :=
        DenseBitset.reset_spec (t := t.inlineMask) (Widths.fan w c) hidx
      rw [hmask, pure_bind]
      refine summaryErase_safe h hi hlo (slotAt_inlineMask (i := indexOf c key hk) hhas)
        ⟨hslot.pointer, hslot.child, by rintro ⟨⟩, by rintro ⟨⟩⟩ rfl (hslot.keys_reset hbit) ?_
      rw [hold]
      exact Set.singleton_subset_iff.mpr (congrArg BitVec.toNat (not_not.mp hv))
  | false =>
    cases hact : t.active (indexOf c key hk) with
    | false =>
      rw [erase_of_absent hk hact]
      refine returns_pure.mpr ⟨h, keys_shrink hself hlo ?_⟩
      rw [SlotState.keys_inactive (s := t.slotAt (indexOf c key hk)) hact, Set.empty_sdiff]
    | true =>
      have hbit : (t.slotAt (indexOf c key hk)).clusterBit = true := by
        simpa [active, slotAt, hil] using hact
      obtain ⟨x, hx⟩ := Option.isSome_iff_exists.mp (hslot.pointer.trans hbit)
      rw [erase_of_child hk (SlotState.cluster_child hil hbit hx)]
      exact childErase_safe h hi hlo hil hbit hx

end Erasure

end ParvEB.DenseBranch
