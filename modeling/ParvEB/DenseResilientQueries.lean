import ParvEB.DenseResilient

/-! What the top of a dense tree answers after failed allocations. -/
namespace ParvEB.DenseBranch

open Outcome

variable {b w c : ℕ} {C : Type} [VebNode C c] [LawfulVeb C b]

section Queries

variable [Widths b w c] {t : DenseBranch b w c false C} {i : Fin (2 ^ b)} {s : SlotState c C}
  {idx : BitVec 32} {lo : BitVec c} {key : BitVec w}

theorem SlotSafe.key_lt (h : SlotSafe b s) {l : ℕ} (hl : l ∈ s.keys) : l < 2 ^ b := by
  obtain ⟨cl, hcl, hl⟩ := hl
  cases cl with
  | inline v =>
    obtain ⟨hil, rfl⟩ := SlotState.cluster_eq_inline hcl
    rw [Set.mem_singleton_iff.mp hl]
    exact h.value_lt hil
  | child x => exact LawfulVeb.key_lt (h.child x (SlotState.cluster_eq_child hcl).2.2) hl

omit [Widths b w c] in
theorem mem_view_keys {l : ℕ} (hl : l < 2 ^ b) :
    i.val * 2 ^ b + l ∈ t.view.keys b ↔ l ∈ (t.slotAt i).keys := by
  rw [View.mem_keys_iff, split_div hl, split_mod hl, keysAt_slot]

omit [VebNode C c] [LawfulVeb C b] [Widths b w c] in
/-- A pointer is followed whether or not the mask has its bit. -/
theorem clusterPtr_slot (hidx : idx.toNat = i) :
    t.clusterPtr idx = pure (t.slotAt i).child := by
  have hlt : idx.toNat < 2 ^ b := hidx ▸ i.isLt
  have hi : (⟨idx.toNat, hlt⟩ : Fin (2 ^ b)) = i := Fin.ext hidx
  rw [clusterPtr, if_neg (by simp), arrayGet_of_lt hlt, pure_bind, hi]
  rfl

/-- What is read at an index that shows `l` there is a key of the branch. -/
theorem Safe.combine_mem (h : t.Safe) (hidx : idx.toNat = i) {l : BitVec c}
    (hl : l.toNat ∈ (t.slotAt i).keys) :
    (combine b w idx l).toNat ∈ t.view.keys b ∧ (combine b w idx l).toNat / 2 ^ b = i ∧
      (combine b w idx l).toNat % 2 ^ b = l.toNat := by
  have hlt := (h.slot i).key_lt hl
  rw [toNat_combine (Widths.double c) (hidx ▸ i.isLt) hlt, hidx]
  exact ⟨(mem_view_keys hlt).mpr hl, split_div hlt, split_mod hlt⟩

theorem Safe.contains_safe (h : t.Safe) (hk : key.toNat < 2 ^ (2 * b)) :
    (t.contains key).Returns fun r => r = true ↔ key.toNat ∈ t.view.keys b := by
  have hidx := hiPart_lt c hk
  have hi : (hiPart b key).toNat = indexOf c key hk := rfl
  have hlo := (loPart_lt C key).2
  have hslot := h.slot (indexOf c key hk)
  rw [← index_key C hk, mem_view_keys hlo]
  unfold contains
  rw [if_neg (not_maxKey_lt c hk)]
  dsimp only
  rw [DenseBitset.test_eq (Widths.fan w c) hidx, pure_bind, arrayGet_of_lt hidx, pure_bind,
    clusterPtr_slot hi, pure_bind]
  cases hil : t.inlineMask.has (hiPart b key).toNat with
  | true =>
    rw [if_pos rfl, SlotState.keys_inline (s := t.slotAt (indexOf c key hk)) hil]
    refine returns_pure.mpr ?_
    rw [beq_iff_eq, Set.mem_singleton_iff, BitVec.toNat_inj, eq_comm]
    rfl
  | false =>
    rw [if_neg (by simp)]
    cases hx : (t.slotAt (indexOf c key hk)).child with
    | none =>
      have hbit := hslot.pointer
      rw [hx] at hbit
      rw [SlotState.keys_inactive (Bool.or_eq_false_iff.mpr ⟨hil, hbit.symm⟩)]
      exact returns_pure.mpr (by simp)
    | some x =>
      have hbit := hslot.pointer
      rw [hx] at hbit
      rw [SlotState.keys_child hil hbit.symm hx]
      exact LawfulVeb.contains_spec (hslot.child x hx) hlo

/-- The common tail of `min`, `max`, `successor` and `predecessor` at an index that shows a key:
whatever a null child leads to is not reached. -/
theorem Safe.tail_defined (h : t.Safe) (hidx : idx.toNat = i)
    (hne : (t.slotAt i).keys.Nonempty) {f : C → Outcome (Option (BitVec c))}
    (hf : ∀ x, LawfulVeb.Inv False x → (f x).Defined fun r => ∀ v, r = some v →
      v.toNat ∈ LawfulVeb.keys x) (e : Outcome (Option (BitVec w))) :
    (do
      if ← t.inlineMask.test idx then
        let value ← arrayGet t.inlineValue idx.toNat
        pure (some (combine b w idx value))
      else
        match ← t.clusterPtr idx with
        | none => e
        | some child =>
          match ← f child with
          | none => .fallback none
          | some lo => pure (some (combine b w idx lo))).Defined fun r => ∀ k, r = some k →
      k.toNat ∈ t.view.keys b ∧ k.toNat / 2 ^ b = i := by
  have hlt : idx.toNat < 2 ^ b := hidx ▸ i.isLt
  have hi : (⟨idx.toNat, hlt⟩ : Fin (2 ^ b)) = i := Fin.ext hidx
  have hslot := h.slot i
  have hmem : ∀ l : BitVec c, l.toNat ∈ (t.slotAt i).keys → ∀ k, some (combine b w idx l) = some k →
      k.toNat ∈ t.view.keys b ∧ k.toNat / 2 ^ b = i := by
    rintro l hl _ ⟨⟩
    obtain ⟨hmem, hdiv, _⟩ := h.combine_mem (w := w) hidx hl
    exact ⟨hmem, hdiv⟩
  rw [DenseBitset.test_eq (Widths.fan w c) hlt, pure_bind, arrayGet_of_lt hlt, pure_bind,
    clusterPtr_slot hidx, pure_bind, hi, hidx]
  cases hil : t.inlineMask.has i with
  | true =>
    rw [if_pos rfl]
    refine (returns_pure.mpr (hmem _ ?_)).defined
    rw [SlotState.keys_inline (s := t.slotAt i) hil]
    rfl
  | false =>
    rw [if_neg (by simp)]
    cases hx : (t.slotAt i).child with
    | none =>
      have hbit := hslot.pointer
      rw [hx] at hbit
      rw [SlotState.keys_inactive (Bool.or_eq_false_iff.mpr ⟨hil, hbit.symm⟩)] at hne
      exact absurd hne Set.not_nonempty_empty
    | some x =>
      have hbit := hslot.pointer
      rw [hx] at hbit
      refine (hf x (hslot.child x hx)).bind fun r hr => ?_
      cases r with
      | none => exact defined_fallback (by rintro _ ⟨⟩)
      | some l =>
        refine (returns_pure.mpr (hmem l ?_)).defined
        rw [SlotState.keys_child hil hbit.symm hx]
        exact hr l rfl

omit [Widths b w c] in
theorem child_min {x : C} (hx : LawfulVeb.Inv False x) :
    (VebNode.min x).Defined fun r => ∀ v, r = some v → v.toNat ∈ LawfulVeb.keys x := by
  refine (LawfulVeb.min_spec hx).defined.mono ?_
  rintro _ hr v rfl
  exact hr.1

omit [Widths b w c] in
theorem child_max {x : C} (hx : LawfulVeb.Inv False x) :
    (VebNode.max x).Defined fun r => ∀ v, r = some v → v.toNat ∈ LawfulVeb.keys x := by
  refine (LawfulVeb.max_spec hx).defined.mono ?_
  rintro _ hr v rfl
  exact hr.1

/-- An index that the summary lists is one of a slot that shows a key. -/
theorem Safe.listed (h : t.Safe) {o : C} (ho : t.summary = some o) {hi : BitVec c}
    (hmem : hi.toNat ∈ LawfulVeb.keys o) :
    ∃ i : Fin (2 ^ b), (hi.setWidth 32).toNat = i ∧ i = hi.toNat ∧ (t.slotAt i).keys.Nonempty := by
  obtain ⟨hinv, hlists⟩ := h.lists o ho
  have hlt := LawfulVeb.key_lt hinv hmem
  refine ⟨⟨hi.toNat, hlt⟩, toNat_setWidth_of_le (Widths.child b w), rfl, ?_⟩
  rw [← keysAt_slot]
  exact hlists _ hmem

/-- The common shape of `min` and `max`: an end of the slot that an end of the summary names. -/
theorem Safe.ends_safe (h : t.Safe) {q f : C → Outcome (Option (BitVec c))}
    (hq : ∀ x, LawfulVeb.Inv False x → (q x).Defined fun r => ∀ v, r = some v →
      v.toNat ∈ LawfulVeb.keys x)
    (hf : ∀ x, LawfulVeb.Inv False x → (f x).Defined fun r => ∀ v, r = some v →
      v.toNat ∈ LawfulVeb.keys x) :
    (match t.summary with
      | none => pure none
      | some s => do
        match ← q s with
        | none => .fallback none
        | some hi =>
          let idx := hi.setWidth 32
          if ← t.inlineMask.test idx then
            let value ← arrayGet t.inlineValue idx.toNat
            pure (some (combine b w idx value))
          else
            match ← t.clusterPtr idx with
            | none => .fallback none
            | some child =>
              match ← f child with
              | none => .fallback none
              | some lo => pure (some (combine b w idx lo)) : Outcome (Option (BitVec w))).Defined
      fun r => ∀ k, r = some k → k.toNat ∈ t.view.keys b := by
  cases ho : t.summary with
  | none => exact (returns_pure.mpr (by rintro _ ⟨⟩)).defined
  | some o =>
    refine (hq o (h.lists o ho).1).bind fun r hr => ?_
    cases r with
    | none => exact defined_fallback (by rintro _ ⟨⟩)
    | some hi =>
      obtain ⟨i, hidx, _, hne⟩ := h.listed ho (hr hi rfl)
      exact (h.tail_defined hidx hne hf _).mono fun r hr k hk => (hr k hk).1

theorem Safe.min_safe (h : t.Safe) :
    t.min.Defined fun r => ∀ k, r = some k → k.toNat ∈ t.view.keys b :=
  h.ends_safe (fun _ => child_min) (fun _ => child_min)

theorem Safe.max_safe (h : t.Safe) :
    t.max.Defined fun r => ∀ k, r = some k → k.toNat ∈ t.view.keys b :=
  h.ends_safe (fun _ => child_max) (fun _ => child_max)

/-- What the key's own slot answers, when a child answers with keys of its own that meet `p`. -/
theorem Safe.own_defined (h : t.Safe) (hidx : idx.toNat = i) {p : BitVec c → Prop}
    [DecidablePred p] {f : C → Outcome (Option (BitVec c))}
    (hf : ∀ x, LawfulVeb.Inv False x → (f x).Defined fun r => ∀ v, r = some v →
      v.toNat ∈ LawfulVeb.keys x ∧ p v) :
    (do
      if ← t.clusterActive idx then
        if ← t.inlineMask.test idx then
          let value ← arrayGet t.inlineValue idx.toNat
          pure (if p value then some value else none)
        else
          match ← t.clusterPtr idx with
          | none => pure none
          | some child => f child
      else pure none).Defined fun r => ∀ v, r = some v → v.toNat ∈ (t.slotAt i).keys ∧ p v := by
  have hlt : idx.toNat < 2 ^ b := hidx ▸ i.isLt
  have hi : (⟨idx.toNat, hlt⟩ : Fin (2 ^ b)) = i := Fin.ext hidx
  have hslot := h.slot i
  rw [clusterActive_eq (w := w) (c := c) hlt, pure_bind,
    DenseBitset.test_eq (Widths.fan w c) hlt, pure_bind, arrayGet_of_lt hlt, pure_bind,
    clusterPtr_slot hidx, pure_bind, hi, hidx]
  split
  next =>
    cases hil : t.inlineMask.has i with
    | true =>
      rw [if_pos rfl, SlotState.keys_inline (s := t.slotAt i) hil]
      refine (returns_pure.mpr fun v hv => ?_).defined
      split at hv
      next hp =>
        cases hv
        exact ⟨rfl, hp⟩
      next => cases hv
    | false =>
      rw [if_neg (by simp)]
      cases hx : (t.slotAt i).child with
      | none => exact (returns_pure.mpr (by rintro _ ⟨⟩)).defined
      | some x =>
        have hbit := hslot.pointer
        rw [hx] at hbit
        rw [SlotState.keys_child hil hbit.symm hx]
        exact hf x (hslot.child x hx)
  next => exact (returns_pure.mpr (by rintro _ ⟨⟩)).defined

theorem Safe.clusterSuccessor_safe (h : t.Safe) (hidx : idx.toNat = i) (hlo : lo.toNat < 2 ^ b) :
    (t.clusterSuccessor idx lo).Defined fun r =>
      ∀ v, r = some v → v.toNat ∈ above (t.slotAt i).keys lo.toNat := by
  refine h.own_defined hidx (p := (lo < ·)) fun x hx => ?_
  refine (LawfulVeb.successor_spec hx hlo).defined.mono ?_
  rintro _ hr v rfl
  exact hr.1

theorem Safe.clusterPredecessor_safe (h : t.Safe) (hidx : idx.toNat = i) (hlo : lo.toNat < 2 ^ b) :
    (t.clusterPredecessor idx lo).Defined fun r =>
      ∀ v, r = some v → v.toNat ∈ below (t.slotAt i).keys lo.toNat := by
  refine h.own_defined hidx (p := (· < lo)) fun x hx => ?_
  refine (LawfulVeb.predecessor_spec hx hlo).defined.mono ?_
  rintro _ hr v rfl
  exact hr.1

/-- The common shape of `successor` and `predecessor`: the key's own slot, and if that has no
answer, an end of the slot that the summary names. -/
theorem Safe.either_defined (h : t.Safe) {o : C} (ho : t.summary = some o)
    (hidx : idx.toNat = i) {P : ℕ → Prop} {own other : Outcome (Option (BitVec c))}
    {f : C → Outcome (Option (BitVec c))}
    (hown : own.Defined fun r => ∀ l, r = some l → l.toNat ∈ (t.slotAt i).keys ∧
      ∀ k : ℕ, k / 2 ^ b = i → k % 2 ^ b = l.toNat → P k)
    (hother : other.Returns fun r => ∀ j, r = some j → j.toNat ∈ LawfulVeb.keys o ∧
      ∀ k, k / 2 ^ b = j.toNat → P k)
    (hf : ∀ x, LawfulVeb.Inv False x → (f x).Defined fun r => ∀ v, r = some v →
      v.toNat ∈ LawfulVeb.keys x) (e : Outcome (Option (BitVec w))) :
    (do
      match ← own with
      | some l => pure (some (combine b w idx l))
      | none =>
        match ← (do
          let j ← other
          pure (j.map (BitVec.setWidth 32))) with
        | none => pure none
        | some idx =>
          if ← t.inlineMask.test idx then
            let value ← arrayGet t.inlineValue idx.toNat
            pure (some (combine b w idx value))
          else
            match ← t.clusterPtr idx with
            | none => e
            | some child =>
              match ← f child with
              | none => .fallback none
              | some lo => pure (some (combine b w idx lo))).Defined fun r => ∀ k, r = some k →
      k.toNat ∈ t.view.keys b ∧ P k.toNat := by
  refine hown.bind fun found hfound => ?_
  cases found with
  | some l =>
    refine (returns_pure.mpr ?_).defined
    rintro _ ⟨⟩
    obtain ⟨hmem, hP⟩ := hfound l rfl
    obtain ⟨hshown, hdiv, hmod⟩ := h.combine_mem (w := w) hidx hmem
    exact ⟨hshown, hP _ hdiv hmod⟩
  | none =>
    dsimp only
    rw [bind_assoc]
    refine hother.defined.bind fun r hr => ?_
    rw [pure_bind]
    cases r with
    | none => exact (returns_pure.mpr (by rintro _ ⟨⟩)).defined
    | some j =>
      obtain ⟨hmem, hP⟩ := hr j rfl
      obtain ⟨i', hidx', hnat, hne⟩ := h.listed ho hmem
      refine (h.tail_defined hidx' hne hf e).mono fun r' hr' k hk => ?_
      obtain ⟨hshown, hdiv⟩ := hr' k hk
      exact ⟨hshown, hP _ (hdiv.trans hnat)⟩

theorem Safe.successor_safe (h : t.Safe) (hk : key.toNat < 2 ^ (2 * b)) :
    (t.successor key).Defined fun r =>
      ∀ k, r = some k → k.toNat ∈ above (t.view.keys b) key.toNat := by
  have hi : (hiPart b key).toNat = indexOf c key hk := rfl
  have hdiv := toNat_hiPart (Widths.index w c) hk
  have hw := toNat_index (hiPart_lt c hk) (LawfulVeb.bits_le C)
  have hsplit := orderSplit_divMod (pow_pos_two b)
  unfold successor summarySuccessor
  cases ho : t.summary with
  | none => exact (returns_pure.mpr (by rintro _ ⟨⟩)).defined
  | some o =>
    rw [if_neg (by simp)]
    split
    next => exact (returns_pure.mpr (by rintro _ ⟨⟩)).defined
    next =>
      refine h.either_defined ho hi (P := (key.toNat < ·))
        ((h.clusterSuccessor_safe hi (loPart_lt C key).2).mono ?_)
        ((LawfulVeb.successor_spec (h.lists o ho).1 (hw ▸ hiPart_lt c hk)).mono ?_)
        (fun _ => child_min) _
      · intro r hr l hl
        obtain ⟨hmem, habove⟩ := hr l hl
        refine ⟨hmem, fun k hkdiv hkmod => (hsplit.lt_iff _ _).mpr (Or.inr ⟨?_, ?_⟩)⟩
        · rw [hkdiv, ← hi, hdiv]
        · rwa [hkmod, ← (loPart_lt C key).1]
      · rintro _ hr j rfl
        refine ⟨hr.1.1, fun k hkdiv => (hsplit.lt_iff _ _).mpr (Or.inl ?_)⟩
        rw [hkdiv, ← hdiv, ← hw]
        exact hr.1.2

theorem Safe.predecessor_safe (h : t.Safe) (hk : key.toNat < 2 ^ (2 * b)) :
    (t.predecessor key).Defined fun r =>
      ∀ k, r = some k → k.toNat ∈ below (t.view.keys b) key.toNat := by
  have hi : (hiPart b key).toNat = indexOf c key hk := rfl
  have hdiv := toNat_hiPart (Widths.index w c) hk
  have hw := toNat_index (hiPart_lt c hk) (LawfulVeb.bits_le C)
  have hsplit := orderSplit_divMod (pow_pos_two b)
  unfold predecessor summaryPredecessor
  cases ho : t.summary with
  | none => exact (returns_pure.mpr (by rintro _ ⟨⟩)).defined
  | some o =>
    rw [if_neg (by simp)]
    split
    next => exact (returns_pure.mpr (by rintro _ ⟨⟩)).defined
    next =>
      refine h.either_defined ho hi (P := (· < key.toNat))
        ((h.clusterPredecessor_safe hi (loPart_lt C key).2).mono ?_)
        ((LawfulVeb.predecessor_spec (h.lists o ho).1 (hw ▸ hiPart_lt c hk)).mono ?_)
        (fun _ => child_max) _
      · intro r hr l hl
        obtain ⟨hmem, hbelow⟩ := hr l hl
        refine ⟨hmem, fun k hkdiv hkmod => (hsplit.lt_iff _ _).mpr (Or.inr ⟨?_, ?_⟩)⟩
        · rw [hkdiv, ← hi, hdiv]
        · rwa [hkmod, ← (loPart_lt C key).1]
      · rintro _ hr j rfl
        refine ⟨hr.1.1, fun k hkdiv => (hsplit.lt_iff _ _).mpr (Or.inl ?_)⟩
        rw [hkdiv, ← hdiv, ← hw]
        exact hr.1.2

end Queries

section Traversal

variable [Widths b w c] [LawfulTraversal C] [KeyWidths C] [Truncating C]
  {t : DenseBranch b w c false C}

omit [LawfulTraversal C] [KeyWidths C] [Truncating C] in
theorem Safe.visit_view (h : t.Safe) {idx : BitVec c} (hidx : idx.toNat < 2 ^ b)
    (pfx : BitVec w) : t.visit pfx idx = t.view.visit b w pfx idx := by
  have hn : (idx.setWidth 32).toNat = idx.toNat := toNat_setWidth_of_le (Widths.child b w)
  have hlt : (idx.setWidth 32).toNat < 2 ^ b := hn ▸ hidx
  have hptr := (h.slot ⟨idx.toNat, hidx⟩).pointer
  have hwide : (idx.setWidth 32).setWidth w = idx.setWidth w := by
    apply BitVec.eq_of_toNat_eq
    exact (BitVec.toNat_setWidth ..).trans (by rw [hn, BitVec.toNat_setWidth])
  unfold visit View.visit
  dsimp only
  rw [hwide, view_cluster, DenseBitset.test_eq (Widths.fan w c) hlt, pure_bind,
    arrayGet_of_lt hlt, pure_bind, clusterPtr_slot (i := ⟨idx.toNat, hidx⟩) hn, pure_bind,
    cluster_of_lt hidx]
  cases hil : t.inlineMask.has (idx.setWidth 32).toNat with
  | true =>
    rw [hn] at hil
    rw [if_pos rfl, SlotState.cluster_inline (s := t.slotAt ⟨idx.toNat, hidx⟩) hil]
    simp only [hn]
    rfl
  | false =>
    rw [hn] at hil
    rw [if_neg (by simp)]
    cases hx : (t.slotAt ⟨idx.toNat, hidx⟩).child with
    | none =>
      rw [hx] at hptr
      rw [SlotState.cluster_inactive (Bool.or_eq_false_iff.mpr ⟨hil, hptr.symm⟩)]
    | some x =>
      rw [hx] at hptr
      rw [SlotState.cluster_child hil hptr.symm hx]

omit [Widths b w c] [LawfulTraversal C] in
theorem Safe.cluster_lists (h : t.Safe) {i : ℕ} {cl : Cluster c C} (hcl : t.cluster i = some cl) :
    View.Lists b (KeyWidths.list C) LawfulVeb.keys cl ∧
      ∀ x ∈ cl.keysBy LawfulVeb.keys, x < 2 ^ b := by
  unfold cluster at hcl
  split at hcl
  next hi =>
    have hslot := h.slot ⟨i, hi⟩
    cases cl with
    | inline u =>
      obtain ⟨hil, rfl⟩ := SlotState.cluster_eq_inline hcl
      have hval := hslot.value_lt hil
      exact ⟨hval, fun x hx => (Set.mem_singleton_iff.mp hx) ▸ hval⟩
    | child x =>
      have hinv := hslot.child x (SlotState.cluster_eq_child hcl).2.2
      exact ⟨fun p hp => Truncating.forEach_cut hinv hp, fun l hl => LawfulVeb.key_lt hinv hl⟩
  next => cases hcl

omit [Widths b w c] [LawfulTraversal C] in
theorem Safe.summary_lists (h : t.Safe) : (VebNode.forEach (t.summary.getD VebNode.fresh) 0).Returns
    fun L => ∀ i ∈ L, i < 2 ^ b := by
  have hsum : LawfulVeb.Inv False (t.summary.getD VebNode.fresh) := by
    cases ho : t.summary with
    | none => exact LawfulVeb.fresh_inv
    | some o => exact (h.lists o ho).1
  have hzero : (0 : BitVec c).toNat % 2 ^ b = 0 := by simp
  refine (Truncating.forEach_cut hsum hzero).mono fun L hL i hi => ?_
  simpa using (hL i hi).1

theorem Safe.forEach_view (h : t.Safe) (pfx : BitVec w) :
    t.forEach pfx = t.view.forEach b w pfx := by
  unfold forEach View.forEach view
  cases ho : t.summary with
  | none =>
    rw [Option.getD_none, fits_fresh.2]
    rfl
  | some o =>
    obtain ⟨L, hL, hlt⟩ := h.summary_lists
    rw [ho, Option.getD_some, ← Truncating.forEachAll_eq] at hL
    dsimp only
    rw [Option.getD_some, hL, pure_bind, pure_bind]
    refine emitAll_congr fun i hi => ?_
    have hib := hlt i hi
    have hc : 2 ^ b ≤ 2 ^ c := Nat.pow_le_pow_right (by omega) (LawfulVeb.bits_le C)
    rw [h.visit_view (by rw [BitVec.toNat_ofNat, Nat.mod_eq_of_lt (by omega)]; exact hib), view,
      ho, Option.getD_some]

theorem Safe.forEach_safe (h : t.Safe) {pfx : BitVec w} (hp : pfx.toNat % 2 ^ (2 * b) = 0) :
    (t.forEach pfx).Returns fun l => ∀ y ∈ l, y < pfx.toNat + 2 ^ (2 * b) ∧
      Cut (w :: KeyWidths.list C) pfx.toNat (t.view.keys b) y := by
  rw [h.forEach_view, View.keys_eq_keysBy]
  refine View.forEach_cut (LawfulVeb.bits_le C) (KeyWidths.list_le (T := C)) hp ?_
    (fun i cl hcl => (h.cluster_lists hcl).1) fun i cl hcl => (h.cluster_lists hcl).2
  change (VebNode.forEachAll (t.summary.getD VebNode.fresh)).Returns _
  rw [Truncating.forEachAll_eq]
  exact h.summary_lists

end Traversal

section Instance

variable [Widths b w c] [AllocOnce C] [LawfulTraversal C] [KeyWidths C] [Truncating C]
  [Fact (c ≤ w)]

instance resilient : Resilient (DenseBranch b w c false C) (2 * b) where
  cost := 2
  costFull := 2
  Closed _ := True
  Safe A t := t.Safe ∧ t.view.keys b ⊆ A
  shown t := t.view.keys b
  bits_le := Widths.double c
  closed_univ := trivial
  shown_subset h := h.2
  shown_lt {A t k} h hk := by
    have hlt := pow_pos_two b
    obtain ⟨cl, hcl, hmem⟩ := hk
    by_cases hi : k / 2 ^ b < 2 ^ b
    · have := split_lt hi (Nat.mod_lt k hlt)
      rwa [split_eq] at this
    · rw [view_cluster, cluster, dif_neg hi] at hcl
      cases hcl
  fresh_safe := ⟨DenseBranch.fresh_safe, fresh_keys (b := b) (w := w) (C := C) ▸
    Set.empty_subset _⟩
  shown_fresh := fresh_keys
  insert_safe {A t key m n} _ h hkA hk hn := by
    obtain rfl : n = 2 := hn.elim id And.left
    refine (insert_settles h.1 hk).mono le_rfl ?_ ?_
    · rintro t' ⟨hsafe, hkeys⟩
      exact ⟨⟨hsafe, hkeys ▸ h.2⟩, hkeys.ge⟩
    · rintro t' ⟨hsafe, hkeys⟩
      exact ⟨⟨hsafe, hkeys ▸ Set.insert_subset hkA h.2⟩, hkeys.ge⟩
  erase_safe h hk := by
    refine (erase_safe h.1 hk).mono ?_
    rintro t' ⟨hsafe, hkeys⟩
    exact ⟨⟨hsafe, hkeys ▸ Set.sdiff_subset.trans h.2⟩, hkeys.le⟩
  contains_safe h hk := h.1.contains_safe hk
  min_safe h := h.1.min_safe
  max_safe h := h.1.max_safe
  successor_safe h hk := h.1.successor_safe hk
  predecessor_safe h hk := h.1.predecessor_safe hk
  forEachAll_eq _ := rfl
  forEach_safe h hp := h.1.forEach_safe hp

end Instance

end ParvEB.DenseBranch
