import ParvEB.SparseInv
import ParvEB.ViewUpdates

/-! Insertion into and erasure from a sparse branch. -/
namespace ParvEB

open Outcome

section Entry

variable {b c : ℕ} {C : Type} [VebNode C c] [LawfulVeb C b] {lax : Prop} {e : ClusterEntry c C}
  {m : Mem} {lo : BitVec c}

omit [VebNode C c] [LawfulVeb C b] in
theorem ClusterEntry.cluster_inline (h : e.inlineOnly = true) :
    e.cluster = some (.inline e.inlineValue) := if_pos h

omit [VebNode C c] [LawfulVeb C b] in
theorem ClusterEntry.cluster_child {x : C} (h : e.inlineOnly = false) (hx : e.child = some x) :
    e.cluster = some (.child x) := by
  simp [cluster, h, hx]

theorem entryInv_inline (hlo : lo.toNat < 2 ^ b) :
    EntryInv b lax ({ inlineValue := lo } : ClusterEntry c C) :=
  ⟨fun _ => hlo, fun _ _ => rfl, by rintro _ _ ⟨⟩, by rintro ⟨⟩⟩

theorem entryInv_child {x : C} {v : BitVec c} (hx : LawfulVeb.Inv lax x)
    (hne : (LawfulVeb.keys x).Nonempty) : EntryInv b lax ⟨false, v, some x⟩ :=
  ⟨by rintro ⟨⟩, by rintro ⟨⟩, by rintro ⟨⟩, fun _ => ⟨x, rfl, hx, hne⟩⟩

namespace SparseBranch

theorem childInsert_spec {x : C} (hx : e.child = some x) (hinv : LawfulVeb.Inv lax x)
    (hlo : lo.toNat < 2 ^ b) :
    (childInsert e lo m).Ends m fun e' =>
      ∃ y, Inserted x lo y ∧ e' = { e with child := some y } := by
  rw [childInsert, hx]
  exact Ends.within ((inserted_spec hinv hlo).mono fun y hy => ⟨y, hy, rfl⟩)

/-- An inline value and the child that it expands into. -/
theorem ensureChild_spec (h : EntryInv b lax e) (hil : e.inlineOnly = true) :
    (ensureChild e m).Ends m fun e' => ∃ x, LawfulVeb.Inv lax x ∧
      LawfulVeb.keys x ⊆ {e.inlineValue.toNat} ∧ (¬ lax → LawfulVeb.keys x = ∅) ∧
      e' = { e with child := some x } := by
  unfold ensureChild
  cases hx : e.child with
  | none =>
    refine Ends.alloc fun m' _ => ends_returned ⟨VebNode.fresh, LawfulVeb.fresh_inv, ?_,
      fun _ => LawfulVeb.keys_fresh, rfl⟩
    rw [LawfulVeb.keys_fresh]
    exact Set.empty_subset _
  | some x =>
    obtain ⟨hinv, hsub⟩ := h.left_over hil x hx
    refine ends_returned ⟨x, hinv, hsub, fun hlax => ?_, by rw [← hx]⟩
    rw [h.null_child hil hlax] at hx
    cases hx

theorem entryInsert_spec (h : EntryInv b lax e) (hlo : lo.toNat < 2 ^ b) :
    (entryInsert e lo m).Ends m fun e' =>
      EntryInv b lax e' ∧ Cluster.Grows b lax lo e.cluster e'.cluster := by
  unfold entryInsert
  cases hil : e.inlineOnly with
  | true =>
    rw [if_pos rfl, ClusterEntry.cluster_inline hil]
    split
    next hv =>
      refine ends_returned ⟨h, ?_⟩
      rw [ClusterEntry.cluster_inline hil, hv]
      exact .present
    next hv =>
      have hval := h.value_lt hil
      refine (ensureChild_spec h hil).andThen ?_
      rintro _ m₁ ⟨x, hx, hsub, hnull, rfl⟩ _
      refine (childInsert_spec rfl hx hval).andThen ?_
      rintro _ m₂ ⟨y, hy, rfl⟩ _
      have hyinv := (hy.spec hx hval).1
      refine (childInsert_spec rfl hyinv hlo).andThen ?_
      rintro _ m₃ ⟨z, hz, rfl⟩ _
      obtain ⟨hzinv, hzkeys⟩ := hz.spec hyinv hlo
      refine ends_returned ⟨entryInv_child hzinv (hzkeys ▸ Set.insert_nonempty _ _), ?_⟩
      rw [ClusterEntry.cluster_child rfl rfl]
      exact .expand hv hx hsub hnull hy hz
  | false =>
    obtain ⟨x, hx, hinv, hne⟩ := h.child hil
    rw [if_neg (by simp), ensureChild, hx, returned_andThen, ClusterEntry.cluster_child hil hx]
    refine (childInsert_spec hx hinv hlo).mono ?_
    rintro _ ⟨y, hy, rfl⟩
    obtain ⟨hyinv, hykeys⟩ := hy.spec hinv hlo
    rw [hil]
    refine ⟨entryInv_child hyinv (hykeys ▸ Set.insert_nonempty _ _), ?_⟩
    rw [ClusterEntry.cluster_child rfl rfl]
    exact .child hy

end SparseBranch

end Entry

namespace SparseBranch

variable {b w c : ℕ} {M : ℕ → Type → Type} {C : Type} [FlatMap M] {t t' : SparseBranch b w c M C}
  {hi : BitVec c} {e e' : ClusterEntry c C} {o : Option (ClusterEntry c C)}

section Entries

theorem entryAt_setEntry (h : t.entryAt hi = some e) :
    (t.setEntry hi e').entryAt = Function.update t.entryAt hi (some e') := by
  funext k
  change FlatMap.find (FlatMap.assign t.clusters hi e') k = _
  rw [FlatMap.find_assign]
  by_cases hk : k = hi
  · change FlatMap.find t.clusters hi = some e at h
    simp [hk, h]
  · simp [hk, entryAt]

theorem entryAt_emplace (h : t.entryAt hi = none) :
    ({ t with clusters := FlatMap.emplace t.clusters hi e } : SparseBranch b w c M C).entryAt =
      Function.update t.entryAt hi (some e) := by
  funext k
  change FlatMap.find (FlatMap.emplace t.clusters hi e) k = _
  rw [FlatMap.find_emplace]
  by_cases hk : k = hi
  · change FlatMap.find t.clusters hi = none at h
    simp [hk, h]
  · simp [hk, entryAt]

theorem entryAt_erase :
    ({ t with clusters := FlatMap.erase t.clusters hi } : SparseBranch b w c M C).entryAt =
      Function.update t.entryAt hi none := by
  funext k
  change FlatMap.find (FlatMap.erase t.clusters hi) k = _
  rw [FlatMap.find_erase]
  by_cases hk : k = hi <;> simp [hk, entryAt]

end Entries

section Replaces

variable [VebNode C c] [LawfulVeb C b] {lax : Prop} {lo : BitVec c}

/-- `t'` is `t` with `o` in place of the entry of `hi`. -/
structure Replaces (lax : Prop) (t : SparseBranch b w c M C) (hi : BitVec c)
    (o : Option (ClusterEntry c C)) (t' : SparseBranch b w c M C) : Prop where
  entries : t'.entryAt = Function.update t.entryAt hi o
  entry : ∀ e, o = some e → EntryInv b lax e
  summary : LawfulVeb.Inv lax t'.summary

namespace Replaces

theorem sound (h : Replaces lax t hi o t') (ht : t.Sound lax) : t'.Sound lax where
  summary := h.summary
  entry k e he := by
    rw [h.entries] at he
    by_cases hk : k = hi
    · rw [hk, Function.update_self] at he
      exact h.entry e he
    · rw [Function.update_of_ne hk] at he
      exact ht.entry k e he

theorem cluster_of_ne (h : Replaces lax t hi o t') {j : ℕ} (hj : j ≠ hi.toNat) :
    t'.cluster j = t.cluster j := by
  unfold cluster
  split
  next hlt =>
    have hne : BitVec.ofNat c j ≠ hi := by
      rintro rfl
      exact hj (by simp [Nat.mod_eq_of_lt hlt])
    rw [h.entries, Function.update_of_ne hne]
  next => rfl

theorem cluster_self (h : Replaces lax t hi o t') :
    t'.cluster hi.toNat = o.bind ClusterEntry.cluster := by
  rw [cluster_toNat, h.entries, Function.update_self]

theorem grows (h : Replaces lax t hi o t')
    (hg : Cluster.Grows b lax lo (t.cluster hi.toNat) (o.bind ClusterEntry.cluster))
    (hold : (t.cluster hi.toNat).isSome = true → t'.summary = t.summary)
    (hnew : t.cluster hi.toNat = none → Inserted t.summary hi t'.summary) :
    t.view.Grows b lax hi lo t'.view := by
  refine ⟨fun j hj => h.cluster_of_ne hj, ?_, hold, hnew⟩
  rw [view_cluster, view_cluster, h.cluster_self]
  exact hg

theorem shrinks (h : Replaces lax t hi o t')
    (hs : Cluster.Shrinks lo (t.cluster hi.toNat) (o.bind ClusterEntry.cluster))
    (hold : o.isSome = true → t'.summary = t.summary)
    (hnone : t.cluster hi.toNat = none → t'.summary = t.summary)
    (hgone : o = none → (t.cluster hi.toNat).isSome = true → Erased t.summary hi t'.summary) :
    t.view.Shrinks hi lo t'.view := by
  have hself := h.cluster_self
  refine ⟨fun j hj => h.cluster_of_ne hj, ?_, fun he => ?_, fun he hn => ?_⟩
  · rw [view_cluster, view_cluster, hself]
    exact hs
  · rw [view_cluster, view_cluster, hself] at he
    cases o with
    | none =>
      exact hnone (Option.isNone_iff_eq_none.mp (Option.isSome_eq_false_iff.mp he.symm))
    | some e => exact hold rfl
  · rw [view_cluster, hself] at hn
    cases o with
    | none => exact ⟨_, hgone rfl he, Or.inl rfl⟩
    | some e =>
      obtain ⟨cl, hcl, _⟩ := (h.entry e rfl).exists_cluster
      rw [Option.bind_some, hcl] at hn
      cases hn

/-- Nothing changes when the entry stays. -/
theorem refl (h : t.Sound lax) (hi : BitVec c) : Replaces lax t hi (t.entryAt hi) t where
  entries := (Function.update_eq_self hi t.entryAt).symm
  entry := h.entry hi
  summary := h.summary

theorem setEntry (h : t.Sound lax) (he : t.entryAt hi = some e) (he' : EntryInv b lax e') :
    Replaces lax t hi (some e') (t.setEntry hi e') where
  entries := entryAt_setEntry he
  entry := by
    rintro _ ⟨⟩
    exact he'
  summary := h.summary

end Replaces

end Replaces

section Operations

variable [VebNode C c] [LawfulVeb C b] {lax : Prop} {m : Mem} {lo : BitVec c} {key : BitVec w}

theorem insert_replaces (h : t.Sound lax) (hhi : (hiPart b key : BitVec c).toNat < 2 ^ b)
    (hlo : (loPart b key : BitVec c).toNat < 2 ^ b) :
    (t.insert key m).Ends m fun t' => ∃ e, Replaces lax t (hiPart b key) (some e) t' ∧
      t.view.Grows b lax (hiPart b key) (loPart b key) t'.view := by
  unfold SparseBranch.insert
  dsimp only
  have hcl := t.cluster_toNat (hiPart b key)
  cases he : t.entryAt (hiPart b key) with
  | some e =>
    rw [show FlatMap.find t.clusters (hiPart b key) = some e from he]
    rw [he, Option.bind_some] at hcl
    obtain ⟨cl, hsome, _⟩ := (h.entry _ e he).exists_cluster
    refine Ends.within ((entryInsert_spec (h.entry _ e he) hlo).mono ?_)
    rintro e' ⟨he', hg⟩
    have hr := Replaces.setEntry h he he'
    refine ⟨e', hr, hr.grows ?_ (fun _ => rfl) fun hn => ?_⟩
    · rw [hcl]
      exact hg
    · rw [hcl, hsome] at hn
      cases hn
  | none =>
    rw [show FlatMap.find t.clusters (hiPart b key) = none from he]
    rw [he, Option.bind_none] at hcl
    refine Ends.alloc fun m₁ _ => ?_
    refine Ends.andThen (P := fun t' => t'.entryAt = Function.update t.entryAt (hiPart b key)
      (some {}) ∧ Inserted t.summary (hiPart b key) t'.summary) ?_ ?_
    · refine Ends.within ((inserted_spec h.summary hhi).mono ?_)
      exact fun s hs => ⟨entryAt_emplace he, hs⟩
    · rintro t₁ m₂ ⟨hentries, hins⟩ _
      obtain ⟨hinv, _⟩ := hins.spec h.summary hhi
      have hset : (t₁.setEntry (hiPart b key) { inlineValue := loPart b key }).entryAt = _ :=
        entryAt_setEntry (by rw [hentries, Function.update_self])
      rw [hentries, Function.update_idem] at hset
      have hr : Replaces lax t (hiPart b key) (some { inlineValue := loPart b key })
          (t₁.setEntry (hiPart b key) { inlineValue := loPart b key }) := by
        refine ⟨hset, ?_, hinv⟩
        rintro _ ⟨⟩
        exact entryInv_inline hlo
      refine ends_returned ⟨_, hr, hr.grows ?_ (fun hs => ?_) fun _ => hins⟩
      · rw [hcl]
        exact .absent
      · rw [hcl] at hs
        cases hs

theorem removeCluster_replaces (h : t.Sound lax) (hhi : hi.toNat < 2 ^ b)
    (hentries : t'.entryAt = Function.update t.entryAt hi o) (hsum : t'.summary = t.summary) :
    (t'.removeCluster hi).Returns fun t'' => Replaces lax t hi none t'' ∧
      Erased t.summary hi t''.summary := by
  refine (erased_spec (hsum ▸ h.summary) hhi).bind ?_
  intro s hs
  rw [hsum] at hs
  refine returns_pure.mpr ⟨⟨?_, by rintro _ ⟨⟩, (hs.spec h.summary hhi).1⟩, hs⟩
  have herase : ({ t' with clusters := FlatMap.erase t'.clusters hi } :
    SparseBranch b w c M C).entryAt = _ := entryAt_erase
  rw [hentries, Function.update_idem] at herase
  exact herase

/-- The entry of a cluster that has gone leaves the map, and its index the summary. -/
theorem removeCluster_shrinks (h : t.Sound lax) (hhi : hi.toNat < 2 ^ b)
    (hentries : t'.entryAt = Function.update t.entryAt hi o) (hsum : t'.summary = t.summary)
    {cl : Cluster c C} (hcl : t.cluster hi.toNat = some cl)
    (hgone : Cluster.Shrinks lo (some cl) none) :
    (t'.removeCluster hi).Returns fun t'' =>
      ∃ o, Replaces lax t hi o t'' ∧ t.view.Shrinks hi lo t''.view := by
  refine (removeCluster_replaces h hhi hentries hsum).mono ?_
  rintro t'' ⟨hr, hs⟩
  refine ⟨_, hr, hr.shrinks ?_ (by rintro ⟨⟩) (fun hn => ?_) fun _ _ => hs⟩
  · rw [hcl]
    exact hgone
  · rw [hcl] at hn
    cases hn

theorem eraseChild_replaces (h : t.Sound lax) (hhi : hi.toNat < 2 ^ b) (hlo : lo.toNat < 2 ^ b)
    (he : t.entryAt hi = some e) (hil : e.inlineOnly = false) {x : C} (hx : e.child = some x) :
    (do
      let y ← VebNode.erase x lo
      if VebNode.empty y then (t.setEntry hi ⟨false, e.inlineValue, some y⟩).removeCluster hi
      else pure (t.setEntry hi ⟨false, e.inlineValue, some y⟩)).Returns fun t' =>
      ∃ o, Replaces lax t hi o t' ∧ t.view.Shrinks hi lo t'.view := by
  obtain ⟨x', hx', hinv, _⟩ := (h.entry _ e he).child hil
  rw [hx] at hx'
  cases hx'
  have hcl : t.cluster hi.toNat = some (.child x) := by
    rw [cluster_toNat, he, Option.bind_some, ClusterEntry.cluster_child hil hx]
  refine (erased_spec hinv hlo).bind ?_
  intro y hy
  split
  next hey => exact removeCluster_shrinks h hhi (entryAt_setEntry he) rfl hcl (.drop hy hey)
  next hey =>
    have hyinv := (hy.spec hinv hlo).1
    have hykeys : (LawfulVeb.keys y).Nonempty := by
      rw [Set.nonempty_iff_ne_empty, Ne, ← LawfulVeb.empty_spec hyinv]
      exact hey
    have hr : Replaces lax t hi (some ⟨false, e.inlineValue, some y⟩)
        (t.setEntry hi ⟨false, e.inlineValue, some y⟩) :=
      .setEntry h he (entryInv_child hyinv hykeys)
    refine returns_pure.mpr ⟨_, hr, hr.shrinks ?_ (fun _ => rfl) (fun _ => rfl) (by rintro ⟨⟩)⟩
    rw [hcl, Option.bind_some, ClusterEntry.cluster_child rfl rfl]
    exact .keep hy (Bool.eq_false_iff.mpr hey)

theorem erase_replaces (h : t.Sound lax) (hhi : (hiPart b key : BitVec c).toNat < 2 ^ b)
    (hlo : (loPart b key : BitVec c).toNat < 2 ^ b) :
    (t.erase key).Returns fun t' => ∃ o, Replaces lax t (hiPart b key) o t' ∧
      t.view.Shrinks (hiPart b key) (loPart b key) t'.view := by
  unfold erase
  dsimp only
  have hrefl := Replaces.refl h (hiPart b key)
  have hcl := t.cluster_toNat (hiPart b key)
  cases he : t.entryAt (hiPart b key) with
  | none =>
    rw [show FlatMap.find t.clusters (hiPart b key) = none from he]
    rw [he] at hcl hrefl
    refine returns_pure.mpr ⟨_, hrefl, hrefl.shrinks ?_ (fun _ => rfl) (fun _ => rfl)
      fun _ hs => ?_⟩
    · rw [hcl]
      exact .absent
    · rw [hcl] at hs
      cases hs
  | some e =>
    rw [show FlatMap.find t.clusters (hiPart b key) = some e from he]
    dsimp only
    cases hil : e.inlineOnly with
    | true =>
      rw [he, Option.bind_some, ClusterEntry.cluster_inline hil] at hcl
      rw [he] at hrefl
      rw [if_pos rfl]
      split
      next hv =>
        refine returns_pure.mpr ⟨_, hrefl, hrefl.shrinks ?_ (fun _ => rfl) (fun _ => rfl)
          (by rintro ⟨⟩)⟩
        rw [hcl, Option.bind_some, ClusterEntry.cluster_inline hil]
        exact .other hv
      next hv =>
        have hself := Function.update_eq_self (hiPart b key) t.entryAt
        refine removeCluster_shrinks h hhi hself.symm rfl hcl ?_
        rw [not_not.mp hv]
        exact .inline
    | false =>
      obtain ⟨x, hx, _⟩ := (h.entry _ e he).child hil
      rw [if_neg (by simp), hx]
      exact eraseChild_replaces h hhi hlo he hil hx

/-- An insertion does to the abstract branch what it should, and keeps the invariant. -/
theorem insert_grows (h : t.Inv lax) (hhi : (hiPart b key : BitVec c).toNat < 2 ^ b)
    (hlo : (loPart b key : BitVec c).toNat < 2 ^ b) :
    (t.insert key m).Ends m fun t' => t'.Inv lax ∧
      t.view.Grows b lax (hiPart b key) (loPart b key) t'.view := by
  refine (insert_replaces h.toSound hhi hlo).mono ?_
  rintro t' ⟨e, hr, hg⟩
  exact ⟨(hr.sound h.toSound).inv (hg.inv h.view_inv hhi hlo), hg⟩

theorem erase_shrinks (h : t.Inv lax) (hhi : (hiPart b key : BitVec c).toNat < 2 ^ b)
    (hlo : (loPart b key : BitVec c).toNat < 2 ^ b) :
    (t.erase key).Returns fun t' => t'.Inv lax ∧
      t.view.Shrinks (hiPart b key) (loPart b key) t'.view := by
  refine (erase_replaces h.toSound hhi hlo).mono ?_
  rintro t' ⟨o, hr, hs⟩
  exact ⟨(hr.sound h.toSound).inv (hs.inv h.view_inv hhi hlo), hs⟩

end Operations

section Instance

variable [VebNode C c] [LawfulVeb C b] [Widths b w c] {lax : Prop} {key : BitVec w}

omit [Widths b w c] in
theorem toNat_hiPart (c : ℕ) (hc : b ≤ c) (hk : key.toNat < 2 ^ (2 * b)) :
    (hiPart b key : BitVec c).toNat = key.toNat / 2 ^ b := by
  have hlt := (div_lt_of_lt hk).trans_le (Nat.pow_le_pow_right (by omega) hc)
  rw [hiPart, BitVec.toNat_setWidth, toNat_shiftRight, Nat.mod_eq_of_lt hlt]

omit [Widths b w c] in
theorem hiPart_lt (C : Type) [VebNode C c] [LawfulVeb C b]
    (hk : key.toNat < 2 ^ (2 * b)) : (hiPart b key : BitVec c).toNat < 2 ^ b := by
  rw [toNat_hiPart c (LawfulVeb.bits_le C) hk]
  exact div_lt_of_lt hk

theorem toNat_key (C : Type) [VebNode C c] [LawfulVeb C b]
    (hk : key.toNat < 2 ^ (2 * b)) :
    (hiPart b key : BitVec c).toNat * 2 ^ b + (loPart b key : BitVec c).toNat = key.toNat := by
  rw [toNat_hiPart c (LawfulVeb.bits_le C) hk, (loPart_lt C key).1, split_eq]

omit [Widths b w c] in
theorem fresh_inv : (VebNode.fresh : SparseBranch b w c M C).Inv lax where
  summary := LawfulVeb.fresh_inv
  mem_summary hi := by
    change hi.toNat ∈ LawfulVeb.keys (VebNode.fresh : C) ↔ _
    simp [LawfulVeb.keys_fresh, entryAt, VebNode.fresh, FlatMap.find_empty]
  entry hi e he := by
    simp [entryAt, VebNode.fresh, FlatMap.find_empty] at he

omit [Widths b w c] in
theorem Inv.keys_eq_empty_iff (h : t.Inv lax) :
    VebNode.empty t.summary = true ↔ t.view.keys b = ∅ := by
  rw [LawfulVeb.empty_spec h.summary, h.view_inv.keys_eq_empty_iff]
  rfl

theorem Inv.successor_spec (h : t.Inv lax) (hk : key.toNat < 2 ^ (2 * b)) :
    (t.successor key).Returns fun r =>
      IsFirst (above (t.view.keys b) key.toNat) (r.map BitVec.toNat) := by
  have hd : 2 * b ≤ w := Widths.double c
  by_cases he : VebNode.empty t.summary = true
  · rw [successor, if_pos he, returns_pure, h.keys_eq_empty_iff.mp he]
    exact Set.sep_empty _
  · by_cases hmax : maxKey (2 * b) w ≤ key
    · rw [successor, if_neg he, if_pos hmax, returns_pure]
      refine Set.eq_empty_iff_forall_notMem.mpr ?_
      rintro k ⟨hk', hlt⟩
      have := h.view_inv.key_lt hk'
      rw [BitVec.le_def, toNat_maxKey hd (Widths.key b c)] at hmax
      omega
    · rw [successor_eq t he hmax]
      exact h.view_inv.successor_spec hk (toNat_hiPart c (LawfulVeb.bits_le C) hk)
        (loPart_lt C key).1

theorem Inv.predecessor_spec (h : t.Inv lax) (hk : key.toNat < 2 ^ (2 * b)) :
    (t.predecessor key).Returns fun r =>
      IsLast (below (t.view.keys b) key.toNat) (r.map BitVec.toNat) := by
  by_cases he : VebNode.empty t.summary = true
  · rw [predecessor, if_pos he, returns_pure, h.keys_eq_empty_iff.mp he]
    exact Set.sep_empty _
  · by_cases h0 : key = 0
    · rw [predecessor, if_neg he, if_pos (Or.inl h0), returns_pure, h0]
      refine Set.eq_empty_iff_forall_notMem.mpr ?_
      rintro k ⟨_, hlt⟩
      simp at hlt
    · have hmax : ¬ maxKey (2 * b) w < key := by
        rw [BitVec.not_lt, le_maxKey_iff (Widths.double c) (Widths.key b c)]
        exact hk
      rw [predecessor_eq t he h0 hmax]
      exact h.view_inv.predecessor_spec hk (toNat_hiPart c (LawfulVeb.bits_le C) hk)
        (loPart_lt C key).1

instance lawful : LawfulVeb (SparseBranch b w c M C) (2 * b) where
  keys t := t.view.keys b
  Inv := SparseBranch.Inv
  bits_le := Widths.double c
  mono := SparseBranch.Inv.mono
  key_lt h := h.view_inv.key_lt
  fresh_inv := fresh_inv
  keys_fresh := by
    have h : Inv True (VebNode.fresh : SparseBranch b w c M C) := fresh_inv
    exact h.keys_eq_empty_iff.mp ((LawfulVeb.empty_spec h.summary).mpr LawfulVeb.keys_fresh)
  empty_spec h := h.keys_eq_empty_iff
  insert_spec h hk := by
    refine (insert_grows h (hiPart_lt C hk) (loPart_lt C _).2).mono ?_
    rintro t' ⟨h', hg⟩
    refine ⟨h', ?_⟩
    rw [hg.keys h.view_inv (loPart_lt C _).2, toNat_key C hk]
  erase_spec h hk := by
    refine (erase_shrinks h (hiPart_lt C hk) (loPart_lt C _).2).mono ?_
    rintro t' ⟨h', hs⟩
    refine ⟨h', ?_⟩
    rw [hs.keys h.view_inv (loPart_lt C _).2, toNat_key C hk]
  contains_spec h hk := by
    change (contains _ _).Returns _
    rw [contains_eq, toNat_hiPart c (LawfulVeb.bits_le C) hk]
    exact h.view_inv.contains_spec (loPart_lt C _).1
  min_spec h := by
    change (SparseBranch.min _).Returns _
    rw [min_eq]
    exact h.view_inv.min_spec
  max_spec h := by
    change (SparseBranch.max _).Returns _
    rw [max_eq]
    exact h.view_inv.max_spec
  successor_spec h hk := h.successor_spec hk
  predecessor_spec h hk := h.predecessor_spec hk

end Instance

end SparseBranch

end ParvEB
