import ParvEB.Resilient

/-! The sparse branch through failed allocations. -/
namespace ParvEB

open Outcome

variable {b w c : ℕ} {C : Type} [VebNode C c] [KeyWidths C] [Resilient C b] {A : Set ℕ}

/-- The low part of a key is its remainder. -/
theorem toNat_loPart_of_resilient (C : Type) [VebNode C c] [KeyWidths C] [Resilient C b]
    [Widths b w c] (key : BitVec w) : (loPart b key : BitVec c).toNat = key.toNat % 2 ^ b := by
  have hb : 6 ≤ b := Widths.fan w c
  have hw : 2 * b ≤ w := Widths.double c
  exact toNat_loPart (by omega) (Resilient.bits_le C)

section Entry

variable {e : ClusterEntry c C} {o : Option (ClusterEntry c C)} {m : Mem} {lo : BitVec c}

/-- What an entry may hold. Behind an inline value there may be a child, in any state. -/
structure EntrySafe (b : ℕ) [Resilient C b] (A : Set ℕ) (e : ClusterEntry c C) : Prop where
  value : e.inlineOnly = true → e.inlineValue.toNat < 2 ^ b ∧ e.inlineValue.toNat ∈ A
  child : ∀ x, e.child = some x → Resilient.Safe A x
  present : e.inlineOnly = false → ∃ x, e.child = some x

/-- The low parts that an entry, if there is one, shows. -/
def entryShown (o : Option (ClusterEntry c C)) : Set ℕ :=
  {l | ∃ cl, o.bind ClusterEntry.cluster = some cl ∧ l ∈ cl.shown}

theorem entryShown_none : entryShown (none : Option (ClusterEntry c C)) = ∅ := by
  ext l
  simp [entryShown]

theorem entryShown_inline (h : e.inlineOnly = true) :
    entryShown (some e) = {e.inlineValue.toNat} := by
  ext l
  simp [entryShown, ClusterEntry.cluster_inline h, Cluster.shown, Cluster.keysBy]

theorem entryShown_child {x : C} (h : e.inlineOnly = false) (hx : e.child = some x) :
    entryShown (some e) = Resilient.shown x := by
  ext l
  simp [entryShown, ClusterEntry.cluster_child h hx, Cluster.shown, Cluster.keysBy]

theorem EntrySafe.cluster (h : EntrySafe b A e) {cl : Cluster c C} (hcl : e.cluster = some cl) :
    cl.Safe b A := by
  cases cl with
  | inline v =>
    obtain ⟨hil, rfl⟩ := ClusterEntry.cluster_eq_inline hcl
    exact h.value hil
  | child x => exact h.child x (ClusterEntry.cluster_eq_child hcl).2

theorem entrySafe_inline (hlo : lo.toNat < 2 ^ b) (hA : lo.toNat ∈ A) :
    EntrySafe b A ({ inlineValue := lo } : ClusterEntry c C) :=
  ⟨fun _ => ⟨hlo, hA⟩, by rintro _ ⟨⟩, by rintro ⟨⟩⟩

theorem EntrySafe.setChild (h : EntrySafe b A e) {x : C} (hx : Resilient.Safe A x) :
    EntrySafe b A { e with child := some x } :=
  ⟨h.value, by rintro _ ⟨⟩; exact hx, fun _ => ⟨x, rfl⟩⟩

namespace SparseBranch

/-- The child behind an entry is made when there is none. -/
theorem ensureChild_settles (h : EntrySafe b A e) :
    (ensureChild e m).Settles m 1 (fun e' => e' = e) fun e' =>
      ∃ x, e' = { e with child := some x } ∧ Resilient.Safe A x := by
  unfold ensureChild
  cases hx : e.child with
  | none =>
    change (m.alloc e fun m => _).Settles m (1 + 0) _ _
    refine Settles.alloc (P := fun e' => e' = e) rfl fun _ => ?_
    exact settles_returned ⟨VebNode.fresh, rfl, Resilient.fresh_safe⟩
  | some x =>
    refine (settles_returned ?_).mono (Nat.zero_le 1) (fun _ => id) fun _ => id
    exact ⟨x, by rw [← hx], h.child x hx⟩

/-- A key goes into the child that an entry has. -/
theorem childInsert_settles {x : C} {n : ℕ} (hA : Resilient.Closed C A) (hx : e.child = some x)
    (hsafe : Resilient.Safe A x) (hlo : lo.toNat < 2 ^ b) (hloA : lo.toNat ∈ A)
    (hn : n = Resilient.cost C ∨ n = Resilient.costFull C ∧ (Resilient.shown x).Nonempty) :
    (childInsert e lo m).Settles m n
      (fun e' => ∃ y, e' = { e with child := some y } ∧ Resilient.Safe A y ∧
        Resilient.shown x ⊆ Resilient.shown y)
      fun e' => ∃ y, e' = { e with child := some y } ∧ Resilient.Safe A y ∧
        insert lo.toNat (Resilient.shown x) ⊆ Resilient.shown y := by
  rw [childInsert, hx]
  exact Settles.within ((Resilient.insert_safe hA hsafe hloA hlo hn).mono le_rfl
    (fun y hy => ⟨y, rfl, hy⟩) fun y hy => ⟨y, rfl, hy⟩)

/-- An expansion that throws at any point leaves the inline value, and what it has put into the
child stays behind it. -/
theorem expand_settles (hA : Resilient.Closed C A) (h : EntrySafe b A e)
    (hil : e.inlineOnly = true) (hlo : lo.toNat < 2 ^ b) (hloA : lo.toNat ∈ A) :
    ((ensureChild e m).andThen fun e m => (childInsert e e.inlineValue m).andThen fun e m =>
      (childInsert e lo m).andThen fun e m =>
        pure (.returned { e with inlineOnly := false } m)).Settles m
      (1 + (Resilient.cost C + (Resilient.costFull C + 0)))
      (fun e' => EntrySafe b A e' ∧ entryShown (some e) ⊆ entryShown (some e'))
      fun e' => EntrySafe b A e' ∧
        insert lo.toNat (entryShown (some e)) ⊆ entryShown (some e') := by
  obtain ⟨hval, hvalA⟩ := h.value hil
  have hkeep : ∀ {x : C}, Resilient.Safe A x → EntrySafe b A { e with child := some x } ∧
      entryShown (some e) ⊆ entryShown (some { e with child := some x }) := by
    intro x hx
    refine ⟨h.setChild hx, ?_⟩
    rw [entryShown_inline hil, entryShown_inline (e := { e with child := some x }) hil]
  refine Settles.andThen ((ensureChild_settles h).mono le_rfl ?_ fun _ => id) ?_
  · rintro _ rfl
    exact ⟨h, le_rfl⟩
  rintro _ m₁ ⟨x, rfl, hx⟩
  refine Settles.andThen ((childInsert_settles hA rfl hx hval hvalA (Or.inl rfl)).mono le_rfl ?_
    fun _ => id) ?_
  · rintro _ ⟨y, rfl, hy, _⟩
    exact hkeep hy
  rintro _ m₂ ⟨y, rfl, hy, hysub⟩
  have hvy := hysub (Set.mem_insert _ _)
  refine Settles.andThen ((childInsert_settles hA rfl hy hlo hloA (Or.inr ⟨rfl, _, hvy⟩)).mono
    le_rfl ?_ fun _ => id) ?_
  · rintro _ ⟨z, rfl, hz, _⟩
    exact hkeep hz
  rintro _ m₃ ⟨z, rfl, hz, hzsub⟩
  have hzsafe : EntrySafe b A (⟨false, e.inlineValue, some z⟩ : ClusterEntry c C) :=
    ⟨by rintro ⟨⟩, by rintro _ ⟨⟩; exact hz, fun _ => ⟨z, rfl⟩⟩
  refine (settles_returned ⟨hzsafe, ?_⟩).mono le_rfl (fun _ => id) fun _ => id
  rw [entryShown_inline hil, entryShown_child rfl rfl]
  refine (Set.insert_subset_insert ?_).trans hzsub
  exact Set.singleton_subset_iff.mpr hvy

theorem entryInsert_settles (hA : Resilient.Closed C A) (h : EntrySafe b A e)
    (hlo : lo.toNat < 2 ^ b) (hloA : lo.toNat ∈ A) :
    (entryInsert e lo m).Settles m (1 + (Resilient.cost C + (Resilient.costFull C + 0)))
      (fun e' => EntrySafe b A e' ∧ entryShown (some e) ⊆ entryShown (some e'))
      fun e' => EntrySafe b A e' ∧
        insert lo.toNat (entryShown (some e)) ⊆ entryShown (some e') := by
  unfold entryInsert
  cases hil : e.inlineOnly with
  | true =>
    rw [if_pos rfl]
    split
    next hv =>
      refine (settles_returned ⟨h, ?_⟩).mono (Nat.zero_le _) (fun _ => id) fun _ => id
      rw [entryShown_inline hil, hv]
      exact Set.insert_subset rfl le_rfl
    next => exact expand_settles hA h hil hlo hloA
  | false =>
    obtain ⟨x, hx⟩ := h.present hil
    rw [if_neg (by simp), ensureChild, hx, returned_andThen]
    refine (childInsert_settles hA hx (h.child x hx) hlo hloA (Or.inl rfl)).mono (by omega) ?_ ?_
    · rintro _ ⟨y, rfl, hy, hsub⟩
      refine ⟨h.setChild hy, ?_⟩
      rwa [entryShown_child hil hx, entryShown_child (e := { e with child := some y }) hil rfl]
    · rintro _ ⟨y, rfl, hy, hsub⟩
      refine ⟨h.setChild hy, ?_⟩
      rwa [entryShown_child hil hx, entryShown_child (e := { e with child := some y }) hil rfl]

end SparseBranch

end Entry

namespace SparseBranch

variable {M : ℕ → Type → Type} [FlatMap M]

section Calls

variable {t t' : SparseBranch b w c M C} {hi lo : BitVec c} {e e' : ClusterEntry c C}
  {o : Option (ClusterEntry c C)} {m : Mem} {key : BitVec w}

/-- The summary and each entry are safe, whether or not they agree. -/
structure Safe (b : ℕ) [Resilient C b] (A : Set ℕ) (t : SparseBranch b w c M C) : Prop where
  summary : Resilient.Safe Set.univ t.summary
  entry : ∀ hi e, t.entryAt hi = some e → hi.toNat < 2 ^ b ∧ EntrySafe b (under b A hi.toNat) e

/-- With a key a set has, under the same index, what a failed insertion of it may leave. -/
def Closed (b : ℕ) (C : Type) [VebNode C c] [KeyWidths C] [Resilient C b] (A : Set ℕ) : Prop :=
  ∀ i, Resilient.Closed C (under b A i) ∧ ((∃ l < 2 ^ b, l ∈ under b A i) → 0 ∈ under b A i)

theorem Safe.view_safe (h : t.Safe b A) : t.view.Safe b A := by
  have hentry : ∀ i cl, t.cluster i = some cl → i < 2 ^ b ∧ cl.Safe b (under b A i) := by
    intro i cl hcl
    unfold cluster at hcl
    split at hcl
    next hic =>
      obtain ⟨e, he, hcl⟩ := Option.bind_eq_some_iff.mp hcl
      have hi : (BitVec.ofNat c i).toNat = i := by
        rw [BitVec.toNat_ofNat, Nat.mod_eq_of_lt hic]
      obtain ⟨hlt, hsafe⟩ := h.entry _ e he
      rw [hi] at hlt hsafe
      exact ⟨hlt, hsafe.cluster hcl⟩
    next => cases hcl
  exact ⟨h.summary, fun i cl hcl => (hentry i cl hcl).1, fun i cl hcl => (hentry i cl hcl).2⟩

omit [VebNode C c] [KeyWidths C] [Resilient C b] in
theorem cluster_update (h : t'.entryAt = Function.update t.entryAt hi o) (i : ℕ) :
    t'.cluster i = if i = hi.toNat then o.bind ClusterEntry.cluster else t.cluster i := by
  split
  next hi' => rw [hi', cluster_toNat, h, Function.update_self]
  next hne =>
    unfold cluster
    split
    next hlt =>
      rw [h, Function.update_of_ne]
      rintro rfl
      exact hne (by rw [BitVec.toNat_ofNat, Nat.mod_eq_of_lt hlt])
    next => rfl

/-- `t'` is `t` with `o` in place of the entry at `hi`. -/
structure Updates (b : ℕ) [Resilient C b] (A : Set ℕ) (t : SparseBranch b w c M C) (hi : BitVec c)
    (o : Option (ClusterEntry c C)) (t' : SparseBranch b w c M C) : Prop where
  entries : t'.entryAt = Function.update t.entryAt hi o
  entry : ∀ e, o = some e → EntrySafe b (under b A hi.toNat) e
  summary : Resilient.Safe Set.univ t'.summary

namespace Updates

theorem safe (h : Updates b A t hi o t') (ht : t.Safe b A) (hhi : hi.toNat < 2 ^ b) :
    t'.Safe b A where
  summary := h.summary
  entry k e he := by
    rw [h.entries] at he
    by_cases hk : k = hi
    · rw [hk, Function.update_self] at he
      rw [hk]
      exact ⟨hhi, h.entry e he⟩
    · rw [Function.update_of_ne hk] at he
      exact ht.entry k e he

theorem mem_shown_iff (h : Updates b A t hi o t') {k : ℕ} : k ∈ t'.view.shown b ↔
    if k / 2 ^ b = hi.toNat then k % 2 ^ b ∈ entryShown o else k ∈ t.view.shown b := by
  change (∃ cl, t'.cluster (k / 2 ^ b) = some cl ∧ _) ↔ _
  rw [cluster_update h.entries]
  split <;> exact Iff.rfl

theorem mem_shown_old {k : ℕ} (hk : k / 2 ^ b = hi.toNat) :
    k ∈ t.view.shown b ↔ k % 2 ^ b ∈ entryShown (t.entryAt hi) := by
  change (∃ cl, t.cluster (k / 2 ^ b) = some cl ∧ _) ↔ _
  rw [hk, cluster_toNat]
  exact Iff.rfl

theorem shown_subset (h : Updates b A t hi o t')
    (hsub : entryShown (t.entryAt hi) ⊆ entryShown o) : t.view.shown b ⊆ t'.view.shown b := by
  intro k hk
  rw [h.mem_shown_iff]
  split
  next he => exact hsub ((mem_shown_old he).mp hk)
  next => exact hk

theorem insert_subset (h : Updates b A t hi o t') (hlo : lo.toNat < 2 ^ b)
    (hsub : insert lo.toNat (entryShown (t.entryAt hi)) ⊆ entryShown o) :
    insert (hi.toNat * 2 ^ b + lo.toNat) (t.view.shown b) ⊆ t'.view.shown b := by
  refine Set.insert_subset ?_ (h.shown_subset ((Set.subset_insert _ _).trans hsub))
  rw [h.mem_shown_iff, if_pos (split_div hlo), split_mod hlo]
  exact hsub (Set.mem_insert _ _)

theorem shown_sdiff (h : Updates b A t hi o t') (hlo : lo.toNat < 2 ^ b)
    (hsub : entryShown o ⊆ entryShown (t.entryAt hi) \ {lo.toNat}) :
    t'.view.shown b ⊆ t.view.shown b \ {hi.toNat * 2 ^ b + lo.toNat} := by
  intro k hk
  rw [h.mem_shown_iff] at hk
  split at hk
  next he =>
    obtain ⟨hmem, hne⟩ := hsub hk
    refine ⟨(mem_shown_old he).mpr hmem, ?_⟩
    rintro rfl
    exact hne (split_mod hlo)
  next he =>
    refine ⟨hk, ?_⟩
    rintro rfl
    exact he (split_div hlo)

/-- Nothing changes when the entry stays. -/
theorem refl (h : t.Safe b A) (hi : BitVec c) : Updates b A t hi (t.entryAt hi) t where
  entries := (Function.update_eq_self hi t.entryAt).symm
  entry e he := (h.entry hi e he).2
  summary := h.summary

theorem setEntry (h : t.Safe b A) (he : t.entryAt hi = some e)
    (he' : EntrySafe b (under b A hi.toNat) e') :
    Updates b A t hi (some e') (t.setEntry hi e') where
  entries := entryAt_setEntry he
  entry := by
    rintro _ ⟨⟩
    exact he'
  summary := h.summary

end Updates

section Insertion

/-- An entry is made first; if the summary then cannot take its index, it stays with the value 0. -/
theorem insertNew_settles (hA : Closed b C A) (h : t.Safe b A) (hhi : hi.toNat < 2 ^ b)
    (hlo : lo.toNat < 2 ^ b) (hloA : lo.toNat ∈ under b A hi.toNat) (he : t.entryAt hi = none) :
    (m.alloc t fun m =>
      ((VebNode.insert t.summary hi m).within fun s =>
        (⟨s, FlatMap.emplace t.clusters hi {}⟩ : SparseBranch b w c M C)).andThen fun t m =>
          pure (.returned (t.setEntry hi { inlineValue := lo }) m)).Settles m
      (1 + (Resilient.cost C + 0)) (fun t' => t'.Safe b A ∧ t.view.shown b ⊆ t'.view.shown b)
      fun t' => t'.Safe b A ∧
        insert (hi.toNat * 2 ^ b + lo.toNat) (t.view.shown b) ⊆ t'.view.shown b := by
  have hnone : entryShown (t.entryAt hi) = ∅ := by rw [he, entryShown_none]
  have hzero := (hA hi.toNat).2 ⟨_, hlo, hloA⟩
  have hnew : ∀ {s : C}, Resilient.Safe Set.univ s → Updates b A t hi (some {})
      (⟨s, FlatMap.emplace t.clusters hi {}⟩ : SparseBranch b w c M C) := by
    intro s hs
    refine ⟨entryAt_emplace he, ?_, hs⟩
    rintro _ ⟨⟩
    exact entrySafe_inline (by simp) (by simpa using hzero)
  refine Settles.alloc ⟨h, le_rfl⟩ fun m₁ => ?_
  refine Settles.andThen (Q := fun t' => ∃ s, Resilient.Safe Set.univ s ∧
    t' = ⟨s, FlatMap.emplace t.clusters hi {}⟩) (Settles.within ?_) ?_
  · refine (Resilient.insert_safe Resilient.closed_univ h.summary (Set.mem_univ _) hhi
      (Or.inl rfl)).mono le_rfl ?_ fun s hs => ⟨s, hs.1, rfl⟩
    rintro s ⟨hs, _⟩
    exact ⟨(hnew hs).safe h hhi, (hnew hs).shown_subset (hnone ▸ Set.empty_subset _)⟩
  · rintro _ m₂ ⟨s, hs, rfl⟩
    have hr : Updates b A t hi (some { inlineValue := lo })
        ((⟨s, FlatMap.emplace t.clusters hi {}⟩ : SparseBranch b w c M C).setEntry hi
          { inlineValue := lo }) := by
      refine ⟨?_, ?_, hs⟩
      · rw [entryAt_setEntry (e := {}) (by rw [(hnew hs).entries, Function.update_self]),
          (hnew hs).entries, Function.update_idem]
      · rintro _ ⟨⟩
        exact entrySafe_inline hlo hloA
    refine settles_returned ⟨hr.safe h hhi, hr.insert_subset hlo ?_⟩
    rw [hnone, insert_empty_eq, entryShown_inline rfl]

theorem insert_settles [Widths b w c] (hA : Closed b C A) (h : t.Safe b A)
    (hkA : key.toNat ∈ A) (hk : key.toNat < 2 ^ (2 * b)) :
    (t.insert key m).Settles m (1 + (Resilient.cost C + Resilient.costFull C))
      (fun t' => t'.Safe b A ∧ t.view.shown b ⊆ t'.view.shown b)
      fun t' => t'.Safe b A ∧ insert key.toNat (t.view.shown b) ⊆ t'.view.shown b := by
  have hhi : (hiPart b key : BitVec c).toNat = key.toNat / 2 ^ b :=
    toNat_hiPart c (Resilient.bits_le C) hk
  have hlo : (loPart b key : BitVec c).toNat = key.toNat % 2 ^ b :=
    toNat_loPart_of_resilient C key
  have hhib : (hiPart b key : BitVec c).toNat < 2 ^ b := hhi ▸ div_lt_of_lt hk
  have hlob : (loPart b key : BitVec c).toNat < 2 ^ b := hlo ▸ Nat.mod_lt _ (pow_pos_two b)
  have hloA : (loPart b key : BitVec c).toNat ∈ under b A (hiPart b key : BitVec c).toNat := by
    rw [hhi, hlo]
    exact mem_under.mpr hkA
  have hkey : (hiPart b key : BitVec c).toNat * 2 ^ b + (loPart b key : BitVec c).toNat =
      key.toNat := by
    rw [hhi, hlo, split_eq]
  unfold SparseBranch.insert
  dsimp only
  cases he : t.entryAt (hiPart b key) with
  | none =>
    rw [show FlatMap.find t.clusters (hiPart b key) = none from he]
    rw [← hkey]
    exact (insertNew_settles hA h hhib hlob hloA he).mono (by omega) (fun _ => id) fun _ => id
  | some e =>
    rw [show FlatMap.find t.clusters (hiPart b key) = some e from he]
    refine Settles.within ((entryInsert_settles (hA _).1 (h.entry _ e he).2 hlob hloA).mono
      (by omega) ?_ ?_)
    · rintro e' ⟨he', hsub⟩
      have hr := Updates.setEntry h he he'
      exact ⟨hr.safe h hhib, hr.shown_subset (he ▸ hsub)⟩
    · rintro e' ⟨he', hsub⟩
      have hr := Updates.setEntry h he he'
      rw [← hkey]
      exact ⟨hr.safe h hhib, hr.insert_subset hlob (he ▸ hsub)⟩

end Insertion

section Erasure

/-- An entry goes, and its index with it if it was listed. -/
theorem removeCluster_safe (h : t.Safe b A) (hhi : hi.toNat < 2 ^ b) (hlo : lo.toNat < 2 ^ b)
    (hentries : t'.entryAt = Function.update t.entryAt hi o) (hsum : t'.summary = t.summary) :
    (t'.removeCluster hi).Returns fun t'' => t''.Safe b A ∧
      t''.view.shown b ⊆ t.view.shown b \ {hi.toNat * 2 ^ b + lo.toNat} := by
  refine (Resilient.erase_safe (hsum ▸ h.summary) hhi).bind fun s hs => returns_pure.mpr ?_
  have hr : Updates b A t hi none
      (⟨s, FlatMap.erase t'.clusters hi⟩ : SparseBranch b w c M C) := by
    refine ⟨?_, by rintro _ ⟨⟩, hs.1⟩
    have herase : (⟨t'.summary, FlatMap.erase t'.clusters hi⟩ :
      SparseBranch b w c M C).entryAt = _ := entryAt_erase (t := t')
    rw [hentries, Function.update_idem] at herase
    exact herase
  exact ⟨hr.safe h hhi, hr.shown_sdiff hlo (entryShown_none (c := c) (C := C) ▸ Set.empty_subset _)⟩

theorem erase_safe [Widths b w c] (h : t.Safe b A) (hk : key.toNat < 2 ^ (2 * b)) :
    (t.erase key).Returns fun t' => t'.Safe b A ∧
      t'.view.shown b ⊆ t.view.shown b \ {key.toNat} := by
  have hhi : (hiPart b key : BitVec c).toNat = key.toNat / 2 ^ b :=
    toNat_hiPart c (Resilient.bits_le C) hk
  have hlo : (loPart b key : BitVec c).toNat = key.toNat % 2 ^ b :=
    toNat_loPart_of_resilient C key
  have hhib : (hiPart b key : BitVec c).toNat < 2 ^ b := hhi ▸ div_lt_of_lt hk
  have hlob : (loPart b key : BitVec c).toNat < 2 ^ b := hlo ▸ Nat.mod_lt _ (pow_pos_two b)
  rw [show key.toNat = (hiPart b key : BitVec c).toNat * 2 ^ b + (loPart b key : BitVec c).toNat by
    rw [hhi, hlo, split_eq]]
  have hrefl := Updates.refl h (hiPart b key)
  unfold erase
  dsimp only
  cases he : t.entryAt (hiPart b key) with
  | none =>
    rw [show FlatMap.find t.clusters (hiPart b key) = none from he]
    refine returns_pure.mpr ⟨h, hrefl.shown_sdiff hlob ?_⟩
    rw [he, entryShown_none]
    exact Set.empty_subset _
  | some e =>
    rw [show FlatMap.find t.clusters (hiPart b key) = some e from he]
    dsimp only
    have hsafe := (h.entry _ e he).2
    cases hil : e.inlineOnly with
    | true =>
      rw [if_pos rfl]
      split
      next hv =>
        refine returns_pure.mpr ⟨h, hrefl.shown_sdiff hlob ?_⟩
        rw [he, entryShown_inline hil]
        rintro _ rfl
        exact ⟨rfl, fun heq => hv (BitVec.eq_of_toNat_eq heq)⟩
      next =>
        exact removeCluster_safe h hhib hlob (Function.update_eq_self _ t.entryAt).symm rfl
    | false =>
      obtain ⟨x, hx⟩ := hsafe.present hil
      rw [if_neg (by simp), hx]
      refine (Resilient.erase_safe (hsafe.child x hx) hlob).bind ?_
      rintro y ⟨hy, hsub⟩
      split
      next => exact removeCluster_safe h hhib hlob (entryAt_setEntry he) rfl
      next =>
        have hr := Updates.setEntry h he (hsafe.setChild hy)
        rw [hil] at hr
        refine returns_pure.mpr ⟨hr.safe h hhib, hr.shown_sdiff hlob ?_⟩
        rwa [he, entryShown_child rfl rfl, entryShown_child hil hx]

end Erasure

end Calls

omit [KeyWidths C] [Resilient C b] in
theorem forEachAll_eq (t : SparseBranch b w c M C) :
    VebNode.forEachAll t = VebNode.forEach t 0 := rfl

instance resilient [Widths b w c] [Fact (c ≤ w)] :
    Resilient (SparseBranch b w c M C) (2 * b) where
  cost := 1 + (Resilient.cost C + Resilient.costFull C)
  costFull := 1 + (Resilient.cost C + Resilient.costFull C)
  Closed := Closed b C
  Safe := Safe b
  shown t := t.view.shown b
  bits_le := Widths.double c
  closed_univ _ := ⟨Resilient.closed_univ, fun _ => trivial⟩
  shown_subset h := h.view_safe.shown_subset
  shown_lt h := h.view_safe.shown_lt
  fresh_safe := by
    refine ⟨Resilient.fresh_safe, fun hi e he => ?_⟩
    simp [entryAt, VebNode.fresh, FlatMap.find_empty] at he
  shown_fresh := by
    refine Set.eq_empty_iff_forall_notMem.mpr ?_
    rintro k ⟨cl, hcl, _⟩
    simp [view_cluster, cluster, entryAt, VebNode.fresh, FlatMap.find_empty] at hcl
  insert_safe {A t key m n} hA h hkA hk hn := by
    obtain rfl : n = _ := hn.elim id And.left
    exact insert_settles hA h hkA hk
  erase_safe := erase_safe
  contains_safe {A t key} h hk := by
    change (contains _ _).Returns _
    rw [contains_eq, toNat_hiPart c (Resilient.bits_le C) hk]
    exact h.view_safe.contains_safe (toNat_loPart_of_resilient C key)
  min_safe h := by
    change (SparseBranch.min _).Defined _
    rw [min_eq]
    exact h.view_safe.min_safe
  max_safe h := by
    change (SparseBranch.max _).Defined _
    rw [max_eq]
    exact h.view_safe.max_safe
  successor_safe {A t key} h hk := by
    change (successor _ _).Defined _
    by_cases he : VebNode.empty t.summary = true
    · rw [successor, if_pos he]
      exact (returns_pure.mpr (by rintro _ ⟨⟩)).defined
    · by_cases hmax : maxKey (2 * b) w ≤ key
      · rw [successor, if_neg he, if_pos hmax]
        exact (returns_pure.mpr (by rintro _ ⟨⟩)).defined
      · rw [successor_eq t he hmax]
        exact h.view_safe.successor_safe hk (toNat_hiPart c (Resilient.bits_le C) hk)
          (toNat_loPart_of_resilient C key)
  predecessor_safe {A t key} h hk := by
    change (predecessor _ _).Defined _
    by_cases he : VebNode.empty t.summary = true
    · rw [predecessor, if_pos he]
      exact (returns_pure.mpr (by rintro _ ⟨⟩)).defined
    · by_cases h0 : key = 0
      · rw [predecessor, if_neg he, if_pos (Or.inl h0)]
        exact (returns_pure.mpr (by rintro _ ⟨⟩)).defined
      · have hmax : ¬ maxKey (2 * b) w < key := by
          rw [BitVec.not_lt, le_maxKey_iff (Widths.double c) (Widths.key b c)]
          exact hk
        rw [predecessor_eq t he h0 hmax]
        exact h.view_safe.predecessor_safe hk (toNat_hiPart c (Resilient.bits_le C) hk)
          (toNat_loPart_of_resilient C key)
  forEachAll_eq := forEachAll_eq
  forEach_safe {A t p} h hp := by
    change (forEach _ _).Returns _
    rw [forEach_eq]
    exact h.view_safe.forEach_safe hp

end SparseBranch

end ParvEB
