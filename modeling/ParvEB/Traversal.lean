import ParvEB.Answers
import ParvEB.ViewTraversal

/-! When `for_each` and `to_vector` are exact. -/
namespace ParvEB

open Outcome

section Lists

variable {c : ℕ} {visit visit' : BitVec c → Outcome (List ℕ)} {L : List ℕ}

theorem emitAll_congr (h : ∀ i ∈ L, visit (BitVec.ofNat c i) = visit' (BitVec.ofNat c i)) :
    emitAll visit L = emitAll visit' L := by
  induction L with
  | nil => rfl
  | cons i L ih =>
    obtain ⟨hi, hL⟩ := List.forall_mem_cons.mp h
    rw [emitAll, emitAll, hi, ih hL]

end Lists

section Fresh

variable {b c : ℕ} {C : Type} [VebNode C c] [LawfulVeb C b] [LawfulTraversal C]

/-- There is nothing to lose in an empty node. -/
theorem fits_fresh : LawfulTraversal.Fits (VebNode.fresh : C) 0 ∧
    VebNode.forEachAll (VebNode.fresh : C) = pure [] := by
  have hinv : LawfulVeb.Inv True (VebNode.fresh : C) := LawfulVeb.fresh_inv
  have hzero : (0 : BitVec c).toNat % 2 ^ b = 0 := by simp
  obtain ⟨l, hl, _, hfits, hloses⟩ := LawfulTraversal.forEach_spec hinv hzero
  have hzero' : (0 : BitVec c).toNat = 0 := by simp
  rw [hzero', LawfulVeb.keys_fresh] at hfits hloses
  have hfit : LawfulTraversal.Fits (VebNode.fresh : C) 0 := by
    by_contra hnot
    obtain ⟨x, hx, _⟩ := hloses hnot
    exact hx
  rw [LawfulTraversal.forEachAll_eq, hl, emits_empty (hfits hfit)]
  exact ⟨hfit, rfl⟩

end Fresh

namespace DenseBranch

variable {b w c : ℕ} {inl : Bool} {C : Type}

/-- The summary, listed from prefix zero, and every child, from the prefix it is given, can be
traversed, and that prefix fits the `Key` of the child. -/
def PrefixFits (Fits : C → ℕ → Prop) (t : DenseBranch b w c inl C) (p : ℕ) : Prop :=
  (∀ s, t.summary = some s → Fits s 0) ∧
    ∀ i : Fin (2 ^ b), t.clusterMask.has i = true → ∀ x, (t.clusters i).get inl = some x →
      p + i * 2 ^ b < 2 ^ c ∧ Fits x (p + i * 2 ^ b)

variable [VebNode C c] [LawfulVeb C b] [Widths b w c] {lax : Prop} {t : DenseBranch b w c inl C}

theorem visit_eq (h : t.Inv lax) {idx : BitVec c} (hidx : idx.toNat < 2 ^ b) (pfx : BitVec w) :
    t.visit pfx idx = t.view.visit b w pfx idx := by
  have hc : c ≤ 32 := Widths.child b w
  have hn : (idx.setWidth 32).toNat = idx.toNat := toNat_setWidth_of_le hc
  have hlt : (idx.setWidth 32).toNat < 2 ^ b := hn ▸ hidx
  have hwide : (idx.setWidth 32).setWidth w = idx.setWidth w := by
    apply BitVec.eq_of_toNat_eq
    exact (BitVec.toNat_setWidth ..).trans (by rw [hn, BitVec.toNat_setWidth])
  unfold visit View.visit
  dsimp only
  rw [hwide, view_cluster, DenseBitset.test_eq (Widths.fan w c) hlt, pure_bind,
    arrayGet_of_lt hlt]
  cases hil : t.inlineMask.has (idx.setWidth 32).toNat with
  | true =>
    rw [← hn, cluster_inline hlt hil]
    rfl
  | false =>
    obtain ⟨p, hp, hcl⟩ := clusterPtr_eq h hlt hil
    rw [hp, ← hn, hcl, if_neg (by simp), pure_bind]
    cases p <;> rfl

variable [LawfulTraversal C]

theorem forEach_eq (h : t.Inv lax) (pfx : BitVec w) : t.forEach pfx = t.view.forEach b w pfx := by
  have hzero : (0 : BitVec c).toNat % 2 ^ b = 0 := by simp
  unfold forEach View.forEach view
  cases hs : t.summary with
  | none =>
    rw [Option.getD_none, fits_fresh.2]
    rfl
  | some s =>
    obtain ⟨L, hL, hlt, _⟩ := LawfulTraversal.forEach_spec (h.summary_some hs).1 hzero
    rw [Option.getD_some]
    dsimp only
    rw [LawfulTraversal.forEachAll_eq, hL, pure_bind, pure_bind]
    refine emitAll_congr fun i hi => ?_
    have hc : 2 ^ b ≤ 2 ^ c := Nat.pow_le_pow_right (by omega) (LawfulVeb.bits_le C)
    have hib : i < 2 ^ b := by simpa using hlt i hi
    rw [visit_eq h (by rw [BitVec.toNat_ofNat, Nat.mod_eq_of_lt (by omega)]; exact hib)]
    rfl

omit [Widths b w c] in
theorem fits_iff (h : t.Inv lax) {p : ℕ} :
    t.PrefixFits LawfulTraversal.Fits p ↔ t.view.Fits b p := by
  have hsum : (∀ s, t.summary = some s → LawfulTraversal.Fits s 0) ↔
      LawfulTraversal.Fits (t.summary.getD VebNode.fresh) 0 := by
    cases t.summary with
    | none => exact iff_of_true (by rintro _ ⟨⟩) fits_fresh.1
    | some s => simp
  refine and_congr hsum ?_
  constructor
  · intro hf i x hcl
    rw [view_cluster] at hcl
    unfold cluster at hcl
    split at hcl
    next hi =>
      obtain ⟨hil, hc, hx⟩ := SlotState.cluster_eq_child hcl
      exact hf ⟨i, hi⟩ hc x hx
    next => cases hcl
  · intro hf i hc x hx
    have hil : (t.slotAt i).inlineBit = false := (h.slot i).inlineBit_eq_false hc
    refine hf i x ?_
    rw [view_cluster, cluster_of_lt i.isLt]
    exact SlotState.cluster_child hil hc hx

instance traversal : LawfulTraversal (DenseBranch b w c inl C) where
  Fits := PrefixFits LawfulTraversal.Fits
  forEachAll_eq _ := rfl
  forEach_spec {_ t p} h hp := by
    have hspec := (h.view_inv (Widths.fan w c)).forEach_spec hp
    rw [← fits_iff h, ← forEach_eq h] at hspec
    exact hspec

end DenseBranch

namespace SparseBranch

variable {b w c : ℕ} {M : ℕ → Type → Type} {C : Type} [FlatMap M]

def PrefixFits (Fits : C → ℕ → Prop) (t : SparseBranch b w c M C) (p : ℕ) : Prop :=
  Fits t.summary 0 ∧
    ∀ (hi : BitVec c) e, FlatMap.find t.clusters hi = some e → e.inlineOnly = false →
      ∀ x, e.child = some x → p + hi.toNat * 2 ^ b < 2 ^ c ∧ Fits x (p + hi.toNat * 2 ^ b)

variable [VebNode C c] [LawfulVeb C b] {lax : Prop} {t : SparseBranch b w c M C}

omit [LawfulVeb C b] in
theorem visit_eq (t : SparseBranch b w c M C) (pfx : BitVec w) (idx : BitVec c) :
    t.visit pfx idx = t.view.visit b w pfx idx := by
  unfold visit View.visit
  dsimp only
  rw [view_cluster, cluster_toNat]
  dsimp only [entryAt]
  cases FlatMap.find t.clusters idx with
  | none => rfl
  | some e =>
    obtain ⟨il, v, x⟩ := e
    cases il with
    | true => rfl
    | false => cases x <;> rfl

omit [LawfulVeb C b] in
theorem forEach_eq (t : SparseBranch b w c M C) (pfx : BitVec w) :
    t.forEach pfx = t.view.forEach b w pfx := by
  rw [forEach, show t.visit pfx = t.view.visit b w pfx from funext fun idx => t.visit_eq pfx idx]
  rfl

variable [LawfulTraversal C]

theorem fits_iff {p : ℕ} : t.PrefixFits LawfulTraversal.Fits p ↔ t.view.Fits b p := by
  refine and_congr_right fun _ => ?_
  constructor
  · intro hf i x hcl
    rw [view_cluster] at hcl
    unfold cluster at hcl
    split at hcl
    next hi =>
      obtain ⟨e, he, hcl⟩ := Option.bind_eq_some_iff.mp hcl
      obtain ⟨hil, hx⟩ := ClusterEntry.cluster_eq_child hcl
      have := hf (BitVec.ofNat c i) e he hil x hx
      rwa [BitVec.toNat_ofNat, Nat.mod_eq_of_lt hi] at this
    next => cases hcl
  · intro hf hi e he hil x hx
    refine hf hi.toNat x ?_
    rw [view_cluster, cluster_toNat, show t.entryAt hi = some e from he, Option.bind_some]
    simp [ClusterEntry.cluster, hil, hx]

instance traversal [Widths b w c] : LawfulTraversal (SparseBranch b w c M C) where
  Fits := PrefixFits LawfulTraversal.Fits
  forEachAll_eq _ := rfl
  forEach_spec {_ t p} h hp := by
    have hspec := h.view_inv.forEach_spec hp
    rw [← fits_iff, ← forEach_eq] at hspec
    exact hspec

end SparseBranch

section Levels

variable {M : ℕ → Type → Type} [FlatMap M]

def prefixFits12 (t : VebBranch12) : ℕ → Prop := t.PrefixFits fun _ _ => True
def prefixFits16 (t : VebBranch16) : ℕ → Prop := t.PrefixFits fun _ _ => True
def prefixFits24 (t : VebBranch24 M) : ℕ → Prop := t.PrefixFits prefixFits12
def prefixFits32 (t : VebBranch32 M) : ℕ → Prop := t.PrefixFits prefixFits16

/-- Each prefix that a traversal of the whole tree computes, in children and in summaries, fits the
`Key` of the child that gets it. -/
def Tree.PrefixFits : (T : Tree) → T.State M → Prop
  | veb24, t => DenseBranch.PrefixFits prefixFits12 t 0
  | veb32, t => DenseBranch.PrefixFits prefixFits16 t 0
  | veb48, t => SparseBranch.PrefixFits prefixFits24 t 0
  | veb64, t => SparseBranch.PrefixFits prefixFits32 t 0

instance : LawfulTraversal VebBranch12 := DenseBranch.traversal
instance : LawfulTraversal VebBranch16 := DenseBranch.traversal
instance : LawfulTraversal VebTop24 := DenseBranch.traversal
instance : LawfulTraversal VebTop32 := DenseBranch.traversal
instance : LawfulTraversal (VebBranch24 M) := SparseBranch.traversal
instance : LawfulTraversal (VebBranch32 M) := SparseBranch.traversal
instance : LawfulTraversal (VebBranch48 M) := SparseBranch.traversal
instance : LawfulTraversal (VebBranch64 M) := SparseBranch.traversal

instance : (T : Tree) → LawfulTraversal (T.State M)
  | .veb24 => inferInstanceAs (LawfulTraversal VebTop24)
  | .veb32 => inferInstanceAs (LawfulTraversal VebTop32)
  | .veb48 => inferInstanceAs (LawfulTraversal (VebBranch48 M))
  | .veb64 => inferInstanceAs (LawfulTraversal (VebBranch64 M))

theorem Tree.fits_iff {T : Tree} {t : T.State M} : LawfulTraversal.Fits t 0 ↔ T.PrefixFits t := by
  cases T <;> exact Iff.rfl

end Levels

section Exactness

variable {M : ℕ → Type → Type} [FlatMap M] {T : Tree} {lax : Prop} {t : T.State M}

/-- `for_each` and `to_vector` list the stored keys, each once and in increasing order. -/
def Tree.ListsExactly (t : T.State M) : Prop :=
  ((VebNode.forEachAll t).Returns fun l => l.Pairwise (· < ·) ∧
    ∀ y, y ∈ l ↔ ∃ k, Tree.Stored t k ∧ k.toNat = y) ∧
  (toVector t).Returns fun l => l.Pairwise (· < ·) ∧ ∀ k, k ∈ l ↔ Tree.Stored t k

/-- Nothing is lost in the conversion to `Key`. -/
theorem pairwise_ofNat {w : ℕ} {l : List ℕ} (hl : l.Pairwise (· < ·)) (hlt : ∀ y ∈ l, y < 2 ^ w) :
    (l.map (BitVec.ofNat w)).Pairwise (· < ·) := by
  rw [List.pairwise_map]
  refine hl.imp_of_mem ?_
  intro y z hy hz hyz
  rw [BitVec.lt_def, BitVec.toNat_ofNat, BitVec.toNat_ofNat, Nat.mod_eq_of_lt (hlt y hy),
    Nat.mod_eq_of_lt (hlt z hz)]
  exact hyz

theorem Tree.listsExactly_iff (h : LawfulVeb.Inv lax t) :
    Tree.ListsExactly t ↔ T.PrefixFits t := by
  have hzero : (0 : BitVec T.width).toNat % 2 ^ T.bits = 0 := by simp
  have hzero' : (0 : BitVec T.width).toNat = 0 := by simp
  obtain ⟨l, hl, hlt, hfits, hloses⟩ := LawfulTraversal.forEach_spec h hzero
  rw [← LawfulTraversal.forEachAll_eq] at hl
  rw [hzero'] at hlt hfits hloses
  rw [← Tree.fits_iff]
  constructor
  · rintro ⟨⟨l', hl', _, hmem⟩, _⟩
    rw [hl, pure_inj] at hl'
    subst hl'
    by_contra hnot
    obtain ⟨x, hx, hlost, _⟩ := hloses hnot
    rw [Nat.zero_add] at hlost
    obtain ⟨k, hk, rfl⟩ := Tree.exists_stored h hx
    exact hlost ((hmem _).mpr ⟨k, hk, rfl⟩)
  · intro hfit
    obtain ⟨hsorted, hmem⟩ := hfits hfit
    have hlw : ∀ y ∈ l, y < 2 ^ T.width := by
      intro y hy
      have := Nat.pow_le_pow_right (show 0 < 2 by omega) T.bits_le
      have := hlt y hy
      omega
    have hstored : ∀ y, y ∈ l ↔ ∃ k, Tree.Stored t k ∧ k.toNat = y := by
      intro y
      rw [hmem]
      constructor
      · rintro ⟨x, hx, rfl⟩
        obtain ⟨k, hk, rfl⟩ := Tree.exists_stored h hx
        exact ⟨k, hk, (Nat.zero_add _).symm⟩
      · rintro ⟨k, hk, rfl⟩
        exact ⟨_, (Tree.stored_iff h).mp hk, (Nat.zero_add _).symm⟩
    refine ⟨⟨l, hl, hsorted, hstored⟩, l.map (BitVec.ofNat T.width), ?_,
      pairwise_ofNat hsorted hlw, fun k => ?_⟩
    · rw [toVector, hl, pure_bind]
    · rw [List.mem_map]
      constructor
      · rintro ⟨y, hy, rfl⟩
        obtain ⟨k, hk, rfl⟩ := (hstored y).mp hy
        rwa [BitVec.ofNat_toNat, BitVec.setWidth_eq]
      · intro hk
        exact ⟨k.toNat, (hstored _).mpr ⟨k, hk, rfl⟩, by simp⟩

end Exactness

section Runs

variable (M : ℕ → Type → Type) [FlatMap M] (T : Tree) (ops : List (Op T.width))

/-- The traversal is exact in just the states whose prefixes fit. -/
theorem listsExactly_after_run_iff (hops : T.InRange ops) :
    (run (VebNode.fresh : T.State M) ops).Returns fun t => Tree.ListsExactly t ↔ T.PrefixFits t :=
  (Tree.run_fresh hops).mono fun _ h => Tree.listsExactly_iff h.1

theorem listsExactly_after_two_insertions_iff :
    (run (VebNode.fresh : Tree.veb24.State FunMap) [.insert 1, .insert 2]).Returns fun t =>
      Tree.ListsExactly t ↔ Tree.PrefixFits .veb24 t :=
  listsExactly_after_run_iff FunMap .veb24 _ (by decide)

/-- Two keys above `2 ^ 16` in one cluster of `VebTree32` are listed as 0 and 1: the 16-bit prefix
of the child has lost their high part. -/
theorem toVector_truncates :
    Tree.veb32.InRange [.insert 65536, .insert 65537] ∧
      (run (VebNode.fresh : Tree.veb32.State FunMap)
        [.insert 65536, .insert 65537]).Returns fun t =>
        toVector t = pure [0, 1] ∧ VebNode.contains t 0 = pure false ∧ ¬ Tree.ListsExactly t := by
  have h : ((run (VebNode.fresh : Tree.veb32.State FunMap) [.insert 65536, .insert 65537]) >>=
      fun t => do
        let l ← toVector t
        let r ← VebNode.contains t 0
        pure (l, r)) = pure ([0, 1], false) := by decide +kernel
  obtain ⟨t, ht, h⟩ := bind_eq_pure.mp h
  obtain ⟨l, hl, h⟩ := bind_eq_pure.mp h
  obtain ⟨r, hr, h⟩ := bind_eq_pure.mp h
  obtain ⟨rfl, rfl⟩ := Prod.mk.inj (pure_inj.mp h)
  refine ⟨by decide, t, ht, hl, hr, ?_⟩
  rintro ⟨_, l, hl', _, hmem⟩
  rw [hl, pure_inj] at hl'
  subst hl'
  have hstored := ((hmem 0).mp (by simp)).2
  rw [hr, pure_inj] at hstored
  cases hstored

end Runs

end ParvEB
