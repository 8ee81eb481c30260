import ParvEB.Compact

/-! Which sets of keys `for_each` and `to_vector` list exactly. -/
namespace ParvEB

open Outcome

/-- A set of keys behind a prefix that a branch lists exactly when it has been built by insertions:
the indices are themselves such a set, and so is what two keys or more have below one index, behind
a prefix that the `Key` of a child holds. -/
def ClustersFit (b c : ℕ) (Below : Set ℕ → ℕ → Prop) (S : Set ℕ) (p : ℕ) : Prop :=
  Below (heads (· / 2 ^ b) S) 0 ∧ ∀ i, (fibre (· / 2 ^ b) (· % 2 ^ b) S i).Nontrivial →
    p + i * 2 ^ b < 2 ^ c ∧ Below (fibre (· / 2 ^ b) (· % 2 ^ b) S i) (p + i * 2 ^ b)

/-- A node type whose traversal is exact, when it is built by insertions, for the sets that `Keys`
admits. -/
class LawfulExactness (T : Type) {w : outParam ℕ} [VebNode T w] {bits : outParam ℕ}
    [LawfulVeb T bits] [LawfulShape T] [LawfulCompact T] [LawfulTraversal T] where
  Keys : Set ℕ → ℕ → Prop
  keys_of_fits {t : T} {p : ℕ} : LawfulVeb.Inv False t → LawfulTraversal.Fits t p →
    Keys (LawfulVeb.keys t) p
  fits_of_keys {t : T} {p : ℕ} : LawfulVeb.Inv False t → LawfulCompact.Compact t →
    Keys (LawfulVeb.keys t) p → LawfulTraversal.Fits t p

instance : LawfulExactness VebLeaf6 := ⟨fun _ _ => True, fun _ _ => trivial, fun _ _ _ => trivial⟩
instance : LawfulExactness VebLeaf8 := ⟨fun _ _ => True, fun _ _ => trivial, fun _ _ _ => trivial⟩

variable {b w c : ℕ} {C : Type} [VebNode C c] [LawfulVeb C b]

namespace View

variable {v : View c C} {i p : ℕ}

/-- Two keys under one index are those of a child. -/
theorem Inv.child_of_nontrivial (hv : v.Inv b False)
    (h : (fibre (· / 2 ^ b) (· % 2 ^ b) (v.keys b) i).Nontrivial) :
    ∃ x, v.cluster i = some (.child x) ∧
      fibre (· / 2 ^ b) (· % 2 ^ b) (v.keys b) i = LawfulVeb.keys x := by
  rw [hv.keysAt_eq] at h ⊢
  cases hcl : v.cluster i with
  | none =>
    obtain ⟨x, ⟨cl, hcl', _⟩, _⟩ := h
    rw [hcl] at hcl'
    cases hcl'
  | some cl =>
    rw [keysAt_some hcl] at h ⊢
    cases cl with
    | inline u => exact (Set.not_nontrivial_singleton h).elim
    | child x => exact ⟨x, rfl, rfl⟩

variable [LawfulShape C] [LawfulCompact C] [LawfulTraversal C] [LawfulExactness C]

theorem Inv.keys_of_fits (hv : v.Inv b False) (h : v.Fits b p) :
    ClustersFit b c (LawfulExactness.Keys C) (v.keys b) p := by
  refine ⟨?_, fun i hi => ?_⟩
  · rw [hv.heads_keys]
    exact LawfulExactness.keys_of_fits hv.summary h.1
  · obtain ⟨x, hcl, hkeys⟩ := hv.child_of_nontrivial hi
    obtain ⟨hlt, hfit⟩ := h.2 i x hcl
    rw [hkeys]
    exact ⟨hlt, LawfulExactness.keys_of_fits (hv.cluster i _ hcl).1 hfit⟩

theorem Compact.fits_of_keys (hc : v.Compact b) (hv : v.Inv b False)
    (h : ClustersFit b c (LawfulExactness.Keys C) (v.keys b) p) : v.Fits b p := by
  refine ⟨?_, fun i x hcl => ?_⟩
  · refine LawfulExactness.fits_of_keys hv.summary hc.summary ?_
    rw [← hv.heads_keys]
    exact h.1
  · obtain ⟨hxc, hne⟩ := hc.cluster i _ hcl
    have hfibre : fibre (· / 2 ^ b) (· % 2 ^ b) (v.keys b) i = LawfulVeb.keys x :=
      hv.fibre_keys hcl
    obtain ⟨hlt, hkeys⟩ := h.2 i (hfibre ▸ hne)
    exact ⟨hlt, LawfulExactness.fits_of_keys (hv.cluster i _ hcl).1 hxc (hfibre ▸ hkeys)⟩

end View

section Branches

variable {inl : Bool} {M : ℕ → Type → Type} [FlatMap M] [Widths b w c] [LawfulShape C]
  [LawfulCompact C] [LawfulTraversal C] [LawfulExactness C]

instance DenseBranch.exactness : LawfulExactness (DenseBranch b w c inl C) where
  Keys := ClustersFit b c (LawfulExactness.Keys C)
  keys_of_fits h hfit :=
    (h.view_inv (Widths.fan w c)).keys_of_fits ((DenseBranch.fits_iff h).mp hfit)
  fits_of_keys h hc hkeys :=
    (DenseBranch.fits_iff h).mpr (hc.fits_of_keys (h.view_inv (Widths.fan w c)) hkeys)

instance SparseBranch.exactness : LawfulExactness (SparseBranch b w c M C) where
  Keys := ClustersFit b c (LawfulExactness.Keys C)
  keys_of_fits h hfit := h.view_inv.keys_of_fits (SparseBranch.fits_iff.mp hfit)
  fits_of_keys h hc hkeys := SparseBranch.fits_iff.mpr (hc.fits_of_keys h.view_inv hkeys)

end Branches

section Levels

variable {M : ℕ → Type → Type} [FlatMap M]

def keysFit12 : Set ℕ → ℕ → Prop := ClustersFit 6 8 fun _ _ => True
def keysFit16 : Set ℕ → ℕ → Prop := ClustersFit 8 16 fun _ _ => True

/-- The sets of keys that a tree lists exactly when it has been built by insertions. -/
def Tree.KeysFit : Tree → Set ℕ → Prop
  | veb24, S => ClustersFit 12 16 keysFit12 S 0
  | veb32, S => ClustersFit 16 16 keysFit16 S 0
  | veb48, S => ClustersFit 24 32 (ClustersFit 12 16 keysFit12) S 0
  | veb64, S => ClustersFit 32 32 (ClustersFit 16 16 keysFit16) S 0

instance : LawfulExactness VebBranch12 := DenseBranch.exactness
instance : LawfulExactness VebBranch16 := DenseBranch.exactness

instance : (T : Tree) → LawfulExactness (T.State M)
  | .veb24 => (inferInstance : LawfulExactness VebTop24)
  | .veb32 => (inferInstance : LawfulExactness VebTop32)
  | .veb48 => (inferInstance : LawfulExactness (VebBranch48 M))
  | .veb64 => (inferInstance : LawfulExactness (VebBranch64 M))

namespace Tree

variable {T : Tree} {t : T.State M} {S : Set ℕ}

theorem keys_iff : LawfulExactness.Keys (T.State M) S 0 ↔ T.KeysFit S := by
  cases T <;> exact Iff.rfl

theorem keysFit_of_listsExactly (h : LawfulVeb.Inv False t) (hl : ListsExactly t) :
    T.KeysFit (LawfulVeb.keys t) :=
  keys_iff.mp (LawfulExactness.keys_of_fits h (fits_iff.mpr ((listsExactly_iff h).mp hl)))

theorem listsExactly_of_keysFit (h : LawfulVeb.Inv False t) (hc : LawfulCompact.Compact t)
    (hk : T.KeysFit (LawfulVeb.keys t)) : ListsExactly t :=
  (listsExactly_iff h).mpr (fits_iff.mp (LawfulExactness.fits_of_keys h hc (keys_iff.mpr hk)))

theorem prefixFits_iff (h : LawfulVeb.Inv False t) (hc : LawfulCompact.Compact t) :
    T.PrefixFits t ↔ T.KeysFit (LawfulVeb.keys t) :=
  (listsExactly_iff h).symm.trans ⟨keysFit_of_listsExactly h, listsExactly_of_keysFit h hc⟩

end Tree

end Levels

section Numbers

variable {S : Set ℕ} {n i : ℕ}

theorem nontrivial_fibre_iff : (fibre (· / n) (· % n) S i).Nontrivial ↔
    ∃ k ∈ S, ∃ k' ∈ S, k ≠ k' ∧ k / n = i ∧ k' / n = i := by
  constructor
  · rintro ⟨_, ⟨k, ⟨hk, hki⟩, rfl⟩, _, ⟨k', ⟨hk', hki'⟩, rfl⟩, hne⟩
    exact ⟨k, hk, k', hk', fun he => hne (congrArg (· % n) he), hki, hki'⟩
  · rintro ⟨k, hk, k', hk', hne, hki, hki'⟩
    refine ⟨k % n, ⟨k, ⟨hk, hki⟩, rfl⟩, k' % n, ⟨k', ⟨hk', hki'⟩, rfl⟩, fun he => hne ?_⟩
    rw [← Nat.div_add_mod k n, ← Nat.div_add_mod k' n, hki, hki', he]

theorem forall_toNat {ks : List (BitVec w)} {P : ℕ → ℕ → Prop} :
    (∀ k ∈ {n | n ∈ ks.map BitVec.toNat}, ∀ k' ∈ {n | n ∈ ks.map BitVec.toNat}, P k k') ↔
      ∀ k ∈ ks, ∀ k' ∈ ks, P k.toNat k'.toNat := by
  simp only [Set.mem_ofPred_eq, List.forall_mem_map]

theorem forall_toNat_ne {ks : List (BitVec w)} {P : ℕ → ℕ → Prop} :
    (∀ k ∈ {n | n ∈ ks.map BitVec.toNat}, ∀ k' ∈ {n | n ∈ ks.map BitVec.toNat}, k ≠ k' → P k k') ↔
      ∀ k ∈ ks, ∀ k' ∈ ks, k ≠ k' → P k.toNat k'.toNat := by
  rw [forall_toNat]
  simp only [ne_eq, BitVec.toNat_inj]

/-- Two keys of one block of `2 ^ 16` are listed exactly in the first block only. -/
theorem keysFit_veb32_iff (hS : ∀ k ∈ S, k < 2 ^ 32) : Tree.veb32.KeysFit S ↔
    ∀ k ∈ S, ∀ k' ∈ S, k ≠ k' → k / 2 ^ 16 = k' / 2 ^ 16 → k < 2 ^ 16 := by
  constructor
  · rintro ⟨_, hfib⟩ k hk k' hk' hne he
    have := (hfib (k / 2 ^ 16) (nontrivial_fibre_iff.mpr ⟨k, hk, k', hk', hne, rfl, he.symm⟩)).1
    omega
  · intro h
    refine ⟨⟨trivial, fun i hi => ⟨?_, trivial⟩⟩, fun i hi => ?_⟩
    · obtain ⟨_, ⟨k, hk, rfl⟩, _, _, _, hki, _⟩ := nontrivial_fibre_iff.mp hi
      have := hS k hk
      dsimp only at hki
      omega
    · obtain ⟨k, hk, k', hk', hne, hki, hki'⟩ := nontrivial_fibre_iff.mp hi
      have := h k hk k' hk' hne (hki.trans hki'.symm)
      refine ⟨by omega, trivial, fun j hj => ⟨?_, trivial⟩⟩
      obtain ⟨_, ⟨x, _, rfl⟩, _, _, _, hxj, _⟩ := nontrivial_fibre_iff.mp hj
      dsimp only at hxj
      omega

/-- The prefixes of `VebTree24` fit for three reasons: keys of two clusters whose indices share a
leaf of the summary, two keys of one cluster, and two keys of one leaf are all small enough. -/
theorem keysFit_veb24_iff : Tree.veb24.KeysFit S ↔
    (∀ k ∈ S, ∀ k' ∈ S, k / 2 ^ 12 ≠ k' / 2 ^ 12 → k / 2 ^ 18 = k' / 2 ^ 18 → k < 2 ^ 20) ∧
      (∀ k ∈ S, ∀ k' ∈ S, k ≠ k' → k / 2 ^ 12 = k' / 2 ^ 12 → k < 2 ^ 16) ∧
        ∀ k ∈ S, ∀ k' ∈ S, k ≠ k' → k / 2 ^ 6 = k' / 2 ^ 6 → k < 2 ^ 8 := by
  constructor
  · rintro ⟨⟨_, hheads⟩, hfib⟩
    refine ⟨fun k hk k' hk' hne he => ?_, fun k hk k' hk' hne he => ?_,
      fun k hk k' hk' hne he => ?_⟩
    · have hlt := (hheads (k / 2 ^ 12 / 2 ^ 6) (nontrivial_fibre_iff.mpr
        ⟨k / 2 ^ 12, ⟨k, hk, rfl⟩, k' / 2 ^ 12, ⟨k', hk', rfl⟩, hne, rfl, by omega⟩)).1
      omega
    · have hlt := (hfib (k / 2 ^ 12) (nontrivial_fibre_iff.mpr
        ⟨k, hk, k', hk', hne, rfl, he.symm⟩)).1
      omega
    · have hlow := (hfib (k / 2 ^ 12) (nontrivial_fibre_iff.mpr
        ⟨k, hk, k', hk', hne, rfl, by omega⟩)).2.2
      have hlt := (hlow (k % 2 ^ 12 / 2 ^ 6) (nontrivial_fibre_iff.mpr
        ⟨k % 2 ^ 12, ⟨k, ⟨hk, rfl⟩, rfl⟩, k' % 2 ^ 12, ⟨k', ⟨hk', by dsimp only; omega⟩, rfl⟩,
          by omega, rfl, by omega⟩)).1
      omega
  · rintro ⟨hindex, hcluster, hleaf⟩
    refine ⟨⟨trivial, fun i hi => ⟨?_, trivial⟩⟩,
      fun i hi => ⟨?_, trivial, fun j hj => ⟨?_, trivial⟩⟩⟩
    · obtain ⟨_, ⟨k, hk, rfl⟩, _, ⟨k', hk', rfl⟩, hne, hki, hki'⟩ := nontrivial_fibre_iff.mp hi
      dsimp only at hne hki hki'
      have := hindex k hk k' hk' hne (by omega)
      omega
    · obtain ⟨k, hk, k', hk', hne, hki, hki'⟩ := nontrivial_fibre_iff.mp hi
      have := hcluster k hk k' hk' hne (hki.trans hki'.symm)
      omega
    · obtain ⟨_, ⟨k, ⟨hk, hki⟩, rfl⟩, _, ⟨k', ⟨hk', hki'⟩, rfl⟩, hne, hkj, hkj'⟩ :=
        nontrivial_fibre_iff.mp hj
      dsimp only at hki hki' hne hkj hkj'
      have := hleaf k hk k' hk' (fun he => hne (by rw [he])) (by omega)
      omega

end Numbers

section Runs

variable (M : ℕ → Type → Type) [FlatMap M] (T : Tree)

/-- Which keys are stored decides whether the traversal is exact, as long as no child is down to one
key. When one is, the traversal may fail for keys that fit, but never the other way. -/
theorem listsExactly_keys (ops : List (Op T.width)) (hops : T.InRange ops) :
    (run (VebNode.fresh : T.State M) ops).Returns fun t =>
      (Tree.ListsExactly t → T.KeysFit (BitVec.toNat '' {k | Tree.Stored t k})) ∧
        (LawfulCompact.Compact t →
          (Tree.ListsExactly t ↔ T.KeysFit (BitVec.toNat '' {k | Tree.Stored t k}))) := by
  refine (Tree.run_fresh hops).mono ?_
  rintro t ⟨h, _⟩
  rw [Tree.image_stored h]
  exact ⟨Tree.keysFit_of_listsExactly h, fun hc =>
    ⟨Tree.keysFit_of_listsExactly h, Tree.listsExactly_of_keysFit h hc⟩⟩

theorem listsExactly_keys_after_erasure :
    (run (VebNode.fresh : Tree.veb32.State FunMap)
      [.insert 65536, .insert 65537, .erase 65537]).Returns fun t =>
        (Tree.ListsExactly t → Tree.veb32.KeysFit (BitVec.toNat '' {k | Tree.Stored t k})) ∧
          (LawfulCompact.Compact t →
            (Tree.ListsExactly t ↔
              Tree.veb32.KeysFit (BitVec.toNat '' {k | Tree.Stored t k}))) :=
  listsExactly_keys FunMap .veb32 _ (by decide)

/-- After insertions alone the keys decide. -/
theorem listsExactly_insertions {ks : List (BitVec T.width)} (hks : T.InRange (ks.map .insert)) :
    (run (VebNode.fresh : T.State M) (ks.map .insert)).Returns fun t =>
      Tree.ListsExactly t ↔ T.KeysFit {n | n ∈ ks.map BitVec.toNat} := by
  have hle : ∀ k ∈ ks, k ≤ T.maxKey := fun k hk => hks _ (List.mem_map_of_mem hk)
  refine (Tree.compact_insertions hle).mono ?_
  rintro t ⟨h, hc, hkeys⟩
  rw [← show LawfulVeb.keys t = {n | n ∈ ks.map BitVec.toNat} from Set.ext hkeys]
  exact ⟨Tree.keysFit_of_listsExactly h, Tree.listsExactly_of_keysFit h hc⟩

/-- `VebTree32` lists what insertions built exactly when no two keys above the first block of
`2 ^ 16` are in one block. -/
theorem listsExactly_insertions_32 (ks : List (BitVec 32)) :
    (run (VebNode.fresh : Tree.veb32.State M) (ks.map .insert)).Returns fun t =>
      Tree.ListsExactly t ↔ ∀ k ∈ ks, ∀ k' ∈ ks, k ≠ k' →
        k.toNat / 2 ^ 16 = k'.toNat / 2 ^ 16 → k.toNat < 2 ^ 16 := by
  have hks : Tree.veb32.InRange (ks.map .insert) := fun o _ =>
    (Tree.le_maxKey (T := .veb32)).mpr o.key.isLt
  refine (listsExactly_insertions M .veb32 hks).mono fun t ht => ht.trans ?_
  rw [keysFit_veb32_iff]
  · exact forall_toNat_ne
  · intro n hn
    obtain ⟨k, _, rfl⟩ := List.mem_map.mp hn
    exact k.isLt

theorem listsExactly_insertions_24 {ks : List (BitVec 32)}
    (hks : Tree.veb24.InRange (ks.map .insert)) :
    (run (VebNode.fresh : Tree.veb24.State M) (ks.map .insert)).Returns fun t =>
      Tree.ListsExactly t ↔
        (∀ k ∈ ks, ∀ k' ∈ ks, k.toNat / 2 ^ 12 ≠ k'.toNat / 2 ^ 12 →
          k.toNat / 2 ^ 18 = k'.toNat / 2 ^ 18 → k.toNat < 2 ^ 20) ∧
        (∀ k ∈ ks, ∀ k' ∈ ks, k ≠ k' →
          k.toNat / 2 ^ 12 = k'.toNat / 2 ^ 12 → k.toNat < 2 ^ 16) ∧
        ∀ k ∈ ks, ∀ k' ∈ ks, k ≠ k' →
          k.toNat / 2 ^ 6 = k'.toNat / 2 ^ 6 → k.toNat < 2 ^ 8 := by
  refine (listsExactly_insertions M .veb24 hks).mono fun t ht => ht.trans ?_
  rw [keysFit_veb24_iff]
  exact and_congr forall_toNat (and_congr forall_toNat_ne forall_toNat_ne)

theorem listsExactly_after_insertions_24 :
    (run (VebNode.fresh : Tree.veb24.State FunMap) ([1, 2, 7000].map .insert)).Returns fun t =>
      Tree.ListsExactly t ↔
        (∀ k ∈ ([1, 2, 7000] : List (BitVec 32)), ∀ k' ∈ ([1, 2, 7000] : List (BitVec 32)),
          k.toNat / 2 ^ 12 ≠ k'.toNat / 2 ^ 12 →
            k.toNat / 2 ^ 18 = k'.toNat / 2 ^ 18 → k.toNat < 2 ^ 20) ∧
        (∀ k ∈ ([1, 2, 7000] : List (BitVec 32)), ∀ k' ∈ ([1, 2, 7000] : List (BitVec 32)),
          k ≠ k' → k.toNat / 2 ^ 12 = k'.toNat / 2 ^ 12 → k.toNat < 2 ^ 16) ∧
        ∀ k ∈ ([1, 2, 7000] : List (BitVec 32)), ∀ k' ∈ ([1, 2, 7000] : List (BitVec 32)),
          k ≠ k' → k.toNat / 2 ^ 6 = k'.toNat / 2 ^ 6 → k.toNat < 2 ^ 8 :=
  listsExactly_insertions_24 FunMap (by decide)

end Runs

end ParvEB
