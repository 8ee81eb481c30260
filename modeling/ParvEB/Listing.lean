import ParvEB.Failures
import ParvEB.OrderedSet

/-! Which number a traversal hands over for each key. -/
namespace ParvEB

open Outcome

section Lists

variable {l : List ℕ} {p q : ℕ} {S : Set ℕ}

theorem Emits.shift (h : Emits l 0 S) (q : ℕ) : Emits (l.map (q + ·)) q S := by
  refine ⟨h.1.map _ fun _ _ hlt => Nat.add_lt_add_left hlt q, fun y => ?_⟩
  rw [List.mem_map]
  constructor
  · rintro ⟨x, hx, rfl⟩
    obtain ⟨k, hk, rfl⟩ := (h.2 x).mp hx
    exact ⟨k, hk, by rw [Nat.zero_add]⟩
  · rintro ⟨k, hk, rfl⟩
    exact ⟨k, (h.2 k).mpr ⟨k, hk, (Nat.zero_add k).symm⟩, rfl⟩

/-- What is emitted behind a prefix is a list of keys behind it. -/
theorem Emits.exists_shift (h : Emits l p S) : ∃ ks, Emits ks 0 S ∧ l = ks.map (p + ·) := by
  have hback : ∀ y ∈ l, p + (y - p) = y := by
    intro y hy
    obtain ⟨x, _, rfl⟩ := (h.2 y).mp hy
    omega
  refine ⟨l.map (· - p), ⟨?_, fun y => ?_⟩, ?_⟩
  · rw [List.pairwise_map]
    refine h.1.imp_of_mem fun hy hz hlt => ?_
    have := hback _ hy
    have := hback _ hz
    omega
  · rw [List.mem_map]
    constructor
    · rintro ⟨z, hz, rfl⟩
      obtain ⟨x, hx, rfl⟩ := (h.2 z).mp hz
      exact ⟨x, hx, by omega⟩
    · rintro ⟨x, hx, rfl⟩
      exact ⟨p + x, (h.2 _).mpr ⟨x, hx, rfl⟩, by omega⟩
  · rw [List.map_map]
    exact (List.map_id l).symm.trans (List.map_congr_left fun y hy => (hback y hy).symm)

end Lists

/-- A node type whose traversal hands over one number for each key, in the order of the keys, as
long as it can list its summaries. -/
class LawfulListing (T : Type) {w : outParam ℕ} [VebNode T w] {bits : outParam ℕ}
    [LawfulVeb T bits] [KeyWidths T] where
  /-- The summaries, of children too, are listed whole. -/
  SummariesFit : T → Prop
  /-- What the callback gets, behind a prefix, for a key. -/
  handed : T → ℕ → ℕ → ℕ
  forEach_list {lax : Prop} {t : T} {p : BitVec w} : LawfulVeb.Inv lax t → SummariesFit t →
    p.toNat % 2 ^ bits = 0 → (VebNode.forEach t p).Returns fun l =>
      ∃ ks, Emits ks 0 (LawfulVeb.keys t) ∧ l = ks.map (handed t p.toNat)
  handed_cut {lax : Prop} {t : T} {p k : ℕ} : LawfulVeb.Inv lax t → p < 2 ^ w →
    p % 2 ^ bits = 0 → k ∈ LawfulVeb.keys t →
      ∃ n ∈ KeyWidths.list T, handed t p k = (p + k) % 2 ^ n

/-- A prefix and a key behind it are a `Key`. -/
theorem prefix_add_lt {T : Type} {w bits : ℕ} [VebNode T w] [LawfulVeb T bits] {lax : Prop} {t : T}
    {p k : ℕ} (h : LawfulVeb.Inv lax t) (hlt : p < 2 ^ w) (hp : p % 2 ^ bits = 0)
    (hk : k ∈ LawfulVeb.keys t) : p + k < 2 ^ w := by
  have := add_pow_le hlt hp (LawfulVeb.bits_le T)
  have := LawfulVeb.key_lt h hk
  omega

/-- A traversal that loses nothing hands over the prefix and the key. -/
abbrev LawfulListing.ofExact {T : Type} {w bits : ℕ} [VebNode T w] [LawfulVeb T bits]
    [LawfulTraversal T] [KeyWidths T] (hw : w ∈ KeyWidths.list T)
    (hfits : ∀ (t : T) p, LawfulTraversal.Fits t p) : LawfulListing T where
  SummariesFit _ := True
  handed _ p k := p + k
  forEach_list {_ t p} h _ hp := by
    refine (LawfulTraversal.forEach_spec h hp).mono ?_
    rintro l ⟨_, hemits, _⟩
    exact (hemits (hfits t _)).exists_shift
  handed_cut h hlt hp hk := ⟨w, hw, (Nat.mod_eq_of_lt (prefix_add_lt h hlt hp hk)).symm⟩

instance : LawfulListing VebLeaf6 := .ofExact (List.mem_singleton_self 8) fun _ _ => trivial
instance : LawfulListing VebLeaf8 := .ofExact (List.mem_singleton_self 16) fun _ _ => trivial

namespace View

variable {b w c : ℕ} {C : Type} [VebNode C c] [LawfulVeb C b] [LawfulTraversal C]
  [KeyWidths C] [LawfulListing C] {lax : Prop} {v : View c C} {pfx : BitVec w} {i : ℕ}

def SummariesFit (b : ℕ) [LawfulVeb C b] [LawfulTraversal C] [LawfulListing C] (v : View c C) :
    Prop :=
  LawfulTraversal.Fits v.summary 0 ∧
    ∀ i x, v.cluster i = some (.child x) → LawfulListing.SummariesFit x

/-- An inline value is handed over whole. A child gets what its `Key` keeps of its prefix. -/
def handed (b : ℕ) [LawfulVeb C b] [LawfulListing C] (v : View c C) (p k : ℕ) : ℕ :=
  match v.cluster (k / 2 ^ b) with
  | some (.child x) => LawfulListing.handed x ((p + k / 2 ^ b * 2 ^ b) % 2 ^ c) (k % 2 ^ b)
  | _ => p + k

variable [Widths b w c]

omit [LawfulTraversal C] [KeyWidths C] [LawfulListing C] [Widths b w c] in
theorem Inv.keysAt_lt (hv : v.Inv b lax) {x : ℕ} (hx : x ∈ v.keysAt i) : x < 2 ^ b := by
  obtain ⟨cl, hcl, hx⟩ := hx
  exact (hv.cluster i cl hcl).key_lt hx

/-- The visit of one index lists the keys there. -/
theorem Inv.visit_list (hv : v.Inv b lax) (hfit : v.SummariesFit b)
    (hp : pfx.toNat % 2 ^ (2 * b) = 0) (hi : i < 2 ^ b) :
    ∃ ks, Emits ks 0 (v.keysAt i) ∧ v.visit b w pfx (BitVec.ofNat c i) =
      pure ((ks.map (i * 2 ^ b + ·)).map (v.handed b pfx.toNat)) := by
  have hbc : b ≤ c := LawfulVeb.bits_le C
  have hchild := toNat_childPfx hbc hp hi
  have hblock := block_mod (i := i) hp
  have hcw : 2 ^ b ≤ 2 ^ c := Nat.pow_le_pow_right (by omega) hbc
  have hidx : (BitVec.ofNat c i).toNat = i := by
    rw [BitVec.toNat_ofNat, Nat.mod_eq_of_lt (by omega)]
  unfold visit
  dsimp only
  rw [hidx]
  cases hcl : v.cluster i with
  | none =>
    refine ⟨[], ⟨List.Pairwise.nil, fun y => ?_⟩, rfl⟩
    simp [keysAt, hcl]
  | some cl =>
    rw [keysAt_some hcl]
    cases cl with
    | inline u =>
      have hval : u.toNat < 2 ^ b := hv.cluster i _ hcl
      have hsw : 2 ^ b ≤ 2 ^ w := by
        have := Widths.double (b := b) (w := w) c
        exact Nat.pow_le_pow_right (by omega) (by omega)
      have hvw : (u.setWidth w).toNat = u.toNat := toNat_setWidth_of_lt (by omega)
      have hor : ((pfx ||| (BitVec.ofNat c i).setWidth w <<< b) ||| u.setWidth w).toNat =
          pfx.toNat + (i * 2 ^ b + u.toNat) := by
        rw [toNat_or_of_mod (by rw [hchild]; exact hblock) (by omega), hchild, hvw, Nat.add_assoc]
      have hhanded : v.handed b pfx.toNat (i * 2 ^ b + u.toNat) =
          pfx.toNat + (i * 2 ^ b + u.toNat) := by
        rw [handed, split_div hval, hcl]
      refine ⟨[u.toNat], ?_, ?_⟩
      · exact (Nat.zero_add u.toNat) ▸ emits_singleton 0 u.toNat
      · rw [List.map_singleton, List.map_singleton, hhanded, ← hor]
    | child t =>
      have hn : ((pfx ||| (BitVec.ofNat c i).setWidth w <<< b).setWidth c).toNat =
          (pfx.toNat + i * 2 ^ b) % 2 ^ c := by
        rw [BitVec.toNat_setWidth, hchild]
      have hmod : ((pfx.toNat + i * 2 ^ b) % 2 ^ c) % 2 ^ b = 0 := by
        rw [Nat.mod_mod_of_dvd _ (Nat.pow_dvd_pow 2 hbc), hblock]
      obtain ⟨l, hl, ks, hks, rfl⟩ :=
        LawfulListing.forEach_list (hv.cluster i _ hcl).1 (hfit.2 i t hcl) (hn ▸ hmod)
      refine ⟨ks, hks, ?_⟩
      dsimp only
      rw [hl, hn, List.map_map]
      refine congrArg _ (List.map_congr_left fun x hx => ?_)
      obtain ⟨x', hx', rfl⟩ := (hks.2 x).mp hx
      have hlt : 0 + x' < 2 ^ b := by
        rw [Nat.zero_add]
        exact (hv.cluster i _ hcl).key_lt hx'
      rw [Function.comp_apply, handed, split_div hlt, split_mod hlt, hcl]

/-- The traversal of a branch whose summaries can be listed. -/
theorem Inv.forEach_list (hv : v.Inv b lax) (hfit : v.SummariesFit b)
    (hp : pfx.toNat % 2 ^ (2 * b) = 0) :
    (v.forEach b w pfx).Returns fun l =>
      ∃ ks, Emits ks 0 (v.keys b) ∧ l = ks.map (v.handed b pfx.toNat) := by
  have hzero : (0 : BitVec c).toNat % 2 ^ b = 0 := by simp
  have hzero' : (0 : BitVec c).toNat = 0 := by simp
  obtain ⟨L, hL, _, hemits, _⟩ := LawfulTraversal.forEach_spec hv.summary hzero
  rw [hzero'] at hemits
  have hindices := hemits hfit.1
  have hlt : ∀ i ∈ L, i < 2 ^ b := by
    intro i hi
    obtain ⟨x, hx, rfl⟩ := (hindices.2 i).mp hi
    rw [Nat.zero_add]
    exact LawfulVeb.key_lt hv.summary hx
  have hall : ∀ i, ∃ ks, i < 2 ^ b → Emits ks 0 (v.keysAt i) ∧
      v.visit b w pfx (BitVec.ofNat c i) =
        pure ((ks.map (i * 2 ^ b + ·)).map (v.handed b pfx.toNat)) := by
    intro i
    by_cases hi : i < 2 ^ b
    · obtain ⟨ks, hks⟩ := hv.visit_list hfit hp hi
      exact ⟨ks, fun _ => hks⟩
    · exact ⟨[], fun h => (hi h).elim⟩
  choose f hf using hall
  have hrun : v.forEach b w pfx = pure (L.flatMap fun i =>
      ((f i).map (i * 2 ^ b + ·)).map (v.handed b pfx.toNat)) := by
    rw [forEach, LawfulTraversal.forEachAll_eq, hL, pure_bind]
    exact emitAll_eq fun i hi => (hf i (hlt i hi)).2
  refine ⟨_, hrun, L.flatMap fun i => (f i).map (i * 2 ^ b + ·), ?_, List.map_flatMap.symm⟩
  have hblocks : ∀ i ∈ LawfulVeb.keys v.summary,
      Emits ((f i).map (i * 2 ^ b + ·)) (0 + i * 2 ^ b) (v.keysAt i) := by
    intro i hi
    rw [Nat.zero_add]
    exact (hf i (LawfulVeb.key_lt hv.summary hi)).1.shift _
  obtain ⟨hsorted, hmem⟩ := emits_flatMap hindices hblocks fun i _ x hx => hv.keysAt_lt hx
  refine ⟨hsorted, fun y => (hmem y).trans ?_⟩
  constructor
  · rintro ⟨i, _, x, ⟨cl, hcl, hx⟩, rfl⟩
    exact ⟨i * 2 ^ b + x, hv.mem_keys hcl hx, by omega⟩
  · rintro ⟨k, ⟨cl, hcl, hk⟩, rfl⟩
    refine ⟨k / 2 ^ b, (hv.mem_summary _).mpr (by simp [hcl]), k % 2 ^ b, ⟨cl, hcl, hk⟩, ?_⟩
    rw [Nat.add_assoc, split_eq]

omit [LawfulTraversal C] [Widths b w c] in
theorem Inv.handed_cut (hv : v.Inv b lax) {p k : ℕ}
    (hlt : p + k < 2 ^ w) (hp : p % 2 ^ (2 * b) = 0) (hk : k ∈ v.keys b) :
    ∃ n ∈ w :: KeyWidths.list C, v.handed b p k = (p + k) % 2 ^ n := by
  obtain ⟨cl, hcl, hx⟩ := hk
  unfold handed
  rw [hcl]
  cases cl with
  | inline u => exact ⟨w, List.mem_cons_self, (Nat.mod_eq_of_lt hlt).symm⟩
  | child x =>
    have hbc : b ≤ c := LawfulVeb.bits_le C
    have hmod : ((p + k / 2 ^ b * 2 ^ b) % 2 ^ c) % 2 ^ b = 0 := by
      rw [Nat.mod_mod_of_dvd _ (Nat.pow_dvd_pow 2 hbc), block_mod hp]
    obtain ⟨n, hn, he⟩ := LawfulListing.handed_cut (hv.cluster _ _ hcl).1
      (Nat.mod_lt _ (pow_pos_two c)) hmod hx
    have hdvd := Nat.pow_dvd_pow 2 (KeyWidths.list_le n hn)
    refine ⟨n, List.mem_cons_of_mem _ hn, ?_⟩
    dsimp only
    rw [he, Nat.add_mod, Nat.mod_mod_of_dvd _ hdvd, ← Nat.add_mod, Nat.add_assoc, split_eq]

end View

section Branches

variable {b w c : ℕ} {inl : Bool} {M : ℕ → Type → Type} {C : Type} [FlatMap M] [VebNode C c]
  [LawfulVeb C b] [LawfulTraversal C] [KeyWidths C] [LawfulListing C] [Widths b w c] [Fact (c ≤ w)]

instance DenseBranch.listing : LawfulListing (DenseBranch b w c inl C) where
  SummariesFit t := t.view.SummariesFit b
  handed t := t.view.handed b
  forEach_list {_ t p} h hfit hp := by
    have hlist := (h.view_inv (Widths.fan w c)).forEach_list hfit hp
    rw [← DenseBranch.forEach_eq h] at hlist
    exact hlist
  handed_cut h hlt hp hk :=
    (h.view_inv (Widths.fan w c)).handed_cut (prefix_add_lt h hlt hp hk) hp hk

instance SparseBranch.listing : LawfulListing (SparseBranch b w c M C) where
  SummariesFit t := t.view.SummariesFit b
  handed t := t.view.handed b
  forEach_list {_ t p} h hfit hp := by
    have hlist := h.view_inv.forEach_list hfit hp
    rw [← SparseBranch.forEach_eq] at hlist
    exact hlist
  handed_cut h hlt hp hk := h.view_inv.handed_cut (prefix_add_lt h hlt hp hk) hp hk

end Branches

section Levels

variable {M : ℕ → Type → Type} [FlatMap M]

instance : LawfulListing VebBranch12 := DenseBranch.listing
instance : LawfulListing VebBranch16 := DenseBranch.listing

instance : (T : Tree) → LawfulListing (T.State M)
  | .veb24 => (inferInstance : LawfulListing VebTop24)
  | .veb32 => (inferInstance : LawfulListing VebTop32)
  | .veb48 => (inferInstance : LawfulListing (VebBranch48 M))
  | .veb64 => (inferInstance : LawfulListing (VebBranch64 M))

namespace Tree

variable {T : Tree} {lax : Prop} {t : T.State M}

/-- The stored keys in order, and what the callback gets for each. -/
theorem forEach_list (h : LawfulVeb.Inv lax t) (hfit : LawfulListing.SummariesFit t) :
    ∃ ks : List (BitVec T.width), ks.Pairwise (· < ·) ∧ (∀ k, k ∈ ks ↔ Stored t k) ∧
      VebNode.forEachAll t = pure (ks.map fun k => LawfulListing.handed t 0 k.toNat) := by
  have hzero : (0 : BitVec T.width).toNat = 0 := by simp
  obtain ⟨l, hl, ns, hns, rfl⟩ :=
    LawfulListing.forEach_list h hfit (show (0 : BitVec T.width).toNat % 2 ^ T.bits = 0 by simp)
  rw [← LawfulTraversal.forEachAll_eq, hzero] at hl
  obtain ⟨ks, hsorted, hmem, rfl⟩ := Emits.exists_keys (p := (0 : BitVec T.width)) (hzero ▸ hns)
    (show (0 : BitVec T.width).toNat % 2 ^ T.bits = 0 by simp) T.bits_le
    fun _ hx => LawfulVeb.key_lt h hx
  refine ⟨ks, hsorted, fun k => (hmem k).trans (stored_iff h).symm, ?_⟩
  rw [hl, List.map_map]
  simp [Function.comp_def]

theorem handed_cut (h : LawfulVeb.Inv lax t) {k : BitVec T.width} (hk : Stored t k) :
    ∃ n ∈ T.keyWidths, LawfulListing.handed t 0 k.toNat = k.toNat % 2 ^ n := by
  obtain ⟨n, hn, he⟩ := LawfulListing.handed_cut h (Nat.two_pow_pos T.width)
    (Nat.zero_mod _) ((stored_iff h).mp hk)
  rw [keyWidths_eq] at hn
  exact ⟨n, hn, by rw [he, Nat.zero_add]⟩

end Tree

end Levels

section Top32

variable {t : VebTop32} {x : VebBranch16} {lax : Prop}

/-- Below 16 bits no prefix is too wide for a leaf. -/
theorem summariesFit_veb32 (t : VebTop32) : LawfulListing.SummariesFit t := by
  refine ⟨⟨fun _ _ => trivial, fun i _ _ _ => ⟨?_, trivial⟩⟩,
    fun _ _ _ => ⟨trivial, fun _ _ _ => trivial⟩⟩
  have hi := i.isLt
  omega

/-- A child of `VebTree32` gets the prefix zero: its keys are cut to 16 bits. -/
theorem handed_veb32 (h : LawfulVeb.Inv lax t) {k : ℕ} (hk : k ∈ LawfulVeb.keys t) :
    LawfulListing.handed t 0 k = if t.inlineMask.has (k / 2 ^ 16) then k else k % 2 ^ 16 := by
  have hv := DenseBranch.Inv.view_inv (Widths.fan 32 16) (show DenseBranch.Inv lax t from h)
  obtain ⟨cl, hcl, hx⟩ := hk
  have hslot : (t.slotAt ⟨k / 2 ^ 16, hv.index_lt hcl⟩).cluster = some cl := by
    rwa [DenseBranch.view_cluster, DenseBranch.cluster_of_lt (hv.index_lt hcl)] at hcl
  change t.view.handed 16 0 k = _
  unfold View.handed
  rw [hcl]
  cases cl with
  | inline u =>
    have hil : t.inlineMask.has (k / 2 ^ 16) = true :=
      (DenseBranch.SlotState.cluster_eq_inline hslot).1
    rw [if_pos hil]
    exact Nat.zero_add k
  | child x =>
    have hil : t.inlineMask.has (k / 2 ^ 16) = false :=
      (DenseBranch.SlotState.cluster_eq_child hslot).1
    have hwidths : KeyWidths.list VebBranch16 = [16, 16] := rfl
    obtain ⟨n, hn, he⟩ := LawfulListing.handed_cut (hv.cluster _ _ hcl).1
      (Nat.two_pow_pos 16) (Nat.zero_mod _) hx
    obtain rfl : n = 16 := by simpa [hwidths] using hn
    dsimp only
    rw [if_neg (ne_true_of_eq_false hil), Nat.zero_add, Nat.mul_mod_left, he, Nat.zero_add,
      Nat.mod_mod]

end Top32

section Runs

variable (M : ℕ → Type → Type) [FlatMap M] (T : Tree) (ops : List (Op T.width))

/-- As long as the summaries are listed whole, the callback is called once for each stored key, in
the order of the keys, with the key or what some `Key` of the tree keeps of it. -/
theorem listing_after_run (hops : T.InRange ops) :
    (run (VebNode.fresh : T.State M) ops).Returns fun t => LawfulListing.SummariesFit t →
      ∃ (ks : List (BitVec T.width)) (n : BitVec T.width → ℕ), ks.Pairwise (· < ·) ∧
        (∀ k, k ∈ ks ↔ Tree.Stored t k) ∧ (∀ k ∈ ks, n k ∈ T.keyWidths) ∧
          VebNode.forEachAll t = pure (ks.map fun k => k.toNat % 2 ^ n k) := by
  classical
  refine (Tree.run_fresh hops).mono ?_
  rintro t ⟨h, _⟩ hfit
  obtain ⟨ks, hsorted, hmem, hall⟩ := Tree.forEach_list h hfit
  have hcut : ∀ k, ∃ n, k ∈ ks → n ∈ T.keyWidths ∧
      LawfulListing.handed t 0 k.toNat = k.toNat % 2 ^ n := by
    intro k
    by_cases hk : k ∈ ks
    · obtain ⟨n, hn⟩ := Tree.handed_cut h ((hmem k).mp hk)
      exact ⟨n, fun _ => hn⟩
    · exact ⟨0, fun hk' => (hk hk').elim⟩
  choose n hn using hcut
  refine ⟨ks, n, hsorted, hmem, fun k hk => (hn k hk).1, ?_⟩
  rw [hall, List.map_congr_left fun k hk => (hn k hk).2]

theorem listing_after_expansion :
    (run (VebNode.fresh : Tree.veb32.State FunMap)
      [.insert 65536, .insert 65537, .insert 9]).Returns fun t =>
      ∃ (ks : List (BitVec Tree.veb32.width)) (n : BitVec Tree.veb32.width → ℕ),
        ks.Pairwise (· < ·) ∧ (∀ k, k ∈ ks ↔ Tree.Stored t k) ∧
          (∀ k ∈ ks, n k ∈ Tree.veb32.keyWidths) ∧
            VebNode.forEachAll t = pure (ks.map fun k => k.toNat % 2 ^ n k) :=
  (listing_after_run FunMap .veb32 _ (by decide)).mono fun t h => h (summariesFit_veb32 t)

end Runs

end ParvEB
