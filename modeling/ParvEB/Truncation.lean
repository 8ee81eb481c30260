import ParvEB.Traversal

/-! Where the integers that a traversal hands over come from. -/
namespace ParvEB

open Outcome

/-- `y` is a key of `S` behind the prefix `p`, cut to one of the widths `ns`. -/
def Cut (ns : List ℕ) (p : ℕ) (S : Set ℕ) (y : ℕ) : Prop := ∃ k ∈ S, ∃ n ∈ ns, y = (p + k) % 2 ^ n

/-- The widths of `Key` in a node and below it. -/
class KeyWidths (T : Type) {w : outParam ℕ} [VebNode T w] where
  list : List ℕ
  list_le : ∀ n ∈ list, n ≤ w

instance VebLeaf6.keyWidths : KeyWidths VebLeaf6 := ⟨[8], by simp⟩
instance VebLeaf8.keyWidths : KeyWidths VebLeaf8 := ⟨[16], by simp⟩

section Widths

variable {b w c : ℕ} {inl : Bool} {M : ℕ → Type → Type} {C : Type} [FlatMap M] [VebNode C c]
  [KeyWidths C] [hcw : Fact (c ≤ w)]

theorem KeyWidths.cons_le : ∀ n ∈ w :: KeyWidths.list C, n ≤ w := by
  intro n hn
  rcases List.mem_cons.mp hn with rfl | hn
  · exact le_rfl
  · exact (KeyWidths.list_le n hn).trans hcw.out

instance DenseBranch.keyWidths : KeyWidths (DenseBranch b w c inl C) :=
  ⟨w :: KeyWidths.list C, KeyWidths.cons_le⟩

instance SparseBranch.keyWidths : KeyWidths (SparseBranch b w c M C) :=
  ⟨w :: KeyWidths.list C, KeyWidths.cons_le⟩

end Widths

/-- A node type whose traversal hands over keys of the node, each cut to the width of the `Key` of
the node that holds it. -/
class Truncating (T : Type) {w : outParam ℕ} [VebNode T w] {bits : outParam ℕ}
    [LawfulVeb T bits] [KeyWidths T] : Prop where
  forEachAll_eq (t : T) : VebNode.forEachAll t = VebNode.forEach t 0
  forEach_cut {lax : Prop} {t : T} {p : BitVec w} : LawfulVeb.Inv lax t → p.toNat % 2 ^ bits = 0 →
    (VebNode.forEach t p).Returns fun l => ∀ y ∈ l,
      y < p.toNat + 2 ^ bits ∧ Cut (KeyWidths.list T) p.toNat (LawfulVeb.keys t) y

section Cuts

variable {ns : List ℕ} {S S' : Set ℕ} {p y : ℕ}

/-- A prefix that was itself cut cuts no more than the narrowest width. -/
theorem Cut.of_mod {c : ℕ} (h : Cut ns (p % 2 ^ c) S y) (hns : ∀ n ∈ ns, n ≤ c) : Cut ns p S y := by
  obtain ⟨k, hk, n, hn, rfl⟩ := h
  refine ⟨k, hk, n, hn, ?_⟩
  rw [Nat.add_mod, Nat.mod_mod_of_dvd _ (Nat.pow_dvd_pow 2 (hns n hn)), ← Nat.add_mod]

end Cuts

section Lists

variable {c : ℕ} {visit : BitVec c → Outcome (List ℕ)} {L : List ℕ} {Q : ℕ → ℕ → Prop}

theorem emitAll_returns
    (h : ∀ i ∈ L, (visit (BitVec.ofNat c i)).Returns fun l => ∀ y ∈ l, Q i y) :
    (emitAll visit L).Returns fun l => ∀ y ∈ l, ∃ i ∈ L, Q i y := by
  induction L with
  | nil => exact returns_pure.mpr fun y hy => absurd hy List.not_mem_nil
  | cons i L ih =>
    obtain ⟨hi, hL⟩ := List.forall_mem_cons.mp h
    refine hi.bind fun here hhere => (ih hL).bind fun rest hrest => ?_
    refine returns_pure.mpr fun y hy => ?_
    rcases List.mem_append.mp hy with hy | hy
    · exact ⟨i, List.mem_cons_self, hhere y hy⟩
    · obtain ⟨j, hj, hq⟩ := hrest y hy
      exact ⟨j, List.mem_cons_of_mem _ hj, hq⟩

end Lists

variable {b w c : ℕ} {C : Type}

/-- The keys of a cluster whose children have those that `K` says. -/
def Cluster.keysBy (K : C → Set ℕ) : Cluster c C → Set ℕ
  | .inline v => {v.toNat}
  | .child t => K t

namespace View

/-- The keys of a branch whose children have those that `K` says. -/
def keysBy (b : ℕ) (K : C → Set ℕ) (v : View c C) : Set ℕ :=
  {k | ∃ cl, v.cluster (k / 2 ^ b) = some cl ∧ k % 2 ^ b ∈ cl.keysBy K}

variable [VebNode C c] {v : View c C} {K : C → Set ℕ} {ns : List ℕ} {pfx : BitVec w} {i : ℕ}

theorem keys_eq_keysBy [LawfulVeb C b] (v : View c C) : v.keys b = v.keysBy b LawfulVeb.keys := by
  ext k
  refine exists_congr fun cl => and_congr_right fun _ => ?_
  cases cl <;> exact Iff.rfl

/-- A child lists its keys behind the prefix that it gets. -/
def Lists (b : ℕ) (ns : List ℕ) (K : C → Set ℕ) : Cluster c C → Prop
  | .inline u => u.toNat < 2 ^ b
  | .child t => ∀ p : BitVec c, p.toNat % 2 ^ b = 0 →
    (VebNode.forEach t p).Returns fun l => ∀ y ∈ l, y < p.toNat + 2 ^ b ∧ Cut ns p.toNat (K t) y

omit [VebNode C c] in
/-- The prefix that the callback of `for_each` computes. -/
theorem toNat_childPfx [Widths b w c] (hbc : b ≤ c) (hp : pfx.toNat % 2 ^ (2 * b) = 0)
    (hi : i < 2 ^ b) :
    (pfx ||| (BitVec.ofNat c i).setWidth w <<< b).toNat = pfx.toNat + i * 2 ^ b := by
  have hw : 2 * b ≤ w := Widths.double c
  have hbw : 2 ^ (2 * b) ≤ 2 ^ w := Nat.pow_le_pow_right (by omega) hw
  have hcw : 2 ^ b ≤ 2 ^ c := Nat.pow_le_pow_right (by omega) hbc
  have hsw : 2 ^ b ≤ 2 ^ w := Nat.pow_le_pow_right (by omega) (by omega)
  have hlt := split_lt hi (pow_pos_two b)
  rw [Nat.add_zero] at hlt
  have hidx : (BitVec.ofNat c i).toNat = i := by
    rw [BitVec.toNat_ofNat, Nat.mod_eq_of_lt (by omega)]
  have hshift : ((BitVec.ofNat c i).setWidth w <<< b).toNat = i * 2 ^ b := by
    rw [BitVec.toNat_shiftLeft, toNat_setWidth_of_lt (by omega), hidx, Nat.shiftLeft_eq,
      Nat.mod_eq_of_lt (by omega)]
  rw [toNat_or_of_mod hp (by omega), hshift]

theorem visit_cut [Widths b w c] (hbc : b ≤ c) (hns : ∀ n ∈ ns, n ≤ c)
    (hp : pfx.toNat % 2 ^ (2 * b) = 0) (hi : i < 2 ^ b)
    (hcl : ∀ cl, v.cluster i = some cl → Lists b ns K cl) :
    (v.visit b w pfx (BitVec.ofNat c i)).Returns fun l => ∀ y ∈ l,
      y < pfx.toNat + i * 2 ^ b + 2 ^ b ∧
        ∃ cl, v.cluster i = some cl ∧ Cut (w :: ns) (pfx.toNat + i * 2 ^ b) (cl.keysBy K) y := by
  have hchild := toNat_childPfx hbc hp hi
  have hblock := block_mod (i := i) hp
  have hcw : 2 ^ b ≤ 2 ^ c := Nat.pow_le_pow_right (by omega) hbc
  have hidx : (BitVec.ofNat c i).toNat = i := by
    rw [BitVec.toNat_ofNat, Nat.mod_eq_of_lt (by omega)]
  have hsw : 2 ^ b ≤ 2 ^ w := by
    have := Widths.double (b := b) (w := w) c
    exact Nat.pow_le_pow_right (by omega) (by omega)
  unfold visit
  dsimp only
  rw [hidx]
  cases hcl' : v.cluster i with
  | none => exact returns_pure.mpr fun y hy => absurd hy List.not_mem_nil
  | some cl =>
    have hlists := hcl cl hcl'
    cases cl with
    | inline u =>
      have hval : u.toNat < 2 ^ b := hlists
      have hvw : (u.setWidth w).toNat = u.toNat := toNat_setWidth_of_lt (by omega)
      refine returns_pure.mpr fun y hy => ?_
      obtain rfl := List.mem_singleton.mp hy
      have hor : ((pfx ||| (BitVec.ofNat c i).setWidth w <<< b) ||| u.setWidth w).toNat =
          pfx.toNat + i * 2 ^ b + u.toNat := by
        rw [toNat_or_of_mod (by rw [hchild]; exact hblock) (by omega), hchild, hvw]
      refine ⟨by omega, _, rfl, u.toNat, rfl, w, List.mem_cons_self, ?_⟩
      rw [← hor, Nat.mod_eq_of_lt (BitVec.isLt _)]
    | child t =>
      have hn : ((pfx ||| (BitVec.ofNat c i).setWidth w <<< b).setWidth c).toNat =
          (pfx.toNat + i * 2 ^ b) % 2 ^ c := by
        rw [BitVec.toNat_setWidth, hchild]
      have hmod : ((pfx.toNat + i * 2 ^ b) % 2 ^ c) % 2 ^ b = 0 := by
        rw [Nat.mod_mod_of_dvd _ (Nat.pow_dvd_pow 2 hbc), hblock]
      refine (hlists _ (hn ▸ hmod)).mono fun l hl y hy => ?_
      obtain ⟨hlt, hcut⟩ := hl y hy
      rw [hn] at hlt hcut
      have hle := Nat.mod_le (pfx.toNat + i * 2 ^ b) (2 ^ c)
      obtain ⟨k, hk, n, hn', he⟩ := hcut.of_mod hns
      exact ⟨by omega, _, rfl, k, hk, n, List.mem_cons_of_mem _ hn', he⟩

/-- A branch hands over keys of its clusters, however its summary lists these. -/
theorem forEach_cut [Widths b w c] (hbc : b ≤ c) (hns : ∀ n ∈ ns, n ≤ c)
    (hp : pfx.toNat % 2 ^ (2 * b) = 0)
    (hsum : (VebNode.forEachAll v.summary).Returns fun L => ∀ i ∈ L, i < 2 ^ b)
    (hcl : ∀ i cl, v.cluster i = some cl → Lists b ns K cl)
    (hK : ∀ i cl, v.cluster i = some cl → ∀ x ∈ cl.keysBy K, x < 2 ^ b) :
    (v.forEach b w pfx).Returns fun l => ∀ y ∈ l, y < pfx.toNat + 2 ^ (2 * b) ∧
      Cut (w :: ns) pfx.toNat (v.keysBy b K) y := by
  refine hsum.bind fun L hL => ?_
  refine (emitAll_returns fun i hi =>
    visit_cut hbc hns hp (hL i hi) (hcl i)).mono fun l hl y hy => ?_
  obtain ⟨i, hi, hlt, cl, hcl', x, hx, n, hn, rfl⟩ := hl y hy
  have hxb := hK i cl hcl' x hx
  have hmul := Nat.mul_le_mul_right (2 ^ b) (hL i hi)
  rw [Nat.succ_mul, ← Nat.pow_add, ← Nat.two_mul] at hmul
  refine ⟨by omega, i * 2 ^ b + x, ⟨cl, ?_, ?_⟩, n, hn, ?_⟩
  · rwa [split_div hxb]
  · rwa [split_mod hxb]
  · rw [Nat.add_assoc]

end View

section Leaves

/-- Where every prefix fits, the traversal is exact and the only width is the node's own. -/
theorem forEach_cut_of_fits {T : Type} {w bits : ℕ} [VebNode T w] [LawfulVeb T bits]
    [LawfulTraversal T] (hfits : ∀ (t : T) p, LawfulTraversal.Fits t p) {lax : Prop} {t : T}
    {p : BitVec w} (h : LawfulVeb.Inv lax t) (hp : p.toNat % 2 ^ bits = 0) :
    (VebNode.forEach t p).Returns fun l => ∀ y ∈ l,
      y < p.toNat + 2 ^ bits ∧ Cut [w] p.toNat (LawfulVeb.keys t) y := by
  refine (LawfulTraversal.forEach_spec h hp).mono fun l hl y hy => ?_
  obtain ⟨hlt, hemits, _⟩ := hl
  obtain ⟨x, hx, rfl⟩ := ((hemits (hfits t _)).2 y).mp hy
  have hle := add_pow_le p.isLt hp (LawfulVeb.bits_le T)
  have hyl := hlt _ hy
  exact ⟨hyl, x, hx, w, List.mem_singleton_self w, (Nat.mod_eq_of_lt (by omega)).symm⟩

theorem forEachAll_leaf6 (t : VebLeaf6) : VebNode.forEachAll t = VebNode.forEach t 0 :=
  LawfulTraversal.forEachAll_eq t

instance : Truncating VebLeaf6 where
  forEachAll_eq := forEachAll_leaf6
  forEach_cut := forEach_cut_of_fits fun _ _ => trivial

instance : Truncating VebLeaf8 where
  forEachAll_eq := LawfulTraversal.forEachAll_eq
  forEach_cut := forEach_cut_of_fits fun _ _ => trivial

end Leaves

namespace DenseBranch

variable {inl : Bool} [VebNode C c] [LawfulVeb C b] [LawfulTraversal C] [KeyWidths C] [Truncating C]
  [Widths b w c]

theorem forEach_cut {lax : Prop} {t : DenseBranch b w c inl C} {pfx : BitVec w} (h : t.Inv lax)
    (hp : pfx.toNat % 2 ^ (2 * b) = 0) :
    (t.forEach pfx).Returns fun l => ∀ y ∈ l, y < pfx.toNat + 2 ^ (2 * b) ∧
      Cut (w :: KeyWidths.list C) pfx.toNat (t.view.keys b) y := by
  have hv := h.view_inv (Widths.fan w c)
  have hzero : (0 : BitVec c).toNat % 2 ^ b = 0 := by simp
  rw [forEach_eq h, View.keys_eq_keysBy]
  refine View.forEach_cut (LawfulVeb.bits_le C) (KeyWidths.list_le (T := C)) hp ?_ ?_ ?_
  · rw [Truncating.forEachAll_eq]
    refine (Truncating.forEach_cut hv.summary hzero).mono fun L hL i hi => ?_
    simpa using (hL i hi).1
  · intro i cl hcl
    have hinv := hv.cluster i cl hcl
    cases cl with
    | inline u => exact hinv
    | child x => exact fun p hp => Truncating.forEach_cut hinv.1 hp
  · intro i cl hcl x hx
    have hinv := hv.cluster i cl hcl
    cases cl with
    | inline u => exact hinv.key_lt hx
    | child y => exact hinv.key_lt hx

instance truncating [Fact (c ≤ w)] : Truncating (DenseBranch b w c inl C) where
  forEachAll_eq _ := rfl
  forEach_cut := forEach_cut

end DenseBranch

instance fits_8_16 : Fact (8 ≤ 16) := ⟨by decide⟩
instance fits_16_16 : Fact (16 ≤ 16) := ⟨by decide⟩
instance : Truncating VebBranch12 := DenseBranch.truncating
instance : Truncating VebBranch16 := DenseBranch.truncating

end ParvEB
