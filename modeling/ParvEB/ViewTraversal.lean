import ParvEB.Emission
import ParvEB.View

/-! When the traversal of an abstract branch is exact. -/
namespace ParvEB

open Outcome

section Arithmetic

variable {b c w : ℕ}

theorem add_pow_le {x : ℕ} (hx : x < 2 ^ c) (hb : x % 2 ^ b = 0) (hc : b ≤ c) :
    x + 2 ^ b ≤ 2 ^ c := by
  obtain ⟨d, rfl⟩ := Nat.exists_eq_add_of_le hc
  rw [Nat.pow_add] at hx ⊢
  have hdiv := Nat.div_add_mod' x (2 ^ b)
  have hlt : x / 2 ^ b < 2 ^ d := Nat.div_lt_of_lt_mul hx
  have hmul := Nat.mul_le_mul_right (2 ^ b) hlt
  rw [Nat.succ_mul, Nat.mul_comm (2 ^ d)] at hmul
  omega

theorem mod_pow_of_mod {p n m : ℕ} (hp : p % 2 ^ n = 0) (hm : m ≤ n) : p % 2 ^ m = 0 := by
  rw [← Nat.mod_mod_of_dvd p (Nat.pow_dvd_pow 2 hm), hp, Nat.zero_mod]

theorem block_mod {p i : ℕ} (hp : p % 2 ^ (2 * b) = 0) : (p + i * 2 ^ b) % 2 ^ b = 0 := by
  rw [Nat.add_mul_mod_self_right]
  exact mod_pow_of_mod hp (by omega)

/-- Two keys of one branch that coincide have the same index and the same low part. -/
theorem block_inj {p i j x y : ℕ} (hx : x < 2 ^ b) (hy : y < 2 ^ b)
    (h : p + (i * 2 ^ b + x) = p + j * 2 ^ b + y) : i = j ∧ x = y := by
  have he : i * 2 ^ b + x = j * 2 ^ b + y := by omega
  have hdiv := congrArg (· / 2 ^ b) he
  have hmod := congrArg (· % 2 ^ b) he
  simp only [split_div hx, split_div hy, split_mod hx, split_mod hy] at hdiv hmod
  exact ⟨hdiv, hmod⟩

end Arithmetic

section EmitAll

variable {c : ℕ} {visit : BitVec c → Outcome (List ℕ)} {f : ℕ → List ℕ} {L : List ℕ}

theorem emitAll_eq (h : ∀ i ∈ L, visit (BitVec.ofNat c i) = pure (f i)) :
    emitAll visit L = pure (L.flatMap f) := by
  induction L with
  | nil => rfl
  | cons i L ih =>
    obtain ⟨hi, hL⟩ := List.forall_mem_cons.mp h
    rw [emitAll, hi, pure_bind, ih hL, pure_bind, List.flatMap_cons]

end EmitAll

namespace View

variable {b w c : ℕ} {C : Type} [VebNode C c] {v : View c C}

/-- What the callback of `for_each` does at one summary index. -/
def visit (b w : ℕ) (v : View c C) (pfx : BitVec w) (clusterIdx : BitVec c) : Outcome (List ℕ) :=
  let childPfx := pfx ||| (clusterIdx.setWidth w <<< b)
  match v.cluster clusterIdx.toNat with
  | none => pure []
  | some (.inline u) => pure [(childPfx ||| u.setWidth w).toNat]
  | some (.child t) => VebNode.forEach t (childPfx.setWidth c)

def forEach (b w : ℕ) (v : View c C) (pfx : BitVec w) : Outcome (List ℕ) := do
  let indices ← VebNode.forEachAll v.summary
  emitAll (v.visit b w pfx) indices

variable [LawfulVeb C b] [LawfulTraversal C] [Widths b w c] {lax : Prop} {pfx : BitVec w}
  {p i h x : ℕ} {l : List ℕ} {t : C}

/-- The summary can be listed, and each child gets a prefix that its own `Key` can hold. -/
def Fits (b : ℕ) [LawfulVeb C b] [LawfulTraversal C] (v : View c C) (p : ℕ) : Prop :=
  LawfulTraversal.Fits v.summary 0 ∧ ∀ i t, v.cluster i = some (.child t) →
    p + i * 2 ^ b < 2 ^ c ∧ LawfulTraversal.Fits t (p + i * 2 ^ b)

/-- What one index contributes. A child works with its prefix modulo `2 ^ c`. -/
def Visited (b : ℕ) [LawfulVeb C b] [LawfulTraversal C] (v : View c C) (p i : ℕ) (l : List ℕ) :
    Prop :=
  match v.cluster i with
  | none => l = []
  | some (.inline u) => l = [p + i * 2 ^ b + u.toNat]
  | some (.child t) => (∀ y ∈ l, y < (p + i * 2 ^ b) % 2 ^ c + 2 ^ b) ∧
    (LawfulTraversal.Fits t ((p + i * 2 ^ b) % 2 ^ c) →
      Emits l ((p + i * 2 ^ b) % 2 ^ c) (LawfulVeb.keys t)) ∧
    (¬ LawfulTraversal.Fits t ((p + i * 2 ^ b) % 2 ^ c) →
      Loses l ((p + i * 2 ^ b) % 2 ^ c) (LawfulVeb.keys t))

theorem Inv.visit_spec (hv : v.Inv b lax) (hp : pfx.toNat % 2 ^ (2 * b) = 0) (hi : i < 2 ^ b) :
    (v.visit b w pfx (BitVec.ofNat c i)).Returns (v.Visited b pfx.toNat i) := by
  have hbc : b ≤ c := LawfulVeb.bits_le C
  have hw : 2 * b ≤ w := Widths.double c
  have hbw : 2 ^ (2 * b) ≤ 2 ^ w := Nat.pow_le_pow_right (by omega) hw
  have hsw : 2 ^ b ≤ 2 ^ w := Nat.pow_le_pow_right (by omega) (by omega)
  have hcw : 2 ^ b ≤ 2 ^ c := Nat.pow_le_pow_right (by omega) hbc
  have hidx : (BitVec.ofNat c i).toNat = i := by
    rw [BitVec.toNat_ofNat, Nat.mod_eq_of_lt (by omega)]
  have hlt := split_lt hi (pow_pos_two b)
  rw [Nat.add_zero] at hlt
  have hwide : ((BitVec.ofNat c i).setWidth w).toNat = i := by
    rw [toNat_setWidth_of_lt (by omega), hidx]
  have hshift : ((BitVec.ofNat c i).setWidth w <<< b).toNat = i * 2 ^ b := by
    rw [BitVec.toNat_shiftLeft, hwide, Nat.shiftLeft_eq, Nat.mod_eq_of_lt (by omega)]
  have hchild : (pfx ||| (BitVec.ofNat c i).setWidth w <<< b).toNat = pfx.toNat + i * 2 ^ b := by
    rw [toNat_or_of_mod hp (by omega), hshift]
  have hblock := block_mod (i := i) hp
  unfold visit Visited
  dsimp only
  rw [hidx]
  cases hcl : v.cluster i with
  | none => exact returns_pure.mpr rfl
  | some cl =>
    cases cl with
    | inline u =>
      have hval : u.toNat < 2 ^ b := hv.cluster i _ hcl
      have hvw : (u.setWidth w).toNat = u.toNat :=
        toNat_setWidth_of_lt (by omega)
      refine returns_pure.mpr ?_
      rw [toNat_or_of_mod (by rw [hchild]; exact hblock) (by omega), hchild, hvw]
    | child t =>
      have hn : ((pfx ||| (BitVec.ofNat c i).setWidth w <<< b).setWidth c).toNat =
          (pfx.toNat + i * 2 ^ b) % 2 ^ c := by
        rw [BitVec.toNat_setWidth, hchild]
      have hmod : ((pfx.toNat + i * 2 ^ b) % 2 ^ c) % 2 ^ b = 0 := by
        rw [Nat.mod_mod_of_dvd _ (Nat.pow_dvd_pow 2 hbc), hblock]
      have hspec := LawfulTraversal.forEach_spec (hv.cluster i _ hcl).1 (hn ▸ hmod)
      rwa [hn] at hspec

namespace Visited

omit [Widths b w c] in
theorem lt (hl : v.Visited b p i l) (hv : v.Inv b lax) {y : ℕ} (hy : y ∈ l) :
    y < p + i * 2 ^ b + 2 ^ b := by
  unfold Visited at hl
  cases hcl : v.cluster i with
  | none =>
    rw [hcl] at hl
    subst hl
    cases hy
  | some cl =>
    rw [hcl] at hl
    cases cl with
    | inline u =>
      subst hl
      have hval : u.toNat < 2 ^ b := hv.cluster i _ hcl
      rw [List.mem_singleton.mp hy]
      omega
    | child t =>
      have := hl.1 y hy
      have := Nat.mod_le (p + i * 2 ^ b) (2 ^ c)
      omega

omit [Widths b w c] in
/-- Where a number that could be a key's may come from. -/
theorem cases_of_mem (hl : v.Visited b p i l) (hv : v.Inv b lax) (hp : p % 2 ^ (2 * b) = 0)
    (hx : x < 2 ^ b) (hy : p + (h * 2 ^ b + x) ∈ l) :
    (∃ u, v.cluster i = some (.inline u) ∧ h = i) ∨
      ∃ t, v.cluster i = some (.child t) ∧ h ≤ i ∧ p + (h * 2 ^ b + x) < 2 ^ c := by
  have hlt := hl.lt hv hy
  unfold Visited at hl
  cases hcl : v.cluster i with
  | none =>
    rw [hcl] at hl
    subst hl
    cases hy
  | some cl =>
    rw [hcl] at hl
    cases cl with
    | inline u =>
      subst hl
      have hval : u.toNat < 2 ^ b := hv.cluster i _ hcl
      exact Or.inl ⟨u, rfl, (block_inj hx hval (List.mem_singleton.mp hy)).1⟩
    | child t =>
      right
      refine ⟨t, rfl, ?_, ?_⟩
      · by_contra hlt'
        have hmul := Nat.mul_le_mul_right (2 ^ b) (not_le.mp hlt')
        rw [Nat.succ_mul] at hmul
        omega
      · have hbc : b ≤ c := LawfulVeb.bits_le C
        have hmod : ((p + i * 2 ^ b) % 2 ^ c) % 2 ^ b = 0 := by
          rw [Nat.mod_mod_of_dvd _ (Nat.pow_dvd_pow 2 hbc), block_mod hp]
        exact (hl.1 _ hy).trans_le (add_pow_le (Nat.mod_lt _ (pow_pos_two c)) hmod hbc)

omit [Widths b w c] in
/-- A child whose prefix survives contributes its keys, or loses one. -/
theorem of_child (hl : v.Visited b p i l) (hcl : v.cluster i = some (.child t))
    (hlt : p + i * 2 ^ b < 2 ^ c) :
    (LawfulTraversal.Fits t (p + i * 2 ^ b) → Emits l (p + i * 2 ^ b) (LawfulVeb.keys t)) ∧
      (¬ LawfulTraversal.Fits t (p + i * 2 ^ b) →
        Loses l (p + i * 2 ^ b) (LawfulVeb.keys t)) := by
  unfold Visited at hl
  rw [hcl] at hl
  dsimp only at hl
  rw [Nat.mod_eq_of_lt hlt] at hl
  exact hl.2

omit [Widths b w c] in
theorem emits (hl : v.Visited b p i l) (hf : v.Fits b p) {cl : Cluster c C}
    (hcl : v.cluster i = some cl) : Emits l (p + i * 2 ^ b) cl.keys := by
  cases cl with
  | inline u =>
    unfold Visited at hl
    rw [hcl] at hl
    dsimp only at hl
    rw [hl]
    exact emits_singleton _ _
  | child t =>
    obtain ⟨hlt, hfit⟩ := hf.2 i t hcl
    exact (hl.of_child hcl hlt).1 hfit

end Visited

section Lists

variable {f : ℕ → List ℕ} {L : List ℕ}

omit [Widths b w c] in
/-- With fitting prefixes the traversal is exact. -/
theorem emits_of_fits (hv : v.Inv b lax) (hf : v.Fits b p)
    (hL : Emits L 0 (LawfulVeb.keys v.summary)) (hvis : ∀ i < 2 ^ b, v.Visited b p i (f i)) :
    Emits (L.flatMap f) p (v.keys b) := by
  have hblocks : ∀ i ∈ LawfulVeb.keys v.summary, Emits (f i) (p + i * 2 ^ b) (v.keysAt i) := by
    intro i hi
    obtain ⟨cl, hcl⟩ := Option.isSome_iff_exists.mp ((hv.mem_summary i).mp hi)
    rw [keysAt_some hcl]
    exact (hvis i (LawfulVeb.key_lt hv.summary hi)).emits hf hcl
  have hsmall : ∀ i ∈ LawfulVeb.keys v.summary, ∀ x ∈ v.keysAt i, x < 2 ^ b := by
    rintro i _ x ⟨cl, hcl, hx⟩
    exact (hv.cluster i cl hcl).key_lt hx
  obtain ⟨hsorted, hmem⟩ := emits_flatMap hL hblocks hsmall
  refine ⟨hsorted, fun y => (hmem y).trans ?_⟩
  constructor
  · rintro ⟨i, _, x, ⟨cl, hcl, hx⟩, rfl⟩
    exact ⟨i * 2 ^ b + x, hv.mem_keys hcl hx, Nat.add_assoc _ _ _⟩
  · rintro ⟨k, ⟨cl, hcl, hk⟩, rfl⟩
    refine ⟨k / 2 ^ b, (hv.mem_summary _).mpr (by simp [hcl]), k % 2 ^ b, ⟨cl, hcl, hk⟩, ?_⟩
    rw [Nat.add_assoc, split_eq]

/-- A child whose prefix is cut short loses every key. -/
theorem loses_of_overflow (w : ℕ) [Widths b w c] (hv : v.Inv b lax) (hp : p % 2 ^ (2 * b) = 0)
    (hL : ∀ i ∈ L, i < 2 ^ b) (hvis : ∀ i < 2 ^ b, v.Visited b p i (f i))
    (hcl : v.cluster h = some (.child t)) (hge : 2 ^ c ≤ p + h * 2 ^ b) :
    Loses (L.flatMap f) p (v.keys b) := by
  have hbyte : 2 ^ 8 ≤ 2 ^ c := Nat.pow_le_pow_right (by omega) (Widths.byte b w)
  obtain ⟨x, hx⟩ := (hv.cluster h _ hcl).2
  have hxlt := (hv.cluster h _ hcl).key_lt hx
  refine ⟨h * 2 ^ b + x, hv.mem_keys hcl hx, fun hy => ?_, by omega⟩
  obtain ⟨i, hi, hy⟩ := List.mem_flatMap.mp hy
  rcases (hvis i (hL i hi)).cases_of_mem hv hp hxlt hy with ⟨u, hin, rfl⟩ | ⟨t', _, _, hlt⟩
  · rw [hcl] at hin
    cases hin
  · omega

/-- An index that the summary's own traversal loses takes its cluster with it. -/
theorem loses_of_summary (w : ℕ) [Widths b w c] (hv : v.Inv b lax) (hp : p % 2 ^ (2 * b) = 0)
    (hL : ∀ i ∈ L, i < 2 ^ b) (hvis : ∀ i < 2 ^ b, v.Visited b p i (f i))
    (hlost : Loses L 0 (LawfulVeb.keys v.summary)) : Loses (L.flatMap f) p (v.keys b) := by
  obtain ⟨h, hh, hnot, hge⟩ := hlost
  rw [Nat.zero_add] at hnot hge
  obtain ⟨cl, hcl⟩ := Option.isSome_iff_exists.mp ((hv.mem_summary h).mp hh)
  obtain ⟨x, hx⟩ := (hv.cluster h _ hcl).nonempty
  have hxlt := (hv.cluster h _ hcl).key_lt hx
  have hbig : 2 ^ c ≤ h * 2 ^ b := by
    calc 2 ^ c ≤ 2 ^ (8 + b) :=
          Nat.pow_le_pow_right (by omega) ((Widths.narrow w).trans (Nat.add_comm b 8).le)
      _ = 2 ^ 8 * 2 ^ b := Nat.pow_add 2 8 b
      _ ≤ h * 2 ^ b := Nat.mul_le_mul_right _ hge
  have hbyte : 2 ^ 8 ≤ 2 ^ c := Nat.pow_le_pow_right (by omega) (Widths.byte b w)
  refine ⟨h * 2 ^ b + x, hv.mem_keys hcl hx, fun hy => ?_, by omega⟩
  obtain ⟨i, hi, hy⟩ := List.mem_flatMap.mp hy
  rcases (hvis i (hL i hi)).cases_of_mem hv hp hxlt hy with ⟨u, _, rfl⟩ | ⟨t', _, _, hlt⟩
  · exact hnot hi
  · omega

omit [Widths b w c] in
/-- The last child that loses a key loses it for good: later blocks lie above it. -/
theorem loses_of_child (hv : v.Inv b lax) (hp : p % 2 ^ (2 * b) = 0)
    (hL : ∀ i ∈ L, i < 2 ^ b) (hvis : ∀ i < 2 ^ b, v.Visited b p i (f i))
    (hover : ∀ i t, v.cluster i = some (.child t) → p + i * 2 ^ b < 2 ^ c)
    (hcl : v.cluster h = some (.child t)) (hfit : ¬ LawfulTraversal.Fits t (p + h * 2 ^ b))
    (hlast : ∀ i t', h < i → v.cluster i = some (.child t') →
      LawfulTraversal.Fits t' (p + i * 2 ^ b)) :
    Loses (L.flatMap f) p (v.keys b) := by
  obtain ⟨x, hx, hnot, hge⟩ :=
    ((hvis h (hv.index_lt hcl)).of_child hcl (hover h t hcl)).2 hfit
  have hxlt := (hv.cluster h _ hcl).key_lt hx
  rw [Nat.add_assoc] at hnot hge
  refine ⟨h * 2 ^ b + x, hv.mem_keys hcl hx, fun hy => ?_, hge⟩
  obtain ⟨i, hi, hy⟩ := List.mem_flatMap.mp hy
  rcases (hvis i (hL i hi)).cases_of_mem hv hp hxlt hy with ⟨u, hin, rfl⟩ | ⟨t', hin, hle, _⟩
  · rw [hcl] at hin
    cases hin
  · rcases hle.lt_or_eq with hlt | rfl
    · have hemits := ((hvis i (hL i hi)).of_child hin (hover i t' hin)).1 (hlast i t' hlt hin)
      obtain ⟨x', hx', he⟩ := (hemits.2 _).mp hy
      exact absurd (block_inj hxlt ((hv.cluster i _ hin).key_lt hx') he).1 hlt.ne
    · exact hnot hy

theorem loses_of_not_fits (w : ℕ) [Widths b w c] (hv : v.Inv b lax) (hp : p % 2 ^ (2 * b) = 0)
    (hL : ∀ i ∈ L, i < 2 ^ b) (hvis : ∀ i < 2 ^ b, v.Visited b p i (f i))
    (hsum : ¬ LawfulTraversal.Fits v.summary 0 → Loses L 0 (LawfulVeb.keys v.summary))
    (hf : ¬ v.Fits b p) : Loses (L.flatMap f) p (v.keys b) := by
  classical
  by_cases hover : ∀ i t, v.cluster i = some (.child t) → p + i * 2 ^ b < 2 ^ c
  · by_cases hs : LawfulTraversal.Fits v.summary 0
    · -- some child is at fault: take the last one
      let bad : ℕ → Prop := fun i => ∃ t, v.cluster i = some (.child t) ∧
        ¬ LawfulTraversal.Fits t (p + i * 2 ^ b)
      have hbad : ∃ i, bad i := by
        by_contra hnone
        refine hf ⟨hs, fun i t hcl => ⟨hover i t hcl, ?_⟩⟩
        by_contra hfit
        exact hnone ⟨i, t, hcl, hfit⟩
      obtain ⟨i, t, hcl, hfit⟩ := hbad
      have hi := (hv.index_lt hcl).le
      obtain ⟨t', hcl', hfit'⟩ := Nat.findGreatest_spec (P := bad) hi ⟨t, hcl, hfit⟩
      refine loses_of_child hv hp hL hvis hover hcl' hfit' fun j t'' hlt hcl'' => ?_
      by_contra hfit''
      exact Nat.findGreatest_is_greatest hlt (hv.index_lt hcl'').le ⟨t'', hcl'', hfit''⟩
    · exact loses_of_summary w hv hp hL hvis (hsum hs)
  · push Not at hover
    obtain ⟨i, t, hcl, hge⟩ := hover
    exact loses_of_overflow w hv hp hL hvis hcl hge

end Lists

/-- The traversal of a branch is exact from the prefixes that fit, and only from these. -/
theorem Inv.forEach_spec (hv : v.Inv b lax) (hp : pfx.toNat % 2 ^ (2 * b) = 0) :
    (v.forEach b w pfx).Returns fun l => (∀ y ∈ l, y < pfx.toNat + 2 ^ (2 * b)) ∧
      (v.Fits b pfx.toNat → Emits l pfx.toNat (v.keys b)) ∧
      (¬ v.Fits b pfx.toNat → Loses l pfx.toNat (v.keys b)) := by
  have hzero : (0 : BitVec c).toNat % 2 ^ b = 0 := by simp
  obtain ⟨L, hL, hlt, hfits, hloses⟩ := LawfulTraversal.forEach_spec hv.summary hzero
  have hall : ∀ i, ∃ l, i < 2 ^ b → v.visit b w pfx (BitVec.ofNat c i) = pure l ∧
      v.Visited b pfx.toNat i l := by
    intro i
    by_cases hi : i < 2 ^ b
    · obtain ⟨l, hl, hvis⟩ := hv.visit_spec hp hi
      exact ⟨l, fun _ => ⟨hl, hvis⟩⟩
    · exact ⟨[], fun h => (hi h).elim⟩
  choose f hf using hall
  have hzero' : (0 : BitVec c).toNat = 0 := by simp
  rw [hzero'] at hlt hfits hloses
  have hL' : ∀ i ∈ L, i < 2 ^ b := fun i hi => (Nat.zero_add (2 ^ b)) ▸ hlt i hi
  have hvis : ∀ i < 2 ^ b, v.Visited b pfx.toNat i (f i) := fun i hi => (hf i hi).2
  have hrun : v.forEach b w pfx = pure (L.flatMap f) := by
    rw [forEach, LawfulTraversal.forEachAll_eq, hL, pure_bind]
    exact emitAll_eq fun i hi => (hf i (hL' i hi)).1
  refine ⟨_, hrun, fun y hy => ?_, fun hfit => ?_, fun hfit => ?_⟩
  · obtain ⟨i, hi, hy⟩ := List.mem_flatMap.mp hy
    have hyl := (hvis i (hL' i hi)).lt hv hy
    have hmul := Nat.mul_le_mul_right (2 ^ b) (hL' i hi)
    rw [Nat.succ_mul, ← Nat.pow_add, ← Nat.two_mul] at hmul
    omega
  · exact emits_of_fits hv hfit (hfits hfit.1) hvis
  · exact loses_of_not_fits w hv hp hL' hvis hloses hfit

end View

end ParvEB
