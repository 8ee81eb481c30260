import ParvEB.View

/-! The queries of an abstract branch are exact. -/
namespace ParvEB.View

open Outcome

variable {b w c : ℕ} {C : Type} [VebNode C c] {v : View c C}

def contains (v : View c C) (hi : ℕ) (lo : BitVec c) : Outcome Bool :=
  match v.cluster hi with
  | none => pure false
  | some cl => cl.contains lo

/-- The first key under a summary index. -/
def firstOf (b w : ℕ) (v : View c C) (hi : BitVec c) : Outcome (Option (BitVec w)) :=
  match v.cluster hi.toNat with
  | none => .fallback none
  | some cl => do
    match ← cl.min with
    | none => .fallback none
    | some lo => pure (some (combine b w hi lo))

def lastOf (b w : ℕ) (v : View c C) (hi : BitVec c) : Outcome (Option (BitVec w)) :=
  match v.cluster hi.toNat with
  | none => .fallback none
  | some cl => do
    match ← cl.max with
    | none => .fallback none
    | some lo => pure (some (combine b w hi lo))

def min (b w : ℕ) (v : View c C) : Outcome (Option (BitVec w)) := do
  match ← VebNode.min v.summary with
  | none => pure none
  | some hi => v.firstOf b w hi

def max (b w : ℕ) (v : View c C) : Outcome (Option (BitVec w)) := do
  match ← VebNode.max v.summary with
  | none => pure none
  | some hi => v.lastOf b w hi

def clusterSuccessor (v : View c C) (hi : ℕ) (lo : BitVec c) : Outcome (Option (BitVec c)) :=
  match v.cluster hi with
  | none => pure none
  | some cl => cl.successor lo

def clusterPredecessor (v : View c C) (hi : ℕ) (limit : BitVec c) : Outcome (Option (BitVec c)) :=
  match v.cluster hi with
  | none => pure none
  | some cl => cl.predecessor limit

def successor (b w : ℕ) (v : View c C) (hi lo : BitVec c) : Outcome (Option (BitVec w)) := do
  match ← v.clusterSuccessor hi.toNat lo with
  | some s => pure (some (combine b w hi s))
  | none =>
    match ← VebNode.successor v.summary hi with
    | none => pure none
    | some next => v.firstOf b w next

def predecessor (b w : ℕ) (v : View c C) (hi limit : BitVec c) : Outcome (Option (BitVec w)) := do
  match ← v.clusterPredecessor hi.toNat limit with
  | some p => pure (some (combine b w hi p))
  | none =>
    match ← VebNode.predecessor v.summary hi with
    | none => pure none
    | some prev => v.lastOf b w prev

namespace Inv

variable [LawfulVeb C b] [Widths b w c] {lax : Prop} {hi lo : BitVec c} {cl : Cluster c C}

theorem toNat_combine (h : v.Inv b lax) (hcl : v.cluster hi.toNat = some cl)
    (hlo : lo.toNat < 2 ^ b) :
    (combine b w hi lo).toNat = hi.toNat * 2 ^ b + lo.toNat :=
  ParvEB.toNat_combine (Widths.double c) (h.index_lt hcl) hlo

theorem contains_spec (h : v.Inv b lax) {key : ℕ} (hlo : lo.toNat = key % 2 ^ b) :
    (v.contains (key / 2 ^ b) lo).Returns fun r => r = true ↔ key ∈ v.keys b := by
  have hlt : lo.toNat < 2 ^ b := hlo ▸ Nat.mod_lt _ (pow_pos_two b)
  unfold contains keys
  cases hcl : v.cluster (key / 2 ^ b) with
  | none => simp [returns_pure, hcl]
  | some cl =>
    refine ((h.cluster _ _ hcl).contains_spec hlt).mono fun r hr => ?_
    rw [hr, hlo]
    simp [hcl]

theorem firstOf_spec (h : v.Inv b lax) (hcl : v.cluster hi.toNat = some cl) :
    (v.firstOf b w hi).Returns fun r => ∃ k, r = some k ∧ k.toNat ∈ v.keys b ∧
      k.toNat / 2 ^ b = hi.toNat ∧
      IsLeast (fibre (· / 2 ^ b) (· % 2 ^ b) (v.keys b) hi.toNat) (k.toNat % 2 ^ b) := by
  have hinv := h.cluster _ _ hcl
  simp only [firstOf, hcl]
  refine hinv.min_spec.bind ?_
  rintro _ ⟨l, rfl, hl⟩
  have hlt := hinv.key_lt hl.1
  refine returns_pure.mpr ⟨_, rfl, ?_⟩
  rw [h.toNat_combine hcl hlt, split_div hlt, split_mod hlt, h.fibre_keys hcl]
  exact ⟨h.mem_keys hcl hl.1, rfl, hl⟩

theorem lastOf_spec (h : v.Inv b lax) (hcl : v.cluster hi.toNat = some cl) :
    (v.lastOf b w hi).Returns fun r => ∃ k, r = some k ∧ k.toNat ∈ v.keys b ∧
      k.toNat / 2 ^ b = hi.toNat ∧
      IsGreatest (fibre (· / 2 ^ b) (· % 2 ^ b) (v.keys b) hi.toNat) (k.toNat % 2 ^ b) := by
  have hinv := h.cluster _ _ hcl
  simp only [lastOf, hcl]
  refine hinv.max_spec.bind ?_
  rintro _ ⟨l, rfl, hl⟩
  have hlt := hinv.key_lt hl.1
  refine returns_pure.mpr ⟨_, rfl, ?_⟩
  rw [h.toNat_combine hcl hlt, split_div hlt, split_mod hlt, h.fibre_keys hcl]
  exact ⟨h.mem_keys hcl hl.1, rfl, hl⟩

theorem exists_cluster (h : v.Inv b lax) {i : ℕ} (hi : i ∈ LawfulVeb.keys v.summary) :
    ∃ cl, v.cluster i = some cl :=
  Option.isSome_iff_exists.mp ((h.mem_summary i).mp hi)

theorem min_spec (h : v.Inv b lax) :
    (v.min b w).Returns fun r => IsFirst (v.keys b) (r.map BitVec.toNat) := by
  refine (LawfulVeb.min_spec h.summary).bind fun r hr => ?_
  cases r with
  | none => exact returns_pure.mpr (h.keys_eq_empty_iff.mpr hr)
  | some hi =>
    obtain ⟨cl, hcl⟩ := h.exists_cluster hr.1
    refine (h.firstOf_spec hcl).mono ?_
    rintro _ ⟨k, rfl, hk, hdiv, hl⟩
    refine (orderSplit_divMod (pow_pos_two b)).isLeast hk ?_ ?_
    · rw [h.heads_keys, hdiv]
      exact hr
    · rwa [hdiv]

theorem max_spec (h : v.Inv b lax) :
    (v.max b w).Returns fun r => IsLast (v.keys b) (r.map BitVec.toNat) := by
  refine (LawfulVeb.max_spec h.summary).bind fun r hr => ?_
  cases r with
  | none => exact returns_pure.mpr (h.keys_eq_empty_iff.mpr hr)
  | some hi =>
    obtain ⟨cl, hcl⟩ := h.exists_cluster hr.1
    refine (h.lastOf_spec hcl).mono ?_
    rintro _ ⟨k, rfl, hk, hdiv, hl⟩
    refine (orderSplit_divMod (pow_pos_two b)).isGreatest hk ?_ ?_
    · rw [h.heads_keys, hdiv]
      exact hr
    · rwa [hdiv]

theorem clusterSuccessor_spec (h : v.Inv b lax) {i : ℕ} (hlo : lo.toNat < 2 ^ b) :
    (v.clusterSuccessor i lo).Returns fun r =>
      IsFirst (above (fibre (· / 2 ^ b) (· % 2 ^ b) (v.keys b) i) lo.toNat)
        (r.map BitVec.toNat) := by
  unfold clusterSuccessor
  cases hcl : v.cluster i with
  | none =>
    rw [returns_pure, fibre_keys_none hcl]
    exact Set.sep_empty _
  | some cl =>
    rw [h.fibre_keys hcl]
    exact (h.cluster _ _ hcl).successor_spec hlo

theorem clusterPredecessor_spec (h : v.Inv b lax) {i : ℕ} (hlo : lo.toNat < 2 ^ b) :
    (v.clusterPredecessor i lo).Returns fun r =>
      IsLast (below (fibre (· / 2 ^ b) (· % 2 ^ b) (v.keys b) i) lo.toNat)
        (r.map BitVec.toNat) := by
  unfold clusterPredecessor
  cases hcl : v.cluster i with
  | none =>
    rw [returns_pure, fibre_keys_none hcl]
    exact Set.sep_empty _
  | some cl =>
    rw [h.fibre_keys hcl]
    exact (h.cluster _ _ hcl).predecessor_spec hlo

theorem successor_spec (h : v.Inv b lax) {key : ℕ} (hkey : key < 2 ^ (2 * b))
    (hhi : hi.toNat = key / 2 ^ b) (hlo : lo.toNat = key % 2 ^ b) :
    (v.successor b w hi lo).Returns fun r => IsFirst (above (v.keys b) key)
      (r.map BitVec.toNat) := by
  have hlt : lo.toNat < 2 ^ b := hlo ▸ Nat.mod_lt _ (pow_pos_two b)
  have hidx : hi.toNat < 2 ^ b := hhi ▸ div_lt_of_lt hkey
  have hs := orderSplit_divMod (pow_pos_two b)
  refine (h.clusterSuccessor_spec hlt).bind fun r hr => ?_
  rw [hhi, hlo] at hr
  cases r with
  | some s =>
    -- the answer lies in the key's own cluster
    obtain ⟨k, ⟨hk, hdiv⟩, hmod⟩ := hr.1.1
    have hslt : s.toNat < 2 ^ b := by
      rw [← hmod]
      exact Nat.mod_lt _ (pow_pos_two b)
    have hc : (combine b w hi s).toNat = k := by
      rw [ParvEB.toNat_combine (Widths.double c) hidx hslt, hhi, ← hdiv, ← hmod]
      exact split_eq b k
    rw [returns_pure, Option.map_some, hc]
    refine hs.isLeast_above_same hk hdiv ?_
    show IsLeast _ (k % 2 ^ b)
    rw [show k % 2 ^ b = s.toNat from hmod]
    exact hr
  | none =>
    refine (LawfulVeb.successor_spec h.summary hidx).bind fun r hr' => ?_
    rw [hhi, ← h.heads_keys] at hr'
    cases r with
    | none => exact returns_pure.mpr (hs.above_eq_empty hr hr')
    | some next =>
      have hmem := hr'.1.1
      rw [h.heads_keys] at hmem
      obtain ⟨cl, hcl⟩ := h.exists_cluster hmem
      refine (h.firstOf_spec hcl).mono ?_
      rintro _ ⟨k, rfl, hk, hdiv, hl⟩
      refine hs.isLeast_above_next hk hr ?_ ?_
      · rw [hdiv]
        exact hr'
      · rwa [hdiv]

theorem predecessor_spec (h : v.Inv b lax) {key : ℕ} (hkey : key < 2 ^ (2 * b))
    (hhi : hi.toNat = key / 2 ^ b) (hlo : lo.toNat = key % 2 ^ b) :
    (v.predecessor b w hi lo).Returns fun r => IsLast (below (v.keys b) key)
      (r.map BitVec.toNat) := by
  have hlt : lo.toNat < 2 ^ b := hlo ▸ Nat.mod_lt _ (pow_pos_two b)
  have hidx : hi.toNat < 2 ^ b := hhi ▸ div_lt_of_lt hkey
  have hs := orderSplit_divMod (pow_pos_two b)
  refine (h.clusterPredecessor_spec hlt).bind fun r hr => ?_
  rw [hhi, hlo] at hr
  cases r with
  | some p =>
    obtain ⟨k, ⟨hk, hdiv⟩, hmod⟩ := hr.1.1
    have hplt : p.toNat < 2 ^ b := by
      rw [← hmod]
      exact Nat.mod_lt _ (pow_pos_two b)
    have hc : (combine b w hi p).toNat = k := by
      rw [ParvEB.toNat_combine (Widths.double c) hidx hplt, hhi, ← hdiv, ← hmod]
      exact split_eq b k
    rw [returns_pure, Option.map_some, hc]
    refine hs.isGreatest_below_same hk hdiv ?_
    show IsGreatest _ (k % 2 ^ b)
    rw [show k % 2 ^ b = p.toNat from hmod]
    exact hr
  | none =>
    refine (LawfulVeb.predecessor_spec h.summary hidx).bind fun r hr' => ?_
    rw [hhi, ← h.heads_keys] at hr'
    cases r with
    | none => exact returns_pure.mpr (hs.below_eq_empty hr hr')
    | some prev =>
      have hmem := hr'.1.1
      rw [h.heads_keys] at hmem
      obtain ⟨cl, hcl⟩ := h.exists_cluster hmem
      refine (h.lastOf_spec hcl).mono ?_
      rintro _ ⟨k, rfl, hk, hdiv, hl⟩
      refine hs.isGreatest_below_next hk hr ?_ ?_
      · rw [hdiv]
        exact hr'
      · rwa [hdiv]

end Inv

end ParvEB.View
