import ParvEB.Allocation
import ParvEB.Failure
import ParvEB.Truncation

/-! What nodes keep to when allocations fail, and the queries of an abstract branch that has been
through that. -/
namespace ParvEB

open Outcome

/-- A node type whose members stay defined in every state that calls leave, whether they return or
throw. `Safe A` is a state reached with keys of `A`; `shown` are the keys that `contains` reports.
`Closed` are the sets that a failed insertion does not lead out of. -/
class Resilient (T : Type) {w : outParam ℕ} [VebNode T w] [KeyWidths T] (bits : outParam ℕ) where
  /-- How often an insertion may allocate. -/
  cost : ℕ
  /-- How often it may when some key is shown. -/
  costFull : ℕ
  Closed : Set ℕ → Prop
  Safe (A : Set ℕ) : T → Prop
  shown : T → Set ℕ
  bits_le : bits ≤ w
  closed_univ : Closed Set.univ
  shown_subset {A : Set ℕ} {t : T} : Safe A t → shown t ⊆ A
  shown_lt {A : Set ℕ} {t : T} {k : ℕ} : Safe A t → k ∈ shown t → k < 2 ^ bits
  fresh_safe {A : Set ℕ} : Safe A VebNode.fresh
  shown_fresh : shown VebNode.fresh = ∅
  insert_safe {A : Set ℕ} {t : T} {k : BitVec w} {m : Mem} {n : ℕ} : Closed A → Safe A t →
    k.toNat ∈ A → k.toNat < 2 ^ bits → (n = cost ∨ n = costFull ∧ (shown t).Nonempty) →
    (VebNode.insert t k m).Settles m n (fun t' => Safe A t' ∧ shown t ⊆ shown t')
      fun t' => Safe A t' ∧ insert k.toNat (shown t) ⊆ shown t'
  erase_safe {A : Set ℕ} {t : T} {k : BitVec w} : Safe A t → k.toNat < 2 ^ bits →
    (VebNode.erase t k).Returns fun t' => Safe A t' ∧ shown t' ⊆ shown t \ {k.toNat}
  contains_safe {A : Set ℕ} {t : T} {k : BitVec w} : Safe A t → k.toNat < 2 ^ bits →
    (VebNode.contains t k).Returns fun r => r = true ↔ k.toNat ∈ shown t
  min_safe {A : Set ℕ} {t : T} : Safe A t →
    (VebNode.min t).Defined fun r => ∀ v, r = some v → v.toNat ∈ shown t
  max_safe {A : Set ℕ} {t : T} : Safe A t →
    (VebNode.max t).Defined fun r => ∀ v, r = some v → v.toNat ∈ shown t
  successor_safe {A : Set ℕ} {t : T} {k : BitVec w} : Safe A t → k.toNat < 2 ^ bits →
    (VebNode.successor t k).Defined fun r => ∀ v, r = some v → v.toNat ∈ above (shown t) k.toNat
  predecessor_safe {A : Set ℕ} {t : T} {k : BitVec w} : Safe A t → k.toNat < 2 ^ bits →
    (VebNode.predecessor t k).Defined fun r => ∀ v, r = some v → v.toNat ∈ below (shown t) k.toNat
  forEachAll_eq (t : T) : VebNode.forEachAll t = VebNode.forEach t 0
  forEach_safe {A : Set ℕ} {t : T} {p : BitVec w} : Safe A t → p.toNat % 2 ^ bits = 0 →
    (VebNode.forEach t p).Returns fun l => ∀ y ∈ l,
      y < p.toNat + 2 ^ bits ∧ Cut (KeyWidths.list T) p.toNat (shown t) y

section AllocOnce

variable {T : Type} {w bits : ℕ} [VebNode T w] [LawfulVeb T bits] [AllocOnce T] {t : T}
  {k : BitVec w} {m : Mem} {n : ℕ}

/-- An insertion that throws has changed nothing, and one into a node with keys does not throw. -/
theorem AllocOnce.insert_settles (h : LawfulVeb.Inv False t) (hk : k.toNat < 2 ^ bits)
    (hn : n = 1 ∨ n = 0 ∧ (LawfulVeb.keys t).Nonempty) :
    (VebNode.insert t k m).Settles m n (fun t' => t' = t) fun t' =>
      LawfulVeb.Inv False t' ∧ LawfulVeb.keys t' = insert k.toNat (LawfulVeb.keys t) := by
  obtain ⟨e, he, hs⟩ := LawfulVeb.insert_spec (m := m) h hk
  by_cases hne : (LawfulVeb.keys t).Nonempty
  · obtain ⟨t', ht'⟩ := AllocOnce.nonempty m h hne hk
    rw [he, pure_inj] at ht'
    subst ht'
    exact ⟨_, he, hs.1, fun r hm => hm.mono (Nat.le_add_left ..)⟩
  · obtain rfl := hn.resolve_right fun hn => hne hn.2
    have hempty := Set.not_nonempty_iff_eq_empty.mp hne
    refine ⟨e, he, ?_⟩
    cases m with
    | unbounded =>
      cases e with
      | returned t' m' => exact ⟨hs.1, fun r _ => by rw [hs.2 rfl]; trivial⟩
      | threw t' => exact (hs rfl).elim
    | upTo r =>
      cases r with
      | zero =>
        rw [AllocOnce.empty_zero h hempty hk, pure_inj] at he
        subst he
        exact ⟨rfl, fun hm => absurd hm (by simp [Mem.Covers])⟩
      | succ r =>
        obtain ⟨t', ht'⟩ := AllocOnce.empty_succ r h hempty hk
        rw [he, pure_inj] at ht'
        subst ht'
        refine ⟨hs.1, fun r' hm => ?_⟩
        have hle : 1 + r' ≤ r + 1 := hm
        exact (show r' ≤ r by omega)

/-- Such nodes come through failures as sound as they were. -/
instance resilient_of_allocOnce [KeyWidths T] [Truncating T] : Resilient T bits where
  cost := 1
  costFull := 0
  Closed _ := True
  Safe A t := LawfulVeb.Inv False t ∧ LawfulVeb.keys t ⊆ A
  shown := LawfulVeb.keys
  bits_le := LawfulVeb.bits_le T
  closed_univ := trivial
  shown_subset h := h.2
  shown_lt h := LawfulVeb.key_lt h.1
  fresh_safe := ⟨LawfulVeb.fresh_inv, LawfulVeb.keys_fresh (T := T) ▸ Set.empty_subset _⟩
  shown_fresh := LawfulVeb.keys_fresh
  insert_safe {A t k m n} _ h hkA hk hn := by
    refine (AllocOnce.insert_settles h.1 hk hn).mono le_rfl ?_ ?_
    · rintro _ rfl
      exact ⟨h, le_rfl⟩
    · rintro t' ⟨hinv, hkeys⟩
      exact ⟨⟨hinv, hkeys ▸ Set.insert_subset hkA h.2⟩, hkeys.ge⟩
  erase_safe h hk := by
    refine (LawfulVeb.erase_spec h.1 hk).mono ?_
    rintro t' ⟨hinv, hkeys⟩
    exact ⟨⟨hinv, hkeys ▸ Set.sdiff_subset.trans h.2⟩, hkeys.le⟩
  contains_safe h hk := LawfulVeb.contains_spec h.1 hk
  min_safe h := by
    refine (LawfulVeb.min_spec h.1).defined.mono ?_
    rintro _ hr v rfl
    exact hr.1
  max_safe h := by
    refine (LawfulVeb.max_spec h.1).defined.mono ?_
    rintro _ hr v rfl
    exact hr.1
  successor_safe h hk := by
    refine (LawfulVeb.successor_spec h.1 hk).defined.mono ?_
    rintro _ hr v rfl
    exact hr.1
  predecessor_safe h hk := by
    refine (LawfulVeb.predecessor_spec h.1 hk).defined.mono ?_
    rintro _ hr v rfl
    exact hr.1
  forEachAll_eq := Truncating.forEachAll_eq
  forEach_safe h hp := Truncating.forEach_cut h.1 hp

end AllocOnce

variable {b w c : ℕ} {C : Type} [VebNode C c] [KeyWidths C] [Resilient C b] {A : Set ℕ}

/-- The low parts of the keys of `A` under an index. -/
def under (b : ℕ) (A : Set ℕ) (i : ℕ) : Set ℕ := {l | i * 2 ^ b + l ∈ A}

theorem mem_under {k : ℕ} : k % 2 ^ b ∈ under b A (k / 2 ^ b) ↔ k ∈ A := by
  rw [under, Set.mem_ofPred_eq, split_eq]

namespace Cluster

variable {cl : Cluster c C} {lo : BitVec c}

def shown : Cluster c C → Set ℕ := keysBy Resilient.shown

def Safe (b : ℕ) [Resilient C b] (A : Set ℕ) : Cluster c C → Prop
  | .inline v => v.toNat < 2 ^ b ∧ v.toNat ∈ A
  | .child t => Resilient.Safe A t

namespace Safe

theorem shown_lt (h : cl.Safe b A) {l : ℕ} (hl : l ∈ cl.shown) : l < 2 ^ b := by
  cases cl with
  | inline v => exact (Set.mem_singleton_iff.mp hl) ▸ h.1
  | child t => exact Resilient.shown_lt h hl

theorem shown_subset (h : cl.Safe b A) : cl.shown ⊆ A := by
  cases cl with
  | inline v => exact Set.singleton_subset_iff.mpr h.2
  | child t => exact Resilient.shown_subset h

theorem contains_safe (h : cl.Safe b A) (hlo : lo.toNat < 2 ^ b) :
    (cl.contains lo).Returns fun r => r = true ↔ lo.toNat ∈ cl.shown := by
  cases cl with
  | inline v =>
    rw [contains, returns_pure, beq_iff_eq, shown, keysBy, Set.mem_singleton_iff,
      BitVec.toNat_inj, eq_comm]
  | child t => exact Resilient.contains_safe h hlo

theorem min_safe (h : cl.Safe b A) :
    cl.min.Defined fun r => ∀ v, r = some v → v.toNat ∈ cl.shown := by
  cases cl with
  | inline v =>
    refine (returns_pure.mpr ?_).defined
    rintro _ ⟨⟩
    rfl
  | child t => exact Resilient.min_safe h

theorem max_safe (h : cl.Safe b A) :
    cl.max.Defined fun r => ∀ v, r = some v → v.toNat ∈ cl.shown := by
  cases cl with
  | inline v =>
    refine (returns_pure.mpr ?_).defined
    rintro _ ⟨⟩
    rfl
  | child t => exact Resilient.max_safe h

theorem successor_safe (h : cl.Safe b A) (hlo : lo.toNat < 2 ^ b) :
    (cl.successor lo).Defined fun r => ∀ v, r = some v → v.toNat ∈ above cl.shown lo.toNat := by
  cases cl with
  | inline v =>
    refine (returns_pure.mpr ?_).defined
    intro u hu
    split at hu
    next hlt =>
      cases hu
      exact ⟨rfl, hlt⟩
    next => cases hu
  | child t => exact Resilient.successor_safe h hlo

theorem predecessor_safe (h : cl.Safe b A) (hlo : lo.toNat < 2 ^ b) :
    (cl.predecessor lo).Defined fun r =>
      ∀ v, r = some v → v.toNat ∈ below cl.shown lo.toNat := by
  cases cl with
  | inline v =>
    refine (returns_pure.mpr ?_).defined
    intro u hu
    split at hu
    next hlt =>
      cases hu
      exact ⟨rfl, hlt⟩
    next => cases hu
  | child t => exact Resilient.predecessor_safe h hlo

end Safe

end Cluster

namespace View

variable {v : View c C} {hi lo : BitVec c} {key : ℕ} {pfx : BitVec w}

def shown (b : ℕ) [Resilient C b] (v : View c C) : Set ℕ := v.keysBy b Resilient.shown

/-- The clusters are safe and within range; whether the summary lists them is left open. -/
structure Safe (b : ℕ) [Resilient C b] (A : Set ℕ) (v : View c C) : Prop where
  summary : Resilient.Safe Set.univ v.summary
  index_lt : ∀ i cl, v.cluster i = some cl → i < 2 ^ b
  cluster : ∀ i cl, v.cluster i = some cl → cl.Safe b (under b A i)

namespace Safe

theorem shown_subset (h : v.Safe b A) : v.shown b ⊆ A := by
  rintro k ⟨cl, hcl, hk⟩
  exact mem_under.mp ((h.cluster _ _ hcl).shown_subset hk)

theorem shown_lt (h : v.Safe b A) {k : ℕ} (hk : k ∈ v.shown b) : k < 2 ^ (2 * b) := by
  obtain ⟨cl, hcl, hk⟩ := hk
  have := split_lt (h.index_lt _ _ hcl) ((h.cluster _ _ hcl).shown_lt hk)
  rwa [split_eq] at this

/-- A key of a cluster is one of the branch. -/
theorem mem_shown (h : v.Safe b A) {i l : ℕ} {cl : Cluster c C} (hcl : v.cluster i = some cl)
    (hl : l ∈ cl.shown) : i * 2 ^ b + l ∈ v.shown b := by
  have hlt := (h.cluster _ _ hcl).shown_lt hl
  exact ⟨cl, by rwa [split_div hlt], by rwa [split_mod hlt]⟩

theorem contains_safe (h : v.Safe b A) (hlo : lo.toNat = key % 2 ^ b) :
    (v.contains (key / 2 ^ b) lo).Returns fun r => r = true ↔ key ∈ v.shown b := by
  have hlt : lo.toNat < 2 ^ b := hlo ▸ Nat.mod_lt _ (pow_pos_two b)
  unfold contains
  cases hcl : v.cluster (key / 2 ^ b) with
  | none => simp [returns_pure, shown, keysBy, hcl]
  | some cl =>
    refine ((h.cluster _ _ hcl).contains_safe hlt).mono fun r hr => ?_
    rw [hr, hlo]
    simp [shown, keysBy, hcl, Cluster.shown]

variable [Widths b w c]

/-- What the branch makes of an answer of one of its clusters. -/
theorem combine_mem (h : v.Safe b A) {cl : Cluster c C} (hcl : v.cluster hi.toNat = some cl)
    {l : BitVec c} (hl : l.toNat ∈ cl.shown) :
    (combine b w hi l).toNat ∈ v.shown b ∧ (combine b w hi l).toNat / 2 ^ b = hi.toNat ∧
      (combine b w hi l).toNat % 2 ^ b = l.toNat := by
  have hlt := (h.cluster _ _ hcl).shown_lt hl
  rw [toNat_combine (Widths.double c) (h.index_lt _ _ hcl) hlt]
  exact ⟨h.mem_shown hcl hl, split_div hlt, split_mod hlt⟩

/-- The common shape of `firstOf` and `lastOf`: an end of the cluster with that index. -/
theorem endOf_safe (h : v.Safe b A) (hi : BitVec c) {f : Cluster c C → Outcome (Option (BitVec c))}
    (hf : ∀ {cl : Cluster c C} {B : Set ℕ}, cl.Safe b B →
      (f cl).Defined fun r => ∀ v, r = some v → v.toNat ∈ cl.shown) :
    (match v.cluster hi.toNat with
      | none => .fallback none
      | some cl => do
        match ← f cl with
        | none => .fallback none
        | some lo => pure (some (combine b w hi lo)) : Outcome (Option (BitVec w))).Defined
      fun r => ∀ k, r = some k → k.toNat ∈ v.shown b ∧ k.toNat / 2 ^ b = hi.toNat := by
  cases hcl : v.cluster hi.toNat with
  | none => exact defined_fallback (by rintro _ ⟨⟩)
  | some cl =>
    refine (hf (h.cluster _ _ hcl)).bind fun r hr => ?_
    cases r with
    | none => exact defined_fallback (by rintro _ ⟨⟩)
    | some l =>
      refine (returns_pure.mpr ?_).defined
      rintro _ ⟨⟩
      obtain ⟨hmem, hdiv, _⟩ := h.combine_mem (w := w) hcl (hr l rfl)
      exact ⟨hmem, hdiv⟩

theorem firstOf_safe (h : v.Safe b A) (hi : BitVec c) :
    (v.firstOf b w hi).Defined fun r => ∀ k, r = some k →
      k.toNat ∈ v.shown b ∧ k.toNat / 2 ^ b = hi.toNat :=
  h.endOf_safe hi Cluster.Safe.min_safe

theorem lastOf_safe (h : v.Safe b A) (hi : BitVec c) :
    (v.lastOf b w hi).Defined fun r => ∀ k, r = some k →
      k.toNat ∈ v.shown b ∧ k.toNat / 2 ^ b = hi.toNat :=
  h.endOf_safe hi Cluster.Safe.max_safe

theorem min_safe (h : v.Safe b A) :
    (v.min b w).Defined fun r => ∀ k, r = some k → k.toNat ∈ v.shown b := by
  refine (Resilient.min_safe h.summary).bind fun r _ => ?_
  cases r with
  | none => exact (returns_pure.mpr (by rintro _ ⟨⟩)).defined
  | some hi => exact (h.firstOf_safe hi).mono fun r hr k hk => (hr k hk).1

theorem max_safe (h : v.Safe b A) :
    (v.max b w).Defined fun r => ∀ k, r = some k → k.toNat ∈ v.shown b := by
  refine (Resilient.max_safe h.summary).bind fun r _ => ?_
  cases r with
  | none => exact (returns_pure.mpr (by rintro _ ⟨⟩)).defined
  | some hi => exact (h.lastOf_safe hi).mono fun r hr k hk => (hr k hk).1

omit [Widths b w c] in
/-- What the key's own cluster answers. -/
theorem clusterSuccessor_safe (h : v.Safe b A) (hlo : lo.toNat < 2 ^ b) :
    (v.clusterSuccessor hi.toNat lo).Defined fun r => ∀ l, r = some l →
      ∃ cl, v.cluster hi.toNat = some cl ∧ l.toNat ∈ above cl.shown lo.toNat := by
  unfold clusterSuccessor
  cases hcl : v.cluster hi.toNat with
  | none => exact (returns_pure.mpr (by rintro _ ⟨⟩)).defined
  | some cl =>
    exact ((h.cluster _ _ hcl).successor_safe hlo).mono fun r hr l hl => ⟨cl, rfl, hr l hl⟩

omit [Widths b w c] in
theorem clusterPredecessor_safe (h : v.Safe b A) (hlo : lo.toNat < 2 ^ b) :
    (v.clusterPredecessor hi.toNat lo).Defined fun r => ∀ l, r = some l →
      ∃ cl, v.cluster hi.toNat = some cl ∧ l.toNat ∈ below cl.shown lo.toNat := by
  unfold clusterPredecessor
  cases hcl : v.cluster hi.toNat with
  | none => exact (returns_pure.mpr (by rintro _ ⟨⟩)).defined
  | some cl =>
    exact ((h.cluster _ _ hcl).predecessor_safe hlo).mono fun r hr l hl => ⟨cl, rfl, hr l hl⟩

/-- The common shape of `successor` and `predecessor`: the key's own cluster, and if that has no
answer, an end of the cluster that the summary names. -/
theorem either_safe (h : v.Safe b A) {P : ℕ → Prop} {own other : Outcome (Option (BitVec c))}
    {ends : BitVec c → Outcome (Option (BitVec w))}
    (hown : own.Defined fun r => ∀ l, r = some l → ∃ cl, v.cluster hi.toNat = some cl ∧
      l.toNat ∈ cl.shown ∧ ∀ k, k / 2 ^ b = hi.toNat → k % 2 ^ b = l.toNat → P k)
    (hother : other.Defined fun r => ∀ i, r = some i → ∀ k, k / 2 ^ b = i.toNat → P k)
    (hends : ∀ i, (ends i).Defined fun r => ∀ k, r = some k →
      k.toNat ∈ v.shown b ∧ k.toNat / 2 ^ b = i.toNat) :
    (do
      match ← own with
      | some l => pure (some (combine b w hi l))
      | none =>
        match ← other with
        | none => pure none
        | some i => ends i).Defined fun r => ∀ k, r = some k → k.toNat ∈ v.shown b ∧ P k.toNat := by
  refine hown.bind fun found hfound => ?_
  cases found with
  | some l =>
    refine (returns_pure.mpr ?_).defined
    rintro _ ⟨⟩
    obtain ⟨cl, hcl, hmem, hP⟩ := hfound l rfl
    obtain ⟨hshown, hdiv, hmod⟩ := h.combine_mem (w := w) hcl hmem
    exact ⟨hshown, hP _ hdiv hmod⟩
  | none =>
    refine hother.bind fun r hr => ?_
    cases r with
    | none => exact (returns_pure.mpr (by rintro _ ⟨⟩)).defined
    | some i =>
      refine (hends i).mono fun r' hr' k hk => ?_
      obtain ⟨hshown, hdiv⟩ := hr' k hk
      exact ⟨hshown, hr i rfl _ hdiv⟩

theorem successor_safe (h : v.Safe b A) (hkey : key < 2 ^ (2 * b))
    (hhi : hi.toNat = key / 2 ^ b) (hlo : lo.toNat = key % 2 ^ b) :
    (v.successor b w hi lo).Defined fun r =>
      ∀ k, r = some k → k.toNat ∈ above (v.shown b) key := by
  have hlt : lo.toNat < 2 ^ b := hlo ▸ Nat.mod_lt _ (pow_pos_two b)
  have hhib : hi.toNat < 2 ^ b := hhi ▸ div_lt_of_lt hkey
  have hsplit := orderSplit_divMod (pow_pos_two b)
  refine h.either_safe (P := (key < ·)) ((h.clusterSuccessor_safe hlt).mono ?_)
    ((Resilient.successor_safe h.summary hhib).mono ?_) h.firstOf_safe
  · intro r hr l hl
    obtain ⟨cl, hcl, hmem, habove⟩ := hr l hl
    exact ⟨cl, hcl, hmem, fun k hdiv hmod =>
      (hsplit.lt_iff _ _).mpr (Or.inr ⟨by rw [hdiv, hhi], by rwa [hmod, ← hlo]⟩)⟩
  · exact fun r hr i hi' k hdiv =>
      (hsplit.lt_iff _ _).mpr (Or.inl (by rw [hdiv, ← hhi]; exact (hr i hi').2))

theorem predecessor_safe (h : v.Safe b A) (hkey : key < 2 ^ (2 * b))
    (hhi : hi.toNat = key / 2 ^ b) (hlo : lo.toNat = key % 2 ^ b) :
    (v.predecessor b w hi lo).Defined fun r =>
      ∀ k, r = some k → k.toNat ∈ below (v.shown b) key := by
  have hlt : lo.toNat < 2 ^ b := hlo ▸ Nat.mod_lt _ (pow_pos_two b)
  have hhib : hi.toNat < 2 ^ b := hhi ▸ div_lt_of_lt hkey
  have hsplit := orderSplit_divMod (pow_pos_two b)
  refine h.either_safe (P := (· < key)) ((h.clusterPredecessor_safe hlt).mono ?_)
    ((Resilient.predecessor_safe h.summary hhib).mono ?_) h.lastOf_safe
  · intro r hr l hl
    obtain ⟨cl, hcl, hmem, hbelow⟩ := hr l hl
    exact ⟨cl, hcl, hmem, fun k hdiv hmod =>
      (hsplit.lt_iff _ _).mpr (Or.inr ⟨by rw [hdiv, hhi], by rwa [hmod, ← hlo]⟩)⟩
  · exact fun r hr i hi' k hdiv =>
      (hsplit.lt_iff _ _).mpr (Or.inl (by rw [hdiv, ← hhi]; exact (hr i hi').2))

theorem forEach_safe (h : v.Safe b A) (hp : pfx.toNat % 2 ^ (2 * b) = 0) :
    (v.forEach b w pfx).Returns fun l => ∀ y ∈ l, y < pfx.toNat + 2 ^ (2 * b) ∧
      Cut (w :: KeyWidths.list C) pfx.toNat (v.shown b) y := by
  have hzero : (0 : BitVec c).toNat % 2 ^ b = 0 := by simp
  refine View.forEach_cut (Resilient.bits_le C) (KeyWidths.list_le (T := C)) hp ?_ ?_
    fun i cl hcl x hx => (h.cluster i cl hcl).shown_lt hx
  · rw [Resilient.forEachAll_eq]
    refine (Resilient.forEach_safe h.summary hzero).mono fun L hL i hi => ?_
    simpa using (hL i hi).1
  · intro i cl hcl
    have hsafe := h.cluster i cl hcl
    cases cl with
    | inline u => exact hsafe.1
    | child x => exact fun p hp => Resilient.forEach_safe hsafe hp

end Safe

end View

end ParvEB
