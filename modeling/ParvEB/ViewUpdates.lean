import ParvEB.View

/-! What an insertion and an erasure do to an abstract branch. -/
namespace ParvEB

open Outcome

variable {b c : ℕ} {C : Type} [VebNode C c] [LawfulVeb C b] {lax : Prop}

namespace Cluster

/-- The keys under an index, whose cluster may be absent. -/
def keysOf (o : Option (Cluster c C)) : Set ℕ := {l | ∃ cl, o = some cl ∧ l ∈ cl.keys}

theorem keysOf_some (cl : Cluster c C) : keysOf (some cl) = cl.keys := by
  ext l
  simp [keysOf]

theorem keysOf_none : keysOf (none : Option (Cluster c C)) = ∅ := by
  ext l
  simp [keysOf]

/-- What an insertion of `lo` makes of a cluster. An inline value goes, with `lo`, into a child that
held nothing; with `lax` it may have held the value already. -/
inductive Grows (b : ℕ) [LawfulVeb C b] (lax : Prop) (lo : BitVec c) :
    Option (Cluster c C) → Option (Cluster c C) → Prop
  | absent : Grows b lax lo none (some (.inline lo))
  | present : Grows b lax lo (some (.inline lo)) (some (.inline lo))
  | expand {v : BitVec c} {x y z : C} : v ≠ lo → LawfulVeb.Inv lax x →
      LawfulVeb.keys x ⊆ {v.toNat} → (¬ lax → LawfulVeb.keys x = ∅) → Inserted x v y →
      Inserted y lo z → Grows b lax lo (some (.inline v)) (some (.child z))
  | child {x y : C} : Inserted x lo y → Grows b lax lo (some (.child x)) (some (.child y))

/-- What an erasure of `lo` makes of a cluster. -/
inductive Shrinks (lo : BitVec c) : Option (Cluster c C) → Option (Cluster c C) → Prop
  | absent : Shrinks lo none none
  | other {v : BitVec c} : v ≠ lo → Shrinks lo (some (.inline v)) (some (.inline v))
  | inline : Shrinks lo (some (.inline lo)) none
  | keep {x y : C} : Erased x lo y → VebNode.empty y = false →
      Shrinks lo (some (.child x)) (some (.child y))
  | drop {x y : C} : Erased x lo y → VebNode.empty y = true → Shrinks lo (some (.child x)) none

variable {o o' : Option (Cluster c C)} {lo : BitVec c}

theorem Grows.spec (h : Grows b lax lo o o') (ho : ∀ cl, o = some cl → cl.Inv b lax)
    (hlo : lo.toNat < 2 ^ b) :
    ∃ cl, o' = some cl ∧ cl.Inv b lax ∧ cl.keys = insert lo.toNat (keysOf o) := by
  cases h with
  | absent => exact ⟨_, rfl, hlo, by rw [keysOf_none, insert_empty_eq]; rfl⟩
  | present =>
    refine ⟨_, rfl, hlo, ?_⟩
    rw [keysOf_some]
    exact (Set.insert_eq_of_mem (Set.mem_singleton _)).symm
  | @expand v x y z hne hx hsub _ hy hz =>
    have hv : v.toNat < 2 ^ b := ho _ rfl
    obtain ⟨hyinv, hykeys⟩ := hy.spec hx hv
    obtain ⟨hzinv, hzkeys⟩ := hz.spec hyinv hlo
    have hsingle : LawfulVeb.keys y = {v.toNat} := by
      rw [hykeys]
      exact (Set.insert_subset (Set.mem_singleton _) hsub).antisymm (by simp)
    rw [hsingle] at hzkeys
    exact ⟨_, rfl, ⟨hzinv, hzkeys ▸ Set.insert_nonempty _ _⟩, by rw [keysOf_some]; exact hzkeys⟩
  | @child x y hy =>
    obtain ⟨hyinv, hykeys⟩ := hy.spec (ho _ rfl).1 hlo
    exact ⟨_, rfl, ⟨hyinv, hykeys ▸ Set.insert_nonempty _ _⟩, by rw [keysOf_some]; exact hykeys⟩

theorem Shrinks.spec (h : Shrinks lo o o') (ho : ∀ cl, o = some cl → cl.Inv b lax)
    (hlo : lo.toNat < 2 ^ b) :
    (∀ cl, o' = some cl → cl.Inv b lax) ∧ keysOf o' = keysOf o \ {lo.toNat} := by
  cases h with
  | absent => exact ⟨ho, by rw [keysOf_none, Set.empty_sdiff]⟩
  | @other v hne =>
    refine ⟨ho, ?_⟩
    rw [keysOf_some, Set.sdiff_singleton_eq_self]
    exact fun hm => hne (BitVec.eq_of_toNat_eq hm.symm)
  | inline =>
    refine ⟨by rintro _ ⟨⟩, ?_⟩
    rw [keysOf_none, keysOf_some]
    exact Set.sdiff_self.symm
  | @keep x y hy he =>
    obtain ⟨hyinv, hykeys⟩ := hy.spec (ho _ rfl).1 hlo
    refine ⟨?_, by rw [keysOf_some, keysOf_some]; exact hykeys⟩
    rintro _ ⟨⟩
    refine ⟨hyinv, Set.nonempty_iff_ne_empty.mpr fun hk => ?_⟩
    rw [(LawfulVeb.empty_spec hyinv).mpr hk] at he
    cases he
  | @drop x y hy he =>
    obtain ⟨hyinv, hykeys⟩ := hy.spec (ho _ rfl).1 hlo
    refine ⟨by rintro _ ⟨⟩, ?_⟩
    rw [keysOf_none, keysOf_some]
    exact ((LawfulVeb.empty_spec hyinv).mp he).symm.trans hykeys

theorem Shrinks.kept_or_gone (h : Shrinks lo o o') :
    o'.isSome = o.isSome ∨ o.isSome = true ∧ o' = none := by
  cases h <;> simp

end Cluster

namespace View

variable {v v' : View c C} {hi lo : BitVec c}

/-- An insertion of the key with parts `hi` and `lo`: the summary changes with a new cluster. -/
structure Grows (b : ℕ) [LawfulVeb C b] (lax : Prop) (v : View c C) (hi lo : BitVec c)
    (v' : View c C) : Prop where
  others : ∀ j, j ≠ hi.toNat → v'.cluster j = v.cluster j
  grown : Cluster.Grows b lax lo (v.cluster hi.toNat) (v'.cluster hi.toNat)
  summary_old : (v.cluster hi.toNat).isSome = true → v'.summary = v.summary
  summary_new : v.cluster hi.toNat = none → Inserted v.summary hi v'.summary

/-- An erasure: the summary changes when a cluster goes. A summary that this empties may be replaced
by a new one. -/
structure Shrinks (v : View c C) (hi lo : BitVec c) (v' : View c C) : Prop where
  others : ∀ j, j ≠ hi.toNat → v'.cluster j = v.cluster j
  shrunk : Cluster.Shrinks lo (v.cluster hi.toNat) (v'.cluster hi.toNat)
  summary_old : (v'.cluster hi.toNat).isSome = (v.cluster hi.toNat).isSome →
    v'.summary = v.summary
  summary_gone : (v.cluster hi.toNat).isSome = true → v'.cluster hi.toNat = none →
    ∃ s, Erased v.summary hi s ∧
      (v'.summary = s ∨ VebNode.empty s = true ∧ v'.summary = VebNode.fresh)

theorem Grows.inv (h : v.Grows b lax hi lo v') (hv : v.Inv b lax) (hhi : hi.toNat < 2 ^ b)
    (hlo : lo.toNat < 2 ^ b) : v'.Inv b lax := by
  obtain ⟨cl, hcl, hinv, _⟩ := h.grown.spec (hv.cluster hi.toNat) hlo
  have hsum : LawfulVeb.Inv lax v'.summary ∧
      LawfulVeb.keys v'.summary = insert hi.toNat (LawfulVeb.keys v.summary) := by
    cases hold : v.cluster hi.toNat with
    | none => exact (h.summary_new hold).spec hv.summary hhi
    | some old =>
      have hmem : hi.toNat ∈ LawfulVeb.keys v.summary := (hv.mem_summary _).mpr (by simp [hold])
      rw [h.summary_old (by simp [hold]), Set.insert_eq_of_mem hmem]
      exact ⟨hv.summary, rfl⟩
  refine ⟨hsum.1, fun i => ?_, fun i cl' hcl' => ?_⟩
  · rw [hsum.2, Set.mem_insert_iff]
    by_cases hi' : i = hi.toNat
    · simp [hi', hcl]
    · simp [hi', h.others i hi', hv.mem_summary]
  · by_cases hi' : i = hi.toNat
    · rw [hi', hcl] at hcl'
      rwa [← Option.some_inj.mp hcl']
    · rw [h.others i hi'] at hcl'
      exact hv.cluster i cl' hcl'

/-- What an erasure leaves of the summary. -/
theorem Shrinks.summary_spec (h : v.Shrinks hi lo v') (hs : LawfulVeb.Inv lax v.summary)
    (hhi : hi.toNat < 2 ^ b) : LawfulVeb.Inv lax v'.summary ∧ LawfulVeb.keys v'.summary =
      if (v'.cluster hi.toNat).isSome = (v.cluster hi.toNat).isSome then LawfulVeb.keys v.summary
      else LawfulVeb.keys v.summary \ {hi.toNat} := by
  split
  next hold =>
    rw [h.summary_old hold]
    exact ⟨hs, rfl⟩
  next hold =>
    obtain ⟨hsome, hnone⟩ := h.shrunk.kept_or_gone.resolve_left hold
    obtain ⟨s, hs', hv'⟩ := h.summary_gone hsome hnone
    obtain ⟨hinv, hkeys⟩ := hs'.spec hs hhi
    rcases hv' with rfl | ⟨he, hfresh⟩
    · exact ⟨hinv, hkeys⟩
    · rw [hfresh, ← hkeys, (LawfulVeb.empty_spec hinv).mp he]
      exact ⟨LawfulVeb.fresh_inv, LawfulVeb.keys_fresh⟩

theorem Shrinks.inv (h : v.Shrinks hi lo v') (hv : v.Inv b lax) (hhi : hi.toNat < 2 ^ b)
    (hlo : lo.toNat < 2 ^ b) : v'.Inv b lax := by
  obtain ⟨hinv, _⟩ := h.shrunk.spec (hv.cluster hi.toNat) hlo
  obtain ⟨hsum, hkeys⟩ := h.summary_spec hv.summary hhi
  refine ⟨hsum, fun i => ?_, fun i cl hcl => ?_⟩
  · rw [hkeys]
    by_cases hi' : i = hi.toNat
    · rw [hi']
      split
      next hold => rw [hold, hv.mem_summary]
      next hold =>
        rw [(h.shrunk.kept_or_gone.resolve_left hold).2]
        simp
    · rw [h.others i hi', ← hv.mem_summary]
      split <;> simp [hi']
  · by_cases hi' : i = hi.toNat
    · rw [hi'] at hcl
      exact hinv cl hcl
    · rw [h.others i hi'] at hcl
      exact hv.cluster i cl hcl

theorem Grows.keys (h : v.Grows b lax hi lo v') (hv : v.Inv b lax) (hlo : lo.toNat < 2 ^ b) :
    v'.keys b = insert (hi.toNat * 2 ^ b + lo.toNat) (v.keys b) := by
  obtain ⟨cl, hcl, _, hkeys⟩ := h.grown.spec (hv.cluster hi.toNat) hlo
  refine keys_insert hlo h.others ?_
  rw [keysAt_some hcl, hkeys]
  rfl

theorem Shrinks.keys (h : v.Shrinks hi lo v') (hv : v.Inv b lax) (hlo : lo.toNat < 2 ^ b) :
    v'.keys b = v.keys b \ {hi.toNat * 2 ^ b + lo.toNat} :=
  keys_erase hlo h.others (h.shrunk.spec (hv.cluster hi.toNat) hlo).2

end View

end ParvEB
