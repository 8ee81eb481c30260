import ParvEB.ViewQueries

/-! The invariant of the sparse branch, and its queries as those of an abstract branch. -/
namespace ParvEB

open Outcome

section Entry

variable {b c : ℕ} {C : Type}

/-- The cluster that an entry holds. -/
def ClusterEntry.cluster (e : ClusterEntry c C) : Option (Cluster c C) :=
  if e.inlineOnly then some (.inline e.inlineValue) else e.child.map .child

theorem ClusterEntry.cluster_eq_inline {e : ClusterEntry c C} {v : BitVec c}
    (h : e.cluster = some (.inline v)) : e.inlineOnly = true ∧ e.inlineValue = v := by
  unfold cluster at h
  split at h
  next hil =>
    cases h
    exact ⟨hil, rfl⟩
  next =>
    obtain ⟨y, _, he⟩ := Option.map_eq_some_iff.mp h
    cases he

theorem ClusterEntry.cluster_eq_child {e : ClusterEntry c C} {x : C}
    (h : e.cluster = some (.child x)) : e.inlineOnly = false ∧ e.child = some x := by
  unfold cluster at h
  split at h
  next => cases h
  next hil =>
    obtain ⟨y, hy, he⟩ := Option.map_eq_some_iff.mp h
    cases he
    exact ⟨Bool.eq_false_iff.mpr hil, hy⟩

variable [VebNode C c] [LawfulVeb C b] {lax : Prop} {e : ClusterEntry c C}

/-- What an entry may hold. With `lax` an inline value may have a child behind it that a failed
expansion left there: it holds no other key. -/
structure EntryInv (b : ℕ) [LawfulVeb C b] (lax : Prop) (e : ClusterEntry c C) : Prop where
  value_lt : e.inlineOnly = true → e.inlineValue.toNat < 2 ^ b
  null_child : e.inlineOnly = true → ¬ lax → e.child = none
  left_over : e.inlineOnly = true → ∀ x, e.child = some x →
    LawfulVeb.Inv lax x ∧ LawfulVeb.keys x ⊆ {e.inlineValue.toNat}
  child : e.inlineOnly = false →
    ∃ x, e.child = some x ∧ LawfulVeb.Inv lax x ∧ (LawfulVeb.keys x).Nonempty

theorem EntryInv.mono {lax' : Prop} (hl : lax → lax') (h : EntryInv b lax e) :
    EntryInv b lax' e where
  value_lt := h.value_lt
  null_child hil hlax := h.null_child hil (hlax ∘ hl)
  left_over hil x hx := ⟨LawfulVeb.mono hl (h.left_over hil x hx).1, (h.left_over hil x hx).2⟩
  child hil := by
    obtain ⟨x, hx, hinv, hne⟩ := h.child hil
    exact ⟨x, hx, LawfulVeb.mono hl hinv, hne⟩

theorem EntryInv.exists_cluster (h : EntryInv b lax e) :
    ∃ cl, e.cluster = some cl ∧ cl.Inv b lax := by
  unfold ClusterEntry.cluster
  cases hil : e.inlineOnly with
  | true => exact ⟨_, rfl, h.value_lt hil⟩
  | false =>
    obtain ⟨x, hx, hinv, hne⟩ := h.child hil
    exact ⟨.child x, by simp [hx], hinv, hne⟩

end Entry

namespace SparseBranch

variable {b w c : ℕ} {M : ℕ → Type → Type} {C : Type} [FlatMap M] [VebNode C c] [LawfulVeb C b]
  {lax : Prop}

def entryAt (t : SparseBranch b w c M C) : BitVec c → Option (ClusterEntry c C) :=
  FlatMap.find t.clusters

/-- The summary and each entry are well formed, whether or not they agree. -/
structure Sound (lax : Prop) (t : SparseBranch b w c M C) : Prop where
  summary : LawfulVeb.Inv lax t.summary
  entry : ∀ hi e, t.entryAt hi = some e → EntryInv b lax e

/-- The representation invariant: the summary lists the entries. -/
structure Inv (lax : Prop) (t : SparseBranch b w c M C) : Prop extends t.Sound lax where
  mem_summary : ∀ hi, hi.toNat ∈ LawfulVeb.keys t.summary ↔ (t.entryAt hi).isSome

def cluster (t : SparseBranch b w c M C) (i : ℕ) : Option (Cluster c C) :=
  if i < 2 ^ c then (t.entryAt (BitVec.ofNat c i)).bind ClusterEntry.cluster else none

def view (t : SparseBranch b w c M C) : View c C := ⟨t.summary, t.cluster⟩

omit [VebNode C c] [LawfulVeb C b] in
@[simp] theorem view_cluster (t : SparseBranch b w c M C) : t.view.cluster = t.cluster := rfl

variable {t : SparseBranch b w c M C} {hi : BitVec c}

omit [VebNode C c] [LawfulVeb C b] in
theorem cluster_toNat (t : SparseBranch b w c M C) (hi : BitVec c) :
    t.cluster hi.toNat = (t.entryAt hi).bind ClusterEntry.cluster := by
  rw [cluster, if_pos hi.isLt, BitVec.ofNat_toNat, BitVec.setWidth_eq]

theorem Inv.mono {lax' : Prop} (hl : lax → lax') (h : t.Inv lax) : t.Inv lax' where
  summary := LawfulVeb.mono hl h.summary
  entry hi e he := (h.entry hi e he).mono hl
  mem_summary := h.mem_summary

theorem Sound.cluster_isSome (h : t.Sound lax) (hi : BitVec c) :
    (t.cluster hi.toNat).isSome = (t.entryAt hi).isSome := by
  rw [cluster_toNat]
  cases he : t.entryAt hi with
  | none => rfl
  | some e =>
    obtain ⟨cl, hcl, _⟩ := (h.entry hi e he).exists_cluster
    simp [hcl]

theorem Sound.inv (h : t.Sound lax) (hv : t.view.Inv b lax) : t.Inv lax where
  toSound := h
  mem_summary hi := by
    rw [← h.cluster_isSome]
    exact hv.mem_summary hi.toNat

theorem Inv.view_inv (h : t.Inv lax) : t.view.Inv b lax where
  summary := h.summary
  mem_summary i := by
    change i ∈ LawfulVeb.keys t.summary ↔ (t.cluster i).isSome = true
    by_cases hi : i < 2 ^ c
    · obtain ⟨k, rfl⟩ : ∃ k : BitVec c, k.toNat = i :=
        ⟨BitVec.ofNat c i, by simp [Nat.mod_eq_of_lt hi]⟩
      rw [h.mem_summary, h.cluster_isSome]
    · have hlt : i ∉ LawfulVeb.keys t.summary := fun hm => hi
        ((LawfulVeb.key_lt h.summary hm).trans_le
          (Nat.pow_le_pow_right (by omega) (LawfulVeb.bits_le C)))
      simp [cluster, hi, hlt]
  cluster i cl hcl := by
    change t.cluster i = some cl at hcl
    unfold cluster at hcl
    split at hcl
    · obtain ⟨e, he, hcl⟩ := Option.bind_eq_some_iff.mp hcl
      obtain ⟨cl', hcl', hinv⟩ := (h.entry _ e he).exists_cluster
      rwa [Option.some_inj.mp (hcl.symm.trans hcl')]
    · cases hcl

section Queries

omit [LawfulVeb C b]

variable {key : BitVec w} {lo : BitVec c}

theorem contains_eq (t : SparseBranch b w c M C) (key : BitVec w) :
    t.contains key = t.view.contains (hiPart b key : BitVec c).toNat (loPart b key) := by
  unfold contains View.contains
  rw [view_cluster]
  rw [cluster_toNat]
  dsimp only [entryAt]
  cases FlatMap.find t.clusters (hiPart b key) with
  | none => rfl
  | some e =>
    obtain ⟨il, v, x⟩ := e
    cases il with
    | true => rfl
    | false => cases x <;> rfl

/-- The tails of `min` and `successor`. -/
theorem firstOf_eq (t : SparseBranch b w c M C) (hi : BitVec c) :
    (match FlatMap.find t.clusters hi with
    | none => .fallback none
    | some entry =>
      if entry.inlineOnly then pure (some (combine b w hi entry.inlineValue))
      else
        match entry.child with
        | none => .fallback none
        | some child => do
          match ← VebNode.min child with
          | none => .fallback none
          | some lo => pure (some (combine b w hi lo))) = t.view.firstOf b w hi := by
  unfold View.firstOf
  rw [view_cluster]
  rw [cluster_toNat]
  dsimp only [entryAt]
  cases FlatMap.find t.clusters hi with
  | none => rfl
  | some e =>
    obtain ⟨il, v, x⟩ := e
    cases il with
    | true => rfl
    | false => cases x <;> rfl

theorem lastOf_eq (t : SparseBranch b w c M C) (hi : BitVec c) :
    (match FlatMap.find t.clusters hi with
    | none => .fallback none
    | some entry =>
      if entry.inlineOnly then pure (some (combine b w hi entry.inlineValue))
      else
        match entry.child with
        | none => .fallback none
        | some child => do
          match ← VebNode.max child with
          | none => .fallback none
          | some lo => pure (some (combine b w hi lo))) = t.view.lastOf b w hi := by
  unfold View.lastOf
  rw [view_cluster]
  rw [cluster_toNat]
  dsimp only [entryAt]
  cases FlatMap.find t.clusters hi with
  | none => rfl
  | some e =>
    obtain ⟨il, v, x⟩ := e
    cases il with
    | true => rfl
    | false => cases x <;> rfl

theorem min_eq (t : SparseBranch b w c M C) : t.min = t.view.min b w := by
  unfold SparseBranch.min View.min
  refine congrArg _ (funext fun r => ?_)
  cases r with
  | none => rfl
  | some hi => exact t.firstOf_eq hi

theorem max_eq (t : SparseBranch b w c M C) : t.max = t.view.max b w := by
  unfold SparseBranch.max View.max
  refine congrArg _ (funext fun r => ?_)
  cases r with
  | none => rfl
  | some hi => exact t.lastOf_eq hi

theorem clusterSuccessor_eq (t : SparseBranch b w c M C) (hi lo : BitVec c) :
    t.clusterSuccessor hi lo = t.view.clusterSuccessor hi.toNat lo := by
  unfold clusterSuccessor View.clusterSuccessor
  rw [view_cluster]
  rw [cluster_toNat]
  dsimp only [entryAt]
  cases FlatMap.find t.clusters hi with
  | none => rfl
  | some e =>
    obtain ⟨il, v, x⟩ := e
    cases il with
    | true => rfl
    | false => cases x <;> rfl

theorem clusterPredecessor_eq (t : SparseBranch b w c M C) (hi limit : BitVec c) :
    t.clusterPredecessor hi limit = t.view.clusterPredecessor hi.toNat limit := by
  unfold clusterPredecessor View.clusterPredecessor
  rw [view_cluster]
  rw [cluster_toNat]
  dsimp only [entryAt]
  cases FlatMap.find t.clusters hi with
  | none => rfl
  | some e =>
    obtain ⟨il, v, x⟩ := e
    cases il with
    | true => rfl
    | false => cases x <;> rfl

theorem successor_eq (t : SparseBranch b w c M C) (he : ¬ VebNode.empty t.summary = true)
    (hmax : ¬ maxKey (2 * b) w ≤ key) :
    t.successor key = t.view.successor b w (hiPart b key) (loPart b key) := by
  unfold successor View.successor
  rw [if_neg he, if_neg hmax]
  dsimp only
  rw [clusterSuccessor_eq]
  refine congrArg _ (funext fun found => ?_)
  cases found with
  | some s => rfl
  | none =>
    refine congrArg (VebNode.successor t.summary (hiPart b key) >>= ·) (funext fun r => ?_)
    cases r with
    | none => rfl
    | some next => exact t.firstOf_eq next

theorem predecessor_eq (t : SparseBranch b w c M C) (he : ¬ VebNode.empty t.summary = true)
    (h0 : key ≠ 0) (hmax : ¬ maxKey (2 * b) w < key) :
    t.predecessor key = t.view.predecessor b w (hiPart b key) (loPart b key) := by
  unfold predecessor View.predecessor
  rw [if_neg he, if_neg (not_or.mpr ⟨h0, hmax⟩)]
  dsimp only
  rw [clusterPredecessor_eq]
  refine congrArg _ (funext fun found => ?_)
  cases found with
  | some p => rfl
  | none =>
    refine congrArg (VebNode.predecessor t.summary (hiPart b key) >>= ·) (funext fun r => ?_)
    cases r with
    | none => rfl
    | some prev => exact t.lastOf_eq prev

end Queries

end SparseBranch

end ParvEB
