import Mathlib.Tactic.Ring
import ParvEB.Trees

/-! What a tree keeps on the heap: the targets of its `unique_ptr`s and the entries of its maps. -/
namespace ParvEB

open Outcome

/-- How many of them lie below a node. `perKey` and `base` bound that for a well-formed one. -/
class Footprint (T : Type) where
  heap : T → ℕ
  perKey : ℕ
  base : ℕ

class LawfulFootprint (T : Type) {w : outParam ℕ} [VebNode T w] {bits : outParam ℕ}
    [LawfulVeb T bits] [Footprint T] : Prop where
  heap_le {t : T} : LawfulVeb.Inv False t →
    Footprint.heap t ≤ Footprint.perKey T * (LawfulVeb.keys t).ncard + Footprint.base T
  heap_of_empty {t : T} : LawfulVeb.Inv False t → LawfulVeb.keys t = ∅ → Footprint.heap t = 0

theorem keys_finite {T : Type} {w bits : ℕ} [VebNode T w] [LawfulVeb T bits] {lax : Prop} {t : T}
    (h : LawfulVeb.Inv lax t) : (LawfulVeb.keys t).Finite :=
  (Set.finite_lt_nat (2 ^ bits)).subset fun _ => LawfulVeb.key_lt h

variable {b w c : ℕ} {C : Type} [Footprint C]

/-- What a child costs the node that holds it: `cell` is 1 when a pointer owns it and 0 when it is
a member. -/
def held (cell : ℕ) : Option C → ℕ
  | none => 0
  | some x => cell + Footprint.heap x

section Node

variable [VebNode C c] [LawfulVeb C b] [LawfulFootprint C] {x : C}

theorem heap_le_of_nonempty (h : LawfulVeb.Inv False x) (hne : (LawfulVeb.keys x).Nonempty) :
    Footprint.heap x ≤ (Footprint.perKey C + Footprint.base C) * (LawfulVeb.keys x).ncard := by
  have hpos := (Set.ncard_pos (keys_finite h)).mpr hne
  rw [Nat.add_mul]
  exact (LawfulFootprint.heap_le h).trans (Nat.add_le_add_left (Nat.le_mul_of_pos_right _ hpos) _)

theorem held_le (h : LawfulVeb.Inv False x) (hne : (LawfulVeb.keys x).Nonempty) (cell : ℕ) :
    held cell (some x) ≤
      (cell + (Footprint.perKey C + Footprint.base C)) * (LawfulVeb.keys x).ncard := by
  have hpos := (Set.ncard_pos (keys_finite h)).mpr hne
  rw [Nat.add_mul]
  exact Nat.add_le_add (Nat.le_mul_of_pos_right _ hpos) (heap_le_of_nonempty h hne)

end Node

namespace View

variable [VebNode C c] [LawfulVeb C b] {lax : Prop} {v : View c C}

omit [Footprint C] in
theorem Inv.keysAt_eq (h : v.Inv b lax) (i : ℕ) :
    fibre (· / 2 ^ b) (· % 2 ^ b) (v.keys b) i = v.keysAt i := by
  cases hi : v.cluster i with
  | none =>
    rw [Inv.fibre_keys_none hi]
    ext l
    simp [keysAt, hi]
  | some cl => rw [h.fibre_keys hi, keysAt_some hi]

omit [Footprint C] in
theorem Inv.keys_finite (h : v.Inv b lax) : (v.keys b).Finite :=
  (Set.finite_lt_nat (2 ^ (2 * b))).subset fun _ => h.key_lt

omit [Footprint C] in
/-- The clusters of a branch cost no more for each key than each of them does. -/
theorem Inv.sum_le (h : v.Inv b lax) {ι : Type} {e : ι → ℕ} (he : Function.Injective e)
    {s : Finset ι} {cost : ι → ℕ} {r : ℕ}
    (hcost : ∀ i ∈ s, cost i ≤ r * (v.keysAt (e i)).ncard) :
    ∑ i ∈ s, cost i ≤ r * (v.keys b).ncard := by
  refine sum_le_mul_ncard (· / 2 ^ b) (· % 2 ^ b) h.keys_finite he fun i hi => ?_
  rw [h.keysAt_eq]
  exact hcost i hi

/-- The summary has no more keys than the branch. -/
theorem Inv.heap_summary_le [LawfulFootprint C] (h : v.Inv b False) :
    Footprint.heap v.summary ≤ Footprint.perKey C * (v.keys b).ncard + Footprint.base C := by
  refine (LawfulFootprint.heap_le h.summary).trans (Nat.add_le_add_right ?_ _)
  rw [← h.heads_keys]
  exact Nat.mul_le_mul_left _ (ncard_heads_le h.keys_finite)

end View

namespace DenseBranch

variable {inl : Bool}

def heap (t : DenseBranch b w c inl C) : ℕ :=
  held 1 t.summary + ∑ i, held (if inl then 0 else 1) ((t.clusters i).get inl)

instance footprint : Footprint (DenseBranch b w c inl C) where
  heap := heap
  perKey := 2 * Footprint.perKey C + Footprint.base C + if inl then 0 else 1
  base := 1 + Footprint.base C

variable [VebNode C c] [LawfulVeb C b] {t : DenseBranch b w c inl C} {s : SlotState c C}

omit [Footprint C] in
theorem Inv.summary_isSome [Widths b w c] (h : t.Inv False) :
    t.summary.isSome ↔ (t.view.keys b).Nonempty := by
  have hv := h.view_inv (Widths.fan w c)
  have hkeys : LawfulVeb.keys t.view.summary = t.indices := h.summary.getD.2
  rw [Option.isSome_iff_ne_none, Ne, h.summary.null, ← hkeys, ← hv.keys_eq_empty_iff,
    Set.nonempty_iff_ne_empty]

variable [LawfulFootprint C]

/-- Only a cluster that holds a child costs anything. -/
theorem SlotInv.held_eq_zero (h : SlotInv b False inl s) (hc : ¬ s.clusterBit = true) :
    held (if inl then 0 else 1) s.child = 0 := by
  cases hx : s.child with
  | none => rfl
  | some x =>
    obtain ⟨hinv, hne⟩ := h.child x hx
    have hinl := h.pointer
    rw [hx, Bool.eq_false_iff.mpr hc, Bool.or_false] at hinl
    subst hinl
    have hempty := Set.not_nonempty_iff_eq_empty.mp (hc ∘ hne.mp)
    simp [held, LawfulFootprint.heap_of_empty hinv hempty]

theorem Inv.held_slot_le (h : t.Inv False) (i : Fin (2 ^ b)) :
    held (if inl then 0 else 1) ((t.clusters i).get inl) ≤
      ((if inl then 0 else 1) + (Footprint.perKey C + Footprint.base C)) *
        (t.view.keysAt i).ncard := by
  have hslot := h.slot i
  by_cases hc : (t.slotAt i).clusterBit = true
  · obtain ⟨x, hx⟩ := hslot.get_isSome hc
    obtain ⟨hinv, hne⟩ := hslot.child x hx
    have hcl : t.view.cluster i = some (.child x) := by
      rw [view_cluster, cluster_of_lt i.isLt]
      simp [SlotState.cluster, hslot.inlineBit_eq_false hc, hc, hx]
    rw [View.keysAt_some hcl, show (t.clusters i).get inl = some x from hx]
    exact held_le hinv (hne.mpr hc) _
  · exact (hslot.held_eq_zero hc).le.trans (Nat.zero_le _)

variable [Widths b w c]

theorem Inv.held_slots_le (h : t.Inv False) :
    ∑ i, held (if inl then 0 else 1) ((t.clusters i).get inl) ≤
      ((if inl then 0 else 1) + (Footprint.perKey C + Footprint.base C)) *
        (t.view.keys b).ncard :=
  (h.view_inv (Widths.fan w c)).sum_le Fin.val_injective fun i _ => h.held_slot_le i

theorem Inv.held_summary_le (h : t.Inv False) :
    held 1 t.summary ≤
      Footprint.perKey C * (t.view.keys b).ncard + (1 + Footprint.base C) := by
  have hle := (h.view_inv (Widths.fan w c)).heap_summary_le
  cases hs : t.summary with
  | none => exact Nat.zero_le _
  | some s =>
    rw [show t.view.summary = s by simp [view, hs]] at hle
    change 1 + Footprint.heap s ≤ _
    omega

theorem Inv.heap_le (h : t.Inv False) :
    t.heap ≤ (2 * Footprint.perKey C + Footprint.base C + if inl then 0 else 1) *
      (t.view.keys b).ncard + (1 + Footprint.base C) := by
  refine (Nat.add_le_add h.held_summary_le h.held_slots_le).trans (le_of_eq ?_)
  ring

/-- An empty branch has given back all that it had. -/
theorem Inv.heap_eq_zero_iff (h : t.Inv False) : t.heap = 0 ↔ t.view.keys b = ∅ := by
  have hsome := h.summary_isSome
  constructor
  · intro hheap
    by_contra hne
    obtain ⟨s, hs⟩ := Option.isSome_iff_exists.mp (hsome.mpr (Set.nonempty_iff_ne_empty.mpr hne))
    rw [heap, hs, held] at hheap
    omega
  · intro hempty
    have hslots := h.held_slots_le
    rw [hempty, Set.ncard_empty, Nat.mul_zero, Nat.le_zero] at hslots
    have hsummary : t.summary = none := by
      rw [← Option.not_isSome_iff_eq_none, hsome, hempty]
      exact Set.not_nonempty_empty
    rw [heap, hslots, hsummary, held]

instance lawfulFootprint : LawfulFootprint (DenseBranch b w c inl C) :=
  ⟨Inv.heap_le, fun h hempty => h.heap_eq_zero_iff.mpr hempty⟩

end DenseBranch

namespace SparseBranch

variable {M : ℕ → Type → Type} [FlatMap M]

/-- What one index costs: the entry, and the child it owns. -/
def entryHeap : Option (ClusterEntry c C) → ℕ
  | none => 0
  | some e => 1 + held 1 e.child

variable [VebNode C c]

def heap (t : SparseBranch b w c M C) : ℕ :=
  Footprint.heap t.summary + ∑ i ∈ Finset.range (2 ^ c), entryHeap (t.entryAt (BitVec.ofNat c i))

instance footprint : Footprint (SparseBranch b w c M C) where
  heap := heap
  perKey := 2 * Footprint.perKey C + Footprint.base C + 2
  base := Footprint.base C

variable [LawfulVeb C b] [LawfulFootprint C] {t : SparseBranch b w c M C}

theorem Inv.entryHeap_le (h : t.Inv False) {i : ℕ} (hi : i < 2 ^ c) :
    entryHeap (t.entryAt (BitVec.ofNat c i)) ≤
      (2 + (Footprint.perKey C + Footprint.base C)) * (t.view.keysAt i).ncard := by
  cases he : t.entryAt (BitVec.ofNat c i) with
  | none => exact Nat.zero_le _
  | some e =>
    have hentry := h.entry _ e he
    have hcl : t.view.cluster i = e.cluster := by
      rw [view_cluster, cluster, if_pos hi, he, Option.bind_some]
    cases hil : e.inlineOnly with
    | true =>
      have hchild := hentry.null_child hil not_false
      rw [ClusterEntry.cluster, if_pos hil] at hcl
      rw [View.keysAt_some hcl, Cluster.keys, Set.ncard_singleton, entryHeap, hchild, held]
      omega
    | false =>
      obtain ⟨x, hx, hinv, hne⟩ := hentry.child hil
      rw [ClusterEntry.cluster, if_neg (by simp [hil]), hx, Option.map_some] at hcl
      rw [View.keysAt_some hcl, entryHeap, hx]
      have hpos := (Set.ncard_pos (ParvEB.keys_finite hinv)).mpr hne
      have hle := held_le hinv hne 1
      change 1 + held 1 (some x) ≤ _ * (LawfulVeb.keys x).ncard
      rw [Nat.add_mul] at hle ⊢
      omega

theorem Inv.entries_le (h : t.Inv False) :
    ∑ i ∈ Finset.range (2 ^ c), entryHeap (t.entryAt (BitVec.ofNat c i)) ≤
      (2 + (Footprint.perKey C + Footprint.base C)) * (t.view.keys b).ncard :=
  h.view_inv.sum_le Function.injective_id fun _ hi => h.entryHeap_le (Finset.mem_range.mp hi)

theorem Inv.heap_le (h : t.Inv False) :
    t.heap ≤ (2 * Footprint.perKey C + Footprint.base C + 2) * (t.view.keys b).ncard +
      Footprint.base C := by
  refine (Nat.add_le_add h.view_inv.heap_summary_le h.entries_le).trans (le_of_eq ?_)
  ring

theorem Inv.heap_eq_zero_iff (h : t.Inv False) : t.heap = 0 ↔ t.view.keys b = ∅ := by
  constructor
  · intro hheap
    by_contra hne
    obtain ⟨k, cl, hcl, _⟩ := Set.nonempty_iff_ne_empty.mpr hne
    rw [view_cluster, cluster] at hcl
    split at hcl
    next hi =>
      obtain ⟨e, he, _⟩ := Option.bind_eq_some_iff.mp hcl
      have hle := Finset.single_le_sum
        (f := fun i => entryHeap (t.entryAt (BitVec.ofNat c i))) (fun _ _ => Nat.zero_le _)
        (Finset.mem_range.mpr hi)
      rw [he, entryHeap] at hle
      rw [heap] at hheap
      omega
    next => cases hcl
  · intro hempty
    have hentries := h.entries_le
    rw [hempty, Set.ncard_empty, Nat.mul_zero, Nat.le_zero] at hentries
    have hsummary := h.view_inv.keys_eq_empty_iff.mp hempty
    rw [heap, hentries, LawfulFootprint.heap_of_empty h.summary hsummary]

instance lawfulFootprint [Widths b w c] : LawfulFootprint (SparseBranch b w c M C) :=
  ⟨Inv.heap_le, fun h hempty => h.heap_eq_zero_iff.mpr hempty⟩

end SparseBranch

section Levels

variable {M : ℕ → Type → Type} [FlatMap M]

/-- A leaf is a word or an array of words. -/
instance : Footprint VebLeaf6 := ⟨fun _ => 0, 0, 0⟩
instance : Footprint VebLeaf8 := ⟨fun _ => 0, 0, 0⟩
instance : LawfulFootprint VebLeaf6 := ⟨fun _ => Nat.zero_le _, fun _ _ => rfl⟩
instance : LawfulFootprint VebLeaf8 := ⟨fun _ => Nat.zero_le _, fun _ _ => rfl⟩

instance : (T : Tree) → Footprint (T.State M)
  | .veb24 => (inferInstance : Footprint VebTop24)
  | .veb32 => (inferInstance : Footprint VebTop32)
  | .veb48 => (inferInstance : Footprint (VebBranch48 M))
  | .veb64 => (inferInstance : Footprint (VebBranch64 M))

instance : (T : Tree) → LawfulFootprint (T.State M)
  | .veb24 => (inferInstance : LawfulFootprint VebTop24)
  | .veb32 => (inferInstance : LawfulFootprint VebTop32)
  | .veb48 => (inferInstance : LawfulFootprint (VebBranch48 M))
  | .veb64 => (inferInstance : LawfulFootprint (VebBranch64 M))

end Levels

namespace Tree

variable {M : ℕ → Type → Type} [FlatMap M] {T : Tree} {t : T.State M}

def heapPerKey : Tree → ℕ
  | veb24 | veb32 => 2
  | veb48 | veb64 => 9

def heapBase : Tree → ℕ
  | veb24 | veb32 => 2
  | veb48 | veb64 => 1

theorem perKey_eq : Footprint.perKey (T.State M) = T.heapPerKey := by
  cases T <;> rfl

theorem base_eq : Footprint.base (T.State M) = T.heapBase := by
  cases T <;> rfl

theorem image_stored {lax : Prop} (h : LawfulVeb.Inv lax t) :
    BitVec.toNat '' {k | Stored t k} = LawfulVeb.keys t := by
  ext n
  constructor
  · rintro ⟨k, hk, rfl⟩
    exact (stored_iff h).mp hk
  · intro hn
    obtain ⟨k, hk, rfl⟩ := exists_stored h hn
    exact ⟨k, hk, rfl⟩

theorem ncard_stored {lax : Prop} (h : LawfulVeb.Inv lax t) :
    {k | Stored t k}.ncard = (LawfulVeb.keys t).ncard := by
  rw [← image_stored h, Set.ncard_image_of_injective _ fun _ _ => BitVec.eq_of_toNat_eq]

theorem heap_eq_zero_iff (h : LawfulVeb.Inv False t) :
    Footprint.heap t = 0 ↔ LawfulVeb.keys t = ∅ := by
  cases T with
  | veb24 => exact DenseBranch.Inv.heap_eq_zero_iff (b := 12) (w := 32) h
  | veb32 => exact DenseBranch.Inv.heap_eq_zero_iff (b := 16) (w := 32) h
  | veb48 => exact SparseBranch.Inv.heap_eq_zero_iff (b := 24) (w := 64) h
  | veb64 => exact SparseBranch.Inv.heap_eq_zero_iff (b := 32) (w := 64) h

end Tree

section Runs

variable (M : ℕ → Type → Type) [FlatMap M] (T : Tree) (ops : List (Op T.width))

/-- The heap grows with the keys that are stored, not with the universe or the run. -/
theorem heap_after_run (hops : T.InRange ops) :
    (run (VebNode.fresh : T.State M) ops).Returns fun t =>
      Footprint.heap t ≤ T.heapPerKey * {k | Tree.Stored t k}.ncard + T.heapBase := by
  refine (Tree.run_fresh hops).mono ?_
  rintro t ⟨h, _⟩
  have hle := LawfulFootprint.heap_le h
  rwa [Tree.perKey_eq, Tree.base_eq, ← Tree.ncard_stored h] at hle

theorem heap_after_two_insertions :
    (run (VebNode.fresh : Tree.veb48.State FunMap) [.insert 7, .insert 0x1000000, .erase 7]).Returns
      fun t => Footprint.heap t ≤
        Tree.veb48.heapPerKey * {k | Tree.Stored t k}.ncard + Tree.veb48.heapBase :=
  heap_after_run FunMap .veb48 _ (by decide)

/-- A tree holds on to nothing exactly when it stores nothing. -/
theorem heap_empty_after_run (hops : T.InRange ops) :
    (run (VebNode.fresh : T.State M) ops).Returns fun t =>
      Footprint.heap t = 0 ↔ ∀ k, ¬ Tree.Stored t k := by
  refine (Tree.run_fresh hops).mono ?_
  rintro t ⟨h, _⟩
  rw [Tree.heap_eq_zero_iff h, Tree.keys_eq_empty_iff h]

theorem heap_empty_after_erasures :
    (run (VebNode.fresh : Tree.veb24.State FunMap) [.insert 7, .insert 8, .erase 7,
      .erase 8]).Returns fun t => Footprint.heap t = 0 ↔ ∀ k, ¬ Tree.Stored t k :=
  heap_empty_after_run FunMap .veb24 _ (by decide)

end Runs

end ParvEB
