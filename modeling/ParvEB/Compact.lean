import Mathlib.Data.Set.Subsingleton
import ParvEB.Interchange
import ParvEB.Space

/-! The states that insertions alone build. -/
namespace ParvEB

open Outcome

/-- `Compact` says that every child, at every level, holds two keys or more. Nothing else about a
state depends on how it came about. -/
class LawfulCompact (T : Type) {w : outParam ℕ} [VebNode T w] {bits : outParam ℕ}
    [LawfulVeb T bits] [LawfulShape T] where
  Compact : T → Prop
  of_empty {t : T} : LawfulVeb.Inv False t → LawfulVeb.keys t = ∅ → Compact t
  inserted {t t' : T} {k : BitVec w} : LawfulVeb.Inv False t → k.toNat < 2 ^ bits → Compact t →
    Inserted t k t' → Compact t'
  of_same {t t' : T} : LawfulVeb.Inv False t → LawfulVeb.Inv False t' → LawfulShape.Same t t' →
    Compact t → Compact t'
  same_of_keys {t t' : T} : LawfulVeb.Inv False t → LawfulVeb.Inv False t' → Compact t →
    Compact t' → LawfulVeb.keys t = LawfulVeb.keys t' → LawfulShape.Same t t'

section Leaves

instance : LawfulCompact VebLeaf6 where
  Compact _ := True
  of_empty _ _ := trivial
  inserted _ _ _ _ := trivial
  of_same _ _ _ _ := trivial
  same_of_keys {t t'} _ _ _ _ h := by
    obtain ⟨x⟩ := t
    obtain ⟨x'⟩ := t'
    exact congrArg VebLeaf6.mk (eq_of_bitsOf_eq h)

instance : LawfulCompact VebLeaf8 where
  Compact _ := True
  of_empty _ _ := trivial
  inserted _ _ _ _ := trivial
  of_same _ _ _ _ := trivial
  same_of_keys {t t'} _ _ _ _ h := by
    obtain ⟨x⟩ := t
    obtain ⟨x'⟩ := t'
    exact congrArg VebLeaf8.mk (indices_injective h)

end Leaves

variable {b w c : ℕ} {C : Type} [VebNode C c] [LawfulVeb C b] [LawfulShape C] [LawfulCompact C]

namespace Cluster

variable {o o' : Option (Cluster c C)} {lo : BitVec c}

/-- A child that could not be an inline value. -/
def Compact (b : ℕ) [LawfulVeb C b] [LawfulShape C] [LawfulCompact C] : Cluster c C → Prop
  | .inline _ => True
  | .child x => LawfulCompact.Compact x ∧ (LawfulVeb.keys x).Nontrivial

theorem Grows.compact (h : Grows b False lo o o') (ho : ∀ cl, o = some cl → cl.Inv b False)
    (hlo : lo.toNat < 2 ^ b) (hc : ∀ cl, o = some cl → cl.Compact b) :
    ∀ cl, o' = some cl → cl.Compact b := by
  cases h with
  | absent =>
    rintro _ ⟨⟩
    exact trivial
  | present => exact hc
  | @expand v x y z hne hx hsub hempty hy hz =>
    have hv : v.toNat < 2 ^ b := ho _ rfl
    obtain ⟨hyinv, hykeys⟩ := hy.spec hx hv
    obtain ⟨_, hzkeys⟩ := hz.spec hyinv hlo
    have hxc := LawfulCompact.of_empty hx (hempty id)
    have hyc := LawfulCompact.inserted hx hv hxc hy
    rintro _ ⟨⟩
    refine ⟨LawfulCompact.inserted hyinv hlo hyc hz, v.toNat, ?_, lo.toNat, ?_, ?_⟩
    · rw [hzkeys, hykeys]
      exact Set.mem_insert_of_mem _ (Set.mem_insert _ _)
    · rw [hzkeys]
      exact Set.mem_insert _ _
    · exact fun he => hne (BitVec.eq_of_toNat_eq he)
  | @child x y hy =>
    obtain ⟨hxc, hx⟩ := hc _ rfl
    have hxinv := (ho _ rfl).1
    rintro _ ⟨⟩
    refine ⟨LawfulCompact.inserted hxinv hlo hxc hy, hx.mono ?_⟩
    rw [(hy.spec hxinv hlo).2]
    exact Set.subset_insert _ _

theorem Same.compact (h : Same b o o') (ho : ∀ cl, o = some cl → cl.Inv b False)
    (ho' : ∀ cl, o' = some cl → cl.Inv b False) (hc : ∀ cl, o = some cl → cl.Compact b) :
    ∀ cl, o' = some cl → cl.Compact b := by
  cases h with
  | absent =>
    rintro _ ⟨⟩
  | inline v => exact hc
  | @child x x' hx =>
    obtain ⟨hxc, hne⟩ := hc _ rfl
    have hinv := (ho _ rfl).1
    have hinv' := (ho' _ rfl).1
    rintro _ ⟨⟩
    exact ⟨LawfulCompact.of_same hinv hinv' hx hxc, LawfulShape.keys_eq hinv hinv' hx ▸ hne⟩

omit [LawfulShape C] [LawfulCompact C] in
/-- Two keys or more cannot be those of an inline value. -/
theorem child_of_keysOf {x : C} (hx : (LawfulVeb.keys x).Nontrivial)
    (h : keysOf (some (.child x)) = keysOf o') :
    ∃ x', o' = some (.child x') ∧ LawfulVeb.keys x = LawfulVeb.keys x' := by
  rw [keysOf_some] at h
  cases o' with
  | none =>
    rw [keysOf_none] at h
    exact (hx.nonempty.ne_empty h).elim
  | some cl' =>
    rw [keysOf_some] at h
    cases cl' with
    | inline v' =>
      rw [show LawfulVeb.keys x = {v'.toNat} from h] at hx
      exact (Set.not_nontrivial_singleton hx).elim
    | child x' => exact ⟨x', rfl, h⟩

/-- The keys of an index tell what it holds. -/
theorem same_of_keysOf (ho : ∀ cl, o = some cl → cl.Inv b False)
    (ho' : ∀ cl, o' = some cl → cl.Inv b False) (hc : ∀ cl, o = some cl → cl.Compact b)
    (hc' : ∀ cl, o' = some cl → cl.Compact b) (h : keysOf o = keysOf o') : Same b o o' := by
  cases o with
  | none =>
    cases o' with
    | none => exact .absent
    | some cl' =>
      rw [keysOf_none, keysOf_some] at h
      exact ((ho' cl' rfl).nonempty.ne_empty h.symm).elim
  | some cl =>
    cases cl with
    | inline v =>
      cases o' with
      | none =>
        rw [keysOf_none, keysOf_some] at h
        exact ((ho _ rfl).nonempty.ne_empty h).elim
      | some cl' =>
        cases cl' with
        | inline v' =>
          rw [keysOf_some, keysOf_some] at h
          rw [BitVec.eq_of_toNat_eq (Set.singleton_injective h)]
          exact .inline v'
        | child x' =>
          obtain ⟨x, hx, _⟩ := child_of_keysOf (hc' _ rfl).2 h.symm
          cases hx
    | child x =>
      obtain ⟨x', rfl, hk⟩ := child_of_keysOf (hc _ rfl).2 h
      exact .child (LawfulCompact.same_of_keys (ho _ rfl).1 (ho' _ rfl).1 (hc _ rfl).1
        (hc' _ rfl).1 hk)

end Cluster

namespace View

variable {v v' : View c C} {hi lo : BitVec c}

structure Compact (b : ℕ) [LawfulVeb C b] [LawfulShape C] [LawfulCompact C] (v : View c C) :
    Prop where
  summary : LawfulCompact.Compact v.summary
  cluster : ∀ i cl, v.cluster i = some cl → cl.Compact b

theorem Compact.of_empty (hv : v.Inv b False) (hk : v.keys b = ∅) : v.Compact b := by
  have hs := hv.keys_eq_empty_iff.mp hk
  refine ⟨LawfulCompact.of_empty hv.summary hs, fun i cl hcl => ?_⟩
  have hmem : i ∈ LawfulVeb.keys v.summary := (hv.mem_summary i).mpr (by simp [hcl])
  rw [hs] at hmem
  exact hmem.elim

theorem Compact.grows (h : v.Compact b) (hv : v.Inv b False) (hhi : hi.toNat < 2 ^ b)
    (hlo : lo.toNat < 2 ^ b) (hu : v.Grows b False hi lo v') : v'.Compact b := by
  constructor
  · cases hcl : v.cluster hi.toNat with
    | none => exact LawfulCompact.inserted hv.summary hhi h.summary (hu.summary_new hcl)
    | some cl =>
      rw [hu.summary_old (by simp [hcl])]
      exact h.summary
  · intro j
    by_cases hj : j = hi.toNat
    · rw [hj]
      exact hu.grown.compact (hv.cluster _) hlo (h.cluster _)
    · rw [hu.others j hj]
      exact h.cluster j

theorem Compact.of_same (hv : v.Inv b False) (hv' : v'.Inv b False) (hs : v.Same b v')
    (h : v.Compact b) : v'.Compact b :=
  ⟨LawfulCompact.of_same hv.summary hv'.summary hs.summary h.summary, fun i =>
    (hs.cluster i).compact (hv.cluster i) (hv'.cluster i) (h.cluster i)⟩

omit [LawfulShape C] [LawfulCompact C] in
/-- Branches with the same keys have the same keys under every index, in the summary too. -/
theorem Inv.keysOf_eq (hv : v.Inv b False) (hv' : v'.Inv b False) (hk : v.keys b = v'.keys b)
    (i : ℕ) : Cluster.keysOf (v.cluster i) = Cluster.keysOf (v'.cluster i) := by
  have heq := hv.keysAt_eq i
  rw [hk, hv'.keysAt_eq] at heq
  exact heq.symm

omit [LawfulShape C] [LawfulCompact C] in
theorem Inv.keys_summary_eq (hv : v.Inv b False) (hv' : v'.Inv b False)
    (hk : v.keys b = v'.keys b) : LawfulVeb.keys v.summary = LawfulVeb.keys v'.summary := by
  rw [← hv.heads_keys, ← hv'.heads_keys, hk]

theorem Compact.same_of_keys (hv : v.Inv b False) (hv' : v'.Inv b False) (h : v.Compact b)
    (h' : v'.Compact b) (hk : v.keys b = v'.keys b) : v.Same b v' :=
  ⟨LawfulCompact.same_of_keys hv.summary hv'.summary h.summary h'.summary
    (hv.keys_summary_eq hv' hk), fun i =>
    Cluster.same_of_keysOf (hv.cluster i) (hv'.cluster i) (h.cluster i) (h'.cluster i)
      (hv.keysOf_eq hv' hk i)⟩

end View

namespace DenseBranch

variable {inl : Bool} [Widths b w c] [LawfulTraversal C]

instance compact : LawfulCompact (DenseBranch b w c inl C) where
  Compact t := t.view.Compact b
  of_empty h hk := .of_empty (h.view_inv (Widths.fan w c)) hk
  inserted h hk hc hu :=
    hc.grows (h.view_inv (Widths.fan w c)) (SparseBranch.hiPart_lt C hk) (loPart_lt C _).2
      (grows_of_inserted h hk hu)
  of_same h h' hs hc :=
    .of_same (h.view_inv (Widths.fan w c)) (h'.view_inv (Widths.fan w c)) hs hc
  same_of_keys h h' hc hc' hk :=
    hc.same_of_keys (h.view_inv (Widths.fan w c)) (h'.view_inv (Widths.fan w c)) hc' hk

end DenseBranch

namespace SparseBranch

variable {M : ℕ → Type → Type} [FlatMap M] [Widths b w c] [LawfulTraversal C]

omit [LawfulCompact C] in
instance shape : LawfulShape (SparseBranch b w c M C) where
  Same t t' := t.view.Same b t'.view
  keys_eq h h' hs := hs.keys_eq h.view_inv h'.view_inv
  of_empty h h' hk hk' := .of_empty h.view_inv h'.view_inv hk hk'
  inserted h h' hk hs hu hu' :=
    hs.grows h.view_inv h'.view_inv (hiPart_lt C hk) (loPart_lt C _).2
      (grows_of_inserted h hk hu) (grows_of_inserted h' hk hu')
  erased h h' hk hs hu hu' :=
    hs.shrinks h.view_inv h'.view_inv (hiPart_lt C hk) (loPart_lt C _).2
      (shrinks_of_erased h hk hu) (shrinks_of_erased h' hk hu')
  forEach_eq {t t'} p h h' hs := by
    have heq := hs.forEach_eq h.view_inv h'.view_inv p
    rw [← forEach_eq, ← forEach_eq] at heq
    exact heq

instance compact : LawfulCompact (SparseBranch b w c M C) where
  Compact t := t.view.Compact b
  of_empty h hk := .of_empty h.view_inv hk
  inserted h hk hc hu :=
    hc.grows h.view_inv (hiPart_lt C hk) (loPart_lt C _).2 (grows_of_inserted h hk hu)
  of_same h h' hs hc := .of_same h.view_inv h'.view_inv hs hc
  same_of_keys h h' hc hc' hk := hc.same_of_keys h.view_inv h'.view_inv hc' hk

end SparseBranch

section Heap

/-- A compact node owns the fewest objects among those that stand for its keys. -/
class LeastHeap (T : Type) {w : outParam ℕ} [VebNode T w] {bits : outParam ℕ} [LawfulVeb T bits]
    [LawfulShape T] [LawfulCompact T] [Footprint T] : Prop where
  heap_le {t t' : T} : LawfulVeb.Inv False t → LawfulVeb.Inv False t' → LawfulCompact.Compact t →
    LawfulVeb.keys t = LawfulVeb.keys t' → Footprint.heap t ≤ Footprint.heap t'

variable [LawfulTraversal C] [Footprint C] [LawfulFootprint C] [LeastHeap C] [Widths b w c]

namespace DenseBranch

variable {inl : Bool} {t t' : DenseBranch b w c inl C}

omit [LawfulTraversal C] [LawfulFootprint C] in
theorem Inv.held_summary_mono (h : t.Inv False) (h' : t'.Inv False) (hc : t.view.Compact b)
    (hk : t.view.keys b = t'.view.keys b) : held 1 t.summary ≤ held 1 t'.summary := by
  have hsummary := hc.summary
  have hinv := (h.view_inv (Widths.fan w c)).summary
  have hinv' := (h'.view_inv (Widths.fan w c)).summary
  have hkeys := (h.view_inv (Widths.fan w c)).keys_summary_eq (h'.view_inv (Widths.fan w c)) hk
  cases hs : t.summary with
  | none => exact Nat.zero_le _
  | some s =>
    have hsome : t'.summary.isSome := by
      rw [h'.summary_isSome, ← hk, ← h.summary_isSome, hs]
      rfl
    obtain ⟨s', hs'⟩ := Option.isSome_iff_exists.mp hsome
    rw [show t.view.summary = s by simp [view, hs]] at hsummary hinv hkeys
    rw [show t'.view.summary = s' by simp [view, hs']] at hinv' hkeys
    rw [hs', held, held]
    exact Nat.add_le_add_left (LeastHeap.heap_le hinv hinv' hsummary hkeys) 1

omit [LawfulTraversal C] in
theorem Inv.held_slot_mono (h : t.Inv False) (h' : t'.Inv False) (hc : t.view.Compact b)
    (hk : t.view.keys b = t'.view.keys b) (i : Fin (2 ^ b)) :
    held (if inl then 0 else 1) ((t.clusters i).get inl) ≤
      held (if inl then 0 else 1) ((t'.clusters i).get inl) := by
  have hv := h.view_inv (Widths.fan w c)
  have hv' := h'.view_inv (Widths.fan w c)
  have hslot := h.slot i
  by_cases hbit : (t.slotAt i).clusterBit = true
  · obtain ⟨x, hx⟩ := hslot.get_isSome hbit
    have hcl : t.view.cluster i = some (.child x) := by
      rw [view_cluster, cluster_of_lt i.isLt]
      exact SlotState.cluster_child (hslot.inlineBit_eq_false hbit) hbit hx
    obtain ⟨hxc, hne⟩ := hc.cluster i _ hcl
    obtain ⟨x', hcl', hkeys⟩ := Cluster.child_of_keysOf hne (hcl ▸ hv.keysOf_eq hv' hk i)
    have hinv := (hv.cluster i _ hcl).1
    have hinv' := (hv'.cluster i _ hcl').1
    rw [view_cluster, cluster_of_lt i.isLt] at hcl'
    obtain ⟨_, _, hx'⟩ := SlotState.cluster_eq_child hcl'
    rw [show (t.clusters i).get inl = some x from hx,
      show (t'.clusters i).get inl = some x' from hx', held, held]
    exact Nat.add_le_add_left (LeastHeap.heap_le hinv hinv' hxc hkeys) _
  · exact (hslot.held_eq_zero hbit).le.trans (Nat.zero_le _)

instance leastHeap : LeastHeap (DenseBranch b w c inl C) :=
  ⟨fun h h' hc hk => Nat.add_le_add (h.held_summary_mono h' hc hk)
    (Finset.sum_le_sum fun i _ => h.held_slot_mono h' hc hk i)⟩

end DenseBranch

namespace SparseBranch

variable {M : ℕ → Type → Type} [FlatMap M] {t t' : SparseBranch b w c M C}

omit [LawfulTraversal C] [LawfulFootprint C] [Widths b w c] in
theorem Inv.entryHeap_mono (h : t.Inv False) (h' : t'.Inv False) (hc : t.view.Compact b)
    (hk : t.view.keys b = t'.view.keys b) {i : ℕ} (hi : i < 2 ^ c) :
    entryHeap (t.entryAt (BitVec.ofNat c i)) ≤ entryHeap (t'.entryAt (BitVec.ofNat c i)) := by
  have hat := h.view_inv.keysOf_eq h'.view_inv hk i
  cases he : t.entryAt (BitVec.ofNat c i) with
  | none => exact Nat.zero_le _
  | some e =>
    have hentry := h.entry _ e he
    have hcl : t.view.cluster i = e.cluster := by
      rw [view_cluster, cluster, if_pos hi, he, Option.bind_some]
    cases hil : e.inlineOnly with
    | true =>
      rw [ClusterEntry.cluster, if_pos hil] at hcl
      cases he' : t'.entryAt (BitVec.ofNat c i) with
      | none =>
        have hcl' : t'.view.cluster i = none := by
          rw [view_cluster, cluster, if_pos hi, he']
          rfl
        rw [hcl, hcl', Cluster.keysOf_some, Cluster.keysOf_none] at hat
        exact ((Set.singleton_nonempty _).ne_empty hat).elim
      | some e' =>
        rw [entryHeap, entryHeap, hentry.null_child hil not_false, held]
        omega
    | false =>
      obtain ⟨x, hx, hinv, _⟩ := hentry.child hil
      rw [ClusterEntry.cluster, if_neg (by simp [hil]), hx, Option.map_some] at hcl
      obtain ⟨hxc, hne⟩ := hc.cluster i _ hcl
      obtain ⟨x', hcl', hkeys⟩ := Cluster.child_of_keysOf hne (hcl ▸ hat)
      have hinv' := (h'.view_inv.cluster i _ hcl').1
      rw [view_cluster, cluster, if_pos hi] at hcl'
      obtain ⟨e', he', hcl'⟩ := Option.bind_eq_some_iff.mp hcl'
      obtain ⟨_, hx'⟩ := ClusterEntry.cluster_eq_child hcl'
      rw [he', entryHeap, entryHeap, hx, hx', held, held]
      have := LeastHeap.heap_le hinv hinv' hxc hkeys
      omega

instance leastHeap : LeastHeap (SparseBranch b w c M C) :=
  ⟨fun h h' hc hk => Nat.add_le_add
    (LeastHeap.heap_le h.summary h'.summary hc.summary (h.view_inv.keys_summary_eq h'.view_inv hk))
    (Finset.sum_le_sum fun _ hi => h.entryHeap_mono h' hc hk (Finset.mem_range.mp hi))⟩

end SparseBranch

end Heap

section Levels

variable {M : ℕ → Type → Type} [FlatMap M]

instance : LeastHeap VebLeaf6 := ⟨fun _ _ _ _ => le_rfl⟩
instance : LeastHeap VebLeaf8 := ⟨fun _ _ _ _ => le_rfl⟩

instance : (T : Tree) → LawfulShape (T.State M)
  | .veb24 => (inferInstance : LawfulShape VebTop24)
  | .veb32 => (inferInstance : LawfulShape VebTop32)
  | .veb48 => (inferInstance : LawfulShape (VebBranch48 M))
  | .veb64 => (inferInstance : LawfulShape (VebBranch64 M))

instance : (T : Tree) → LawfulCompact (T.State M)
  | .veb24 => (inferInstance : LawfulCompact VebTop24)
  | .veb32 => (inferInstance : LawfulCompact VebTop32)
  | .veb48 => (inferInstance : LawfulCompact (VebBranch48 M))
  | .veb64 => (inferInstance : LawfulCompact (VebBranch64 M))

instance : (T : Tree) → LeastHeap (T.State M)
  | .veb24 => (inferInstance : LeastHeap VebTop24)
  | .veb32 => (inferInstance : LeastHeap VebTop32)
  | .veb48 => (inferInstance : LeastHeap (VebBranch48 M))
  | .veb64 => (inferInstance : LeastHeap (VebBranch64 M))

end Levels

section Runs

variable {T : Type} {w bits : ℕ} [VebNode T w] [LawfulVeb T bits] [LawfulShape T] {t t' : T}
  {ops : List (Op w)} {ks : List (BitVec w)}

/-- No calls take nodes that are the same apart. -/
theorem same_run (h : LawfulVeb.Inv False t) (h' : LawfulVeb.Inv False t')
    (hs : LawfulShape.Same t t') (hops : ∀ o ∈ ops, o.key.toNat < 2 ^ bits) :
    (run t ops).Returns fun u => (run t' ops).Returns fun u' =>
      LawfulVeb.Inv False u ∧ LawfulVeb.Inv False u' ∧ LawfulShape.Same u u' := by
  induction ops generalizing t t' with
  | nil => exact returns_pure.mpr (returns_pure.mpr ⟨h, h', hs⟩)
  | cons o ops ih =>
    obtain ⟨ho, hops⟩ := List.forall_mem_cons.mp hops
    obtain ⟨u, hu, hinv, _⟩ := step_spec h ho
    obtain ⟨u', hu', hinv', _⟩ := step_spec h' ho
    have hs' : LawfulShape.Same u u' := by
      cases o with
      | insert k =>
        exact LawfulShape.inserted h h' ho hs (inserted_of_step h ho hu)
          (inserted_of_step h' ho hu')
      | erase k => exact LawfulShape.erased h h' ho hs hu hu'
    obtain ⟨v, hv, v', hv', hvs⟩ := ih hinv hinv' hs' hops
    exact ⟨v, bind_eq_pure.mpr ⟨u, hu, hv⟩, v', bind_eq_pure.mpr ⟨u', hu', hv'⟩, hvs⟩

theorem compact_run [LawfulCompact T] (h : LawfulVeb.Inv False t)
    (hc : LawfulCompact.Compact t) (hks : ∀ k ∈ ks, k.toNat < 2 ^ bits) :
    (run t (ks.map .insert)).Returns LawfulCompact.Compact := by
  induction ks generalizing t with
  | nil => exact returns_pure.mpr hc
  | cons k ks ih =>
    obtain ⟨hk, hks⟩ := List.forall_mem_cons.mp hks
    obtain ⟨u, hu, hinv, _⟩ := step_spec (o := .insert k) h hk
    have huc := LawfulCompact.inserted h hk hc (inserted_of_step h hk hu)
    obtain ⟨v, hv, hvc⟩ := ih hinv huc hks
    exact ⟨v, bind_eq_pure.mpr ⟨u, hu, hv⟩, hvc⟩

omit [LawfulVeb T bits] [LawfulShape T] in
theorem run_append (t : T) (ops ops' : List (Op w)) :
    run t (ops ++ ops') = (run t ops >>= fun u => run u ops') := by
  induction ops generalizing t with
  | nil => rw [List.nil_append, run, pure_bind]
  | cons o ops ih =>
    rw [List.cons_append, run, run, bind_assoc]
    exact congrArg _ (funext ih)

end Runs

namespace Tree

variable {M : ℕ → Type → Type} [FlatMap M] {T : Tree} {t t' : T.State M} {ops : List (Op T.width)}
  {ks : List (BitVec T.width)}

/-- What insertions into a new tree build. -/
theorem compact_insertions (hks : ∀ k ∈ ks, k ≤ T.maxKey) :
    (run (VebNode.fresh : T.State M) (ks.map .insert)).Returns fun t => LawfulVeb.Inv False t ∧
      LawfulCompact.Compact t ∧ ∀ n, n ∈ LawfulVeb.keys t ↔ n ∈ ks.map BitVec.toNat := by
  have hlt : ∀ k ∈ ks, k.toNat < 2 ^ T.bits := fun k hk => le_maxKey.mp (hks k hk)
  obtain ⟨t, ht, hinv, hkeys⟩ := run_insertions (M := M) hks
  obtain ⟨t', ht', hc⟩ := compact_run (LawfulVeb.fresh_inv (T := T.State M))
    (LawfulCompact.of_empty LawfulVeb.fresh_inv LawfulVeb.keys_fresh) hlt
  rw [ht, pure_inj] at ht'
  subst ht'
  exact ⟨t, ht, hinv, hc, hkeys⟩

/-- Insertions of the stored keys into a new tree build one with the same keys. -/
theorem compact_rebuilt (h : LawfulVeb.Inv False t) (hks : ∀ k, k ∈ ks ↔ Stored t k) :
    (run (VebNode.fresh : T.State M) (ks.map .insert)).Returns fun t' => LawfulVeb.Inv False t' ∧
      LawfulCompact.Compact t' ∧ LawfulVeb.keys t' = LawfulVeb.keys t := by
  refine (compact_insertions fun k hk => ((hks k).mp hk).1).mono ?_
  rintro t' ⟨hinv, hc, hkeys⟩
  refine ⟨hinv, hc, Set.ext fun n => ?_⟩
  rw [hkeys, List.mem_map]
  constructor
  · rintro ⟨k, hk, rfl⟩
    exact (stored_iff h).mp ((hks k).mp hk)
  · intro hn
    obtain ⟨k, hk, rfl⟩ := exists_stored h hn
    exact ⟨k, (hks k).mpr hk, rfl⟩

/-- What `Same` stands for. -/
theorem indistinguishable (h : LawfulVeb.Inv False t) (h' : LawfulVeb.Inv False t')
    (hs : LawfulShape.Same t t') (hops : T.InRange ops) :
    (run t ops).Returns fun u => (run t' ops).Returns fun u' =>
      Agree T.bits u u' ∧ VebNode.forEachAll u = VebNode.forEachAll u' ∧
        toVector u = toVector u' := by
  refine (same_run h h' hs fun o ho => le_maxKey.mp (hops o ho)).mono fun u hu => hu.mono ?_
  rintro u' ⟨hinv, hinv', hus⟩
  have hall : VebNode.forEachAll u = VebNode.forEachAll u' := by
    rw [LawfulTraversal.forEachAll_eq, LawfulTraversal.forEachAll_eq]
    exact LawfulShape.forEach_eq 0 hinv hinv' hus
  refine ⟨agree_of_keys T.width_le hinv hinv' (LawfulShape.keys_eq hinv hinv' hus), hall, ?_⟩
  rw [toVector, toVector, hall]

end Tree

section Rebuilding

variable (M : ℕ → Type → Type) [FlatMap M] (T : Tree) (ops : List (Op T.width))
  (ks ks' : List (BitVec T.width))

/-- Neither the order of insertions nor repetitions among them can be told afterwards, not even by
`for_each`, whatever calls follow. -/
theorem insertions_in_any_order (hsame : ∀ k, k ∈ ks' ↔ k ∈ ks)
    (hops : T.InRange (ks.map .insert ++ ops)) :
    (run (VebNode.fresh : T.State M) (ks.map .insert ++ ops)).Returns fun t =>
      (run (VebNode.fresh : T.State M) (ks'.map .insert ++ ops)).Returns fun t' =>
        Agree T.bits t t' ∧ VebNode.forEachAll t = VebNode.forEachAll t' ∧
          toVector t = toVector t' := by
  obtain ⟨hins, hrest⟩ := List.forall_mem_append.mp hops
  have hks : ∀ k ∈ ks, k ≤ T.maxKey := fun k hk => hins _ (List.mem_map_of_mem hk)
  obtain ⟨t, ht, hinv, hc, hkeys⟩ := Tree.compact_insertions (M := M) hks
  obtain ⟨t', ht', hinv', hc', hkeys'⟩ :=
    Tree.compact_insertions (M := M) fun k hk => hks k ((hsame k).mp hk)
  have heq : LawfulVeb.keys t = LawfulVeb.keys t' := by
    ext n
    rw [hkeys, hkeys', List.mem_map, List.mem_map]
    exact exists_congr fun k => and_congr_left' (hsame k).symm
  rw [run_append, run_append, ht, ht', pure_bind, pure_bind]
  exact Tree.indistinguishable hinv hinv' (LawfulCompact.same_of_keys hinv hinv' hc hc' heq) hrest

theorem insertions_in_two_orders :
    (run (VebNode.fresh : Tree.veb32.State FunMap) ([65536, 65537, 9].map .insert ++
      [.erase 65536])).Returns fun t =>
      (run (VebNode.fresh : Tree.veb32.State FunMap) ([65536, 65537, 9].reverse.map .insert ++
        [.erase 65536])).Returns fun t' =>
        Agree Tree.veb32.bits t t' ∧ VebNode.forEachAll t = VebNode.forEachAll t' ∧
          toVector t = toVector t' :=
  insertions_in_any_order FunMap .veb32 [.erase 65536] [65536, 65537, 9]
    [65536, 65537, 9].reverse (fun _ => List.mem_reverse) (by decide)

/-- A state is, but for what is never read again, the one that insertions of its keys build, exactly
when no child at any level is down to one key. -/
theorem same_as_rebuilt_iff (hops : T.InRange ops) :
    (run (VebNode.fresh : T.State M) ops).Returns fun t =>
      ∀ ks : List (BitVec T.width), (∀ k, k ∈ ks ↔ Tree.Stored t k) →
      (run (VebNode.fresh : T.State M) (ks.map .insert)).Returns fun t' =>
        LawfulShape.Same t' t ↔ LawfulCompact.Compact t := by
  refine (Tree.run_fresh hops).mono ?_
  rintro t ⟨h, _⟩ ks hks
  refine (Tree.compact_rebuilt h hks).mono ?_
  rintro t' ⟨hinv, hc, hkeys⟩
  exact ⟨fun hs => LawfulCompact.of_same hinv h hs hc, fun ht =>
    LawfulCompact.same_of_keys hinv h hc ht hkeys⟩

theorem same_as_rebuilt_after_erasure :
    (run (VebNode.fresh : Tree.veb24.State FunMap) [.insert 1, .insert 2, .erase 1]).Returns
      fun t => ∀ ks : List (BitVec 32), (∀ k, k ∈ ks ↔ Tree.Stored t k) →
        (run (VebNode.fresh : Tree.veb24.State FunMap) (ks.map .insert)).Returns fun t' =>
          LawfulShape.Same t' t ↔ LawfulCompact.Compact t :=
  same_as_rebuilt_iff FunMap .veb24 _ (by decide)

/-- The child that an erasure leaves with one key is told from an inline value by its prefix. -/
example : (run (VebNode.fresh : Tree.veb32.State FunMap)
      [.insert 65536, .insert 65537, .erase 65537] >>= toVector) = pure [0] ∧
    (run (VebNode.fresh : Tree.veb32.State FunMap) [.insert 65536] >>= toVector) =
      pure [65536] := by
  decide +kernel

/-- No state owns fewer objects than the one that insertions of its keys build. -/
theorem heap_of_rebuilt (hops : T.InRange ops) :
    (run (VebNode.fresh : T.State M) ops).Returns fun t =>
      ∀ ks : List (BitVec T.width), (∀ k, k ∈ ks ↔ Tree.Stored t k) →
      (run (VebNode.fresh : T.State M) (ks.map .insert)).Returns fun t' =>
        Footprint.heap t' ≤ Footprint.heap t ∧
          (LawfulCompact.Compact t → Footprint.heap t' = Footprint.heap t) := by
  refine (Tree.run_fresh hops).mono ?_
  rintro t ⟨h, _⟩ ks hks
  refine (Tree.compact_rebuilt h hks).mono ?_
  rintro t' ⟨hinv, hc, hkeys⟩
  have hle := LeastHeap.heap_le hinv h hc hkeys
  exact ⟨hle, fun ht => hle.antisymm (LeastHeap.heap_le h hinv ht hkeys.symm)⟩

theorem heap_of_rebuilt_after_erasure :
    (run (VebNode.fresh : Tree.veb48.State FunMap) [.insert 1, .insert 2, .erase 1]).Returns
      fun t => ∀ ks : List (BitVec 64), (∀ k, k ∈ ks ↔ Tree.Stored t k) →
        (run (VebNode.fresh : Tree.veb48.State FunMap) (ks.map .insert)).Returns fun t' =>
          Footprint.heap t' ≤ Footprint.heap t ∧
            (LawfulCompact.Compact t → Footprint.heap t' = Footprint.heap t) :=
  heap_of_rebuilt FunMap .veb48 _ (by decide)

end Rebuilding

end ParvEB
