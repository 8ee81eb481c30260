import ParvEB.Trees

/-! Calls that change no key change nothing. -/
namespace ParvEB

open Outcome

/-- An insertion of a key that is there and an erasure of one that is not return the state itself,
and take no memory. -/
class Steady (T : Type) {w : outParam ℕ} [VebNode T w] {bits : outParam ℕ}
    [LawfulVeb T bits] : Prop where
  insert {lax : Prop} {t : T} {k : BitVec w} (m : Mem) : LawfulVeb.Inv lax t →
    k.toNat ∈ LawfulVeb.keys t → VebNode.insert t k m = pure (.returned t m)
  erase {lax : Prop} {t : T} {k : BitVec w} : LawfulVeb.Inv lax t → k.toNat < 2 ^ bits →
    k.toNat ∉ LawfulVeb.keys t → VebNode.erase t k = pure t

section Leaves

theorem VebLeaf8.eq_of_indices {t t' : VebLeaf8} (h : indices t'.words = indices t.words) :
    t' = t :=
  congrArg VebLeaf8.mk (indices_injective h)

instance : Steady VebLeaf6 where
  insert {_ t k} m _ hk := by
    change k.toNat ∈ bitsOf t.bits at hk
    have hlt : k.toNat < 64 := lt_of_mem_bitsOf hk
    have hbits : t.bits ||| 1#64 <<< k.toNat = t.bits := by
      apply eq_of_bitsOf_eq
      rw [bitsOf_or, bitsOf_one_shiftLeft hlt, Set.union_singleton, Set.insert_eq_of_mem hk]
    simp only [VebNode.insert, VebLeaf6.insert_eq hlt, hbits, pure_bind]
  erase {_ t k} _ hk hn := by
    have hlt : k.toNat < 64 := hk
    have hbits : t.bits &&& ~~~ (1#64 <<< k.toNat) = t.bits := by
      apply eq_of_bitsOf_eq
      rw [bitsOf_and_not_one_shiftLeft hlt]
      exact Set.sdiff_singleton_eq_self hn
    simp only [VebNode.erase, VebLeaf6.erase_eq hlt, hbits]

instance : Steady VebLeaf8 where
  insert {_ t k} m _ hk := by
    change k.toNat ∈ indices t.words at hk
    obtain ⟨t', ht', hkeys⟩ := VebLeaf8.insert_spec (t := t) (lt_of_mem_indices hk)
    obtain rfl := VebLeaf8.eq_of_indices (hkeys.trans (Set.insert_eq_of_mem hk))
    simp only [VebNode.insert, ht', pure_bind]
  erase {_ t k} _ hlt hk := by
    obtain ⟨t', ht', hkeys⟩ := VebLeaf8.erase_spec (t := t) hlt
    obtain rfl := VebLeaf8.eq_of_indices (hkeys.trans (Set.sdiff_singleton_eq_self hk))
    exact ht'

end Leaves

namespace DenseBranch

variable {b w c : ℕ} {inl : Bool} {C : Type} {t t' : DenseBranch b w c inl C} {i : Fin (2 ^ b)}
  {x : C} {idx : BitVec 32} {lo : BitVec c} {key : BitVec w} {m : Mem} {lax : Prop}

theorem Slot.get_injective : Function.Injective (Slot.get (C := C) inl) := by
  intro s s' h
  cases inl with
  | true => exact Option.some_inj.mp h
  | false => exact h

/-- The slots and the summary are all there is. -/
theorem eq_of_slots (hb : 6 ≤ b) (hslots : t'.slotAt = t.slotAt) (hsum : t'.summary = t.summary) :
    t' = t := by
  have hmask : ∀ {m m' : DenseBitset b}, (∀ j : Fin (2 ^ b), m'.has j = m.has j) → m' = m := by
    intro m m' hm
    refine DenseBitset.ext_has fun j => ?_
    rw [Bool.eq_iff_iff]
    constructor
    · intro hj
      rwa [← hm ⟨j, DenseBitset.lt_of_has hb hj⟩]
    · intro hj
      rwa [hm ⟨j, DenseBitset.lt_of_has hb hj⟩]
  obtain ⟨im, cm, vs, cs, s⟩ := t
  obtain ⟨im', cm', vs', cs', s'⟩ := t'
  have hslot : ∀ j, _ ∧ _ ∧ _ ∧ _ := fun j => (SlotState.mk.injEq ..).mp (congrFun hslots j)
  obtain rfl : im' = im := hmask fun j => (hslot j).1
  obtain rfl : cm' = cm := hmask fun j => (hslot j).2.1
  obtain rfl : vs' = vs := funext fun j => (hslot j).2.2.1
  obtain rfl : cs' = cs := funext fun j => Slot.get_injective (hslot j).2.2.2
  obtain rfl : s' = s := hsum
  rfl

theorem setChild_self (hb : 6 ≤ b) (hx : (t.slotAt i).child = some x) : t.setChild i x = t := by
  refine eq_of_slots hb ?_ rfl
  rw [slotAt_setChild, ← hx, Function.update_eq_self]

variable [VebNode C c] [Widths b w c]

/-- The child of a cluster that is there takes no memory. -/
theorem ensureCluster_present (hidx : idx.toNat = i) (hbit : (t.slotAt i).clusterBit = true)
    (hx : (t.slotAt i).child = some x) : t.ensureCluster idx m = pure (.returned t m) := by
  cases inl with
  | false => exact ensureCluster_some hidx hx
  | true =>
    obtain ⟨t₁, ht₁, hsum, hslots⟩ := ensureCluster_value (t := t) hidx
    have hslot : { t.slotAt i with clusterBit := true } = t.slotAt i :=
      SlotState.ext rfl hbit.symm rfl rfl
    rw [hslot, Function.update_eq_self] at hslots
    obtain rfl := eq_of_slots (Widths.fan w c) hslots hsum
    exact ht₁ m

variable [LawfulVeb C b]

/-- A key is there when the cluster that its index holds has its low part. -/
theorem mem_keys_iff (hk : key.toNat < 2 ^ (2 * b)) : key.toNat ∈ t.view.keys b ↔
    ∃ cl, (t.slotAt (indexOf c key hk)).cluster = some cl ∧
      (loPart b key : BitVec c).toNat ∈ cl.keys := by
  have hhi : key.toNat / 2 ^ b = indexOf c key hk := (toNat_hiPart (Widths.index w c) hk).symm
  rw [View.mem_keys_iff, hhi, ← (loPart_lt C key).1, View.keysAt, view_cluster,
    cluster_of_lt (indexOf c key hk).isLt]
  rfl

variable [Steady C]

theorem insert_present (h : t.Inv lax) (hk : key.toNat < 2 ^ (2 * b))
    (hmem : key.toNat ∈ t.view.keys b) : t.insert key m = pure (.returned t m) := by
  have hi : (hiPart b key).toNat = indexOf c key hk := rfl
  obtain ⟨cl, hcl, hlo⟩ := (mem_keys_iff hk).mp hmem
  cases cl with
  | inline v =>
    obtain ⟨hil, hv⟩ := SlotState.cluster_eq_inline hcl
    have hlo' : loPart b key = v := BitVec.eq_of_toNat_eq hlo
    have hvalue : t.inlineValue (indexOf c key hk) = loPart b key := hv.trans hlo'.symm
    rw [insert_of_inline hk hil, if_pos hvalue]
  | child x =>
    obtain ⟨hil, hbit, hx⟩ := SlotState.cluster_eq_child hcl
    have hact : t.active (indexOf c key hk) = true := Bool.or_eq_true_iff.mpr (Or.inr hbit)
    have hinv := ((h.slot _).child x hx).1
    rw [insert_of_child hk hact hil, ensureCluster_present hi hbit hx, returned_andThen,
      childInsert_eq hi hx, Steady.insert m hinv hlo, within_pure, Exit.map,
      setChild_self (Widths.fan w c) hx]

theorem erase_missing (h : t.Inv lax) (hk : key.toNat < 2 ^ (2 * b))
    (hmem : key.toNat ∉ t.view.keys b) : t.erase key = pure t := by
  have hidx := hiPart_lt c hk
  have hi : (⟨(hiPart b key).toNat, hidx⟩ : Fin (2 ^ b)) = indexOf c key hk := rfl
  have hlo := (loPart_lt C key).2
  rw [mem_keys_iff hk, not_exists] at hmem
  have hslot := h.slot (indexOf c key hk)
  cases hcl : (t.slotAt (indexOf c key hk)).cluster with
  | none =>
    have hact := hslot.cluster_isSome
    rw [hcl] at hact
    exact erase_of_absent hk hact.symm
  | some cl =>
    cases cl with
    | inline v =>
      obtain ⟨hil, hv⟩ := SlotState.cluster_eq_inline hcl
      rw [erase_of_inline hk hil, if_pos]
      intro he
      exact hmem _ ⟨hcl, congrArg BitVec.toNat (he.symm.trans hv)⟩
    | child x =>
      -- the child does not change, and it was not empty
      obtain ⟨_, hbit, hx⟩ := SlotState.cluster_eq_child hcl
      obtain ⟨hinv, hne⟩ := hslot.child x hx
      have hlow : (loPart b key : BitVec c).toNat ∉ LawfulVeb.keys x := fun hm => hmem _ ⟨hcl, hm⟩
      have hfull : ¬ VebNode.empty x = true := by
        rw [LawfulVeb.empty_spec hinv, ← Ne, ← Set.nonempty_iff_ne_empty]
        exact hne.mpr hbit
      rw [erase_of_child hk hcl, childErase, Steady.erase hinv hlo hlow, pure_bind, if_neg hfull,
        arraySet_of_lt hidx, pure_bind, hi]
      exact congrArg pure (setChild_self (Widths.fan w c) hx)

instance steady : Steady (DenseBranch b w c inl C) where
  insert _ h hmem := insert_present h (LawfulVeb.key_lt h hmem) hmem
  erase h hk hmem := erase_missing h hk hmem

end DenseBranch

namespace SparseBranch

variable {b w c : ℕ} {M : ℕ → Type → Type} {C : Type} [FlatMap M] {t : SparseBranch b w c M C}
  {e : ClusterEntry c C} {hi lo : BitVec c} {key : BitVec w} {m : Mem} {lax : Prop}

theorem setEntry_self (he : t.entryAt hi = some e) : t.setEntry hi e = t :=
  congrArg (SparseBranch.mk t.summary) (FlatMap.assign_self t.clusters hi e he)

variable [VebNode C c] [LawfulVeb C b] [Widths b w c]

theorem mem_keys_iff (hk : key.toNat < 2 ^ (2 * b)) : key.toNat ∈ t.view.keys b ↔
    ∃ e cl, t.entryAt (hiPart b key) = some e ∧ e.cluster = some cl ∧
      (loPart b key : BitVec c).toNat ∈ cl.keys := by
  rw [View.mem_keys_iff, ← toNat_hiPart c (LawfulVeb.bits_le C) hk, ← (loPart_lt C key).1,
    View.keysAt, view_cluster, cluster_toNat]
  constructor
  · rintro ⟨cl, hcl, hlo⟩
    obtain ⟨e, he, hcl⟩ := Option.bind_eq_some_iff.mp hcl
    exact ⟨e, cl, he, hcl, hlo⟩
  · rintro ⟨e, cl, he, hcl, hlo⟩
    exact ⟨cl, Option.bind_eq_some_iff.mpr ⟨e, he, hcl⟩, hlo⟩

variable [Steady C]

omit [Widths b w c] in
theorem entryInsert_present (h : EntryInv b lax e) {cl : Cluster c C} (hcl : e.cluster = some cl)
    (hlo : lo.toNat ∈ cl.keys) : entryInsert e lo m = pure (.returned e m) := by
  unfold entryInsert
  cases cl with
  | inline v =>
    obtain ⟨hil, rfl⟩ := ClusterEntry.cluster_eq_inline hcl
    rw [if_pos hil, if_pos (BitVec.eq_of_toNat_eq hlo).symm]
  | child x =>
    obtain ⟨hil, hx⟩ := ClusterEntry.cluster_eq_child hcl
    obtain ⟨y, hy, hinv, _⟩ := h.child hil
    rw [hx] at hy
    cases hy
    rw [if_neg (by simp [hil]), ensureChild, hx, returned_andThen, childInsert, hx]
    dsimp only
    rw [Steady.insert m hinv hlo, within_pure, Exit.map, ← hx]

theorem insert_present (h : t.Inv lax) (hk : key.toNat < 2 ^ (2 * b))
    (hmem : key.toNat ∈ t.view.keys b) : t.insert key m = pure (.returned t m) := by
  obtain ⟨e, cl, he, hcl, hlo⟩ := (mem_keys_iff hk).mp hmem
  unfold SparseBranch.insert
  dsimp only
  rw [show FlatMap.find t.clusters (hiPart b key) = some e from he]
  dsimp only
  rw [entryInsert_present (h.entry _ e he) hcl hlo, within_pure, Exit.map, setEntry_self he]

theorem erase_missing (h : t.Inv lax) (hk : key.toNat < 2 ^ (2 * b))
    (hmem : key.toNat ∉ t.view.keys b) : t.erase key = pure t := by
  have hlo := (loPart_lt C key).2
  rw [mem_keys_iff hk] at hmem
  unfold erase
  dsimp only
  cases he : t.entryAt (hiPart b key) with
  | none => rw [show FlatMap.find t.clusters (hiPart b key) = none from he]
  | some e =>
    rw [show FlatMap.find t.clusters (hiPart b key) = some e from he]
    dsimp only
    cases hil : e.inlineOnly with
    | true =>
      rw [if_pos rfl, if_pos]
      intro hv
      exact hmem ⟨e, _, he, ClusterEntry.cluster_inline hil, congrArg BitVec.toNat hv.symm⟩
    | false =>
      obtain ⟨x, hx, hinv, hne⟩ := (h.entry _ e he).child hil
      have hlow : (loPart b key : BitVec c).toNat ∉ LawfulVeb.keys x :=
        fun hm => hmem ⟨e, _, he, ClusterEntry.cluster_child hil hx, hm⟩
      have hfull : ¬ VebNode.empty x = true := by
        rw [LawfulVeb.empty_spec hinv, ← Ne, ← Set.nonempty_iff_ne_empty]
        exact hne
      rw [if_neg (by simp), hx]
      dsimp only
      rw [Steady.erase hinv hlo hlow, pure_bind, if_neg hfull, ← hil, ← hx, setEntry_self he]

instance steady : Steady (SparseBranch b w c M C) where
  insert _ h hmem := insert_present h (LawfulVeb.key_lt h hmem) hmem
  erase h hk hmem := erase_missing h hk hmem

end SparseBranch

section Levels

variable {M : ℕ → Type → Type} [FlatMap M]

instance : Steady VebBranch12 := DenseBranch.steady
instance : Steady VebBranch16 := DenseBranch.steady
instance : Steady (VebBranch24 M) := SparseBranch.steady
instance : Steady (VebBranch32 M) := SparseBranch.steady

instance (T : Tree) : Steady (T.State M) := by
  cases T with
  | veb24 => exact DenseBranch.steady
  | veb32 => exact DenseBranch.steady
  | veb48 => exact SparseBranch.steady
  | veb64 => exact SparseBranch.steady

variable (M) (T : Tree) (ops : List (Op T.width))

/-- Inserting what is contained and erasing what is not leave the state as it is, at every level,
and the insertion takes no memory. -/
theorem redundant_update_after_run (hops : T.InRange ops) :
    (run (VebNode.fresh : T.State M) ops).Returns fun t => ∀ k, k ≤ T.maxKey →
      (VebNode.contains t k = pure true → ∀ m, VebNode.insert t k m = pure (.returned t m)) ∧
        (VebNode.contains t k = pure false → VebNode.erase t k = pure t) := by
  refine (Tree.run_fresh hops).mono ?_
  rintro t ⟨h, _⟩ k hk
  have hlt := Tree.le_maxKey.mp hk
  refine ⟨fun hc m => Steady.insert m h ((contains_iff h hlt).mp hc), fun hc => ?_⟩
  refine Steady.erase h hlt fun hmem => ?_
  rw [(contains_iff h hlt).mpr hmem] at hc
  cases pure_inj.mp hc

theorem redundant_update_after_expansion :
    (run (VebNode.fresh : Tree.veb48.State FunMap) [.insert 1, .insert 2, .erase 1]).Returns
      fun t => ∀ k, k ≤ Tree.veb48.maxKey →
        (VebNode.contains t k = pure true → ∀ m, VebNode.insert t k m = pure (.returned t m)) ∧
          (VebNode.contains t k = pure false → VebNode.erase t k = pure t) :=
  redundant_update_after_run FunMap .veb48 _ (by decide)

end Levels

end ParvEB
