import ParvEB.Exactness
import ParvEB.Listing

/-! What a sequence of calls makes of a cluster, and what `for_each` shows of it. -/
namespace ParvEB

open Outcome

section Blocks

variable {w : ℕ} {b i : ℕ} {S : Set ℕ} {ops : List (Op w)} {o : Op w}

theorem built_append {ops' : List (Op w)} :
    built S (ops ++ ops') = built (built S ops) ops' := by
  induction ops generalizing S with
  | nil => rfl
  | cons o ops ih => exact ih

/-- Some key of the set is in the block of `2 ^ b` with index `i`. -/
def Occupied (b i : ℕ) (S : Set ℕ) : Prop := ∃ k ∈ S, k / 2 ^ b = i

/-- Two keys of the set are. -/
def Shared (b i : ℕ) (S : Set ℕ) : Prop :=
  ∃ k ∈ S, ∃ k' ∈ S, k ≠ k' ∧ k / 2 ^ b = i ∧ k' / 2 ^ b = i

/-- At some moment the calls had left two keys in the block, and it has not been empty since. -/
def Crowded (b : ℕ) (ops : List (Op w)) (i : ℕ) : Prop :=
  ∃ pre post, ops = pre ++ post ∧ Shared b i (built ∅ pre) ∧
    ∀ mid rest, post = mid ++ rest → Occupied b i (built ∅ (pre ++ mid))

theorem Shared.occupied (h : Shared b i S) : Occupied b i S := by
  obtain ⟨k, hk, _, _, _, hki, _⟩ := h
  exact ⟨k, hk, hki⟩

theorem not_crowded_nil : ¬ Crowded b ([] : List (Op w)) i := by
  rintro ⟨pre, post, h, ⟨k, hk, _⟩, _⟩
  rw [(List.append_eq_nil_iff.mp h.symm).1] at hk
  exact hk

/-- One more call. -/
theorem crowded_concat : Crowded b (ops ++ [o]) i ↔
    Shared b i (built ∅ (ops ++ [o])) ∨
      Crowded b ops i ∧ Occupied b i (built ∅ (ops ++ [o])) := by
  constructor
  · rintro ⟨pre, post, h, hshared, hocc⟩
    rcases List.eq_nil_or_concat post with rfl | ⟨post, o', rfl⟩
    · rw [List.append_nil] at h
      exact Or.inl (h ▸ hshared)
    · have hlast := hocc _ [] (List.append_nil _).symm
      rw [List.concat_eq_append, ← List.append_assoc] at h hlast
      obtain ⟨rfl, ⟨⟩⟩ := List.append_inj' h rfl
      refine Or.inr ⟨⟨pre, post, rfl, hshared, ?_⟩, hlast⟩
      rintro mid rest rfl
      exact hocc mid (rest ++ [o]) (by simp)
  · rintro (hshared | ⟨⟨pre, post, rfl, hshared, hocc⟩, hlast⟩)
    · refine ⟨ops ++ [o], [], (List.append_nil _).symm, hshared, ?_⟩
      intro mid rest h
      rw [(List.append_eq_nil_iff.mp h.symm).1, List.append_nil]
      exact hshared.occupied
    · refine ⟨pre, post ++ [o], List.append_assoc _ _ _, hshared, ?_⟩
      intro mid rest h
      rcases List.eq_nil_or_concat rest with rfl | ⟨rest, o', rfl⟩
      · rw [List.append_nil] at h
        rwa [← h, ← List.append_assoc]
      · rw [List.concat_eq_append, ← List.append_assoc] at h
        exact hocc mid rest (List.append_inj' h rfl).1

end Blocks

variable {b w c : ℕ} {C : Type} [VebNode C c] [LawfulVeb C b]

namespace Cluster

variable {o o' : Option (Cluster c C)} {lo : BitVec c}

def IsChild (o : Option (Cluster c C)) : Prop := ∃ x, o = some (.child x)

omit [VebNode C c] [LawfulVeb C b] in
theorem not_isChild_none : ¬ IsChild (none : Option (Cluster c C)) := by
  rintro ⟨x, ⟨⟩⟩

omit [VebNode C c] [LawfulVeb C b] in
theorem not_isChild_inline {v : BitVec c} : ¬ IsChild (some (.inline v : Cluster c C)) := by
  rintro ⟨x, ⟨⟩⟩

/-- An insertion makes a child only of a cluster that comes to hold two keys. -/
theorem Grows.isChild (h : Grows b False lo o o') (ho : ∀ cl, o = some cl → cl.Inv b False)
    (hlo : lo.toNat < 2 ^ b) :
    (IsChild o' → (keysOf o').Nontrivial ∨ IsChild o) ∧ (IsChild o → o'.isSome → IsChild o') := by
  cases h with
  | absent =>
    exact ⟨fun h => (not_isChild_inline h).elim, fun h _ => (not_isChild_none h).elim⟩
  | present => exact ⟨Or.inr, fun h _ => h⟩
  | @expand v x y z hne hx hsub hempty hy hz =>
    refine ⟨fun _ => Or.inl ?_, fun h _ => (not_isChild_inline h).elim⟩
    have hv : v.toNat < 2 ^ b := ho _ rfl
    obtain ⟨hyinv, hykeys⟩ := hy.spec hx hv
    obtain ⟨_, hzkeys⟩ := hz.spec hyinv hlo
    rw [keysOf_some, show (Cluster.child z).keys = LawfulVeb.keys z from rfl, hzkeys, hykeys]
    exact ⟨v.toNat, Set.mem_insert_of_mem _ (Set.mem_insert _ _), lo.toNat, Set.mem_insert _ _,
      fun he => hne (BitVec.eq_of_toNat_eq he)⟩
  | @child x y hy => exact ⟨fun _ => Or.inr ⟨x, rfl⟩, fun _ _ => ⟨y, rfl⟩⟩

omit [LawfulVeb C b] in
/-- An erasure makes no child, and keeps one that it does not empty. -/
theorem Shrinks.isChild (h : Shrinks lo o o') :
    (IsChild o' → IsChild o) ∧ (IsChild o → o'.isSome → IsChild o') := by
  cases h with
  | absent => exact ⟨id, fun h _ => h⟩
  | other _ => exact ⟨id, fun h _ => h⟩
  | inline =>
    exact ⟨fun h => (not_isChild_none h).elim, fun h _ => (not_isChild_inline h).elim⟩
  | @keep x y _ _ => exact ⟨fun _ => ⟨x, rfl⟩, fun _ _ => ⟨y, rfl⟩⟩
  | drop _ _ => exact ⟨fun h => (not_isChild_none h).elim, fun _ hs => by cases hs⟩

end Cluster

namespace View

variable {v v' : View c C} {hi lo : BitVec c} {i : ℕ}

theorem Inv.occupied_iff (hv : v.Inv b False) : Occupied b i (v.keys b) ↔ (v.cluster i).isSome := by
  rw [Option.isSome_iff_exists]
  constructor
  · rintro ⟨k, ⟨cl, hcl, _⟩, rfl⟩
    exact ⟨cl, hcl⟩
  · rintro ⟨cl, hcl⟩
    obtain ⟨x, hx⟩ := (hv.cluster i cl hcl).nonempty
    exact ⟨_, hv.mem_keys hcl hx, split_div ((hv.cluster i cl hcl).key_lt hx)⟩

theorem Inv.shared_iff (hv : v.Inv b False) :
    Shared b i (v.keys b) ↔ (Cluster.keysOf (v.cluster i)).Nontrivial := by
  rw [show Cluster.keysOf (v.cluster i) = v.keysAt i from rfl, ← hv.keysAt_eq]
  exact nontrivial_fibre_iff.symm

theorem Inv.isChild_of_shared (hv : v.Inv b False) (h : Shared b i (v.keys b)) :
    Cluster.IsChild (v.cluster i) := by
  obtain ⟨x, hcl, _⟩ := hv.child_of_nontrivial (nontrivial_fibre_iff.mpr h)
  exact ⟨x, hcl⟩

/-- What one call does to the form of a cluster. -/
def Reforms (v v' : View c C) (i : ℕ) : Prop :=
  (Cluster.IsChild (v'.cluster i) →
    (Cluster.keysOf (v'.cluster i)).Nontrivial ∨ Cluster.IsChild (v.cluster i)) ∧
  (Cluster.IsChild (v.cluster i) → (v'.cluster i).isSome → Cluster.IsChild (v'.cluster i))

theorem Grows.reforms (h : v.Grows b False hi lo v') (hv : v.Inv b False) (hlo : lo.toNat < 2 ^ b)
    (i : ℕ) : v.Reforms v' i := by
  unfold Reforms
  by_cases hi' : i = hi.toNat
  · rw [hi']
    exact h.grown.isChild (hv.cluster _) hlo
  · rw [h.others i hi']
    exact ⟨Or.inr, fun hc _ => hc⟩

theorem Shrinks.reforms (h : v.Shrinks hi lo v') (i : ℕ) : v.Reforms v' i := by
  unfold Reforms
  by_cases hi' : i = hi.toNat
  · rw [hi']
    obtain ⟨hback, hkeep⟩ := h.shrunk.isChild
    exact ⟨fun hc => Or.inr (hback hc), hkeep⟩
  · rw [h.others i hi']
    exact ⟨Or.inr, fun hc _ => hc⟩

/-- A cluster is a child when it holds two keys, or was one and is not empty. -/
theorem Reforms.isChild_iff (h : v.Reforms v' i) (hv' : v'.Inv b False) :
    Cluster.IsChild (v'.cluster i) ↔ Shared b i (v'.keys b) ∨
      Cluster.IsChild (v.cluster i) ∧ Occupied b i (v'.keys b) := by
  rw [hv'.occupied_iff]
  constructor
  · intro hc
    have hsome : (v'.cluster i).isSome := by
      obtain ⟨x, hx⟩ := hc
      rw [hx]
      rfl
    rcases h.1 hc with hne | hold
    · exact Or.inl (hv'.shared_iff.mpr hne)
    · exact Or.inr ⟨hold, hsome⟩
  · rintro (hshared | ⟨hold, hsome⟩)
    · exact hv'.isChild_of_shared hshared
    · exact h.2 hold hsome

end View

section Runs

variable {T : Type} [VebNode T w] [LawfulVeb T (2 * b)] {V : T → View c C} {ops : List (Op w)}

/-- The history of a block decides the form of its cluster. -/
theorem isChild_run (hkeys : ∀ t, LawfulVeb.keys t = (V t).keys b)
    (hinv : ∀ t, LawfulVeb.Inv False t → (V t).Inv b False)
    (hstep : ∀ t t' o i, LawfulVeb.Inv False t → o.key.toNat < 2 ^ (2 * b) → step t o = pure t' →
      (V t).Reforms (V t') i) (hops : ∀ o ∈ ops, o.key.toNat < 2 ^ (2 * b)) :
    (run (VebNode.fresh : T) ops).Returns fun t => LawfulVeb.Inv False t ∧
      LawfulVeb.keys t = built ∅ ops ∧
        ∀ i, Cluster.IsChild ((V t).cluster i) ↔ Crowded b ops i := by
  induction ops using List.reverseRecOn with
  | nil =>
    have h : LawfulVeb.Inv False (VebNode.fresh : T) := LawfulVeb.fresh_inv
    refine returns_pure.mpr ⟨h, LawfulVeb.keys_fresh, fun i => iff_of_false ?_ not_crowded_nil⟩
    rintro ⟨x, hx⟩
    obtain ⟨k, hk, _⟩ := (hinv _ h).occupied_iff.mpr (show ((V _).cluster i).isSome by simp [hx])
    rw [← hkeys, LawfulVeb.keys_fresh] at hk
    exact hk
  | append_singleton ops o ih =>
    obtain ⟨hops, ho⟩ := List.forall_mem_append.mp hops
    have hlt := ho o (List.mem_singleton_self o)
    obtain ⟨t, ht, h, hbuilt, hchild⟩ := ih hops
    obtain ⟨t', ht', h', hkeys'⟩ := step_spec h hlt
    have hrun : run t [o] = pure t' := by
      rw [run, ht', pure_bind]
      rfl
    have hbuilt' : LawfulVeb.keys t' = built ∅ (ops ++ [o]) := by
      rw [hkeys', hbuilt, built_append]
      rfl
    refine ⟨t', by rw [run_append, ht, pure_bind, hrun], h', hbuilt', fun i => ?_⟩
    rw [(hstep t t' o i h hlt ht').isChild_iff (hinv t' h'), hchild, ← hkeys, hbuilt',
      crowded_concat]

end Runs

namespace DenseBranch

variable {inl : Bool} {t t' : DenseBranch b w c inl C} [Widths b w c]

theorem reforms (h : t.Inv False) {o : Op w} (ho : o.key.toNat < 2 ^ (2 * b))
    (hs : step t o = pure t') (i : ℕ) : t.view.Reforms t'.view i := by
  cases o with
  | insert k =>
    exact (grows_of_inserted h ho (inserted_of_step h ho hs)).reforms
      (h.view_inv (Widths.fan w c)) (loPart_lt C _).2 i
  | erase k => exact (shrinks_of_erased h ho hs).reforms i

omit [Widths b w c] in
theorem Inv.isChild_iff (h : t.Inv False) {i : ℕ} (hi : i < 2 ^ b) :
    Cluster.IsChild (t.view.cluster i) ↔ t.clusterMask.has i = true := by
  rw [view_cluster, cluster_of_lt hi]
  constructor
  · rintro ⟨x, hx⟩
    exact (SlotState.cluster_eq_child hx).2.1
  · intro hc
    have hslot := h.slot ⟨i, hi⟩
    obtain ⟨x, hx⟩ := hslot.get_isSome hc
    exact ⟨x, SlotState.cluster_child (hslot.inlineBit_eq_false hc) hc hx⟩

omit [Widths b w c] in
theorem Inv.inlineMask_false (h : t.Inv False) {i : ℕ} (hi : i < 2 ^ b)
    (hc : t.clusterMask.has i = true) : t.inlineMask.has i = false :=
  (h.slot ⟨i, hi⟩).inlineBit_eq_false hc

omit [Widths b w c] in
theorem Inv.inlineMask_true (h : t.Inv False) {i : ℕ} (hi : i < 2 ^ b)
    (hsome : (t.view.cluster i).isSome) (hc : ¬ t.clusterMask.has i = true) :
    t.inlineMask.has i = true := by
  rw [view_cluster, h.cluster_isSome hi, active, Bool.or_eq_true] at hsome
  exact hsome.resolve_right hc

end DenseBranch

namespace SparseBranch

variable {M : ℕ → Type → Type} [FlatMap M] {t t' : SparseBranch b w c M C} [Widths b w c]

theorem reforms (h : t.Inv False) {o : Op w} (ho : o.key.toNat < 2 ^ (2 * b))
    (hs : step t o = pure t') (i : ℕ) : t.view.Reforms t'.view i := by
  cases o with
  | insert k =>
    exact (grows_of_inserted h ho (inserted_of_step h ho hs)).reforms h.view_inv
      (loPart_lt C _).2 i
  | erase k => exact (shrinks_of_erased h ho hs).reforms i

omit [Widths b w c] in
theorem Inv.isChild_iff (h : t.Inv False) {hi : BitVec c} :
    Cluster.IsChild (t.view.cluster hi.toNat) ↔
      ∃ e, FlatMap.find t.clusters hi = some e ∧ e.inlineOnly = false := by
  rw [view_cluster, cluster_toNat]
  constructor
  · rintro ⟨x, hx⟩
    obtain ⟨e, he, hcl⟩ := Option.bind_eq_some_iff.mp hx
    exact ⟨e, he, (ClusterEntry.cluster_eq_child hcl).1⟩
  · rintro ⟨e, he, hil⟩
    obtain ⟨x, hx, _⟩ := (h.entry _ e he).child hil
    refine ⟨x, ?_⟩
    rw [show t.entryAt hi = some e from he, Option.bind_some]
    simp [ClusterEntry.cluster, hil, hx]

end SparseBranch

section Trees

variable {M : ℕ → Type → Type} [FlatMap M]

/-- The root keeps a child for the cluster with index `i`. -/
def Tree.HoldsChild : (T : Tree) → T.State M → ℕ → Prop
  | veb24, (t : VebTop24), i => t.clusterMask.has i = true
  | veb32, (t : VebTop32), i => t.clusterMask.has i = true
  | veb48, (t : VebBranch48 M), i =>
    ∃ e, FlatMap.find t.clusters (BitVec.ofNat 32 i) = some e ∧ e.inlineOnly = false
  | veb64, (t : VebBranch64 M), i =>
    ∃ e, FlatMap.find t.clusters (BitVec.ofNat 32 i) = some e ∧ e.inlineOnly = false

theorem dense_history {inl : Bool} [Widths b w c] {ops : List (Op w)}
    (hops : ∀ o ∈ ops, o.key.toNat < 2 ^ (2 * b)) :
    (run (VebNode.fresh : DenseBranch b w c inl C) ops).Returns fun t => LawfulVeb.Inv False t ∧
      LawfulVeb.keys t = built ∅ ops ∧
        ∀ i < 2 ^ b, t.clusterMask.has i = true ↔ Crowded b ops i := by
  refine (isChild_run (V := DenseBranch.view) (fun _ => rfl)
    (fun t h => DenseBranch.Inv.view_inv (Widths.fan w c) h)
    (fun t t' o i h ho hs => DenseBranch.reforms h ho hs i) hops).mono ?_
  rintro t ⟨h, hkeys, hchild⟩
  exact ⟨h, hkeys, fun i hi => (DenseBranch.Inv.isChild_iff h hi).symm.trans (hchild i)⟩

theorem sparse_history [Widths b w c] {ops : List (Op w)}
    (hops : ∀ o ∈ ops, o.key.toNat < 2 ^ (2 * b)) :
    (run (VebNode.fresh : SparseBranch b w c M C) ops).Returns fun t =>
      ∀ hi : BitVec c, (∃ e, FlatMap.find t.clusters hi = some e ∧ e.inlineOnly = false) ↔
        Crowded b ops hi.toNat := by
  refine (isChild_run (V := SparseBranch.view) (fun _ => rfl)
    (fun t h => SparseBranch.Inv.view_inv h)
    (fun t t' o i h ho hs => SparseBranch.reforms h ho hs i) hops).mono ?_
  rintro t ⟨h, _, hchild⟩ hi
  exact (SparseBranch.Inv.isChild_iff h).symm.trans (hchild _)

end Trees

section Results

variable (M : ℕ → Type → Type) [FlatMap M] (T : Tree) (ops : List (Op T.width))

/-- The root keeps a child for a cluster exactly when the calls have at some moment left two keys in
it and it has not been empty since. -/
theorem storage_after_run (hops : T.InRange ops) :
    (run (VebNode.fresh : T.State M) ops).Returns fun t =>
      ∀ i < 2 ^ (T.bits / 2), T.HoldsChild t i ↔ Crowded (T.bits / 2) ops i := by
  have hlt : ∀ o ∈ ops, o.key.toNat < 2 ^ T.bits := fun o ho => Tree.le_maxKey.mp (hops o ho)
  have hindex : ∀ {b i : ℕ}, i < 2 ^ b → b ≤ 32 → (BitVec.ofNat 32 i).toNat = i := by
    intro b i hi hb
    have := Nat.pow_le_pow_right (show 0 < 2 by omega) hb
    exact toNat_ofNat_of_lt (by omega)
  cases T with
  | veb24 => exact (dense_history (b := 12) (w := 32) hlt).mono fun t ht i hi => ht.2.2 i hi
  | veb32 => exact (dense_history (b := 16) (w := 32) hlt).mono fun t ht i hi => ht.2.2 i hi
  | veb48 =>
    refine (sparse_history (b := 24) (w := 64) hlt).mono fun t ht i hi =>
      (ht (BitVec.ofNat 32 i)).trans ?_
    rw [hindex hi (by decide)]
    rfl
  | veb64 =>
    refine (sparse_history (b := 32) (w := 64) hlt).mono fun t ht i hi =>
      (ht (BitVec.ofNat 32 i)).trans ?_
    rw [hindex hi (by decide)]
    rfl

theorem storage_after_erasure :
    (run (VebNode.fresh : Tree.veb48.State FunMap) [.insert 1, .insert 2, .erase 1]).Returns
      fun t => ∀ i < 2 ^ (Tree.veb48.bits / 2), Tree.veb48.HoldsChild t i ↔
        Crowded (Tree.veb48.bits / 2) [.insert 1, .insert 2, .erase (1 : BitVec 64)] i :=
  storage_after_run FunMap .veb48 _ (by decide)

open Classical in
/-- What `VebTree32` hands to its callback, as far as its callers can know: each live key once, in
order, and of the keys of a crowded block the low half only. -/
theorem forEach_veb32_after_run (ops : List (Op 32)) :
    (run (VebNode.fresh : VebTop32) ops).Returns fun t => ∃ ks : List (BitVec 32),
      ks.Pairwise (· < ·) ∧ (∀ k, k ∈ ks ↔ Live ops k) ∧
        VebNode.forEachAll t = pure (ks.map fun k =>
          if Crowded 16 ops (k.toNat / 2 ^ 16) then k.toNat % 2 ^ 16 else k.toNat) := by
  have hlt : ∀ o ∈ ops, o.key.toNat < 2 ^ 32 := fun o _ => o.key.isLt
  refine (dense_history (b := 16) (w := 32) hlt).mono ?_
  rintro t ⟨h, hkeys, hcrowded⟩
  obtain ⟨ks, hsorted, hmem, hlist⟩ :=
    Tree.forEach_list (M := FunMap) (T := .veb32) h (summariesFit_veb32 t)
  have hstored : ∀ k ∈ ks, k.toNat ∈ LawfulVeb.keys t := fun k hk =>
    (Tree.stored_iff (M := FunMap) (T := .veb32) h).mp ((hmem k).mp hk)
  refine ⟨ks, hsorted, fun k => ?_, hlist.trans (congrArg _ (List.map_congr_left fun k hk => ?_))⟩
  · exact (hmem k).trans ((Tree.stored_iff (M := FunMap) (T := .veb32) h).trans
      (hkeys ▸ mem_built_empty))
  · have hi : k.toNat / 2 ^ 16 < 2 ^ 16 := Nat.div_lt_of_lt_mul k.isLt
    have hsome := (DenseBranch.Inv.view_inv (Widths.fan 32 16) h).occupied_iff.mp
      ⟨_, hstored k hk, rfl⟩
    refine (handed_veb32 h (hstored k hk)).trans ?_
    by_cases hc : Crowded 16 ops (k.toNat / 2 ^ 16)
    · have hmask := DenseBranch.Inv.inlineMask_false h hi ((hcrowded _ hi).mpr hc)
      exact (if_neg (ne_true_of_eq_false hmask)).trans (if_pos hc).symm
    · have hmask := DenseBranch.Inv.inlineMask_true h hi hsome (mt (hcrowded _ hi).mp hc)
      exact (if_pos hmask).trans (if_neg hc).symm

end Results

end ParvEB
