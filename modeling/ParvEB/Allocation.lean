import ParvEB.Trees

/-! How often an insertion allocates, and what a failed allocation leaves behind. -/
namespace ParvEB

open Outcome

section Classes

variable {T : Type} {w : ℕ} [VebNode T w]

/-- `t` has an entry for `k` that its summary does not list. Once `k` is inserted, the insertion and
the erasure of any key end in a node that calls itself empty. -/
def Stranded (bits : ℕ) (t : T) (k : BitVec w) : Prop :=
  ∀ l : BitVec w, l.toNat < 2 ^ bits → ∃ y z z',
    VebNode.insert t k .unbounded = pure (.returned y .unbounded) ∧
    VebNode.insert y l .unbounded = pure (.returned z .unbounded) ∧
    VebNode.erase z l = pure z' ∧ VebNode.empty z' = true

/-- An insertion allocates nothing. -/
class AllocFree (T : Type) {w : outParam ℕ} [VebNode T w] {bits : outParam ℕ}
    [LawfulVeb T bits] : Prop where
  insert {t : T} {k : BitVec w} (m : Mem) : k.toNat < 2 ^ bits →
    ∃ t', VebNode.insert t k m = pure (.returned t' m)

/-- An insertion allocates only into an empty node, once, and before it changes anything. -/
class AllocOnce (T : Type) {w : outParam ℕ} [VebNode T w] {bits : outParam ℕ}
    [LawfulVeb T bits] : Prop where
  nonempty {lax : Prop} {t : T} {k : BitVec w} (m : Mem) : LawfulVeb.Inv lax t →
    (LawfulVeb.keys t).Nonempty → k.toNat < 2 ^ bits →
    ∃ t', VebNode.insert t k m = pure (.returned t' m)
  empty_zero {lax : Prop} {t : T} {k : BitVec w} : LawfulVeb.Inv lax t → LawfulVeb.keys t = ∅ →
    k.toNat < 2 ^ bits → VebNode.insert t k (.upTo 0) = pure (.threw t)
  empty_succ {lax : Prop} {t : T} {k : BitVec w} (n : ℕ) : LawfulVeb.Inv lax t →
    LawfulVeb.keys t = ∅ → k.toNat < 2 ^ bits →
    ∃ t', VebNode.insert t k (.upTo (n + 1)) = pure (.returned t' (.upTo n))

/-- An insertion into a new node allocates twice, and is stranded if the second allocation fails.
A failed insertion into a node that is not empty loses nothing. -/
class AllocTwice (T : Type) {w : outParam ℕ} [VebNode T w] {bits : outParam ℕ}
    [LawfulVeb T bits] : Prop where
  nonempty {t t' : T} {k : BitVec w} {m : Mem} : LawfulVeb.Inv False t →
    (LawfulVeb.keys t).Nonempty → k.toNat < 2 ^ bits →
    VebNode.insert t k m = pure (.threw t') →
    LawfulVeb.Inv True t' ∧ LawfulVeb.keys t' = LawfulVeb.keys t
  fresh_zero (k : BitVec w) : VebNode.insert (VebNode.fresh : T) k (.upTo 0) =
    pure (.threw VebNode.fresh)
  fresh_one {k : BitVec w} : k.toNat < 2 ^ bits →
    ∃ t', VebNode.insert (VebNode.fresh : T) k (.upTo 1) = pure (.threw t') ∧ Stranded bits t' k
  fresh_more {k : BitVec w} (n : ℕ) : k.toNat < 2 ^ bits →
    ∃ t', VebNode.insert (VebNode.fresh : T) k (.upTo (n + 2)) = pure (.returned t' (.upTo n))

section Fresh

variable {bits n : ℕ} [LawfulVeb T bits] {lax : Prop} {t t' : T} {k : BitVec w} {m : Mem}

theorem AllocOnce.ne_threw [AllocOnce T] (h : LawfulVeb.Inv lax t)
    (hne : (LawfulVeb.keys t).Nonempty) (hk : k.toNat < 2 ^ bits) :
    VebNode.insert t k m ≠ pure (.threw t') := by
  obtain ⟨u, hu⟩ := AllocOnce.nonempty m h hne hk
  rw [hu]
  exact returned_ne_threw

theorem AllocOnce.fresh_threw [AllocOnce T] (hk : k.toNat < 2 ^ bits)
    (ht : VebNode.insert (VebNode.fresh : T) k (.upTo n) = pure (.threw t')) :
    n = 0 ∧ t' = VebNode.fresh := by
  have hfresh : LawfulVeb.Inv False (VebNode.fresh : T) := LawfulVeb.fresh_inv
  cases n with
  | zero =>
    rw [empty_zero hfresh LawfulVeb.keys_fresh hk] at ht
    cases pure_inj.mp ht
    exact ⟨rfl, rfl⟩
  | succ n' =>
    obtain ⟨u, hu⟩ := empty_succ n' hfresh LawfulVeb.keys_fresh hk
    rw [hu] at ht
    exact (returned_ne_threw ht).elim

namespace AllocTwice

variable [AllocTwice T]

theorem fresh_threw (hk : k.toNat < 2 ^ bits)
    (ht : VebNode.insert (VebNode.fresh : T) k (.upTo n) = pure (.threw t')) :
    n = 0 ∧ t' = VebNode.fresh ∨ n = 1 ∧ Stranded bits t' k := by
  rcases n with _ | _ | n
  · rw [fresh_zero] at ht
    cases pure_inj.mp ht
    exact Or.inl ⟨rfl, rfl⟩
  · obtain ⟨d, hd, hstranded⟩ := fresh_one (T := T) hk
    rw [hd] at ht
    cases pure_inj.mp ht
    exact Or.inr ⟨rfl, hstranded⟩
  · obtain ⟨d, hd⟩ := fresh_more (T := T) n hk
    rw [hd] at ht
    exact (returned_ne_threw ht).elim

theorem fresh_returned (hk : k.toNat < 2 ^ bits)
    (ht : VebNode.insert (VebNode.fresh : T) k (.upTo n) = pure (.returned t' m)) : n ≠ 1 := by
  rintro rfl
  obtain ⟨d, hd, _⟩ := fresh_one (T := T) hk
  rw [hd] at ht
  exact returned_ne_threw ht.symm

end AllocTwice

end Fresh

end Classes

section Leaves

instance : AllocFree VebLeaf6 where
  insert m hk := by
    simp only [VebNode.insert, VebLeaf6.insert_eq hk, pure_bind]
    exact ⟨_, rfl⟩

instance : AllocFree VebLeaf8 where
  insert {t k} m hk := by
    obtain ⟨t', ht', _⟩ := VebLeaf8.insert_spec (t := t) hk
    simp only [VebNode.insert, ht', pure_bind]
    exact ⟨_, rfl⟩

end Leaves

/-- The call returns with the memory it was given. -/
def Spares {S : Type} (x : Outcome (Exit S)) (m : Mem) : Prop := ∃ s, x = pure (.returned s m)

section Spares

variable {S R : Type} {x : Outcome (Exit S)} {m : Mem}

theorem Spares.within {f : S → R} (h : Spares x m) : Spares (x.within f) m := by
  obtain ⟨s, rfl⟩ := h
  exact ⟨f s, rfl⟩

theorem Spares.andThen {k : S → Mem → Outcome (Exit S)} (h : Spares x m)
    (hk : ∀ s, Spares (k s m) m) : Spares (x.andThen k) m := by
  obtain ⟨s, rfl⟩ := h
  rw [returned_andThen]
  exact hk s

end Spares

namespace DenseBranch

variable {b w c : ℕ} {C : Type} [VebNode C c] [LawfulVeb C b] [AllocFree C]
  {t : DenseBranch b w c true C} {i : Fin (2 ^ b)} {lax : Prop} {m : Mem} {idx : BitVec 32}
  {lo : BitVec c} {key : BitVec w}

theorem childInsert_spares (hidx : idx.toNat = i) (hlo : lo.toNat < 2 ^ b) :
    Spares (t.childInsert idx lo m) m := by
  obtain ⟨x, hx⟩ : ∃ x : C, (t.slotAt i).child = some x := ⟨t.clusters i, rfl⟩
  rw [childInsert_eq hidx hx]
  exact Spares.within (AllocFree.insert m hlo)

variable [Widths b w c]

omit [LawfulVeb C b] [AllocFree C] in
theorem ensureCluster_spares (hidx : idx.toNat = i) : Spares (t.ensureCluster idx m) m := by
  obtain ⟨t₁, ht₁, _⟩ := ensureCluster_value (t := t) hidx
  exact ⟨t₁, ht₁ m⟩

omit [LawfulVeb C b] [AllocFree C] [VebNode C c] in
/-- The tail of an insertion into an absent cluster. -/
theorem storeInline_spares {inl : Bool} {t : DenseBranch b w c inl C} (hidx : idx.toNat = i) :
    Spares (do
      let mask ← t.inlineMask.set idx
      let values ← arraySet t.inlineValue idx.toNat lo
      let t' : DenseBranch b w c inl C := { t with inlineMask := mask, inlineValue := values }
      pure (.returned t' m)) m := by
  have hlt : idx.toNat < 2 ^ b := hidx ▸ i.isLt
  obtain ⟨mask, hmask, _⟩ := DenseBitset.set_spec (t := t.inlineMask) (Widths.fan w c) hlt
  rw [hmask, pure_bind, arraySet_of_lt hlt, pure_bind]
  exact ⟨_, rfl⟩

theorem insert_spares (h : t.Inv lax) {s : C} (hs : t.summary = some s)
    (hk : key.toNat < 2 ^ (2 * b)) : Spares (t.insert key m) m := by
  have hi : (hiPart b key).toNat = indexOf c key hk := rfl
  have hidx := hiPart_lt c hk
  have hlo := (loPart_lt C key).2
  cases hact : t.active (indexOf c key hk) with
  | false =>
    rw [insert_of_absent hk hact, summaryInsert_some hs]
    refine Spares.andThen (Spares.within (AllocFree.insert m ?_)) fun _ => storeInline_spares hi
    rwa [toNat_index hidx (LawfulVeb.bits_le C)]
  | true =>
    cases hil : t.inlineMask.has (indexOf c key hk) with
    | false =>
      rw [insert_of_child hk hact hil]
      exact (ensureCluster_spares hi).andThen fun _ => childInsert_spares hi hlo
    | true =>
      rw [insert_of_inline hk hil]
      split
      · exact ⟨_, rfl⟩
      · have hval := (h.slot (indexOf c key hk)).value_lt hil
        refine (ensureCluster_spares hi).andThen fun t₁ => ?_
        refine (childInsert_spares hi hval).andThen fun t₂ => ?_
        obtain ⟨mask, hmask, _⟩ :=
          DenseBitset.reset_spec (t := t₂.inlineMask) (Widths.fan w c) hidx
        rw [hmask, pure_bind]
        exact childInsert_spares hi hlo

theorem insert_of_null (h : t.Inv lax) (hs : t.summary = none) (hk : key.toNat < 2 ^ (2 * b)) :
    ∃ k, t.insert key m = m.alloc t k ∧ ∀ n, Spares (k (.upTo n)) (.upTo n) := by
  have hi : (hiPart b key).toNat = indexOf c key hk := rfl
  have hidx := hiPart_lt c hk
  have hact : t.active (indexOf c key hk) = false := by
    rw [Bool.eq_false_iff]
    intro hact
    have hmem : (indexOf c key hk).val ∈ t.indices := hact
    rw [h.summary.null.mp hs] at hmem
    exact hmem
  rw [insert_of_absent hk hact, summaryInsert_none hs, alloc_andThen]
  refine ⟨_, rfl, fun n => ?_⟩
  refine Spares.andThen (Spares.within (AllocFree.insert _ ?_)) fun _ => storeInline_spares hi
  rwa [toNat_index hidx (LawfulVeb.bits_le C)]

instance allocOnce : AllocOnce (DenseBranch b w c true C) where
  nonempty {lax t key} m h hne hk := by
    cases hs : t.summary with
    | none => exact (hne.ne_empty (h.keys_eq_empty_iff.mpr hs)).elim
    | some s => exact insert_spares h hs hk
  empty_zero {lax t key} h hempty hk := by
    obtain ⟨k, hins, _⟩ := insert_of_null (m := .upTo 0) h (h.keys_eq_empty_iff.mp hempty) hk
    exact hins
  empty_succ {lax t key} n h hempty hk := by
    obtain ⟨k, hins, hk'⟩ :=
      insert_of_null (m := .upTo (n + 1)) h (h.keys_eq_empty_iff.mp hempty) hk
    obtain ⟨t', ht'⟩ := hk' n
    exact ⟨t', hins.trans ht'⟩

end DenseBranch

namespace SparseBranch

variable {b w c : ℕ} {M : ℕ → Type → Type} {C : Type} [FlatMap M] [VebNode C c]
  {t t' : SparseBranch b w c M C} {e e' : ClusterEntry c C} {hi lo : BitVec c} {key : BitVec w}
  {n : ℕ}

/-- Where an insertion can throw: before anything, in the summary, or in the entry of the key. -/
theorem insert_threw (ht : t.insert key (.upTo n) = pure (.threw t')) :
    t.entryAt (hiPart b key) = none ∧ n = 0 ∧ t' = t ∨
      (∃ n' s', t.entryAt (hiPart b key) = none ∧ n = n' + 1 ∧
        VebNode.insert t.summary (hiPart b key : BitVec c) (.upTo n') = pure (.threw s') ∧
        t' = ⟨s', FlatMap.emplace t.clusters (hiPart b key) {}⟩) ∨
      ∃ e e', t.entryAt (hiPart b key) = some e ∧
        entryInsert e (loPart b key) (.upTo n) = pure (.threw e') ∧
        t' = t.setEntry (hiPart b key) e' := by
  unfold SparseBranch.insert at ht
  dsimp only at ht
  cases he : t.entryAt (hiPart b key) with
  | some e =>
    rw [show FlatMap.find t.clusters (hiPart b key) = some e from he] at ht
    obtain ⟨e', he', rfl⟩ := within_eq_threw.mp ht
    exact Or.inr (Or.inr ⟨e, e', rfl, he', rfl⟩)
  | none =>
    rw [show FlatMap.find t.clusters (hiPart b key) = none from he] at ht
    cases n with
    | zero =>
      cases pure_inj.mp ht
      exact Or.inl ⟨rfl, rfl, rfl⟩
    | succ n' =>
      rcases andThen_eq_threw.mp ht with hthrew | ⟨t₁, m₁, _, hret⟩
      · obtain ⟨s', hs', rfl⟩ := within_eq_threw.mp hthrew
        exact Or.inr (Or.inl ⟨n', s', rfl, rfl, hs', rfl⟩)
      · exact (returned_ne_threw hret).elim

/-- Where an insertion into an entry can throw: an inline value expands into a new child, which has
to take two keys; a child that is present has to take one. -/
theorem entryInsert_threw [LawfulVeb C b] (h : EntryInv b False e)
    (ht : entryInsert e lo (.upTo n) = pure (.threw e')) :
    (e.inlineOnly = true ∧ e.inlineValue ≠ lo ∧
      (n = 0 ∧ e' = e ∨
        (∃ n' x', n = n' + 1 ∧
          VebNode.insert (VebNode.fresh : C) e.inlineValue (.upTo n') = pure (.threw x') ∧
          e' = { e with child := some x' }) ∨
        ∃ n' y m y', n = n' + 1 ∧
          VebNode.insert (VebNode.fresh : C) e.inlineValue (.upTo n') = pure (.returned y m) ∧
          VebNode.insert y lo m = pure (.threw y') ∧ e' = { e with child := some y' })) ∨
      ∃ x x', e.inlineOnly = false ∧ e.child = some x ∧
        VebNode.insert x lo (.upTo n) = pure (.threw x') ∧ e' = { e with child := some x' } := by
  unfold entryInsert ensureChild childInsert at ht
  cases hil : e.inlineOnly with
  | true =>
    rw [hil, if_pos rfl, h.null_child hil id] at ht
    split at ht
    next => exact (returned_ne_threw ht).elim
    next hne =>
      refine Or.inl ⟨rfl, hne, ?_⟩
      cases n with
      | zero =>
        cases pure_inj.mp ht
        exact Or.inl ⟨rfl, rfl⟩
      | succ n' =>
        right
        rcases andThen_eq_threw.mp ht with hthrew | ⟨e₁, m₁, he₁, hrest⟩
        · cases pure_inj.mp hthrew
        · cases pure_inj.mp he₁
          rcases andThen_eq_threw.mp hrest with hthrew | ⟨e₂, m₂, he₂, hrest⟩
          · obtain ⟨x', hx', rfl⟩ := within_eq_threw.mp hthrew
            exact Or.inl ⟨n', x', rfl, hx', rfl⟩
          · obtain ⟨y, hy, rfl⟩ := within_eq_returned.mp he₂
            rcases andThen_eq_threw.mp hrest with hthrew | ⟨e₃, m₃, _, hret⟩
            · obtain ⟨y', hy', rfl⟩ := within_eq_threw.mp hthrew
              exact Or.inr ⟨n', y, m₂, y', rfl, hy, hy', rfl⟩
            · exact (returned_ne_threw hret).elim
  | false =>
    obtain ⟨x, hx, _⟩ := h.child hil
    rw [if_neg (by simp [hil]), hx, returned_andThen, hx] at ht
    obtain ⟨x', hx', rfl⟩ := within_eq_threw.mp ht
    exact Or.inr ⟨x, x', rfl, hx, hx', by rw [hil]⟩

variable [LawfulVeb C b] {lax : Prop}

/-- An entry that changes while its keys stay. -/
theorem Inv.setEntry (h : t.Inv lax) (he : t.entryAt hi = some e) (he' : EntryInv b lax e')
    (hkeys : Cluster.keysOf e'.cluster = Cluster.keysOf e.cluster) :
    (t.setEntry hi e').Inv lax ∧ (t.setEntry hi e').view.keys b = t.view.keys b := by
  have hr := Replaces.setEntry h.toSound he he'
  refine ⟨⟨hr.sound h.toSound, fun k => ?_⟩, View.keys_congr fun j => ?_⟩
  · rw [hr.entries]
    by_cases hk : k = hi
    · rw [hk, Function.update_self]
      exact iff_of_true ((h.mem_summary hi).mpr (by simp [he])) rfl
    · rw [Function.update_of_ne hk]
      exact h.mem_summary k
  · change Cluster.keysOf ((t.setEntry hi e').cluster j) = Cluster.keysOf (t.cluster j)
    by_cases hj : j = hi.toNat
    · rw [hj, hr.cluster_self, cluster_toNat, he]
      exact hkeys
    · rw [hr.cluster_of_ne hj]

/-- A child that a failed expansion leaves behind an inline value does no harm while it holds
nothing else. -/
theorem entryInv_left_over {x : C} (h : EntryInv b False e) (hil : e.inlineOnly = true)
    (hx : LawfulVeb.Inv True x) (hkeys : LawfulVeb.keys x ⊆ {e.inlineValue.toNat}) :
    EntryInv b True { e with child := some x } where
  value_lt := h.value_lt
  null_child _ hlax := (hlax trivial).elim
  left_over _ := by
    rintro _ ⟨⟩
    exact ⟨hx, hkeys⟩
  child hil' := by
    change e.inlineOnly = false at hil'
    rw [hil] at hil'
    cases hil'

/-- The keys of an inline entry do not depend on its child. -/
theorem keysOf_left_over {x : C} (hil : e.inlineOnly = true) :
    Cluster.keysOf ({ e with child := some x } : ClusterEntry c C).cluster =
      Cluster.keysOf e.cluster := by
  rw [ClusterEntry.cluster_inline hil,
    ClusterEntry.cluster_inline (e := { e with child := some x }) hil]

/-- A failed expansion that leaves nothing but the inline value in its child loses nothing. -/
theorem Inv.setEntry_left_over (h : t.Inv False) (he : t.entryAt hi = some e)
    (hil : e.inlineOnly = true) {x : C} (hx : LawfulVeb.Inv True x)
    (hkeys : LawfulVeb.keys x ⊆ {e.inlineValue.toNat}) :
    (t.setEntry hi { e with child := some x }).Inv True ∧
      (t.setEntry hi { e with child := some x }).view.keys b = t.view.keys b :=
  (h.mono False.elim).setEntry he (entryInv_left_over (h.entry _ e he) hil hx hkeys)
    (keysOf_left_over hil)

section AllocTwice

variable [AllocOnce C] [Widths b w c]

/-- A failed insertion into a branch that is not empty loses nothing. -/
theorem kept_of_nonempty (h : t.Inv False) (hne : (t.view.keys b).Nonempty)
    (hk : key.toNat < 2 ^ (2 * b)) (ht : t.insert key (.upTo n) = pure (.threw t')) :
    t'.Inv True ∧ t'.view.keys b = t.view.keys b := by
  have hhi := hiPart_lt C hk
  have hlo := (loPart_lt C key).2
  have hlax : t.Inv True := h.mono False.elim
  rcases insert_threw ht with ⟨_, _, rfl⟩ | ⟨n', s', _, _, hs', _⟩ | ⟨e, e', he, he', rfl⟩
  · exact ⟨hlax, rfl⟩
  · have hsum : (LawfulVeb.keys t.summary).Nonempty := by
      rw [Set.nonempty_iff_ne_empty, Ne] at hne ⊢
      rwa [h.view_inv.keys_eq_empty_iff] at hne
    exact (AllocOnce.ne_threw h.summary hsum hhi hs').elim
  · have hentry := h.entry _ e he
    rcases entryInsert_threw hentry he' with ⟨hil, hne', hcases⟩ | ⟨x, x', hil, hx, hx', _⟩
    · have hval := hentry.value_lt hil
      rcases hcases with ⟨_, rfl⟩ | ⟨n', x', _, hx', rfl⟩ | ⟨n', y, m, y', _, hy, hy', _⟩
      · exact hlax.setEntry he (hentry.mono False.elim) rfl
      · obtain ⟨_, rfl⟩ := AllocOnce.fresh_threw hval hx'
        refine h.setEntry_left_over he hil LawfulVeb.fresh_inv ?_
        rw [LawfulVeb.keys_fresh]
        exact Set.empty_subset _
      · have hfresh : LawfulVeb.Inv False (VebNode.fresh : C) := LawfulVeb.fresh_inv
        obtain ⟨hyinv, hykeys⟩ := Inserted.spec ⟨_, _, hy⟩ hfresh hval
        exact (AllocOnce.ne_threw hyinv (hykeys ▸ Set.insert_nonempty _ _) hlo hy').elim
    · obtain ⟨y, hy, hinv, hne'⟩ := hentry.child hil
      rw [hx] at hy
      cases hy
      exact (AllocOnce.ne_threw hinv hne' hlo hx').elim

omit [LawfulVeb C b] [AllocOnce C] [Widths b w c] in
theorem insert_fresh (m : Mem) :
    (VebNode.fresh : SparseBranch b w c M C).insert key m =
      m.alloc VebNode.fresh fun m =>
        ((VebNode.insert (VebNode.fresh : C) (hiPart b key) m).within fun s =>
          ⟨s, FlatMap.emplace FlatMap.empty (hiPart b key) {}⟩).andThen fun t m =>
            pure (.returned (t.setEntry (hiPart b key) { inlineValue := loPart b key }) m) := by
  unfold SparseBranch.insert
  dsimp only
  rw [show FlatMap.find (VebNode.fresh : SparseBranch b w c M C).clusters (hiPart b key) = none
    from FlatMap.find_empty _]
  rfl

/-- An entry for `hi` that the summary does not list. -/
structure Unlisted (t : SparseBranch b w c M C) (hi : BitVec c) : Prop where
  sound : t.Sound True
  empty : LawfulVeb.keys t.summary = ∅
  entry : (t.cluster hi.toNat).isSome = true
  others : ∀ j, j ≠ hi.toNat → t.cluster j = none

omit [AllocOnce C] [Widths b w c] in
theorem unlisted_emplace (hi : BitVec c) :
    Unlisted (⟨VebNode.fresh, FlatMap.emplace FlatMap.empty hi {}⟩ : SparseBranch b w c M C)
      hi := by
  have hnone : ∀ k, (VebNode.fresh : SparseBranch b w c M C).entryAt k = none :=
    fun k => FlatMap.find_empty k
  have hr : Replaces True (VebNode.fresh : SparseBranch b w c M C) hi (some {})
      ⟨VebNode.fresh, FlatMap.emplace FlatMap.empty hi {}⟩ := by
    refine ⟨entryAt_emplace (hnone hi), ?_, LawfulVeb.fresh_inv⟩
    rintro _ ⟨⟩
    exact entryInv_inline (by simp)
  refine ⟨hr.sound fresh_inv.toSound, LawfulVeb.keys_fresh, ?_, fun j hj => ?_⟩
  · rw [hr.cluster_self]
    rfl
  · rw [hr.cluster_of_ne hj, cluster, hnone]
    simp

omit [AllocOnce C] in
/-- Whatever goes in and out, the summary never comes to list the entry. -/
theorem Unlisted.stranded (h : Unlisted t (hiPart b key)) (hk : key.toNat < 2 ^ (2 * b)) :
    Stranded (2 * b) t key := by
  intro l hl
  have hhi := hiPart_lt C hl
  have hlo := (loPart_lt C l).2
  obtain ⟨y, hy, e₁, hr₁, hg₁⟩ := (insert_replaces (m := .unbounded) h.sound (hiPart_lt C hk)
    (loPart_lt C key).2).unbounded
  have hsound₁ := hr₁.sound h.sound
  have hsum₁ : LawfulVeb.keys y.summary = ∅ :=
    (congrArg LawfulVeb.keys (hg₁.summary_old h.entry)).trans h.empty
  obtain ⟨z, hz, e₂, hr₂, hg₂⟩ :=
    (insert_replaces (m := .unbounded) hsound₁ hhi hlo).unbounded
  have hsound₂ := hr₂.sound hsound₁
  obtain ⟨z', hz', o, hr₃, hs₃⟩ := erase_replaces hsound₂ hhi hlo
  refine ⟨y, z, z', hy, hz, hz', ?_⟩
  obtain ⟨hinv, hkeys⟩ := hs₃.summary_spec hsound₂.summary hhi
  refine (LawfulVeb.empty_spec hinv).mpr ?_
  cases hold : y.cluster (hiPart b l : BitVec c).toNat with
  | some cl =>
    have hsum₂ : LawfulVeb.keys z.view.summary = ∅ := by
      rw [hg₂.summary_old (by simp [hold])]
      exact hsum₁
    rw [hkeys, hsum₂, Set.empty_sdiff, ite_self]
  | none =>
    -- the index of `l` came with `l` and goes with it
    have hsum₂ : LawfulVeb.keys z.view.summary = {(hiPart b l : BitVec c).toNat} := by
      have hkeys₂ := ((hg₂.summary_new hold).spec hsound₁.summary hhi).2
      rw [hkeys₂]
      change insert _ (LawfulVeb.keys y.summary) = _
      rw [hsum₁, insert_empty_eq]
    have hgrown := hg₂.grown
    have hshrunk := hs₃.shrunk
    rw [view_cluster, hold] at hgrown
    generalize z.view.cluster (hiPart b l : BitVec c).toNat = o₂ at hgrown hshrunk hkeys
    generalize z'.view.cluster (hiPart b l : BitVec c).toNat = o₃ at hshrunk hkeys
    cases hgrown
    cases hshrunk with
    | other hne => exact (hne rfl).elim
    | inline =>
      rw [hkeys, hsum₂]
      simp

instance allocTwice : AllocTwice (SparseBranch b w c M C) where
  nonempty {t t' key m} h hne hk ht := by
    cases m with
    | unbounded =>
      obtain ⟨s, hs, _⟩ := (LawfulVeb.insert_spec (m := .unbounded) h hk).unbounded
      rw [hs] at ht
      exact (returned_ne_threw ht).elim
    | upTo n => exact kept_of_nonempty h hne hk ht
  fresh_zero key := insert_fresh (.upTo 0)
  fresh_one {key} hk := by
    have hfresh : LawfulVeb.Inv False (VebNode.fresh : C) := LawfulVeb.fresh_inv
    have hins : (VebNode.fresh : SparseBranch b w c M C).insert key (.upTo 1) = _ :=
      insert_fresh (.upTo 1)
    refine ⟨_, hins.trans ?_, (unlisted_emplace (hiPart b key)).stranded hk⟩
    change ((VebNode.insert (VebNode.fresh : C) (hiPart b key) (.upTo 0)).within _).andThen _ = _
    rw [AllocOnce.empty_zero hfresh LawfulVeb.keys_fresh (hiPart_lt C hk)]
    rfl
  fresh_more {key} n hk := by
    have hfresh : LawfulVeb.Inv False (VebNode.fresh : C) := LawfulVeb.fresh_inv
    obtain ⟨s, hs⟩ := AllocOnce.empty_succ n hfresh LawfulVeb.keys_fresh (hiPart_lt C hk)
    change Spares ((VebNode.fresh : SparseBranch b w c M C).insert key _) (.upTo n)
    rw [insert_fresh]
    change Spares (((VebNode.insert (VebNode.fresh : C) (hiPart b key) (.upTo (n + 1))).within
      _).andThen _) _
    rw [hs]
    exact ⟨_, rfl⟩

end AllocTwice

end SparseBranch

section Levels

variable {M : ℕ → Type → Type} [FlatMap M]

instance : AllocOnce VebBranch12 := DenseBranch.allocOnce
instance : AllocOnce VebBranch16 := DenseBranch.allocOnce
instance : AllocTwice (VebBranch24 M) := SparseBranch.allocTwice
instance : AllocTwice (VebBranch32 M) := SparseBranch.allocTwice

end Levels

end ParvEB
