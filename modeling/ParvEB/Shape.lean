import ParvEB.Trees

/-! The shape that every branch node has after any run. -/
namespace ParvEB

open Outcome

section Members

variable {T : Type} {w bits : ℕ} [VebNode T w] [LawfulVeb T bits] {lax : Prop} {x : T}

theorem empty_eq_false_iff (h : LawfulVeb.Inv lax x) :
    VebNode.empty x = false ↔ (LawfulVeb.keys x).Nonempty := by
  rw [Set.nonempty_iff_ne_empty, Ne, ← LawfulVeb.empty_spec h, Bool.not_eq_true]

theorem contains_iff_of_le (hw : w ≤ 64) (h : LawfulVeb.Inv lax x) {k : BitVec w}
    (hk : k ≤ maxKey bits w) : VebNode.contains x k = pure true ↔ k.toNat ∈ LawfulVeb.keys x :=
  contains_iff h ((le_maxKey_iff (LawfulVeb.bits_le T) hw).mp hk)

end Members

section Nodes

variable {b w c : ℕ} {inl : Bool} {M : ℕ → Type → Type} {C : Type} [FlatMap M] [VebNode C c]

/-- What a dense node keeps in step. `Node` is asked of the summary and of every child. -/
structure DenseBranch.WellFormed (Node : C → Prop) (t : DenseBranch b w c inl C) : Prop where
  disjoint : ∀ i, ¬ (t.inlineMask.has i = true ∧ t.clusterMask.has i = true)
  summary_null : t.summary = none ↔ t.inlineMask = .zero ∧ t.clusterMask = .zero
  summary_lists : ∀ s, t.summary = some s → ∀ i : BitVec c, i ≤ maxKey b c →
    (VebNode.contains s i = pure true ↔
      t.inlineMask.has i.toNat = true ∨ t.clusterMask.has i.toNat = true)
  pointer : inl = false → ∀ i, ((t.clusters i).get inl).isSome = t.clusterMask.has i
  array_child : inl = true → ∀ i : Fin (2 ^ b), t.clusterMask.has i = false →
    ∀ x, (t.clusters i).get inl = some x → VebNode.empty x = true
  active_child : ∀ i : Fin (2 ^ b), t.clusterMask.has i = true →
    ∃ x, (t.clusters i).get inl = some x ∧ VebNode.empty x = false
  value_le : ∀ i : Fin (2 ^ b), t.inlineMask.has i = true → t.inlineValue i ≤ maxKey b c
  node_summary : ∀ s, t.summary = some s → Node s
  node_child : ∀ i x, (t.clusters i).get inl = some x → Node x

/-- What a sparse node keeps in step. -/
structure SparseBranch.WellFormed (Node : C → Prop) (t : SparseBranch b w c M C) : Prop where
  summary_lists : ∀ hi : BitVec c, (FlatMap.find t.clusters hi).isSome = true ↔
    hi ≤ maxKey b c ∧ VebNode.contains t.summary hi = pure true
  inline_entry : ∀ hi e, FlatMap.find t.clusters hi = some e → e.inlineOnly = true →
    e.child = none ∧ e.inlineValue ≤ maxKey b c
  child_entry : ∀ hi e, FlatMap.find t.clusters hi = some e → e.inlineOnly = false →
    ∃ x, e.child = some x ∧ VebNode.empty x = false
  node_summary : Node t.summary
  node_child : ∀ hi e x, FlatMap.find t.clusters hi = some e → e.child = some x → Node x

variable [LawfulVeb C b] [Widths b w c] {Node : C → Prop}

theorem DenseBranch.Inv.wellFormed {t : DenseBranch b w c inl C} (h : t.Inv False)
    (hnode : ∀ x, LawfulVeb.Inv False x → Node x) : t.WellFormed Node where
  disjoint i := by
    have hb : 6 ≤ b := Widths.fan w c
    rintro ⟨hil, hc⟩
    exact (h.slot ⟨i, DenseBitset.lt_of_has hb hil⟩).disjoint ⟨hil, hc⟩
  summary_null := by
    rw [h.summary.null, Set.eq_empty_iff_forall_notMem]
    simp only [indices, active, Set.mem_ofPred_eq, Bool.not_eq_true, Bool.or_eq_false_iff]
    constructor
    · intro hn
      exact ⟨DenseBitset.ext_has fun i => by simp [(hn i).1],
        DenseBitset.ext_has fun i => by simp [(hn i).2]⟩
    · rintro ⟨hil, hc⟩ i
      simp [hil, hc]
  summary_lists s hs i hi := by
    obtain ⟨hinv, hkeys⟩ := h.summary_some hs
    have hc : c ≤ 64 := (Widths.child b w).trans (by omega)
    rw [contains_iff_of_le hc hinv hi, hkeys, active, Bool.or_eq_true]
  pointer hinl i := by
    subst hinl
    exact (h.slot i).pointer
  array_child _ i hc x hx := by
    obtain ⟨hinv, hne⟩ := (h.slot i).child x hx
    change _ ↔ t.clusterMask.has i = true at hne
    rw [LawfulVeb.empty_spec hinv, ← Set.not_nonempty_iff_eq_empty, hne, hc]
    simp
  active_child i hc := by
    obtain ⟨x, hx⟩ := (h.slot i).get_isSome hc
    obtain ⟨hinv, hne⟩ := (h.slot i).child x hx
    exact ⟨x, hx, (empty_eq_false_iff hinv).mpr (hne.mpr hc)⟩
  value_le i hil := by
    have hc : c ≤ 64 := (Widths.child b w).trans (by omega)
    exact (le_maxKey_iff (LawfulVeb.bits_le C) hc).mpr ((h.slot i).value_lt hil)
  node_summary s hs := hnode s (h.summary_some hs).1
  node_child i x hx := hnode x ((h.slot i).child x hx).1

theorem SparseBranch.Inv.wellFormed {t : SparseBranch b w c M C} (h : t.Inv False)
    (hnode : ∀ x, LawfulVeb.Inv False x → Node x) : t.WellFormed Node where
  summary_lists hi := by
    have hc : c ≤ 64 := (Widths.child b w).trans (by omega)
    change (t.entryAt hi).isSome = true ↔ _
    rw [← h.mem_summary]
    constructor
    · intro hm
      have hle := (le_maxKey_iff (LawfulVeb.bits_le C) hc).mpr (LawfulVeb.key_lt h.summary hm)
      exact ⟨hle, (contains_iff_of_le hc h.summary hle).mpr hm⟩
    · rintro ⟨hle, hm⟩
      exact (contains_iff_of_le hc h.summary hle).mp hm
  inline_entry hi e he hil := by
    have hc : c ≤ 64 := (Widths.child b w).trans (by omega)
    have hinv := h.entry hi e he
    exact ⟨hinv.null_child hil id,
      (le_maxKey_iff (LawfulVeb.bits_le C) hc).mpr (hinv.value_lt hil)⟩
  child_entry hi e he hil := by
    obtain ⟨x, hx, hinv, hne⟩ := (h.entry hi e he).child hil
    exact ⟨x, hx, (empty_eq_false_iff hinv).mpr hne⟩
  node_summary := hnode _ h.summary
  node_child hi e x he hx := by
    have hinv := h.entry hi e he
    cases hil : e.inlineOnly with
    | true => exact hnode x (hinv.left_over hil x hx).1
    | false =>
      obtain ⟨y, hy, hyinv, _⟩ := hinv.child hil
      rw [Option.some_inj.mp (hx.symm.trans hy)]
      exact hnode y hyinv

end Nodes

section Levels

variable {M : ℕ → Type → Type} [FlatMap M]

def WellFormed12 (t : VebBranch12) : Prop := t.WellFormed fun _ => True
def WellFormed16 (t : VebBranch16) : Prop := t.WellFormed fun _ => True
def WellFormed24 (t : VebBranch24 M) : Prop := t.WellFormed WellFormed12
def WellFormed32 (t : VebBranch32 M) : Prop := t.WellFormed WellFormed16

/-- Every branch node of the tree is well formed, children and summaries alike. -/
def Tree.WellFormed : (T : Tree) → T.State M → Prop
  | veb24, t => DenseBranch.WellFormed WellFormed12 t
  | veb32, t => DenseBranch.WellFormed WellFormed16 t
  | veb48, t => SparseBranch.WellFormed WellFormed24 t
  | veb64, t => SparseBranch.WellFormed WellFormed32 t

theorem wellFormed12 (t : VebBranch12) (h : LawfulVeb.Inv False t) : WellFormed12 t :=
  DenseBranch.Inv.wellFormed h fun _ _ => trivial

theorem wellFormed16 (t : VebBranch16) (h : LawfulVeb.Inv False t) : WellFormed16 t :=
  DenseBranch.Inv.wellFormed h fun _ _ => trivial

theorem Tree.wellFormed {T : Tree} {t : T.State M} (h : LawfulVeb.Inv False t) :
    T.WellFormed t := by
  cases T with
  | veb24 => exact DenseBranch.Inv.wellFormed h wellFormed12
  | veb32 => exact DenseBranch.Inv.wellFormed h wellFormed16
  | veb48 =>
    exact SparseBranch.Inv.wellFormed h fun _ hx => SparseBranch.Inv.wellFormed hx wellFormed12
  | veb64 =>
    exact SparseBranch.Inv.wellFormed h fun _ hx => SparseBranch.Inv.wellFormed hx wellFormed16

variable (M) (T : Tree) (ops : List (Op T.width))

/-- Masks, values, children and summaries stay in step at every level. -/
theorem wellFormed_after_run (hops : T.InRange ops) :
    (run (VebNode.fresh : T.State M) ops).Returns fun t => T.WellFormed t :=
  (Tree.run_fresh hops).mono fun _ h => Tree.wellFormed h.1

theorem wellFormed_after_expansion :
    (run (VebNode.fresh : Tree.veb48.State FunMap) [.insert 1, .insert 2, .erase 1]).Returns
      fun t => Tree.WellFormed .veb48 t :=
  wellFormed_after_run FunMap .veb48 _ (by decide)

end Levels

end ParvEB
