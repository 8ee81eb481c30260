import ParvEB.Traversal
import ParvEB.ViewSame

/-! Dense and sparse storage of one branch. -/
namespace ParvEB

open Outcome

variable {b w c : ℕ} {inl : Bool} {M : ℕ → Type → Type} {C : Type} [FlatMap M] [VebNode C c]
  [LawfulVeb C b] [Widths b w c] {key : BitVec w}

namespace DenseBranch

variable {t t' : DenseBranch b w c inl C}

/-- Both layouts find a key under one index. -/
theorem setWidth_hiPart (C : Type) [VebNode C c] [LawfulVeb C b] (hk : key.toNat < 2 ^ (2 * b)) :
    ((hiPart b key).setWidth c : BitVec c) = SparseBranch.hiPart b key := by
  apply BitVec.eq_of_toNat_eq
  rw [toNat_index (hiPart_lt c hk) (LawfulVeb.bits_le C), toNat_hiPart (Widths.index w c) hk,
    SparseBranch.toNat_hiPart c (LawfulVeb.bits_le C) hk]

theorem grows_of_inserted (h : t.Inv False) (hk : key.toNat < 2 ^ (2 * b))
    (hins : Inserted t key t') :
    t.view.Grows b False (SparseBranch.hiPart b key) (loPart b key) t'.view := by
  obtain ⟨s, _, hg⟩ := hins.of_ends fun _ => insert_replaces h hk
  rwa [setWidth_hiPart C hk] at hg

theorem shrinks_of_erased (h : t.Inv False) (hk : key.toNat < 2 ^ (2 * b))
    (her : Erased t key t') :
    t.view.Shrinks (SparseBranch.hiPart b key) (loPart b key) t'.view := by
  obtain ⟨s, _, hs⟩ := her.of_returns (erase_replaces h hk)
  rwa [setWidth_hiPart C hk] at hs

variable [LawfulShape C] [LawfulTraversal C]

instance shape : LawfulShape (DenseBranch b w c inl C) where
  Same t t' := t.view.Same b t'.view
  keys_eq h h' hs := hs.keys_eq (h.view_inv (Widths.fan w c)) (h'.view_inv (Widths.fan w c))
  of_empty h h' hk hk' :=
    .of_empty (h.view_inv (Widths.fan w c)) (h'.view_inv (Widths.fan w c)) hk hk'
  inserted h h' hk hs hu hu' :=
    hs.grows (h.view_inv (Widths.fan w c)) (h'.view_inv (Widths.fan w c))
      (SparseBranch.hiPart_lt C hk) (loPart_lt C _).2 (grows_of_inserted h hk hu)
      (grows_of_inserted h' hk hu')
  erased h h' hk hs hu hu' :=
    hs.shrinks (h.view_inv (Widths.fan w c)) (h'.view_inv (Widths.fan w c))
      (SparseBranch.hiPart_lt C hk) (loPart_lt C _).2 (shrinks_of_erased h hk hu)
      (shrinks_of_erased h' hk hu')
  forEach_eq {t t'} p h h' hs := by
    have heq := hs.forEach_eq (h.view_inv (Widths.fan w c)) (h'.view_inv (Widths.fan w c)) p
    rw [← forEach_eq h, ← forEach_eq h'] at heq
    exact heq

end DenseBranch

namespace SparseBranch

variable {t t' : SparseBranch b w c M C}

theorem grows_of_inserted (h : t.Inv False) (hk : key.toNat < 2 ^ (2 * b))
    (hins : Inserted t key t') :
    t.view.Grows b False (hiPart b key) (loPart b key) t'.view :=
  (hins.of_ends fun _ => insert_grows h (hiPart_lt C hk) (loPart_lt C _).2).2

theorem shrinks_of_erased (h : t.Inv False) (hk : key.toNat < 2 ^ (2 * b))
    (her : Erased t key t') : t.view.Shrinks (hiPart b key) (loPart b key) t'.view :=
  (her.of_returns (erase_shrinks h (hiPart_lt C hk) (loPart_lt C _).2)).2

end SparseBranch

section Runs

variable [LawfulShape C] {t t' : DenseBranch b w c false C} {s s' : SparseBranch b w c M C}
  {o : Op w} {ops : List (Op w)}

/-- A dense and a sparse branch, both well formed, with the same clusters: inline on one side is
inline on the other, and children are the same. -/
structure Twins (t : DenseBranch b w c false C) (s : SparseBranch b w c M C) : Prop where
  dense : t.Inv False
  sparse : s.Inv False
  same : t.view.Same b s.view

theorem Twins.fresh : Twins (VebNode.fresh : DenseBranch b w c false C)
    (VebNode.fresh : SparseBranch b w c M C) where
  dense := DenseBranch.fresh_inv
  sparse := SparseBranch.fresh_inv
  same := .of_empty (DenseBranch.fresh_inv.view_inv (Widths.fan w c))
    SparseBranch.fresh_inv.view_inv (LawfulVeb.keys_fresh (T := DenseBranch b w c false C))
    (LawfulVeb.keys_fresh (T := SparseBranch b w c M C))

theorem Twins.keys_eq (h : Twins t s) : LawfulVeb.keys t = LawfulVeb.keys s :=
  h.same.keys_eq (h.dense.view_inv (Widths.fan w c)) h.sparse.view_inv

/-- One call keeps twins twins. -/
theorem Twins.step (h : Twins t s) (ho : o.key.toNat < 2 ^ (2 * b)) :
    (step t o).Returns fun t' => (step s o).Returns fun s' => Twins t' s' := by
  have hv := h.dense.view_inv (Widths.fan w c)
  have hhi := SparseBranch.hiPart_lt C ho
  have hlo := (loPart_lt C o.key).2
  obtain ⟨t', ht', hinv, _⟩ := step_spec (show LawfulVeb.Inv False t from h.dense) ho
  obtain ⟨s', hs', hinv', _⟩ := step_spec (show LawfulVeb.Inv False s from h.sparse) ho
  refine ⟨t', ht', s', hs', hinv, hinv', ?_⟩
  cases o with
  | insert k =>
    exact h.same.grows hv h.sparse.view_inv hhi hlo
      (DenseBranch.grows_of_inserted h.dense ho (inserted_of_step h.dense ho ht'))
      (SparseBranch.grows_of_inserted h.sparse ho (inserted_of_step h.sparse ho hs'))
  | erase k =>
    exact h.same.shrinks hv h.sparse.view_inv hhi hlo
      (DenseBranch.shrinks_of_erased h.dense ho ht')
      (SparseBranch.shrinks_of_erased h.sparse ho hs')

theorem Twins.run (h : Twins t s) (hops : ∀ o ∈ ops, o.key.toNat < 2 ^ (2 * b)) :
    (run t ops).Returns fun t' => (run s ops).Returns fun s' => Twins t' s' := by
  induction ops generalizing t s with
  | nil => exact returns_pure.mpr (returns_pure.mpr h)
  | cons o ops ih =>
    obtain ⟨ho, hops⟩ := List.forall_mem_cons.mp hops
    obtain ⟨t₁, ht₁, s₁, hs₁, h₁⟩ := h.step ho
    obtain ⟨t', ht', s', hs', h'⟩ := ih h₁ hops
    exact ⟨t', bind_eq_pure.mpr ⟨t₁, ht₁, ht'⟩, s', bind_eq_pure.mpr ⟨s₁, hs₁, hs'⟩, h'⟩

/-- Twins answer every query alike and hand `for_each` the same values in the same order. -/
theorem Twins.observations [LawfulTraversal C] (h : Twins t s) :
    Agree (2 * b) t s ∧ VebNode.forEachAll t = VebNode.forEachAll s := by
  refine ⟨agree_of_keys (Widths.key b c) (show LawfulVeb.Inv False t from h.dense)
    (show LawfulVeb.Inv False s from h.sparse) h.keys_eq, ?_⟩
  have heq := h.same.forEach_eq (h.dense.view_inv (Widths.fan w c)) h.sparse.view_inv (0 : BitVec w)
  rw [← DenseBranch.forEach_eq h.dense, ← SparseBranch.forEach_eq] at heq
  exact heq

end Runs

section Levels

instance : LawfulShape VebBranch12 := DenseBranch.shape
instance : LawfulShape VebBranch16 := DenseBranch.shape

variable (M)

/-- Dense and sparse storage are interchangeable at 24 and at 32 bits. -/
theorem dense_sparse_interchangeable :
    (∀ ops : List (Op 32), (∀ o ∈ ops, o.key ≤ maxKey 24 32) →
      (run (VebNode.fresh : VebTop24) ops).Returns fun t =>
        (run (VebNode.fresh : VebBranch24 M) ops).Returns fun s =>
          Agree 24 t s ∧ VebNode.forEachAll t = VebNode.forEachAll s) ∧
      ∀ ops : List (Op 32), (∀ o ∈ ops, o.key ≤ maxKey 32 32) →
        (run (VebNode.fresh : VebTop32) ops).Returns fun t =>
          (run (VebNode.fresh : VebBranch32 M) ops).Returns fun s =>
            Agree 32 t s ∧ VebNode.forEachAll t = VebNode.forEachAll s := by
  constructor
  · intro ops hops
    have hlt : ∀ o ∈ ops, o.key.toNat < 2 ^ (2 * 12) := fun o ho =>
      (le_maxKey_iff (by omega) (by omega)).mp (hops o ho)
    exact (Twins.fresh.run hlt).mono fun _ ht => ht.mono fun _ h => h.observations
  · intro ops hops
    have hlt : ∀ o ∈ ops, o.key.toNat < 2 ^ (2 * 16) := fun o ho =>
      (le_maxKey_iff (by omega) (by omega)).mp (hops o ho)
    exact (Twins.fresh.run hlt).mono fun _ ht => ht.mono fun _ h => h.observations

theorem interchangeable_after_expansion :
    (run (VebNode.fresh : VebTop24) [.insert 1, .insert 2, .erase 1]).Returns fun t =>
      (run (VebNode.fresh : VebBranch24 FunMap) [.insert 1, .insert 2, .erase 1]).Returns fun s =>
        Agree 24 t s ∧ VebNode.forEachAll t = VebNode.forEachAll s :=
  (dense_sparse_interchangeable FunMap).1 _ (by decide)

end Levels

end ParvEB
