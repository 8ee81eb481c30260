import ParvEB.DenseLaws
import ParvEB.LeafLaws
import ParvEB.SetModel
import ParvEB.SparseLaws

/-! The four trees. -/
namespace ParvEB

open Outcome

abbrev VebBranch12 := DenseBranch 6 16 8 true VebLeaf6
abbrev VebBranch16 := DenseBranch 8 16 16 true VebLeaf8
abbrev VebTop24 := DenseBranch 12 32 16 false VebBranch12
abbrev VebTop32 := DenseBranch 16 32 16 false VebBranch16

section Sparse

variable (M : ℕ → Type → Type)

abbrev VebBranch24 := SparseBranch 12 32 16 M VebBranch12
abbrev VebBranch32 := SparseBranch 16 32 16 M VebBranch16
abbrev VebBranch48 := SparseBranch 24 64 32 M (VebBranch24 M)
abbrev VebBranch64 := SparseBranch 32 64 32 M (VebBranch32 M)

end Sparse

section Levels

variable {M : ℕ → Type → Type} [FlatMap M]

instance : LawfulVeb VebBranch12 12 := DenseBranch.lawful
instance : LawfulVeb VebBranch16 16 := DenseBranch.lawful
instance : LawfulVeb VebTop24 24 := DenseBranch.lawful
instance : LawfulVeb VebTop32 32 := DenseBranch.lawful
instance : LawfulVeb (VebBranch24 M) 24 := SparseBranch.lawful
instance : LawfulVeb (VebBranch32 M) 32 := SparseBranch.lawful
instance : LawfulVeb (VebBranch48 M) 48 := SparseBranch.lawful
instance : LawfulVeb (VebBranch64 M) 64 := SparseBranch.lawful

end Levels

section Universe

variable {N : Type} {w bits : ℕ} [VebNode N w] [LawfulVeb N bits] {lax : Prop} {t : N}

/-- The keys of the universe for which `contains` answers true are those the node stands for. -/
theorem contains_universe_iff (hw : w ≤ 64) (h : LawfulVeb.Inv lax t) {k : BitVec w} :
    k ≤ maxKey bits w ∧ VebNode.contains t k = pure true ↔ k.toNat ∈ LawfulVeb.keys t := by
  rw [le_maxKey_iff (LawfulVeb.bits_le N) hw]
  constructor
  · exact fun ⟨hk, hc⟩ => (contains_iff h hk).mp hc
  · exact fun hk => ⟨LawfulVeb.key_lt h hk, (contains_iff h (LawfulVeb.key_lt h hk)).mpr hk⟩

theorem exists_toNat_eq (h : LawfulVeb.Inv lax t) {n : ℕ} (hn : n ∈ LawfulVeb.keys t) :
    ∃ k : BitVec w, k.toNat = n := by
  have hlt := LawfulVeb.key_lt h hn
  exact ⟨.ofNatLT n (hlt.trans_le (Nat.pow_le_pow_right (by omega) (LawfulVeb.bits_le N))), rfl⟩

end Universe

/-- The public tree types: each forwards its calls to the branch at its top. -/
inductive Tree
  | veb24 | veb32 | veb48 | veb64
  deriving DecidableEq

namespace Tree

def bits : Tree → ℕ
  | veb24 => 24
  | veb32 => 32
  | veb48 => 48
  | veb64 => 64

/-- The width of `Key`. -/
def width : Tree → ℕ
  | veb24 | veb32 => 32
  | veb48 | veb64 => 64

theorem width_eq (T : Tree) : T.width = keyWidth T.bits := by
  cases T <;> rfl

def State (M : ℕ → Type → Type) : Tree → Type
  | veb24 => VebTop24
  | veb32 => VebTop32
  | veb48 => VebBranch48 M
  | veb64 => VebBranch64 M

def maxKey (T : Tree) : BitVec T.width := ParvEB.maxKey T.bits T.width

variable {M : ℕ → Type → Type} [FlatMap M]

instance : (T : Tree) → VebNode (T.State M) T.width
  | veb24 => inferInstanceAs (VebNode VebTop24 32)
  | veb32 => inferInstanceAs (VebNode VebTop32 32)
  | veb48 => inferInstanceAs (VebNode (VebBranch48 M) 64)
  | veb64 => inferInstanceAs (VebNode (VebBranch64 M) 64)

instance : (T : Tree) → LawfulVeb (T.State M) T.bits
  | veb24 => inferInstanceAs (LawfulVeb VebTop24 24)
  | veb32 => inferInstanceAs (LawfulVeb VebTop32 32)
  | veb48 => inferInstanceAs (LawfulVeb (VebBranch48 M) 48)
  | veb64 => inferInstanceAs (LawfulVeb (VebBranch64 M) 64)

section Runs

variable {T : Tree} {ops : List (Op T.width)} {lax : Prop} {t : T.State M} {k : BitVec T.width}

theorem width_le (T : Tree) : T.width ≤ 64 := by
  cases T <;> decide

theorem bits_le (T : Tree) : T.bits ≤ T.width := by
  cases T <;> decide

theorem le_maxKey : k ≤ T.maxKey ↔ k.toNat < 2 ^ T.bits := le_maxKey_iff T.bits_le T.width_le

/-- Calls whose keys are in the universe. -/
def InRange (T : Tree) (ops : List (Op T.width)) : Prop := ∀ o ∈ ops, o.key ≤ T.maxKey

instance : Decidable (T.InRange ops) := inferInstanceAs (Decidable (∀ o ∈ ops, o.key ≤ T.maxKey))

/-- A key of the universe for which `contains` answers true. -/
def Stored (t : T.State M) (k : BitVec T.width) : Prop :=
  k ≤ T.maxKey ∧ VebNode.contains t k = pure true

theorem contains_spec (h : LawfulVeb.Inv lax t) (hk : k ≤ T.maxKey) :
    ∃ r, VebNode.contains t k = pure r ∧ (r = true ↔ k.toNat ∈ LawfulVeb.keys t) :=
  LawfulVeb.contains_spec h (le_maxKey.mp hk)

theorem stored_iff (h : LawfulVeb.Inv lax t) : Stored t k ↔ k.toNat ∈ LawfulVeb.keys t :=
  contains_universe_iff T.width_le h

theorem exists_stored (h : LawfulVeb.Inv lax t) {n : ℕ} (hn : n ∈ LawfulVeb.keys t) :
    ∃ k, Stored t k ∧ k.toNat = n := by
  obtain ⟨k, rfl⟩ := exists_toNat_eq h hn
  exact ⟨k, (stored_iff h).mpr hn, rfl⟩

theorem keys_eq_empty_iff (h : LawfulVeb.Inv lax t) :
    LawfulVeb.keys t = ∅ ↔ ∀ k, ¬ Stored t k := by
  rw [Set.eq_empty_iff_forall_notMem]
  constructor
  · exact fun hn k hk => hn _ ((stored_iff h).mp hk)
  · intro hn n hmem
    obtain ⟨k, hk, _⟩ := exists_stored h hmem
    exact hn k hk

/-- A run of a new tree keeps to the universe and ends in a well-formed state. -/
theorem run_fresh (hops : T.InRange ops) :
    (run (VebNode.fresh : T.State M) ops).Returns fun t => LawfulVeb.Inv False t ∧
      LawfulVeb.keys t = built ∅ ops := by
  have hfresh : LawfulVeb.Inv False (VebNode.fresh : T.State M) := LawfulVeb.fresh_inv
  have h := run_spec hfresh fun o ho => le_maxKey.mp (hops o ho)
  rwa [LawfulVeb.keys_fresh] at h

/-- Insertions into a new tree make it stand for their keys. -/
theorem run_insertions {ks : List (BitVec T.width)} (hks : ∀ k ∈ ks, k ≤ T.maxKey) :
    (run (VebNode.fresh : T.State M) (ks.map .insert)).Returns fun t =>
      LawfulVeb.Inv False t ∧ ∀ n, n ∈ LawfulVeb.keys t ↔ n ∈ ks.map BitVec.toNat := by
  have hops : T.InRange (ks.map .insert) := by
    intro o ho
    obtain ⟨k, hk, rfl⟩ := List.mem_map.mp ho
    exact hks k hk
  refine (run_fresh hops).mono ?_
  rintro t ⟨h, hkeys⟩
  refine ⟨h, fun n => ?_⟩
  constructor
  · intro hn
    obtain ⟨k, rfl⟩ := exists_toNat_eq h hn
    rw [hkeys, mem_built_empty, live_map_insert] at hn
    exact List.mem_map_of_mem hn
  · intro hn
    obtain ⟨k, hk, rfl⟩ := List.mem_map.mp hn
    rw [hkeys, mem_built_empty, live_map_insert]
    exact hk

end Runs

end Tree

end ParvEB
