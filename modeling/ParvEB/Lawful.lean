import Mathlib.Order.Interval.Set.Basic
import ParvEB.Node
import ParvEB.OrderSplit

/-! The set that a node stands for, and what each member owes it. -/
namespace ParvEB

open Outcome

/-- A node type whose members answer for a set of keys below `2 ^ bits`. `Inv` is the
representation invariant; with `lax` it admits what a failed allocation may leave behind an
inline value. -/
class LawfulVeb (T : Type) {w : outParam ℕ} [VebNode T w] (bits : outParam ℕ) where
  keys : T → Set ℕ
  Inv (lax : Prop) : T → Prop
  bits_le : bits ≤ w
  mono {lax lax' : Prop} {t : T} : (lax → lax') → Inv lax t → Inv lax' t
  key_lt {lax : Prop} {t : T} {k : ℕ} : Inv lax t → k ∈ keys t → k < 2 ^ bits
  fresh_inv {lax : Prop} : Inv lax VebNode.fresh
  keys_fresh : keys VebNode.fresh = ∅
  empty_spec {lax : Prop} {t : T} : Inv lax t → (VebNode.empty t = true ↔ keys t = ∅)
  insert_spec {lax : Prop} {t : T} {k : BitVec w} {m : Mem} : Inv lax t → k.toNat < 2 ^ bits →
    (VebNode.insert t k m).Ends m fun t' => Inv lax t' ∧ keys t' = insert k.toNat (keys t)
  erase_spec {lax : Prop} {t : T} {k : BitVec w} : Inv lax t → k.toNat < 2 ^ bits →
    (VebNode.erase t k).Returns fun t' => Inv lax t' ∧ keys t' = keys t \ {k.toNat}
  contains_spec {lax : Prop} {t : T} {k : BitVec w} : Inv lax t → k.toNat < 2 ^ bits →
    (VebNode.contains t k).Returns fun r => r = true ↔ k.toNat ∈ keys t
  min_spec {lax : Prop} {t : T} : Inv lax t →
    (VebNode.min t).Returns fun r => IsFirst (keys t) (r.map BitVec.toNat)
  max_spec {lax : Prop} {t : T} : Inv lax t →
    (VebNode.max t).Returns fun r => IsLast (keys t) (r.map BitVec.toNat)
  successor_spec {lax : Prop} {t : T} {k : BitVec w} : Inv lax t → k.toNat < 2 ^ bits →
    (VebNode.successor t k).Returns fun r => IsFirst (above (keys t) k.toNat) (r.map BitVec.toNat)
  predecessor_spec {lax : Prop} {t : T} {k : BitVec w} : Inv lax t → k.toNat < 2 ^ bits →
    (VebNode.predecessor t k).Returns fun r => IsLast (below (keys t) k.toNat) (r.map BitVec.toNat)

theorem contains_iff {T : Type} {w bits : ℕ} [VebNode T w] [LawfulVeb T bits] {lax : Prop} {t : T}
    {k : BitVec w} (h : LawfulVeb.Inv lax t) (hk : k.toNat < 2 ^ bits) :
    VebNode.contains t k = pure true ↔ k.toNat ∈ LawfulVeb.keys t := by
  obtain ⟨r, hr, hmem⟩ := LawfulVeb.contains_spec h hk
  rw [hr, pure_inj]
  exact hmem

/-- Nodes that stand for one set agree on `contains`, whatever their types. -/
theorem contains_congr {T T' : Type} {w bits : ℕ} [VebNode T w] [LawfulVeb T bits] [VebNode T' w]
    [LawfulVeb T' bits] {lax lax' : Prop} {t : T} {t' : T'} {k : BitVec w}
    (h : LawfulVeb.Inv lax t) (h' : LawfulVeb.Inv lax' t') (hk : k.toNat < 2 ^ bits)
    (hkeys : LawfulVeb.keys t = LawfulVeb.keys t') :
    VebNode.contains t k = VebNode.contains t' k := by
  obtain ⟨r, hr, hmem⟩ := LawfulVeb.contains_spec h hk
  obtain ⟨r', hr', hmem'⟩ := LawfulVeb.contains_spec h' hk
  rw [hkeys, ← hmem'] at hmem
  rw [hr, hr', Bool.eq_iff_iff.mpr hmem]

section Calls

variable {T : Type} {w bits : ℕ} [VebNode T w] {t t' : T} {k : BitVec w} {m : Mem}

/-- Some call of `insert` returns and leaves `t'`. -/
def Inserted (t : T) (k : BitVec w) (t' : T) : Prop :=
  ∃ m m', VebNode.insert t k m = pure (.returned t' m')

def Erased (t : T) (k : BitVec w) (t' : T) : Prop := VebNode.erase t k = pure t'

/-- What every call of `insert` ensures holds after one that returned. -/
theorem Inserted.of_ends {P : T → Prop} (hi : Inserted t k t')
    (h : ∀ m, (VebNode.insert t k m).Ends m P) : P t' := by
  obtain ⟨m, m', hm⟩ := hi
  obtain ⟨e, he, hs⟩ := h m
  rw [hm, pure_inj] at he
  subst he
  exact hs.1

theorem Erased.of_returns {P : T → Prop} (he : Erased t k t')
    (h : (VebNode.erase t k).Returns P) : P t' := by
  obtain ⟨t'', ht'', hp⟩ := h
  rw [show VebNode.erase t k = pure t' from he, pure_inj] at ht''
  rwa [ht'']

variable [LawfulVeb T bits] {lax : Prop}

theorem inserted_spec (h : LawfulVeb.Inv lax t) (hk : k.toNat < 2 ^ bits) :
    (VebNode.insert t k m).Ends m (Inserted t k) := by
  obtain ⟨e, he, hs⟩ := LawfulVeb.insert_spec (m := m) h hk
  refine ⟨e, he, ?_⟩
  cases e with
  | returned t' m' => exact ⟨⟨m, m', he⟩, hs.2⟩
  | threw t' => exact hs

theorem erased_spec (h : LawfulVeb.Inv lax t) (hk : k.toNat < 2 ^ bits) :
    (VebNode.erase t k).Returns (Erased t k) := by
  obtain ⟨t', ht', _⟩ := LawfulVeb.erase_spec h hk
  exact ⟨t', ht', ht'⟩

theorem Inserted.spec (hi : Inserted t k t') (h : LawfulVeb.Inv lax t) (hk : k.toNat < 2 ^ bits) :
    LawfulVeb.Inv lax t' ∧ LawfulVeb.keys t' = insert k.toNat (LawfulVeb.keys t) :=
  hi.of_ends fun _ => LawfulVeb.insert_spec h hk

theorem Erased.spec (he : Erased t k t') (h : LawfulVeb.Inv lax t) (hk : k.toNat < 2 ^ bits) :
    LawfulVeb.Inv lax t' ∧ LawfulVeb.keys t' = LawfulVeb.keys t \ {k.toNat} :=
  he.of_returns (LawfulVeb.erase_spec h hk)

end Calls

variable {K : Type*} [LinearOrder K] {S : Set K}

theorem isFirst_none_iff {r : Option K} (h : IsFirst S r) : r = none ↔ S = ∅ := by
  cases r with
  | none => simpa [IsFirst] using h
  | some k => simpa using (Set.nonempty_of_mem h.1).ne_empty

theorem isLast_none_iff {r : Option K} (h : IsLast S r) : r = none ↔ S = ∅ := by
  cases r with
  | none => simpa [IsLast] using h
  | some k => simpa using (Set.nonempty_of_mem h.1).ne_empty

/-- A key split at bit `b`. -/
theorem orderSplit_divMod {n : ℕ} (hn : 0 < n) : OrderSplit (· / n) (· % n) := by
  constructor
  intro x y
  have hx := Nat.div_add_mod x n
  have hy := Nat.div_add_mod y n
  have hxn := Nat.mod_lt x hn
  have hyn := Nat.mod_lt y hn
  constructor
  · intro hlt
    rcases (Nat.div_le_div_right hlt.le : x / n ≤ y / n).lt_or_eq with h | h
    · exact Or.inl h
    · rw [h] at hx
      exact Or.inr ⟨h, by omega⟩
  · rintro (hlt | ⟨he, hlt⟩)
    · have := Nat.mul_le_mul_left n hlt
      rw [Nat.mul_succ] at this
      omega
    · rw [he] at hx
      omega

end ParvEB
