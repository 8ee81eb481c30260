import ParvEB.LeafLaws

/-! What `for_each` hands to its callback, and the traversal of the leaves. -/
namespace ParvEB

open Outcome

/-- The list is `p` plus each member of `S`, once and in increasing order. -/
def Emits (l : List ℕ) (p : ℕ) (S : Set ℕ) : Prop :=
  l.Pairwise (· < ·) ∧ ∀ y, y ∈ l ↔ ∃ x ∈ S, y = p + x

/-- A member of `S` is missing, and not one of the first few. -/
def Loses (l : List ℕ) (p : ℕ) (S : Set ℕ) : Prop := ∃ x ∈ S, p + x ∉ l ∧ 2 ^ 8 ≤ p + x

/-- A node type whose traversal is exact from the prefixes that `Fits` admits, and only from
these. -/
class LawfulTraversal (T : Type) {w : outParam ℕ} [VebNode T w] {bits : outParam ℕ}
    [LawfulVeb T bits] where
  Fits : T → ℕ → Prop
  forEachAll_eq (t : T) : VebNode.forEachAll t = VebNode.forEach t 0
  forEach_spec {lax : Prop} {t : T} {p : BitVec w} : LawfulVeb.Inv lax t → p.toNat % 2 ^ bits = 0 →
    (VebNode.forEach t p).Returns fun l => (∀ y ∈ l, y < p.toNat + 2 ^ bits) ∧
      (Fits t p.toNat → Emits l p.toNat (LawfulVeb.keys t)) ∧
      (¬ Fits t p.toNat → Loses l p.toNat (LawfulVeb.keys t))

section Lists

variable {p n : ℕ} {S : Set ℕ} {I : Set ℕ} {L : List ℕ} {f : ℕ → List ℕ} {K : ℕ → Set ℕ}

theorem emits_singleton (p v : ℕ) : Emits [p + v] p {v} := by
  refine ⟨List.pairwise_singleton _ _, fun y => ?_⟩
  simp

theorem emits_empty {l : List ℕ} (h : Emits l p ∅) : l = [] := by
  refine List.eq_nil_iff_forall_not_mem.mpr fun y hy => ?_
  obtain ⟨x, hx, _⟩ := (h.2 y).mp hy
  exact hx

/-- Blocks of width `n`, one after the other. -/
theorem emits_flatMap (hL : Emits L 0 I) (hf : ∀ i ∈ I, Emits (f i) (p + i * n) (K i))
    (hK : ∀ i ∈ I, ∀ x ∈ K i, x < n) :
    (L.flatMap f).Pairwise (· < ·) ∧
      ∀ y, y ∈ L.flatMap f ↔ ∃ i ∈ I, ∃ x ∈ K i, y = p + i * n + x := by
  have hmem : ∀ i, i ∈ L ↔ i ∈ I := by
    intro i
    rw [hL.2]
    simp
  constructor
  · rw [List.pairwise_flatMap]
    refine ⟨fun i hi => (hf i ((hmem i).mp hi)).1, ?_⟩
    refine hL.1.imp_of_mem ?_
    intro i j hi hj hij y hy z hz
    have hI := (hmem i).mp hi
    obtain ⟨x, hx, rfl⟩ := ((hf i hI).2 y).mp hy
    obtain ⟨x', _, rfl⟩ := ((hf j ((hmem j).mp hj)).2 z).mp hz
    have hlt := hK i hI x hx
    have hmul := Nat.mul_le_mul_right n hij
    rw [Nat.succ_mul] at hmul
    omega
  · intro y
    rw [List.mem_flatMap]
    constructor
    · rintro ⟨i, hi, hy⟩
      have hI := (hmem i).mp hi
      obtain ⟨x, hx, rfl⟩ := ((hf i hI).2 y).mp hy
      exact ⟨i, hI, x, hx, rfl⟩
    · rintro ⟨i, hi, x, hx, rfl⟩
      exact ⟨i, (hmem i).mpr hi, ((hf i hi).2 _).mpr ⟨x, hx, rfl⟩⟩

end Lists

section Words

variable {n : ℕ} {x : BitVec 64} {fn : ℕ → ℕ}

/-- With a round to spare for each set bit, the loop lists them all. -/
theorem whileBits_eq (h : (bitList x).length ≤ n) :
    whileBits fn n x = pure ((bitList x).map fn) := by
  induction n generalizing x with
  | zero =>
    have hnil : bitList x = [] := List.length_eq_zero_iff.mp (Nat.le_zero.mp h)
    have hx : x = 0 := by
      by_contra hne
      rw [bitList_cons hne] at hnil
      cases hnil
    rw [whileBits, if_pos hx, hnil]
    rfl
  | succ n ih =>
    rw [whileBits]
    split
    next hx =>
      rw [hx, bitList_zero]
      rfl
    next hx =>
      rw [bitList_cons hx] at h ⊢
      rw [show whileBits fn n (x &&& (x - 1)) = _ from ih (Nat.le_of_succ_le_succ h), pure_bind]
      rfl

theorem whileBits_64 : whileBits fn 64 x = pure ((bitList x).map fn) :=
  whileBits_eq (bitList_length_le x)

/-- A prefix whose low bits are zero is added to what has only low bits. -/
theorem toNat_or_of_mod {w : ℕ} {p x : BitVec w} {n : ℕ} (hp : p.toNat % 2 ^ n = 0)
    (hx : x.toNat < 2 ^ n) : (p ||| x).toNat = p.toNat + x.toNat := by
  have hsplit : p.toNat = (p.toNat / 2 ^ n) <<< n := by
    rw [Nat.shiftLeft_eq]
    have := Nat.div_add_mod' p.toNat (2 ^ n)
    omega
  rw [BitVec.toNat_or, hsplit, ← Nat.shiftLeft_add_eq_or_of_lt hx]

/-- What is emitted from such a prefix is the prefix joined with each key. -/
theorem Emits.exists_keys {w n : ℕ} {p : BitVec w} {l : List ℕ} {S : Set ℕ}
    (h : Emits l p.toNat S) (hp : p.toNat % 2 ^ n = 0) (hn : n ≤ w) (hS : ∀ x ∈ S, x < 2 ^ n) :
    ∃ keys : List (BitVec w), keys.Pairwise (· < ·) ∧ (∀ k, k ∈ keys ↔ k.toNat ∈ S) ∧
      l = keys.map fun k => (p ||| k).toNat := by
  have hkey : ∀ y ∈ l, (BitVec.ofNat w (y - p.toNat)).toNat ∈ S ∧
      y = p.toNat + (BitVec.ofNat w (y - p.toNat)).toNat := by
    intro y hy
    obtain ⟨x, hx, rfl⟩ := (h.2 y).mp hy
    have hxw := (hS x hx).trans_le (Nat.pow_le_pow_right (by omega) hn)
    rw [Nat.add_sub_cancel_left, toNat_ofNat_of_lt hxw]
    exact ⟨hx, rfl⟩
  refine ⟨l.map fun y => BitVec.ofNat w (y - p.toNat), ?_, fun k => ?_, ?_⟩
  · rw [List.pairwise_map]
    refine h.1.imp_of_mem fun {y z} hy hz hyz => ?_
    have hy' := (hkey y hy).2
    have hz' := (hkey z hz).2
    rw [BitVec.lt_def]
    omega
  · rw [List.mem_map]
    constructor
    · rintro ⟨y, hy, rfl⟩
      exact (hkey y hy).1
    · intro hk
      refine ⟨p.toNat + k.toNat, (h.2 _).mpr ⟨_, hk, rfl⟩, ?_⟩
      rw [Nat.add_sub_cancel_left, BitVec.ofNat_toNat, BitVec.setWidth_eq]
  · rw [List.map_map]
    refine (List.map_id l).symm.trans (List.map_congr_left fun y hy => ?_)
    obtain ⟨hmem, heq⟩ := hkey y hy
    exact heq.trans (toNat_or_of_mod hp (hS _ hmem)).symm

end Words

section Leaves

/-- The bits of one word under a prefix. -/
theorem emits_map_bitList {p : ℕ} {x : BitVec 64} {fn : ℕ → ℕ} (hfn : ∀ i < 64, fn i = p + i) :
    Emits ((bitList x).map fn) p (bitsOf x) := by
  have hmap : (bitList x).map fn = (bitList x).map (p + ·) := by
    refine List.map_congr_left fun i hi => hfn i ?_
    exact lt_of_mem_bitsOf (mem_bitList.mp hi)
  rw [hmap]
  refine ⟨(bitList_pairwise x).map _ fun _ _ h => Nat.add_lt_add_left h p, fun y => ?_⟩
  rw [List.mem_map]
  exact exists_congr fun i => and_congr mem_bitList eq_comm

instance : LawfulTraversal VebLeaf6 where
  Fits _ _ := True
  forEachAll_eq t := by
    simp [VebNode.forEachAll, VebNode.forEach, VebLeaf6.forEachAll, VebLeaf6.forEach]
  forEach_spec {_ t p} _ hp := by
    have hfn : ∀ i < 64, (p ||| BitVec.ofNat 8 i).toNat = p.toNat + i := by
      intro i hi
      have hi8 : (BitVec.ofNat 8 i).toNat = i := by
        rw [BitVec.toNat_ofNat, Nat.mod_eq_of_lt (by omega)]
      rw [toNat_or_of_mod hp (by omega), hi8]
    have hemits := emits_map_bitList (x := t.bits) hfn
    refine ⟨_, whileBits_64, fun y hy => ?_, fun _ => hemits, fun hn => (hn trivial).elim⟩
    obtain ⟨i, hi, rfl⟩ := (hemits.2 y).mp hy
    exact Nat.add_lt_add_left (lt_of_mem_bitsOf hi) _

namespace VebLeaf8

variable {t : VebLeaf8} {pfx : BitVec 16}

/-- What the inner loop hands over for one word. -/
def wordList (t : VebLeaf8) (pfx : BitVec 16) (i : ℕ) : List ℕ :=
  (bitList (wordAt t.words i)).map fun bit => (pfx ||| BitVec.ofNat 16 (i * 64 + bit)).toNat

theorem forEachWord_eq (n i : ℕ) (h : i + n ≤ 4) :
    t.forEachWord pfx n i = pure ((List.range' i n).flatMap (t.wordList pfx)) := by
  induction n generalizing i with
  | zero => rfl
  | succ n ih =>
    rw [forEachWord, arrayGet_wordAt (by omega), pure_bind, whileBits_64, pure_bind,
      ih (i + 1) (by omega), pure_bind, List.range'_succ, List.flatMap_cons]
    rfl

theorem emits_wordList (hp : pfx.toNat % 2 ^ 8 = 0) {i : ℕ} (hi : i < 4) :
    Emits (t.wordList pfx i) (pfx.toNat + i * 64) (bitsOf (wordAt t.words i)) := by
  refine emits_map_bitList fun bit hbit => ?_
  have hn : (BitVec.ofNat 16 (i * 64 + bit)).toNat = i * 64 + bit := by
    rw [BitVec.toNat_ofNat, Nat.mod_eq_of_lt (by omega)]
  rw [toNat_or_of_mod hp (by omega), hn, Nat.add_assoc]

/-- The traversal is the words' lists in order. -/
theorem emits_words (hp : pfx.toNat % 2 ^ 8 = 0) :
    Emits ((List.range' 0 4).flatMap (t.wordList pfx)) pfx.toNat (indices t.words) := by
  have hrange : Emits (List.range' 0 4) 0 {i | i < 4} := by
    refine ⟨List.pairwise_lt_range', fun y => ?_⟩
    simp [List.mem_range']
  obtain ⟨hsorted, hmem⟩ := emits_flatMap hrange (fun i hi => emits_wordList (t := t) hp hi)
    fun i _ x hx => lt_of_mem_bitsOf hx
  refine ⟨hsorted, fun y => (hmem y).trans ?_⟩
  constructor
  · rintro ⟨i, _, x, hx, rfl⟩
    exact ⟨i * 64 + x, (mem_indices i x (lt_of_mem_bitsOf hx)).mpr hx, Nat.add_assoc _ _ _⟩
  · rintro ⟨k, hk, rfl⟩
    have hlt := lt_of_mem_indices hk
    refine ⟨k / 64, show k / 64 < 4 by omega, k % 64, mem_bitsOf_of_div hk rfl, ?_⟩
    rw [Nat.add_assoc, Nat.div_add_mod']

instance : LawfulTraversal VebLeaf8 where
  Fits _ _ := True
  forEachAll_eq _ := rfl
  forEach_spec {_ t p} _ hp := by
    have hemits := emits_words (t := t) hp
    refine ⟨_, forEachWord_eq 4 0 le_rfl, fun y hy => ?_, fun _ => hemits,
      fun hn => (hn trivial).elim⟩
    obtain ⟨k, hk, rfl⟩ := (hemits.2 y).mp hy
    exact Nat.add_lt_add_left (lt_of_mem_indices hk) _

end VebLeaf8

end Leaves

end ParvEB
