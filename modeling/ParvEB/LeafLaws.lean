import ParvEB.Lawful
import ParvEB.Leaf
import ParvEB.Search
import ParvEB.WordArray

/-! The leaves are exact sets of keys. -/
namespace ParvEB

open Outcome

theorem toNat_ofNat_of_lt {w n : ℕ} (h : n < 2 ^ w) : (BitVec.ofNat w n).toNat = n := by
  rw [BitVec.toNat_ofNat, Nat.mod_eq_of_lt h]

namespace VebLeaf6

variable {t : VebLeaf6} {x : BitVec 8}

theorem insert_eq (h : x.toNat < 64) : t.insert x = pure ⟨t.bits ||| 1#64 <<< x.toNat⟩ := by
  simp [insert, shl64_of_lt h]

theorem erase_eq (h : x.toNat < 64) : t.erase x = pure ⟨t.bits &&& ~~~ (1#64 <<< x.toNat)⟩ := by
  simp [erase, shl64_of_lt h]

theorem contains_eq (h : x.toNat < 64) : t.contains x = pure (t.bits.getLsbD x.toNat) := by
  simp only [contains, shr64_of_lt h, pure_bind]
  congr 1
  have := and_one_shiftLeft_ne_zero (x := t.bits >>> x.toNat) (i := 0)
  simpa using this

theorem empty_iff : t.empty = true ↔ bitsOf t.bits = ∅ := by
  rw [empty, beq_iff_eq, eq_zero_iff]

end VebLeaf6

/-- The lowest set bit of a word, as a key of at least 8 bits. -/
theorem isFirst_countrZero {w : ℕ} (hw : 8 ≤ w) (x : BitVec 64) :
    IsFirst (bitsOf x) ((if x = 0 then none else some (BitVec.ofNat w (countrZero x))).map
      BitVec.toNat) := by
  split
  next h => exact eq_zero_iff.mp h
  next h =>
    have hm := isLeast_countrZero h
    have hpow : 2 ^ 6 ≤ 2 ^ w := Nat.pow_le_pow_right (by omega) (by omega)
    have hlt : countrZero x < 2 ^ w := (lt_of_mem_bitsOf hm.1).trans_le hpow
    simpa [IsFirst, toNat_ofNat_of_lt hlt] using hm

theorem isLast_countlZero {w : ℕ} (hw : 8 ≤ w) (x : BitVec 64) :
    IsLast (bitsOf x) ((if x = 0 then none else some (BitVec.ofNat w (63 - countlZero x))).map
      BitVec.toNat) := by
  split
  next h => exact eq_zero_iff.mp h
  next h =>
    have hm := isGreatest_countlZero h
    have hpow : 2 ^ 6 ≤ 2 ^ w := Nat.pow_le_pow_right (by omega) (by omega)
    have hlt : 63 - countlZero x < 2 ^ w := (lt_of_mem_bitsOf hm.1).trans_le hpow
    simpa [IsLast, toNat_ofNat_of_lt hlt] using hm

theorem bitsOf_and_above (x : BitVec 64) (n : ℕ) :
    bitsOf (x &&& BitVec.allOnes 64 <<< (n + 1)) = above (bitsOf x) n := by
  rw [bitsOf_and, bitsOf_allOnes_shiftLeft]
  ext i
  constructor
  · exact fun h => ⟨h.1, h.2.1⟩
  · exact fun h => ⟨h.1, h.2, lt_of_mem_bitsOf h.1⟩

theorem bitsOf_and_below (x : BitVec 64) {n : ℕ} (h : n < 64) :
    bitsOf (x &&& (1#64 <<< n - 1#64)) = below (bitsOf x) n := by
  rw [bitsOf_and, bitsOf_one_shiftLeft_sub_one h]
  rfl

namespace VebLeaf6

variable {t : VebLeaf6} {x : BitVec 8}

theorem successor_spec (h : x.toNat < 64) :
    (t.successor x).Returns fun r => IsFirst (above (bitsOf t.bits) x.toNat)
      (r.map BitVec.toNat) := by
  unfold successor
  split
  next hx =>
    rw [returns_pure, hx]
    exact upFrom_eq_empty fun k hk => lt_of_mem_bitsOf hk
  next hx =>
    have hx : x.toNat ≠ 63 := fun he => hx (BitVec.eq_of_toNat_eq (by simpa using he))
    rw [shl64_of_lt (by omega), pure_bind, returns_pure, ← bitsOf_and_above]
    exact isFirst_countrZero le_rfl _

theorem predecessor_spec (h : x.toNat < 64) :
    (t.predecessor x).Returns fun r => IsLast (below (bitsOf t.bits) x.toNat)
      (r.map BitVec.toNat) := by
  unfold predecessor
  split
  next hx =>
    rw [returns_pure, hx]
    exact below_zero _
  next hx =>
    rw [shl64_of_lt h, pure_bind, returns_pure, ← bitsOf_and_below _ h]
    exact isLast_countlZero le_rfl _

instance : LawfulVeb VebLeaf6 6 where
  keys t := bitsOf t.bits
  Inv _ _ := True
  bits_le := by omega
  mono _ _ := trivial
  key_lt _ hk := lt_of_mem_bitsOf hk
  fresh_inv := trivial
  keys_fresh := eq_zero_iff.mp rfl
  empty_spec _ := empty_iff
  insert_spec {_ _ k _} _ hk := by
    simp only [VebNode.insert, insert_eq hk, pure_bind]
    refine ends_returned ⟨trivial, ?_⟩
    have h64 : k.toNat < 64 := hk
    rw [bitsOf_or, bitsOf_one_shiftLeft h64, Set.union_singleton]
  erase_spec _ hk := by
    simp only [VebNode.erase, erase_eq hk]
    exact returns_pure.mpr ⟨trivial, bitsOf_and_not_one_shiftLeft hk⟩
  contains_spec _ hk := by
    simp only [VebNode.contains, contains_eq hk]
    exact returns_pure.mpr Iff.rfl
  min_spec _ := returns_pure.mpr (isFirst_countrZero le_rfl _)
  max_spec _ := returns_pure.mpr (isLast_countlZero le_rfl _)
  successor_spec _ hk := successor_spec hk
  predecessor_spec _ hk := predecessor_spec hk

end VebLeaf6

namespace VebLeaf8

variable {t : VebLeaf8} {x : BitVec 16}

theorem wordIdx_eq : (x >>> 6).toNat = x.toNat / 64 := by
  simp [Nat.shiftRight_eq_div_pow]

theorem offset_eq : (x &&& 63).toNat = x.toNat % 64 := Nat.and_two_pow_sub_one_eq_mod x.toNat 6

theorem locate_fst : (locate x).1 = x.toNat / 64 := wordIdx_eq

theorem locate_snd : (locate x).2 = 1#64 <<< (x.toNat % 64) := by
  rw [locate, offset_eq]

theorem maskAbove_eq {n : ℕ} (h : n < 64) :
    maskAbove n = pure (BitVec.allOnes 64 <<< (n + 1)) := by
  unfold maskAbove
  split
  next h63 => rw [h63]; rfl
  next h63 => rw [shl64_of_lt (by omega)]

theorem maskBelow_eq {n : ℕ} (h : n < 64) : maskBelow n = pure (1#64 <<< n - 1#64) := by
  unfold maskBelow
  split
  next h0 => rw [h0]; rfl
  next h0 => rw [shl64_of_lt h, pure_bind]; rfl

theorem get_word (h : x.toNat < 256) :
    arrayGet t.words (locate x).1 = pure (wordAt t.words (x.toNat / 64)) := by
  rw [locate_fst, arrayGet_wordAt (by omega)]

theorem insert_spec (h : x.toNat < 256) :
    ∃ t', t.insert x = pure t' ∧ indices t'.words = Insert.insert x.toNat (indices t.words) := by
  obtain ⟨a, ha, hk⟩ := indices_set (a := t.words) (i := x.toNat) (by omega)
  refine ⟨⟨a⟩, ?_, hk⟩
  rw [insert, get_word h, pure_bind, locate_fst, locate_snd, ha, pure_bind]

theorem erase_spec (h : x.toNat < 256) :
    ∃ t', t.erase x = pure t' ∧ indices t'.words = indices t.words \ {x.toNat} := by
  obtain ⟨a, ha, hk⟩ := indices_reset (a := t.words) (i := x.toNat) (by omega)
  refine ⟨⟨a⟩, ?_, hk⟩
  rw [erase, get_word h, pure_bind, locate_fst, locate_snd, ha, pure_bind]

theorem contains_spec (h : x.toNat < 256) :
    (t.contains x).Returns fun r => r = true ↔ x.toNat ∈ indices t.words := by
  rw [contains, get_word h, pure_bind, returns_pure, locate_snd, and_one_shiftLeft_ne_zero]
  exact Iff.rfl

theorem empty_iff : t.empty = true ↔ indices t.words = ∅ := by
  rw [← indices_zero (n := 4), indices_injective.eq_iff, empty, beq_iff_eq]
  constructor
  · intro h
    funext q
    simp only [BitVec.ofNat_eq_ofNat, BitVec.or_eq_zero_iff] at h
    match q with
    | 0 => exact h.1.1.1
    | 1 => exact h.1.1.2
    | 2 => exact h.1.2
    | 3 => exact h.2
  · intro h
    rw [h]
    rfl

/-- The upward loop finds the first nonzero word, and in it the lowest bit. -/
theorem scanUp_spec (n i : ℕ) (h : i + n = 4) :
    (t.scanUp n i).Returns fun r => IsFirst (upFrom (indices t.words) (i * 64))
      (r.map BitVec.toNat) := by
  induction n generalizing i with
  | zero =>
    refine returns_pure.mpr (upFrom_eq_empty fun k hk => ?_)
    have := lt_of_mem_indices hk
    omega
  | succ n ih =>
    rw [scanUp, arrayGet_wordAt (by omega), pure_bind]
    split
    next h0 =>
      rw [upFrom_skip (show i * 64 ≤ (i + 1) * 64 by omega)
        fun k hlo hhi => notMem_indices_of_wordAt h0 hlo hhi]
      exact ih (i + 1) (by omega)
    next h0 =>
      have hm := isLeast_countrZero h0
      have hlt := lt_of_mem_bitsOf hm.1
      rw [returns_pure, Option.map_some, toNat_ofNat_of_lt (by omega)]
      refine isFirst_upFrom ((mem_indices i _ hlt).mpr hm.1) (by omega) fun k hlo hhi hk => ?_
      -- a lower bit of the same word
      have := hm.2 (mem_bitsOf_of_div hk (show k / 64 = i by omega))
      omega

theorem scanDown_spec (n : ℕ) (h : n ≤ 4) :
    (t.scanDown n).Returns fun r => IsLast (below (indices t.words) (n * 64))
      (r.map BitVec.toNat) := by
  induction n with
  | zero =>
    rw [Nat.zero_mul]
    exact returns_pure.mpr (below_zero _)
  | succ n ih =>
    rw [scanDown, arrayGet_wordAt (by omega), pure_bind]
    split
    next h0 =>
      rw [below_skip (show n * 64 ≤ (n + 1) * 64 by omega)
        fun k hlo hhi => notMem_indices_of_wordAt h0 hlo hhi]
      exact ih (by omega)
    next h0 =>
      have hm := isGreatest_countlZero h0
      have hlt := lt_of_mem_bitsOf hm.1
      rw [returns_pure, Option.map_some, toNat_ofNat_of_lt (by omega)]
      refine isLast_below ((mem_indices n _ hlt).mpr hm.1) (by omega) fun k hlo hhi hk => ?_
      have := hm.2 (mem_bitsOf_of_div hk (show k / 64 = n by omega))
      omega

theorem successor_spec (h : x.toNat < 256) :
    (t.successor x).Returns fun r => IsFirst (above (indices t.words) x.toNat)
      (r.map BitVec.toNat) := by
  unfold successor
  split
  next hx =>
    rw [returns_pure, hx]
    exact upFrom_eq_empty fun k hk => lt_of_mem_indices hk
  next hx =>
    have hx : x.toNat ≠ 255 := fun he => hx (BitVec.eq_of_toNat_eq (by simpa using he))
    simp only [offset_eq, wordIdx_eq]
    rw [arrayGet_wordAt (by omega), pure_bind, maskAbove_eq (by omega), pure_bind]
    have hbits := bitsOf_and_above (wordAt t.words (x.toNat / 64)) (x.toNat % 64)
    rw [above_eq_upFrom]
    split
    next h0 =>
      rw [eq_zero_iff, hbits] at h0
      rw [upFrom_skip (show x.toNat + 1 ≤ (x.toNat / 64 + 1) * 64 by omega)]
      · exact scanUp_spec _ _ (by omega)
      · -- a later key of the same word would be a candidate
        intro k hlo hhi hk
        have hmem : k % 64 ∈ above (bitsOf (wordAt t.words (x.toNat / 64))) (x.toNat % 64) :=
          ⟨mem_bitsOf_of_div hk (by omega), by omega⟩
        rwa [h0] at hmem
    next h0 =>
      have hm := isLeast_countrZero h0
      rw [hbits] at hm
      have hlt := lt_of_mem_bitsOf hm.1.1
      have hgt := hm.1.2
      rw [returns_pure, Option.map_some, toNat_ofNat_of_lt (by omega)]
      refine isFirst_upFrom ((mem_indices _ _ hlt).mpr hm.1.1) (by omega) fun k hlo hhi hk => ?_
      have := hm.2 ⟨mem_bitsOf_of_div hk (show k / 64 = x.toNat / 64 by omega), by omega⟩
      omega

theorem predecessor_spec (h : x.toNat < 256) :
    (t.predecessor x).Returns fun r => IsLast (below (indices t.words) x.toNat)
      (r.map BitVec.toNat) := by
  unfold predecessor
  split
  next hx =>
    rw [returns_pure, hx]
    exact below_zero _
  next hx =>
    simp only [offset_eq, wordIdx_eq]
    rw [arrayGet_wordAt (by omega), pure_bind, maskBelow_eq (by omega), pure_bind]
    have hbits := bitsOf_and_below (wordAt t.words (x.toNat / 64))
      (show x.toNat % 64 < 64 by omega)
    split
    next h0 =>
      rw [eq_zero_iff, hbits] at h0
      rw [below_skip (show x.toNat / 64 * 64 ≤ x.toNat by omega)]
      · exact scanDown_spec _ (by omega)
      · intro k hlo hhi hk
        have hmem : k % 64 ∈ below (bitsOf (wordAt t.words (x.toNat / 64))) (x.toNat % 64) :=
          ⟨mem_bitsOf_of_div hk (by omega), by omega⟩
        rwa [h0] at hmem
    next h0 =>
      have hm := isGreatest_countlZero h0
      rw [hbits] at hm
      have hlt := lt_of_mem_bitsOf hm.1.1
      have hgt := hm.1.2
      rw [returns_pure, Option.map_some, toNat_ofNat_of_lt (by omega)]
      refine isLast_below ((mem_indices _ _ hlt).mpr hm.1.1) (by omega) fun k hlo hhi hk => ?_
      have := hm.2 ⟨mem_bitsOf_of_div hk (show k / 64 = x.toNat / 64 by omega), by omega⟩
      omega

instance : LawfulVeb VebLeaf8 8 where
  keys t := indices t.words
  Inv _ _ := True
  bits_le := by omega
  mono _ _ := trivial
  key_lt _ hk := lt_of_mem_indices hk
  fresh_inv := trivial
  keys_fresh := indices_zero
  empty_spec _ := empty_iff
  insert_spec {_ t _ _} _ hk := by
    obtain ⟨t', ht, hkeys⟩ := insert_spec (t := t) hk
    simp only [VebNode.insert, ht, pure_bind]
    exact ends_returned ⟨trivial, hkeys⟩
  erase_spec {_ t _} _ hk := by
    obtain ⟨t', ht, hkeys⟩ := erase_spec (t := t) hk
    exact ⟨t', ht, trivial, hkeys⟩
  contains_spec _ hk := contains_spec hk
  min_spec {_ t} _ := by
    have hall : upFrom (indices t.words) (0 * 64) = indices t.words :=
      Set.sep_eq_self_iff_mem_true.mpr fun k _ => by omega
    rw [← hall]
    exact scanUp_spec 4 0 rfl
  max_spec {_ t} _ := by
    have hall : below (indices t.words) (4 * 64) = indices t.words :=
      Set.sep_eq_self_iff_mem_true.mpr fun k hk => lt_of_mem_indices hk
    rw [← hall]
    exact scanDown_spec 4 le_rfl
  successor_spec _ hk := successor_spec hk
  predecessor_spec _ hk := predecessor_spec hk

end VebLeaf8

end ParvEB
