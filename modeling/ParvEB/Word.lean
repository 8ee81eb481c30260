import Mathlib.Algebra.Order.Ring.Nat
import Mathlib.Data.List.Sort
import Mathlib.Data.Set.Insert
import ParvEB.OrderSplit

/-! Machine words as sets of bit positions: bit scans and the clear-lowest-bit loop. -/
namespace ParvEB

variable {w : ℕ} {x y : BitVec w} {i j : ℕ}

/-- The positions of the bits that are set. -/
def bitsOf (x : BitVec w) : Set ℕ := {i | x.getLsbD i = true}

/-- Zero bits below the lowest set bit, `w` for the zero word. -/
def countrZero (x : BitVec w) : ℕ := (List.range w).findIdx x.getLsbD

/-- Zero bits above the highest set bit, `w` for the zero word. -/
def countlZero (x : BitVec w) : ℕ := (List.range w).findIdx x.getMsbD

@[simp] theorem mem_bitsOf : i ∈ bitsOf x ↔ x.getLsbD i = true := Iff.rfl

theorem lt_of_mem_bitsOf (h : i ∈ bitsOf x) : i < w := BitVec.lt_of_getLsbD h

theorem eq_zero_iff : x = 0 ↔ bitsOf x = ∅ := by
  constructor
  · rintro rfl
    ext i
    simp
  · intro h
    apply BitVec.eq_of_getLsbD_eq
    intro i _
    have : i ∉ bitsOf x := by simp [h]
    simpa using this

theorem eq_of_bitsOf_eq (h : bitsOf x = bitsOf y) : x = y := by
  apply BitVec.eq_of_getLsbD_eq
  intro i _
  have := congrArg (i ∈ ·) h
  simp only [mem_bitsOf] at this
  exact Bool.eq_iff_iff.mpr (iff_of_eq this)

theorem exists_mem_bitsOf (h : x ≠ 0) : ∃ i, i ∈ bitsOf x := by
  rw [Ne, eq_zero_iff, ← Ne, ← Set.nonempty_iff_ne_empty] at h
  exact h

theorem isLeast_countrZero (h : x ≠ 0) : IsLeast (bitsOf x) (countrZero x) := by
  obtain ⟨i, hi⟩ := exists_mem_bitsOf h
  have hlt : (List.range w).findIdx x.getLsbD < (List.range w).length := by
    apply List.findIdx_lt_length_of_exists
    exact ⟨i, List.mem_range.mpr (lt_of_mem_bitsOf hi), hi⟩
  constructor
  · have := List.findIdx_getElem (w := hlt)
    rwa [List.getElem_range] at this
  · intro j hj
    by_contra hlt'
    have := List.not_of_lt_findIdx (lt_of_not_ge hlt')
    simp [mem_bitsOf.mp hj] at this

theorem countrZero_mem (h : x ≠ 0) : countrZero x ∈ bitsOf x := (isLeast_countrZero h).1

theorem isGreatest_countlZero (h : x ≠ 0) : IsGreatest (bitsOf x) (w - 1 - countlZero x) := by
  obtain ⟨i, hi⟩ := exists_mem_bitsOf h
  have hiw := lt_of_mem_bitsOf hi
  have hlt : (List.range w).findIdx x.getMsbD < (List.range w).length := by
    apply List.findIdx_lt_length_of_exists
    refine ⟨w - 1 - i, List.mem_range.mpr (by omega), ?_⟩
    rw [BitVec.getMsbD_eq_getLsbD]
    simp only [show w - 1 - (w - 1 - i) = i by omega, mem_bitsOf.mp hi, Bool.and_true]
    simp; omega
  constructor
  · have := List.findIdx_getElem (w := hlt)
    rw [List.getElem_range, BitVec.getMsbD_eq_getLsbD, Bool.and_eq_true] at this
    exact this.2
  · intro j hj
    have hjw := lt_of_mem_bitsOf hj
    by_contra hlt'
    have hidx : w - 1 - j < countlZero x := by omega
    have := List.not_of_lt_findIdx hidx
    rw [BitVec.getMsbD_eq_getLsbD] at this
    simp [show w - 1 - (w - 1 - j) = j by omega, mem_bitsOf.mp hj] at this
    omega

@[simp] theorem bitsOf_or : bitsOf (x ||| y) = bitsOf x ∪ bitsOf y := by
  ext i
  simp

@[simp] theorem bitsOf_and : bitsOf (x &&& y) = bitsOf x ∩ bitsOf y := by
  ext i
  simp

theorem and_one_shiftLeft_ne_zero : (x &&& 1#w <<< i != 0) = x.getLsbD i := by
  rw [Bool.eq_iff_iff, bne_iff_ne, Ne, eq_zero_iff, ← Ne, ← Set.nonempty_iff_ne_empty]
  constructor
  · rintro ⟨j, hj⟩
    simp only [mem_bitsOf, BitVec.getLsbD_and, BitVec.getLsbD_shiftLeft, BitVec.getLsbD_one,
      Bool.and_eq_true, Bool.not_eq_true', decide_eq_true_eq, decide_eq_false_iff_not] at hj
    obtain rfl : j = i := by omega
    exact hj.1
  · intro h
    have := BitVec.lt_of_getLsbD h
    exact ⟨i, by simp [h, this]⟩

theorem bitsOf_one_shiftLeft (h : i < w) : bitsOf (1#w <<< i) = {i} := by
  ext j
  simp only [mem_bitsOf, BitVec.getLsbD_shiftLeft, BitVec.getLsbD_one, Set.mem_singleton_iff]
  constructor
  · intro hj
    simp at hj
    omega
  · rintro rfl
    simp; omega

theorem bitsOf_and_not_one_shiftLeft (h : i < w) :
    bitsOf (x &&& ~~~ (1#w <<< i)) = bitsOf x \ {i} := by
  ext j
  have hj : (1#w <<< i).getLsbD j = true ↔ j = i := by
    rw [← mem_bitsOf, bitsOf_one_shiftLeft h, Set.mem_singleton_iff]
  simp only [mem_bitsOf, BitVec.getLsbD_and, BitVec.getLsbD_not, Bool.and_eq_true,
    Bool.not_eq_true', decide_eq_true_eq, Set.mem_sdiff, Set.mem_singleton_iff, ← hj,
    Bool.not_eq_true]
  constructor
  · exact fun h => ⟨h.1, h.2.2⟩
  · exact fun h => ⟨h.1, BitVec.lt_of_getLsbD h.1, h.2⟩

theorem bitsOf_allOnes_shiftLeft (n : ℕ) :
    bitsOf (BitVec.allOnes w <<< n) = {i | n ≤ i ∧ i < w} := by
  ext i
  simp only [mem_bitsOf, BitVec.getLsbD_shiftLeft, BitVec.getLsbD_allOnes, Set.mem_ofPred_eq]
  simp
  omega

theorem bitsOf_one_shiftLeft_sub_one (h : i < w) : bitsOf (1#w <<< i - 1#w) = {j | j < i} := by
  have hone : 1 < 2 ^ w := Nat.one_lt_two_pow (by omega)
  have hpow : 2 ^ i < 2 ^ w := Nat.pow_lt_pow_right (by omega) h
  have hn : (1#w <<< i - 1#w).toNat = 2 ^ i - 1 := by
    rw [BitVec.toNat_sub_of_le]
    · simp [Nat.shiftLeft_eq, Nat.mod_eq_of_lt hone, Nat.mod_eq_of_lt hpow]
    · rw [BitVec.le_def]
      simp [Nat.shiftLeft_eq, Nat.mod_eq_of_lt hone, Nat.mod_eq_of_lt hpow, Nat.one_le_two_pow]
  ext j
  rw [mem_bitsOf, ← BitVec.testBit_toNat, hn, Nat.testBit_two_pow_sub_one]
  simp

/-- Clearing with `x - 1` removes the lowest set bit and no other. -/
theorem bitsOf_and_sub_one (h : x ≠ 0) : bitsOf (x &&& (x - 1#w)) = bitsOf x \ {countrZero x} := by
  have hmem := isLeast_countrZero h
  have ht : countrZero x < w := lt_of_mem_bitsOf hmem.1
  generalize countrZero x = t at hmem ht ⊢
  -- split off the lowest bit: the borrow of `x - 1` stops there
  have hlow : bitsOf (1#w <<< t - 1#w) = {j | j < t} := bitsOf_one_shiftLeft_sub_one ht
  have hrest := bitsOf_and_not_one_shiftLeft (x := x) ht
  generalize x &&& ~~~ (1#w <<< t) = y at hrest
  have hx : x = y + 1#w <<< t := by
    rw [BitVec.add_eq_or_of_and_eq_zero]
    · apply eq_of_bitsOf_eq
      rw [bitsOf_or, bitsOf_one_shiftLeft ht, hrest, Set.sdiff_union_self]
      exact (Set.union_eq_left.mpr (Set.singleton_subset_iff.mpr hmem.1)).symm
    · apply eq_zero_iff.mpr
      rw [bitsOf_and, bitsOf_one_shiftLeft ht, hrest]
      ext j
      simp +contextual
  have hx1 : x - 1#w = y ||| (1#w <<< t - 1#w) := by
    rw [← BitVec.add_eq_or_of_and_eq_zero]
    · rw [hx, BitVec.sub_eq_add_neg, BitVec.sub_eq_add_neg, BitVec.add_assoc]
    · apply eq_zero_iff.mpr
      rw [bitsOf_and, hlow, hrest]
      ext j
      simp only [Set.mem_inter_iff, Set.mem_sdiff, Set.mem_singleton_iff, Set.mem_ofPred_eq,
        Set.mem_empty_iff_false, iff_false]
      rintro ⟨⟨hj, _⟩, hlt⟩
      exact not_lt_of_ge (hmem.2 hj) hlt
  rw [bitsOf_and, hx1, bitsOf_or, hrest, hlow]
  ext j
  simp only [Set.mem_inter_iff, Set.mem_union, Set.mem_sdiff, Set.mem_singleton_iff,
    Set.mem_ofPred_eq]
  constructor
  · rintro ⟨hj, h | h⟩
    · exact h
    · exact (not_lt_of_ge (hmem.2 hj) h).elim
  · exact fun h => ⟨h.1, Or.inl h⟩

/-- The set bits of a word, in increasing order. -/
def bitList (x : BitVec w) : List ℕ := (List.range w).filter x.getLsbD

@[simp] theorem mem_bitList : i ∈ bitList x ↔ i ∈ bitsOf x := by
  simp only [bitList, List.mem_filter, List.mem_range, mem_bitsOf, and_iff_right_iff_imp]
  exact BitVec.lt_of_getLsbD

theorem bitList_pairwise (x : BitVec w) : (bitList x).Pairwise (· < ·) :=
  List.Pairwise.filter _ List.pairwise_lt_range

theorem bitList_length_le (x : BitVec w) : (bitList x).length ≤ w := by
  have := List.length_filter_le x.getLsbD (List.range w)
  rwa [List.length_range] at this

/-- A strictly increasing list is determined by its members. -/
theorem eq_of_pairwise_lt {α : Type*} [LinearOrder α] {l l' : List α}
    (h : l.Pairwise (· < ·)) (h' : l'.Pairwise (· < ·)) (hm : ∀ x, x ∈ l ↔ x ∈ l') : l = l' := by
  have hp : l.Perm l' := (List.perm_ext_iff_of_nodup (h.imp ne_of_lt) (h'.imp ne_of_lt)).mpr hm
  exact hp.eq_of_pairwise (fun a b _ _ hab hba => (lt_asymm hab hba).elim) h h'

theorem bitList_zero : bitList (0 : BitVec w) = [] := by
  simp [bitList]

theorem bitList_cons (h : x ≠ 0) : bitList x = countrZero x :: bitList (x &&& (x - 1#w)) := by
  apply eq_of_pairwise_lt (bitList_pairwise x)
  · rw [List.pairwise_cons]
    refine ⟨fun j hj => ?_, bitList_pairwise _⟩
    rw [mem_bitList, bitsOf_and_sub_one h] at hj
    exact lt_of_le_of_ne ((isLeast_countrZero h).2 hj.1) (Ne.symm hj.2)
  · intro j
    rw [List.mem_cons, mem_bitList, mem_bitList, bitsOf_and_sub_one h]
    by_cases hj : j = countrZero x
    · simp only [hj, true_or, iff_true]
      exact countrZero_mem h
    · simp [hj]

end ParvEB
