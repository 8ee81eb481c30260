import ParvEB.Branch
import ParvEB.WordArray

/-! `DenseBitset` is an exact set of indices. -/
namespace ParvEB.DenseBitset

variable {f : ℕ} {t : DenseBitset f} {idx : BitVec 32}

/-- Whether the bit of an index is set. -/
def has (t : DenseBitset f) (i : ℕ) : Bool := (wordAt t.words (i / 64)).getLsbD (i % 64)

theorem has_iff {i : ℕ} : t.has i = true ↔ i ∈ indices t.words := Iff.rfl

theorem size_eq (hf : 6 ≤ f) : 64 * (if f ≤ 6 then 1 else (2 ^ f + 63) / 64) = 2 ^ f := by
  split
  next h =>
    obtain rfl : f = 6 := by omega
    rfl
  next h =>
    obtain ⟨g, rfl⟩ : ∃ g, f = g + 6 := ⟨f - 6, by omega⟩
    rw [Nat.pow_add]
    omega

theorem lt_of_has (hf : 6 ≤ f) {i : ℕ} (h : t.has i = true) : i < 2 ^ f := by
  have := lt_of_mem_indices (has_iff.mp h)
  rwa [size_eq hf] at this

theorem ext_has {t t' : DenseBitset f} (h : ∀ i, t.has i = t'.has i) : t = t' := by
  apply congrArg DenseBitset.mk
  apply indices_injective
  ext i
  rw [← has_iff, ← has_iff, h]

@[simp] theorem has_zero (i : ℕ) : (zero : DenseBitset f).has i = false := by
  rw [← Bool.not_eq_true, has_iff]
  change i ∉ indices (fun _ => 0#64)
  rw [indices_zero]
  exact Set.notMem_empty i

/-- One word or many, the bit of an index is bit `idx % 64` of word `idx / 64`. -/
theorem locate_eq (hf : 6 ≤ f) (h : idx.toNat < 2 ^ f) :
    locate f idx = pure (idx.toNat / 64, 1#64 <<< (idx.toNat % 64)) := by
  unfold locate
  split
  next h6 =>
    obtain rfl : f = 6 := by omega
    have h64 : idx.toNat < 64 := h
    rw [shl64_of_lt h64, pure_bind, Nat.div_eq_of_lt h64, Nat.mod_eq_of_lt h64]
  next h6 =>
    have hoff : (idx &&& 63).toNat = idx.toNat % 64 :=
      Nat.and_two_pow_sub_one_eq_mod idx.toNat 6
    rw [hoff, BitVec.toNat_ushiftRight, Nat.shiftRight_eq_div_pow]

theorem get_word (hf : 6 ≤ f) (h : idx.toNat < 2 ^ f) :
    arrayGet t.words (idx.toNat / 64) = pure (wordAt t.words (idx.toNat / 64)) := by
  have := size_eq hf
  exact arrayGet_wordAt (by omega)

theorem test_eq (hf : 6 ≤ f) (h : idx.toNat < 2 ^ f) : t.test idx = pure (t.has idx.toNat) := by
  rw [test, if_pos h, locate_eq hf h, pure_bind, get_word hf h, pure_bind,
    and_one_shiftLeft_ne_zero, has]

theorem set_spec (hf : 6 ≤ f) (h : idx.toNat < 2 ^ f) :
    ∃ t', t.set idx = pure t' ∧ ∀ i, t'.has i = if i = idx.toNat then true else t.has i := by
  obtain ⟨a, ha, hi⟩ := indices_set (a := t.words) (i := idx.toNat) (by rwa [size_eq hf])
  refine ⟨⟨a⟩, ?_, fun i => ?_⟩
  · rw [set, locate_eq hf h, pure_bind, get_word hf h, pure_bind, ha, pure_bind]
  · rw [Bool.eq_iff_iff, has_iff, hi, Set.mem_insert_iff]
    split <;> simp [*, has_iff]

theorem reset_spec (hf : 6 ≤ f) (h : idx.toNat < 2 ^ f) :
    ∃ t', t.reset idx = pure t' ∧ ∀ i, t'.has i = if i = idx.toNat then false else t.has i := by
  obtain ⟨a, ha, hi⟩ := indices_reset (a := t.words) (i := idx.toNat) (by rwa [size_eq hf])
  refine ⟨⟨a⟩, ?_, fun i => ?_⟩
  · rw [reset, locate_eq hf h, pure_bind, get_word hf h, pure_bind, ha, pure_bind]
  · rw [Bool.eq_iff_iff, has_iff, hi, Set.mem_sdiff, Set.mem_singleton_iff]
    split <;> simp [*, has_iff]

/-- An index past the fan-out fails the assertion. -/
theorem test_fault (h : 2 ^ f ≤ idx.toNat) : t.test idx = .fault .outOfBounds :=
  if_neg (not_lt_of_ge h)

end ParvEB.DenseBitset
