import ParvEB.Node
import ParvEB.Word

/-! Arrays of 64-bit words as sets of indices. -/
namespace ParvEB

variable {n : ℕ} {α : Type} {a : Fin n → BitVec 64} {i j : ℕ}

theorem arrayGet_of_lt {a : Fin n → α} (h : i < n) : arrayGet a i = pure (a ⟨i, h⟩) := dif_pos h

theorem arraySet_of_lt {a : Fin n → α} {v : α} (h : i < n) :
    arraySet a i v = pure (Function.update a ⟨i, h⟩ v) := dif_pos h

theorem shl64_of_lt {x : BitVec 64} (h : i < 64) : shl64 x i = pure (x <<< i) := if_pos h

theorem shr64_of_lt {x : BitVec 64} (h : i < 64) : shr64 x i = pure (x >>> i) := if_pos h

def wordAt (a : Fin n → BitVec 64) (i : ℕ) : BitVec 64 := if h : i < n then a ⟨i, h⟩ else 0

/-- The indices whose bit is set: bit `i % 64` of word `i / 64`. -/
def indices (a : Fin n → BitVec 64) : Set ℕ := {i | i % 64 ∈ bitsOf (wordAt a (i / 64))}

theorem arrayGet_wordAt (h : i < n) : arrayGet a i = pure (wordAt a i) := by
  rw [arrayGet_of_lt h, wordAt, dif_pos h]

theorem wordAt_update (h : i < n) (v : BitVec 64) :
    wordAt (Function.update a ⟨i, h⟩ v) j = if j = i then v else wordAt a j := by
  by_cases hj : j < n
  · simp [wordAt, hj, Function.update_apply]
  · have : j ≠ i := by omega
    simp [wordAt, hj, this]

theorem lt_of_mem_indices (h : i ∈ indices a) : i < 64 * n := by
  by_contra hi
  have hn : ¬ i / 64 < n := by omega
  simp [indices, wordAt, hn] at h

theorem mem_indices (q r : ℕ) (hr : r < 64) :
    q * 64 + r ∈ indices a ↔ r ∈ bitsOf (wordAt a q) := by
  have hq : (q * 64 + r) / 64 = q := by omega
  have hm : (q * 64 + r) % 64 = r := by omega
  simp [indices, hq, hm]

theorem mem_bitsOf_of_div (h : j ∈ indices a) (hi : j / 64 = i) :
    j % 64 ∈ bitsOf (wordAt a i) := hi ▸ h

/-- A zero word holds no index. -/
theorem notMem_indices_of_wordAt (h : wordAt a i = 0) (hlo : i * 64 ≤ j) (hhi : j < (i + 1) * 64) :
    j ∉ indices a := by
  intro hj
  have hmem := mem_bitsOf_of_div hj (show j / 64 = i by omega)
  rw [eq_zero_iff.mp h] at hmem
  exact hmem

theorem indices_injective : Function.Injective (indices (n := n)) := by
  intro a a' h
  funext q
  apply eq_of_bitsOf_eq
  ext r
  have hq : ∀ a : Fin n → BitVec 64, wordAt a q.val = a q := fun a => by simp [wordAt]
  by_cases hr : r < 64
  · have := mem_indices (a := a) q.val r hr
    rw [h, mem_indices q.val r hr, hq, hq] at this
    exact this.symm
  · constructor <;> intro hm <;> exact (hr (lt_of_mem_bitsOf hm)).elim

@[simp] theorem indices_zero : indices (fun _ : Fin n => 0#64) = ∅ := by
  ext i
  simp [indices, wordAt]

/-- `words[i / 64] |= 1 << i % 64`. -/
theorem indices_set (h : i < 64 * n) : ∃ a', arraySet a (i / 64)
    (wordAt a (i / 64) ||| 1#64 <<< (i % 64)) = pure a' ∧ indices a' = insert i (indices a) := by
  have hn : i / 64 < n := by omega
  refine ⟨_, arraySet_of_lt hn, ?_⟩
  ext j
  have hr : i % 64 < 64 := Nat.mod_lt _ (by omega)
  simp only [indices, Set.mem_ofPred_eq, wordAt_update, Set.mem_insert_iff]
  by_cases hj : j / 64 = i / 64
  · rw [if_pos hj, hj, bitsOf_or, bitsOf_one_shiftLeft hr, Set.mem_union, Set.mem_singleton_iff,
      or_comm]
    have : j % 64 = i % 64 ↔ j = i := by omega
    rw [this]
  · have : j ≠ i := by omega
    simp [hj, this]

/-- `words[i / 64] &= ~(1 << i % 64)`. -/
theorem indices_reset (h : i < 64 * n) : ∃ a', arraySet a (i / 64)
    (wordAt a (i / 64) &&& ~~~ (1#64 <<< (i % 64))) = pure a' ∧ indices a' = indices a \ {i} := by
  have hn : i / 64 < n := by omega
  refine ⟨_, arraySet_of_lt hn, ?_⟩
  ext j
  have hr : i % 64 < 64 := Nat.mod_lt _ (by omega)
  simp only [indices, Set.mem_ofPred_eq, wordAt_update, Set.mem_sdiff, Set.mem_singleton_iff]
  by_cases hj : j / 64 = i / 64
  · rw [if_pos hj, hj, bitsOf_and_not_one_shiftLeft hr, Set.mem_sdiff, Set.mem_singleton_iff]
    have : j % 64 = i % 64 ↔ j = i := by omega
    rw [this]
  · have : j ≠ i := by omega
    simp [hj, this]

end ParvEB
