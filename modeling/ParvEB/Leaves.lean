import ParvEB.Answers
import ParvEB.Emission

/-! The leaves on their own: batches of updates and traversal. -/
namespace ParvEB

open Outcome

section Batches

/-- The calls that change a leaf. -/
inductive LeafOp (w : ℕ)
  | single (o : Op w)
  | batchInsert (keys : List (BitVec w))
  | batchErase (keys : List (BitVec w))
  deriving DecidableEq

variable {w : ℕ}

def LeafOp.keys : LeafOp w → List (BitVec w)
  | single o => [o.key]
  | batchInsert keys => keys
  | batchErase keys => keys

/-- The calls with one key each that a batch stands for. -/
def LeafOp.singles : LeafOp w → List (Op w)
  | single o => [o]
  | batchInsert keys => keys.map .insert
  | batchErase keys => keys.map .erase

/-- One call on the mathematical set: a batch joins all its keys, or takes them all away. -/
def setLeafStep : LeafOp w → Set ℕ → Set ℕ
  | .single o, S => setStep o S
  | .batchInsert keys, S => S ∪ {n | ∃ k ∈ keys, k.toNat = n}
  | .batchErase keys, S => S \ {n | ∃ k ∈ keys, k.toNat = n}

/-- The set that a sequence of calls on a leaf builds from `S`. -/
def leafBuilt (S : Set ℕ) : List (LeafOp w) → Set ℕ
  | [] => S
  | o :: os => leafBuilt (setLeafStep o S) os

variable {T : Type} [VebNode T w] [BatchNode T w]

def leafStep (t : T) : LeafOp w → Outcome T
  | .single o => step t o
  | .batchInsert keys => BatchNode.batchInsert t keys
  | .batchErase keys => BatchNode.batchErase t keys

def leafRun (t : T) : List (LeafOp w) → Outcome T
  | [] => pure t
  | o :: os => do
    let t ← leafStep t o
    leafRun t os

/-- A batch is the calls with one key each, in order, on any state and with any keys. -/
class LawfulBatch (T : Type) {w : outParam ℕ} [VebNode T w] [BatchNode T w] : Prop where
  batchInsert_eq (t : T) (keys : List (BitVec w)) :
    BatchNode.batchInsert t keys = run t (keys.map .insert)
  batchErase_eq (t : T) (keys : List (BitVec w)) :
    BatchNode.batchErase t keys = run t (keys.map .erase)

variable {o : LeafOp w} {ops : List (LeafOp w)} {keys : List (BitVec w)} {S : Set ℕ}

theorem built_map_insert :
    built S (keys.map .insert) = S ∪ {n | ∃ k ∈ keys, k.toNat = n} := by
  induction keys generalizing S with
  | nil => simp [built]
  | cons k keys ih =>
    rw [List.map_cons, built, ih]
    ext n
    simp [setStep, or_assoc, or_left_comm, eq_comm]

theorem built_map_erase : built S (keys.map .erase) = S \ {n | ∃ k ∈ keys, k.toNat = n} := by
  induction keys generalizing S with
  | nil => simp [built]
  | cons k keys ih =>
    rw [List.map_cons, built, ih]
    ext n
    simp [setStep, and_assoc, eq_comm]

theorem built_singles : built S o.singles = setLeafStep o S := by
  cases o with
  | single o => rfl
  | batchInsert keys => exact built_map_insert
  | batchErase keys => exact built_map_erase

theorem key_mem_of_mem_singles {o' : Op w} (h : o' ∈ o.singles) : o'.key ∈ o.keys := by
  cases o with
  | single o => exact List.mem_map_of_mem (f := Op.key) h
  | batchInsert keys =>
    obtain ⟨k, hk, rfl⟩ := List.mem_map.mp h
    exact hk
  | batchErase keys =>
    obtain ⟨k, hk, rfl⟩ := List.mem_map.mp h
    exact hk

variable [LawfulBatch T] {bits : ℕ} [LawfulVeb T bits] {lax : Prop} {t : T}

theorem leafStep_eq (t : T) (o : LeafOp w) : leafStep t o = run t o.singles := by
  cases o with
  | single o => exact (bind_pure (step t o)).symm
  | batchInsert keys => exact LawfulBatch.batchInsert_eq t keys
  | batchErase keys => exact LawfulBatch.batchErase_eq t keys

/-- Each call does to the leaf what it does to the set. -/
theorem leafStep_spec (h : LawfulVeb.Inv lax t) (ho : ∀ k ∈ o.keys, k.toNat < 2 ^ bits) :
    (leafStep t o).Returns fun t' => LawfulVeb.Inv lax t' ∧
      LawfulVeb.keys t' = setLeafStep o (LawfulVeb.keys t) := by
  rw [leafStep_eq, ← built_singles]
  exact run_spec h fun o' ho' => ho _ (key_mem_of_mem_singles ho')

/-- A batch and its calls with one key each end in the same state. -/
theorem leafStep_singles (h : LawfulVeb.Inv lax t) (ho : ∀ k ∈ o.keys, k.toNat < 2 ^ bits) :
    (leafStep t o).Returns fun t' => run t o.singles = pure t' := by
  obtain ⟨t', ht', _⟩ := leafStep_spec h ho
  exact ⟨t', ht', (leafStep_eq t o).symm.trans ht'⟩

theorem leafRun_spec (h : LawfulVeb.Inv lax t)
    (hops : ∀ o ∈ ops, ∀ k ∈ o.keys, k.toNat < 2 ^ bits) :
    (leafRun t ops).Returns fun t' => LawfulVeb.Inv lax t' ∧
      LawfulVeb.keys t' = leafBuilt (LawfulVeb.keys t) ops := by
  induction ops generalizing t with
  | nil => exact returns_pure.mpr ⟨h, rfl⟩
  | cons o ops ih =>
    obtain ⟨ho, hops⟩ := List.forall_mem_cons.mp hops
    refine (leafStep_spec h ho).bind ?_
    rintro t' ⟨ht', hkeys⟩
    rw [leafBuilt, ← hkeys]
    exact ih ht' hops

end Batches

section Masks

/-- `f x m` applies the mask `m` to the word `x`: two masks in turn are their union. -/
structure MaskAction (f : BitVec 64 → BitVec 64 → BitVec 64) : Prop where
  zero : ∀ x, f x 0 = x
  or : ∀ x a m, f (f x a) m = f x (a ||| m)

theorem maskAction_set : MaskAction fun x m => x ||| m where
  zero _ := BitVec.or_zero
  or x a m := BitVec.or_assoc x a m

theorem maskAction_clear : MaskAction fun x m => x &&& ~~~m where
  zero x := by
    change x &&& ~~~0#64 = x
    rw [BitVec.not_zero, BitVec.and_allOnes]
  or x a m := by rw [BitVec.and_assoc, BitVec.not_or]

variable {f : BitVec 64 → BitVec 64 → BitVec 64}

theorem VebLeaf6.gather_apply (hf : MaskAction f) (op : BitVec 8 → Op 8)
    (hstep : ∀ (t : VebLeaf6) x, step t (op x) = do
      let bit ← shl64 1#64 x.toNat
      pure ⟨f t.bits bit⟩) (x mask : BitVec 64) (keys : List (BitVec 8)) :
    (do
      let mask ← gather mask keys
      pure ⟨f x mask⟩) = run (⟨f x mask⟩ : VebLeaf6) (keys.map op) := by
  induction keys generalizing mask with
  | nil => rfl
  | cons k keys ih =>
    rw [gather, bind_assoc, List.map_cons, run, hstep, bind_assoc]
    refine bind_congr fun bit => ?_
    rw [pure_bind, ih, hf.or]

/-- The two loops of a batch touch the same words in the same way, one in `accum` and one in
place. -/
theorem VebLeaf8.gather_apply (hf : MaskAction f) (op : BitVec 16 → Op 16)
    (hstep : ∀ (t : VebLeaf8) x, step t (op x) = do
      let word ← arrayGet t.words (locate x).1
      let words ← arraySet t.words (locate x).1 (f word (locate x).2)
      pure ⟨words⟩) (words accum : Fin 4 → BitVec 64) (keys : List (BitVec 16)) :
    (do
      let accum ← gather accum keys
      pure ⟨fun i => f (words i) (accum i)⟩) =
      run (⟨fun i => f (words i) (accum i)⟩ : VebLeaf8) (keys.map op) := by
  induction keys generalizing accum with
  | nil => rfl
  | cons k keys ih =>
    rw [gather, List.map_cons, run, hstep]
    by_cases h : (locate k).1 < 4
    · rw [arrayGet_of_lt h, arrayGet_of_lt h, pure_bind, pure_bind, arraySet_of_lt h,
        arraySet_of_lt h, pure_bind, pure_bind, pure_bind, ih, hf.or]
      congr 2
      funext i
      exact Function.apply_update (fun i => f (words i)) accum _ _ i
    · rw [show arrayGet accum _ = .fault .outOfBounds from dif_neg h,
        show arrayGet (fun i => f (words i) (accum i)) _ = .fault .outOfBounds from dif_neg h]
      rfl

theorem VebLeaf6.step_insert (t : VebLeaf6) (x : BitVec 8) : step t (.insert x) = t.insert x := by
  simp [step, VebNode.insert, Exit.state]

theorem VebLeaf8.step_insert (t : VebLeaf8) (x : BitVec 16) : step t (.insert x) = t.insert x := by
  simp [step, VebNode.insert, Exit.state]

instance : LawfulBatch VebLeaf6 where
  batchInsert_eq t keys := by
    have h := VebLeaf6.gather_apply maskAction_set .insert VebLeaf6.step_insert t.bits 0 keys
    rwa [maskAction_set.zero] at h
  batchErase_eq t keys := by
    have h := VebLeaf6.gather_apply maskAction_clear .erase (fun _ _ => rfl) t.bits 0 keys
    rwa [maskAction_clear.zero] at h

instance : LawfulBatch VebLeaf8 where
  batchInsert_eq t keys := by
    have h := VebLeaf8.gather_apply maskAction_set .insert VebLeaf8.step_insert t.words
      (fun _ => 0) keys
    simp only [maskAction_set.zero] at h
    exact h
  batchErase_eq t keys := by
    have h := VebLeaf8.gather_apply maskAction_clear .erase (fun _ _ => rfl) t.words
      (fun _ => 0) keys
    simp only [maskAction_clear.zero] at h
    exact h

end Masks

/-- The leaf types. -/
inductive Leaf
  | leaf6 | leaf8
  deriving DecidableEq

namespace Leaf

/-- `SUBTREE_BITS`. -/
def bits : Leaf → ℕ
  | leaf6 => 6
  | leaf8 => 8

/-- The width of `Key`. -/
def width : Leaf → ℕ
  | leaf6 => 8
  | leaf8 => 16

def State : Leaf → Type
  | leaf6 => VebLeaf6
  | leaf8 => VebLeaf8

instance : (L : Leaf) → VebNode L.State L.width
  | leaf6 => inferInstanceAs (VebNode VebLeaf6 8)
  | leaf8 => inferInstanceAs (VebNode VebLeaf8 16)

instance : (L : Leaf) → BatchNode L.State L.width
  | leaf6 => inferInstanceAs (BatchNode VebLeaf6 8)
  | leaf8 => inferInstanceAs (BatchNode VebLeaf8 16)

instance : (L : Leaf) → LawfulVeb L.State L.bits
  | leaf6 => inferInstanceAs (LawfulVeb VebLeaf6 6)
  | leaf8 => inferInstanceAs (LawfulVeb VebLeaf8 8)

instance : (L : Leaf) → LawfulTraversal L.State
  | leaf6 => inferInstanceAs (LawfulTraversal VebLeaf6)
  | leaf8 => inferInstanceAs (LawfulTraversal VebLeaf8)

instance : (L : Leaf) → LawfulBatch L.State
  | leaf6 => inferInstanceAs (LawfulBatch VebLeaf6)
  | leaf8 => inferInstanceAs (LawfulBatch VebLeaf8)

section Calls

variable (L : Leaf)

/-- `MAX_KEY`. -/
def maxKey : BitVec L.width := ParvEB.maxKey L.bits L.width

example : leaf6.maxKey = 63 ∧ leaf8.maxKey = 255 := by decide

theorem width_le : L.width ≤ 64 := by
  cases L <;> decide

theorem bits_le : L.bits ≤ L.width := by
  cases L <;> decide

variable {L} {t : L.State} {k : BitVec L.width} {ops : List (LeafOp L.width)}

theorem le_maxKey : k ≤ L.maxKey ↔ k.toNat < 2 ^ L.bits := le_maxKey_iff L.bits_le L.width_le

/-- Every state of a leaf is well formed. -/
theorem inv (t : L.State) : LawfulVeb.Inv False t := by
  cases L <;> exact trivial

/-- A leaf can be traversed from any prefix. -/
theorem fits (t : L.State) (p : ℕ) : LawfulTraversal.Fits t p := by
  cases L <;> exact trivial

/-- Calls whose keys are in the universe. -/
def InRange (L : Leaf) (ops : List (LeafOp L.width)) : Prop := ∀ o ∈ ops, ∀ k ∈ o.keys, k ≤ L.maxKey

-- over the keys of the lists, not over all keys of the width
instance : Decidable (L.InRange ops) :=
  have (o : LeafOp L.width) : Decidable (∀ k ∈ o.keys, k ≤ L.maxKey) := List.decidableBAll _ _
  List.decidableBAll _ _

end Calls

/-- After any calls, single or batched, a leaf answers as the set they build, and a batch leaves
what the same calls leave one after the other. -/
theorem exact_after_batches (L : Leaf) (ops : List (LeafOp L.width)) (hops : L.InRange ops) :
    (leafRun (VebNode.fresh : L.State) ops).Returns fun t =>
      AnswersAs L.bits t (leafBuilt ∅ ops) ∧ ∀ keys, (∀ k ∈ keys, k ≤ L.maxKey) →
        ((BatchNode.batchInsert t keys).Returns fun t' => run t (keys.map .insert) = pure t') ∧
        (BatchNode.batchErase t keys).Returns fun t' => run t (keys.map .erase) = pure t' := by
  have hrun := leafRun_spec (inv (VebNode.fresh : L.State)) fun o ho k hk =>
    le_maxKey.mp (hops o ho k hk)
  rw [LawfulVeb.keys_fresh] at hrun
  refine hrun.mono ?_
  rintro t ⟨ht, hkeys⟩
  rw [← hkeys]
  have hsame : ∀ o : LeafOp L.width, (∀ k ∈ o.keys, k ≤ L.maxKey) →
      (leafStep t o).Returns fun t' => run t o.singles = pure t' :=
    fun o ho => leafStep_singles ht fun k hk => le_maxKey.mp (ho k hk)
  refine ⟨answersAs_keys L.width_le ht, fun keys hin => ?_⟩
  exact ⟨hsame (.batchInsert keys) hin, hsame (.batchErase keys) hin⟩

theorem exact_after_two_batches :
    (leafRun (VebNode.fresh : leaf8.State)
      [.batchInsert [64, 3, 255, 3], .single (.insert 9), .batchErase [3, 0]]).Returns fun t =>
      AnswersAs leaf8.bits t (leafBuilt (w := leaf8.width) ∅
        [.batchInsert [64, 3, 255, 3], .single (.insert 9), .batchErase [3, 0]]) ∧
      ∀ keys, (∀ k ∈ keys, k ≤ leaf8.maxKey) →
        ((BatchNode.batchInsert t keys).Returns fun t' => run t (keys.map .insert) = pure t') ∧
        (BatchNode.batchErase t keys).Returns fun t' => run t (keys.map .erase) = pure t' :=
  exact_after_batches leaf8 _ (by decide)

/-- A leaf hands over each key it stores once, under the prefix and in order. -/
theorem forEach_exact (L : Leaf) (t : L.State) (pfx : BitVec L.width)
    (hpfx : pfx.toNat % 2 ^ L.bits = 0) :
    (VebNode.forEach t pfx).Returns fun l => ∃ keys : List (BitVec L.width),
      keys.Pairwise (· < ·) ∧
      (∀ k, k ∈ keys ↔ k ≤ L.maxKey ∧ VebNode.contains t k = pure true) ∧
      l = keys.map fun k => (pfx ||| k).toNat := by
  refine (LawfulTraversal.forEach_spec (inv t) hpfx).mono ?_
  rintro l ⟨_, hemits, _⟩
  obtain ⟨keys, hsorted, hmem, hl⟩ := (hemits (fits t _)).exists_keys hpfx L.bits_le
    fun x hx => LawfulVeb.key_lt (inv t) hx
  refine ⟨keys, hsorted, fun k => ?_, hl⟩
  exact (hmem k).trans (contains_universe_iff L.width_le (inv t)).symm

theorem forEach_exact_of_three_keys :
    (VebNode.forEach (⟨0x8000000000000005⟩ : leaf6.State) 0xC0).Returns fun l =>
      ∃ keys : List (BitVec leaf6.width), keys.Pairwise (· < ·) ∧
        (∀ k, k ∈ keys ↔ k ≤ leaf6.maxKey ∧
          VebNode.contains (⟨0x8000000000000005⟩ : leaf6.State) k = pure true) ∧
        l = keys.map fun k => (0xC0 ||| k).toNat :=
  forEach_exact leaf6 _ 0xC0 (by decide)

end Leaf

end ParvEB
