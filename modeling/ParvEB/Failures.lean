import ParvEB.Answers
import ParvEB.DenseResilientQueries
import ParvEB.MapModel
import ParvEB.SparseResilient

/-! The trees after any sequence of calls, some of which ran out of memory. -/
namespace ParvEB

open Outcome

section Steps

variable {T : Type} {w bits : ℕ} [VebNode T w] [KeyWidths T] [Resilient T bits] {A : Set ℕ} {t : T}
  {a : Call w} {as : List (Call w)}

theorem attempt_erase_safe {k : BitVec w} (h : Resilient.Safe A t) (hk : k.toNat < 2 ^ bits) :
    (attempt t (.erase k)).Returns fun r =>
      Resilient.Safe A r.1 ∧ Resilient.shown r.1 ⊆ Resilient.shown t \ {k.toNat} := by
  refine (Resilient.erase_safe h hk).bind ?_
  rintro t' ht'
  exact returns_pure.mpr ht'

/-- What one call leaves: an insertion loses nothing, and shows its key when it returns. -/
theorem attempt_safe (hA : Resilient.Closed T A) (h : Resilient.Safe A t)
    (hk : a.op.key.toNat < 2 ^ bits) (hmem : ∀ k m, a = .insert k m → k.toNat ∈ A) :
    (attempt t a).Returns fun r => Resilient.Safe A r.1 ∧ ∀ k m, a = .insert k m →
      Resilient.shown t ⊆ Resilient.shown r.1 ∧ (r.2 = true → k.toNat ∈ Resilient.shown r.1) := by
  cases a with
  | insert k m =>
    refine (Resilient.insert_safe hA h (hmem k m rfl) hk (Or.inl rfl)).bind ?_
    rintro (⟨t', m'⟩ | t') hs
    · obtain ⟨⟨hsafe, hsub⟩, _⟩ := hs
      refine returns_pure.mpr ⟨hsafe, ?_⟩
      rintro _ _ ⟨⟩
      exact ⟨(Set.subset_insert _ _).trans hsub, fun _ => hsub (Set.mem_insert _ _)⟩
    · obtain ⟨⟨hsafe, hsub⟩, _⟩ := hs
      refine returns_pure.mpr ⟨hsafe, ?_⟩
      rintro _ _ ⟨⟩
      exact ⟨hsub, by rintro ⟨⟩⟩
  | erase k =>
    refine (attempt_erase_safe h hk).mono ?_
    rintro r ⟨hsafe, _⟩
    exact ⟨hsafe, by rintro _ _ ⟨⟩⟩

theorem attempts_safe (hA : Resilient.Closed T A) (h : Resilient.Safe A t)
    (hk : ∀ a ∈ as, a.op.key.toNat < 2 ^ bits) (hmem : ∀ k m, .insert k m ∈ as → k.toNat ∈ A) :
    (attempts t as).Returns fun r => Resilient.Safe A r.1 := by
  refine attempts_keep (fun a ha t ht => ?_) h
  refine (attempt_safe hA ht (hk a ha) ?_).mono fun _ hr => hr.1
  rintro k m rfl
  exact hmem k m ha

/-- A sequence of insertions only adds, and shows every key whose insertion returned. -/
theorem insertions_safe (hA : Resilient.Closed T A) (h : Resilient.Safe A t)
    (hk : ∀ a ∈ as, a.op.key.toNat < 2 ^ bits) (hmem : ∀ k m, .insert k m ∈ as → k.toNat ∈ A)
    (hno : ∀ k, .erase k ∉ as) :
    (attempts t as).Returns fun r => Resilient.Safe A r.1 ∧
      Resilient.shown t ⊆ Resilient.shown r.1 ∧
      ∀ k, .insert k ∈ r.2 → k.toNat ∈ Resilient.shown r.1 := by
  induction as generalizing t with
  | nil => exact returns_pure.mpr ⟨h, le_rfl, fun k hk => absurd hk List.not_mem_nil⟩
  | cons a as ih =>
    obtain ⟨ha, has⟩ := List.forall_mem_cons.mp hk
    have hmem' : ∀ k m, a = .insert k m → k.toNat ∈ A := by
      rintro k m rfl
      exact hmem k m List.mem_cons_self
    have hsplit : ∃ k m, a = .insert k m := by
      cases a with
      | insert k m => exact ⟨k, m, rfl⟩
      | erase k => exact absurd List.mem_cons_self (hno k)
    obtain ⟨k, m, rfl⟩ := hsplit
    refine (attempt_safe hA h ha hmem').bind ?_
    rintro r ⟨hr, hstep⟩
    obtain ⟨hsub, hdone⟩ := hstep k m rfl
    refine (ih hr has (fun k m hk => hmem k m (List.mem_cons_of_mem _ hk))
      fun k hk => hno k (List.mem_cons_of_mem _ hk)).bind ?_
    rintro rs ⟨hrs, hsub', hdone'⟩
    refine returns_pure.mpr ⟨hrs, hsub.trans hsub', fun k' hk' => ?_⟩
    cases hret : r.2 with
    | false =>
      rw [hret, if_neg (by simp)] at hk'
      exact hdone' k' hk'
    | true =>
      rw [hret, if_pos rfl] at hk'
      rcases List.mem_cons.mp hk' with he | hk'
      · cases he
        exact hsub' (hdone hret)
      · exact hdone' k' hk'

/-- A sequence of erasures adds nothing, and hides every key that it erases. -/
theorem erasures_safe (h : Resilient.Safe A t) (hk : ∀ a ∈ as, a.op.key.toNat < 2 ^ bits)
    (hno : ∀ k m, .insert k m ∉ as) :
    (attempts t as).Returns fun r => Resilient.Safe A r.1 ∧
      ∀ n ∈ Resilient.shown r.1, n ∈ Resilient.shown t ∧ ∀ k, .erase k ∈ as → n ≠ k.toNat := by
  induction as generalizing t with
  | nil => exact returns_pure.mpr ⟨h, fun n hn => ⟨hn, fun k hk => absurd hk List.not_mem_nil⟩⟩
  | cons a as ih =>
    obtain ⟨ha, has⟩ := List.forall_mem_cons.mp hk
    cases a with
    | insert k m => exact absurd List.mem_cons_self (hno k m)
    | erase k =>
      refine (attempt_erase_safe h ha).bind ?_
      rintro r ⟨hr, hsub⟩
      refine (ih hr has fun k m hk => hno k m (List.mem_cons_of_mem _ hk)).bind ?_
      rintro rs ⟨hrs, hrest⟩
      refine returns_pure.mpr ⟨hrs, fun n hn => ?_⟩
      obtain ⟨hmem, hne⟩ := hrest n hn
      refine ⟨(hsub hmem).1, fun k' hk' => ?_⟩
      rcases List.mem_cons.mp hk' with he | hk'
      · cases he
        exact (hsub hmem).2
      · exact hne k' hk'

end Steps

namespace DenseBranch

variable {b w c : ℕ} {C : Type} [VebNode C c] [LawfulVeb C b] [AllocOnce C] [Widths b w c]
  {t : DenseBranch b w c false C} {a : Call w}

/-- A call on the top of a dense tree does all it was asked to, or nothing. -/
theorem attempt_built (h : t.Safe) (hk : a.op.key.toNat < 2 ^ (2 * b)) :
    (attempt t a).Returns fun r => r.1.Safe ∧
      r.1.view.keys b = if r.2 then setStep a.op (t.view.keys b) else t.view.keys b := by
  cases a with
  | insert k m =>
    refine (insert_settles h hk).bind ?_
    rintro (⟨t', m'⟩ | t') hs
    · exact returns_pure.mpr hs.1
    · exact returns_pure.mpr hs.1
  | erase k =>
    refine (erase_safe h hk).bind ?_
    rintro t' hs
    exact returns_pure.mpr hs

theorem contains_attempts {as : List (Call w)} (has : ∀ a ∈ as, a.op.key.toNat < 2 ^ (2 * b)) :
    (attempts (VebNode.fresh : DenseBranch b w c false C) as).Returns fun r =>
      ∀ k, k.toNat < 2 ^ (2 * b) →
        (VebNode.contains r.1 k).Returns fun x => x = true ↔ Live r.2 k := by
  have hrun := attempts_built (I := Safe) (K := fun t : DenseBranch b w c false C => t.view.keys b)
    (fun a ha t ht => attempt_built ht (has a ha)) fresh_safe
  refine hrun.mono fun r hr k hk => (hr.1.contains_safe hk).mono fun x hx => ?_
  rw [hx, hr.2, fresh_keys, mem_built_empty]

end DenseBranch

section Levels

variable {M : ℕ → Type → Type} [FlatMap M]

instance fits_16_32 : Fact (16 ≤ 32) := ⟨by decide⟩
instance fits_32_64 : Fact (32 ≤ 64) := ⟨by decide⟩
instance : Resilient VebTop24 24 := DenseBranch.resilient
instance : Resilient VebTop32 32 := DenseBranch.resilient
instance : Resilient (VebBranch24 M) 24 := SparseBranch.resilient
instance : Resilient (VebBranch32 M) 32 := SparseBranch.resilient
instance : Resilient (VebBranch48 M) 48 := SparseBranch.resilient
instance : Resilient (VebBranch64 M) 64 := SparseBranch.resilient

instance Tree.keyWidthsOf : (T : Tree) → KeyWidths (T.State M)
  | .veb24 => (inferInstance : KeyWidths VebTop24)
  | .veb32 => (inferInstance : KeyWidths VebTop32)
  | .veb48 => (inferInstance : KeyWidths (VebBranch48 M))
  | .veb64 => (inferInstance : KeyWidths (VebBranch64 M))

instance : (T : Tree) → Resilient (T.State M) T.bits
  | .veb24 => (inferInstance : Resilient VebTop24 24)
  | .veb32 => (inferInstance : Resilient VebTop32 32)
  | .veb48 => (inferInstance : Resilient (VebBranch48 M) 48)
  | .veb64 => (inferInstance : Resilient (VebBranch64 M) 64)

end Levels

/-- `k` without its low `n` bits. -/
def clearLow (n k : ℕ) : ℕ := k / 2 ^ n * 2 ^ n

theorem clearLow_clearLow (m n k : ℕ) : clearLow m (clearLow n k) = clearLow (max m n) k := by
  unfold clearLow
  rcases le_total m n with h | h
  · obtain ⟨d, rfl⟩ := Nat.exists_eq_add_of_le h
    rw [max_eq_right h]
    exact Nat.div_mul_cancel (Dvd.dvd.mul_left (Nat.pow_dvd_pow 2 h) _)
  · obtain ⟨d, rfl⟩ := Nat.exists_eq_add_of_le h
    rw [max_eq_left h, Nat.pow_add, ← Nat.div_div_eq_div_mul, Nat.mul_div_cancel _ (pow_pos_two n),
      Nat.div_div_eq_div_mul]

section Under

variable {b i j : ℕ} {A : Set ℕ}

/-- A set that keeps its members without their low bits has the first key of every cluster that it
meets. -/
theorem zero_mem_under (hA : ∀ n ∈ A, clearLow b n ∈ A) :
    (∃ l < 2 ^ b, l ∈ under b A i) → 0 ∈ under b A i := by
  rintro ⟨l, hl, hmem⟩
  have hclear := hA _ hmem
  rwa [clearLow, split_div hl, ← Nat.add_zero (i * 2 ^ b)] at hclear

/-- The same one branch further down. -/
theorem zero_mem_under_under (hA : ∀ n ∈ A, clearLow b n ∈ A) :
    (∃ l < 2 ^ b, l ∈ under b (under (2 * b) A i) j) → 0 ∈ under b (under (2 * b) A i) j := by
  have hsplit : ∀ l, i * 2 ^ (2 * b) + (j * 2 ^ b + l) = (i * 2 ^ b + j) * 2 ^ b + l := by
    intro l
    rw [Nat.two_mul, Nat.pow_add, Nat.add_mul, Nat.mul_assoc, Nat.add_assoc]
  rintro ⟨l, hl, hmem⟩
  have hclear := hA _ (show (i * 2 ^ b + j) * 2 ^ b + l ∈ A from hsplit l ▸ hmem)
  rw [clearLow, split_div hl] at hclear
  change i * 2 ^ (2 * b) + (j * 2 ^ b + 0) ∈ A
  rwa [hsplit]

end Under

namespace Tree

variable {M : ℕ → Type → Type} [FlatMap M] {T : Tree} {A : Set ℕ} {t : T.State M}
  {as : List (Call T.width)}

/-- Calls whose keys are in the universe. -/
def CallsInRange (T : Tree) (as : List (Call T.width)) : Prop := ∀ a ∈ as, a.op.key ≤ T.maxKey

instance : Decidable (T.CallsInRange as) :=
  inferInstanceAs (Decidable (∀ a ∈ as, a.op.key ≤ T.maxKey))

theorem stored_iff_shown (h : Resilient.Safe A t) {k : BitVec T.width} :
    Stored t k ↔ k.toNat ∈ Resilient.shown t := by
  constructor
  · rintro ⟨hk, hc⟩
    obtain ⟨r, hr, hmem⟩ := Resilient.contains_safe h (le_maxKey.mp hk)
    rw [hc, pure_inj] at hr
    exact hmem.mp hr.symm
  · intro hk
    have hlt := Resilient.shown_lt h hk
    obtain ⟨r, hr, hmem⟩ := Resilient.contains_safe h hlt
    exact ⟨le_maxKey.mpr hlt, by rw [hr, hmem.mpr hk]⟩

theorem exists_stored_of_shown (h : Resilient.Safe A t) {n : ℕ} (hn : n ∈ Resilient.shown t) :
    ∃ k, Stored t k ∧ k.toNat = n := by
  have hlt := (Resilient.shown_lt h hn).trans_le (Nat.pow_le_pow_right (by omega) T.bits_le)
  have hk : (BitVec.ofNat T.width n).toNat = n := by
    rw [BitVec.toNat_ofNat, Nat.mod_eq_of_lt hlt]
  exact ⟨_, (stored_iff_shown h).mpr (hk.symm ▸ hn), hk⟩

/-- What a new tree is left as, when failed insertions do not lead out of `A`. -/
theorem attempts_fresh (hA : Resilient.Closed (T.State M) A) (has : T.CallsInRange as)
    (hmem : ∀ k m, .insert k m ∈ as → k.toNat ∈ A) :
    (attempts (VebNode.fresh : T.State M) as).Returns fun r => Resilient.Safe A r.1 :=
  attempts_safe hA Resilient.fresh_safe (fun a ha => le_maxKey.mp (has a ha)) hmem

theorem attempts_univ (has : T.CallsInRange as) :
    (attempts (VebNode.fresh : T.State M) as).Returns fun r => Resilient.Safe Set.univ r.1 :=
  attempts_fresh Resilient.closed_univ has fun _ _ _ => trivial

/-- How often an insertion may allocate. -/
def insertCost : Tree → ℕ
  | veb24 | veb32 => 2
  | veb48 | veb64 => 5

theorem cost_eq : Resilient.cost (T.State M) = T.insertCost := by
  cases T <;> rfl

/-- The widths of `Key` from the root of a tree to its leaves. -/
def keyWidths : Tree → List ℕ
  | veb24 => [32, 16, 8]
  | veb32 => [32, 16, 16]
  | veb48 => [64, 32, 16, 8]
  | veb64 => [64, 32, 16, 16]

theorem keyWidths_eq : KeyWidths.list (T.State M) = T.keyWidths := by
  cases T <;> rfl

/-- What a failed insertion of `k₀` may leave: the key, or the first one of a cluster that was made
for it, in the top branch or in the one below. -/
def Leftover (T : Tree) (k₀ k : BitVec T.width) : Prop :=
  k = k₀ ∨ k.toNat = clearLow (T.bits / 2) k₀.toNat ∨ k.toNat = clearLow (T.bits / 4) k₀.toNat

/-- Every key that was to be inserted, and what that may leave. -/
def leftovers (T : Tree) (as : List (Call T.width)) : Set ℕ :=
  {n | ∃ k₀ m, .insert k₀ m ∈ as ∧
    (n = k₀.toNat ∨ n = clearLow (T.bits / 2) k₀.toNat ∨ n = clearLow (T.bits / 4) k₀.toNat)}

theorem leftovers_clear {n d : ℕ} (hd : d = T.bits / 2 ∨ d = T.bits / 4)
    (hn : n ∈ T.leftovers as) : clearLow d n ∈ T.leftovers as := by
  have hle : T.bits / 4 ≤ T.bits / 2 := by omega
  obtain ⟨k₀, m, hmem, rfl | rfl | rfl⟩ := hn
  · exact ⟨k₀, m, hmem, Or.inr (hd.imp (by rintro rfl; rfl) (by rintro rfl; rfl))⟩
  · refine ⟨k₀, m, hmem, Or.inr (Or.inl ?_)⟩
    rw [clearLow_clearLow]
    rcases hd with rfl | rfl
    · rw [max_self]
    · rw [max_eq_right hle]
  · refine ⟨k₀, m, hmem, Or.inr ?_⟩
    rw [clearLow_clearLow]
    rcases hd with rfl | rfl
    · exact Or.inl (by rw [max_eq_left hle])
    · exact Or.inr (by rw [max_self])

/-- No failed insertion leads out of them. -/
theorem closed_leftovers : Resilient.Closed (T.State M) (T.leftovers as) := by
  have hhalf : ∀ n ∈ T.leftovers as, clearLow (T.bits / 2) n ∈ T.leftovers as :=
    fun n hn => leftovers_clear (Or.inl rfl) hn
  have hquarter : ∀ n ∈ T.leftovers as, clearLow (T.bits / 4) n ∈ T.leftovers as :=
    fun n hn => leftovers_clear (Or.inr rfl) hn
  cases T with
  | veb24 | veb32 => exact trivial
  | veb48 =>
    exact fun i => ⟨fun j => ⟨trivial, zero_mem_under_under (b := 12) hquarter⟩,
      zero_mem_under (b := 24) hhalf⟩
  | veb64 =>
    exact fun i => ⟨fun j => ⟨trivial, zero_mem_under_under (b := 16) hquarter⟩,
      zero_mem_under (b := 32) hhalf⟩

end Tree

section Runs

variable (M : ℕ → Type → Type) [FlatMap M] (T : Tree) (as : List (Call T.width))

/-- Whatever ran out of memory before, no call within the universe meets a fault, and none but the
order queries can meet a defensive branch. -/
theorem no_fault_after_failures (has : T.CallsInRange as) :
    (attempts (VebNode.fresh : T.State M) as).Returns fun r => ∀ k, k ≤ T.maxKey →
      (∀ m, ∃ e, VebNode.insert r.1 k m = pure e) ∧ (∃ t, VebNode.erase r.1 k = pure t) ∧
        (∃ x, VebNode.contains r.1 k = pure x) ∧ (∃ l, VebNode.forEachAll r.1 = pure l) ∧
        (∃ x s, VebNode.min r.1 = .value x s) ∧ (∃ x s, VebNode.max r.1 = .value x s) ∧
        (∃ x s, VebNode.successor r.1 k = .value x s) ∧
        ∃ x s, VebNode.predecessor r.1 k = .value x s := by
  have hdef : ∀ {x : Outcome (Option (BitVec T.width))} {P : Option (BitVec T.width) → Prop},
      x.Defined P → ∃ a s, x = .value a s := by
    rintro x P ⟨a, s, hx, _⟩
    exact ⟨a, s, hx⟩
  refine (Tree.attempts_univ has).mono fun r h k hk => ?_
  have hlt := Tree.le_maxKey.mp hk
  refine ⟨fun m => ?_, (Resilient.erase_safe h hlt).exists_pure,
    (Resilient.contains_safe h hlt).exists_pure, ?_, hdef (Resilient.min_safe h),
    hdef (Resilient.max_safe h), hdef (Resilient.successor_safe h hlt),
    hdef (Resilient.predecessor_safe h hlt)⟩
  · exact (Resilient.insert_safe (m := m) Resilient.closed_univ h (Set.mem_univ _) hlt
      (Or.inl rfl)).exists_pure
  · rw [Resilient.forEachAll_eq]
    exact (Resilient.forEach_safe h (by simp)).exists_pure

theorem no_fault_after_torn_insertions :
    (attempts (VebNode.fresh : Tree.veb48.State FunMap)
      [.insert 5 (.upTo 2), .insert 6 (.upTo 3), .erase 5]).Returns fun r =>
      ∀ k, k ≤ Tree.veb48.maxKey →
        (∀ m, ∃ e, VebNode.insert r.1 k m = pure e) ∧ (∃ t, VebNode.erase r.1 k = pure t) ∧
          (∃ x, VebNode.contains r.1 k = pure x) ∧ (∃ l, VebNode.forEachAll r.1 = pure l) ∧
          (∃ x s, VebNode.min r.1 = .value x s) ∧ (∃ x s, VebNode.max r.1 = .value x s) ∧
          (∃ x s, VebNode.successor r.1 k = .value x s) ∧
          ∃ x s, VebNode.predecessor r.1 k = .value x s :=
  no_fault_after_failures FunMap .veb48 _ (by decide)

/-- An order query may miss a key after failures, but it never makes one up. -/
theorem answers_after_failures (has : T.CallsInRange as) :
    (attempts (VebNode.fresh : T.State M) as).Returns fun r =>
      ((VebNode.min r.1).Defined fun x => ∀ v, x = some v → Tree.Stored r.1 v) ∧
        ((VebNode.max r.1).Defined fun x => ∀ v, x = some v → Tree.Stored r.1 v) ∧
        ∀ q, q ≤ T.maxKey →
          ((VebNode.successor r.1 q).Defined fun x =>
            ∀ v, x = some v → Tree.Stored r.1 v ∧ q < v) ∧
          (VebNode.predecessor r.1 q).Defined fun x =>
            ∀ v, x = some v → Tree.Stored r.1 v ∧ v < q := by
  refine (Tree.attempts_univ has).mono fun r h => ⟨?_, ?_, fun q hq => ⟨?_, ?_⟩⟩
  · exact (Resilient.min_safe h).mono fun x hx v hv => (Tree.stored_iff_shown h).mpr (hx v hv)
  · exact (Resilient.max_safe h).mono fun x hx v hv => (Tree.stored_iff_shown h).mpr (hx v hv)
  · refine (Resilient.successor_safe h (Tree.le_maxKey.mp hq)).mono fun x hx v hv => ?_
    exact ⟨(Tree.stored_iff_shown h).mpr (hx v hv).1, (hx v hv).2⟩
  · refine (Resilient.predecessor_safe h (Tree.le_maxKey.mp hq)).mono fun x hx v hv => ?_
    exact ⟨(Tree.stored_iff_shown h).mpr (hx v hv).1, (hx v hv).2⟩

theorem answers_after_torn_insertions :
    (attempts (VebNode.fresh : Tree.veb64.State FunMap)
      [.insert 5 (.upTo 2), .insert 6 (.upTo 3), .erase 5]).Returns fun r =>
      ((VebNode.min r.1).Defined fun x => ∀ v, x = some v → Tree.Stored r.1 v) ∧
        ((VebNode.max r.1).Defined fun x => ∀ v, x = some v → Tree.Stored r.1 v) ∧
        ∀ q, q ≤ Tree.veb64.maxKey →
          ((VebNode.successor r.1 q).Defined fun x =>
            ∀ v, x = some v → Tree.Stored r.1 v ∧ q < v) ∧
          (VebNode.predecessor r.1 q).Defined fun x =>
            ∀ v, x = some v → Tree.Stored r.1 v ∧ v < q :=
  answers_after_failures FunMap .veb64 _ (by decide)

/-- `contains` of a dense tree is exact whatever failed: a key is there when the last call on it
that returned inserted it. -/
theorem contains_after_failures (hT : T = .veb24 ∨ T = .veb32) (has : T.CallsInRange as) :
    (attempts (VebNode.fresh : T.State M) as).Returns fun r => ∀ k, k ≤ T.maxKey →
      (VebNode.contains r.1 k).Returns fun x => x = true ↔ Live r.2 k := by
  have hlt : ∀ a ∈ as, a.op.key.toNat < 2 ^ T.bits := fun a ha => Tree.le_maxKey.mp (has a ha)
  rcases hT with rfl | rfl
  · exact (DenseBranch.contains_attempts (b := 12) (w := 32) (C := VebBranch12) hlt).mono
      fun r hr k hk => hr k (Tree.le_maxKey.mp hk)
  · exact (DenseBranch.contains_attempts (b := 16) (w := 32) (C := VebBranch16) hlt).mono
      fun r hr k hk => hr k (Tree.le_maxKey.mp hk)

theorem contains_after_torn_insertions :
    (attempts (VebNode.fresh : Tree.veb24.State FunMap)
      [.insert 5 (.upTo 1), .insert 5 .unbounded, .insert 6 (.upTo 1), .erase 5]).Returns fun r =>
      ∀ k, k ≤ Tree.veb24.maxKey →
        (VebNode.contains r.1 k).Returns fun x => x = true ↔ Live r.2 k :=
  contains_after_failures FunMap .veb24 _ (Or.inl rfl) (by decide)

/-- A failed insertion can leave a key that nobody inserted, but only its own or the first of a
cluster that was made for it. -/
theorem stored_after_failures (has : T.CallsInRange as) :
    (attempts (VebNode.fresh : T.State M) as).Returns fun r => ∀ k, Tree.Stored r.1 k →
      ∃ k₀ m, .insert k₀ m ∈ as ∧ T.Leftover k₀ k := by
  have hmem : ∀ k m, .insert k m ∈ as → k.toNat ∈ T.leftovers as :=
    fun k m hk => ⟨k, m, hk, Or.inl rfl⟩
  refine (Tree.attempts_fresh Tree.closed_leftovers has hmem).mono fun r h k hk => ?_
  obtain ⟨k₀, m, hmem, hk₀⟩ := Resilient.shown_subset h ((Tree.stored_iff_shown h).mp hk)
  exact ⟨k₀, m, hmem, hk₀.imp_left BitVec.eq_of_toNat_eq⟩

theorem stored_after_torn_insertions :
    (attempts (VebNode.fresh : Tree.veb48.State FunMap)
      [.insert 0x1000005 (.upTo 2), .insert 6 (.upTo 3)]).Returns fun r =>
      ∀ k, Tree.Stored r.1 k → ∃ k₀ m,
        .insert k₀ m ∈ [Call.insert (0x1000005 : BitVec 64) (.upTo 2), .insert 6 (.upTo 3)] ∧
          Tree.veb48.Leftover k₀ k :=
  stored_after_failures FunMap .veb48 _ (by decide)

/-- Only erasures lose keys: through any insertions, failing or not, what is stored stays, and
every key whose insertion returned is stored. -/
theorem insertions_keep_stored (as' : List (Call T.width)) (has : T.CallsInRange as)
    (has' : T.CallsInRange as') (hno : ∀ k, .erase k ∉ as') :
    (attempts (VebNode.fresh : T.State M) as).Returns fun r =>
      (attempts r.1 as').Returns fun r' =>
        (∀ k, Tree.Stored r.1 k → Tree.Stored r'.1 k) ∧
          ∀ k, .insert k ∈ r'.2 → Tree.Stored r'.1 k := by
  refine (Tree.attempts_univ has).mono fun r h => ?_
  refine (insertions_safe Resilient.closed_univ h (fun a ha => Tree.le_maxKey.mp (has' a ha))
    (fun _ _ _ => trivial) hno).mono ?_
  rintro r' ⟨h', hsub, hdone⟩
  refine ⟨fun k hk => ?_, fun k hk => (Tree.stored_iff_shown h').mpr (hdone k hk)⟩
  exact (Tree.stored_iff_shown h').mpr (hsub ((Tree.stored_iff_shown h).mp hk))

theorem torn_insertions_keep_stored :
    (attempts (VebNode.fresh : Tree.veb64.State FunMap) [.insert 5 .unbounded]).Returns fun r =>
      (attempts r.1 [.insert 6 (.upTo 2), .insert 7 (.upTo 4)]).Returns fun r' =>
        (∀ k, Tree.Stored r.1 k → Tree.Stored r'.1 k) ∧
          ∀ k, .insert k ∈ r'.2 → Tree.Stored r'.1 k :=
  insertions_keep_stored FunMap .veb64 _ _ (by decide) (by decide) (by simp)

/-- Erasures clean up after failures: they bring up no key, and none that they erase stays. -/
theorem erasures_clear (as' : List (Call T.width)) (has : T.CallsInRange as)
    (has' : T.CallsInRange as') (hno : ∀ k m, .insert k m ∉ as') :
    (attempts (VebNode.fresh : T.State M) as).Returns fun r =>
      (attempts r.1 as').Returns fun r' =>
        ∀ k, Tree.Stored r'.1 k → Tree.Stored r.1 k ∧ .erase k ∉ as' := by
  refine (Tree.attempts_univ has).mono fun r h => ?_
  refine (erasures_safe h (fun a ha => Tree.le_maxKey.mp (has' a ha)) hno).mono ?_
  rintro r' ⟨h', hsub⟩ k hk
  obtain ⟨hmem, hne⟩ := hsub _ ((Tree.stored_iff_shown h').mp hk)
  exact ⟨(Tree.stored_iff_shown h).mpr hmem, fun hk' => hne k hk' rfl⟩

theorem erasures_clear_torn_insertions :
    (attempts (VebNode.fresh : Tree.veb48.State FunMap)
      [.insert 0x1000005 (.upTo 2), .insert 6 (.upTo 3)]).Returns fun r =>
      (attempts r.1 [.erase 0x1000000, .erase 0, .erase 6]).Returns fun r' =>
        ∀ k, Tree.Stored r'.1 k → Tree.Stored r.1 k ∧
          .erase k ∉ [Call.erase (0x1000000 : BitVec 64), .erase 0, .erase 6] :=
  erasures_clear FunMap .veb48 _ _ (by decide) (by decide) (by simp)

/-- With room for `n` allocations no insertion throws, whatever the calls before left. -/
def Tree.AlwaysInserts (n : ℕ) : Prop :=
  ∀ as, T.CallsInRange as → (attempts (VebNode.fresh : T.State M) as).Returns fun r =>
    ∀ k, k ≤ T.maxKey → ∃ t m, VebNode.insert r.1 k (.upTo n) = pure (.returned t m)

theorem alwaysInserts {n : ℕ} (hn : T.insertCost ≤ n) : T.AlwaysInserts M n := by
  intro as has
  refine (Tree.attempts_univ has).mono fun r h k hk => ?_
  have hroom : (Mem.upTo n).Covers (Resilient.cost (T.State M)) := by
    rw [Tree.cost_eq]
    exact hn
  obtain ⟨t, m, ht, _⟩ := (Resilient.insert_safe (m := .upTo n) Resilient.closed_univ h
    (Set.mem_univ _) (Tree.le_maxKey.mp hk) (Or.inl rfl)).returned hroom
  exact ⟨t, m, ht⟩

/-- Calls, and a key whose insertion after them allocates as often as any: the first key of a dense
tree, or the second in one cluster of a sparse tree, at both levels. -/
def Tree.hardest : (T : Tree) → List (Call T.width) × BitVec T.width
  | veb24 => ([], (0 : BitVec 32))
  | veb32 => ([], (0 : BitVec 32))
  | veb48 => ([.insert (0 : BitVec 64) .unbounded], (1 : BitVec 64))
  | veb64 => ([.insert (0 : BitVec 64) .unbounded], (1 : BitVec 64))

theorem Tree.hardest_throws_funMap : ∀ n < T.insertCost, (do
      let r ← attempts (VebNode.fresh : T.State FunMap) T.hardest.1
      let e ← VebNode.insert r.1 T.hardest.2 (.upTo n)
      pure e.isReturned) = pure false := by
  cases T <;> decide +kernel

/-- Which map stores the clusters makes no difference to that. -/
theorem Tree.hardest_throws {n : ℕ} (hn : n < T.insertCost) : (do
      let r ← attempts (VebNode.fresh : T.State M) T.hardest.1
      let e ← VebNode.insert r.1 T.hardest.2 (.upTo n)
      pure e.isReturned) = pure false := by
  have h := Tree.hardest_throws_funMap T n hn
  have himage : (VebHom.image (VebNode.fresh : T.State M) : T.State FunMap) = VebNode.fresh :=
    VebHom.image_fresh
  rw [← himage, attempts_image, bind_assoc] at h
  refine Eq.trans (bind_congr fun r => ?_) h
  rw [pure_bind, insert_image_bind]
  refine bind_congr fun e => ?_
  cases e <;> rfl

/-- An insertion allocates at most twice in a dense tree and five times in a sparse one, and no
smaller number is enough. -/
theorem alwaysInserts_iff (n : ℕ) : T.AlwaysInserts M n ↔ T.insertCost ≤ n := by
  refine ⟨fun h => ?_, alwaysInserts M T⟩
  by_contra hn
  have hin : T.CallsInRange T.hardest.1 ∧ T.hardest.2 ≤ T.maxKey := by
    cases T <;> decide
  obtain ⟨r, hr, hall⟩ := h _ hin.1
  obtain ⟨t, m, ht⟩ := hall _ hin.2
  have hthrows := Tree.hardest_throws M T (not_le.mp hn)
  rw [hr, pure_bind, ht, pure_bind, pure_inj] at hthrows
  cases hthrows

/-- `for_each` hands over stored keys only, each cut to the width of some `Key` of the tree. -/
theorem traversal_after_failures (has : T.CallsInRange as) :
    (attempts (VebNode.fresh : T.State M) as).Returns fun r =>
      (VebNode.forEachAll r.1).Returns fun l => ∀ y ∈ l,
        ∃ k, Tree.Stored r.1 k ∧ ∃ n ∈ T.keyWidths, y = k.toNat % 2 ^ n := by
  refine (Tree.attempts_univ has).mono fun r h => ?_
  rw [Resilient.forEachAll_eq]
  refine (Resilient.forEach_safe h (by simp)).mono fun l hl y hy => ?_
  obtain ⟨_, x, hx, n, hn, rfl⟩ := hl y hy
  obtain ⟨k, hk, rfl⟩ := Tree.exists_stored_of_shown h hx
  rw [Tree.keyWidths_eq] at hn
  exact ⟨k, hk, n, hn, by simp⟩

theorem traversal_after_torn_insertions :
    (attempts (VebNode.fresh : Tree.veb32.State FunMap)
      [.insert 65536 .unbounded, .insert 65537 .unbounded, .insert 7 (.upTo 0)]).Returns fun r =>
      (VebNode.forEachAll r.1).Returns fun l => ∀ y ∈ l,
        ∃ k, Tree.Stored r.1 k ∧ ∃ n ∈ Tree.veb32.keyWidths, y = k.toNat % 2 ^ n :=
  traversal_after_failures FunMap .veb32 _ (by decide)

end Runs

end ParvEB
