import ParvEB.Lawful

/-! The set that a sequence of calls builds, and the runs that follow it. -/
namespace ParvEB

open Outcome

variable {w : ℕ} {o : Op w} {ops : List (Op w)} {k : BitVec w} {S : Set ℕ}

/-- One call on the mathematical set. -/
def setStep : Op w → Set ℕ → Set ℕ
  | .insert k, S => insert k.toNat S
  | .erase k, S => S \ {k.toNat}

/-- The set that a sequence of calls builds from `S`. -/
def built (S : Set ℕ) : List (Op w) → Set ℕ
  | [] => S
  | o :: os => built (setStep o S) os

/-- Some insertion of `k` is followed by no erasure of it. -/
def Live (ops : List (Op w)) (k : BitVec w) : Prop :=
  ∃ pre post, ops = pre ++ .insert k :: post ∧ .erase k ∉ post

theorem not_live_nil : ¬ Live [] k := by
  rintro ⟨pre, post, h, _⟩
  simp at h

theorem live_cons : Live (o :: ops) k ↔ Live ops k ∨ (o = .insert k ∧ .erase k ∉ ops) := by
  constructor
  · rintro ⟨pre, post, h, hpost⟩
    cases pre with
    | nil =>
      obtain ⟨rfl, rfl⟩ := List.cons_eq_cons.mp h
      exact Or.inr ⟨rfl, hpost⟩
    | cons o' pre =>
      obtain ⟨rfl, rfl⟩ := List.cons_eq_cons.mp h
      exact Or.inl ⟨pre, post, rfl, hpost⟩
  · rintro (⟨pre, post, rfl, hpost⟩ | ⟨rfl, hpost⟩)
    · exact ⟨o :: pre, post, rfl, hpost⟩
    · exact ⟨[], ops, rfl, hpost⟩

/-- What is in the set is what was inserted last, or was there and never erased. -/
theorem mem_built : k.toNat ∈ built S ops ↔ Live ops k ∨ (k.toNat ∈ S ∧ .erase k ∉ ops) := by
  induction ops generalizing S with
  | nil => simp [built, not_live_nil]
  | cons o ops ih =>
    rw [built, ih, live_cons]
    cases o with
    | insert k' =>
      simp only [setStep, Set.mem_insert_iff, BitVec.toNat_inj, Op.insert.injEq, List.mem_cons,
        reduceCtorEq, false_or, @eq_comm _ k' k]
      tauto
    | erase k' =>
      simp only [setStep, Set.mem_sdiff, Set.mem_singleton_iff, BitVec.toNat_inj, List.mem_cons,
        Op.erase.injEq, reduceCtorEq, false_and, or_false]
      tauto

theorem mem_built_empty : k.toNat ∈ built ∅ ops ↔ Live ops k := by
  simp [mem_built]

theorem live_map_insert {ks : List (BitVec w)} : Live (ks.map .insert) k ↔ k ∈ ks := by
  constructor
  · rintro ⟨pre, post, h, _⟩
    have hmem : Op.insert k ∈ ks.map Op.insert := h ▸ by simp
    obtain ⟨k', hk', he⟩ := List.mem_map.mp hmem
    cases he
    exact hk'
  · intro hk
    obtain ⟨pre, post, rfl⟩ := List.append_of_mem hk
    exact ⟨pre.map .insert, post.map .insert, by simp, by simp⟩

section Runs

variable {T : Type} [VebNode T w] {bits : ℕ} [LawfulVeb T bits] {lax : Prop} {t : T}

/-- With memory to spare an insertion does not throw. -/
theorem inserted_of_step (h : LawfulVeb.Inv lax t) (hk : k.toNat < 2 ^ bits) {t' : T}
    (hs : step t (.insert k) = pure t') : Inserted t k t' := by
  obtain ⟨t'', ht'', _⟩ := (LawfulVeb.insert_spec (m := .unbounded) h hk).unbounded
  rw [step, ht'', pure_bind, pure_inj] at hs
  subst hs
  exact ⟨_, _, ht''⟩

/-- Each call does to the node what it does to the set. -/
theorem step_spec (h : LawfulVeb.Inv lax t) (ho : o.key.toNat < 2 ^ bits) :
    (step t o).Returns fun t' => LawfulVeb.Inv lax t' ∧
      LawfulVeb.keys t' = setStep o (LawfulVeb.keys t) := by
  cases o with
  | insert k =>
    obtain ⟨t', ht', hs⟩ := (LawfulVeb.insert_spec (m := .unbounded) h ho).unbounded
    exact ⟨t', by rw [step, show VebNode.insert t k .unbounded = _ from ht']; rfl, hs⟩
  | erase k => exact LawfulVeb.erase_spec h ho

/-- A run within the universe ends normally in a state that stands for the set it built. -/
theorem run_spec (h : LawfulVeb.Inv lax t) (hops : ∀ o ∈ ops, o.key.toNat < 2 ^ bits) :
    (run t ops).Returns fun t' => LawfulVeb.Inv lax t' ∧
      LawfulVeb.keys t' = built (LawfulVeb.keys t) ops := by
  induction ops generalizing t with
  | nil => exact returns_pure.mpr ⟨h, rfl⟩
  | cons o ops ih =>
    obtain ⟨ho, hops⟩ := List.forall_mem_cons.mp hops
    refine (step_spec h ho).bind ?_
    rintro t' ⟨ht', hkeys⟩
    rw [built, ← hkeys]
    exact ih ht' hops

end Runs

end ParvEB
