import ParvEB.SetModel

/-! Calls that may run out of memory, and sequences of them. -/
namespace ParvEB

namespace Outcome

variable {α β : Type}

/-- The evaluation ends with a value, through a defensive branch or not, and `P` holds of it. -/
def Defined (x : Outcome α) (P : α → Prop) : Prop := ∃ a s, x = .value a s ∧ P a

variable {x : Outcome α} {P P' : α → Prop} {Q : β → Prop}

theorem Returns.defined (h : Returns x P) : Defined x P := by
  obtain ⟨a, rfl, ha⟩ := h
  exact ⟨a, false, rfl, ha⟩

theorem defined_fallback {a : α} (h : P a) : Defined (fallback a) P := ⟨a, true, rfl, h⟩

theorem Defined.mono (h : Defined x P) (hpp : ∀ a, P a → P' a) : Defined x P' := by
  obtain ⟨a, s, ha, hp⟩ := h
  exact ⟨a, s, ha, hpp a hp⟩

theorem Defined.bind {k : α → Outcome β} (h : Defined x P) (hk : ∀ a, P a → Defined (k a) Q) :
    Defined (x >>= k) Q := by
  obtain ⟨a, s, rfl, ha⟩ := h
  obtain ⟨c, s', hc, hq⟩ := hk a ha
  refine ⟨c, s || s', ?_, hq⟩
  change Outcome.bind _ _ = _
  rw [Outcome.bind, hc]

end Outcome

/-- There is room for `n` allocations. -/
def Mem.Covers : Mem → ℕ → Prop
  | .unbounded, _ => True
  | .upTo k, n => n ≤ k

theorem Mem.Covers.mono {m : Mem} {n n' : ℕ} (h : m.Covers n) (hn : n' ≤ n) : m.Covers n' := by
  cases m with
  | unbounded => trivial
  | upTo k => exact hn.trans h

variable {S R : Type}

/-- A call that throws leaves `P` and had no room for `n` allocations; one that returns leaves `Q`
and has used up at most `n`. -/
def Exit.Settled (m : Mem) (n : ℕ) (P Q : S → Prop) : Exit S → Prop
  | .returned s m' => Q s ∧ ∀ r, m.Covers (n + r) → m'.Covers r
  | .threw s => P s ∧ ¬ m.Covers n

/-- Whether the call returned. -/
def Exit.isReturned : Exit S → Bool
  | .returned _ _ => true
  | .threw _ => false

namespace Outcome

/-- The call has no fault and takes no defensive branch, and ends as `Exit.Settled` says. -/
def Settles (x : Outcome (Exit S)) (m : Mem) (n : ℕ) (P Q : S → Prop) : Prop :=
  Returns x (Exit.Settled m n P Q)

variable {x : Outcome (Exit S)} {m : Mem} {n n' : ℕ} {P P' Q Q' : S → Prop}

theorem settles_returned {s : S} (h : Q s) : Settles (pure (.returned s m)) m n P Q :=
  returns_pure.mpr ⟨h, fun _ hm => hm.mono (Nat.le_add_left ..)⟩

theorem Settles.mono (h : Settles x m n P Q) (hn : n ≤ n') (hp : ∀ s, P s → P' s)
    (hq : ∀ s, Q s → Q' s) : Settles x m n' P' Q' := by
  refine Returns.mono h ?_
  rintro (⟨s, m'⟩ | s) hs
  · exact ⟨hq s hs.1, fun r hm => hs.2 r (hm.mono (Nat.add_le_add_right hn r))⟩
  · exact ⟨hp s hs.1, fun hm => hs.2 (hm.mono hn)⟩

theorem Settles.andThen {k : S → Mem → Outcome (Exit S)} (h : Settles x m n P Q)
    (hk : ∀ s m', Q s → Settles (k s m') m' n' P Q') :
    Settles (x.andThen k) m (n + n') P Q' := by
  refine Returns.bind h ?_
  rintro (⟨s, m'⟩ | s) hs
  · refine Returns.mono (hk s m' hs.1) ?_
    rintro (⟨s', m''⟩ | s') hs'
    · exact ⟨hs'.1, fun r hm => hs'.2 r (hs.2 (n' + r) (by rwa [← Nat.add_assoc]))⟩
    · exact ⟨hs'.1, fun hm => hs'.2 (hs.2 n' hm)⟩
  · exact returns_pure.mpr ⟨hs.1, fun hm => hs.2 (hm.mono (Nat.le_add_right ..))⟩

theorem Settles.within {f : S → R} {P Q : R → Prop}
    (h : Settles x m n (fun s => P (f s)) fun s => Q (f s)) : Settles (within f x) m n P Q := by
  refine Returns.bind h ?_
  rintro (⟨s, m'⟩ | s) hs
  · exact returns_pure.mpr hs
  · exact returns_pure.mpr hs

theorem Settles.alloc {s : S} {k : Mem → Outcome (Exit S)} (hs : P s)
    (hk : ∀ m', Settles (k m') m' n P Q) : Settles (m.alloc s k) m (1 + n) P Q := by
  cases m with
  | unbounded =>
    refine Returns.mono (hk .unbounded) ?_
    rintro (⟨s', m'⟩ | s') hs'
    · exact ⟨hs'.1, fun r _ => hs'.2 r trivial⟩
    · exact ⟨hs'.1, fun _ => hs'.2 trivial⟩
  | upTo k' =>
    cases k' with
    | zero => exact returns_pure.mpr ⟨hs, fun hm => absurd hm (by simp [Mem.Covers])⟩
    | succ k' =>
      refine Returns.mono (hk (.upTo k')) ?_
      rintro (⟨s', m'⟩ | s') hs'
      · refine ⟨hs'.1, fun r hm => hs'.2 r ?_⟩
        have hle : 1 + n + r ≤ k' + 1 := hm
        exact (show n + r ≤ k' by omega)
      · refine ⟨hs'.1, fun hm => hs'.2 ?_⟩
        have hle : 1 + n ≤ k' + 1 := hm
        exact (show n ≤ k' by omega)

/-- With room for what the call may use it returns. -/
theorem Settles.returned (h : Settles x m n P Q) (hm : m.Covers n) :
    ∃ s m', x = pure (.returned s m') ∧ Q s := by
  obtain ⟨e, he, hs⟩ := h
  cases e with
  | returned s m' => exact ⟨s, m', he, hs.1⟩
  | threw s => exact (hs.2 hm).elim

end Outcome

/-- A call of a caller that catches what it throws. Each insertion has its own memory. -/
inductive Call (w : ℕ)
  | insert (k : BitVec w) (m : Mem)
  | erase (k : BitVec w)
  deriving DecidableEq

/-- The mutation that a call asks for. -/
def Call.op {w : ℕ} : Call w → Op w
  | .insert k _ => .insert k
  | .erase k => .erase k

section Attempts

variable {T : Type} {w : ℕ} [VebNode T w]

/-- The state that a call leaves, and whether it returned. -/
def attempt (t : T) : Call w → Outcome (T × Bool)
  | .insert k m => do
    let e ← VebNode.insert t k m
    pure (e.state, e.isReturned)
  | .erase k => do
    let t ← VebNode.erase t k
    pure (t, true)

/-- The state that a sequence of calls leaves, and the mutations of those that returned. -/
def attempts (t : T) : List (Call w) → Outcome (T × List (Op w))
  | [] => pure (t, [])
  | a :: as => do
    let r ← attempt t a
    let rs ← attempts r.1 as
    pure (rs.1, if r.2 then a.op :: rs.2 else rs.2)

open Outcome

variable {I : T → Prop} {as : List (Call w)} {t : T}

/-- What every call keeps, a sequence keeps. -/
theorem attempts_keep (hstep : ∀ a ∈ as, ∀ t, I t → (attempt t a).Returns fun r => I r.1)
    (ht : I t) : (attempts t as).Returns fun r => I r.1 := by
  induction as generalizing t with
  | nil => exact returns_pure.mpr ht
  | cons a as ih =>
    obtain ⟨ha, has⟩ := List.forall_mem_cons.mp hstep
    refine (ha t ht).bind fun r hr => ?_
    exact (ih has hr).bind fun rs hrs => returns_pure.mpr hrs

/-- When every call that returns does to `K` what it does to a set, and every other call leaves it,
a sequence does to `K` what the calls that returned do. -/
theorem attempts_built {K : T → Set ℕ}
    (hstep : ∀ a ∈ as, ∀ t, I t → (attempt t a).Returns fun r =>
      I r.1 ∧ K r.1 = if r.2 then setStep a.op (K t) else K t)
    (ht : I t) : (attempts t as).Returns fun r => I r.1 ∧ K r.1 = built (K t) r.2 := by
  induction as generalizing t with
  | nil => exact returns_pure.mpr ⟨ht, rfl⟩
  | cons a as ih =>
    obtain ⟨ha, has⟩ := List.forall_mem_cons.mp hstep
    refine (ha t ht).bind fun r hr => ?_
    refine (ih has hr.1).bind fun rs hrs => returns_pure.mpr ⟨hrs.1, ?_⟩
    rw [hrs.2, hr.2]
    cases r.2 <;> rfl

end Attempts

end ParvEB
