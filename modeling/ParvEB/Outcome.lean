import Mathlib.Algebra.Order.Ring.Nat
import Mathlib.Tactic.Tauto

/-! Evaluation with undefined behaviour, defensive branches and allocation failure. -/
namespace ParvEB

/-- Why an evaluation has no defined result. -/
inductive Fault
  | outOfBounds
  | shiftTooLarge
  | nullDereference
  | outOfFuel
  deriving DecidableEq, Repr

/-- The outcome of evaluating code. `fellBack` records that a defensive branch, one that only a
representation whose parts disagree can take, was passed on the way to the value. -/
inductive Outcome (α : Type)
  | fault (f : Fault)
  | value (a : α) (fellBack : Bool)
  deriving DecidableEq, Repr

namespace Outcome

variable {α β : Type}

def bind (x : Outcome α) (k : α → Outcome β) : Outcome β :=
  match x with
  | .fault f => .fault f
  | .value a s =>
    match k a with
    | .fault f => .fault f
    | .value b s' => .value b (s || s')

instance : Monad Outcome where
  pure a := .value a false
  bind := bind

instance : LawfulMonad Outcome := by
  refine LawfulMonad.mk' Outcome ?_ ?_ ?_
  · intro α x
    cases x with
    | fault => rfl
    | value a s => change Outcome.value a (s || false) = _; rw [Bool.or_false]
  · intro α β a k
    change bind (.value a false) k = k a
    cases hk : k a <;> simp [bind, hk]
  · intro α β γ x k l
    change bind (bind x k) l = bind x fun a => bind (k a) l
    cases x with
    | fault => rfl
    | value a s =>
      simp only [bind]
      cases k a with
      | fault => rfl
      | value b s' => cases hl : l b <;> simp [hl, Bool.or_assoc]

/-- The value of a defensive branch. -/
def fallback (a : α) : Outcome α := .value a true

/-- The evaluation ends normally, takes no defensive branch, and its value satisfies `P`. -/
def Returns (x : Outcome α) (P : α → Prop) : Prop := ∃ a, x = pure a ∧ P a

theorem pure_inj {a b : α} : (pure a : Outcome α) = pure b ↔ a = b := by
  constructor
  · intro h
    injection h
  · exact congrArg _

theorem returns_pure {a : α} {P : α → Prop} : Returns (pure a) P ↔ P a := by
  constructor
  · rintro ⟨b, hb, h⟩
    rwa [pure_inj.mp hb]
  · exact fun h => ⟨a, rfl, h⟩

theorem fault_bind (f : Fault) (k : α → Outcome β) : (Outcome.fault f >>= k) = .fault f := rfl

theorem Returns.mono {x : Outcome α} {P Q : α → Prop} (h : Returns x P)
    (hpq : ∀ a, P a → Q a) : Returns x Q := by
  obtain ⟨a, ha, hp⟩ := h
  exact ⟨a, ha, hpq a hp⟩

theorem Returns.exists_pure {x : Outcome α} {P : α → Prop} (h : Returns x P) : ∃ a, x = pure a := by
  obtain ⟨a, ha, _⟩ := h
  exact ⟨a, ha⟩

theorem Returns.bind {x : Outcome α} {k : α → Outcome β} {P : α → Prop} {Q : β → Prop}
    (h : Returns x P) (hk : ∀ a, P a → Returns (k a) Q) : Returns (x >>= k) Q := by
  obtain ⟨a, rfl, ha⟩ := h
  simpa using hk a ha

/-- An evaluation whose value a property settles has the same result twice. -/
theorem Returns.congr {x y : Outcome α} {P : α → Prop} (hx : Returns x P) (hy : Returns y P)
    (huniq : ∀ a b, P a → P b → a = b) : x = y := by
  obtain ⟨a, rfl, ha⟩ := hx
  obtain ⟨b, rfl, hb⟩ := hy
  rw [huniq a b ha hb]

/-- A normal result of a sequence comes from a normal result of each part. -/
theorem bind_eq_pure {x : Outcome α} {k : α → Outcome β} {b : β} :
    x >>= k = pure b ↔ ∃ a, x = pure a ∧ k a = pure b := by
  constructor
  · intro h
    cases x with
    | fault f => cases h
    | value a s =>
      change Outcome.bind _ _ = _ at h
      simp only [Outcome.bind] at h
      cases hk : k a with
      | fault f => rw [hk] at h; cases h
      | value c s' =>
        rw [hk] at h
        injection h with hc hs
        obtain ⟨rfl, rfl⟩ : s = false ∧ s' = false := by simpa using hs
        exact ⟨a, rfl, by rw [hk, hc]; rfl⟩
  · rintro ⟨a, rfl, h⟩
    simpa using h

end Outcome

/-- The memory a mutating call may still take: unbounded, or `n` more allocations. -/
inductive Mem
  | unbounded
  | upTo (n : ℕ)
  deriving DecidableEq, Repr

/-- How a mutating call ends. A throwing call leaves the state it had reached. -/
inductive Exit (S : Type)
  | returned (s : S) (m : Mem)
  | threw (s : S)
  deriving DecidableEq, Repr

variable {S R : Type}

/-- One allocation: it succeeds and evaluation goes on, or it throws and changes nothing. -/
def Mem.alloc (m : Mem) (s : S) (k : Mem → Outcome (Exit S)) : Outcome (Exit S) :=
  match m with
  | .unbounded => k .unbounded
  | .upTo 0 => pure (.threw s)
  | .upTo (n + 1) => k (.upTo n)

namespace Exit

/-- The state after the call, however it ends. -/
def state : Exit S → S
  | .returned s _ => s
  | .threw s => s

/-- The same call seen from an enclosing object. -/
def map (f : S → R) : Exit S → Exit R
  | .returned s m => .returned (f s) m
  | .threw s => .threw (f s)

/-- Every normal return satisfies `P`, and only bounded memory can make the call throw or leave
it with less than it had. -/
def Sat (m : Mem) (P : S → Prop) : Exit S → Prop
  | .returned s m' => P s ∧ (m = .unbounded → m' = .unbounded)
  | .threw _ => m ≠ .unbounded

end Exit

namespace Outcome

/-- Sequencing of mutating calls: an exception skips the rest. -/
def andThen (x : Outcome (Exit S)) (k : S → Mem → Outcome (Exit S)) : Outcome (Exit S) :=
  x >>= fun
    | .returned s m => k s m
    | .threw s => pure (.threw s)

/-- A mutating call on a part of an object. -/
def within (f : S → R) (x : Outcome (Exit S)) : Outcome (Exit R) := x >>= fun e => pure (e.map f)

/-- The call has no fault and takes no defensive branch; if it returns, `P` holds of the state. -/
def Ends (x : Outcome (Exit S)) (m : Mem) (P : S → Prop) : Prop := Returns x (Exit.Sat m P)

variable {m : Mem} {P Q : S → Prop} {x : Outcome (Exit S)}

theorem ends_returned {s : S} (h : P s) : Ends (pure (.returned s m)) m P :=
  returns_pure.mpr ⟨h, id⟩

theorem Ends.mono (h : Ends x m P) (hpq : ∀ s, P s → Q s) : Ends x m Q := by
  refine Returns.mono h ?_
  rintro (⟨s, m'⟩ | s) hs
  · exact ⟨hpq s hs.1, hs.2⟩
  · exact hs

theorem Ends.andThen {k : S → Mem → Outcome (Exit S)} (h : Ends x m P)
    (hk : ∀ s m', P s → (m = .unbounded → m' = .unbounded) → Ends (k s m') m' Q) :
    Ends (x.andThen k) m Q := by
  refine Returns.bind h ?_
  rintro (⟨s, m'⟩ | s) hs
  · refine Returns.mono (hk s m' hs.1 hs.2) ?_
    rintro (⟨s', m''⟩ | s') hs'
    · exact ⟨hs'.1, fun hm => hs'.2 (hs.2 hm)⟩
    · exact fun hm => hs' (hs.2 hm)
  · exact returns_pure.mpr hs

theorem Ends.within {f : S → R} {P : R → Prop} (h : Ends x m fun s => P (f s)) :
    Ends (within f x) m P := by
  refine Returns.bind h ?_
  rintro (⟨s, m'⟩ | s) hs
  · exact returns_pure.mpr hs
  · exact returns_pure.mpr hs

theorem Ends.alloc {s : S} {k : Mem → Outcome (Exit S)}
    (h : ∀ m', (m = .unbounded → m' = .unbounded) → Ends (k m') m' P) :
    Ends (m.alloc s k) m P := by
  cases m with
  | unbounded => exact h .unbounded id
  | upTo n =>
    cases n with
    | zero => exact returns_pure.mpr (by simp [Exit.Sat])
    | succ n =>
      refine Returns.mono (h (.upTo n) (by simp)) ?_
      rintro (⟨s', m'⟩ | s') hs
      · exact ⟨hs.1, by simp⟩
      · simp [Exit.Sat]

/-- With unbounded memory the call returns. -/
theorem Ends.unbounded (h : Ends x .unbounded P) :
    ∃ s, x = pure (.returned s .unbounded) ∧ P s := by
  obtain ⟨e, he, hs⟩ := h
  cases e with
  | returned s m' =>
    obtain ⟨hp, hm⟩ := hs
    obtain rfl := hm rfl
    exact ⟨s, he, hp⟩
  | threw s => exact (hs rfl).elim

@[simp] theorem returned_andThen (s : S) (k : S → Mem → Outcome (Exit S)) :
    (pure (.returned s m) : Outcome (Exit S)).andThen k = k s m := by
  simp [Outcome.andThen]

@[simp] theorem threw_andThen (s : S) (k : S → Mem → Outcome (Exit S)) :
    (pure (.threw s) : Outcome (Exit S)).andThen k = pure (.threw s) := by
  simp [Outcome.andThen]

theorem alloc_andThen (m : Mem) (s : S) (k : Mem → Outcome (Exit S))
    (k' : S → Mem → Outcome (Exit S)) :
    (m.alloc s k).andThen k' = m.alloc s fun m => (k m).andThen k' := by
  cases m with
  | unbounded => rfl
  | upTo n =>
    cases n with
    | zero => exact threw_andThen s k'
    | succ n => rfl

@[simp] theorem within_pure (f : S → R) (e : Exit S) : within f (pure e) = pure (e.map f) := by
  simp [within]

/-- A sequence that throws throws in one of its parts. -/
theorem andThen_eq_threw {s : S} {k : S → Mem → Outcome (Exit S)} :
    x.andThen k = pure (.threw s) ↔ x = pure (.threw s) ∨
      ∃ s₁ m₁, x = pure (.returned s₁ m₁) ∧ k s₁ m₁ = pure (.threw s) := by
  rw [Outcome.andThen, bind_eq_pure]
  constructor
  · rintro ⟨e, rfl, he⟩
    cases e with
    | returned s₁ m₁ => exact Or.inr ⟨s₁, m₁, rfl, he⟩
    | threw s₁ =>
      cases pure_inj.mp he
      exact Or.inl rfl
  · rintro (rfl | ⟨s₁, m₁, rfl, hk⟩)
    · exact ⟨_, rfl, rfl⟩
    · exact ⟨_, rfl, hk⟩

theorem within_eq_threw {f : S → R} {r : R} :
    within f x = pure (.threw r) ↔ ∃ s, x = pure (.threw s) ∧ r = f s := by
  rw [Outcome.within, bind_eq_pure]
  constructor
  · rintro ⟨e, rfl, he⟩
    cases e with
    | returned s m => cases pure_inj.mp he
    | threw s =>
      cases pure_inj.mp he
      exact ⟨s, rfl, rfl⟩
  · rintro ⟨s, rfl, rfl⟩
    exact ⟨_, rfl, rfl⟩

theorem within_eq_returned {f : S → R} {r : R} {m' : Mem} :
    within f x = pure (.returned r m') ↔ ∃ s, x = pure (.returned s m') ∧ r = f s := by
  rw [Outcome.within, bind_eq_pure]
  constructor
  · rintro ⟨e, rfl, he⟩
    cases e with
    | returned s m =>
      cases pure_inj.mp he
      exact ⟨s, rfl, rfl⟩
    | threw s => cases pure_inj.mp he
  · rintro ⟨s, rfl, rfl⟩
    exact ⟨_, rfl, rfl⟩

theorem returned_ne_threw {s s' : S} :
    (pure (.returned s m) : Outcome (Exit S)) ≠ pure (.threw s') := by
  intro h
  cases pure_inj.mp h

end Outcome

end ParvEB
