import Mathlib.Data.List.Perm.Basic

/-! A command line as settings that are read one by one, a later one over an earlier one. -/
namespace ParvEB

variable {α ε σ τ β : Type} {step : σ → α → Except ε σ} {read : α → Except ε τ} {act : σ → τ → σ}
  {args : List α} {s s' : σ} {e : ε}

/-- What an argument says, or why it says nothing, does not depend on those before it. -/
def Separates (step : σ → α → Except ε σ) (read : α → Except ε τ) (act : σ → τ → σ) : Prop :=
  ∀ s a, step s a = (read a).map (act s)

theorem Separates.of_ok (h : Separates step read act) {a : α} {t : τ} (ha : read a = .ok t) :
    step s a = .ok (act s t) := by
  rw [h, ha]
  rfl

theorem Separates.of_error (h : Separates step read act) {a : α} (ha : read a = .error e) :
    step s a = .error e := by
  rw [h, ha]
  rfl

/-- An accepted command line is one whose arguments are all settings, and they act in turn. -/
theorem foldlM_eq_ok_iff (h : Separates step read act) : args.foldlM step s = .ok s' ↔
    ∃ ts, List.Forall₂ (fun a t => read a = .ok t) args ts ∧ ts.foldl act s = s' := by
  induction args generalizing s with
  | nil =>
    constructor
    · rintro ⟨⟩
      exact ⟨[], .nil, rfl⟩
    · rintro ⟨_, ⟨⟩, rfl⟩
      rfl
  | cons a args ih =>
    cases ha : read a with
    | error e =>
      rw [List.foldlM_cons, h.of_error ha]
      constructor
      · rintro ⟨⟩
      · rintro ⟨_, hts, _⟩
        cases hts with
        | cons ht _ => cases ha.symm.trans ht
    | ok t =>
      rw [List.foldlM_cons, h.of_ok ha]
      refine ih.trans ⟨?_, ?_⟩
      · rintro ⟨ts, hts, rfl⟩
        exact ⟨t :: ts, .cons ha hts, rfl⟩
      · rintro ⟨_, hts, rfl⟩
        cases hts with
        | cons ht hts =>
          cases ha.symm.trans ht
          exact ⟨_, hts, rfl⟩

/-- A command line is rejected for the first argument that is not a setting. -/
theorem foldlM_eq_error_iff (h : Separates step read act) : args.foldlM step s = .error e ↔
    ∃ pre bad post, args = pre ++ bad :: post ∧ (∀ a ∈ pre, ∃ t, read a = .ok t) ∧
      read bad = .error e := by
  induction args generalizing s with
  | nil =>
    constructor
    · rintro ⟨⟩
    · rintro ⟨pre, bad, post, heq, _⟩
      cases pre <;> cases heq
  | cons a args ih =>
    cases ha : read a with
    | error e' =>
      rw [List.foldlM_cons, h.of_error ha]
      constructor
      · rintro ⟨⟩
        exact ⟨[], a, args, rfl, by simp, ha⟩
      · rintro ⟨pre, bad, post, heq, hpre, hbad⟩
        cases pre with
        | nil =>
          cases heq
          cases ha.symm.trans hbad
          rfl
        | cons a' pre =>
          cases heq
          obtain ⟨t, ht⟩ := hpre a List.mem_cons_self
          cases ha.symm.trans ht
    | ok t =>
      rw [List.foldlM_cons, h.of_ok ha]
      refine ih.trans ⟨?_, ?_⟩
      · rintro ⟨pre, bad, post, rfl, hpre, hbad⟩
        exact ⟨a :: pre, bad, post, rfl, List.forall_mem_cons.mpr ⟨⟨t, ha⟩, hpre⟩, hbad⟩
      · rintro ⟨pre, bad, post, heq, hpre, hbad⟩
        cases pre with
        | nil =>
          cases heq
          cases ha.symm.trans hbad
        | cons a' pre =>
          cases heq
          exact ⟨pre, bad, post, rfl, fun a ha => hpre a (List.mem_cons_of_mem _ ha), hbad⟩

/-- What the last setting of a field says, and else its default. -/
def lastOf (get : τ → Option β) (ts : List τ) (x : β) : β := (ts.filterMap get).getLast?.getD x

theorem foldl_field (act : σ → τ → σ) (field : σ → β) (get : τ → Option β)
    (h : ∀ s t, field (act s t) = (get t).getD (field s)) (ts : List τ) (s : σ) :
    field (ts.foldl act s) = lastOf get ts (field s) := by
  induction ts generalizing s with
  | nil => rfl
  | cons t ts ih =>
    rw [List.foldl_cons, ih, h, lastOf, lastOf, List.filterMap_cons]
    cases hget : get t with
    | none => rfl
    | some x =>
      rw [List.getLast?_cons]
      rfl

/-- Settings in any order, one of them of the field, override those before them. -/
theorem lastOf_append {get : τ → Option β} {ts ts' : List τ} {x : β} (h : ts.Perm ts')
    (hx : ts'.filterMap get = [x]) (ts₀ : List τ) (d : β) : lastOf get (ts₀ ++ ts) d = x := by
  have hts : ts.filterMap get = [x] := List.perm_singleton.mp (hx ▸ h.filterMap get)
  rw [lastOf, List.filterMap_append, hts, List.getLast?_append]
  rfl

end ParvEB
