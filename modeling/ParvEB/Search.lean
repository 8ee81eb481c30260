import ParvEB.OrderSplit

/-! Searches that pass over an ordered set step by step. -/
namespace ParvEB

variable {K : Type*} [LinearOrder K] {S : Set K} {i j k : K}

/-- The members of `S` from `i` on. -/
def upFrom (S : Set K) (i : K) : Set K := {k ∈ S | i ≤ k}

theorem isFirst_upFrom (hk : k ∈ S) (hik : i ≤ k) (hno : ∀ x, i ≤ x → x < k → x ∉ S) :
    IsFirst (upFrom S i) (some k) := by
  refine ⟨⟨hk, hik⟩, ?_⟩
  rintro x ⟨hx, hix⟩
  by_contra hxk
  exact hno x hix (not_le.mp hxk) hx

/-- A stretch without members is passed over. -/
theorem upFrom_skip (hij : i ≤ j) (hno : ∀ x, i ≤ x → x < j → x ∉ S) :
    upFrom S i = upFrom S j := by
  ext x
  constructor
  · rintro ⟨hx, hix⟩
    refine ⟨hx, ?_⟩
    by_contra hjx
    exact hno x hix (not_le.mp hjx) hx
  · rintro ⟨hx, hjx⟩
    exact ⟨hx, hij.trans hjx⟩

theorem upFrom_eq_empty (hno : ∀ x ∈ S, x < i) : upFrom S i = ∅ := by
  rw [Set.eq_empty_iff_forall_notMem]
  rintro x ⟨hx, hix⟩
  exact not_le_of_gt (hno x hx) hix

theorem isLast_below (hk : k ∈ S) (hki : k < i) (hno : ∀ x, k < x → x < i → x ∉ S) :
    IsLast (below S i) (some k) := by
  refine ⟨⟨hk, hki⟩, ?_⟩
  rintro x ⟨hx, hxi⟩
  by_contra hxk
  exact hno x (not_le.mp hxk) hxi hx

theorem below_skip (hij : i ≤ j) (hno : ∀ x, i ≤ x → x < j → x ∉ S) :
    below S j = below S i := by
  ext x
  constructor
  · rintro ⟨hx, hxj⟩
    refine ⟨hx, ?_⟩
    by_contra hix
    exact hno x (not_lt.mp hix) hxj hx
  · rintro ⟨hx, hxi⟩
    exact ⟨hx, hxi.trans_le hij⟩

theorem below_eq_empty (hno : ∀ x ∈ S, i ≤ x) : below S i = ∅ := by
  rw [Set.eq_empty_iff_forall_notMem]
  rintro x ⟨hx, hxi⟩
  exact not_le_of_gt hxi (hno x hx)

section Steps

/-! A search through the natural numbers looks at `n` and steps on. -/

variable {S : Set ℕ} {n : ℕ}

theorem isFirst_here (h : n ∈ S) : IsFirst (upFrom S n) (some n) :=
  isFirst_upFrom h le_rfl fun _ hnx hxn => (not_le_of_gt hxn hnx).elim

theorem upFrom_step (h : n ∉ S) : upFrom S n = upFrom S (n + 1) := by
  refine upFrom_skip (Nat.le_succ n) fun x hnx hxn => ?_
  obtain rfl : x = n := Nat.le_antisymm (Nat.lt_succ_iff.mp hxn) hnx
  exact h

theorem isLast_here (h : n ∈ S) : IsLast (below S (n + 1)) (some n) :=
  isLast_below h (Nat.lt_succ_self n) fun _ hnx hxn =>
    (not_le_of_gt hnx (Nat.lt_succ_iff.mp hxn)).elim

theorem below_step (h : n ∉ S) : below S (n + 1) = below S n := by
  refine below_skip (Nat.le_succ n) fun x hnx hxn => ?_
  obtain rfl : x = n := Nat.le_antisymm (Nat.lt_succ_iff.mp hxn) hnx
  exact h

theorem below_zero (S : Set ℕ) : below S 0 = ∅ := below_eq_empty fun x _ => Nat.zero_le x

/-- Above `n` is from `n + 1` on. -/
theorem above_eq_upFrom (S : Set ℕ) (n : ℕ) : above S n = upFrom S (n + 1) := rfl

end Steps

section Stretches

/-! A stretch is `upFrom` at one end and `below` at the other. -/

variable (hij : i ≤ j)

theorem isFirst_of_stretch (h : IsFirst (upFrom (below S j) i) (some k)) :
    IsFirst (upFrom S i) (some k) := by
  obtain ⟨⟨⟨hk, hkj⟩, hik⟩, hleast⟩ := h
  refine isFirst_upFrom hk hik fun x hix hxk hx => ?_
  exact not_le_of_gt hxk (hleast ⟨⟨hx, hxk.trans hkj⟩, hix⟩)

include hij in
theorem upFrom_of_stretch (h : IsFirst (upFrom (below S j) i) none) :
    upFrom S i = upFrom S j := by
  refine upFrom_skip hij fun x hix hxj hx => ?_
  have hmem : x ∈ upFrom (below S j) i := ⟨⟨hx, hxj⟩, hix⟩
  rw [show upFrom (below S j) i = ∅ from h] at hmem
  exact hmem

theorem isLast_of_stretch (h : IsLast (below (upFrom S i) j) (some k)) :
    IsLast (below S j) (some k) := by
  obtain ⟨⟨⟨hk, hik⟩, hkj⟩, hgreatest⟩ := h
  refine isLast_below hk hkj fun x hkx hxj hx => ?_
  exact not_le_of_gt hkx (hgreatest ⟨⟨hx, hik.trans hkx.le⟩, hxj⟩)

include hij in
theorem below_of_stretch (h : IsLast (below (upFrom S i) j) none) : below S j = below S i := by
  refine below_skip hij fun x hix hxj hx => ?_
  have hmem : x ∈ below (upFrom S i) j := ⟨⟨hx, hix⟩, hxj⟩
  rw [show below (upFrom S i) j = ∅ from h] at hmem
  exact hmem

end Stretches

end ParvEB
