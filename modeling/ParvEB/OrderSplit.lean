import Mathlib.Algebra.BigOperators.Ring.Finset
import Mathlib.Algebra.Order.BigOperators.Group.Finset
import Mathlib.Data.Set.Card
import Mathlib.Order.Bounds.OrderIso

/-! Sets whose order splits into a high and a low part: first and last members, and sizes. -/
namespace ParvEB

variable {K A B : Type*} [LinearOrder K] [LinearOrder A] [LinearOrder B]

/-- The first member of `S`, or `none` when there is none. -/
def IsFirst (S : Set K) : Option K → Prop
  | some k => IsLeast S k
  | none => S = ∅

/-- The last member of `S`, or `none` when there is none. -/
def IsLast (S : Set K) : Option K → Prop
  | some k => IsGreatest S k
  | none => S = ∅

def above (S : Set K) (q : K) : Set K := {x ∈ S | q < x}

def below (S : Set K) (q : K) : Set K := {x ∈ S | x < q}

theorem IsFirst.unique {S : Set K} {r r' : Option K} (h : IsFirst S r) (h' : IsFirst S r') :
    r = r' := by
  cases r <;> cases r' <;> simp only [IsFirst] at h h'
  · rfl
  · exact absurd h'.1 (by simp [h])
  · exact absurd h.1 (by simp [h'])
  · rw [h.unique h']

theorem IsLast.unique {S : Set K} {r r' : Option K} (h : IsLast S r) (h' : IsLast S r') :
    r = r' := by
  cases r <;> cases r' <;> simp only [IsLast] at h h'
  · rfl
  · exact absurd h'.1 (by simp [h])
  · exact absurd h.1 (by simp [h'])
  · rw [h.unique h']

theorem above_insert {S : Set K} {k q : K} (hqk : q < k) :
    above (insert k S) q = insert k (above S q) := by
  ext x
  constructor
  · rintro ⟨rfl | hx, hqx⟩
    · exact Or.inl rfl
    · exact Or.inr ⟨hx, hqx⟩
  · rintro (rfl | ⟨hx, hqx⟩)
    · exact ⟨Or.inl rfl, hqk⟩
    · exact ⟨Or.inr hx, hqx⟩

/-- A key that does not change which member is first lies above one. -/
theorem IsFirst.exists_le {S : Set K} {k : K} {r : Option K} (h : IsFirst S r)
    (h' : IsFirst (insert k S) r) : ∃ x ∈ S, x ≤ k := by
  cases r with
  | none => exact absurd h' (Set.insert_nonempty k S).ne_empty
  | some x => exact ⟨x, h.1, h'.2 (Set.mem_insert k S)⟩

/-- Keys are ordered by `hi`, and among equals by `lo`. -/
structure OrderSplit (hi : K → A) (lo : K → B) : Prop where
  lt_iff : ∀ x y, x < y ↔ hi x < hi y ∨ hi x = hi y ∧ lo x < lo y

/-- The high parts that occur in `S`. -/
def heads (hi : K → A) (S : Set K) : Set A := hi '' S

/-- The low parts that occur in `S` under one high part. -/
def fibre (hi : K → A) (lo : K → B) (S : Set K) (a : A) : Set B := lo '' {x ∈ S | hi x = a}

namespace OrderSplit

variable {hi : K → A} {lo : K → B} {S : Set K} {k q : K}

theorem dual (h : OrderSplit hi lo) :
    OrderSplit (K := Kᵒᵈ) (A := Aᵒᵈ) (B := Bᵒᵈ) hi lo := by
  constructor
  intro x y
  have := h.lt_iff y x
  rwa [eq_comm (a := hi y)] at this

theorem le_of (h : OrderSplit hi lo) {x y : K} (hxy : hi x < hi y ∨ hi x = hi y ∧ lo x ≤ lo y) :
    x ≤ y := by
  rw [← not_lt, h.lt_iff]
  rintro (hlt | ⟨he, hlt⟩) <;> rcases hxy with hxy | ⟨he', hle⟩
  · exact lt_asymm hlt hxy
  · exact hlt.ne' he'
  · exact hxy.ne' he
  · exact not_lt_of_ge hle hlt

theorem isLeast (h : OrderSplit hi lo) (hk : k ∈ S) (ha : IsLeast (heads hi S) (hi k))
    (hl : IsLeast (fibre hi lo S (hi k)) (lo k)) : IsLeast S k := by
  refine ⟨hk, fun x hx => h.le_of ?_⟩
  rcases (ha.2 ⟨x, hx, rfl⟩).lt_or_eq with hlt | he
  · exact Or.inl hlt
  · exact Or.inr ⟨he, hl.2 ⟨x, ⟨hx, he.symm⟩, rfl⟩⟩

theorem isGreatest (h : OrderSplit hi lo) (hk : k ∈ S) (ha : IsGreatest (heads hi S) (hi k))
    (hl : IsGreatest (fibre hi lo S (hi k)) (lo k)) : IsGreatest S k :=
  isLeast (K := Kᵒᵈ) (A := Aᵒᵈ) (B := Bᵒᵈ) h.dual hk ha hl

/-- The next key lies under the same high part. -/
theorem isLeast_above_same (h : OrderSplit hi lo) (hk : k ∈ S) (he : hi k = hi q)
    (hl : IsLeast (above (fibre hi lo S (hi q)) (lo q)) (lo k)) : IsLeast (above S q) k := by
  refine ⟨⟨hk, (h.lt_iff q k).mpr (Or.inr ⟨he.symm, hl.1.2⟩)⟩, ?_⟩
  rintro x ⟨hx, hqx⟩
  rcases (h.lt_iff q x).mp hqx with hlt | ⟨hqx, hlt⟩
  · exact h.le_of (Or.inl (he ▸ hlt))
  · exact h.le_of (Or.inr ⟨he.trans hqx, hl.2 ⟨⟨x, ⟨hx, hqx.symm⟩, rfl⟩, hlt⟩⟩)

theorem isGreatest_below_same (h : OrderSplit hi lo) (hk : k ∈ S) (he : hi k = hi q)
    (hl : IsGreatest (below (fibre hi lo S (hi q)) (lo q)) (lo k)) : IsGreatest (below S q) k :=
  isLeast_above_same (K := Kᵒᵈ) (A := Aᵒᵈ) (B := Bᵒᵈ) h.dual hk he hl

/-- The next key is the first one under the next high part. -/
theorem isLeast_above_next (h : OrderSplit hi lo) (hk : k ∈ S)
    (hno : above (fibre hi lo S (hi q)) (lo q) = ∅)
    (ha : IsLeast (above (heads hi S) (hi q)) (hi k))
    (hl : IsLeast (fibre hi lo S (hi k)) (lo k)) : IsLeast (above S q) k := by
  refine ⟨⟨hk, (h.lt_iff q k).mpr (Or.inl ha.1.2)⟩, ?_⟩
  rintro x ⟨hx, hqx⟩
  rcases (h.lt_iff q x).mp hqx with hlt | ⟨hqx, hlt⟩
  · rcases (ha.2 ⟨⟨x, hx, rfl⟩, hlt⟩).lt_or_eq with hkx | hkx
    · exact h.le_of (Or.inl hkx)
    · exact h.le_of (Or.inr ⟨hkx, hl.2 ⟨x, ⟨hx, hkx.symm⟩, rfl⟩⟩)
  · have : lo x ∈ above (fibre hi lo S (hi q)) (lo q) := ⟨⟨x, ⟨hx, hqx.symm⟩, rfl⟩, hlt⟩
    rw [hno] at this
    exact this.elim

theorem isGreatest_below_next (h : OrderSplit hi lo) (hk : k ∈ S)
    (hno : below (fibre hi lo S (hi q)) (lo q) = ∅)
    (ha : IsGreatest (below (heads hi S) (hi q)) (hi k))
    (hl : IsGreatest (fibre hi lo S (hi k)) (lo k)) : IsGreatest (below S q) k :=
  isLeast_above_next (K := Kᵒᵈ) (A := Aᵒᵈ) (B := Bᵒᵈ) h.dual hk hno ha hl

theorem above_eq_empty (h : OrderSplit hi lo)
    (hno : above (fibre hi lo S (hi q)) (lo q) = ∅)
    (ha : above (heads hi S) (hi q) = ∅) : above S q = ∅ := by
  rw [Set.eq_empty_iff_forall_notMem] at hno ha ⊢
  rintro x ⟨hx, hqx⟩
  rcases (h.lt_iff q x).mp hqx with hlt | ⟨he, hlt⟩
  · exact ha _ ⟨⟨x, hx, rfl⟩, hlt⟩
  · exact hno _ ⟨⟨x, ⟨hx, he.symm⟩, rfl⟩, hlt⟩

theorem below_eq_empty (h : OrderSplit hi lo)
    (hno : below (fibre hi lo S (hi q)) (lo q) = ∅)
    (ha : below (heads hi S) (hi q) = ∅) : below S q = ∅ :=
  above_eq_empty (K := Kᵒᵈ) (A := Aᵒᵈ) (B := Bᵒᵈ) h.dual hno ha

end OrderSplit

section Counting

variable {X Y Z ι : Type*} {S : Set X}

theorem ncard_heads_le {hi : X → Y} (hS : S.Finite) : (heads hi S).ncard ≤ S.ncard :=
  Set.ncard_image_le hS

/-- What lies under different high parts is counted once. -/
theorem sum_ncard_fibre_le (hi : X → Y) (lo : X → Z) (hS : S.Finite) {e : ι → Y}
    (he : Function.Injective e) (s : Finset ι) :
    ∑ i ∈ s, (fibre hi lo S (e i)).ncard ≤ S.ncard := by
  classical
  have hfibre : ∀ i, (fibre hi lo S (e i)).ncard ≤ (hS.toFinset.filter (hi · = e i)).card := by
    intro i
    have hcoe : {x ∈ S | hi x = e i} = hS.toFinset.filter (hi · = e i) := by
      ext x
      simp
    have hle : (lo '' {x ∈ S | hi x = e i}).ncard ≤ {x ∈ S | hi x = e i}.ncard :=
      Set.ncard_image_le (hS.subset fun x hx => hx.1)
    rwa [hcoe, Set.ncard_coe_finset, ← hcoe] at hle
  have hdisjoint : (s : Set ι).PairwiseDisjoint fun i => hS.toFinset.filter (hi · = e i) := by
    intro i _ j _ hij
    refine Finset.disjoint_left.mpr fun x hx hx' => hij (he ?_)
    exact (Finset.mem_filter.mp hx).2.symm.trans (Finset.mem_filter.mp hx').2
  calc ∑ i ∈ s, (fibre hi lo S (e i)).ncard
      ≤ ∑ i ∈ s, (hS.toFinset.filter (hi · = e i)).card := Finset.sum_le_sum fun i _ => hfibre i
    _ = (s.biUnion fun i => hS.toFinset.filter (hi · = e i)).card :=
        (Finset.card_biUnion hdisjoint).symm
    _ ≤ hS.toFinset.card :=
        Finset.card_le_card (Finset.biUnion_subset.mpr fun i _ => Finset.filter_subset _ _)
    _ = S.ncard := (Set.ncard_eq_toFinset_card S hS).symm

/-- A cost that each fibre bounds is bounded by the set. -/
theorem sum_le_mul_ncard (hi : X → Y) (lo : X → Z) (hS : S.Finite) {e : ι → Y}
    (he : Function.Injective e) {s : Finset ι} {cost : ι → ℕ} {r : ℕ}
    (hcost : ∀ i ∈ s, cost i ≤ r * (fibre hi lo S (e i)).ncard) :
    ∑ i ∈ s, cost i ≤ r * S.ncard := by
  refine (Finset.sum_le_sum hcost).trans ?_
  rw [← Finset.mul_sum]
  exact Nat.mul_le_mul_left r (sum_ncard_fibre_le hi lo hS he s)

end Counting

end ParvEB
