import Mathlib.Data.List.Induction
import ParvEB.OrderSplit

/-! A sorted list as an ordered set. Its positions are the iterators, and its length is the end. -/
namespace ParvEB

variable {K : Type*} [LinearOrder K] {k q x : K} {l l' : List K}

def sortedInsert (k : K) : List K → List K
  | [] => [k]
  | x :: xs => if k < x then k :: x :: xs else if x < k then x :: sortedInsert k xs else x :: xs

/-- The first position whose key is not below `q`. -/
def lowerBound (l : List K) (q : K) : ℕ := l.findIdx (q ≤ ·)

/-- The first position whose key is above `q`. -/
def upperBound (l : List K) (q : K) : ℕ := l.findIdx (q < ·)

/-- The key before a position. -/
def before (l : List K) : ℕ → Option K
  | 0 => none
  | i + 1 => l[i]?

theorem mem_sortedInsert : x ∈ sortedInsert k l ↔ x = k ∨ x ∈ l := by
  induction l with
  | nil => simp [sortedInsert]
  | cons y l ih =>
    rw [sortedInsert]
    rcases lt_trichotomy k y with hlt | rfl | hlt
    · rw [if_pos hlt, List.mem_cons]
    · rw [if_neg (lt_irrefl k), if_neg (lt_irrefl k), List.mem_cons]
      tauto
    · rw [if_neg hlt.le.not_gt, if_pos hlt, List.mem_cons, ih, List.mem_cons]
      tauto

theorem pairwise_sortedInsert (h : l.Pairwise (· < ·)) :
    (sortedInsert k l).Pairwise (· < ·) := by
  induction l with
  | nil => exact List.pairwise_singleton _ _
  | cons y l ih =>
    obtain ⟨hy, hl⟩ := List.pairwise_cons.mp h
    rw [sortedInsert]
    rcases lt_trichotomy k y with hlt | rfl | hlt
    · rw [if_pos hlt]
      refine List.pairwise_cons.mpr ⟨fun z hz => ?_, h⟩
      rcases List.mem_cons.mp hz with rfl | hz
      · exact hlt
      · exact hlt.trans (hy z hz)
    · rwa [if_neg (lt_irrefl k), if_neg (lt_irrefl k)]
    · rw [if_neg hlt.le.not_gt, if_pos hlt]
      refine List.pairwise_cons.mpr ⟨fun z hz => ?_, ih hl⟩
      rcases mem_sortedInsert.mp hz with rfl | hz
      · exact hlt
      · exact hy z hz

theorem foldl_sortedInsert (h : l.Pairwise (· < ·)) (ks : List K) :
    (ks.foldl (fun l k => sortedInsert k l) l).Pairwise (· < ·) ∧
      ∀ x, x ∈ ks.foldl (fun l k => sortedInsert k l) l ↔ x ∈ ks ∨ x ∈ l := by
  induction ks generalizing l with
  | nil => exact ⟨h, by simp⟩
  | cons k ks ih =>
    obtain ⟨hsorted, hmem⟩ := ih (pairwise_sortedInsert (k := k) h)
    refine ⟨hsorted, fun x => ?_⟩
    rw [List.foldl_cons, hmem, mem_sortedInsert, List.mem_cons]
    tauto

theorem isFirst_head (h : l.Pairwise (· < ·)) : IsFirst {x | x ∈ l} l.head? := by
  cases l with
  | nil => exact Set.eq_empty_iff_forall_notMem.mpr fun _ => List.not_mem_nil
  | cons y l =>
    refine ⟨List.mem_cons_self, fun x hx => ?_⟩
    rcases List.mem_cons.mp hx with rfl | hx
    · exact le_rfl
    · exact ((List.pairwise_cons.mp h).1 x hx).le

theorem isLast_getLast (h : l.Pairwise (· < ·)) : IsLast {x | x ∈ l} l.getLast? := by
  induction l using List.reverseRecOn with
  | nil => exact Set.eq_empty_iff_forall_notMem.mpr fun _ => List.not_mem_nil
  | append_singleton l y _ =>
    rw [List.getLast?_concat]
    refine ⟨List.mem_append_right l (List.mem_singleton_self y), fun x hx => ?_⟩
    rcases List.mem_append.mp hx with hx | hx
    · exact ((List.pairwise_append.mp h).2.2 x hx y (List.mem_singleton_self y)).le
    · exact (List.mem_singleton.mp hx).le

/-- The key at the upper bound is the next one. -/
theorem isFirst_upperBound (h : l.Pairwise (· < ·)) (q : K) :
    IsFirst (above {x | x ∈ l} q) l[upperBound l q]? := by
  induction l with
  | nil =>
    refine Set.eq_empty_iff_forall_notMem.mpr ?_
    rintro x ⟨hx, _⟩
    exact absurd hx List.not_mem_nil
  | cons y l ih =>
    obtain ⟨hy, hl⟩ := List.pairwise_cons.mp h
    by_cases hq : q < y
    · have hidx : upperBound (y :: l) q = 0 := by simp [upperBound, List.findIdx_cons, hq]
      rw [hidx]
      refine ⟨⟨List.mem_cons_self, hq⟩, ?_⟩
      rintro x ⟨hx, _⟩
      rcases List.mem_cons.mp hx with rfl | hx
      · exact le_rfl
      · exact (hy x hx).le
    · have hidx : upperBound (y :: l) q = upperBound l q + 1 := by
        simp [upperBound, List.findIdx_cons, hq]
      have habove : above {x | x ∈ y :: l} q = above {x | x ∈ l} q := by
        ext x
        constructor
        · rintro ⟨hx, hqx⟩
          rcases List.mem_cons.mp hx with rfl | hx
          · exact absurd hqx hq
          · exact ⟨hx, hqx⟩
        · rintro ⟨hx, hqx⟩
          exact ⟨List.mem_cons_of_mem _ hx, hqx⟩
      rw [hidx, habove, List.getElem?_cons_succ]
      exact ih hl

/-- The key before the lower bound is the previous one. -/
theorem isLast_lowerBound (h : l.Pairwise (· < ·)) (q : K) :
    IsLast (below {x | x ∈ l} q) (before l (lowerBound l q)) := by
  induction l with
  | nil =>
    refine Set.eq_empty_iff_forall_notMem.mpr ?_
    rintro x ⟨hx, _⟩
    exact absurd hx List.not_mem_nil
  | cons y l ih =>
    obtain ⟨hy, hl⟩ := List.pairwise_cons.mp h
    by_cases hq : q ≤ y
    · have hidx : lowerBound (y :: l) q = 0 := by simp [lowerBound, List.findIdx_cons, hq]
      rw [hidx]
      refine Set.eq_empty_iff_forall_notMem.mpr ?_
      rintro x ⟨hx, hxq⟩
      rcases List.mem_cons.mp hx with rfl | hx
      · exact absurd hxq hq.not_gt
      · exact absurd hxq (hq.trans (hy x hx).le).not_gt
    · have hidx : lowerBound (y :: l) q = lowerBound l q + 1 := by
        simp [lowerBound, List.findIdx_cons, hq]
      have hlast := ih hl
      rw [hidx, before]
      cases hi : lowerBound l q with
      | zero =>
        rw [hi] at hlast
        refine ⟨⟨List.mem_cons_self, not_le.mp hq⟩, ?_⟩
        rintro x ⟨hx, hxq⟩
        rcases List.mem_cons.mp hx with rfl | hx
        · exact le_rfl
        · have hempty : below {x | x ∈ l} q = ∅ := hlast
          exact (hempty ▸ (⟨hx, hxq⟩ : x ∈ below {x | x ∈ l} q) : x ∈ (∅ : Set K)).elim
      | succ i =>
        have hlt : i < l.length := by
          have hle : lowerBound l q ≤ l.length := List.findIdx_le_length
          omega
        rw [hi, before, List.getElem?_eq_getElem hlt] at hlast
        rw [List.getElem?_cons_succ, List.getElem?_eq_getElem hlt]
        refine ⟨⟨List.mem_cons_of_mem _ hlast.1.1, hlast.1.2⟩, ?_⟩
        rintro x ⟨hx, hxq⟩
        rcases List.mem_cons.mp hx with rfl | hx
        · exact (hy _ hlast.1.1).le
        · exact hlast.2 ⟨hx, hxq⟩

end ParvEB
