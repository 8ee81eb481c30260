import ParvEB.Trees

/-! What the trees answer after any run. -/
namespace ParvEB

open Outcome

section Specifications

variable {w : ℕ}

/-- The answer is the least key, and none when there is none. -/
def Least (S : BitVec w → Prop) : Option (BitVec w) → Prop
  | none => ∀ k, ¬ S k
  | some s => S s ∧ ∀ k, S k → s ≤ k

def Greatest (S : BitVec w → Prop) : Option (BitVec w) → Prop
  | none => ∀ k, ¬ S k
  | some s => S s ∧ ∀ k, S k → k ≤ s

def LeastAbove (S : BitVec w → Prop) (q : BitVec w) : Option (BitVec w) → Prop :=
  Least fun k => S k ∧ q < k

def GreatestBelow (S : BitVec w → Prop) (q : BitVec w) : Option (BitVec w) → Prop :=
  Greatest fun k => S k ∧ k < q

/-- A set of numbers that a predicate on keys describes. -/
def Describes (S : BitVec w → Prop) (K : Set ℕ) : Prop :=
  (∀ k, S k ↔ k.toNat ∈ K) ∧ ∀ n ∈ K, ∃ k : BitVec w, k.toNat = n

variable {S : BitVec w → Prop} {K : Set ℕ} {r : Option (BitVec w)} {q : BitVec w}

theorem Describes.least (h : Describes S K) (hr : IsFirst K (r.map BitVec.toNat)) : Least S r := by
  cases r with
  | none =>
    intro k hk
    rw [show K = ∅ from hr] at h
    exact (h.1 k).mp hk
  | some s => exact ⟨(h.1 s).mpr hr.1, fun k hk => hr.2 ((h.1 k).mp hk)⟩

theorem Describes.greatest (h : Describes S K) (hr : IsLast K (r.map BitVec.toNat)) :
    Greatest S r := by
  cases r with
  | none =>
    intro k hk
    rw [show K = ∅ from hr] at h
    exact (h.1 k).mp hk
  | some s => exact ⟨(h.1 s).mpr hr.1, fun k hk => hr.2 ((h.1 k).mp hk)⟩

theorem Describes.above (h : Describes S K) :
    Describes (fun k => S k ∧ q < k) (above K q.toNat) := by
  exact ⟨fun k => and_congr_left' (h.1 k), fun n hn => h.2 n hn.1⟩

theorem Describes.below (h : Describes S K) :
    Describes (fun k => S k ∧ k < q) (below K q.toNat) := by
  exact ⟨fun k => and_congr_left' (h.1 k), fun n hn => h.2 n hn.1⟩

end Specifications

section Agreement

variable {T T' : Type} {w bits : ℕ} [VebNode T w] [VebNode T' w] {t : T} {t' : T'}

/-- Two nodes, maybe of different types, answer every query of the universe alike. -/
structure Agree (bits : ℕ) (t : T) (t' : T') : Prop where
  contains : ∀ k : BitVec w, k ≤ maxKey bits w → VebNode.contains t k = VebNode.contains t' k
  successor : ∀ k : BitVec w, k ≤ maxKey bits w → VebNode.successor t k = VebNode.successor t' k
  predecessor : ∀ k : BitVec w, k ≤ maxKey bits w →
    VebNode.predecessor t k = VebNode.predecessor t' k
  empty : VebNode.empty t = VebNode.empty t'
  min : VebNode.min t = VebNode.min t'
  max : VebNode.max t = VebNode.max t'

theorem toNat_option_injective : Function.Injective (Option.map (BitVec.toNat (w := w))) :=
  Option.map_injective fun _ _ => BitVec.eq_of_toNat_eq

/-- What nodes answer depends on the set that they stand for and on nothing else. -/
theorem agree_of_keys [LawfulVeb T bits] [LawfulVeb T' bits] {lax lax' : Prop} (hw : w ≤ 64)
    (h : LawfulVeb.Inv lax t) (h' : LawfulVeb.Inv lax' t')
    (hkeys : LawfulVeb.keys t = LawfulVeb.keys t') : Agree bits t t' := by
  have hlt : ∀ {k : BitVec w}, k ≤ maxKey bits w → k.toNat < 2 ^ bits :=
    (le_maxKey_iff (LawfulVeb.bits_le T) hw).mp
  have hfirst : ∀ {S : Set ℕ} (r r' : Option (BitVec w)), IsFirst S (r.map BitVec.toNat) →
      IsFirst S (r'.map BitVec.toNat) → r = r' :=
    fun _ _ hr hr' => toNat_option_injective (hr.unique hr')
  have hlast : ∀ {S : Set ℕ} (r r' : Option (BitVec w)), IsLast S (r.map BitVec.toNat) →
      IsLast S (r'.map BitVec.toNat) → r = r' :=
    fun _ _ hr hr' => toNat_option_injective (hr.unique hr')
  constructor
  · exact fun k hk => contains_congr h h' (hlt hk) hkeys
  · intro k hk
    have hs := LawfulVeb.successor_spec h (hlt hk)
    rw [hkeys] at hs
    exact hs.congr (LawfulVeb.successor_spec h' (hlt hk)) hfirst
  · intro k hk
    have hs := LawfulVeb.predecessor_spec h (hlt hk)
    rw [hkeys] at hs
    exact hs.congr (LawfulVeb.predecessor_spec h' (hlt hk)) hlast
  · rw [Bool.eq_iff_iff, LawfulVeb.empty_spec h, LawfulVeb.empty_spec h', hkeys]
  · have hs := LawfulVeb.min_spec h
    rw [hkeys] at hs
    exact hs.congr (LawfulVeb.min_spec h') hfirst
  · have hs := LawfulVeb.max_spec h
    rw [hkeys] at hs
    exact hs.congr (LawfulVeb.max_spec h') hlast

end Agreement

section Universe

variable {T : Type} {w : ℕ} [VebNode T w]

/-- The queries of the universe are answered as the set `K` answers them. -/
structure AnswersAs (bits : ℕ) (t : T) (K : Set ℕ) : Prop where
  contains : ∀ k : BitVec w, k ≤ maxKey bits w →
    (VebNode.contains t k).Returns fun r => r = true ↔ k.toNat ∈ K
  empty : VebNode.empty t = true ↔ K = ∅
  min : (VebNode.min t).Returns fun r => IsFirst K (r.map BitVec.toNat)
  max : (VebNode.max t).Returns fun r => IsLast K (r.map BitVec.toNat)
  successor : ∀ k : BitVec w, k ≤ maxKey bits w →
    (VebNode.successor t k).Returns fun r => IsFirst (above K k.toNat) (r.map BitVec.toNat)
  predecessor : ∀ k : BitVec w, k ≤ maxKey bits w →
    (VebNode.predecessor t k).Returns fun r => IsLast (below K k.toNat) (r.map BitVec.toNat)

variable {bits : ℕ} [LawfulVeb T bits] {lax : Prop} {t : T}

theorem answersAs_keys (hw : w ≤ 64) (h : LawfulVeb.Inv lax t) :
    AnswersAs bits t (LawfulVeb.keys t) := by
  have hlt : ∀ {k : BitVec w}, k ≤ maxKey bits w → k.toNat < 2 ^ bits :=
    (le_maxKey_iff (LawfulVeb.bits_le T) hw).mp
  exact ⟨fun k hk => LawfulVeb.contains_spec h (hlt hk), LawfulVeb.empty_spec h,
    LawfulVeb.min_spec h, LawfulVeb.max_spec h, fun k hk => LawfulVeb.successor_spec h (hlt hk),
    fun k hk => LawfulVeb.predecessor_spec h (hlt hk)⟩

end Universe

namespace Tree

variable {M : ℕ → Type → Type} [FlatMap M] {T : Tree} {lax : Prop} {t : T.State M}
  {ops : List (Op T.width)}

theorem describes (h : LawfulVeb.Inv lax t) : Describes (Stored t) (LawfulVeb.keys t) := by
  refine ⟨fun k => stored_iff h, fun n hn => ?_⟩
  obtain ⟨k, _, hk⟩ := exists_stored h hn
  exact ⟨k, hk⟩

end Tree

section Runs

variable (M : ℕ → Type → Type) [FlatMap M] (T : Tree) (ops : List (Op T.width))

/-- `contains` is true exactly of the keys with an insertion that no erasure follows. -/
theorem contains_after_run (hops : T.InRange ops) :
    (run (VebNode.fresh : T.State M) ops).Returns fun t => ∀ k, k ≤ T.maxKey →
      (VebNode.contains t k).Returns fun r => r = true ↔ Live ops k := by
  refine (Tree.run_fresh hops).mono ?_
  rintro t ⟨h, hkeys⟩ k hk
  obtain ⟨r, hr, hmem⟩ := Tree.contains_spec h hk
  rw [hkeys, mem_built_empty] at hmem
  exact ⟨r, hr, hmem⟩

theorem contains_after_reinsertion :
    (run (VebNode.fresh : Tree.veb24.State FunMap) [.insert 5, .erase 5, .insert 5]).Returns
      fun t => ∀ k, k ≤ Tree.veb24.maxKey →
        (VebNode.contains t k).Returns fun r => r = true ↔
          Live [.insert 5, .erase 5, .insert 5] k :=
  contains_after_run FunMap .veb24 _ (by decide)

/-- The neighbours of any key of the universe, stored or not. -/
theorem neighbours_after_run (hops : T.InRange ops) :
    (run (VebNode.fresh : T.State M) ops).Returns fun t => ∀ q, q ≤ T.maxKey →
      (VebNode.successor t q).Returns (LeastAbove (Tree.Stored t) q) ∧
        (VebNode.predecessor t q).Returns (GreatestBelow (Tree.Stored t) q) := by
  refine (Tree.run_fresh hops).mono ?_
  rintro t ⟨h, _⟩ q hq
  have hlt := Tree.le_maxKey.mp hq
  exact ⟨(LawfulVeb.successor_spec h hlt).mono fun _ => (Tree.describes h).above.least,
    (LawfulVeb.predecessor_spec h hlt).mono fun _ => (Tree.describes h).below.greatest⟩

theorem neighbours_after_two_insertions :
    (run (VebNode.fresh : Tree.veb48.State FunMap) [.insert 7, .insert 0x1000000]).Returns
      fun t => ∀ q, q ≤ Tree.veb48.maxKey →
        (VebNode.successor t q).Returns (LeastAbove (Tree.Stored t) q) ∧
          (VebNode.predecessor t q).Returns (GreatestBelow (Tree.Stored t) q) :=
  neighbours_after_run FunMap .veb48 _ (by decide)

/-- `empty`, `min` and `max` agree with each other and with `contains`. -/
theorem extremes_after_run (hops : T.InRange ops) :
    (run (VebNode.fresh : T.State M) ops).Returns fun t =>
      (VebNode.empty t = true ↔ ∀ k, ¬ Tree.Stored t k) ∧
        ((VebNode.min t).Returns fun r =>
          (r = none ↔ VebNode.empty t = true) ∧ Least (Tree.Stored t) r) ∧
        (VebNode.max t).Returns fun r =>
          (r = none ↔ VebNode.empty t = true) ∧ Greatest (Tree.Stored t) r := by
  refine (Tree.run_fresh hops).mono ?_
  rintro t ⟨h, _⟩
  have hempty := LawfulVeb.empty_spec h
  refine ⟨hempty.trans (Tree.keys_eq_empty_iff h), (LawfulVeb.min_spec h).mono fun r hr => ?_,
    (LawfulVeb.max_spec h).mono fun r hr => ?_⟩
  · rw [hempty, ← isFirst_none_iff hr, Option.map_eq_none_iff]
    exact ⟨Iff.rfl, (Tree.describes h).least hr⟩
  · rw [hempty, ← isLast_none_iff hr, Option.map_eq_none_iff]
    exact ⟨Iff.rfl, (Tree.describes h).greatest hr⟩

theorem extremes_after_refilling :
    (run (VebNode.fresh : Tree.veb32.State FunMap)
      [.insert 3, .erase 3, .insert 9]).Returns fun t =>
      (VebNode.empty t = true ↔ ∀ k, ¬ Tree.Stored t k) ∧
        ((VebNode.min t).Returns fun r =>
          (r = none ↔ VebNode.empty t = true) ∧ Least (Tree.Stored t) r) ∧
        (VebNode.max t).Returns fun r =>
          (r = none ↔ VebNode.empty t = true) ∧ Greatest (Tree.Stored t) r :=
  extremes_after_run FunMap .veb32 _ (by decide)

/-- No call within the universe meets a fault or a defensive branch, at any level, whatever memory
is left to it. -/
theorem no_fault_after_run (hops : T.InRange ops) :
    (run (VebNode.fresh : T.State M) ops).Returns fun t => ∀ k, k ≤ T.maxKey →
      (∀ m, ∃ e, VebNode.insert t k m = pure e) ∧ (∃ t', VebNode.erase t k = pure t') ∧
        (∃ r, VebNode.contains t k = pure r) ∧ (∃ r, VebNode.min t = pure r) ∧
        (∃ r, VebNode.max t = pure r) ∧ (∃ r, VebNode.successor t k = pure r) ∧
        ∃ r, VebNode.predecessor t k = pure r := by
  refine (Tree.run_fresh hops).mono ?_
  rintro t ⟨h, _⟩ k hk
  have hlt := Tree.le_maxKey.mp hk
  exact ⟨fun m => (LawfulVeb.insert_spec (m := m) h hlt).exists_pure,
    (LawfulVeb.erase_spec h hlt).exists_pure, (LawfulVeb.contains_spec h hlt).exists_pure,
    (LawfulVeb.min_spec h).exists_pure, (LawfulVeb.max_spec h).exists_pure,
    (LawfulVeb.successor_spec h hlt).exists_pure, (LawfulVeb.predecessor_spec h hlt).exists_pure⟩

theorem no_fault_after_expansion :
    (run (VebNode.fresh : Tree.veb64.State FunMap) [.insert 0, .insert 1, .erase 0]).Returns
      fun t => ∀ k, k ≤ Tree.veb64.maxKey →
        (∀ m, ∃ e, VebNode.insert t k m = pure e) ∧ (∃ t', VebNode.erase t k = pure t') ∧
          (∃ r, VebNode.contains t k = pure r) ∧ (∃ r, VebNode.min t = pure r) ∧
          (∃ r, VebNode.max t = pure r) ∧ (∃ r, VebNode.successor t k = pure r) ∧
          ∃ r, VebNode.predecessor t k = pure r :=
  no_fault_after_run FunMap .veb64 _ (by decide)

end Runs

end ParvEB
