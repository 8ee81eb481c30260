import ParvEB.OrderedSet
import ParvEB.Trees

/-! The trees as the ordered set that the benchmark holds them against. -/
namespace ParvEB

open Outcome

/-- A call of the interface, but for the traversals. -/
inductive Request (w : ℕ)
  | update (o : Op w)
  | contains (k : BitVec w)
  | empty
  | min
  | max
  | successor (k : BitVec w)
  | predecessor (k : BitVec w)

/-- What a call gives back, keys as numbers. -/
inductive Answer
  | updated
  | truth (b : Bool)
  | key (k : Option ℕ)
  deriving DecidableEq

def Request.keys {w : ℕ} : Request w → List (BitVec w)
  | .update o => [o.key]
  | .contains k | .successor k | .predecessor k => [k]
  | .empty | .min | .max => []

section Tree

variable {T : Type} {w : ℕ} [VebNode T w]

def serve (t : T) : Request w → Outcome (T × Answer)
  | .update o => do
    let t ← step t o
    pure (t, .updated)
  | .contains k => do
    let r ← VebNode.contains t k
    pure (t, .truth r)
  | .empty => pure (t, .truth (VebNode.empty t))
  | .min => do
    let r ← VebNode.min t
    pure (t, .key (r.map BitVec.toNat))
  | .max => do
    let r ← VebNode.max t
    pure (t, .key (r.map BitVec.toNat))
  | .successor k => do
    let r ← VebNode.successor t k
    pure (t, .key (r.map BitVec.toNat))
  | .predecessor k => do
    let r ← VebNode.predecessor t k
    pure (t, .key (r.map BitVec.toNat))

/-- The answers to calls that come one after the other. -/
def session (t : T) : List (Request w) → Outcome (List Answer)
  | [] => pure []
  | r :: rs => do
    let served ← serve t r
    let answers ← session served.1 rs
    pure (served.2 :: answers)

end Tree

section Set

variable {w : ℕ}

/-- The same calls on a `std::set`. -/
def setServe (l : List ℕ) : Request w → List ℕ × Answer
  | .update (.insert k) => (sortedInsert k.toNat l, .updated)
  | .update (.erase k) => (l.erase k.toNat, .updated)
  | .contains k => (l, .truth (decide (k.toNat ∈ l)))
  | .empty => (l, .truth l.isEmpty)
  | .min => (l, .key l.head?)
  | .max => (l, .key l.getLast?)
  | .successor k => (l, .key l[upperBound l k.toNat]?)
  | .predecessor k => (l, .key (before l (lowerBound l k.toNat)))

def setSession (l : List ℕ) : List (Request w) → List Answer
  | [] => []
  | r :: rs => (setServe l r).2 :: setSession (setServe l r).1 rs

end Set

section Simulation

variable {T : Type} {w bits : ℕ} [VebNode T w] [LawfulVeb T bits] {t : T} {l : List ℕ}
  {r : Request w} {rs : List (Request w)}

/-- A well-formed node and the sorted list of its keys. -/
structure Represents (t : T) (l : List ℕ) : Prop where
  inv : LawfulVeb.Inv False t
  sorted : l.Pairwise (· < ·)
  keys : LawfulVeb.keys t = {n | n ∈ l}

theorem represents_fresh : Represents (VebNode.fresh : T) [] :=
  ⟨LawfulVeb.fresh_inv, List.Pairwise.nil, by simp [LawfulVeb.keys_fresh]⟩

theorem Represents.step (h : Represents t l) {o : Op w} (ho : o.key.toNat < 2 ^ bits) :
    (step t o).Returns fun t' => Represents t' (setServe l (.update o)).1 := by
  refine (step_spec h.inv ho).mono ?_
  rintro t' ⟨hinv, hkeys⟩
  rw [h.keys] at hkeys
  cases o with
  | insert k =>
    refine ⟨hinv, pairwise_sortedInsert h.sorted, hkeys.trans (Set.ext fun n => ?_)⟩
    exact mem_sortedInsert.symm
  | erase k =>
    refine ⟨hinv, h.sorted.sublist List.erase_sublist, hkeys.trans (Set.ext fun n => ?_)⟩
    have hnodup : l.Nodup := h.sorted.imp ne_of_lt
    exact and_comm.trans hnodup.mem_erase_iff.symm

/-- One call keeps the two together, and they answer it alike. -/
theorem Represents.serve (h : Represents t l) (hr : ∀ k ∈ r.keys, k.toNat < 2 ^ bits) :
    (serve t r).Returns fun p => Represents p.1 (setServe l r).1 ∧ p.2 = (setServe l r).2 := by
  have hkeys := h.keys
  cases r with
  | update o =>
    have ho := hr o.key (List.mem_singleton_self _)
    refine (h.step ho).bind fun t' ht' => returns_pure.mpr ⟨ht', ?_⟩
    cases o <;> rfl
  | contains k =>
    have hk := hr k (List.mem_singleton_self _)
    refine (LawfulVeb.contains_spec h.inv hk).bind fun b hb => returns_pure.mpr ⟨h, ?_⟩
    rw [hkeys] at hb
    rw [setServe, Bool.eq_iff_iff.mpr (hb.trans (decide_eq_true_iff.symm))]
    rfl
  | empty =>
    refine returns_pure.mpr ⟨h, congrArg Answer.truth (Bool.eq_iff_iff.mpr ?_)⟩
    rw [LawfulVeb.empty_spec h.inv, hkeys, List.isEmpty_iff, List.eq_nil_iff_forall_not_mem]
    exact Set.eq_empty_iff_forall_notMem
  | min =>
    refine (LawfulVeb.min_spec h.inv).bind fun x hx => returns_pure.mpr ⟨h, ?_⟩
    rw [hkeys] at hx
    exact congrArg Answer.key (hx.unique (isFirst_head h.sorted))
  | max =>
    refine (LawfulVeb.max_spec h.inv).bind fun x hx => returns_pure.mpr ⟨h, ?_⟩
    rw [hkeys] at hx
    exact congrArg Answer.key (hx.unique (isLast_getLast h.sorted))
  | successor k =>
    have hk := hr k (List.mem_singleton_self _)
    refine (LawfulVeb.successor_spec h.inv hk).bind fun x hx => returns_pure.mpr ⟨h, ?_⟩
    rw [hkeys] at hx
    exact congrArg Answer.key (hx.unique (isFirst_upperBound h.sorted _))
  | predecessor k =>
    have hk := hr k (List.mem_singleton_self _)
    refine (LawfulVeb.predecessor_spec h.inv hk).bind fun x hx => returns_pure.mpr ⟨h, ?_⟩
    rw [hkeys] at hx
    exact congrArg Answer.key (hx.unique (isLast_lowerBound h.sorted _))

theorem Represents.session (h : Represents t l)
    (hrs : ∀ r ∈ rs, ∀ k ∈ r.keys, k.toNat < 2 ^ bits) :
    session t rs = pure (setSession l rs) := by
  induction rs generalizing t l with
  | nil => rfl
  | cons r rs ih =>
    obtain ⟨hr, hrs⟩ := List.forall_mem_cons.mp hrs
    obtain ⟨p, hp, hrep, hanswer⟩ := h.serve hr
    rw [ParvEB.session, hp, pure_bind, ih hrep hrs, pure_bind, hanswer, setSession]

end Simulation

section Runs

variable (M : ℕ → Type → Type) [FlatMap M] (T : Tree)

/-- Updates and queries in any order: each of the trees gives the answers of an ordered set. -/
theorem session_eq_setSession {rs : List (Request T.width)}
    (hrs : ∀ r ∈ rs, ∀ k ∈ r.keys, k ≤ T.maxKey) :
    session (VebNode.fresh : T.State M) rs = pure (setSession [] rs) :=
  represents_fresh.session fun r hr k hk => Tree.le_maxKey.mp (hrs r hr k hk)

theorem session_eq_setSession_of_some_calls :
    session (VebNode.fresh : Tree.veb48.State FunMap)
        [.update (.insert 7), .update (.insert 0x1000000), .successor 7, .update (.erase 7),
          .predecessor 0x1000000, .min, .empty] =
      pure (setSession [] [.update (.insert (7 : BitVec 64)), .update (.insert 0x1000000),
        .successor 7, .update (.erase 7), .predecessor 0x1000000, .min, .empty]) :=
  session_eq_setSession FunMap .veb48 (by
    simp only [List.forall_mem_cons, List.not_mem_nil, Request.keys, Op.key, false_implies,
      implies_true, and_true]
    decide)

end Runs

end ParvEB
