import ParvEB.OrderedSet
import ParvEB.Traversal

/-! The benchmark: keys drawn bit by bit, and the assertions that compare a tree with a
`std::set`. -/
namespace ParvEB

section Sets

open Outcome

variable {K : Type} [LinearOrder K]

/-- `*it`. -/
def deref (data : List K) (it : ℕ) : Outcome K :=
  match data[it]? with
  | some k => pure k
  | none => .fault .outOfBounds

/-- `--it`. -/
def retreat : ℕ → Outcome ℕ
  | 0 => .fault .outOfBounds
  | it + 1 => pure it

/-- `it == data.end() || *it >= key`. -/
def reaches (data : List K) (it : ℕ) (key : K) : Outcome Bool :=
  if it = data.length then pure true
  else do
    let k ← deref data it
    pure (decide (key ≤ k))

def successorFromOrdered (data : List K) (key : K) : Outcome (Option K) :=
  let it := upperBound data key
  if it = data.length then pure none
  else do
    let k ← deref data it
    pure (some k)

def predecessorFromOrdered (data : List K) (key : K) : Outcome (Option K) :=
  if data.isEmpty then pure none
  else do
    let it := lowerBound data key
    if ← (if it = 0 then reaches data it key else pure false) then pure none
    else if ← reaches data it key then do
      let it ← retreat it
      let k ← deref data it
      pure (some k)
    else do
      let k ← deref data it
      pure (some k)

/-- The same body, for `std::set`. -/
def predecessorFromSet (data : List K) (key : K) : Outcome (Option K) :=
  predecessorFromOrdered data key

variable {data : List K}

theorem successorFromOrdered_eq (data : List K) (key : K) :
    successorFromOrdered data key = pure data[upperBound data key]? := by
  have hle : upperBound data key ≤ data.length := List.findIdx_le_length
  unfold successorFromOrdered
  dsimp only
  by_cases hend : upperBound data key = data.length
  · rw [if_pos hend, List.getElem?_eq_none hend.ge]
  · have hlt : upperBound data key < data.length := by omega
    rw [if_neg hend, deref, List.getElem?_eq_getElem hlt]
    rfl

/-- A lower bound is the end or at a key that is not below. -/
theorem reaches_lowerBound (data : List K) (key : K) :
    reaches data (lowerBound data key) key = pure true := by
  have hle : lowerBound data key ≤ data.length := List.findIdx_le_length
  unfold reaches
  by_cases hend : lowerBound data key = data.length
  · rw [if_pos hend]
  · have hlt : lowerBound data key < data.length := by omega
    have hkey : decide (key ≤ data[lowerBound data key]) = true := List.findIdx_getElem (w := hlt)
    rw [if_neg hend, deref, List.getElem?_eq_getElem hlt]
    simp [hkey]

theorem predecessorFromOrdered_eq (data : List K) (key : K) :
    predecessorFromOrdered data key = pure (before data (lowerBound data key)) := by
  have hle : lowerBound data key ≤ data.length := List.findIdx_le_length
  have hreach := reaches_lowerBound data key
  unfold predecessorFromOrdered
  cases hdata : data.isEmpty with
  | true =>
    rw [List.isEmpty_iff] at hdata
    subst hdata
    rfl
  | false =>
    rw [if_neg (by simp)]
    cases hit : lowerBound data key with
    | zero =>
      rw [hit] at hreach
      simp [hreach, before]
    | succ i =>
      rw [hit] at hreach
      have hlt : i < data.length := by omega
      simp [hreach, before, retreat, deref, List.getElem?_eq_getElem hlt]

end Sets

section Sampler

variable {Rng : Type} {w : ℕ}

-- the outcome of `bit_distributions_[bit](rng)`, true with the probability of a zero
variable (coin : ℕ → Rng → Bool × Rng)

/-- The loop of `sample` from `bit` on. -/
def sampleFrom : ℕ → ℕ → BitVec w → Rng → BitVec w × Rng
  | 0, _, value, rng => (value, rng)
  | n + 1, bit, value, rng =>
    sampleFrom n (bit + 1) (if (coin bit rng).1 then value else value ||| (1#w <<< bit))
      (coin bit rng).2

/-- `DistributionSampler::sample`. -/
def sample (bitCount : ℕ) (rng : Rng) : BitVec w × Rng := sampleFrom coin bitCount 0 0 rng

/-- The keys to insert and the keys to query. -/
structure BenchmarkData (w : ℕ) where
  values : List (BitVec w)
  successorQueries : List (BitVec w)
  predecessorQueries : List (BitVec w)

/-- The loop "random data generation". -/
def generate (bitCount : ℕ) : ℕ → Rng → BenchmarkData w
  | 0, _ => ⟨[], [], []⟩
  | n + 1, rng =>
    let value := sample coin bitCount rng
    let successorQuery := sample coin bitCount value.2
    let predecessorQuery := sample coin bitCount successorQuery.2
    let rest := generate bitCount n predecessorQuery.2
    ⟨value.1 :: rest.values, successorQuery.1 :: rest.successorQueries,
      predecessorQuery.1 :: rest.predecessorQueries⟩

theorem shiftLeft_one_lt (w bit : ℕ) : (1#w <<< bit).toNat < 2 ^ (bit + 1) := by
  have hone : (1#w).toNat ≤ 1 := Nat.mod_le 1 (2 ^ w)
  have hpow : (2 : ℕ) ^ bit < 2 ^ (bit + 1) := Nat.pow_lt_pow_right (by omega) (by omega)
  have hmul : (1#w).toNat * 2 ^ bit ≤ 1 * 2 ^ bit := Nat.mul_le_mul_right _ hone
  rw [BitVec.toNat_shiftLeft, Nat.shiftLeft_eq]
  exact (Nat.mod_le _ _).trans_lt (by omega)

/-- Each step sets a bit above those that are set. -/
theorem sampleFrom_lt (n bit : ℕ) {value : BitVec w} (h : value.toNat < 2 ^ bit) (rng : Rng) :
    (sampleFrom coin n bit value rng).1.toNat < 2 ^ (bit + n) := by
  induction n generalizing bit value rng with
  | zero => exact h
  | succ n ih =>
    have hpow : (2 : ℕ) ^ bit < 2 ^ (bit + 1) := Nat.pow_lt_pow_right (by omega) (by omega)
    rw [sampleFrom, show bit + (n + 1) = bit + 1 + n by omega]
    refine ih (bit + 1) ?_ _
    split
    · exact h.trans hpow
    · rw [BitVec.toNat_or]
      exact Nat.or_lt_two_pow (h.trans hpow) (shiftLeft_one_lt w bit)

theorem sample_lt (bitCount : ℕ) (rng : Rng) :
    (sample coin bitCount rng : BitVec w × Rng).1.toNat < 2 ^ bitCount := by
  have h := sampleFrom_lt coin bitCount 0 (show (0 : BitVec w).toNat < 2 ^ 0 by simp) rng
  rwa [Nat.zero_add] at h

/-- Coins that ignore the generator decide the bits one by one. -/
theorem getLsbD_sampleFrom (f : ℕ → Bool) (n bit : ℕ) (value : BitVec w) (rng : Rng) (i : ℕ) :
    (sampleFrom (fun bit rng => (f bit, rng)) n bit value rng).1.getLsbD i =
      (value.getLsbD i || (decide (i < w ∧ bit ≤ i ∧ i < bit + n) && !f i)) := by
  induction n generalizing bit value with
  | zero => simp [sampleFrom, show ¬ (bit ≤ i ∧ i < bit) by omega]
  | succ n ih =>
    rw [sampleFrom, ih]
    by_cases hi : i = bit
    · subst hi
      cases hf : f i with
      | true => simp
      | false => by_cases hw : i < w <;> simp [hw]
    · have hsame : decide (i < w ∧ bit + 1 ≤ i ∧ i < bit + 1 + n) =
          decide (i < w ∧ bit ≤ i ∧ i < bit + (n + 1)) := by
        rw [decide_eq_decide]
        omega
      have hother : (1#w <<< bit).getLsbD i = false := by
        rw [BitVec.getLsbD_shiftLeft, BitVec.getLsbD_one]
        by_cases hlt : i < bit
        · simp [hlt]
        · simp [hlt, show ¬ i - bit = 0 by omega]
      rw [hsame]
      cases hf : f bit with
      | true => rfl
      | false =>
        have hvalue : (value ||| 1#w <<< bit).getLsbD i = value.getLsbD i := by
          rw [BitVec.getLsbD_or, hother, Bool.or_false]
        exact congrArg (· || _) hvalue

/-- Some fall of the coins draws a key exactly when it has no bit above those that are drawn. -/
theorem exists_sample_iff {bitCount : ℕ} (rng : Rng) {k : BitVec w} :
    (∃ coin : ℕ → Rng → Bool × Rng, (sample coin bitCount rng).1 = k) ↔
      k.toNat < 2 ^ bitCount := by
  constructor
  · rintro ⟨coin, rfl⟩
    exact sample_lt coin bitCount rng
  · intro hk
    refine ⟨fun bit rng => (!k.getLsbD bit, rng), BitVec.eq_of_getLsbD_eq fun i hi => ?_⟩
    rw [sample, getLsbD_sampleFrom, Bool.not_not]
    by_cases hbit : i < bitCount
    · simp [hi, hbit]
    · have hzero : k.getLsbD i = false :=
        Nat.testBit_lt_two_pow (hk.trans_le (Nat.pow_le_pow_right (by omega) (not_lt.mp hbit)))
      simp [hbit, hzero]

/-- Every key of the data is one of the universe. -/
structure BenchmarkData.InRange (bitCount : ℕ) (data : BenchmarkData w) : Prop where
  values : ∀ k ∈ data.values, k.toNat < 2 ^ bitCount
  successorQueries : ∀ k ∈ data.successorQueries, k.toNat < 2 ^ bitCount
  predecessorQueries : ∀ k ∈ data.predecessorQueries, k.toNat < 2 ^ bitCount

theorem generate_inRange (bitCount n : ℕ) (rng : Rng) :
    (generate coin bitCount n rng : BenchmarkData w).InRange bitCount := by
  induction n generalizing rng with
  | zero =>
    exact ⟨fun _ h => absurd h List.not_mem_nil, fun _ h => absurd h List.not_mem_nil,
      fun _ h => absurd h List.not_mem_nil⟩
  | succ n ih =>
    have hrest := ih (sample coin bitCount (sample coin bitCount
      (sample coin bitCount rng : BitVec w × Rng).2 : BitVec w × Rng).2 : BitVec w × Rng).2
    exact ⟨List.forall_mem_cons.mpr ⟨sample_lt .., hrest.values⟩,
      List.forall_mem_cons.mpr ⟨sample_lt .., hrest.successorQueries⟩,
      List.forall_mem_cons.mpr ⟨sample_lt .., hrest.predecessorQueries⟩⟩

theorem generate_length (bitCount n : ℕ) (rng : Rng) :
    (generate coin bitCount n rng : BenchmarkData w).successorQueries.length = n ∧
      (generate coin bitCount n rng : BenchmarkData w).predecessorQueries.length = n := by
  induction n generalizing rng with
  | zero => exact ⟨rfl, rfl⟩
  | succ n ih => exact ⟨congrArg (· + 1) (ih _).1, congrArg (· + 1) (ih _).2⟩

end Sampler

/-- What `std::vector` throws when it is asked for more elements than it can ever hold. Memory for
as many as it can hold is there to spare. -/
inductive LengthError
  | lengthError
  deriving DecidableEq

/-- `max_size()` of `std::vector<Key>` and of `std::vector<std::optional<Key>>`. -/
structure VectorLimits where
  keys : ℕ
  optionals : ℕ

/-- Vectors of both types can hold `n` elements. -/
def VectorLimits.Hold (limits : VectorLimits) (n : ℕ) : Prop :=
  n ≤ limits.keys ∧ n ≤ limits.optionals

instance (limits : VectorLimits) (n : ℕ) : Decidable (limits.Hold n) :=
  inferInstanceAs (Decidable (_ ∧ _))

/-- `reserve(n)`, or the construction with `n` elements. -/
def reserve (maxSize n : ℕ) : ExceptT LengthError Outcome Unit :=
  if maxSize < n then throw .lengthError else pure ()

/-- Whether each assertion about the tree, and the sorting of the set, holds, in the order of the
source. -/
structure BenchmarkChecks where
  stdSorted : Bool
  vebSorted : Bool
  sameSorted : Bool
  sameSuccessors : Bool
  samePredecessors : Bool
  deriving DecidableEq

section Harness

variable (M : ℕ → Type → Type) [FlatMap M] (T : Tree) (limits : VectorLimits) {Rng : Type}
  (coin : ℕ → Rng → Bool × Rng)

/-- One result for each query, in a vector of its own. The loops that fill the expected results from
the set do the same. -/
def collectQueries {α : Type} (queries : List (BitVec T.width)) (fn : BitVec T.width → Outcome α) :
    ExceptT LengthError Outcome (List α) := do
  reserve limits.optionals queries.length
  ExceptT.lift (queries.mapM fn)

/-- `run_benchmark_for_tree` up to the other ordered sets. Keys of the `std::set` are numbers. -/
def runBenchmarkOn (data : BenchmarkData T.width) :
    ExceptT LengthError Outcome BenchmarkChecks := do
  let stdSet := (data.values.map BitVec.toNat).foldl (fun set k => sortedInsert k set) []
  let expectedSuccessors ← collectQueries T limits data.successorQueries fun key =>
    successorFromOrdered stdSet key.toNat
  let expectedPredecessors ← collectQueries T limits data.predecessorQueries fun key =>
    predecessorFromSet stdSet key.toNat
  let tree ← ExceptT.lift (run (VebNode.fresh : T.State M) (data.values.map .insert))
  let vebSorted ← ExceptT.lift (toVector tree)
  let vebSuccessors ← collectQueries T limits data.successorQueries (VebNode.successor tree)
  let vebPredecessors ← collectQueries T limits data.predecessorQueries (VebNode.predecessor tree)
  pure {
    stdSorted := decide (stdSet.IsChain (· ≤ ·))
    vebSorted := decide ((vebSorted.map BitVec.toNat).IsChain (· ≤ ·))
    sameSorted := decide (vebSorted.map BitVec.toNat = stdSet)
    sameSuccessors := decide (vebSuccessors.map (·.map BitVec.toNat) = expectedSuccessors)
    samePredecessors := decide (vebPredecessors.map (·.map BitVec.toNat) = expectedPredecessors) }

def runBenchmarkForTree (numInserts : ℕ) (rng : Rng) :
    ExceptT LengthError Outcome BenchmarkChecks := do
  -- `values`, `successor_queries` and `predecessor_queries`
  reserve limits.keys numInserts
  reserve limits.keys numInserts
  reserve limits.keys numInserts
  runBenchmarkOn M T limits (generate coin T.bits numInserts rng)

end Harness

section Vectors

variable {T : Tree} {limits : VectorLimits} {maxSize n : ℕ} {α β : Type}

theorem reserve_of_le (h : n ≤ maxSize) : reserve maxSize n = pure () := if_neg (not_lt.mpr h)

theorem run_reserve_of_lt (h : maxSize < n) (f : Unit → ExceptT LengthError Outcome β) :
    (reserve maxSize n >>= f).run = pure (.error .lengthError) := by
  rw [reserve, if_pos h]
  rfl

variable {queries : List (BitVec T.width)} {fn : BitVec T.width → Outcome α}
  (f : List α → ExceptT LengthError Outcome β)

theorem run_collectQueries_of_le (h : queries.length ≤ limits.optionals) :
    (collectQueries T limits queries fn >>= f).run = queries.mapM fn >>= fun l => (f l).run := by
  rw [collectQueries, reserve_of_le h, pure_bind]
  exact ExceptT.run_bind_lift _ _

theorem run_collectQueries_of_lt (h : limits.optionals < queries.length) :
    (collectQueries T limits queries fn >>= f).run = pure (.error .lengthError) := by
  rw [collectQueries, bind_assoc]
  exact run_reserve_of_lt h _

end Vectors

section Agreement

open Outcome

/-- Results that are each as expected are as expected together. -/
theorem mapM_returns {α β γ : Type} {f : α → Outcome β} {g : α → γ} {h : β → γ} {l : List α}
    (hf : ∀ a ∈ l, (f a).Returns fun b => h b = g a) :
    (l.mapM f).Returns fun bs => bs.map h = l.map g := by
  induction l with
  | nil => exact returns_pure.mpr rfl
  | cons a l ih =>
    obtain ⟨ha, hl⟩ := List.forall_mem_cons.mp hf
    rw [List.mapM_cons]
    refine ha.bind fun b hb => (ih hl).bind fun bs hbs => returns_pure.mpr ?_
    rw [List.map_cons, List.map_cons, hb, hbs]

variable {M : ℕ → Type → Type} [FlatMap M] {T : Tree} {lax : Prop} {t : T.State M} {set : List ℕ}

/-- The tree's order queries give what the set gives. -/
theorem successor_agrees (h : LawfulVeb.Inv lax t) (hset : set.Pairwise (· < ·))
    (hkeys : ∀ n, n ∈ LawfulVeb.keys t ↔ n ∈ set) {key : BitVec T.width}
    (hkey : key.toNat < 2 ^ T.bits) :
    (VebNode.successor t key).Returns fun r =>
      r.map BitVec.toNat = set[upperBound set key.toNat]? := by
  refine (LawfulVeb.successor_spec h hkey).mono fun r hr => ?_
  rw [show LawfulVeb.keys t = {n | n ∈ set} from Set.ext hkeys] at hr
  exact hr.unique (isFirst_upperBound hset _)

theorem predecessor_agrees (h : LawfulVeb.Inv lax t) (hset : set.Pairwise (· < ·))
    (hkeys : ∀ n, n ∈ LawfulVeb.keys t ↔ n ∈ set) {key : BitVec T.width}
    (hkey : key.toNat < 2 ^ T.bits) :
    (VebNode.predecessor t key).Returns fun r =>
      r.map BitVec.toNat = before set (lowerBound set key.toNat) := by
  refine (LawfulVeb.predecessor_spec h hkey).mono fun r hr => ?_
  rw [show LawfulVeb.keys t = {n | n ∈ set} from Set.ext hkeys] at hr
  exact hr.unique (isLast_lowerBound hset _)

/-- `to_vector` gives what the set gives when every prefix fits, and only then. -/
theorem toVector_agrees_iff (h : LawfulVeb.Inv lax t) (hset : set.Pairwise (· < ·))
    (hkeys : ∀ n, n ∈ LawfulVeb.keys t ↔ n ∈ set) :
    (toVector t).Returns fun l => l.map BitVec.toNat = set ↔ T.PrefixFits t := by
  have hzero : (0 : BitVec T.width).toNat = 0 := by simp
  obtain ⟨l, hl, hlt, hfits, hloses⟩ :=
    LawfulTraversal.forEach_spec h (show (0 : BitVec T.width).toNat % 2 ^ T.bits = 0 by simp)
  rw [← LawfulTraversal.forEachAll_eq] at hl
  rw [hzero] at hlt hfits hloses
  refine ⟨l.map (BitVec.ofNat T.width), by rw [toVector, hl, pure_bind], ?_⟩
  have hback : (l.map (BitVec.ofNat T.width)).map BitVec.toNat = l := by
    rw [List.map_map]
    refine (List.map_congr_left fun y hy => ?_).trans (List.map_id l)
    have hle : 2 ^ T.bits ≤ 2 ^ T.width := Nat.pow_le_pow_right (by omega) T.bits_le
    have hy' := hlt y hy
    exact (BitVec.toNat_ofNat y T.width).trans (Nat.mod_eq_of_lt (by omega))
  change (l.map (BitVec.ofNat T.width)).map BitVec.toNat = set ↔ _
  rw [hback, ← Tree.fits_iff]
  constructor
  · rintro rfl
    by_contra hnot
    obtain ⟨x, hx, hlost, _⟩ := hloses hnot
    exact hlost ((Nat.zero_add x).symm ▸ (hkeys x).mp hx)
  · intro hfit
    obtain ⟨hsorted, hmem⟩ := hfits hfit
    refine eq_of_pairwise_lt hsorted hset fun y => ?_
    rw [hmem, ← hkeys]
    constructor
    · rintro ⟨x, hx, rfl⟩
      rwa [Nat.zero_add]
    · exact fun hy => ⟨y, hy, (Nat.zero_add y).symm⟩

/-- Every assertion about order queries holds, and the tree lists what the set lists when every
prefix of its traversal fits, and only then. -/
def BenchmarkChecks.Agree (M : ℕ → Type → Type) [FlatMap M] (T : Tree)
    (values : List (BitVec T.width)) (c : BenchmarkChecks) : Prop :=
  c.stdSorted = true ∧ c.sameSuccessors = true ∧ c.samePredecessors = true ∧
    (c.sameSorted = true → c.vebSorted = true) ∧
    ∃ t, run (VebNode.fresh : T.State M) (values.map .insert) = pure t ∧
      (c.sameSorted = true ↔ T.PrefixFits t)

variable {limits : VectorLimits}

theorem runBenchmarkOn_spec {data : BenchmarkData T.width} (h : data.InRange T.bits)
    (hs : data.successorQueries.length ≤ limits.optionals)
    (hp : data.predecessorQueries.length ≤ limits.optionals) :
    (runBenchmarkOn M T limits data).run.Returns fun r =>
      ∃ c, r = .ok c ∧ c.Agree M T data.values := by
  obtain ⟨hsorted, hmem⟩ :=
    foldl_sortedInsert (l := []) List.Pairwise.nil (data.values.map BitVec.toNat)
  unfold runBenchmarkOn
  dsimp only
  generalize (data.values.map BitVec.toNat).foldl (fun set k => sortedInsert k set) [] = set
    at hsorted hmem ⊢
  have hchain : set.IsChain (· ≤ ·) := (hsorted.imp le_of_lt).isChain
  rw [run_collectQueries_of_le _ hs]
  refine (mapM_returns (g := fun key : BitVec T.width => set[upperBound set key.toNat]?) (h := id)
    fun key _ => ⟨_, successorFromOrdered_eq set _, rfl⟩).bind fun expectedSuccessors hes => ?_
  rw [run_collectQueries_of_le _ hp]
  refine (mapM_returns (g := fun key : BitVec T.width => before set (lowerBound set key.toNat))
    (h := id) fun key _ => ⟨_, predecessorFromOrdered_eq set _, rfl⟩).bind
      fun expectedPredecessors hep => ?_
  rw [List.map_id] at hes hep
  obtain ⟨t, ht, hinv, hkeys⟩ :=
    Tree.run_insertions (M := M) fun k hk => Tree.le_maxKey.mpr (h.values k hk)
  rw [ExceptT.run_bind_lift, ht, pure_bind, ExceptT.run_bind_lift]
  have hset : ∀ n, n ∈ LawfulVeb.keys t ↔ n ∈ set := by
    intro n
    rw [hkeys, hmem]
    simp
  refine (toVector_agrees_iff hinv hsorted hset).bind fun vebSorted hveb => ?_
  rw [run_collectQueries_of_le _ hs]
  refine (mapM_returns fun key hkey => successor_agrees hinv hsorted hset
    (h.successorQueries key hkey)).bind fun vebSuccessors hvs => ?_
  rw [run_collectQueries_of_le _ hp]
  refine (mapM_returns fun key hkey => predecessor_agrees hinv hsorted hset
    (h.predecessorQueries key hkey)).bind fun vebPredecessors hvp => ?_
  refine returns_pure.mpr ⟨_, rfl, decide_eq_true hchain, decide_eq_true (hvs.trans hes.symm),
    decide_eq_true (hvp.trans hep.symm), fun hsame => ?_, t, ht, ?_⟩
  · rw [decide_eq_true_iff] at hsame ⊢
    rwa [hsame]
  · rw [decide_eq_true_iff]
    exact hveb

end Agreement

section Harness

variable (M : ℕ → Type → Type) [FlatMap M] (T : Tree) {limits : VectorLimits} {Rng : Type}
  (coin : ℕ → Rng → Bool × Rng) {n : ℕ} (rng : Rng)

theorem runBenchmarkForTree_of_hold (h : limits.Hold n) :
    (runBenchmarkForTree M T limits coin n rng).run.Returns fun r =>
      ∃ c, r = .ok c ∧ c.Agree M T (generate coin T.bits n rng).values := by
  obtain ⟨hs, hp⟩ := generate_length (w := T.width) coin T.bits n rng
  rw [runBenchmarkForTree, reserve_of_le h.1, pure_bind, pure_bind, pure_bind]
  exact runBenchmarkOn_spec (generate_inRange coin T.bits n rng) (hs.trans_le h.2) (hp.trans_le h.2)

/-- The keys are not drawn, or no expected answer is stored. -/
theorem runBenchmarkForTree_of_not_hold (h : ¬ limits.Hold n) :
    (runBenchmarkForTree M T limits coin n rng).run = pure (.error .lengthError) := by
  have hs := (generate_length (w := T.width) coin T.bits n rng).1
  rw [runBenchmarkForTree]
  by_cases hkeys : n ≤ limits.keys
  · have hopt : limits.optionals < n := not_le.mp fun hopt => h ⟨hkeys, hopt⟩
    rw [reserve_of_le hkeys, pure_bind, pure_bind, pure_bind]
    exact run_collectQueries_of_lt _ (hs.symm ▸ hopt)
  · exact run_reserve_of_lt (not_le.mp hkeys) _

end Harness

/-- The keys that the sampler of a tree can draw are the keys of the tree. -/
theorem sampled_iff (T : Tree) {Rng : Type} (rng : Rng) (k : BitVec T.width) :
    (∃ coin : ℕ → Rng → Bool × Rng, (sample coin T.bits rng).1 = k) ↔ k ≤ T.maxKey := by
  rw [exists_sample_iff, Tree.le_maxKey]

end ParvEB
