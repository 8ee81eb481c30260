import ParvEB.Answers
import ParvEB.RunOptions

/-! The program `run_veb`: options, keys, trials. -/
namespace ParvEB

open Outcome

/-- What `min` and `max` gave after the insertions of a trial. -/
structure Trial (w : ℕ) where
  minKey : Option (BitVec w)
  maxKey : Option (BitVec w)
  deriving DecidableEq

/-- "Warning: tree is empty after insertions". -/
def Trial.warns {w : ℕ} (r : Trial w) : Bool := r.minKey.isNone || r.maxKey.isNone

/-- The trials that were run, and whether the counter overflowed after the last. -/
structure Trials (w : ℕ) where
  reports : List (Trial w)
  overflowed : Bool
  deriving DecidableEq

/-- `++trial` of an `int`, undefined at the largest one. -/
def increment (trial : ℤ) : Option ℤ := if trial + 1 < 2 ^ 31 then some (trial + 1) else none

/-- How `main` ends: with status 0 for `help` and `ran`, and else with 1. -/
inductive RunResult
  | help
  | rejected (e : Stop)
  | unsupported
  | ran (opts : RunOptions) (T : Tree) (trials : Trials T.width)
  deriving DecidableEq

section Program

variable (M : ℕ → Type → Type) [FlatMap M]

/-- The body of the loop of `run_trials`. -/
def runTrial (T : Tree) (keys : List (BitVec T.width)) : Outcome (Trial T.width) := do
  let tree ← run (VebNode.fresh : T.State M) (keys.map .insert)
  let minKey ← VebNode.min tree
  let maxKey ← VebNode.max tree
  pure ⟨minKey, maxKey⟩

def trialLoop (T : Tree) (keys : List (BitVec T.width)) (trials : ℤ) :
    ℕ → ℤ → Outcome (Trials T.width)
  | 0, _ => .fault .outOfFuel
  | fuel + 1, trial =>
    if trial ≤ trials then do
      let report ← runTrial M T keys
      match increment trial with
      | none => pure ⟨[report], true⟩
      | some next =>
        let rest ← trialLoop T keys trials fuel next
        pure ⟨report :: rest.reports, rest.overflowed⟩
    else pure ⟨[], false⟩

def runTrials (T : Tree) (trials : ℤ) (keys : List (BitVec T.width)) :
    Outcome (Trials T.width) :=
  trialLoop M T keys trials (trials.toNat + 1) 1

-- `std::mt19937_64`, and `std::uniform_int_distribution` over the keys of a tree
variable {Rng : Type} (seeded : ℕ → Rng) (dist : (T : Tree) → Rng → BitVec T.width × Rng)

def drawKeys (T : Tree) : ℕ → Rng → List (BitVec T.width)
  | 0, _ => []
  | n + 1, rng => (dist T rng).1 :: drawKeys T n (dist T rng).2

/-- One case of the switch in `main`. -/
def runBits (T : Tree) (opts : RunOptions) : Outcome RunResult := do
  let trials ← runTrials M T opts.trials (drawKeys dist T opts.numInserts (seeded opts.seed))
  pure (.ran opts T trials)

def runVeb (args : List (List Char)) : Outcome RunResult :=
  match RunOptions.parseOptions args with
  | .error .help => pure .help
  | .error e => pure (.rejected e)
  | .ok opts =>
    if opts.bits = 24 then runBits M seeded dist .veb24 opts
    else if opts.bits = 32 then runBits M seeded dist .veb32 opts
    else if opts.bits = 48 then runBits M seeded dist .veb48 opts
    else if opts.bits = 64 then runBits M seeded dist .veb64 opts
    else pure .unsupported

end Program

section Trials

variable {M : ℕ → Type → Type} [FlatMap M] {T : Tree} {keys : List (BitVec T.width)}
  {report : Trial T.width}

/-- A trial finds the ends of the keys, and warns only when there are none. -/
theorem runTrial_spec (hkeys : ∀ k ∈ keys, k ≤ T.maxKey) :
    (runTrial M T keys).Returns fun r =>
      Least (· ∈ keys) r.minKey ∧ Greatest (· ∈ keys) r.maxKey := by
  refine (Tree.run_insertions hkeys).bind ?_
  rintro t ⟨h, ht⟩
  have hdescribes : Describes (· ∈ keys) (LawfulVeb.keys t) := by
    refine ⟨fun k => ?_, (Tree.describes h).2⟩
    rw [ht, List.mem_map_of_injective fun _ _ => BitVec.eq_of_toNat_eq]
  refine (LawfulVeb.min_spec h).bind fun x hx => (LawfulVeb.max_spec h).bind fun y hy => ?_
  exact returns_pure.mpr ⟨hdescribes.least hx, hdescribes.greatest hy⟩

theorem not_warns (hne : keys ≠ []) (hmin : Least (· ∈ keys) report.minKey)
    (hmax : Greatest (· ∈ keys) report.maxKey) : report.warns = false := by
  obtain ⟨k, hk⟩ := List.exists_mem_of_ne_nil keys hne
  unfold Trial.warns
  cases hx : report.minKey with
  | none =>
    rw [hx] at hmin
    exact absurd hk (hmin k)
  | some x =>
    cases hy : report.maxKey with
    | none =>
      rw [hy] at hmax
      exact absurd hk (hmax k)
    | some y => rfl

/-- The loop runs the trials that are left, and then its counter overflows or does not. -/
theorem trialLoop_eq (hreport : runTrial M T keys = pure report) {trials : ℤ}
    (hint : trials < 2 ^ 31) (n : ℕ) (trial : ℤ) (hn : trials - trial + 1 = n) :
    trialLoop M T keys trials (n + 1) trial =
      pure ⟨List.replicate n report, decide (0 < n ∧ trials = 2 ^ 31 - 1)⟩ := by
  induction n generalizing trial with
  | zero =>
    rw [trialLoop, if_neg (by omega)]
    simp
  | succ n ih =>
    rw [trialLoop, if_pos (by omega), hreport, pure_bind]
    unfold increment
    by_cases hlast : trial + 1 < 2 ^ 31
    · rw [if_pos hlast]
      dsimp only
      rw [ih (trial + 1) (by omega), pure_bind]
      have hover : (0 < n ∧ trials = 2 ^ 31 - 1) ↔ 0 < n + 1 ∧ trials = 2 ^ 31 - 1 := by omega
      simp only [hover]
      rfl
    · rw [if_neg hlast]
      have hover : 0 < n + 1 ∧ trials = 2 ^ 31 - 1 := by omega
      obtain rfl : n = 0 := by omega
      simp [hover]

/-- What the trials of the keys should report. -/
structure ReportsOn {w : ℕ} (keys : List (BitVec w)) (trials : ℤ) (r : Trials w) : Prop where
  length : (r.reports.length : ℤ) = trials
  least : ∀ report ∈ r.reports, Least (· ∈ keys) report.minKey
  greatest : ∀ report ∈ r.reports, Greatest (· ∈ keys) report.maxKey
  silent : ∀ report ∈ r.reports, report.warns = false
  overflow : r.overflowed = true ↔ trials = 2 ^ 31 - 1

theorem runTrials_spec {trials : ℤ} (hkeys : ∀ k ∈ keys, k ≤ T.maxKey) (hne : keys ≠ [])
    (hpos : 0 < trials) (hint : trials < 2 ^ 31) :
    (runTrials M T trials keys).Returns (ReportsOn keys trials) := by
  obtain ⟨report, hreport, hmin, hmax⟩ := runTrial_spec (M := M) hkeys
  refine ⟨_, trialLoop_eq hreport hint trials.toNat 1 (by omega), ?_⟩
  have hall : ∀ r ∈ List.replicate trials.toNat report, r = report :=
    fun r hr => List.eq_of_mem_replicate hr
  constructor
  · rw [List.length_replicate]
    exact Int.toNat_of_nonneg hpos.le
  · intro r hr
    rwa [hall r hr]
  · intro r hr
    rwa [hall r hr]
  · intro r hr
    rw [hall r hr]
    exact not_warns hne hmin hmax
  · rw [decide_eq_true_iff]
    omega

end Trials

section Program

variable (M : ℕ → Type → Type) [FlatMap M] {Rng : Type} (seeded : ℕ → Rng)
  (dist : (T : Tree) → Rng → BitVec T.width × Rng)

theorem drawKeys_length (T : Tree) (n : ℕ) (rng : Rng) : (drawKeys dist T n rng).length = n := by
  induction n generalizing rng with
  | zero => rfl
  | succ n ih => rw [drawKeys, List.length_cons, ih]

variable (hdist : ∀ T rng, (dist T rng).1 ≤ T.maxKey)

include hdist

theorem drawKeys_le (T : Tree) (n : ℕ) (rng : Rng) : ∀ k ∈ drawKeys dist T n rng, k ≤ T.maxKey := by
  induction n generalizing rng with
  | zero => exact fun k hk => absurd hk List.not_mem_nil
  | succ n ih => exact List.forall_mem_cons.mpr ⟨hdist T rng, ih _⟩

theorem runBits_spec (T : Tree) {opts : RunOptions} (hw : opts.WellFormed) :
    (runBits M seeded dist T opts).Returns fun r => ∃ trials, r = .ran opts T trials ∧
      ReportsOn (drawKeys dist T opts.numInserts (seeded opts.seed)) opts.trials trials := by
  have hlength := drawKeys_length dist T opts.numInserts (seeded opts.seed)
  have hne : drawKeys dist T opts.numInserts (seeded opts.seed) ≠ [] := by
    intro hnil
    rw [hnil] at hlength
    exact hw.someInserts.1.ne hlength
  refine (runTrials_spec (drawKeys_le dist hdist T _ _) hne hw.someTrials hw.trials.2).bind ?_
  intro trials htrials
  exact returns_pure.mpr ⟨trials, rfl, htrials⟩

/-- `run_veb` has no fault on any command line: it prints its usage, or names what it rejects, or
runs every trial on a tree of the size asked for, none of which finds its tree empty. Only the most
trials there can be overflow its counter. -/
theorem runVeb_spec (args : List (List Char)) :
    (runVeb M seeded dist args).Returns fun r =>
      match RunOptions.parseOptions args with
      | .error .help => r = .help
      | .error e => r = .rejected e
      | .ok opts => ∃ T trials, T.bits = opts.bits ∧ r = .ran opts T trials ∧
        ReportsOn (drawKeys dist T opts.numInserts (seeded opts.seed)) opts.trials trials := by
  unfold runVeb
  cases hparse : RunOptions.parseOptions args with
  | error e => cases e <;> exact returns_pure.mpr rfl
  | ok opts =>
    obtain ⟨_, _, _, hw⟩ := (parseOptions_eq_ok_iff args opts).mp hparse
    have hrun := fun T => runBits_spec M seeded dist hdist T hw
    dsimp only
    rcases hw.bits with hb | hb | hb | hb
    · rw [if_pos hb]
      exact (hrun .veb24).mono fun r ⟨trials, hr, h⟩ => ⟨.veb24, trials, hb.symm, hr, h⟩
    · rw [if_neg (by omega), if_pos hb]
      exact (hrun .veb32).mono fun r ⟨trials, hr, h⟩ => ⟨.veb32, trials, hb.symm, hr, h⟩
    · rw [if_neg (by omega), if_neg (by omega), if_pos hb]
      exact (hrun .veb48).mono fun r ⟨trials, hr, h⟩ => ⟨.veb48, trials, hb.symm, hr, h⟩
    · rw [if_neg (by omega), if_neg (by omega), if_neg (by omega), if_pos hb]
      exact (hrun .veb64).mono fun r ⟨trials, hr, h⟩ => ⟨.veb64, trials, hb.symm, hr, h⟩

end Program

/-- A generator that counts. -/
def nextKey (T : Tree) (rng : ℕ) : BitVec T.width × ℕ :=
  (BitVec.ofNat T.width (rng % 2 ^ T.bits), rng + 1)

theorem nextKey_le (T : Tree) (rng : ℕ) : (nextKey T rng).1 ≤ T.maxKey := by
  rw [Tree.le_maxKey, nextKey, BitVec.toNat_ofNat]
  exact (Nat.mod_le _ _).trans_lt (Nat.mod_lt _ (pow_pos_two _))

theorem runVeb_spec_of_arguments :
    (runVeb FunMap id nextKey ["--bits=24".toList, "--num_inserts=3".toList]).Returns fun r =>
      match RunOptions.parseOptions ["--bits=24".toList, "--num_inserts=3".toList] with
      | .error .help => r = .help
      | .error e => r = .rejected e
      | .ok opts => ∃ T trials, T.bits = opts.bits ∧ r = .ran opts T trials ∧
        ReportsOn (drawKeys nextKey T opts.numInserts (id opts.seed)) opts.trials trials :=
  runVeb_spec FunMap id nextKey nextKey_le _

end ParvEB
