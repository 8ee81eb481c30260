import ParvEB.Benchmark
import ParvEB.Exactness
import ParvEB.RunOptions

/-! The program `veb_benchmark`: its options, and what it asserts. -/
namespace ParvEB

inductive DistributionKind
  | uniform
  | exponential
  | zipfian
  deriving DecidableEq

inductive KeyMode
  | bits24
  | bits32
  | bits48
  | bits64
  deriving DecidableEq

/-- `double` and its literal 1.0 are left open. -/
structure BenchmarkOptions (Double : Type) [One Double] where
  distribution : DistributionKind := .uniform
  skew : Double := 1
  numInserts : ℕ := 10000000
  keyMode : KeyMode := .bits48

/-- Why `parse_options` does not return: it exits with 0 after `--help`, it prints a message and
exits with 1, or nobody catches what `stod` or `stoull` throws. -/
inductive BenchmarkStop
  | help
  | usage (what : List Char)
  | uncaught (e : ConversionError)
  deriving DecidableEq

def parseDistribution (value : List Char) : Except (List Char) DistributionKind :=
  if value = "uniform".toList then pure .uniform
  else if value = "exponential".toList then pure .exponential
  else if value = "zipfian".toList then pure .zipfian
  else throw ("unknown distribution: ".toList ++ value)

def parseKeyMode (value : List Char) : Except (List Char) KeyMode :=
  if value = "24".toList then pure .bits24
  else if value = "32".toList then pure .bits32
  else if value = "48".toList then pure .bits48
  else if value = "64".toList then pure .bits64
  else throw ("unknown bit width: ".toList ++ value)

namespace BenchmarkOptions

variable {Double : Type} [One Double] (stod : List Char → Except ConversionError Double)

/-- The assignment that an argument asks for. -/
inductive Setting (Double : Type)
  | distribution (kind : DistributionKind)
  | skew (x : Double)
  | numInserts (n : ℕ)
  | keyMode (mode : KeyMode)

def act (opts : BenchmarkOptions Double) : Setting Double → BenchmarkOptions Double
  | .distribution kind => { opts with distribution := kind }
  | .skew x => { opts with skew := x }
  | .numInserts n => { opts with numInserts := n }
  | .keyMode mode => { opts with keyMode := mode }

/-- The branches of the loop of `parse_options`. None of them reads the options. -/
def readSetting (arg : List Char) : Except BenchmarkStop (Setting Double) :=
  if arg = "--help".toList ∨ arg = "-h".toList then throw .help
  else if let some value := valueOf "--distribution=" arg then
    ((parseDistribution value).mapError .usage).map .distribution
  else if let some value := valueOf "--skew=" arg then
    ((stod value).mapError .uncaught).map .skew
  else if let some value := valueOf "--num_inserts=" arg then
    ((stoull value).mapError .uncaught).map .numInserts
  else if let some value := valueOf "--bits=" arg then
    ((parseKeyMode value).mapError .usage).map .keyMode
  else throw (.usage ("Unknown argument: ".toList ++ arg))

/-- The body of the loop: the branch that the argument takes, and the assignment at its end. -/
def parseArgument (opts : BenchmarkOptions Double) (arg : List Char) :
    Except BenchmarkStop (BenchmarkOptions Double) :=
  (readSetting stod arg).map opts.act

/-- The end of `parse_options`. -/
def atLeastOne (opts : BenchmarkOptions Double) : BenchmarkOptions Double :=
  if opts.numInserts = 0 then { opts with numInserts := 1 } else opts

def parseOptions (args : List (List Char)) : Except BenchmarkStop (BenchmarkOptions Double) := do
  let opts ← args.foldlM (parseArgument stod) {}
  pure opts.atLeastOne

theorem separates : Separates (parseArgument stod) (readSetting stod) act := fun _ _ => rfl

def Setting.distribution? : Setting Double → Option DistributionKind
  | .distribution kind => some kind
  | _ => none

def Setting.skew? : Setting Double → Option Double
  | .skew x => some x
  | _ => none

def Setting.numInserts? : Setting Double → Option ℕ
  | .numInserts n => some n
  | _ => none

def Setting.keyMode? : Setting Double → Option KeyMode
  | .keyMode mode => some mode
  | _ => none

/-- Each option as its last setting says, or its default, but never no insertions. -/
def ofSettings (ss : List (Setting Double)) : BenchmarkOptions Double where
  distribution := lastOf Setting.distribution? ss .uniform
  skew := lastOf Setting.skew? ss 1
  numInserts := max 1 (lastOf Setting.numInserts? ss 10000000)
  keyMode := lastOf Setting.keyMode? ss .bits48

theorem atLeastOne_foldl (ss : List (Setting Double)) :
    (ss.foldl act {}).atLeastOne = ofSettings ss := by
  have hkind := foldl_field act BenchmarkOptions.distribution Setting.distribution?
    (fun _ t => by cases t <;> rfl) ss ({} : BenchmarkOptions Double)
  have hskew := foldl_field act BenchmarkOptions.skew Setting.skew?
    (fun _ t => by cases t <;> rfl) ss ({} : BenchmarkOptions Double)
  have hnum := foldl_field act BenchmarkOptions.numInserts Setting.numInserts?
    (fun _ t => by cases t <;> rfl) ss ({} : BenchmarkOptions Double)
  have hmode := foldl_field act BenchmarkOptions.keyMode Setting.keyMode?
    (fun _ t => by cases t <;> rfl) ss ({} : BenchmarkOptions Double)
  rw [ofSettings, ← hkind, ← hskew, ← hnum, ← hmode, atLeastOne]
  split
  next hzero => rw [hzero, Nat.max_eq_left (by omega)]
  next hpos => rw [Nat.max_eq_right (by omega)]

/-- The settings that `args` are, one for each argument. -/
def AreSettings (args : List (List Char)) (ss : List (Setting Double)) : Prop :=
  List.Forall₂ (fun arg s => readSetting stod arg = .ok s) args ss

theorem numInserts_pos {args : List (List Char)} {opts : BenchmarkOptions Double}
    (h : parseOptions stod args = .ok opts) : 0 < opts.numInserts := by
  unfold parseOptions at h
  cases hloop : args.foldlM (parseArgument stod) ({} : BenchmarkOptions Double) with
  | error e =>
    rw [hloop] at h
    cases h
  | ok opts' =>
    rw [hloop] at h
    cases h
    unfold atLeastOne
    split
    · exact Nat.one_pos
    · omega

end BenchmarkOptions

section CommandLines

open BenchmarkOptions

variable {Double : Type} [One Double] (stod : List Char → Except ConversionError Double)

end CommandLines

def KeyMode.tree : KeyMode → Tree
  | .bits24 => .veb24
  | .bits32 => .veb32
  | .bits48 => .veb48
  | .bits64 => .veb64

/-- How `main` ends. Nobody catches a length error. -/
inductive BenchmarkResult
  | stopped (e : BenchmarkStop)
  | uncaught (e : LengthError)
  | ran (T : Tree) (checks : BenchmarkChecks)
  deriving DecidableEq

section Program

open Outcome

variable (M : ℕ → Type → Type) [FlatMap M] {Double Rng : Type} [One Double]
  (stod : List Char → Except ConversionError Double) (limits : Tree → VectorLimits)

-- the bits that a `DistributionSampler` of this kind and skew draws, and `std::random_device`
variable (coin : DistributionKind → Double → ℕ → Rng → Bool × Rng) (seeded : Rng)

def vebBenchmark (args : List (List Char)) : Outcome BenchmarkResult :=
  match BenchmarkOptions.parseOptions stod args with
  | .error e => pure (.stopped e)
  | .ok opts => do
    let result ← (runBenchmarkForTree M opts.keyMode.tree (limits opts.keyMode.tree)
      (coin opts.distribution opts.skew) opts.numInserts seeded).run
    match result with
    | .error e => pure (.uncaught e)
    | .ok checks => pure (.ran opts.keyMode.tree checks)

/-- The keys that the program inserts. -/
def drawnKeys (opts : BenchmarkOptions Double) : List ℕ :=
  (generate (coin opts.distribution opts.skew) opts.keyMode.tree.bits opts.numInserts seeded :
    BenchmarkData opts.keyMode.tree.width).values.map BitVec.toNat

end Program

end ParvEB
