import ParvEB.CommandLine
import ParvEB.Decimal

/-! The options of `run_veb`, and the command lines that give them. -/
namespace ParvEB

structure RunOptions where
  numInserts : ℕ := 10000000
  trials : ℤ := 5
  seed : ℕ := 0
  bits : ℕ := 48
  deriving DecidableEq

/-- Why `parse_options` does not return: it exits after `--help`, or it throws. -/
inductive Stop
  | help
  | invalidArgument (what : List Char)
  | conversion (e : ConversionError)
  deriving DecidableEq

/-- What follows `name` in an argument that starts with it. -/
def valueOf (name : String) (arg : List Char) : Option (List Char) :=
  if name.toList.isPrefixOf arg then some (arg.drop name.toList.length) else none

def convert {α : Type} (x : Except ConversionError α) : Except Stop α := x.mapError .conversion

namespace RunOptions

/-- The assignment that an argument asks for. -/
inductive Setting
  | numInserts (n : ℕ)
  | trials (n : ℤ)
  | seed (n : ℕ)
  | bits (n : ℕ)
  deriving DecidableEq

def act (opts : RunOptions) : Setting → RunOptions
  | .numInserts n => { opts with numInserts := n }
  | .trials n => { opts with trials := n }
  | .seed n => { opts with seed := n }
  | .bits n => { opts with bits := n }

/-- The branches of the loop of `parse_options`. None of them reads the options. -/
def readSetting (arg : List Char) : Except Stop Setting :=
  if arg = "--help".toList ∨ arg = "-h".toList then throw .help
  else if let some value := valueOf "--num_inserts=" arg then
    (convert (stoull value)).map .numInserts
  else if let some value := valueOf "--trials=" arg then (convert (stoi value)).map .trials
  else if let some value := valueOf "--seed=" arg then (convert (stoull value)).map .seed
  else if let some value := valueOf "--bits=" arg then
    if value = "24".toList then pure (.bits 24)
    else if value = "32".toList then pure (.bits 32)
    else if value = "48".toList then pure (.bits 48)
    else if value = "64".toList then pure (.bits 64)
    else throw (.invalidArgument "bits must be 48 or 64".toList)
  else throw (.invalidArgument ("Unknown argument: ".toList ++ arg))

/-- The body of the loop: the branch that the argument takes, and the assignment at its end. -/
def parseArgument (opts : RunOptions) (arg : List Char) : Except Stop RunOptions :=
  (readSetting arg).map opts.act

/-- The checks after the loop. `std::size_t` has 64 bits. -/
def check (opts : RunOptions) : Except Stop RunOptions :=
  if opts.trials ≤ 0 then throw (.invalidArgument "trials must be positive".toList)
  else if opts.numInserts = 0 then
    throw (.invalidArgument "num_inserts must be positive".toList)
  else if 2 ^ 64 - 1 < opts.numInserts then
    throw (.invalidArgument "num_inserts exceeds available memory on this platform".toList)
  else if 2 ^ 32 - 1 < opts.numInserts then
    throw (.invalidArgument "num_inserts must fit in 32-bit buffer".toList)
  else if opts.bits ≠ 24 ∧ opts.bits ≠ 32 ∧ opts.bits ≠ 48 ∧ opts.bits ≠ 64 then
    throw (.invalidArgument "bits must be 24, 32, 48 or 64".toList)
  else pure opts

/-- `args` is `argv` without the name of the program. -/
def parseOptions (args : List (List Char)) : Except Stop RunOptions := do
  let opts ← args.foldlM parseArgument {}
  opts.check

theorem separates : Separates parseArgument readSetting act := fun _ _ => rfl

/-- What a setting can hold: the conversions keep to their types, and `--bits=` to the trees. -/
def Setting.InRange : Setting → Prop
  | .numInserts n | .seed n => n < 2 ^ 64
  | .trials n => -2 ^ 31 ≤ n ∧ n < 2 ^ 31
  | .bits n => n = 24 ∨ n = 32 ∨ n = 48 ∨ n = 64

theorem map_convert_eq_ok {α β : Type} {x : Except ConversionError α} {f : α → β} {y : β} :
    (convert x).map f = .ok y ↔ ∃ a, x = .ok a ∧ f a = y := by
  cases x with
  | error e =>
    constructor
    · rintro ⟨⟩
    · rintro ⟨_, ⟨⟩, _⟩
  | ok a =>
    constructor
    · rintro ⟨⟩
      exact ⟨a, rfl, rfl⟩
    · rintro ⟨_, ⟨⟩, rfl⟩
      rfl

theorem readSetting_inRange {arg : List Char} {s : Setting} (h : readSetting arg = .ok s) :
    s.InRange := by
  unfold readSetting at h
  split at h
  · cases h
  split at h
  · obtain ⟨n, hn, rfl⟩ := map_convert_eq_ok.mp h
    exact stoull_lt hn
  split at h
  · obtain ⟨n, hn, rfl⟩ := map_convert_eq_ok.mp h
    exact stoi_bounds hn
  split at h
  · obtain ⟨n, hn, rfl⟩ := map_convert_eq_ok.mp h
    exact stoull_lt hn
  split at h
  · split at h
    · cases h
      exact Or.inl rfl
    split at h
    · cases h
      exact Or.inr (Or.inl rfl)
    split at h
    · cases h
      exact Or.inr (Or.inr (Or.inl rfl))
    split at h
    · cases h
      exact Or.inr (Or.inr (Or.inr rfl))
    · cases h
  · cases h

/-- What the fields can hold before the checks. -/
structure Representable (o : RunOptions) : Prop where
  numInserts : o.numInserts < 2 ^ 64
  trials : -2 ^ 31 ≤ o.trials ∧ o.trials < 2 ^ 31
  seed : o.seed < 2 ^ 64
  bits : o.bits = 24 ∨ o.bits = 32 ∨ o.bits = 48 ∨ o.bits = 64

/-- What the program goes on with. -/
structure WellFormed (o : RunOptions) : Prop extends Representable o where
  someInserts : 0 < o.numInserts ∧ o.numInserts < 2 ^ 32
  someTrials : 0 < o.trials

variable {o o' : RunOptions} {s : Setting} {ss : List Setting} {args : List (List Char)} {e : Stop}

theorem representable_default : ({} : RunOptions).Representable := by
  constructor <;> decide

theorem Representable.act (h : o.Representable) (hs : s.InRange) : (o.act s).Representable := by
  cases s with
  | numInserts n => exact ⟨hs, h.trials, h.seed, h.bits⟩
  | trials n => exact ⟨h.numInserts, hs, h.seed, h.bits⟩
  | seed n => exact ⟨h.numInserts, h.trials, hs, h.bits⟩
  | bits n => exact ⟨h.numInserts, h.trials, h.seed, hs⟩

theorem Representable.foldl (h : o.Representable) (hs : ∀ s ∈ ss, s.InRange) :
    (ss.foldl RunOptions.act o).Representable := by
  induction ss generalizing o with
  | nil => exact h
  | cons s ss ih =>
    obtain ⟨hs, hss⟩ := List.forall_mem_cons.mp hs
    exact ih (h.act hs) hss

/-- Which check the options fail. The other two checks never fail. -/
def Rejects (o : RunOptions) (e : Stop) : Prop :=
  o.trials ≤ 0 ∧ e = .invalidArgument "trials must be positive".toList ∨
    0 < o.trials ∧ o.numInserts = 0 ∧
      e = .invalidArgument "num_inserts must be positive".toList ∨
    0 < o.trials ∧ 2 ^ 32 ≤ o.numInserts ∧
      e = .invalidArgument "num_inserts must fit in 32-bit buffer".toList

theorem Representable.check_eq (h : o.Representable) :
    o.WellFormed ∧ o.check = .ok o ∨ ¬ o.WellFormed ∧ ∃ e, o.check = .error e ∧ o.Rejects e := by
  have hn := h.numInserts
  have hbits : ¬ (o.bits ≠ 24 ∧ o.bits ≠ 32 ∧ o.bits ≠ 48 ∧ o.bits ≠ 64) := by
    rintro ⟨h24, h32, h48, h64⟩
    rcases h.bits with hb | hb | hb | hb
    · exact h24 hb
    · exact h32 hb
    · exact h48 hb
    · exact h64 hb
  unfold check
  by_cases htrials : o.trials ≤ 0
  · rw [if_pos htrials]
    exact Or.inr ⟨fun hw => absurd hw.someTrials (not_lt.mpr htrials), _, rfl,
      Or.inl ⟨htrials, rfl⟩⟩
  rw [if_neg htrials]
  by_cases hzero : o.numInserts = 0
  · rw [if_pos hzero]
    exact Or.inr ⟨fun hw => absurd hzero hw.someInserts.1.ne', _, rfl,
      Or.inr (Or.inl ⟨not_le.mp htrials, hzero, rfl⟩)⟩
  rw [if_neg hzero, if_neg (by omega)]
  by_cases hlarge : 2 ^ 32 - 1 < o.numInserts
  · rw [if_pos hlarge]
    refine Or.inr ⟨fun hw => ?_, _, rfl,
      Or.inr (Or.inr ⟨not_le.mp htrials, by omega, rfl⟩)⟩
    have := hw.someInserts.2
    omega
  rw [if_neg hlarge, if_neg hbits]
  exact Or.inl ⟨⟨h, ⟨Nat.pos_of_ne_zero hzero, by omega⟩, not_le.mp htrials⟩, rfl⟩

theorem Representable.check_eq_ok_iff (h : o.Representable) :
    o.check = .ok o' ↔ o = o' ∧ o'.WellFormed := by
  rcases h.check_eq with ⟨hw, hc⟩ | ⟨hw, e, hc, _⟩
  · rw [hc]
    constructor
    · rintro ⟨⟩
      exact ⟨rfl, hw⟩
    · rintro ⟨rfl, _⟩
      rfl
  · rw [hc]
    constructor
    · rintro ⟨⟩
    · rintro ⟨rfl, hw'⟩
      exact absurd hw' hw

theorem Rejects.unique {e' : Stop} (h : o.Rejects e) (h' : o.Rejects e') : e = e' := by
  unfold Rejects at h h'
  rcases h with ⟨ht, rfl⟩ | ⟨ht, hn, rfl⟩ | ⟨ht, hn, rfl⟩ <;>
    rcases h' with ⟨ht', rfl⟩ | ⟨ht', hn', rfl⟩ | ⟨ht', hn', rfl⟩ <;> first | omega | rfl

theorem Rejects.not_wellFormed (h : o.Rejects e) : ¬ o.WellFormed := by
  rintro ⟨_, hn, ht⟩
  rcases h with ⟨ht', _⟩ | ⟨_, hn', _⟩ | ⟨_, hn', _⟩ <;> omega

theorem Representable.check_eq_error_iff (h : o.Representable) :
    o.check = .error e ↔ o.Rejects e := by
  rcases h.check_eq with ⟨hw, hc⟩ | ⟨_, e', hc, hr⟩
  · rw [hc]
    constructor
    · rintro ⟨⟩
    · exact fun hr => absurd hw hr.not_wellFormed
  · rw [hc]
    constructor
    · rintro ⟨⟩
      exact hr
    · intro hr'
      rw [hr.unique hr']

/-- The settings that `args` are, one for each argument. -/
def AreSettings (args : List (List Char)) (ss : List Setting) : Prop :=
  List.Forall₂ (fun arg s => readSetting arg = .ok s) args ss

theorem AreSettings.inRange (h : AreSettings args ss) : ∀ s ∈ ss, s.InRange := by
  induction h with
  | nil => exact fun s hs => absurd hs List.not_mem_nil
  | cons hs _ ih => exact List.forall_mem_cons.mpr ⟨readSetting_inRange hs, ih⟩

def Setting.numInserts? : Setting → Option ℕ
  | .numInserts n => some n
  | _ => none

def Setting.trials? : Setting → Option ℤ
  | .trials n => some n
  | _ => none

def Setting.seed? : Setting → Option ℕ
  | .seed n => some n
  | _ => none

def Setting.bits? : Setting → Option ℕ
  | .bits n => some n
  | _ => none

/-- Each option as its last setting says, or its default. -/
def ofSettings (ss : List Setting) : RunOptions where
  numInserts := lastOf Setting.numInserts? ss 10000000
  trials := lastOf Setting.trials? ss 5
  seed := lastOf Setting.seed? ss 0
  bits := lastOf Setting.bits? ss 48

theorem foldl_act (ss : List Setting) : ss.foldl RunOptions.act {} = ofSettings ss := by
  have hnum := foldl_field RunOptions.act RunOptions.numInserts Setting.numInserts?
    (fun _ t => by cases t <;> rfl) ss {}
  have htrials := foldl_field RunOptions.act RunOptions.trials Setting.trials?
    (fun _ t => by cases t <;> rfl) ss {}
  have hseed := foldl_field RunOptions.act RunOptions.seed Setting.seed?
    (fun _ t => by cases t <;> rfl) ss {}
  have hbits := foldl_field RunOptions.act RunOptions.bits Setting.bits?
    (fun _ t => by cases t <;> rfl) ss {}
  rw [ofSettings, ← hnum, ← htrials, ← hseed, ← hbits]

theorem AreSettings.representable (h : AreSettings args ss) : (ofSettings ss).Representable :=
  foldl_act ss ▸ representable_default.foldl h.inRange

end RunOptions

section CommandLines

open RunOptions

/-- `parse_options` accepts a command line exactly when every argument is a setting, and each
option as its last setting says is in range. -/
theorem parseOptions_eq_ok_iff (args : List (List Char)) (opts : RunOptions) :
    parseOptions args = .ok opts ↔
      ∃ ss, AreSettings args ss ∧ opts = ofSettings ss ∧ opts.WellFormed := by
  unfold parseOptions
  cases hloop : args.foldlM parseArgument {} with
  | error e =>
    constructor
    · rintro ⟨⟩
    · rintro ⟨ss, hss, _⟩
      have hok := (foldlM_eq_ok_iff separates (s := {})).mpr ⟨ss, hss, rfl⟩
      cases hloop.symm.trans hok
  | ok opts' =>
    obtain ⟨ss, hss, rfl⟩ := (foldlM_eq_ok_iff separates).mp hloop
    rw [foldl_act] at hloop ⊢
    change (ofSettings ss).check = .ok opts ↔ _
    rw [(AreSettings.representable hss).check_eq_ok_iff]
    constructor
    · rintro ⟨rfl, hw⟩
      exact ⟨ss, hss, rfl, hw⟩
    · rintro ⟨ss', hss', rfl, hw⟩
      have hok := (foldlM_eq_ok_iff separates (s := {})).mpr ⟨ss', hss', rfl⟩
      rw [foldl_act] at hok
      exact ⟨Except.ok.inj (hloop.symm.trans hok), hw⟩

/-- It rejects one for the first argument that is not a setting, and when all are for the first of
three checks that the options fail. -/
theorem parseOptions_eq_error_iff (args : List (List Char)) (e : Stop) :
    parseOptions args = .error e ↔
      (∃ pre bad post, args = pre ++ bad :: post ∧ (∀ a ∈ pre, ∃ s, readSetting a = .ok s) ∧
        readSetting bad = .error e) ∨
      ∃ ss, AreSettings args ss ∧ Rejects (ofSettings ss) e := by
  rw [← foldlM_eq_error_iff separates (s := {})]
  unfold parseOptions
  cases hloop : args.foldlM parseArgument {} with
  | error e' =>
    constructor
    · rintro ⟨⟩
      exact Or.inl rfl
    · rintro (⟨⟨⟩⟩ | ⟨ss, hss, _⟩)
      · rfl
      · have hok := (foldlM_eq_ok_iff separates (s := {})).mpr ⟨ss, hss, rfl⟩
        cases hloop.symm.trans hok
  | ok opts' =>
    obtain ⟨ss, hss, rfl⟩ := (foldlM_eq_ok_iff separates).mp hloop
    rw [foldl_act] at hloop ⊢
    change (ofSettings ss).check = .error e ↔ _
    rw [(AreSettings.representable hss).check_eq_error_iff]
    constructor
    · exact fun hr => Or.inr ⟨ss, hss, hr⟩
    · rintro (⟨⟨⟩⟩ | ⟨ss', hss', hr⟩)
      have hok := (foldlM_eq_ok_iff separates (s := {})).mpr ⟨ss', hss', rfl⟩
      rw [foldl_act] at hok
      rwa [Except.ok.inj (hloop.symm.trans hok)]

end CommandLines

section RoundTrip

open RunOptions

/-- A command line for the options. -/
def RunOptions.arguments (o : RunOptions) : List (List Char) :=
  ["--num_inserts=".toList ++ Nat.toDigits 10 o.numInserts,
    "--trials=".toList ++ Nat.toDigits 10 o.trials.toNat,
    "--seed=".toList ++ Nat.toDigits 10 o.seed, "--bits=".toList ++ Nat.toDigits 10 o.bits]

def RunOptions.settings (o : RunOptions) : List Setting :=
  [.numInserts o.numInserts, .trials o.trials, .seed o.seed, .bits o.bits]

theorem RunOptions.WellFormed.areSettings {o : RunOptions} (h : o.WellFormed) :
    AreSettings o.arguments o.settings := by
  have htrials : (o.trials.toNat : ℤ) = o.trials := Int.toNat_of_nonneg h.someTrials.le
  have hlt : o.trials.toNat < 2 ^ 31 := by
    have := h.trials.2
    omega
  refine .cons ?_ (.cons ?_ (.cons ?_ (.cons ?_ .nil)))
  · simp [readSetting, valueOf, stoull_toDigits h.numInserts, convert, Except.mapError, Except.map]
  · simp [readSetting, valueOf, stoi_toDigits hlt, convert, Except.mapError, Except.map, htrials]
  · simp [readSetting, valueOf, stoull_toDigits h.seed, convert, Except.mapError, Except.map]
  · rcases h.bits with hb | hb | hb | hb <;> rw [hb] <;> rfl

/-- Every well-formed record of options has a command line, with its options in any order and after
any settings that they override. -/
theorem parseOptions_arguments (opts : RunOptions) (hw : opts.WellFormed)
    (args₀ args : List (List Char)) (hargs₀ : ∀ a ∈ args₀, ∃ s, readSetting a = .ok s)
    (hargs : args.Perm opts.arguments) : parseOptions (args₀ ++ args) = .ok opts := by
  have hpre : ∃ ss₀, AreSettings args₀ ss₀ := by
    induction args₀ with
    | nil => exact ⟨[], .nil⟩
    | cons a args₀ ih =>
      obtain ⟨⟨s, hs⟩, hargs₀⟩ := List.forall_mem_cons.mp hargs₀
      obtain ⟨ss₀, hss₀⟩ := ih hargs₀
      exact ⟨s :: ss₀, .cons hs hss₀⟩
  obtain ⟨ss₀, hss₀⟩ := hpre
  obtain ⟨ss, hss, hperm⟩ := List.perm_comp_forall₂ hargs hw.areSettings
  have hof : ofSettings (ss₀ ++ ss) = opts := by
    rw [ofSettings, lastOf_append hperm rfl, lastOf_append hperm rfl, lastOf_append hperm rfl,
      lastOf_append hperm rfl]
  exact (parseOptions_eq_ok_iff _ _).mpr ⟨ss₀ ++ ss, List.rel_append hss₀ hss, hof.symm, hw⟩

theorem parseOptions_some_arguments :
    parseOptions (["--trials=9".toList] ++ ["--bits=64".toList, "--seed=7".toList,
      "--num_inserts=100".toList, "--trials=2".toList]) = .ok ⟨100, 2, 7, 64⟩ := by
  refine parseOptions_arguments ⟨100, 2, 7, 64⟩ ?_ _ _ ?_ (by decide)
  · exact ⟨⟨by decide, by decide, by decide, by decide⟩, by decide, by decide⟩
  · intro a ha
    obtain rfl := List.mem_singleton.mp ha
    exact ⟨.trials 9, rfl⟩

end RoundTrip

end ParvEB
