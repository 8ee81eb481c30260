import Mathlib.Algebra.Order.Ring.Nat

/-! `std::stoull` and `std::stoi`: the number at the front of a text. -/
namespace ParvEB

/-- What the conversions throw. -/
inductive ConversionError
  | invalidArgument
  | outOfRange
  deriving DecidableEq

/-- `isspace` of the C locale. -/
def isSpace (c : Char) : Bool := c = ' ' || ('\t' ≤ c && c ≤ '\r')

/-- Whether a minus sign is next, and what follows the sign. -/
def readSign : List Char → Bool × List Char
  | '-' :: s => (true, s)
  | '+' :: s => (false, s)
  | s => (false, s)

/-- The sign and the magnitude of the number at the front, after spaces. What follows its digits is
not looked at. -/
def readDecimal (s : List Char) : Option (Bool × ℕ) :=
  let signed := readSign (s.dropWhile isSpace)
  let digits := signed.2.takeWhile Char.isDigit
  if digits = [] then none else some (signed.1, Nat.ofDigitChars 10 digits 0)

/-- A negative number is taken modulo `2 ^ 64`. -/
def stoull (s : List Char) : Except ConversionError ℕ :=
  match readDecimal s with
  | none => throw .invalidArgument
  | some (neg, n) =>
    if 2 ^ 64 ≤ n then throw .outOfRange else pure (if neg then (2 ^ 64 - n) % 2 ^ 64 else n)

def signed (neg : Bool) (n : ℕ) : ℤ := if neg then -n else n

def stoi (s : List Char) : Except ConversionError ℤ :=
  match readDecimal s with
  | none => throw .invalidArgument
  | some (neg, n) =>
    if signed neg n < -2 ^ 31 ∨ 2 ^ 31 ≤ signed neg n then throw .outOfRange
    else pure (signed neg n)

variable {s : List Char} {n : ℕ}

theorem stoull_lt (h : stoull s = .ok n) : n < 2 ^ 64 := by
  unfold stoull at h
  cases hr : readDecimal s with
  | none =>
    rw [hr] at h
    cases h
  | some r =>
    obtain ⟨neg, v⟩ := r
    rw [hr] at h
    dsimp only at h
    split at h
    · cases h
    · cases h
      split
      · exact Nat.mod_lt _ (by decide)
      · omega

theorem stoi_bounds {v : ℤ} (h : stoi s = .ok v) : -2 ^ 31 ≤ v ∧ v < 2 ^ 31 := by
  unfold stoi at h
  cases hr : readDecimal s with
  | none =>
    rw [hr] at h
    cases h
  | some r =>
    obtain ⟨neg, n⟩ := r
    rw [hr] at h
    dsimp only at h
    split at h
    · cases h
    next hrange =>
      cases h
      exact ⟨not_lt.mp (hrange ∘ Or.inl), not_le.mp (hrange ∘ Or.inr)⟩

theorem not_isSpace_of_isDigit {c : Char} (h : c.isDigit = true) : isSpace c = false := by
  simp only [Char.isDigit, Bool.and_eq_true, decide_eq_true_eq] at h
  have hne : c ≠ ' ' := by
    rintro rfl
    exact absurd h.1 (by decide)
  have hlt : ¬ c ≤ '\r' := fun hle =>
    absurd (show (48 : UInt32) ≤ 13 from UInt32.le_trans h.1 hle) (by decide)
  simp [isSpace, hne, hlt]

theorem readSign_of_isDigit {c : Char} (h : c.isDigit = true) :
    readSign (c :: s) = (false, c :: s) := by
  unfold readSign
  split
  · simp_all
  · simp_all
  · rfl

/-- What is printed in decimal is read back, whatever other than a digit follows. -/
theorem readDecimal_toDigits (n : ℕ) (hs : ∀ c ∈ s.head?, c.isDigit = false) :
    readDecimal (Nat.toDigits 10 n ++ s) = some (false, n) := by
  have hdigits : ∀ c ∈ Nat.toDigits 10 n, c.isDigit = true :=
    fun c hc => Nat.isDigit_of_mem_toDigits (by decide) (by decide) hc
  have htake : (Nat.toDigits 10 n ++ s).takeWhile Char.isDigit = Nat.toDigits 10 n := by
    rw [List.takeWhile_append_of_pos hdigits]
    cases s with
    | nil => simp
    | cons c s => simp [hs c rfl]
  obtain ⟨c, cs, hcs⟩ := List.exists_cons_of_ne_nil (Nat.toDigits_ne_nil (n := n) (b := 10))
  have hc : c.isDigit = true := hdigits c (hcs ▸ List.mem_cons_self)
  have hspace : (Nat.toDigits 10 n ++ s).dropWhile isSpace = Nat.toDigits 10 n ++ s := by
    rw [hcs, List.cons_append, List.dropWhile_cons_of_neg (by simp [not_isSpace_of_isDigit hc])]
  have hsign : readSign (Nat.toDigits 10 n ++ s) = (false, Nat.toDigits 10 n ++ s) := by
    rw [hcs, List.cons_append, readSign_of_isDigit hc]
  unfold readDecimal
  rw [hspace, hsign]
  dsimp only
  rw [htake, if_neg Nat.toDigits_ne_nil, Nat.ofDigitChars_ten_toDigits]

theorem stoull_toDigits (h : n < 2 ^ 64) : stoull (Nat.toDigits 10 n) = .ok n := by
  have hread := readDecimal_toDigits n (s := []) (by simp)
  rw [List.append_nil] at hread
  unfold stoull
  rw [hread]
  dsimp only
  rw [if_neg (not_le.mpr h)]
  rfl

theorem stoi_toDigits (h : n < 2 ^ 31) : stoi (Nat.toDigits 10 n) = .ok (n : ℤ) := by
  have hread := readDecimal_toDigits n (s := []) (by simp)
  rw [List.append_nil] at hread
  have hrange : ¬ ((n : ℤ) < -2 ^ 31 ∨ (2 : ℤ) ^ 31 ≤ n) := by omega
  unfold stoi
  rw [hread]
  exact if_neg hrange

end ParvEB
