import ParvEB.Branch
import ParvEB.Lawful

/-! A branch as its summary and its clusters, whichever way it stores them. -/
namespace ParvEB

open Outcome

/-- What relates the widths of a branch: `b = CLUSTER_BITS`, `w` and `c` those of `Key` and
`ChildKey`. -/
class Widths (b w c : ℕ) : Prop where
  fan : 6 ≤ b
  index : b ≤ 32
  double : 2 * b ≤ w
  key : w ≤ 64
  byte : 8 ≤ c
  child : c ≤ 32
  narrow : c ≤ b + 8

instance : Widths 6 16 8 := by constructor <;> omega
instance : Widths 8 16 16 := by constructor <;> omega
instance : Widths 12 32 16 := by constructor <;> omega
instance : Widths 16 32 16 := by constructor <;> omega
instance : Widths 24 64 32 := by constructor <;> omega
instance : Widths 32 64 32 := by constructor <;> omega

/-- A cluster that is present holds one inline value or a child. -/
inductive Cluster (c : ℕ) (C : Type)
  | inline (v : BitVec c)
  | child (t : C)

/-- The abstract branch. -/
structure View (c : ℕ) (C : Type) where
  summary : C
  cluster : ℕ → Option (Cluster c C)

section Split

variable {b w c h : ℕ} {key : BitVec w} {hi : BitVec h} {lo : BitVec c}

theorem pow_pos_two (b : ℕ) : 0 < 2 ^ b := Nat.two_pow_pos b

theorem div_lt_of_lt {k : ℕ} (hk : k < 2 ^ (2 * b)) : k / 2 ^ b < 2 ^ b := by
  rw [Nat.two_mul, Nat.pow_add] at hk
  exact Nat.div_lt_of_lt_mul hk

theorem split_div {i l : ℕ} (hl : l < 2 ^ b) : (i * 2 ^ b + l) / 2 ^ b = i := by
  rw [Nat.mul_comm, Nat.mul_add_div (pow_pos_two b), Nat.div_eq_of_lt hl, Nat.add_zero]

theorem split_mod {i l : ℕ} (hl : l < 2 ^ b) : (i * 2 ^ b + l) % 2 ^ b = l := by
  rw [Nat.mul_comm, Nat.mul_add_mod, Nat.mod_eq_of_lt hl]

theorem split_eq (b k : ℕ) : k / 2 ^ b * 2 ^ b + k % 2 ^ b = k := by
  rw [Nat.mul_comm]
  exact Nat.div_add_mod k (2 ^ b)

theorem split_lt {i l : ℕ} (hi : i < 2 ^ b) (hl : l < 2 ^ b) : i * 2 ^ b + l < 2 ^ (2 * b) := by
  have := Nat.mul_le_mul_right (2 ^ b) hi
  rw [Nat.two_mul, Nat.pow_add]
  rw [Nat.succ_mul] at this
  omega

theorem toNat_setWidth_of_lt {n : ℕ} (hc : lo.toNat < 2 ^ n) :
    (lo.setWidth n).toNat = lo.toNat := by
  rw [BitVec.toNat_setWidth, Nat.mod_eq_of_lt hc]

theorem toNat_setWidth_of_le {n : ℕ} (hc : c ≤ n) : (lo.setWidth n).toNat = lo.toNat :=
  toNat_setWidth_of_lt (lo.isLt.trans_le (Nat.pow_le_pow_right (by omega) hc))

theorem toNat_loPart (hw : b < w) (hc : b ≤ c) :
    (loPart b key : BitVec c).toNat = key.toNat % 2 ^ b := by
  have hb : 2 ^ b < 2 ^ w := Nat.pow_lt_pow_right (by omega) hw
  have hone : 1 < 2 ^ w := Nat.one_lt_two_pow (by omega)
  have hmask : (1#w <<< b - 1#w).toNat = 2 ^ b - 1 := by
    rw [BitVec.toNat_sub_of_le]
    · simp [Nat.shiftLeft_eq, Nat.mod_eq_of_lt hone, Nat.mod_eq_of_lt hb]
    · rw [BitVec.le_def]
      simp [Nat.shiftLeft_eq, Nat.mod_eq_of_lt hone, Nat.mod_eq_of_lt hb, Nat.one_le_two_pow]
  have hlt : key.toNat % 2 ^ b < 2 ^ c :=
    (Nat.mod_lt _ (pow_pos_two b)).trans_le (Nat.pow_le_pow_right (by omega) hc)
  rw [loPart, BitVec.toNat_setWidth, BitVec.toNat_and, hmask, Nat.and_two_pow_sub_one_eq_mod,
    Nat.mod_eq_of_lt hlt]

theorem toNat_shiftRight : (key >>> b).toNat = key.toNat / 2 ^ b := by
  rw [BitVec.toNat_ushiftRight, Nat.shiftRight_eq_div_pow]

theorem toNat_combine (hw : 2 * b ≤ w) (hhi : hi.toNat < 2 ^ b) (hlo : lo.toNat < 2 ^ b) :
    (combine b w hi lo).toNat = hi.toNat * 2 ^ b + lo.toNat := by
  have hb : 2 ^ (2 * b) ≤ 2 ^ w := Nat.pow_le_pow_right (by omega) hw
  have hbw : 2 ^ b ≤ 2 ^ w := Nat.pow_le_pow_right (by omega) (by omega)
  have hsum := split_lt hhi hlo
  rw [combine, BitVec.toNat_or, BitVec.toNat_shiftLeft, toNat_setWidth_of_lt (hhi.trans_le hbw),
    toNat_setWidth_of_lt (hlo.trans_le hbw), Nat.mod_eq_of_lt (by rw [Nat.shiftLeft_eq]; omega),
    ← Nat.shiftLeft_add_eq_or_of_lt hlo, Nat.shiftLeft_eq]

theorem toNat_maxKey {bits : ℕ} (hb : bits ≤ w) (hw : w ≤ 64) :
    (maxKey bits w).toNat = 2 ^ bits - 1 := by
  unfold maxKey
  split
  next h =>
    obtain rfl : w = 64 := by omega
    rw [h]
    rfl
  next h =>
    have hlt : 2 ^ bits < 2 ^ 64 := Nat.pow_lt_pow_right (by omega) (by omega)
    have hle : 2 ^ bits ≤ 2 ^ w := Nat.pow_le_pow_right (by omega) hb
    have hpos := pow_pos_two bits
    have hmask : (1#64 <<< bits - 1#64).toNat = 2 ^ bits - 1 := by
      have hone : (1#64 <<< bits).toNat = 2 ^ bits := by
        rw [BitVec.toNat_shiftLeft, Nat.shiftLeft_eq, BitVec.toNat_one (by omega), Nat.one_mul,
          Nat.mod_eq_of_lt hlt]
      rw [BitVec.toNat_sub_of_le, hone]
      · rfl
      · rw [BitVec.le_def, hone]
        exact hpos
    rw [BitVec.toNat_setWidth, hmask, Nat.mod_eq_of_lt (by omega)]

/-- In range means below the universe's size. -/
theorem le_maxKey_iff {bits : ℕ} (hb : bits ≤ w) (hw : w ≤ 64) :
    key ≤ maxKey bits w ↔ key.toNat < 2 ^ bits := by
  have := pow_pos_two bits
  rw [BitVec.le_def, toNat_maxKey hb hw]
  omega

/-- The low part of a key is its remainder, and an admissible key of a child. -/
theorem loPart_lt (C : Type) [VebNode C c] [LawfulVeb C b] [Widths b w c] (key : BitVec w) :
    (loPart b key : BitVec c).toNat = key.toNat % 2 ^ b ∧
      (loPart b key : BitVec c).toNat < 2 ^ b := by
  have h := Widths.double (b := b) (w := w) c
  have hb : 6 ≤ b := Widths.fan w c
  have hlo : (loPart b key : BitVec c).toNat = key.toNat % 2 ^ b :=
    toNat_loPart (by omega) (LawfulVeb.bits_le C)
  exact ⟨hlo, hlo ▸ Nat.mod_lt _ (pow_pos_two b)⟩

end Split

namespace Cluster

variable {b c : ℕ} {C : Type} [VebNode C c] [LawfulVeb C b] {lax : Prop}
  {cl : Cluster c C} {lo : BitVec c}

def keys : Cluster c C → Set ℕ
  | .inline v => {v.toNat}
  | .child t => LawfulVeb.keys t

/-- An inline value is a key of the child; a child is well formed and not empty. -/
def Inv (b : ℕ) [LawfulVeb C b] (lax : Prop) : Cluster c C → Prop
  | .inline v => v.toNat < 2 ^ b
  | .child t => LawfulVeb.Inv lax t ∧ (LawfulVeb.keys t).Nonempty

theorem Inv.key_lt (h : cl.Inv b lax) {k : ℕ} (hk : k ∈ cl.keys) : k < 2 ^ b := by
  cases cl with
  | inline v => rwa [Set.mem_singleton_iff.mp hk]
  | child t => exact LawfulVeb.key_lt h.1 hk

theorem Inv.nonempty (h : cl.Inv b lax) : cl.keys.Nonempty := by
  cases cl with
  | inline v => exact Set.singleton_nonempty _
  | child t => exact h.2

def contains : Cluster c C → BitVec c → Outcome Bool
  | .inline v, lo => pure (v == lo)
  | .child t, lo => VebNode.contains t lo

def min : Cluster c C → Outcome (Option (BitVec c))
  | .inline v => pure (some v)
  | .child t => VebNode.min t

def max : Cluster c C → Outcome (Option (BitVec c))
  | .inline v => pure (some v)
  | .child t => VebNode.max t

def successor : Cluster c C → BitVec c → Outcome (Option (BitVec c))
  | .inline v, lo => pure (if lo < v then some v else none)
  | .child t, lo => VebNode.successor t lo

def predecessor : Cluster c C → BitVec c → Outcome (Option (BitVec c))
  | .inline v, limit => pure (if v < limit then some v else none)
  | .child t, limit => VebNode.predecessor t limit

theorem Inv.contains_spec (h : cl.Inv b lax) (hlo : lo.toNat < 2 ^ b) :
    (cl.contains lo).Returns fun r => r = true ↔ lo.toNat ∈ cl.keys := by
  cases cl with
  | inline v =>
    rw [contains, returns_pure, beq_iff_eq, keys, Set.mem_singleton_iff, BitVec.toNat_inj, eq_comm]
  | child t => exact LawfulVeb.contains_spec h.1 hlo

theorem Inv.min_spec (h : cl.Inv b lax) :
    cl.min.Returns fun r => ∃ v, r = some v ∧ IsLeast cl.keys v.toNat := by
  cases cl with
  | inline v => exact returns_pure.mpr ⟨v, rfl, isLeast_singleton⟩
  | child t =>
    refine (LawfulVeb.min_spec h.1).mono fun r hr => ?_
    cases r with
    | none => exact (h.2.ne_empty hr).elim
    | some v => exact ⟨v, rfl, hr⟩

theorem Inv.max_spec (h : cl.Inv b lax) :
    cl.max.Returns fun r => ∃ v, r = some v ∧ IsGreatest cl.keys v.toNat := by
  cases cl with
  | inline v => exact returns_pure.mpr ⟨v, rfl, isGreatest_singleton⟩
  | child t =>
    refine (LawfulVeb.max_spec h.1).mono fun r hr => ?_
    cases r with
    | none => exact (h.2.ne_empty hr).elim
    | some v => exact ⟨v, rfl, hr⟩

theorem Inv.successor_spec (h : cl.Inv b lax) (hlo : lo.toNat < 2 ^ b) :
    (cl.successor lo).Returns fun r => IsFirst (above cl.keys lo.toNat) (r.map BitVec.toNat) := by
  cases cl with
  | inline v =>
    rw [successor, returns_pure]
    split
    next hv =>
      refine ⟨⟨rfl, hv⟩, ?_⟩
      rintro k ⟨hk, _⟩
      exact (Set.mem_singleton_iff.mp hk).ge
    next hv =>
      refine Set.eq_empty_iff_forall_notMem.mpr ?_
      rintro k ⟨hk, hlt⟩
      rw [Set.mem_singleton_iff.mp hk] at hlt
      exact hv hlt
  | child t => exact LawfulVeb.successor_spec h.1 hlo

theorem Inv.predecessor_spec (h : cl.Inv b lax) (hlo : lo.toNat < 2 ^ b) :
    (cl.predecessor lo).Returns fun r => IsLast (below cl.keys lo.toNat) (r.map BitVec.toNat) := by
  cases cl with
  | inline v =>
    rw [predecessor, returns_pure]
    split
    next hv =>
      refine ⟨⟨rfl, hv⟩, ?_⟩
      rintro k ⟨hk, _⟩
      exact (Set.mem_singleton_iff.mp hk).le
    next hv =>
      refine Set.eq_empty_iff_forall_notMem.mpr ?_
      rintro k ⟨hk, hlt⟩
      rw [Set.mem_singleton_iff.mp hk] at hlt
      exact hv hlt
  | child t => exact LawfulVeb.predecessor_spec h.1 hlo

end Cluster

namespace View

variable {b w c : ℕ} {C : Type} [VebNode C c] [LawfulVeb C b] {lax : Prop} {v : View c C}

/-- The keys under every cluster that is present. -/
def keys (b : ℕ) [LawfulVeb C b] (v : View c C) : Set ℕ :=
  {k | ∃ cl, v.cluster (k / 2 ^ b) = some cl ∧ k % 2 ^ b ∈ cl.keys}

/-- The summary is the set of the indices of the clusters. -/
structure Inv (b : ℕ) [LawfulVeb C b] (lax : Prop) (v : View c C) : Prop where
  summary : LawfulVeb.Inv lax v.summary
  mem_summary : ∀ i, i ∈ LawfulVeb.keys v.summary ↔ (v.cluster i).isSome
  cluster : ∀ i cl, v.cluster i = some cl → cl.Inv b lax

namespace Inv

theorem index_lt (h : v.Inv b lax) {i : ℕ} {cl : Cluster c C} (hi : v.cluster i = some cl) :
    i < 2 ^ b :=
  LawfulVeb.key_lt h.summary ((h.mem_summary i).mpr (by simp [hi]))

theorem key_lt (h : v.Inv b lax) {k : ℕ} (hk : k ∈ v.keys b) : k < 2 ^ (2 * b) := by
  obtain ⟨cl, hcl, hk⟩ := hk
  have := split_lt (h.index_lt hcl) ((h.cluster _ _ hcl).key_lt hk)
  rwa [split_eq] at this

theorem mem_keys (h : v.Inv b lax) {i l : ℕ} {cl : Cluster c C} (hi : v.cluster i = some cl)
    (hl : l ∈ cl.keys) : i * 2 ^ b + l ∈ v.keys b := by
  have hlt := (h.cluster _ _ hi).key_lt hl
  exact ⟨cl, by rwa [split_div hlt], by rwa [split_mod hlt]⟩

theorem heads_keys (h : v.Inv b lax) :
    heads (· / 2 ^ b) (v.keys b) = LawfulVeb.keys v.summary := by
  ext i
  rw [h.mem_summary, Option.isSome_iff_exists]
  constructor
  · rintro ⟨k, ⟨cl, hcl, _⟩, rfl⟩
    exact ⟨cl, hcl⟩
  · rintro ⟨cl, hcl⟩
    obtain ⟨l, hl⟩ := (h.cluster _ _ hcl).nonempty
    exact ⟨_, h.mem_keys hcl hl, split_div ((h.cluster _ _ hcl).key_lt hl)⟩

theorem fibre_keys (h : v.Inv b lax) {i : ℕ} {cl : Cluster c C} (hi : v.cluster i = some cl) :
    fibre (· / 2 ^ b) (· % 2 ^ b) (v.keys b) i = cl.keys := by
  ext l
  constructor
  · rintro ⟨k, ⟨⟨cl', hcl, hk⟩, rfl⟩, rfl⟩
    obtain rfl : cl' = cl := Option.some_inj.mp (hcl.symm.trans hi)
    exact hk
  · intro hl
    have hlt := (h.cluster _ _ hi).key_lt hl
    exact ⟨_, ⟨h.mem_keys hi hl, split_div hlt⟩, split_mod hlt⟩

theorem fibre_keys_none {i : ℕ} (hi : v.cluster i = none) :
    fibre (· / 2 ^ b) (· % 2 ^ b) (v.keys b) i = ∅ := by
  refine Set.eq_empty_iff_forall_notMem.mpr ?_
  rintro l ⟨k, ⟨⟨cl, hcl, _⟩, rfl⟩, _⟩
  exact absurd (hcl.symm.trans hi) (by simp)

theorem keys_eq_empty_iff (h : v.Inv b lax) :
    v.keys b = ∅ ↔ LawfulVeb.keys v.summary = ∅ := by
  rw [← h.heads_keys, heads, Set.image_eq_empty]

end Inv

/-- The keys under one index. -/
def keysAt (v : View c C) (i : ℕ) : Set ℕ :=
  {l | ∃ cl, v.cluster i = some cl ∧ l ∈ cl.keys}

variable {v' : View c C} {i l : ℕ}

theorem mem_keys_iff {k : ℕ} : k ∈ v.keys b ↔ k % 2 ^ b ∈ v.keysAt (k / 2 ^ b) := Iff.rfl

theorem keys_congr (h : ∀ i, v.keysAt i = v'.keysAt i) : v.keys b = v'.keys b := by
  ext k
  rw [mem_keys_iff, mem_keys_iff, h]

/-- A change under one index that adds a key there adds it to the branch. -/
theorem keys_insert (hl : l < 2 ^ b) (hother : ∀ j, j ≠ i → v'.cluster j = v.cluster j)
    (hat : v'.keysAt i = insert l (v.keysAt i)) :
    v'.keys b = insert (i * 2 ^ b + l) (v.keys b) := by
  ext k
  rw [Set.mem_insert_iff, mem_keys_iff, mem_keys_iff]
  by_cases hk : k / 2 ^ b = i
  · subst hk
    rw [hat, Set.mem_insert_iff]
    refine or_congr_left ⟨fun he => ?_, fun he => ?_⟩
    · rw [← he, split_eq]
    · rw [he, split_mod hl]
  · have hne : k ≠ i * 2 ^ b + l := by
      rintro rfl
      exact hk (split_div hl)
    simp [keysAt, hother _ hk, hne]

theorem keys_erase (hl : l < 2 ^ b) (hother : ∀ j, j ≠ i → v'.cluster j = v.cluster j)
    (hat : v'.keysAt i = v.keysAt i \ {l}) :
    v'.keys b = v.keys b \ {i * 2 ^ b + l} := by
  ext k
  rw [Set.mem_sdiff, Set.mem_singleton_iff, mem_keys_iff, mem_keys_iff]
  by_cases hk : k / 2 ^ b = i
  · subst hk
    rw [hat, Set.mem_sdiff, Set.mem_singleton_iff]
    refine and_congr_right fun _ => not_congr ⟨fun he => ?_, fun he => ?_⟩
    · rw [← he, split_eq]
    · rw [he, split_mod hl]
  · have hne : k ≠ i * 2 ^ b + l := by
      rintro rfl
      exact hk (split_div hl)
    simp [keysAt, hother _ hk, hne]

theorem keysAt_some {cl : Cluster c C} (hcl : v.cluster i = some cl) : v.keysAt i = cl.keys := by
  ext l
  simp [keysAt, hcl]

end View

end ParvEB
