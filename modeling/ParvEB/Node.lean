import ParvEB.Outcome

/-! What a branch asks of the type of its children, and the storage the source builds on. -/
namespace ParvEB

/-- `std::array` access. The source does not check the index. -/
def arrayGet {n : ℕ} {α : Type} (a : Fin n → α) (i : ℕ) : Outcome α :=
  if h : i < n then pure (a ⟨i, h⟩) else .fault .outOfBounds

def arraySet {n : ℕ} {α : Type} (a : Fin n → α) (i : ℕ) (v : α) : Outcome (Fin n → α) :=
  if h : i < n then pure (Function.update a ⟨i, h⟩ v) else .fault .outOfBounds

/-- A shift of a 64-bit word, undefined once the amount reaches the width. -/
def shl64 (x : BitVec 64) (n : ℕ) : Outcome (BitVec 64) :=
  if n < 64 then pure (x <<< n) else .fault .shiftTooLarge

def shr64 (x : BitVec 64) (n : ℕ) : Outcome (BitVec 64) :=
  if n < 64 then pure (x >>> n) else .fault .shiftTooLarge

/-- `key_type_for_bits`: the width of the `Key` type of a branch. -/
def keyWidth (bits : ℕ) : ℕ :=
  if bits ≤ 8 then 8 else if bits ≤ 16 then 16 else if bits ≤ 32 then 32 else 64

/-- `MAX_KEY` of a branch. -/
def maxKey (bits w : ℕ) : BitVec w :=
  if bits = 64 then BitVec.allOnes w else (1#64 <<< bits - 1#64).setWidth w

/-- The members that a branch uses of its `Child` and `Summary` types; `w` is the width of `Key`.
`forEach` and `forEachAll` list the integers that `for_each(prefix, fn)` and `for_each(fn)` hand
to `fn`, before their conversion to the parameter type of `fn`. -/
class VebNode (T : Type) (w : outParam ℕ) where
  fresh : T
  empty : T → Bool
  insert : T → BitVec w → Mem → Outcome (Exit T)
  erase : T → BitVec w → Outcome T
  contains : T → BitVec w → Outcome Bool
  min : T → Outcome (Option (BitVec w))
  max : T → Outcome (Option (BitVec w))
  successor : T → BitVec w → Outcome (Option (BitVec w))
  predecessor : T → BitVec w → Outcome (Option (BitVec w))
  forEach : T → BitVec w → Outcome (List ℕ)
  forEachAll : T → Outcome (List ℕ)

/-- `ankerl::unordered_dense::map` with `w`-bit keys: a finite map. `emplace` is `try_emplace`
with the value a new entry gets, and `assign` a write through the iterator it returns. -/
class FlatMap (M : ℕ → Type → Type) where
  empty {w : ℕ} {V : Type} : M w V
  find {w : ℕ} {V : Type} : M w V → BitVec w → Option V
  emplace {w : ℕ} {V : Type} : M w V → BitVec w → V → M w V
  assign {w : ℕ} {V : Type} : M w V → BitVec w → V → M w V
  erase {w : ℕ} {V : Type} : M w V → BitVec w → M w V
  find_empty {w : ℕ} {V : Type} (k : BitVec w) : find (empty : M w V) k = none
  find_emplace {w : ℕ} {V : Type} (m : M w V) (k k' : BitVec w) (v : V) :
    find (emplace m k v) k' = if k' = k then some ((find m k).getD v) else find m k'
  find_assign {w : ℕ} {V : Type} (m : M w V) (k k' : BitVec w) (v : V) :
    find (assign m k v) k' = if k' = k then (find m k).map fun _ => v else find m k'
  find_erase {w : ℕ} {V : Type} (m : M w V) (k k' : BitVec w) :
    find (erase m k) k' = if k' = k then none else find m k'
  emplace_of_find {w : ℕ} {V : Type} (m : M w V) (k : BitVec w) (v v' : V) :
    find m k = some v → emplace m k v' = m
  assign_self {w : ℕ} {V : Type} (m : M w V) (k : BitVec w) (v : V) :
    find m k = some v → assign m k v = m

/-- The finite map that is a lookup function. -/
def FunMap (w : ℕ) (V : Type) : Type := BitVec w → Option V

instance : FlatMap FunMap where
  empty := fun _ => none
  find m k := m k
  emplace m k v := fun k' => if k' = k then some ((m k).getD v) else m k'
  assign m k v := fun k' => if k' = k then (m k).map fun _ => v else m k'
  erase m k := fun k' => if k' = k then none else m k'
  find_empty _ := rfl
  find_emplace _ _ _ _ := rfl
  find_assign _ _ _ _ := rfl
  find_erase _ _ _ := rfl
  emplace_of_find := by
    intro w V m k v v' h
    funext k'
    by_cases hk : k' = k <;> simp_all
  assign_self := by
    intro w V m k v h
    funext k'
    by_cases hk : k' = k <;> simp_all

/-- A mutation that a caller asks for. -/
inductive Op (w : ℕ)
  | insert (k : BitVec w)
  | erase (k : BitVec w)
  deriving DecidableEq

def Op.key {w : ℕ} : Op w → BitVec w
  | .insert k => k
  | .erase k => k

section Runs

variable {T : Type} {w : ℕ} [VebNode T w]

/-- One call, with memory to spare. -/
def step (t : T) : Op w → Outcome T
  | .insert k => do
    let e ← VebNode.insert t k .unbounded
    pure e.state
  | .erase k => VebNode.erase t k

/-- A sequence of calls. -/
def run (t : T) : List (Op w) → Outcome T
  | [] => pure t
  | o :: os => do
    let t ← step t o
    run t os

/-- `to_vector()`: the callback's parameter is a `Key`. -/
def toVector (t : T) : Outcome (List (BitVec w)) := do
  let l ← VebNode.forEachAll t
  pure (l.map (BitVec.ofNat w))

end Runs

end ParvEB
