import ParvEB.Node

/-! The two specialisations of `VebBranch`, dense and sparse. -/
namespace ParvEB

/-- `DenseBitset`. Up to 64 bits it is one word, above an array of words; the narrower word types
for a fan-out below 64 are not instantiated. -/
structure DenseBitset (fanBits : ℕ) where
  words : Fin (if fanBits ≤ 6 then 1 else (2 ^ fanBits + 63) / 64) → BitVec 64

namespace DenseBitset

variable {f : ℕ}

def zero : DenseBitset f := ⟨fun _ => 0⟩

def locate (f : ℕ) (idx : BitVec 32) : Outcome (ℕ × BitVec 64) :=
  if f ≤ 6 then do
    let mask ← shl64 1#64 idx.toNat
    pure (0, mask)
  else pure ((idx >>> 6).toNat, 1#64 <<< (idx &&& 63).toNat)

/-- The source asserts `idx < FANOUT` here, and only here. -/
def test (t : DenseBitset f) (idx : BitVec 32) : Outcome Bool :=
  if idx.toNat < 2 ^ f then do
    let at_ ← locate f idx
    let word ← arrayGet t.words at_.1
    pure (word &&& at_.2 != 0)
  else .fault .outOfBounds

def set (t : DenseBitset f) (idx : BitVec 32) : Outcome (DenseBitset f) := do
  let at_ ← locate f idx
  let word ← arrayGet t.words at_.1
  let words ← arraySet t.words at_.1 (word ||| at_.2)
  pure ⟨words⟩

def reset (t : DenseBitset f) (idx : BitVec 32) : Outcome (DenseBitset f) := do
  let at_ ← locate f idx
  let word ← arrayGet t.words at_.1
  let words ← arraySet t.words at_.1 (word &&& ~~~at_.2)
  pure ⟨words⟩

end DenseBitset

/-- An element of the dense `clusters_`: a child when `INLINE_CHILDREN`, else a `unique_ptr`. -/
def Slot (C : Type) : Bool → Type
  | true => C
  | false => Option C

namespace Slot

variable {C : Type} {inl : Bool}

/-- The child that the slot holds. -/
def get : (inl : Bool) → Slot C inl → Option C
  | true, child => some child
  | false, ptr => ptr

def put (child : C) : (inl : Bool) → Slot C inl
  | true => child
  | false => some child

/-- Before any insertion: an empty child, or null. -/
def init {c : ℕ} [VebNode C c] : (inl : Bool) → Slot C inl
  | true => (VebNode.fresh : C)
  | false => none

/-- The slot after its child became `child`, empty: a `unique_ptr` is reset. -/
def drop (child : C) : (inl : Bool) → Slot C inl
  | true => child
  | false => none

end Slot

/-- `VebBranch<Bits, false>` with `b = CLUSTER_BITS`, `w` and `c` the widths of `Key` and
`ChildKey`, `inl = INLINE_CHILDREN` and `C` both `Child` and `Summary`. -/
structure DenseBranch (b w c : ℕ) (inl : Bool) (C : Type) where
  inlineMask : DenseBitset b
  clusterMask : DenseBitset b
  inlineValue : Fin (2 ^ b) → BitVec c
  clusters : Fin (2 ^ b) → Slot C inl
  summary : Option C

/-- An entry of the sparse `clusters_`. -/
structure ClusterEntry (c : ℕ) (C : Type) where
  inlineOnly : Bool := true
  inlineValue : BitVec c := 0
  child : Option C := none

/-- `VebBranch<Bits, true>`. -/
structure SparseBranch (b w c : ℕ) (M : ℕ → Type → Type) (C : Type) where
  summary : C
  clusters : M c (ClusterEntry c C)

section Keys

variable {b w c : ℕ}

/-- `static_cast<ChildKey>(key & CHILD_MASK)`. -/
def loPart (b : ℕ) (key : BitVec w) : BitVec c := (key &&& (1#w <<< b - 1#w)).setWidth c

/-- `(Key(hi) << CLUSTER_BITS) | Key(lo)`. -/
def combine {h : ℕ} (b w : ℕ) (hi : BitVec h) (lo : BitVec c) : BitVec w :=
  (hi.setWidth w <<< b) ||| lo.setWidth w

/-- The callback of `for_each` runs over the summary's indices; what it emits is concatenated. -/
def emitAll (visit : BitVec c → Outcome (List ℕ)) : List ℕ → Outcome (List ℕ)
  | [] => pure []
  | i :: is => do
    let here ← visit (BitVec.ofNat c i)
    let rest ← emitAll visit is
    pure (here ++ rest)

end Keys

namespace DenseBranch

variable {b w c : ℕ} {inl : Bool} {C : Type} [VebNode C c]

/-- `static_cast<unsigned>(key >> CLUSTER_BITS)`. -/
def hiPart (b : ℕ) (key : BitVec w) : BitVec 32 := (key >>> b).setWidth 32

def empty (t : DenseBranch b w c inl C) : Bool := t.summary.isNone

def clusterActive (t : DenseBranch b w c inl C) (idx : BitVec 32) : Outcome Bool := do
  if ← t.inlineMask.test idx then pure true else t.clusterMask.test idx

def clusterPtr (t : DenseBranch b w c inl C) (idx : BitVec 32) : Outcome (Option C) := do
  if inl then
    if ← t.clusterMask.test idx then
      let slot ← arrayGet t.clusters idx.toNat
      pure (slot.get inl)
    else pure none
  else
    let slot ← arrayGet t.clusters idx.toNat
    pure (slot.get inl)

def ensureSummary (t : DenseBranch b w c inl C) (m : Mem) :
    Outcome (Exit (DenseBranch b w c inl C)) :=
  match t.summary with
  | some _ => pure (.returned t m)
  | none => m.alloc t fun m => pure (.returned { t with summary := some VebNode.fresh } m)

def summaryInsert (t : DenseBranch b w c inl C) (idx : BitVec 32) (m : Mem) :
    Outcome (Exit (DenseBranch b w c inl C)) :=
  (t.ensureSummary m).andThen fun t m =>
    match t.summary with
    | none => .fault .nullDereference
    | some s =>
      (VebNode.insert s (idx.setWidth c) m).within fun s => { t with summary := some s }

def summaryErase (t : DenseBranch b w c inl C) (idx : BitVec 32) :
    Outcome (DenseBranch b w c inl C) :=
  match t.summary with
  | none => pure t
  | some s => do
    let s ← VebNode.erase s (idx.setWidth c)
    pure { t with summary := if VebNode.empty s then none else some s }

def summarySuccessor (t : DenseBranch b w c inl C) (idx : BitVec 32) :
    Outcome (Option (BitVec 32)) :=
  match t.summary with
  | none => pure none
  | some s => do
    let next ← VebNode.successor s (idx.setWidth c)
    pure (next.map (·.setWidth 32))

def summaryPredecessor (t : DenseBranch b w c inl C) (idx : BitVec 32) :
    Outcome (Option (BitVec 32)) :=
  match t.summary with
  | none => pure none
  | some s => do
    let prev ← VebNode.predecessor s (idx.setWidth c)
    pure (prev.map (·.setWidth 32))

def ensureCluster (t : DenseBranch b w c inl C) (idx : BitVec 32) (m : Mem) :
    Outcome (Exit (DenseBranch b w c inl C)) := do
  if inl then
    let mask ← t.clusterMask.set idx
    pure (.returned { t with clusterMask := mask } m)
  else
    let slot ← arrayGet t.clusters idx.toNat
    match slot.get inl with
    | some _ => pure (.returned t m)
    | none => m.alloc t fun m => do
      let clusters ← arraySet t.clusters idx.toNat (.put VebNode.fresh inl)
      let mask ← t.clusterMask.set idx
      pure (.returned { t with clusters := clusters, clusterMask := mask } m)

/-- `insert` through the `Child &` that `ensure_cluster` returned. -/
def childInsert (t : DenseBranch b w c inl C) (idx : BitVec 32) (x : BitVec c) (m : Mem) :
    Outcome (Exit (DenseBranch b w c inl C)) := do
  let slot ← arrayGet t.clusters idx.toNat
  match slot.get inl with
  | none => .fault .nullDereference
  | some child =>
    let e ← VebNode.insert child x m
    let clusters ← arraySet t.clusters idx.toNat (.put e.state inl)
    pure (e.map fun _ => { t with clusters := clusters })

protected def insert (t : DenseBranch b w c inl C) (key : BitVec w) (m : Mem) :
    Outcome (Exit (DenseBranch b w c inl C)) := do
  let hi := hiPart b key
  let lo := loPart b key
  if !(← t.clusterActive hi) then
    (t.summaryInsert hi m).andThen fun t m => do
      let mask ← t.inlineMask.set hi
      let values ← arraySet t.inlineValue hi.toNat lo
      pure (.returned { t with inlineMask := mask, inlineValue := values } m)
  else if ← t.inlineMask.test hi then
    let value ← arrayGet t.inlineValue hi.toNat
    if value = lo then pure (.returned t m)
    else
      (t.ensureCluster hi m).andThen fun t m => (t.childInsert hi value m).andThen fun t m => do
        let mask ← t.inlineMask.reset hi
        DenseBranch.childInsert { t with inlineMask := mask } hi lo m
  else (t.ensureCluster hi m).andThen fun t m => t.childInsert hi lo m

/-- The tail of `erase`: `ptr->erase(lo)`, then the cluster is dropped if it became empty. -/
def childErase (t : DenseBranch b w c inl C) (idx : BitVec 32) (child : C) (x : BitVec c) :
    Outcome (DenseBranch b w c inl C) := do
  let child ← VebNode.erase child x
  if VebNode.empty child then
    let clusters ← arraySet t.clusters idx.toNat (.drop child inl)
    let mask ← t.clusterMask.reset idx
    DenseBranch.summaryErase { t with clusters := clusters, clusterMask := mask } idx
  else
    let clusters ← arraySet t.clusters idx.toNat (.put child inl)
    pure { t with clusters := clusters }

def erase (t : DenseBranch b w c inl C) (key : BitVec w) : Outcome (DenseBranch b w c inl C) :=
  if maxKey (2 * b) w < key then pure t
  else do
    let hi := hiPart b key
    let lo := loPart b key
    if !(← t.clusterActive hi) then pure t
    else if ← t.inlineMask.test hi then
      let value ← arrayGet t.inlineValue hi.toNat
      if value ≠ lo then pure t
      else
        let mask ← t.inlineMask.reset hi
        DenseBranch.summaryErase { t with inlineMask := mask } hi
    else
      match ← t.clusterPtr hi with
      | none => pure t
      | some child => t.childErase hi child lo

def contains (t : DenseBranch b w c inl C) (key : BitVec w) : Outcome Bool :=
  if maxKey (2 * b) w < key then pure false
  else do
    let hi := hiPart b key
    let lo := loPart b key
    if ← t.inlineMask.test hi then
      let value ← arrayGet t.inlineValue hi.toNat
      pure (value == lo)
    else
      match ← t.clusterPtr hi with
      | none => pure false
      | some child => VebNode.contains child lo

def min (t : DenseBranch b w c inl C) : Outcome (Option (BitVec w)) :=
  match t.summary with
  | none => pure none
  | some s => do
    match ← VebNode.min s with
    | none => .fallback none
    | some hi =>
      let idx := hi.setWidth 32
      if ← t.inlineMask.test idx then
        let value ← arrayGet t.inlineValue idx.toNat
        pure (some (combine b w idx value))
      else
        match ← t.clusterPtr idx with
        | none => .fallback none
        | some child =>
          match ← VebNode.min child with
          | none => .fallback none
          | some lo => pure (some (combine b w idx lo))

def max (t : DenseBranch b w c inl C) : Outcome (Option (BitVec w)) :=
  match t.summary with
  | none => pure none
  | some s => do
    match ← VebNode.max s with
    | none => .fallback none
    | some hi =>
      let idx := hi.setWidth 32
      if ← t.inlineMask.test idx then
        let value ← arrayGet t.inlineValue idx.toNat
        pure (some (combine b w idx value))
      else
        match ← t.clusterPtr idx with
        | none => .fallback none
        | some child =>
          match ← VebNode.max child with
          | none => .fallback none
          | some lo => pure (some (combine b w idx lo))

/-- The part of `successor` that looks into the key's own cluster. -/
def clusterSuccessor (t : DenseBranch b w c inl C) (hi : BitVec 32) (lo : BitVec c) :
    Outcome (Option (BitVec c)) := do
  if ← t.clusterActive hi then
    if ← t.inlineMask.test hi then
      let value ← arrayGet t.inlineValue hi.toNat
      pure (if lo < value then some value else none)
    else
      match ← t.clusterPtr hi with
      | none => pure none
      | some child => VebNode.successor child lo
  else pure none

/-- `cluster_ptr(idx)->min()` is not checked for null. -/
def successor (t : DenseBranch b w c inl C) (key : BitVec w) : Outcome (Option (BitVec w)) :=
  if t.summary.isNone then pure none
  else if maxKey (2 * b) w ≤ key then pure none
  else do
    let hi := hiPart b key
    match ← t.clusterSuccessor hi (loPart b key) with
    | some s => pure (some (combine b w hi s))
    | none =>
      match ← t.summarySuccessor hi with
      | none => pure none
      | some idx =>
        if ← t.inlineMask.test idx then
          let value ← arrayGet t.inlineValue idx.toNat
          pure (some (combine b w idx value))
        else
          match ← t.clusterPtr idx with
          | none => .fault .nullDereference
          | some child =>
            match ← VebNode.min child with
            | none => .fallback none
            | some lo => pure (some (combine b w idx lo))

/-- The part of `predecessor` that looks into the key's own cluster. -/
def clusterPredecessor (t : DenseBranch b w c inl C) (hi : BitVec 32) (limit : BitVec c) :
    Outcome (Option (BitVec c)) := do
  if ← t.clusterActive hi then
    if ← t.inlineMask.test hi then
      let value ← arrayGet t.inlineValue hi.toNat
      pure (if value < limit then some value else none)
    else
      match ← t.clusterPtr hi with
      | none => pure none
      | some child => VebNode.predecessor child limit
  else pure none

/-- `cluster_ptr(idx)->max()` is not checked for null. -/
def predecessor (t : DenseBranch b w c inl C) (key : BitVec w) : Outcome (Option (BitVec w)) :=
  if t.summary.isNone then pure none
  else if key = 0 ∨ maxKey (2 * b) w < key then pure none
  else do
    let hi := hiPart b key
    match ← t.clusterPredecessor hi (loPart b key) with
    | some p => pure (some (combine b w hi p))
    | none =>
      match ← t.summaryPredecessor hi with
      | none => pure none
      | some idx =>
        if ← t.inlineMask.test idx then
          let value ← arrayGet t.inlineValue idx.toNat
          pure (some (combine b w idx value))
        else
          match ← t.clusterPtr idx with
          | none => .fault .nullDereference
          | some child =>
            match ← VebNode.max child with
            | none => .fallback none
            | some lo => pure (some (combine b w idx lo))

/-- One call of the lambda in `for_each`. The child's `for_each` takes its own, narrower `Key`. -/
def visit (t : DenseBranch b w c inl C) (pfx : BitVec w) (clusterIdx : BitVec c) :
    Outcome (List ℕ) := do
  let hi := clusterIdx.setWidth 32
  let childPfx := pfx ||| (hi.setWidth w <<< b)
  if ← t.inlineMask.test hi then
    let value ← arrayGet t.inlineValue hi.toNat
    pure [(childPfx ||| value.setWidth w).toNat]
  else
    match ← t.clusterPtr hi with
    | none => pure []
    | some child => VebNode.forEach child (childPfx.setWidth c)

def forEach (t : DenseBranch b w c inl C) (pfx : BitVec w) : Outcome (List ℕ) :=
  match t.summary with
  | none => pure []
  | some s => do
    let indices ← VebNode.forEachAll s
    emitAll (t.visit pfx) indices

instance : VebNode (DenseBranch b w c inl C) w where
  fresh := ⟨.zero, .zero, fun _ => 0, fun _ => .init inl, none⟩
  empty := empty
  insert := DenseBranch.insert
  erase := erase
  contains := contains
  min := min
  max := max
  successor := successor
  predecessor := predecessor
  forEach := forEach
  forEachAll t := t.forEach 0

end DenseBranch

namespace SparseBranch

variable {b w c : ℕ} {M : ℕ → Type → Type} {C : Type} [FlatMap M] [VebNode C c]

/-- `static_cast<ClusterKey>(key >> CLUSTER_BITS)`. -/
def hiPart (b : ℕ) (key : BitVec w) : BitVec c := (key >>> b).setWidth c

def empty (t : SparseBranch b w c M C) : Bool := VebNode.empty t.summary

/-- A write to the entry that the iterator refers to. -/
def setEntry (t : SparseBranch b w c M C) (hi : BitVec c) (entry : ClusterEntry c C) :
    SparseBranch b w c M C :=
  { t with clusters := FlatMap.assign t.clusters hi entry }

def ensureChild (entry : ClusterEntry c C) (m : Mem) : Outcome (Exit (ClusterEntry c C)) :=
  match entry.child with
  | some _ => pure (.returned entry m)
  | none => m.alloc entry fun m =>
      pure (.returned { entry with child := some VebNode.fresh } m)

/-- `insert` through the `Child &` that `ensure_child` returned. -/
def childInsert (entry : ClusterEntry c C) (x : BitVec c) (m : Mem) :
    Outcome (Exit (ClusterEntry c C)) :=
  match entry.child with
  | none => .fault .nullDereference
  | some child =>
    (VebNode.insert child x m).within fun child => { entry with child := some child }

/-- `insert` once `try_emplace` has found the entry. -/
def entryInsert (entry : ClusterEntry c C) (lo : BitVec c) (m : Mem) :
    Outcome (Exit (ClusterEntry c C)) :=
  if entry.inlineOnly then
    if entry.inlineValue = lo then pure (.returned entry m)
    else
      (ensureChild entry m).andThen fun entry m =>
      (childInsert entry entry.inlineValue m).andThen fun entry m =>
      (childInsert entry lo m).andThen fun entry m =>
        pure (.returned { entry with inlineOnly := false } m)
  else (ensureChild entry m).andThen fun entry m => childInsert entry lo m

protected def insert (t : SparseBranch b w c M C) (key : BitVec w) (m : Mem) :
    Outcome (Exit (SparseBranch b w c M C)) :=
  let hi : BitVec c := hiPart b key
  let lo : BitVec c := loPart b key
  match FlatMap.find t.clusters hi with
  | some entry => (entryInsert entry lo m).within (t.setEntry hi)
  | none => m.alloc t fun m =>
      let t : SparseBranch b w c M C := { t with clusters := FlatMap.emplace t.clusters hi {} }
      ((VebNode.insert t.summary hi m).within fun s => { t with summary := s }).andThen
        fun t m => pure (.returned (t.setEntry hi { inlineValue := lo }) m)

def removeCluster (t : SparseBranch b w c M C) (hi : BitVec c) :
    Outcome (SparseBranch b w c M C) := do
  let s ← VebNode.erase t.summary hi
  pure { t with summary := s, clusters := FlatMap.erase t.clusters hi }

def erase (t : SparseBranch b w c M C) (key : BitVec w) : Outcome (SparseBranch b w c M C) :=
  let hi : BitVec c := hiPart b key
  let lo : BitVec c := loPart b key
  match FlatMap.find t.clusters hi with
  | none => pure t
  | some entry =>
    if entry.inlineOnly then
      if entry.inlineValue ≠ lo then pure t else t.removeCluster hi
    else
      match entry.child with
      | none => .fallback t
      | some child => do
        let child ← VebNode.erase child lo
        let t := t.setEntry hi { entry with child := some child }
        if VebNode.empty child then t.removeCluster hi else pure t

def contains (t : SparseBranch b w c M C) (key : BitVec w) : Outcome Bool :=
  let hi : BitVec c := hiPart b key
  let lo : BitVec c := loPart b key
  match FlatMap.find t.clusters hi with
  | none => pure false
  | some entry =>
    if entry.inlineOnly then pure (entry.inlineValue == lo)
    else
      match entry.child with
      | none => pure false
      | some child => VebNode.contains child lo

def min (t : SparseBranch b w c M C) : Outcome (Option (BitVec w)) := do
  match ← VebNode.min t.summary with
  | none => pure none
  | some hi =>
    match FlatMap.find t.clusters hi with
    | none => .fallback none
    | some entry =>
      if entry.inlineOnly then pure (some (combine b w hi entry.inlineValue))
      else
        match entry.child with
        | none => .fallback none
        | some child =>
          match ← VebNode.min child with
          | none => .fallback none
          | some lo => pure (some (combine b w hi lo))

def max (t : SparseBranch b w c M C) : Outcome (Option (BitVec w)) := do
  match ← VebNode.max t.summary with
  | none => pure none
  | some hi =>
    match FlatMap.find t.clusters hi with
    | none => .fallback none
    | some entry =>
      if entry.inlineOnly then pure (some (combine b w hi entry.inlineValue))
      else
        match entry.child with
        | none => .fallback none
        | some child =>
          match ← VebNode.max child with
          | none => .fallback none
          | some lo => pure (some (combine b w hi lo))

/-- The part of `successor` that looks into the key's own cluster. -/
def clusterSuccessor (t : SparseBranch b w c M C) (hi lo : BitVec c) :
    Outcome (Option (BitVec c)) :=
  match FlatMap.find t.clusters hi with
  | none => pure none
  | some entry =>
    if entry.inlineOnly then
      pure (if lo < entry.inlineValue then some entry.inlineValue else none)
    else
      match entry.child with
      | none => pure none
      | some child => VebNode.successor child lo

def successor (t : SparseBranch b w c M C) (key : BitVec w) : Outcome (Option (BitVec w)) :=
  if VebNode.empty t.summary then pure none
  else if maxKey (2 * b) w ≤ key then pure none
  else do
    let hi : BitVec c := hiPart b key
    match ← t.clusterSuccessor hi (loPart b key) with
    | some s => pure (some (combine b w hi s))
    | none =>
      match ← VebNode.successor t.summary hi with
      | none => pure none
      | some nextHi =>
        match FlatMap.find t.clusters nextHi with
        | none => .fallback none
        | some entry =>
          if entry.inlineOnly then pure (some (combine b w nextHi entry.inlineValue))
          else
            match entry.child with
            | none => .fallback none
            | some child =>
              match ← VebNode.min child with
              | none => .fallback none
              | some lo => pure (some (combine b w nextHi lo))

/-- The part of `predecessor` that looks into the key's own cluster. -/
def clusterPredecessor (t : SparseBranch b w c M C) (hi limit : BitVec c) :
    Outcome (Option (BitVec c)) :=
  match FlatMap.find t.clusters hi with
  | none => pure none
  | some entry =>
    if entry.inlineOnly then
      pure (if entry.inlineValue < limit then some entry.inlineValue else none)
    else
      match entry.child with
      | none => pure none
      | some child => VebNode.predecessor child limit

def predecessor (t : SparseBranch b w c M C) (key : BitVec w) : Outcome (Option (BitVec w)) :=
  if VebNode.empty t.summary then pure none
  else if key = 0 ∨ maxKey (2 * b) w < key then pure none
  else do
    let hi : BitVec c := hiPart b key
    match ← t.clusterPredecessor hi (loPart b key) with
    | some p => pure (some (combine b w hi p))
    | none =>
      match ← VebNode.predecessor t.summary hi with
      | none => pure none
      | some prevHi =>
        match FlatMap.find t.clusters prevHi with
        | none => .fallback none
        | some entry =>
          if entry.inlineOnly then pure (some (combine b w prevHi entry.inlineValue))
          else
            match entry.child with
            | none => .fallback none
            | some child =>
              match ← VebNode.max child with
              | none => .fallback none
              | some lo => pure (some (combine b w prevHi lo))

/-- One call of the lambda in `for_each`. The child's `for_each` takes its own, narrower `Key`. -/
def visit (t : SparseBranch b w c M C) (pfx : BitVec w) (clusterIdx : BitVec c) :
    Outcome (List ℕ) :=
  match FlatMap.find t.clusters clusterIdx with
  | none => pure []
  | some entry =>
    let childPfx := pfx ||| (clusterIdx.setWidth w <<< b)
    if entry.inlineOnly then pure [(childPfx ||| entry.inlineValue.setWidth w).toNat]
    else
      match entry.child with
      | none => pure []
      | some child => VebNode.forEach child (childPfx.setWidth c)

def forEach (t : SparseBranch b w c M C) (pfx : BitVec w) : Outcome (List ℕ) := do
  let indices ← VebNode.forEachAll t.summary
  emitAll (t.visit pfx) indices

instance : VebNode (SparseBranch b w c M C) w where
  fresh := ⟨VebNode.fresh, FlatMap.empty⟩
  empty := empty
  insert := SparseBranch.insert
  erase := erase
  contains := contains
  min := min
  max := max
  successor := successor
  predecessor := predecessor
  forEach := forEach
  forEachAll t := t.forEach 0

end SparseBranch

end ParvEB
