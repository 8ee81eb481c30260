import ParvEB.Node
import ParvEB.Word

/-! The bit-mask leaves `VebLeaf6` and `VebLeaf8`. -/
namespace ParvEB

/-- `while (word) { fn(countr_zero(word)); word &= word - 1; }`, with a bound on the rounds. -/
def whileBits (fn : ℕ → ℕ) : ℕ → BitVec 64 → Outcome (List ℕ)
  | 0, word => if word = 0 then pure [] else .fault .outOfFuel
  | n + 1, word =>
    if word = 0 then pure []
    else do
      let rest ← whileBits fn n (word &&& (word - 1))
      pure (fn (countrZero word) :: rest)

/-- The members that take a batch of keys, which only the leaves have. -/
class BatchNode (T : Type) (w : outParam ℕ) where
  batchInsert : T → List (BitVec w) → Outcome T
  batchErase : T → List (BitVec w) → Outcome T

/-- `Key` is `uint8_t`. -/
structure VebLeaf6 where
  bits : BitVec 64
  deriving DecidableEq, Repr

namespace VebLeaf6

def insert (t : VebLeaf6) (x : BitVec 8) : Outcome VebLeaf6 := do
  let mask ← shl64 1#64 x.toNat
  pure ⟨t.bits ||| mask⟩

def erase (t : VebLeaf6) (x : BitVec 8) : Outcome VebLeaf6 := do
  let mask ← shl64 1#64 x.toNat
  pure ⟨t.bits &&& ~~~mask⟩

/-- `for (; first != last; ++first) mask |= uint64_t(1) << *first;`. -/
def gather (mask : BitVec 64) : List (BitVec 8) → Outcome (BitVec 64)
  | [] => pure mask
  | x :: xs => do
    let bit ← shl64 1#64 x.toNat
    gather (mask ||| bit) xs

def batchInsert (t : VebLeaf6) (keys : List (BitVec 8)) : Outcome VebLeaf6 := do
  let mask ← gather 0 keys
  pure ⟨t.bits ||| mask⟩

def batchErase (t : VebLeaf6) (keys : List (BitVec 8)) : Outcome VebLeaf6 := do
  let mask ← gather 0 keys
  pure ⟨t.bits &&& ~~~mask⟩

def contains (t : VebLeaf6) (x : BitVec 8) : Outcome Bool := do
  let shifted ← shr64 t.bits x.toNat
  pure (shifted &&& 1 != 0)

def empty (t : VebLeaf6) : Bool := t.bits == 0

def min (t : VebLeaf6) : Option (BitVec 8) :=
  if t.bits = 0 then none else some (BitVec.ofNat 8 (countrZero t.bits))

def max (t : VebLeaf6) : Option (BitVec 8) :=
  if t.bits = 0 then none else some (BitVec.ofNat 8 (63 - countlZero t.bits))

def successor (t : VebLeaf6) (x : BitVec 8) : Outcome (Option (BitVec 8)) :=
  if x = 63 then pure none
  else do
    let ones ← shl64 (BitVec.allOnes 64) (x.toNat + 1)
    let mask := t.bits &&& ones
    pure (if mask = 0 then none else some (BitVec.ofNat 8 (countrZero mask)))

def predecessor (t : VebLeaf6) (x : BitVec 8) : Outcome (Option (BitVec 8)) :=
  if x = 0 then pure none
  else do
    let bit ← shl64 1#64 x.toNat
    let mask := t.bits &&& (bit - 1)
    pure (if mask = 0 then none else some (BitVec.ofNat 8 (63 - countlZero mask)))

def forEach (t : VebLeaf6) (pfx : BitVec 8) : Outcome (List ℕ) :=
  whileBits (fun bit => (pfx ||| BitVec.ofNat 8 bit).toNat) 64 t.bits

def forEachAll (t : VebLeaf6) : Outcome (List ℕ) :=
  whileBits (fun bit => (BitVec.ofNat 8 bit).toNat) 64 t.bits

instance : VebNode VebLeaf6 8 where
  fresh := ⟨0⟩
  empty := empty
  insert t x m := do
    let t ← t.insert x
    pure (.returned t m)
  erase := erase
  contains := contains
  min t := pure t.min
  max t := pure t.max
  successor := successor
  predecessor := predecessor
  forEach := forEach
  forEachAll := forEachAll

instance : BatchNode VebLeaf6 8 where
  batchInsert := batchInsert
  batchErase := batchErase

end VebLeaf6

/-- `Key` is `uint16_t`. -/
structure VebLeaf8 where
  words : Fin 4 → BitVec 64

namespace VebLeaf8

def locate (x : BitVec 16) : ℕ × BitVec 64 := ((x >>> 6).toNat, 1#64 <<< (x &&& 63).toNat)

def insert (t : VebLeaf8) (x : BitVec 16) : Outcome VebLeaf8 := do
  let word ← arrayGet t.words (locate x).1
  let words ← arraySet t.words (locate x).1 (word ||| (locate x).2)
  pure ⟨words⟩

def erase (t : VebLeaf8) (x : BitVec 16) : Outcome VebLeaf8 := do
  let word ← arrayGet t.words (locate x).1
  let words ← arraySet t.words (locate x).1 (word &&& ~~~(locate x).2)
  pure ⟨words⟩

/-- The loop over the batch: `accum[idx] |= mask`. -/
def gather (accum : Fin 4 → BitVec 64) : List (BitVec 16) → Outcome (Fin 4 → BitVec 64)
  | [] => pure accum
  | x :: xs => do
    let word ← arrayGet accum (locate x).1
    let accum ← arraySet accum (locate x).1 (word ||| (locate x).2)
    gather accum xs

def batchInsert (t : VebLeaf8) (keys : List (BitVec 16)) : Outcome VebLeaf8 := do
  let accum ← gather (fun _ => 0) keys
  pure ⟨fun i => t.words i ||| accum i⟩

def batchErase (t : VebLeaf8) (keys : List (BitVec 16)) : Outcome VebLeaf8 := do
  let accum ← gather (fun _ => 0) keys
  pure ⟨fun i => t.words i &&& ~~~accum i⟩

def contains (t : VebLeaf8) (x : BitVec 16) : Outcome Bool := do
  let word ← arrayGet t.words (locate x).1
  pure (word &&& (locate x).2 != 0)

def empty (t : VebLeaf8) : Bool := (t.words 0 ||| t.words 1 ||| t.words 2 ||| t.words 3) == 0

/-- The loop over `words_[i], ..., words_[i + n - 1]` that stops at a nonzero word. -/
def scanUp (t : VebLeaf8) : ℕ → ℕ → Outcome (Option (BitVec 16))
  | 0, _ => pure none
  | n + 1, i => do
    let word ← arrayGet t.words i
    if word = 0 then t.scanUp n (i + 1)
    else pure (some (BitVec.ofNat 16 (i * 64 + countrZero word)))

/-- The loop over `words_[n - 1], ..., words_[0]` that stops at a nonzero word. -/
def scanDown (t : VebLeaf8) : ℕ → Outcome (Option (BitVec 16))
  | 0 => pure none
  | n + 1 => do
    let word ← arrayGet t.words n
    if word = 0 then t.scanDown n
    else pure (some (BitVec.ofNat 16 (n * 64 + (63 - countlZero word))))

def min (t : VebLeaf8) : Outcome (Option (BitVec 16)) := t.scanUp 4 0

def max (t : VebLeaf8) : Outcome (Option (BitVec 16)) := t.scanDown 4

/-- `offset == 63 ? 0 : (~0ull << (offset + 1))`. -/
def maskAbove (offset : ℕ) : Outcome (BitVec 64) :=
  if offset = 63 then pure 0 else shl64 (BitVec.allOnes 64) (offset + 1)

/-- `offset == 0 ? 0 : ((uint64_t(1) << offset) - 1)`. -/
def maskBelow (offset : ℕ) : Outcome (BitVec 64) :=
  if offset = 0 then pure 0
  else do
    let bit ← shl64 1#64 offset
    pure (bit - 1)

def successor (t : VebLeaf8) (x : BitVec 16) : Outcome (Option (BitVec 16)) :=
  if x = 255 then pure none
  else do
    let wordIdx := (x >>> 6).toNat
    let offset := (x &&& 63).toNat
    let word ← arrayGet t.words wordIdx
    let mask ← maskAbove offset
    let candidate := word &&& mask
    if candidate = 0 then t.scanUp (4 - (wordIdx + 1)) (wordIdx + 1)
    else pure (some (BitVec.ofNat 16 (wordIdx * 64 + countrZero candidate)))

def predecessor (t : VebLeaf8) (x : BitVec 16) : Outcome (Option (BitVec 16)) :=
  if x = 0 then pure none
  else do
    let wordIdx := (x >>> 6).toNat
    let offset := (x &&& 63).toNat
    let word ← arrayGet t.words wordIdx
    let mask ← maskBelow offset
    let candidate := word &&& mask
    if candidate = 0 then t.scanDown wordIdx
    else pure (some (BitVec.ofNat 16 (wordIdx * 64 + (63 - countlZero candidate))))

/-- The outer loop of `for_each`, over `words_[i], ..., words_[i + n - 1]`. -/
def forEachWord (t : VebLeaf8) (pfx : BitVec 16) : ℕ → ℕ → Outcome (List ℕ)
  | 0, _ => pure []
  | n + 1, i => do
    let word ← arrayGet t.words i
    let here ← whileBits (fun bit => (pfx ||| BitVec.ofNat 16 (i * 64 + bit)).toNat) 64 word
    let rest ← t.forEachWord pfx n (i + 1)
    pure (here ++ rest)

def forEach (t : VebLeaf8) (pfx : BitVec 16) : Outcome (List ℕ) := t.forEachWord pfx 4 0

instance : VebNode VebLeaf8 16 where
  fresh := ⟨fun _ => 0⟩
  empty := empty
  insert t x m := do
    let t ← t.insert x
    pure (.returned t m)
  erase := erase
  contains := contains
  min := min
  max := max
  successor := successor
  predecessor := predecessor
  forEach := forEach
  forEachAll t := t.forEach 0

instance : BatchNode VebLeaf8 16 where
  batchInsert := batchInsert
  batchErase := batchErase

end VebLeaf8

end ParvEB
