import ParvEB.Node

/-! The searches for a nonzero word, scalar and vectorised. -/
namespace ParvEB

/-- `std::span<uint64_t const>`. The bytes of an array are counted in `size_t`. -/
structure WordSpan where
  size : ℕ
  words : Fin size → BitVec 64
  bytes_lt : size * 8 < 2 ^ 64

/-- Addition of `size_t`. A sum that would wrap is taken for an index out of bounds. -/
def sizeAdd (a b : ℕ) : Outcome ℕ := if a + b < 2 ^ 64 then pure (a + b) else .fault .outOfBounds

/-- Subtraction of `size_t`, likewise. -/
def sizeSub (a b : ℕ) : Outcome ℕ := if b ≤ a then pure (a - b) else .fault .outOfBounds

section Intrinsics

/-- Byte `j` of a word in memory. -/
def byteOf (x : BitVec 64) (j : ℕ) : BitVec 8 := x.extractLsb' (8 * j) 8

/-- `_mm256_loadu_si256` with four words, `_mm_loadu_si128` with two: the bytes from word `i` on. -/
def loadu (words : WordSpan) (i n : ℕ) : Outcome (Fin (8 * n) → BitVec 8) :=
  if h : i + n ≤ words.size then
    pure fun j => byteOf (words.words ⟨i + j / 8, by omega⟩) (j % 8)
  else .fault .outOfBounds

/-- 1 when no bit is set in both registers. -/
def mm256TestzSi256 (a b : Fin 32 → BitVec 8) : ℕ := if ∀ j, a j &&& b j = 0 then 1 else 0

def mmSetzeroSi128 : Fin 16 → BitVec 8 := fun _ => 0

/-- All ones in each byte where the registers agree, else zeros. -/
def mmCmpeqEpi8 (a b : Fin 16 → BitVec 8) : Fin 16 → BitVec 8 :=
  fun j => if a j = b j then BitVec.allOnes 8 else 0

/-- The highest bit of each byte. -/
def mmMovemaskEpi8 (a : Fin 16 → BitVec 8) : BitVec 32 :=
  (BitVec.ofBoolListLE (List.ofFn fun j => (a j).msb)).setWidth 32

end Intrinsics

/-- What the AVX2 and the SSE2 searches differ in: the number of words in a chunk and the test that
a chunk is zero. -/
structure Lanes where
  stride : ℕ
  isZero : (Fin (8 * stride) → BitVec 8) → Bool

def avx2 : Lanes where
  stride := 4
  isZero chunk := mm256TestzSi256 chunk chunk != 0

def sse2 : Lanes where
  stride := 2
  isZero chunk := mmMovemaskEpi8 (mmCmpeqEpi8 chunk mmSetzeroSi128) == 0xFFFF

section Next

variable (words : WordSpan)

/-- `for (; i < words.size(); ++i)`, with a bound on the rounds. -/
def nextLoop : ℕ → ℕ → Outcome (Option ℕ)
  | 0, _ => .fault .outOfFuel
  | n + 1, i =>
    if i < words.size then do
      let word ← arrayGet words.words i
      if word ≠ 0 then pure (some i)
      else
        let i ← sizeAdd i 1
        nextLoop n i
    else pure none

def scalarFindNext (start : ℕ) : Outcome (Option ℕ) := nextLoop words (words.size + 1) start

/-- `for (off = 0; off < kStride; ++off)`: `n` rounds are left. -/
def rescanNext (i : ℕ) : ℕ → ℕ → Outcome (Option ℕ)
  | 0, _ => pure none
  | n + 1, off => do
    let k ← sizeAdd i off
    let word ← arrayGet words.words k
    if word ≠ 0 then pure (some k) else rescanNext i n (off + 1)

/-- `for (; i + kStride <= words.size(); i += kStride)`, and the scalar loop after it. -/
def chunkNext (lanes : Lanes) : ℕ → ℕ → Outcome (Option ℕ)
  | 0, _ => .fault .outOfFuel
  | n + 1, i => do
    let next ← sizeAdd i lanes.stride
    if next ≤ words.size then
      let chunk ← loadu words i lanes.stride
      let found ← (if lanes.isZero chunk then pure none else rescanNext words i lanes.stride 0)
      match found with
      | some k => pure (some k)
      | none => chunkNext lanes n next
    else nextLoop words (words.size + 1) i

def avx2FindNext (start : ℕ) : Outcome (Option ℕ) := chunkNext words avx2 (words.size + 1) start

def sse2FindNext (start : ℕ) : Outcome (Option ℕ) := chunkNext words sse2 (words.size + 1) start

end Next

/-- How a loop ends: with the answer, or at the index where the next loop begins. -/
inductive Flow
  | answer (r : Option ℕ)
  | goOn (idx : ℕ)

section Prev

variable (words : WordSpan)

/-- `if (start >= words.size()) start = words.size() - 1`. -/
def clampStart (start : ℕ) : Outcome ℕ :=
  if words.size ≤ start then sizeSub words.size 1 else pure start

/-- `for (i = start + 1; i-- > 0;)`. -/
def prevLoop : ℕ → Outcome (Option ℕ)
  | 0 => pure none
  | i + 1 => do
    let word ← arrayGet words.words i
    if word ≠ 0 then pure (some i)
    else if i = 0 then pure none
    else prevLoop i

def scalarFindPrev (start : ℕ) : Outcome (Option ℕ) :=
  if words.size = 0 then pure none
  else do
    let start ← clampStart words start
    let i ← sizeAdd start 1
    prevLoop words i

/-- `while ((idx + 1) % kStride != 0)`, with a bound on the rounds. -/
def peelPrev (lanes : Lanes) : ℕ → ℕ → Outcome Flow
  | 0, _ => .fault .outOfFuel
  | n + 1, idx => do
    let next ← sizeAdd idx 1
    if next % lanes.stride ≠ 0 then
      let word ← arrayGet words.words idx
      if word ≠ 0 then pure (.answer (some idx))
      else if idx = 0 then pure (.answer none)
      else
        let idx ← sizeSub idx 1
        peelPrev lanes n idx
    else pure (.goOn idx)

/-- `for (off = kStride - 1; off >= 0; --off)`. -/
def rescanPrev (start base : ℕ) : ℕ → Outcome (Option ℕ)
  | 0 => pure none
  | off + 1 => do
    let wordIdx ← sizeAdd base off
    if start < wordIdx then rescanPrev start base off
    else
      let word ← arrayGet words.words wordIdx
      if word ≠ 0 then pure (some wordIdx) else rescanPrev start base off

/-- `while (true)`, with a bound on the rounds. -/
def chunkPrev (lanes : Lanes) (start : ℕ) : ℕ → ℕ → Outcome Flow
  | 0, _ => .fault .outOfFuel
  | n + 1, idx => do
    let next ← sizeAdd idx 1
    let base ← (if lanes.stride ≤ next then sizeSub next lanes.stride else pure 0)
    let chunk ← loadu words base lanes.stride
    let found ←
      (if lanes.isZero chunk then pure none else rescanPrev words start base lanes.stride)
    match found with
    | some k => pure (.answer (some k))
    | none =>
      if base = 0 then pure (.goOn idx)
      else
        let idx ← sizeSub base 1
        chunkPrev lanes start n idx

/-- `for (tail = ...;; --tail)`: the only exit without a word is at 0. -/
def tailPrev : ℕ → Outcome (Option ℕ)
  | 0 => do
    let word ← arrayGet words.words 0
    if word ≠ 0 then pure (some 0) else pure none
  | tail + 1 => do
    let word ← arrayGet words.words (tail + 1)
    if word ≠ 0 then pure (some (tail + 1)) else tailPrev tail

def vectorFindPrev (lanes : Lanes) (start : ℕ) : Outcome (Option ℕ) :=
  if words.size = 0 then pure none
  else do
    let start ← clampStart words start
    match ← peelPrev words lanes (words.size + 1) start with
    | .answer r => pure r
    | .goOn idx =>
      match ← chunkPrev words lanes start (words.size + 1) idx with
      | .answer r => pure r
      | .goOn idx => tailPrev words (Nat.min idx (lanes.stride - 1))

def avx2FindPrev (start : ℕ) : Outcome (Option ℕ) := vectorFindPrev words avx2 start

def sse2FindPrev (start : ℕ) : Outcome (Option ℕ) := vectorFindPrev words sse2 start

end Prev

/-- What `detect_mode` may find. -/
inductive Mode
  | scalar | sse2 | avx2
  deriving DecidableEq

def findNextNonzero (mode : Mode) (words : WordSpan) (startWord : ℕ) : Outcome (Option ℕ) :=
  if words.size ≤ startWord then pure none
  else
    match mode with
    | .avx2 => avx2FindNext words startWord
    | .sse2 => sse2FindNext words startWord
    | .scalar => scalarFindNext words startWord

def findPrevNonzero (mode : Mode) (words : WordSpan) (startWord : ℕ) : Outcome (Option ℕ) :=
  if words.size = 0 then pure none
  else
    match mode with
    | .avx2 => avx2FindPrev words startWord
    | .sse2 => sse2FindPrev words startWord
    | .scalar => scalarFindPrev words startWord

end ParvEB
