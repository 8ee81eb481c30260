import ParvEB.Search
import ParvEB.SimdUtils
import ParvEB.WordArray

/-! The searches for a nonzero word are exact. -/
namespace ParvEB

open Outcome

/-- The indices of the words that are not zero. -/
def WordSpan.nonzero (words : WordSpan) : Set ℕ :=
  {i | ∃ h : i < words.size, words.words ⟨i, h⟩ ≠ 0}

section Intrinsics

theorem bytes_zero_iff (x : BitVec 64) : (∀ j < 8, byteOf x j = 0) ↔ x = 0 := by
  constructor
  · intro h
    apply BitVec.eq_of_getLsbD_eq
    intro i hi
    have hbit := congrArg (·.getLsbD (i % 8)) (h (i / 8) (by omega))
    have hlow : i % 8 < 8 := Nat.mod_lt i (by omega)
    simpa [byteOf, BitVec.getLsbD_extractLsb', hlow, Nat.div_add_mod] using hbit
  · rintro rfl j _
    exact BitVec.extractLsb'_zero

theorem testz_ne_zero_iff (a : Fin 32 → BitVec 8) :
    mm256TestzSi256 a a ≠ 0 ↔ ∀ j, a j = 0 := by
  unfold mm256TestzSi256
  split <;> simp_all

theorem getLsbD_movemask (a : Fin 16 → BitVec 8) (i : ℕ) :
    (mmMovemaskEpi8 a).getLsbD i = if h : i < 16 then (a ⟨i, h⟩).msb else false := by
  rw [mmMovemaskEpi8, BitVec.getLsbD_setWidth, BitVec.getLsbD_ofBoolListLE, List.getD,
    List.getElem?_ofFn]
  split
  next h => simp [show i < 32 by omega]
  next h => simp

theorem msb_cmpeq_iff (a b : Fin 16 → BitVec 8) (j : Fin 16) :
    (mmCmpeqEpi8 a b j).msb = true ↔ a j = b j := by
  have hones : (BitVec.allOnes 8).msb = true := by decide
  unfold mmCmpeqEpi8
  split
  next h => exact iff_of_true hones h
  next h => exact iff_of_false (by decide) h

theorem movemask_cmpeq_iff (a : Fin 16 → BitVec 8) :
    mmMovemaskEpi8 (mmCmpeqEpi8 a mmSetzeroSi128) = 0xFFFF ↔ ∀ j, a j = 0 := by
  have hmask : ∀ i : Fin 32, (0xFFFF#32).getLsbD i = decide (i.val < 16) := by decide
  constructor
  · intro h j
    have hbit : _ = (0xFFFF#32).getLsbD j.val := congrArg (·.getLsbD j.val) h
    rw [hmask ⟨j, by omega⟩, getLsbD_movemask, dif_pos j.isLt, decide_eq_true j.isLt] at hbit
    exact (msb_cmpeq_iff a mmSetzeroSi128 j).mp hbit
  · intro h
    apply BitVec.eq_of_getLsbD_eq
    intro i hi
    change _ = (0xFFFF#32).getLsbD i
    rw [getLsbD_movemask, hmask ⟨i, hi⟩]
    split
    next hlt =>
      rw [decide_eq_true hlt]
      exact (msb_cmpeq_iff a mmSetzeroSi128 ⟨i, hlt⟩).mpr (h _)
    next hlt => rw [decide_eq_false hlt]

/-- Chunks of one to eight words, tested exactly. -/
structure Lanes.Exact (lanes : Lanes) : Prop where
  pos : 0 < lanes.stride
  le : lanes.stride ≤ 8
  isZero_iff : ∀ chunk, lanes.isZero chunk = true ↔ ∀ j, chunk j = 0

theorem avx2_exact : avx2.Exact where
  pos := by decide
  le := by decide
  isZero_iff chunk := bne_iff_ne.trans (testz_ne_zero_iff chunk)

theorem sse2_exact : sse2.Exact where
  pos := by decide
  le := by decide
  isZero_iff chunk := beq_iff_eq.trans (movemask_cmpeq_iff chunk)

end Intrinsics

variable {words : WordSpan} {lanes : Lanes} {i k n : ℕ}

section Reads

/-- The bytes of the array fit in `size_t`, so an index near it cannot wrap. -/
theorem sizeAdd_of_le (hi : i ≤ words.size) (hk : k ≤ 8) : sizeAdd i k = pure (i + k) := by
  have := words.bytes_lt
  exact if_pos (by omega)

theorem sizeSub_of_le (h : k ≤ i) : sizeSub i k = pure (i - k) := if_pos h

theorem WordSpan.lt_of_mem (h : i ∈ words.nonzero) : i < words.size := h.fst

theorem WordSpan.read (h : i < words.size) :
    ∃ x, arrayGet words.words i = pure x ∧ (x ≠ 0 ↔ i ∈ words.nonzero) := by
  refine ⟨_, arrayGet_of_lt h, ?_⟩
  constructor
  · exact fun hx => ⟨h, hx⟩
  · exact fun ⟨_, hx⟩ => hx

theorem loadu_spec (h : i + n ≤ words.size) : ∃ chunk, loadu words i n = pure chunk ∧
    ((∀ j, chunk j = 0) ↔ ∀ k, i ≤ k → k < i + n → k ∉ words.nonzero) := by
  refine ⟨_, dif_pos h, ?_⟩
  constructor
  · rintro hzero k hik hk ⟨hks, hne⟩
    apply hne
    rw [← bytes_zero_iff]
    intro j hj
    have hq : i + (8 * (k - i) + j) / 8 = k := by omega
    have hr : (8 * (k - i) + j) % 8 = j := by omega
    simpa [hq, hr] using hzero ⟨8 * (k - i) + j, by omega⟩
  · intro hno j
    have hword : words.words ⟨i + j / 8, by omega⟩ = 0 := by
      by_contra hne
      exact hno (i + j / 8) (by omega) (by omega) ⟨by omega, hne⟩
    exact (bytes_zero_iff _).mpr hword _ (Nat.mod_lt _ (by omega))

end Reads

section Next

theorem nextLoop_spec (hn : words.size - i < n) :
    Returns (nextLoop words n i) (IsFirst (upFrom words.nonzero i)) := by
  induction n generalizing i with
  | zero => omega
  | succ n ih =>
    rw [nextLoop]
    split
    next hi =>
      obtain ⟨x, hx, hmem⟩ := WordSpan.read hi
      rw [hx, pure_bind]
      split
      next hne =>
        exact returns_pure.mpr (isFirst_here (hmem.mp hne))
      next hzero =>
        rw [sizeAdd_of_le hi.le (by omega), pure_bind, upFrom_step fun h => hzero (hmem.mpr h)]
        exact ih (by omega)
    next hi =>
      refine returns_pure.mpr (upFrom_eq_empty fun y hy => ?_)
      have := WordSpan.lt_of_mem hy
      omega

/-- `off` words of the chunk are known to be zero; `n` are left. -/
theorem rescanNext_spec {off : ℕ} (hi : i + off + n ≤ words.size) (hoff : off + n ≤ 8) :
    Returns (rescanNext words i n off)
      (IsFirst (upFrom (below words.nonzero (i + off + n)) (i + off))) := by
  induction n generalizing off with
  | zero => exact returns_pure.mpr (upFrom_eq_empty fun y hy => hy.2)
  | succ n ih =>
    have hlt : i + off < words.size := by omega
    have hle : i ≤ words.size := by omega
    obtain ⟨x, hx, hmem⟩ := WordSpan.read hlt
    rw [rescanNext, sizeAdd_of_le hle (by omega), pure_bind, hx, pure_bind]
    split
    next hne =>
      exact returns_pure.mpr (isFirst_here ⟨hmem.mp hne, by omega⟩)
    next hzero =>
      rw [upFrom_step fun h => hzero (hmem.mpr h.1)]
      have := @ih (off + 1) (by omega) (by omega)
      rwa [show i + (off + 1) + n = i + off + (n + 1) by omega] at this

/-- A chunk that is zero has no first word, and one that is not is searched. -/
theorem loadNext_spec (hl : lanes.Exact) (h : i + lanes.stride ≤ words.size) :
    ∃ chunk, loadu words i lanes.stride = pure chunk ∧
      Returns (if lanes.isZero chunk then pure none else rescanNext words i lanes.stride 0)
        (IsFirst (upFrom (below words.nonzero (i + lanes.stride)) i)) := by
  obtain ⟨chunk, hchunk, hzero⟩ := loadu_spec h
  refine ⟨chunk, hchunk, ?_⟩
  split
  next hz =>
    refine returns_pure.mpr (upFrom_eq_empty fun y hy => ?_)
    by_contra hiy
    exact hzero.mp ((hl.isZero_iff chunk).mp hz) y (not_lt.mp hiy) hy.2 hy.1
  next =>
    have hle := hl.le
    exact rescanNext_spec (show i + 0 + lanes.stride ≤ words.size from h) (by omega)

theorem chunkNext_spec (hl : lanes.Exact) (hi : i ≤ words.size) (hn : words.size - i < n) :
    Returns (chunkNext words lanes n i) (IsFirst (upFrom words.nonzero i)) := by
  have hpos := hl.pos
  have hle := hl.le
  induction n generalizing i with
  | zero => omega
  | succ n ih =>
    rw [chunkNext, sizeAdd_of_le hi hle, pure_bind]
    split
    next hnext =>
      obtain ⟨chunk, hchunk, hfound⟩ := loadNext_spec hl hnext
      rw [hchunk, pure_bind]
      refine hfound.bind ?_
      rintro (_ | k) hk
      · rw [upFrom_of_stretch (Nat.le_add_right i lanes.stride) hk]
        exact ih hnext (by omega)
      · exact returns_pure.mpr (isFirst_of_stretch hk)
    next => exact nextLoop_spec (by omega)

end Next

section Prev

theorem prevLoop_spec (hi : i ≤ words.size) :
    Returns (prevLoop words i) (IsLast (below words.nonzero i)) := by
  induction i with
  | zero => exact returns_pure.mpr (below_zero _)
  | succ i ih =>
    obtain ⟨x, hx, hmem⟩ := WordSpan.read (Nat.lt_of_succ_le hi)
    rw [prevLoop, hx, pure_bind]
    split
    next hne => exact returns_pure.mpr (isLast_here (hmem.mp hne))
    next hzero =>
      rw [below_step fun h => hzero (hmem.mpr h)]
      split
      next h0 => exact returns_pure.mpr (h0 ▸ below_zero _)
      next => exact ih (Nat.le_of_succ_le hi)

theorem tailPrev_spec (hi : i < words.size) :
    Returns (tailPrev words i) (IsLast (below words.nonzero (i + 1))) := by
  induction i with
  | zero =>
    obtain ⟨x, hx, hmem⟩ := WordSpan.read hi
    rw [tailPrev, hx, pure_bind]
    split
    next hne => exact returns_pure.mpr (isLast_here (hmem.mp hne))
    next hzero =>
      rw [below_step fun h => hzero (hmem.mpr h)]
      exact returns_pure.mpr (below_zero _)
  | succ i ih =>
    obtain ⟨x, hx, hmem⟩ := WordSpan.read hi
    rw [tailPrev, hx, pure_bind]
    split
    next hne => exact returns_pure.mpr (isLast_here (hmem.mp hne))
    next hzero =>
      rw [below_step fun h => hzero (hmem.mpr h)]
      exact ih (Nat.lt_of_succ_lt hi)

/-- An answer is exact below `stop`. Where the loop goes on, the words it has passed were zero. -/
def Flow.Exact (S : Set ℕ) (stop : ℕ) (P : ℕ → Prop) : Flow → Prop
  | .answer r => IsLast (below S stop) r
  | .goOn idx => P idx ∧ below S stop = below S (idx + 1)

theorem Flow.Exact.skip {S : Set ℕ} {stop stop' : ℕ} {P Q : ℕ → Prop} {flow : Flow}
    (h : flow.Exact S stop P) (hskip : below S stop' = below S stop) (hpq : ∀ idx, P idx → Q idx) :
    flow.Exact S stop' Q := by
  cases flow with
  | answer r =>
    change IsLast _ r
    rw [hskip]
    exact h
  | goOn idx => exact ⟨hpq idx h.1, hskip.trans h.2⟩

theorem peelPrev_spec (hi : i < words.size) (hn : i < n) :
    Returns (peelPrev words lanes n i)
      (Flow.Exact words.nonzero (i + 1) fun idx => idx ≤ i ∧ lanes.stride ∣ idx + 1) := by
  induction n generalizing i with
  | zero => omega
  | succ n ih =>
    rw [peelPrev, sizeAdd_of_le hi.le (by omega), pure_bind]
    split
    next =>
      obtain ⟨x, hx, hmem⟩ := WordSpan.read hi
      rw [hx, pure_bind]
      split
      next hne => exact returns_pure.mpr (isLast_here (hmem.mp hne))
      next hzero =>
        have hstep := below_step fun h => hzero (hmem.mpr h)
        cases i with
        | zero => exact returns_pure.mpr (hstep.trans (below_zero _))
        | succ i =>
          rw [if_neg (Nat.succ_ne_zero i), sizeSub_of_le (Nat.le_add_left 1 i), pure_bind]
          refine (ih (Nat.lt_of_succ_lt hi) (by omega)).mono fun flow hflow => ?_
          exact hflow.skip hstep fun idx h => ⟨h.1.trans (Nat.le_succ i), h.2⟩
    next h => exact returns_pure.mpr ⟨⟨le_rfl, Nat.dvd_of_mod_eq_zero (not_not.mp h)⟩, rfl⟩

/-- The words from `base` to `base + off` are inside the array and not past `start`. -/
theorem rescanPrev_spec {start base off : ℕ} (hstart : base + off ≤ start + 1)
    (hsize : start < words.size) (hoff : off ≤ 8) : Returns (rescanPrev words start base off)
      (IsLast (below (upFrom words.nonzero base) (base + off))) := by
  induction off with
  | zero => exact returns_pure.mpr (below_eq_empty fun x hx => hx.2)
  | succ off ih =>
    have hlt : base + off < words.size := by omega
    have hle : base ≤ words.size := by omega
    obtain ⟨x, hx, hmem⟩ := WordSpan.read hlt
    rw [rescanPrev, sizeAdd_of_le hle (by omega), pure_bind,
      if_neg (by omega), hx, pure_bind, ← Nat.add_assoc]
    split
    next hne => exact returns_pure.mpr (isLast_here ⟨hmem.mp hne, Nat.le_add_right base off⟩)
    next hzero =>
      rw [below_step fun h => hzero (hmem.mpr h.1)]
      exact ih (by omega) (by omega)

theorem loadPrev_spec {start base : ℕ} (hl : lanes.Exact) (h : base + lanes.stride ≤ start + 1)
    (hsize : start < words.size) : ∃ chunk, loadu words base lanes.stride = pure chunk ∧
      Returns (if lanes.isZero chunk then pure none else rescanPrev words start base lanes.stride)
        (IsLast (below (upFrom words.nonzero base) (base + lanes.stride))) := by
  obtain ⟨chunk, hchunk, hzero⟩ := loadu_spec (h.trans hsize)
  refine ⟨chunk, hchunk, ?_⟩
  split
  next hz =>
    refine returns_pure.mpr (below_eq_empty fun x hx => ?_)
    by_contra hxs
    exact hzero.mp ((hl.isZero_iff chunk).mp hz) x hx.2 (not_le.mp hxs) hx.1
  next => exact rescanPrev_spec h hsize hl.le

/-- Each round starts at the last word of an aligned chunk, so the loop ends with the chunk at 0. -/
theorem chunkPrev_spec {start : ℕ} (hl : lanes.Exact) (hi : i ≤ start) (hsize : start < words.size)
    (hdvd : lanes.stride ∣ i + 1) (hn : i < n) : Returns (chunkPrev words lanes start n i)
      (Flow.Exact words.nonzero (i + 1) fun idx => idx ≤ start ∧ idx + 1 = lanes.stride) := by
  have hpos := hl.pos
  have hle := hl.le
  induction n generalizing i with
  | zero => omega
  | succ n ih =>
    have hstride : lanes.stride ≤ i + 1 := Nat.le_of_dvd (Nat.succ_pos i) hdvd
    rw [chunkPrev, sizeAdd_of_le (hi.trans hsize.le) (by omega), pure_bind, if_pos hstride,
      sizeSub_of_le hstride, pure_bind]
    obtain ⟨base, hbase⟩ : ∃ base, i + 1 = base + lanes.stride := ⟨i + 1 - lanes.stride, by omega⟩
    rw [hbase, Nat.add_sub_cancel]
    obtain ⟨chunk, hchunk, hfound⟩ :=
      loadPrev_spec hl (show base + lanes.stride ≤ start + 1 by omega) hsize
    rw [hchunk, pure_bind]
    refine hfound.bind ?_
    rintro (_ | k) hk
    · have hskip := below_of_stretch (Nat.le_add_right base lanes.stride) hk
      cases base with
      | zero =>
        rw [← hbase]
        exact returns_pure.mpr ⟨⟨hi, by omega⟩, rfl⟩
      | succ base =>
        have hdvd' : lanes.stride ∣ base + 1 := by
          rw [hbase] at hdvd
          exact (Nat.dvd_add_left (dvd_refl _)).mp hdvd
        change Returns (if base + 1 = 0 then _ else _) _
        rw [if_neg (Nat.succ_ne_zero base), sizeSub_of_le (Nat.le_add_left 1 base), pure_bind]
        refine (ih (by omega) hdvd' (by omega)).mono fun flow hflow => ?_
        exact hflow.skip hskip fun _ => id
    · exact returns_pure.mpr (isLast_of_stretch hk)

theorem clampStart_spec (hsize : words.size ≠ 0) (start : ℕ) :
    clampStart words start = pure (Nat.min start (words.size - 1)) := by
  unfold clampStart
  split
  next h =>
    rw [sizeSub_of_le (Nat.one_le_iff_ne_zero.mpr hsize)]
    exact congrArg pure (Nat.min_eq_right (by omega)).symm
  next h => exact congrArg pure (Nat.min_eq_left (by omega)).symm

theorem scalarFindPrev_spec (hsize : words.size ≠ 0) (start : ℕ) :
    Returns (scalarFindPrev words start)
      (IsLast (below words.nonzero (Nat.min start (words.size - 1) + 1))) := by
  have hmin : Nat.min start (words.size - 1) ≤ words.size - 1 := Nat.min_le_right ..
  have hle : Nat.min start (words.size - 1) ≤ words.size := hmin.trans (Nat.sub_le ..)
  rw [scalarFindPrev, if_neg hsize, clampStart_spec hsize, pure_bind,
    sizeAdd_of_le hle (by omega), pure_bind]
  exact prevLoop_spec (by omega)

theorem vectorFindPrev_spec (hl : lanes.Exact) (hsize : words.size ≠ 0) (start : ℕ) :
    Returns (vectorFindPrev words lanes start)
      (IsLast (below words.nonzero (Nat.min start (words.size - 1) + 1))) := by
  have hmin : Nat.min start (words.size - 1) ≤ words.size - 1 := Nat.min_le_right ..
  rw [vectorFindPrev, if_neg hsize, clampStart_spec hsize, pure_bind]
  generalize Nat.min start (words.size - 1) = start at hmin
  have hstart : start < words.size := by omega
  refine (peelPrev_spec hstart (Nat.lt_succ_of_lt hstart)).bind ?_
  rintro (r | idx) hpeel
  · exact returns_pure.mpr hpeel
  · obtain ⟨⟨hle, hdvd⟩, hpeel⟩ := hpeel
    rw [hpeel]
    refine (chunkPrev_spec hl hle hstart hdvd (by omega)).bind ?_
    rintro (r | tail) hchunk
    · exact returns_pure.mpr hchunk
    · obtain ⟨⟨hle, hstride⟩, hchunk⟩ := hchunk
      have htail : Nat.min tail (lanes.stride - 1) = tail := Nat.min_eq_left (by omega)
      change Returns (tailPrev words (Nat.min tail (lanes.stride - 1))) _
      rw [hchunk, htail]
      exact tailPrev_spec (by omega)

end Prev

section Wrappers

/-- In every mode the answer is the first nonzero word from `startWord` on. -/
theorem findNextNonzero_exact (mode mode' : Mode) (words : WordSpan) (startWord : ℕ) :
    Returns (findNextNonzero mode words startWord)
      (IsFirst {i | startWord ≤ i ∧ i ∈ words.nonzero}) ∧
    findNextNonzero mode words startWord = findNextNonzero mode' words startWord := by
  have hexact : ∀ mode, Returns (findNextNonzero mode words startWord)
      (IsFirst {i | startWord ≤ i ∧ i ∈ words.nonzero}) := by
    intro mode
    rw [show {i | startWord ≤ i ∧ i ∈ words.nonzero} = upFrom words.nonzero startWord from
      Set.ext fun i => and_comm]
    unfold findNextNonzero
    split
    next hsize =>
      exact returns_pure.mpr (upFrom_eq_empty fun x hx => (WordSpan.lt_of_mem hx).trans_le hsize)
    next hsize =>
      have hle : startWord ≤ words.size := (not_le.mp hsize).le
      cases mode with
      | avx2 => exact chunkNext_spec avx2_exact hle (by omega)
      | sse2 => exact chunkNext_spec sse2_exact hle (by omega)
      | scalar => exact nextLoop_spec (by omega)
  exact ⟨hexact mode, (hexact mode).congr (hexact mode') fun _ _ h h' => h.unique h'⟩

/-- In every mode the answer is the last nonzero word up to `startWord` or the end. -/
theorem findPrevNonzero_exact (mode mode' : Mode) (words : WordSpan) (startWord : ℕ) :
    Returns (findPrevNonzero mode words startWord)
      (IsLast {i | i ≤ Nat.min startWord (words.size - 1) ∧ i ∈ words.nonzero}) ∧
    findPrevNonzero mode words startWord = findPrevNonzero mode' words startWord := by
  have hexact : ∀ mode, Returns (findPrevNonzero mode words startWord)
      (IsLast {i | i ≤ Nat.min startWord (words.size - 1) ∧ i ∈ words.nonzero}) := by
    intro mode
    unfold findPrevNonzero
    split
    next hsize =>
      refine returns_pure.mpr (Set.eq_empty_iff_forall_notMem.mpr fun i hi => ?_)
      have := WordSpan.lt_of_mem hi.2
      omega
    next hsize =>
      rw [show {i | i ≤ Nat.min startWord (words.size - 1) ∧ i ∈ words.nonzero} =
        below words.nonzero (Nat.min startWord (words.size - 1) + 1) from
        Set.ext fun i => and_comm.trans (and_congr_right fun _ => Nat.lt_succ_iff.symm)]
      cases mode with
      | avx2 => exact vectorFindPrev_spec avx2_exact hsize startWord
      | sse2 => exact vectorFindPrev_spec sse2_exact hsize startWord
      | scalar => exact scalarFindPrev_spec hsize startWord
  exact ⟨hexact mode, (hexact mode).congr (hexact mode') fun _ _ h h' => h.unique h'⟩

end Wrappers

end ParvEB
