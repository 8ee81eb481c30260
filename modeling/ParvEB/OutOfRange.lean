import ParvEB.Accesses

/-! Calls with keys outside the universe. -/
namespace ParvEB

open Outcome

/-- Both parts of a split key together keep its low `b + c` bits. -/
theorem mod_split (k b c : ℕ) :
    k % 2 ^ (b + c) / 2 ^ b = k / 2 ^ b % 2 ^ c ∧ k % 2 ^ (b + c) % 2 ^ b = k % 2 ^ b := by
  rw [Nat.pow_add]
  exact ⟨Nat.mod_mul_right_div_self k (2 ^ b) (2 ^ c), Nat.mod_mul_right_mod k (2 ^ b) (2 ^ c)⟩

/-- A call with `q` sees nothing and leaves the membership of every key of the universe alone. -/
def Ignores {T : Type} {w : ℕ} [VebNode T w] (bits : ℕ) (t : T) (q : BitVec w) : Prop :=
  VebNode.contains t q = pure false ∧ VebNode.successor t q = pure none ∧
    VebNode.predecessor t q = pure none ∧
    (VebNode.erase t q).Returns fun t' => ∀ k, k ≤ maxKey bits w →
      VebNode.contains t' k = VebNode.contains t k

/-- `insert` of `q` keeps every index below the fan-out of the node whose tables it goes into, has
no fault, and leaves the membership of every key of the universe alone. -/
def InsertsSafely {T : Type} {w : ℕ} [VebNode T w] [AccessTrace T] (bits : ℕ) (t : T)
    (q : BitVec w) : Prop :=
  (∀ a ∈ insertAccesses t q, a.InBounds) ∧
    (VebNode.insert t q .unbounded).Returns fun e => ∀ k, k ≤ maxKey bits w →
      VebNode.contains e.state k = VebNode.contains t k

namespace DenseBranch

variable {b w c : ℕ} {inl : Bool} {C : Type} [VebNode C c] {t : DenseBranch b w c inl C}
  {key : BitVec w} {m : Mem}

/-- The guard that every member but `insert` has. -/
theorem ignores (h : maxKey (2 * b) w < key) : Ignores (2 * b) t key := by
  have hle : maxKey (2 * b) w ≤ key := by
    rw [BitVec.lt_def] at h
    exact h.le
  refine ⟨if_pos h, ?_, ?_, ?_⟩
  · change t.successor key = _
    rw [successor, if_pos hle, ite_self]
  · change t.predecessor key = _
    rw [predecessor, if_pos (Or.inr h), ite_self]
  · change (t.erase key).Returns _
    rw [erase, if_pos h]
    exact returns_pure.mpr fun _ _ => rfl

/-- An index past the fan-out fails the first test of `insert`. -/
theorem insert_fault (h : 2 ^ b ≤ (hiPart b key).toNat) :
    t.insert key m = .fault .outOfBounds := by
  unfold DenseBranch.insert clusterActive
  dsimp only
  rw [DenseBitset.test_fault h, fault_bind, fault_bind]

section Narrow

variable [LawfulVeb C b] [Widths b w c] [AccessTrace C] [BoundedTrace C] {lax : Prop}

/-- Where `hi` keeps every high bit of the key, the accesses tell the keys of the universe. -/
theorem accesses_inBounds_narrow (h : t.Inv lax) (hw : w ≤ 32) :
    (∀ a ∈ t.accesses key, a.InBounds) ↔ key.toNat < 2 ^ (2 * b) := by
  have hlt : key.toNat / 2 ^ b < 2 ^ 32 :=
    (Nat.div_le_self _ _).trans_lt (key.isLt.trans_le (Nat.pow_le_pow_right (by omega) hw))
  rw [accesses_inBounds_iff h, hiPart, BitVec.toNat_setWidth, toNat_shiftRight,
    Nat.mod_eq_of_lt hlt, Nat.div_lt_iff_lt_mul (pow_pos_two b), Nat.two_mul, Nat.pow_add]

/-- `insert` faults just when one of its accesses is past a fan-out. -/
theorem insert_faults_iff (h : t.Inv lax) (hw : w ≤ 32) :
    t.insert key .unbounded = .fault .outOfBounds ↔ ¬ ∀ a ∈ t.accesses key, a.InBounds := by
  constructor
  · intro hfault hin
    have hk := (accesses_inBounds_narrow h hw).mp hin
    obtain ⟨t', ht', _⟩ := (LawfulVeb.insert_spec (m := .unbounded)
      (show LawfulVeb.Inv lax t from h) hk).unbounded
    cases hfault.symm.trans ht'
  · intro hout
    exact insert_fault (not_lt.mp fun hhi => hout ((accesses_inBounds_iff h).mpr hhi))

theorem insert_fault_of_le (h : t.Inv lax) (hw : w ≤ 32) (hk : 2 ^ (2 * b) ≤ key.toNat) :
    t.insert key .unbounded = .fault .outOfBounds :=
  (insert_faults_iff h hw).mpr fun hin =>
    not_lt_of_ge hk ((accesses_inBounds_narrow h hw).mp hin)

end Narrow

end DenseBranch

namespace SparseBranch

variable {b w c : ℕ} {M : ℕ → Type → Type} {C : Type} [FlatMap M] [VebNode C c] [LawfulVeb C b]
  [Widths b w c] {lax : Prop} {t t' : SparseBranch b w c M C} {key : BitVec w} {m : Mem}

omit [VebNode C c] [LawfulVeb C b] [Widths b w c] in
theorem toNat_hiPart_mod (key : BitVec w) :
    (hiPart b key : BitVec c).toNat = key.toNat % 2 ^ (b + c) / 2 ^ b := by
  rw [(mod_split _ b c).1, hiPart, BitVec.toNat_setWidth, toNat_shiftRight]

theorem toNat_loPart_mod (C : Type) [VebNode C c] [LawfulVeb C b] (key : BitVec w) :
    (loPart b key : BitVec c).toNat = key.toNat % 2 ^ (b + c) % 2 ^ b := by
  rw [(mod_split _ b c).2, (loPart_lt C key).1]

/-- Whatever its high bits, a key is looked up by its low `b + c` bits. -/
theorem contains_mod (h : t.Inv lax) (key : BitVec w) :
    (t.contains key).Returns fun r => r = true ↔ key.toNat % 2 ^ (b + c) ∈ t.view.keys b := by
  rw [contains_eq, toNat_hiPart_mod]
  exact h.view_inv.contains_spec (toNat_loPart_mod C key)

omit [Widths b w c] in
theorem entryAt_eq_none (h : t.Inv lax) {hi : BitVec c} (hhi : 2 ^ b ≤ hi.toNat) :
    t.entryAt hi = none := by
  by_contra hne
  have hmem := (h.mem_summary hi).mpr (Option.ne_none_iff_isSome.mp hne)
  exact absurd (LawfulVeb.key_lt h.summary hmem) (not_lt_of_ge hhi)

/-- `erase` removes the key with the same low `b + c` bits. -/
theorem erase_mod (h : t.Inv lax) (key : BitVec w) :
    (t.erase key).Returns fun t' => t'.Inv lax ∧
      t'.view.keys b = t.view.keys b \ {key.toNat % 2 ^ (b + c)} := by
  have hlo := (loPart_lt C key).2
  by_cases hhi : (hiPart b key : BitVec c).toNat < 2 ^ b
  · refine (erase_shrinks h hhi hlo).mono ?_
    rintro t' ⟨h', hs⟩
    refine ⟨h', ?_⟩
    rw [hs.keys h.view_inv hlo, toNat_hiPart_mod, toNat_loPart_mod C, split_eq]
  · have hge := not_lt.mp hhi
    have hnone := entryAt_eq_none h hge
    unfold erase
    dsimp only
    rw [show FlatMap.find t.clusters (hiPart b key) = none from hnone]
    refine returns_pure.mpr ⟨h, (Set.sdiff_singleton_eq_self fun hmem => ?_).symm⟩
    have hlt := div_lt_of_lt (h.view_inv.key_lt hmem)
    rw [← toNat_hiPart_mod] at hlt
    exact hhi hlt

/-- Past `MAX_KEY` a key is ignored unless its low `b + c` bits are those of a stored key. -/
theorem ignores_iff (h : t.Inv lax) (hmax : maxKey (2 * b) w < key) :
    Ignores (2 * b) t key ↔ key.toNat % 2 ^ (b + c) ∉ t.view.keys b := by
  have hw := Widths.key (w := w) b c
  have hle : maxKey (2 * b) w ≤ key := by
    rw [BitVec.lt_def] at hmax
    exact hmax.le
  obtain ⟨r, hr, hmem⟩ := contains_mod h key
  constructor
  · rintro ⟨hc, -⟩
    rw [show t.contains key = pure false from hc, pure_inj] at hr
    rw [← hmem, ← hr]
    simp
  · intro hk
    refine ⟨?_, ?_, ?_, ?_⟩
    · change t.contains key = _
      rw [hr, Bool.eq_false_iff.mpr fun he => hk (hmem.mp he)]
    · change t.successor key = _
      rw [successor, if_pos hle, ite_self]
    · change t.predecessor key = _
      rw [predecessor, if_pos (Or.inr hmax), ite_self]
    · refine (erase_mod h key).mono ?_
      rintro t' ⟨h', hkeys⟩ k hkmax
      rw [Set.sdiff_singleton_eq_self hk] at hkeys
      exact contains_congr h' h ((le_maxKey_iff (Widths.double c) hw).mp hkmax) hkeys

omit [LawfulVeb C b] [Widths b w c] in
theorem contains_of_entryAt
    (h : t'.entryAt (hiPart b key : BitVec c) = t.entryAt (hiPart b key : BitVec c)) :
    t'.contains key = t.contains key := by
  change FlatMap.find _ _ = FlatMap.find _ _ at h
  rw [contains, contains, h]

/-- `insert` adds the key with the same low `b + c` bits when that is in the universe. -/
theorem insert_mod (h : t.Inv lax) (hhi : (hiPart b key : BitVec c).toNat < 2 ^ b) :
    (t.insert key m).Ends m fun t' => t'.Inv lax ∧
      t'.view.keys b = insert (key.toNat % 2 ^ (b + c)) (t.view.keys b) := by
  have hlo := (loPart_lt C key).2
  refine (insert_grows h hhi hlo).mono ?_
  rintro t' ⟨h', hg⟩
  refine ⟨h', ?_⟩
  rw [hg.keys h.view_inv hlo, toNat_hiPart_mod, toNat_loPart_mod C, split_eq]

/-- An insertion is safe when it is that of a stored key, up to high bits that are cut off. -/
theorem insertsSafely_iff [AccessTrace C] [BoundedTrace C] (h : t.Inv lax) :
    InsertsSafely (2 * b) t key ↔ key.toNat % 2 ^ (b + c) ∈ t.view.keys b := by
  have hdouble := Widths.double (b := b) (w := w) c
  have hw := Widths.key (w := w) b c
  constructor
  · rintro ⟨hin, e, he, hsafe⟩
    have hhi := (accesses_inBounds_iff h).mp hin
    obtain ⟨t', ht', h', hkeys⟩ := (insert_mod (m := .unbounded) h hhi).unbounded
    rw [show VebNode.insert t key .unbounded = _ from ht', pure_inj] at he
    subst he
    have hmem : key.toNat % 2 ^ (b + c) ∈ LawfulVeb.keys t' := by
      change _ ∈ t'.view.keys b
      rw [hkeys]
      exact Set.mem_insert _ _
    obtain ⟨k, hk⟩ := exists_toNat_eq h' hmem
    have hlt := LawfulVeb.key_lt h' hmem
    rw [← hk] at hmem hlt ⊢
    have hc : VebNode.contains t' k = VebNode.contains t k :=
      hsafe k ((le_maxKey_iff hdouble hw).mpr hlt)
    rw [(contains_iff h' hlt).mpr hmem] at hc
    exact (contains_iff h hlt).mp hc.symm
  · intro hmem
    have hhi : (hiPart b key : BitVec c).toNat < 2 ^ b := by
      rw [toNat_hiPart_mod]
      exact div_lt_of_lt (h.view_inv.key_lt hmem)
    obtain ⟨t', ht', h', hkeys⟩ := (insert_mod (m := .unbounded) h hhi).unbounded
    rw [Set.insert_eq_of_mem hmem] at hkeys
    refine ⟨(accesses_inBounds_iff h).mpr hhi, _, ht', fun k hk => ?_⟩
    exact contains_congr h' h ((le_maxKey_iff hdouble hw).mp hk) hkeys

omit [LawfulVeb C b] [Widths b w c] in
/-- A cluster index that the summary can take in, whatever it is, leaves other entries alone. -/
theorem insert_absent (he : t.entryAt (hiPart b key) = none)
    (hins : ∀ m, (VebNode.insert t.summary (hiPart b key : BitVec c) m).Ends m fun _ => True) :
    (t.insert key m).Ends m fun t' => ∀ hi, hi ≠ hiPart b key → t'.entryAt hi = t.entryAt hi := by
  unfold SparseBranch.insert
  dsimp only
  rw [show FlatMap.find t.clusters (hiPart b key) = none from he]
  refine Ends.alloc fun m₁ _ => ?_
  refine Ends.andThen (P := fun t' => t'.entryAt = Function.update t.entryAt (hiPart b key)
    (some {})) (Ends.within ((hins m₁).mono fun _ _ => entryAt_emplace he)) ?_
  rintro t₁ m₂ hentries _
  refine ends_returned fun hi hne => ?_
  rw [entryAt_setEntry (by rw [hentries, Function.update_self]), hentries, Function.update_idem,
    Function.update_of_ne hne]

omit [LawfulVeb C b] [Widths b w c] in
/-- What goes wrong in the summary goes wrong in the branch. -/
theorem insert_fault (he : t.entryAt (hiPart b key) = none) {f : Fault}
    (hins : VebNode.insert t.summary (hiPart b key : BitVec c) .unbounded = .fault f) :
    t.insert key .unbounded = .fault f := by
  unfold SparseBranch.insert
  dsimp only
  rw [show FlatMap.find t.clusters (hiPart b key) = none from he]
  change ((VebNode.insert t.summary (hiPart b key : BitVec c) .unbounded).within _).andThen _ = _
  rw [hins]
  rfl

end SparseBranch

section Levels

variable {M : ℕ → Type → Type} [FlatMap M]

theorem VebTop24.not_insertsSafely {t : VebTop24} (h : LawfulVeb.Inv False t) {q : BitVec 32}
    (hq : 2 ^ 24 ≤ q.toNat) : ¬ InsertsSafely 24 t q := by
  rintro ⟨hin, -⟩
  exact not_lt_of_ge hq ((DenseBranch.accesses_inBounds_narrow h (by omega)).mp hin)

/-- The summary of a 48-bit branch takes in an index past its universe when the index of that index
is within bounds, and faults two levels down when it is not. -/
theorem VebBranch24.insert_of_lt {s : VebBranch24 M} (h : LawfulVeb.Inv False s) {k : BitVec 32}
    (hk : k.toNat % 2 ^ 28 < 2 ^ 24) (m : Mem) : (VebNode.insert s k m).Ends m fun _ => True := by
  have hhi : (SparseBranch.hiPart 12 k : BitVec 16).toNat < 2 ^ 12 := by
    rw [SparseBranch.toNat_hiPart_mod]
    omega
  exact (SparseBranch.insert_mod h hhi).mono fun _ _ => trivial

theorem VebBranch24.insert_of_le {s : VebBranch24 M} (h : LawfulVeb.Inv False s) {k : BitVec 32}
    (hk : 2 ^ 24 ≤ k.toNat % 2 ^ 28) : VebNode.insert s k .unbounded = .fault .outOfBounds := by
  have hhi : 2 ^ 12 ≤ (SparseBranch.hiPart 12 k : BitVec 16).toNat := by
    rw [SparseBranch.toNat_hiPart_mod]
    omega
  exact SparseBranch.insert_fault (SparseBranch.entryAt_eq_none h hhi)
    (DenseBranch.insert_fault_of_le h.summary (by omega) hhi)

/-- With low bits in the universe the insertion is that of the key with these bits. Without, the
entry is new and holds no key of the universe. -/
theorem VebBranch48.insert_returns {t : VebBranch48 M} (h : LawfulVeb.Inv False t) {q : BitVec 64}
    (hq : q.toNat / 2 ^ 48 % 16 = 0) :
    (VebNode.insert t q .unbounded).Returns fun e => ∀ k, k ≤ maxKey 48 64 →
      (VebNode.contains e.state k = pure true ↔
        VebNode.contains t k = pure true ∨ k.toNat = q.toNat % 2 ^ 56) := by
  have hidx : (SparseBranch.hiPart 24 q : BitVec 32).toNat = q.toNat % 2 ^ 56 / 2 ^ 24 :=
    SparseBranch.toNat_hiPart_mod q
  by_cases hhi : (SparseBranch.hiPart 24 q : BitVec 32).toNat < 2 ^ 24
  · obtain ⟨t', ht', h', hkeys⟩ := (SparseBranch.insert_mod (m := .unbounded) h hhi).unbounded
    refine ⟨_, ht', fun k hkmax => ?_⟩
    have hk := (le_maxKey_iff (by omega) (by omega)).mp hkmax
    rw [Exit.state, contains_iff h' hk, contains_iff h hk, or_comm]
    change _ ∈ t'.view.keys 24 ↔ _
    rw [hkeys]
    exact Set.mem_insert_iff
  · have hends := VebBranch24.insert_of_lt h.summary
      (k := SparseBranch.hiPart 24 q) (by rw [hidx]; omega)
    obtain ⟨t', ht', hother⟩ := (SparseBranch.insert_absent (m := .unbounded)
      (SparseBranch.entryAt_eq_none h (not_lt.mp hhi)) hends).unbounded
    refine ⟨_, ht', fun k hkmax => ?_⟩
    have hk := (le_maxKey_iff (by omega) (by omega)).mp hkmax
    have hsame : VebNode.contains t' k = VebNode.contains t k := by
      refine SparseBranch.contains_of_entryAt (hother _ fun he => hhi ?_)
      rw [← he]
      exact SparseBranch.hiPart_lt (VebBranch24 M) hk
    rw [Exit.state, hsame, or_iff_left]
    omega

/-- The index can be refused, by the summary of the summary. -/
theorem VebBranch48.insert_faults {t : VebBranch48 M} (h : LawfulVeb.Inv False t) {q : BitVec 64}
    (hq : ¬ q.toNat / 2 ^ 48 % 16 = 0) : VebNode.insert t q .unbounded = .fault .outOfBounds := by
  have hidx : (SparseBranch.hiPart 24 q : BitVec 32).toNat = q.toNat % 2 ^ 56 / 2 ^ 24 :=
    SparseBranch.toNat_hiPart_mod q
  have hnone : t.entryAt (SparseBranch.hiPart 24 q) = none :=
    SparseBranch.entryAt_eq_none h (by rw [hidx]; omega)
  exact SparseBranch.insert_fault hnone (VebBranch24.insert_of_le h.summary (by rw [hidx]; omega))

end Levels

section Runs

variable (M : ℕ → Type → Type) [FlatMap M] (T : Tree) (ops : List (Op T.width))

theorem Tree.bits_lt_width {T : Tree} {q : BitVec T.width} (hq : T.maxKey < q) :
    T = .veb24 ∨ T = .veb48 := by
  rw [BitVec.lt_def, Tree.maxKey, toNat_maxKey T.bits_le T.width_le] at hq
  have hlt := q.isLt
  cases T with
  | veb24 => exact Or.inl rfl
  | veb48 => exact Or.inr rfl
  | veb32 | veb64 =>
    simp only [Tree.bits, Tree.width] at hq hlt
    omega

/-- A dense tree guards its lookups. A sparse one looks up the low bits of the key, so that it takes
some keys outside the universe for a stored one. -/
theorem outsider_ignored_iff (hops : T.InRange ops) (q : BitVec T.width) (hq : T.maxKey < q) :
    (run (VebNode.fresh : T.State M) ops).Returns fun t =>
      Ignores T.bits t q ↔ (T = .veb48 → q.toNat % 2 ^ 56 ∉ built ∅ ops) := by
  refine (Tree.run_fresh hops).mono ?_
  rintro t ⟨h, hkeys⟩
  rw [← hkeys]
  rcases Tree.bits_lt_width hq with rfl | rfl
  · exact iff_of_true (DenseBranch.ignores hq) (by rintro ⟨⟩)
  · exact (SparseBranch.ignores_iff h hq).trans ⟨fun hn _ => hn, fun hn => hn rfl⟩

theorem outsider_ignored_iff_of_gap :
    (run (VebNode.fresh : Tree.veb48.State FunMap) [.insert 5]).Returns fun t =>
      Ignores 48 t 0x1000000000000 ↔ (Tree.veb48 = .veb48 →
        (0x1000000000000 : BitVec 64).toNat % 2 ^ 56 ∉ built (w := 64) ∅ [.insert 5]) :=
  outsider_ignored_iff FunMap .veb48 [.insert 5] (by decide) 0x1000000000000 (by decide)

/-- `VebTree48` finds a key of its universe under a key 56 bits up. -/
theorem outsider_found :
    Tree.veb48.maxKey < 0x100000000000005 ∧
      (run (VebNode.fresh : Tree.veb48.State FunMap) [.insert 5]).Returns fun t =>
        VebNode.contains t 0x100000000000005 = pure true ∧ ¬ Ignores 48 t 0x100000000000005 := by
  have h : ((run (VebNode.fresh : Tree.veb48.State FunMap) [.insert 5]) >>= fun t =>
      VebNode.contains t 0x100000000000005) = pure true := by decide +kernel
  obtain ⟨t, ht, hc⟩ := bind_eq_pure.mp h
  refine ⟨by decide, t, ht, hc, ?_⟩
  rintro ⟨hn, -⟩
  rw [hc, pure_inj] at hn
  cases hn

/-- An insertion past the universe is safe only as that of a stored key in disguise, and in
`VebTree24` it never is. -/
theorem outsider_insert_iff (hops : T.InRange ops) (q : BitVec T.width) (hq : T.maxKey < q) :
    (run (VebNode.fresh : T.State M) ops).Returns fun t =>
      InsertsSafely T.bits t q ↔ T = .veb48 ∧ q.toNat % 2 ^ 56 ∈ built ∅ ops := by
  refine (Tree.run_fresh hops).mono ?_
  rintro t ⟨h, hkeys⟩
  rw [← hkeys]
  rcases Tree.bits_lt_width hq with rfl | rfl
  · refine iff_of_false (VebTop24.not_insertsSafely h ?_) (by rintro ⟨⟨⟩, -⟩)
    rwa [BitVec.lt_def, Tree.maxKey, toNat_maxKey (Tree.bits_le _) (Tree.width_le _)] at hq
  · exact (SparseBranch.insertsSafely_iff h).trans (and_iff_right rfl).symm

theorem outsider_insert_iff_of_disguise :
    (run (VebNode.fresh : Tree.veb48.State FunMap) [.insert 5]).Returns fun t =>
      InsertsSafely 48 t 0x100000000000005 ↔ Tree.veb48 = .veb48 ∧
        (0x100000000000005 : BitVec 64).toNat % 2 ^ 56 ∈ built (w := 64) ∅ [.insert 5] :=
  outsider_insert_iff FunMap .veb48 [.insert 5] (by decide) 0x100000000000005 (by decide)

/-- The first key past the universe of `VebTree24` has an index that is the fan-out, and fails the
assertion of `DenseBitset::test`. -/
theorem outsider_insert_faults :
    Tree.veb24.maxKey < 0x1000000 ∧
      insertAccesses (VebNode.fresh : Tree.veb24.State FunMap) 0x1000000 = [⟨4096, 2 ^ 12⟩] ∧
      VebNode.insert (VebNode.fresh : Tree.veb24.State FunMap) 0x1000000 .unbounded =
        .fault .outOfBounds ∧
      ¬ InsertsSafely 24 (VebNode.fresh : Tree.veb24.State FunMap) 0x1000000 := by
  have hfault : VebNode.insert (VebNode.fresh : Tree.veb24.State FunMap) 0x1000000 .unbounded =
      .fault .outOfBounds := by
    change DenseBranch.insert (VebNode.fresh : VebTop24) (0x1000000 : BitVec 32) .unbounded = _
    have hfresh : LawfulVeb.Inv False (VebNode.fresh : VebTop24) := LawfulVeb.fresh_inv
    exact DenseBranch.insert_fault_of_le hfresh (by omega) (by decide)
  refine ⟨by decide, rfl, hfault, ?_⟩
  rintro ⟨-, e, he, -⟩
  rw [hfault] at he
  cases he

end Runs

end ParvEB
