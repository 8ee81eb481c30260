import ParvEB.Allocation
import ParvEB.Answers

/-! What a failed insertion leaves of the set. -/
namespace ParvEB

open Outcome

section Definitions

variable {T : Type} {w : ℕ} [VebNode T w]

/-- The keys of the universe for which `contains` answers true. -/
def storedKeys (bits : ℕ) (t : T) : Set ℕ :=
  {n | ∃ k : BitVec w, k ≤ maxKey bits w ∧ VebNode.contains t k = pure true ∧ k.toNat = n}

/-- The set survives in `t'`, which a failed call left of `t`: the answers are the same, and any
later calls do to it what they do to a set. -/
def Intact (bits : ℕ) (t t' : T) : Prop :=
  Agree bits t' t ∧ ∀ ops : List (Op w), (∀ o ∈ ops, o.key ≤ maxKey bits w) →
    (run t' ops).Returns fun u => AnswersAs bits u (built (storedKeys bits t) ops)

variable {bits : ℕ} {t t' u : T} {ops : List (Op w)}

theorem Intact.answersAs (h : Intact bits t t') (hops : ∀ o ∈ ops, o.key ≤ maxKey bits w)
    (hu : run t' ops = pure u) : AnswersAs bits u (built (storedKeys bits t) ops) := by
  obtain ⟨u', hu', hanswers⟩ := h.2 ops hops
  rw [hu, pure_inj] at hu'
  rwa [hu']

variable [LawfulVeb T bits] {lax : Prop}

theorem storedKeys_eq (hw : w ≤ 64) (h : LawfulVeb.Inv lax t) :
    storedKeys bits t = LawfulVeb.keys t := by
  ext n
  constructor
  · rintro ⟨k, hk, hc, rfl⟩
    exact (contains_universe_iff hw h).mp ⟨hk, hc⟩
  · intro hn
    obtain ⟨k, rfl⟩ := exists_toNat_eq h hn
    obtain ⟨hk, hc⟩ := (contains_universe_iff hw h).mpr hn
    exact ⟨k, hk, hc, rfl⟩

/-- A well-formed state with the same keys is as good as the old one. -/
theorem intact_of_keys (hw : w ≤ 64) (h : LawfulVeb.Inv False t) (h' : LawfulVeb.Inv True t')
    (hkeys : LawfulVeb.keys t' = LawfulVeb.keys t) : Intact bits t t' := by
  refine ⟨agree_of_keys hw h' h hkeys, fun ops hops => ?_⟩
  have hlt : ∀ o ∈ ops, o.key.toNat < 2 ^ bits := fun o ho =>
    (le_maxKey_iff (LawfulVeb.bits_le T) hw).mp (hops o ho)
  refine (run_spec h' hlt).mono ?_
  rintro u ⟨hu, hukeys⟩
  rw [storedKeys_eq hw h, ← hkeys, ← hukeys]
  exact answersAs_keys hw hu

end Definitions

section Split

variable {b w c h : ℕ} [Widths b w c] {hi : BitVec h} {v : BitVec c}

/-- The key of the universe with given parts. -/
theorem split_combine (C : Type) [VebNode C c] [LawfulVeb C b] (hhi : hi.toNat < 2 ^ b)
    (hv : v.toNat < 2 ^ b) :
    (combine b w hi v).toNat < 2 ^ (2 * b) ∧
      (combine b w hi v).toNat / 2 ^ b = hi.toNat ∧
        (loPart b (combine b w hi v) : BitVec c) = v := by
  have hnat := toNat_combine (Widths.double (w := w) c) hhi hv
  refine ⟨hnat ▸ split_lt hhi hv, by rw [hnat, split_div hv], ?_⟩
  apply BitVec.eq_of_toNat_eq
  rw [(loPart_lt C _).1, hnat, split_mod hv]

/-- The index of that key. A dense branch takes it with `h` 32, a sparse one with `h` the width of
`ClusterKey`. -/
theorem hiPart_combine (C : Type) [VebNode C c] [LawfulVeb C b] (hhi : hi.toNat < 2 ^ b)
    (hv : v.toNat < 2 ^ b) : (SparseBranch.hiPart b (combine b w hi v) : BitVec h) = hi := by
  apply BitVec.eq_of_toNat_eq
  rw [SparseBranch.hiPart, BitVec.toNat_setWidth, toNat_shiftRight,
    (split_combine C hhi hv).2.1, Nat.mod_eq_of_lt hi.isLt]

end Split

namespace SparseBranch

variable {b w c : ℕ} {M : ℕ → Type → Type} {C : Type} [FlatMap M] {t t' : SparseBranch b w c M C}
  {key : BitVec w} {n : ℕ}

/-- The first allocation of an insertion fails, or the key's cluster is present, and it does not
fail between the two allocations that the first value of a new child takes. -/
def Survives (t : SparseBranch b w c M C) (key : BitVec w) (n : ℕ) : Prop :=
  n = 0 ∨ ∃ e, FlatMap.find t.clusters (hiPart b key : BitVec c) = some e ∧
    (e.inlineOnly = false ∨ n ≠ 2)

variable [VebNode C c] [LawfulVeb C b] [AllocTwice C] [Widths b w c] {lax : Prop}

/-- What a failed insertion leaves: the same set; an entry without its index; or an expansion whose
child is stranded. -/
theorem insert_threw_cases (h : t.Inv False)
    (ht : t.insert key (.upTo n) = pure (.threw t')) :
    (t.Survives key n ∧ t'.Inv True ∧ t'.view.keys b = t.view.keys b) ∨
      (n ≠ 0 ∧ t.entryAt (hiPart b key) = none ∧ t'.entryAt (hiPart b key) = some {}) ∨
      ∃ e d, n = 2 ∧ t.entryAt (hiPart b key) = some e ∧ e.inlineOnly = true ∧
        e.inlineValue ≠ loPart b key ∧ Stranded b d e.inlineValue ∧
        t' = t.setEntry (hiPart b key) { e with child := some d } := by
  have hlo := (loPart_lt C key).2
  have hlax : t.Inv True := h.mono False.elim
  rcases insert_threw ht with ⟨_, hn, rfl⟩ | ⟨n', s', he, rfl, _, rfl⟩ | ⟨e, e', he, he', rfl⟩
  · exact Or.inl ⟨Or.inl hn, hlax, rfl⟩
  · refine Or.inr (Or.inl ⟨Nat.succ_ne_zero n', he, ?_⟩)
    have hemplace : (⟨s', FlatMap.emplace t.clusters (hiPart b key) {}⟩ :
      SparseBranch b w c M C).entryAt = _ := entryAt_emplace he
    rw [hemplace, Function.update_self]
  · have hentry := h.entry _ e he
    rcases entryInsert_threw hentry he' with ⟨hil, hne, hcases⟩ | ⟨x, x', hil, hx, hx', rfl⟩
    · have hval := hentry.value_lt hil
      rcases hcases with ⟨hn, rfl⟩ | ⟨n', x', rfl, hx', rfl⟩ | ⟨n', y, m, y', rfl, hy, hy', rfl⟩
      · exact Or.inl ⟨Or.inl hn, hlax.setEntry he (hentry.mono False.elim) rfl⟩
      · rcases AllocTwice.fresh_threw hval hx' with ⟨rfl, rfl⟩ | ⟨rfl, hstranded⟩
        · refine Or.inl ⟨Or.inr ⟨e, he, Or.inr (by omega)⟩,
            h.setEntry_left_over he hil LawfulVeb.fresh_inv ?_⟩
          rw [LawfulVeb.keys_fresh]
          exact Set.empty_subset _
        · exact Or.inr (Or.inr ⟨e, x', rfl, he, hil, hne, hstranded, rfl⟩)
      · have hfresh : LawfulVeb.Inv False (VebNode.fresh : C) := LawfulVeb.fresh_inv
        obtain ⟨hyinv, hykeys⟩ := Inserted.spec ⟨_, _, hy⟩ hfresh hval
        obtain ⟨hyinv', hykeys'⟩ :=
          AllocTwice.nonempty hyinv (hykeys ▸ Set.insert_nonempty _ _) hlo hy'
        have hn := AllocTwice.fresh_returned hval hy
        refine Or.inl ⟨Or.inr ⟨e, he, Or.inr (by omega)⟩,
          h.setEntry_left_over he hil hyinv' ?_⟩
        rw [hykeys', hykeys, LawfulVeb.keys_fresh, insert_empty_eq]
    · obtain ⟨y, hy, hinv, hne⟩ := hentry.child hil
      rw [hx] at hy
      cases hy
      obtain ⟨hinv', hkeys'⟩ := AllocTwice.nonempty hinv hne hlo hx'
      refine Or.inl ⟨Or.inr ⟨e, he, Or.inl hil⟩, hlax.setEntry he ?_ ?_⟩
      · rw [hil]
        exact entryInv_child hinv' (hkeys' ▸ hne)
      · rw [ClusterEntry.cluster_child hil hx,
          ClusterEntry.cluster_child (e := { e with child := some x' }) hil rfl,
          Cluster.keysOf_some, Cluster.keysOf_some]
        exact hkeys'

omit [AllocTwice C] in
/-- An entry without its index holds a key that nobody inserted. -/
theorem not_intact_of_unlisted (hk : key.toNat < 2 ^ (2 * b))
    (he : t.entryAt (hiPart b key) = none) (he' : t'.entryAt (hiPart b key) = some {}) :
    ¬ Intact (2 * b) t t' := by
  obtain ⟨hlt, hhi, hlo⟩ :=
    split_combine C (w := w) (v := 0) (hiPart_lt C hk) (by simp)
  rintro ⟨hagree, _⟩
  have hc := hagree.contains _ ((le_maxKey_iff (Widths.double c) (Widths.key b c)).mpr hlt)
  change contains t' _ = contains t _ at hc
  unfold contains at hc
  dsimp only at hc
  rw [hiPart_combine C (hiPart_lt C hk) (by simp), hlo,
    show FlatMap.find t'.clusters (hiPart b key) = some {} from he',
    show FlatMap.find t.clusters (hiPart b key) = none from he] at hc
  cases pure_inj.mp hc

omit [AllocTwice C] [Widths b w c] in
/-- With a stranded child, inserting and erasing a second key drops the first one too. -/
theorem run_stranded {v : BitVec c} {d : C} (hs : LawfulVeb.Inv lax t.summary)
    (hhi : (hiPart b key : BitVec c).toNat < 2 ^ b) (hlo : (loPart b key : BitVec c).toNat < 2 ^ b)
    (he : t.entryAt (hiPart b key) = some ⟨true, v, some d⟩) (hne : v ≠ loPart b key)
    (hd : Stranded b d v) :
    (run t [.insert key, .erase key]).Returns fun u => u.entryAt (hiPart b key) = none := by
  obtain ⟨y, z, z', hy, hz, hz', hempty⟩ := hd _ hlo
  have hentry : entryInsert ⟨true, v, some d⟩ (loPart b key) .unbounded =
      pure (.returned ⟨false, v, some z⟩ .unbounded) := by
    unfold entryInsert ensureChild childInsert
    simp [hne, hy, hz, Exit.map]
  have hins : t.insert key .unbounded =
      pure (.returned (t.setEntry (hiPart b key) ⟨false, v, some z⟩) .unbounded) := by
    unfold SparseBranch.insert
    dsimp only
    rw [show FlatMap.find t.clusters (hiPart b key) = some ⟨true, v, some d⟩ from he]
    dsimp only
    rw [hentry, within_pure]
    rfl
  let t₁ := t.setEntry (hiPart b key) ⟨false, v, some z⟩
  have hset : t₁.entryAt (hiPart b key) = some ⟨false, v, some z⟩ := by
    rw [entryAt_setEntry he, Function.update_self]
  obtain ⟨s, hs', _⟩ := erased_spec hs hhi
  refine ⟨⟨s, FlatMap.erase (t₁.setEntry (hiPart b key) ⟨false, v, some z'⟩).clusters
    (hiPart b key)⟩, ?_, ?_⟩
  · have hrun : run t [.insert key, .erase key] = t₁.erase key := by
      change (t.insert key .unbounded >>= _) >>= _ = _
      rw [hins, pure_bind, pure_bind]
      exact bind_pure _
    rw [hrun, erase]
    dsimp only
    rw [show FlatMap.find t₁.clusters (hiPart b key) = some ⟨false, v, some z⟩ from hset]
    dsimp only
    rw [if_neg (by simp), hz', pure_bind, if_pos hempty, removeCluster]
    change VebNode.erase t.summary (hiPart b key) >>= _ = _
    rw [hs', pure_bind]
  · change FlatMap.find (FlatMap.erase (t₁.setEntry (hiPart b key) ⟨false, v, some z'⟩).clusters
      (hiPart b key)) (hiPart b key) = none
    rw [FlatMap.find_erase, if_pos rfl]

omit [AllocTwice C] in
/-- A stranded expansion loses the inline value once the other key has come and gone. -/
theorem not_intact_of_stranded (h : t.Inv False) (hk : key.toNat < 2 ^ (2 * b))
    {e : ClusterEntry c C} {d : C} (he : t.entryAt (hiPart b key) = some e)
    (hil : e.inlineOnly = true) (hne : e.inlineValue ≠ loPart b key)
    (hd : Stranded b d e.inlineValue) :
    ¬ Intact (2 * b) t (t.setEntry (hiPart b key) { e with child := some d }) := by
  have hhi := hiPart_lt C hk
  have hval := (h.entry _ e he).value_lt hil
  have hw := Widths.key (w := w) b c
  have hle : ∀ {k : BitVec w}, k.toNat < 2 ^ (2 * b) → k ≤ maxKey (2 * b) w :=
    (le_maxKey_iff (Widths.double c) hw).mpr
  obtain ⟨hlt, hdiv, hlo⟩ := split_combine C (w := w) hhi hval
  have hset : (t.setEntry (hiPart b key) { e with child := some d }).entryAt (hiPart b key) =
      some ⟨true, e.inlineValue, some d⟩ := by
    rw [entryAt_setEntry he, Function.update_self, hil]
  obtain ⟨u, hu, hnone⟩ := run_stranded (t := t.setEntry (hiPart b key)
    { e with child := some d }) h.summary hhi (loPart_lt C key).2 hset hne hd
  have hops : ∀ o ∈ [Op.insert key, Op.erase key], o.key ≤ maxKey (2 * b) w := by
    intro o ho
    rcases List.mem_pair.mp ho with rfl | rfl <;> exact hle hk
  intro hintact
  have hanswers := hintact.answersAs hops hu
  -- the inline value is still a member, but its entry is gone
  obtain ⟨r, hr, hmem⟩ := hanswers.contains (combine b w (hiPart b key : BitVec c) e.inlineValue)
    (hle hlt)
  have hfalse : VebNode.contains u (combine b w (hiPart b key : BitVec c) e.inlineValue) =
      pure false := by
    change contains u _ = _
    rw [contains]
    rw [hiPart_combine C hhi hval, show FlatMap.find u.clusters (hiPart b key) = none from hnone]
  rw [hfalse, pure_inj] at hr
  subst hr
  refine Bool.false_ne_true (hmem.mpr ⟨Or.inr ?_, ?_⟩)
  · rw [storedKeys_eq hw (show LawfulVeb.Inv False t from h)]
    refine ⟨.inline e.inlineValue, ?_, ?_⟩
    · rw [hdiv, view_cluster, cluster_toNat, he]
      exact ClusterEntry.cluster_inline hil
    · rw [← (loPart_lt C _).1, hlo]
      rfl
  · intro heq
    have heq' := BitVec.eq_of_toNat_eq heq
    exact hne (by rw [← hlo, heq'])

/-- The set survives a failed insertion in just these cases. -/
theorem intact_iff (h : t.Inv False) (hk : key.toNat < 2 ^ (2 * b))
    (ht : t.insert key (.upTo n) = pure (.threw t')) :
    Intact (2 * b) t t' ↔ t.Survives key n := by
  rcases insert_threw_cases h ht with ⟨hs, hinv, hkeys⟩ | ⟨hn, he, he'⟩ |
    ⟨e, d, rfl, he, hil, hne, hd, rfl⟩
  · exact iff_of_true (intact_of_keys (Widths.key b c) h hinv hkeys) hs
  · refine iff_of_false (not_intact_of_unlisted hk he he') ?_
    rintro (hn' | ⟨e, hfind, _⟩)
    · exact hn hn'
    · rw [show FlatMap.find t.clusters (hiPart b key) = none from he] at hfind
      cases hfind
  · refine iff_of_false (not_intact_of_stranded h hk he hil hne hd) ?_
    rintro (hn | ⟨e', hfind, hil' | hn⟩)
    · cases hn
    · rw [show FlatMap.find t.clusters (hiPart b key) = some e from he] at hfind
      cases hfind
      rw [hil] at hil'
      cases hil'
    · exact hn rfl

end SparseBranch

namespace DenseBranch

variable {b w c : ℕ} {C : Type} [VebNode C c] [Widths b w c] {t t' u : DenseBranch b w c false C}
  {i : Fin (2 ^ b)} {key q : BitVec w} {idx : BitVec 32} {n : ℕ}

/-- An inline value that goes leaves its slot without the bit and the summary without the index. -/
theorem erase_inline_slots {s s' : C} (hk : key.toNat < 2 ^ (2 * b))
    (hil : t.inlineMask.has (indexOf c key hk) = true)
    (hv : t.inlineValue (indexOf c key hk) = loPart b key) (hs : t.summary = some s)
    (hs' : Erased s ((hiPart b key).setWidth c) s') :
    ∃ t₁, t.erase key = pure t₁ ∧
      t₁.summary = (if VebNode.empty s' then none else some s') ∧
      t₁.slotAt = Function.update t.slotAt (indexOf c key hk)
        { t.slotAt (indexOf c key hk) with inlineBit := false } := by
  obtain ⟨mask, hmask, hhas⟩ :=
    DenseBitset.reset_spec (t := t.inlineMask) (Widths.fan w c) (hiPart_lt c hk)
  refine ⟨{ t with inlineMask := mask, summary := if VebNode.empty s' then none else some s' },
    ?_, rfl, slotAt_inlineMask hhas⟩
  rw [erase_of_inline hk hil, if_neg (not_not.mpr hv), hmask, pure_bind, summaryErase]
  dsimp only
  rw [hs]
  dsimp only
  rw [show VebNode.erase s ((hiPart b key).setWidth c) = pure s' from hs', pure_bind]

section Congruence

omit [VebNode C c] in
/-- Reads at an index see only what it holds. -/
theorem test_congr (hidx : idx.toNat = i) (h : u.slotAt i = t.slotAt i) :
    u.inlineMask.test idx = t.inlineMask.test idx ∧
      u.clusterMask.test idx = t.clusterMask.test idx ∧
      arrayGet u.inlineValue idx.toNat = arrayGet t.inlineValue idx.toNat ∧
      u.clusterPtr idx = t.clusterPtr idx := by
  have hlt : idx.toNat < 2 ^ b := hidx ▸ i.isLt
  have hi : (⟨idx.toNat, hlt⟩ : Fin (2 ^ b)) = i := Fin.ext hidx
  have hb : 6 ≤ b := Widths.fan w c
  obtain ⟨hil, hc, hval, hchild⟩ := (SlotState.mk.injEq ..).mp h
  refine ⟨?_, ?_, ?_, ?_⟩
  · rw [DenseBitset.test_eq hb hlt, DenseBitset.test_eq hb hlt, hidx, hil]
  · rw [DenseBitset.test_eq hb hlt, DenseBitset.test_eq hb hlt, hidx, hc]
  · rw [arrayGet_of_lt hlt, arrayGet_of_lt hlt, hi, hval]
  · rw [clusterPtr, clusterPtr, if_neg (by simp), if_neg (by simp), arrayGet_of_lt hlt,
      arrayGet_of_lt hlt, hi, pure_bind, pure_bind, hchild]

/-- `u` is `t` except at an index that `t` holds nothing at. -/
structure EqOff (t u : DenseBranch b w c false C) (i : Fin (2 ^ b)) : Prop where
  inactive : t.active i = false
  summary : u.summary = t.summary
  slots : ∀ j, j ≠ i → u.slotAt j = t.slotAt j

namespace EqOff

variable [LawfulVeb C b] {lax : Prop}

/-- An index that the summary lists is another one. -/
theorem test_listed (h : EqOff t u i) (ht : t.Inv lax) {s : C} (hs : t.summary = some s)
    {hi : BitVec c} (hmem : hi.toNat ∈ LawfulVeb.keys s) :
    u.inlineMask.test (hi.setWidth 32) = t.inlineMask.test (hi.setWidth 32) ∧
      u.clusterMask.test (hi.setWidth 32) = t.clusterMask.test (hi.setWidth 32) ∧
      arrayGet u.inlineValue (hi.setWidth 32).toNat =
        arrayGet t.inlineValue (hi.setWidth 32).toNat ∧
      u.clusterPtr (hi.setWidth 32) = t.clusterPtr (hi.setWidth 32) := by
  obtain ⟨hinv, hkeys⟩ := ht.summary_some hs
  have hlt := LawfulVeb.key_lt hinv hmem
  have hidx : (hi.setWidth 32).toNat = hi.toNat := toNat_setWidth_of_le (Widths.child b w)
  refine test_congr (i := ⟨hi.toNat, hlt⟩) hidx (h.slots _ ?_)
  rintro rfl
  have hactive := (hkeys _).mp hmem
  rw [h.inactive] at hactive
  cases hactive

theorem min_eq (h : EqOff t u i) (ht : t.Inv lax) : u.min = t.min := by
  unfold min
  rw [h.summary]
  cases hs : t.summary with
  | none => rfl
  | some s =>
    obtain ⟨r, hr, hmin⟩ := LawfulVeb.min_spec (ht.summary_some hs).1
    dsimp only
    rw [hr, pure_bind, pure_bind]
    cases r with
    | none => rfl
    | some hi =>
      obtain ⟨h₁, h₂, h₃, h₄⟩ := h.test_listed ht hs hmin.1
      dsimp only
      rw [h₁, h₃, h₄]

theorem successor_eq (h : EqOff t u i) (ht : t.Inv lax) (hq : q.toNat < 2 ^ (2 * b))
    (hqi : indexOf c q hq ≠ i) : u.successor q = t.successor q := by
  unfold successor
  rw [h.summary]
  cases hs : t.summary with
  | none => rfl
  | some s =>
    have hw := toNat_index (hiPart_lt c hq) (LawfulVeb.bits_le C)
    have hidx : (hiPart b q).toNat = indexOf c q hq := rfl
    obtain ⟨h₁, h₂, h₃, h₄⟩ := test_congr hidx (h.slots _ hqi)
    have hown : u.clusterSuccessor (hiPart b q) (loPart b q) =
        t.clusterSuccessor (hiPart b q) (loPart b q) := by
      unfold clusterSuccessor clusterActive
      rw [h₁, h₂, h₃, h₄]
    obtain ⟨r, hr, hfirst⟩ :=
      LawfulVeb.successor_spec (ht.summary_some hs).1 (hw ▸ hiPart_lt c hq)
    have hnext : ∀ v : DenseBranch b w c false C, v.summary = some s →
        v.summarySuccessor (hiPart b q) = pure (r.map (·.setWidth 32)) := by
      intro v hv
      rw [summarySuccessor, hv]
      dsimp only
      rw [hr, pure_bind]
    dsimp only
    rw [hown]
    refine congrArg (ite _ _) (congrArg (ite _ _) (congrArg (_ >>= ·) (funext fun found => ?_)))
    cases found with
    | some p => rfl
    | none =>
      dsimp only
      rw [hnext u (h.summary.trans hs), hnext t hs, pure_bind, pure_bind]
      cases r with
      | none => rfl
      | some next =>
        obtain ⟨h₁, h₂, h₃, h₄⟩ := h.test_listed ht hs hfirst.1.1
        rw [Option.map_some]
        dsimp only
        rw [h₁, h₃, h₄]

variable {K : Set ℕ}

/-- A set that answers as `u` does has the least key of `t`. -/
theorem exists_first (h : EqOff t u i) (ht : t.Inv lax) (ha : AnswersAs (2 * b) u K) :
    ∃ r, IsFirst (t.view.keys b) r ∧ IsFirst K r := by
  obtain ⟨r, hr, hmin⟩ := ha.min
  obtain ⟨r', hr', hmin'⟩ := LawfulVeb.min_spec (show LawfulVeb.Inv lax t from ht)
  change u.min = _ at hr
  change t.min = _ at hr'
  rw [h.min_eq ht, hr', pure_inj] at hr
  subst hr
  exact ⟨_, hmin', hmin⟩

theorem exists_firstAbove (h : EqOff t u i) (ht : t.Inv lax) (ha : AnswersAs (2 * b) u K)
    (hq : q.toNat < 2 ^ (2 * b)) (hqi : indexOf c q hq ≠ i) :
    ∃ r, IsFirst (above (t.view.keys b) q.toNat) r ∧ IsFirst (above K q.toNat) r := by
  obtain ⟨r, hr, hfirst⟩ :=
    ha.successor q ((le_maxKey_iff (Widths.double c) (Widths.key b c)).mpr hq)
  obtain ⟨r', hr', hfirst'⟩ := LawfulVeb.successor_spec (show LawfulVeb.Inv lax t from ht) hq
  change u.successor q = _ at hr
  change t.successor q = _ at hr'
  rw [h.successor_eq ht hq hqi, hr', pure_inj] at hr
  subst hr
  exact ⟨_, hfirst', hfirst⟩

/-- A key that the summary does not list is not found from below. -/
theorem not_answersAs (ht : t.Inv lax) (hk : key.toNat < 2 ^ (2 * b))
    (h : EqOff t u (indexOf c key hk)) :
    ¬ AnswersAs (2 * b) u (insert key.toNat (t.view.keys b)) := by
  have hdiv : key.toNat / 2 ^ b = indexOf c key hk := (toNat_hiPart (Widths.index w c) hk).symm
  have hnone : t.cluster (indexOf c key hk) = none := by
    rw [cluster_of_lt (indexOf c key hk).isLt]
    exact SlotState.cluster_inactive h.inactive
  have hother : ∀ m ∈ t.view.keys b, m / 2 ^ b ≠ indexOf c key hk := by
    rintro m ⟨cl, hcl, _⟩ hm
    rw [hm, view_cluster, hnone] at hcl
    cases hcl
  have hbelow : ∀ {m : ℕ}, m ≤ key.toNat → m / 2 ^ b ≤ indexOf c key hk :=
    fun hle => (Nat.div_le_div_right hle).trans hdiv.le
  intro ha
  rcases Nat.eq_zero_or_pos (indexOf c key hk) with h0 | hpos
  · obtain ⟨r, hr, hr'⟩ := h.exists_first ht ha
    obtain ⟨m, hm, hle⟩ := hr.exists_le hr'
    exact hother m hm ((Nat.le_zero.mp ((hbelow hle).trans h0.le)).trans h0.symm)
  · -- the last key under the index before
    have hd : 2 * b ≤ w := Widths.double c
    have hle : (indexOf c key hk).val * 2 ^ b ≤ key.toNat :=
      (Nat.le_div_iff_mul_le (by simp)).mp hdiv.ge
    have hb : 0 < (indexOf c key hk).val * 2 ^ b := Nat.mul_pos hpos (by simp)
    have hlt : (indexOf c key hk).val * 2 ^ b - 1 < 2 ^ (2 * b) := by omega
    obtain ⟨q, hq⟩ : ∃ q : BitVec w, q.toNat = (indexOf c key hk).val * 2 ^ b - 1 :=
      ⟨.ofNatLT _ (hlt.trans_le (Nat.pow_le_pow_right (by omega) hd)), rfl⟩
    have hq' : q.toNat < 2 ^ (2 * b) := hq ▸ hlt
    have hqi : indexOf c q hq' ≠ indexOf c key hk := by
      intro he
      have hval := congrArg Fin.val he
      have hge := (Nat.le_div_iff_mul_le (by simp)).mp
        (hval.ge.trans (toNat_hiPart (Widths.index w c) hq').le)
      omega
    obtain ⟨r, hr, hr'⟩ := h.exists_firstAbove ht ha hq' hqi
    rw [above_insert (by omega)] at hr'
    obtain ⟨m, ⟨hm, hqm⟩, hmk⟩ := hr.exists_le hr'
    refine hother m hm ((hbelow hmk).antisymm ((Nat.le_div_iff_mul_le (by simp)).mpr ?_))
    omega

end EqOff

end Congruence

section Cases

variable [LawfulVeb C b] [AllocOnce C] {lax : Prop}

/-- An insertion into an absent cluster fails in the summary, which it may have made. -/
theorem insert_absent_threw (h : t.Inv lax) (hk : key.toNat < 2 ^ (2 * b))
    (hact : t.active (indexOf c key hk) = false)
    (ht : t.insert key (.upTo n) = pure (.threw t')) :
    n = 0 ∧ t' = t ∨ n ≠ 0 ∧ t.summary = none ∧ t'.summary ≠ none := by
  have hi : (hiPart b key).toNat = indexOf c key hk := rfl
  have hw := toNat_index (hiPart_lt c hk) (LawfulVeb.bits_le C)
  rw [insert_of_absent hk hact] at ht
  rcases andThen_eq_threw.mp ht with hthrew | ⟨t₁, m₁, _, hret⟩
  · cases hs : t.summary with
    | none =>
      rw [summaryInsert_none hs] at hthrew
      cases n with
      | zero =>
        cases pure_inj.mp hthrew
        exact Or.inl ⟨rfl, rfl⟩
      | succ n' =>
        obtain ⟨s', _, rfl⟩ := within_eq_threw.mp hthrew
        exact Or.inr ⟨Nat.succ_ne_zero n', rfl, by simp⟩
    | some s =>
      rw [summaryInsert_some hs] at hthrew
      obtain ⟨s', hs', _⟩ := within_eq_threw.mp hthrew
      exact (AllocOnce.ne_threw (h.summary_some hs).1 (h.summary.nonempty hs)
        (hw ▸ hiPart_lt c hk) hs').elim
  · obtain ⟨t₂, ht₂⟩ : Spares _ m₁ := storeInline_spares (t := t₁) hi
    rw [ht₂] at hret
    exact (returned_ne_threw hret).elim

/-- An insertion into a child does not fail. -/
theorem insert_child_returns (h : t.Inv lax) (hk : key.toNat < 2 ^ (2 * b))
    (hact : t.active (indexOf c key hk) = true)
    (hil : t.inlineMask.has (indexOf c key hk) = false) :
    ∃ t₁, t.insert key (.upTo n) = pure (.returned t₁ (.upTo n)) := by
  have hi : (hiPart b key).toNat = indexOf c key hk := rfl
  have hslot := h.slot (indexOf c key hk)
  have hbit : (t.slotAt (indexOf c key hk)).clusterBit = true := by
    simpa [active, slotAt, hil] using hact
  obtain ⟨x, hx⟩ := hslot.get_isSome hbit
  obtain ⟨hinv, hne⟩ := hslot.child x hx
  obtain ⟨y, hy⟩ := AllocOnce.nonempty (.upTo n) hinv (hne.mpr hbit) (loPart_lt C key).2
  rw [insert_of_child hk hact hil, ensureCluster_some hi hx, returned_andThen,
    childInsert_eq hi hx, hy, within_pure]
  exact ⟨_, rfl⟩

/-- A child that has a key needs no memory for the next. -/
theorem childInsert_ne_threw {idx : BitVec 32} {lo : BitVec c} {m : Mem} {y : C}
    (hi : idx.toNat = i) (hx : (t.slotAt i).child = some y) (hinv : LawfulVeb.Inv lax y)
    (hne : (LawfulVeb.keys y).Nonempty) (hlo : lo.toNat < 2 ^ b) :
    (do
      let mask ← t.inlineMask.reset idx
      DenseBranch.childInsert ({ t with inlineMask := mask } : DenseBranch b w c false C)
        idx lo m) ≠ pure (.threw t') := by
  intro ht
  have hlt : idx.toNat < 2 ^ b := hi ▸ i.isLt
  obtain ⟨mask, hmask, hhas⟩ := DenseBitset.reset_spec (t := t.inlineMask) (Widths.fan w c) hlt
  rw [hi] at hhas
  have hx' : (({ t with inlineMask := mask } : DenseBranch b w c false C).slotAt i).child =
      some y := by
    rw [slotAt_inlineMask hhas, Function.update_self]
    exact hx
  rw [hmask, pure_bind, childInsert_eq hi hx'] at ht
  obtain ⟨z, hz, _⟩ := within_eq_threw.mp ht
  exact AllocOnce.ne_threw hinv hne hlo hz

/-- An expansion fails when it makes the child, or when the child takes the inline value. -/
theorem expand_threw (h : t.Inv lax) (hk : key.toNat < 2 ^ (2 * b))
    (hil : t.inlineMask.has (indexOf c key hk) = true)
    (ht : t.insert key (.upTo n) = pure (.threw t')) :
    n = 0 ∧ t' = t ∨ n ≠ 0 ∧ t'.summary = t.summary ∧
      t'.slotAt = Function.update t.slotAt (indexOf c key hk) { t.slotAt (indexOf c key hk) with
        clusterBit := true, child := some VebNode.fresh } := by
  have hi : (hiPart b key).toNat = indexOf c key hk := rfl
  have hslot := h.slot (indexOf c key hk)
  have hfresh : LawfulVeb.Inv False (VebNode.fresh : C) := LawfulVeb.fresh_inv
  have hval : (t.inlineValue (indexOf c key hk)).toNat < 2 ^ b := hslot.value_lt hil
  have hnull : (t.slotAt (indexOf c key hk)).child = none := hslot.null_of_inline hil
  rw [insert_of_inline hk hil] at ht
  split at ht
  next => exact (returned_ne_threw ht).elim
  next =>
    obtain ⟨t₁, ht₁, hsum₁, hslots₁⟩ := ensureCluster_none hi hnull
    rw [ht₁, alloc_andThen] at ht
    cases n with
    | zero =>
      cases pure_inj.mp ht
      exact Or.inl ⟨rfl, rfl⟩
    | succ n' =>
      have hx₁ : (t₁.slotAt (indexOf c key hk)).child = some VebNode.fresh := by
        rw [hslots₁, Function.update_self]
      change ((pure (.returned t₁ (.upTo n')) : Outcome _).andThen _) = _ at ht
      rw [returned_andThen] at ht
      rcases andThen_eq_threw.mp ht with hthrew | ⟨t₂, m₂, hret, hrest⟩
      · rw [childInsert_eq hi hx₁] at hthrew
        obtain ⟨x', hx', rfl⟩ := within_eq_threw.mp hthrew
        obtain ⟨_, rfl⟩ := AllocOnce.fresh_threw hval hx'
        refine Or.inr ⟨Nat.succ_ne_zero n', hsum₁, ?_⟩
        rw [slotAt_setChild, hslots₁, Function.update_self, Function.update_idem]
      · -- the child has its first key, and needs no memory for the second
        rw [childInsert_eq hi hx₁] at hret
        obtain ⟨y, hy, rfl⟩ := within_eq_returned.mp hret
        obtain ⟨hyinv, hykeys⟩ := Inserted.spec ⟨_, _, hy⟩ hfresh hval
        have hx₂ : ((t₁.setChild (indexOf c key hk) y).slotAt (indexOf c key hk)).child =
            some y := by
          rw [slotAt_setChild, Function.update_self]
        exact (childInsert_ne_threw hi hx₂ hyinv (hykeys ▸ Set.insert_nonempty _ _)
          (loPart_lt C key).2 hrest).elim

/-- What a failed insertion leaves: the same state; a summary that lists nothing; or an inline value
with an empty child behind it that `cluster_mask_` lists. -/
theorem insert_threw_cases (h : t.Inv False) (hk : key.toNat < 2 ^ (2 * b))
    (ht : t.insert key (.upTo n) = pure (.threw t')) :
    (n = 0 ∧ t' = t) ∨ (n ≠ 0 ∧ t.summary = none ∧ t'.summary ≠ none) ∨
      (n ≠ 0 ∧ t.inlineMask.has (indexOf c key hk) = true ∧ t'.summary = t.summary ∧
        t'.slotAt = Function.update t.slotAt (indexOf c key hk) { t.slotAt (indexOf c key hk) with
          clusterBit := true, child := some VebNode.fresh }) := by
  cases hact : t.active (indexOf c key hk) with
  | false => exact (insert_absent_threw h hk hact ht).imp_right Or.inl
  | true =>
    cases hil : t.inlineMask.has (indexOf c key hk) with
    | false =>
      obtain ⟨t₁, ht₁⟩ := insert_child_returns (n := n) h hk hact hil
      rw [ht₁] at ht
      exact (returned_ne_threw ht).elim
    | true =>
      refine (expand_threw h hk hil ht).imp_right ?_
      rintro ⟨hn, hsum, hslots⟩
      exact Or.inr ⟨hn, rfl, hsum, hslots⟩

end Cases

section LeftOver

variable [LawfulVeb C b] {lax : Prop}

omit [VebNode C c] [Widths b w c] [LawfulVeb C b] in
theorem slotAt_self {s : SlotState c C} (h : u.slotAt = Function.update t.slotAt i s) :
    u.inlineMask.has i = s.inlineBit ∧ u.clusterMask.has i = s.clusterBit ∧
      u.inlineValue i = s.value ∧ (u.slotAt i).child = s.child := by
  have hi : u.slotAt i = s := by rw [h, Function.update_self]
  rw [← hi]
  exact ⟨rfl, rfl, rfl, rfl⟩

/-- Behind the empty child, the inline value goes with its index, and the next key of that index
comes without it. -/
theorem run_left_over (h : t.Inv lax) (hk : key.toNat < 2 ^ (2 * b)) (hq : q.toNat < 2 ^ (2 * b))
    (hqk : indexOf c q hq = indexOf c key hk)
    (hil : t.inlineMask.has (indexOf c key hk) = true)
    (hv : t.inlineValue (indexOf c key hk) = loPart b q) (hsum : t'.summary = t.summary)
    (hslots : t'.slotAt = Function.update t.slotAt (indexOf c key hk)
      { t.slotAt (indexOf c key hk) with clusterBit := true, child := some VebNode.fresh }) :
    ∃ t₀, t.erase q = pure t₀ ∧
      (run t' [.erase q, .insert key]).Returns fun u => EqOff t₀ u (indexOf c key hk) := by
  have hi : (hiPart b key).toNat = indexOf c key hk := rfl
  have hw := toNat_index (hiPart_lt c hq) (LawfulVeb.bits_le C)
  have hfresh : LawfulVeb.Inv False (VebNode.fresh : C) := LawfulVeb.fresh_inv
  obtain ⟨s, hs⟩ : ∃ s, t.summary = some s := by
    rw [← Option.ne_none_iff_exists', Ne, h.summary.null]
    have hact : t.active (indexOf c key hk) = true := Bool.or_eq_true_iff.mpr (Or.inl hil)
    exact (Set.nonempty_of_mem (show _ ∈ t.indices from hact)).ne_empty
  obtain ⟨s', _, hs'⟩ := erased_spec (h.summary_some hs).1 (hw ▸ hiPart_lt c hq)
  obtain ⟨hil', -, hv', -⟩ := slotAt_self hslots
  obtain ⟨t₀, ht₀, hsum₀, hslots₀⟩ :=
    erase_inline_slots hq (by rw [hqk, hil]) (by rw [hqk, hv]) hs hs'
  obtain ⟨t₁, ht₁, hsum₁, hslots₁⟩ := erase_inline_slots (t := t') hq
    (by rw [hqk]; exact hil'.trans hil) (by rw [hqk]; exact hv'.trans hv) (hsum.trans hs) hs'
  rw [hqk] at hslots₀ hslots₁
  rw [show t'.slotAt (indexOf c key hk) = _ from
    (congrFun hslots _).trans (Function.update_self ..)] at hslots₁
  obtain ⟨hil₁, hc₁, -, hx₁⟩ := slotAt_self hslots₁
  have hact₁ : t₁.active (indexOf c key hk) = true := Bool.or_eq_true_iff.mpr (Or.inr hc₁)
  obtain ⟨y, hy, _⟩ :=
    (LawfulVeb.insert_spec (m := .unbounded) hfresh (loPart_lt C key).2).unbounded
  have hins : t₁.insert key .unbounded =
      pure (.returned (t₁.setChild (indexOf c key hk) y) .unbounded) := by
    rw [insert_of_child hk hact₁ hil₁, ensureCluster_some hi hx₁, returned_andThen,
      childInsert_eq hi hx₁, hy, within_pure, Exit.map]
  refine ⟨t₀, ht₀, t₁.setChild (indexOf c key hk) y, ?_, ?_, hsum₁.trans hsum₀.symm, ?_⟩
  · change t'.erase q >>= (fun t₁ => (t₁.insert key .unbounded >>= _) >>= _) = _
    rw [ht₁, pure_bind, hins, pure_bind]
    rfl
  · obtain ⟨hil₀, hc₀, -, -⟩ := slotAt_self hslots₀
    exact Bool.or_eq_false_iff.mpr ⟨hil₀, hc₀.trans ((h.slot _).clusterBit_eq_false hil)⟩
  · intro j hj
    rw [slotAt_setChild, Function.update_of_ne hj, hslots₁, Function.update_of_ne hj, hslots,
      Function.update_of_ne hj, hslots₀, Function.update_of_ne hj]

theorem not_intact_of_left_over (h : t.Inv False) (hk : key.toNat < 2 ^ (2 * b))
    (hil : t.inlineMask.has (indexOf c key hk) = true) (hsum : t'.summary = t.summary)
    (hslots : t'.slotAt = Function.update t.slotAt (indexOf c key hk)
      { t.slotAt (indexOf c key hk) with clusterBit := true, child := some VebNode.fresh }) :
    ¬ Intact (2 * b) t t' := by
  have hlawful : LawfulVeb.Inv False t := h
  have hw := Widths.key (w := w) b c
  have hval : (t.inlineValue (indexOf c key hk)).toNat < 2 ^ b := (h.slot _).value_lt hil
  let q := combine b w (hiPart b key) (t.inlineValue (indexOf c key hk))
  obtain ⟨hq, hhi, hlo⟩ := split_combine C (w := w) (hiPart_lt c hk) hval
  have hindex : hiPart b q = hiPart b key := hiPart_combine C (hiPart_lt c hk) hval
  have hqk : indexOf c q hq = indexOf c key hk := by
    apply Fin.ext
    change (hiPart b q).toNat = (hiPart b key).toNat
    rw [hindex]
  obtain ⟨t₀, ht₀, u, hu, hoff⟩ := run_left_over h hk hq hqk hil hlo.symm hsum hslots
  have hle : ∀ {k : BitVec w}, k.toNat < 2 ^ (2 * b) → k ≤ maxKey (2 * b) w :=
    (le_maxKey_iff (Widths.double c) hw).mpr
  have hops : ∀ o ∈ [Op.erase q, Op.insert key], o.key ≤ maxKey (2 * b) w := by
    intro o ho
    rcases List.mem_pair.mp ho with rfl | rfl
    · exact hle hq
    · exact hle hk
  intro hintact
  have hanswers := hintact.answersAs hops hu
  obtain ⟨hinv₀, hkeys₀⟩ := Erased.spec (show Erased t q t₀ from ht₀) hlawful hq
  refine hoff.not_answersAs hinv₀ hk ?_
  rw [storedKeys_eq hw hlawful] at hanswers
  change AnswersAs _ _ (insert key.toNat (LawfulVeb.keys t \ {q.toNat})) at hanswers
  rwa [← hkeys₀] at hanswers

end LeftOver

/-- The set survives a failed insertion just if its first allocation fails. -/
theorem intact_iff [LawfulVeb C b] [AllocOnce C] (h : t.Inv False) (hk : key.toNat < 2 ^ (2 * b))
    (ht : t.insert key (.upTo n) = pure (.threw t')) : Intact (2 * b) t t' ↔ n = 0 := by
  have hlax : LawfulVeb.Inv True t := LawfulVeb.mono False.elim (show LawfulVeb.Inv False t from h)
  rcases insert_threw_cases h hk ht with ⟨hn, rfl⟩ | ⟨hn, hnull, hsum⟩ |
    ⟨hn, hil, hsum, hslots⟩
  · exact iff_of_true (intact_of_keys (Widths.key b c) h hlax rfl) hn
  · refine iff_of_false ?_ hn
    rintro ⟨hagree, _⟩
    have hempty : t'.summary.isNone = t.summary.isNone := hagree.empty
    rw [hnull] at hempty
    exact hsum (Option.isNone_iff_eq_none.mp hempty)
  · exact iff_of_false (not_intact_of_left_over h hk hil hsum hslots) hn

end DenseBranch

section Runs

/-- When a failed insertion of `key`, made when `n` more allocations succeed, leaves the set. -/
def Tree.Survives {M : ℕ → Type → Type} [FlatMap M] :
    (T : Tree) → T.State M → BitVec T.width → ℕ → Prop
  | .veb24, _, _, n | .veb32, _, _, n => n = 0
  | .veb48, t, key, n | .veb64, t, key, n => SparseBranch.Survives t key n

variable (M : ℕ → Type → Type) [FlatMap M] (T : Tree) (ops : List (Op T.width))

/-- Which failed allocations of an insertion the set survives, from any state that a run reaches. -/
theorem intact_after_bad_alloc_iff (hops : T.InRange ops) :
    (run (VebNode.fresh : T.State M) ops).Returns fun t => ∀ key, key ≤ T.maxKey → ∀ n t',
      VebNode.insert t key (.upTo n) = pure (.threw t') →
        (Intact T.bits t t' ↔ T.Survives t key n) := by
  refine (Tree.run_fresh hops).mono ?_
  rintro t ⟨h, _⟩ key hkey n t' ht
  have hk := Tree.le_maxKey.mp hkey
  cases T with
  | veb24 => exact DenseBranch.intact_iff h hk ht
  | veb32 => exact DenseBranch.intact_iff h hk ht
  | veb48 => exact SparseBranch.intact_iff h hk ht
  | veb64 => exact SparseBranch.intact_iff h hk ht

theorem intact_after_bad_alloc_iff_of_insertion :
    ∃ t t', run (VebNode.fresh : Tree.veb48.State FunMap) [.insert 5] = pure t ∧
      VebNode.insert t 6 (.upTo 2) = pure (.threw t') ∧
        (Intact 48 t t' ↔ Tree.Survives .veb48 t 6 2) := by
  have hthrows : (run (VebNode.fresh : Tree.veb48.State FunMap) [.insert 5] >>= fun t =>
      VebNode.insert t 6 (.upTo 2) >>= fun e =>
        pure (match e with
          | .returned _ _ => false
          | .threw _ => true)) = pure true := by decide +kernel
  obtain ⟨t, ht, hiff⟩ := intact_after_bad_alloc_iff FunMap .veb48 [.insert 5] (by decide)
  rw [ht, pure_bind] at hthrows
  obtain ⟨e, he, hthrew⟩ := bind_eq_pure.mp hthrows
  cases e with
  | returned t' m => cases pure_inj.mp hthrew
  | threw t' => exact ⟨t, t', ht, he, hiff 6 (by decide) 2 t' he⟩

/-- A new `VebTree48` has the entry of 5 but no memory for its summary: it then contains 0. -/
theorem bad_alloc_adds_key :
    ∃ t', VebNode.insert (VebNode.fresh : Tree.veb48.State FunMap) 5 (.upTo 1) =
        pure (.threw t') ∧
      VebNode.contains (VebNode.fresh : Tree.veb48.State FunMap) 0 = pure false ∧
      VebNode.contains t' 0 = pure true ∧
      ¬ Intact 48 (VebNode.fresh : Tree.veb48.State FunMap) t' := by
  have hthrew : (VebNode.insert (VebNode.fresh : Tree.veb48.State FunMap) 5 (.upTo 1) >>= fun e =>
      match e with
      | .returned _ _ => pure none
      | .threw t' => some <$> VebNode.contains t' 0) = pure (some true) := by decide +kernel
  have hold : VebNode.contains (VebNode.fresh : Tree.veb48.State FunMap) 0 = pure false := by
    decide +kernel
  obtain ⟨e, he, hnew⟩ := bind_eq_pure.mp hthrew
  cases e with
  | returned t' m => cases hnew
  | threw t' =>
    obtain ⟨r, hr, hsome⟩ := bind_eq_pure.mp hnew
    cases pure_inj.mp hsome
    refine ⟨t', he, hold, hr, ?_⟩
    rintro ⟨hagree, _⟩
    have hc := hagree.contains 0 (by decide)
    rw [hr, hold] at hc
    cases pure_inj.mp hc

end Runs

end ParvEB
