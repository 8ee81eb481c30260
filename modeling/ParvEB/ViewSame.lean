import ParvEB.ViewTraversal
import ParvEB.ViewUpdates

/-! Nodes that no sequence of calls tells apart. -/
namespace ParvEB

open Outcome

/-- `Same` is a relation between nodes that calls preserve and that no observation breaks. It leaves
open what is never read again: an inline value without its bit, an empty child without its bit. -/
class LawfulShape (T : Type) {w : outParam ℕ} [VebNode T w] {bits : outParam ℕ}
    [LawfulVeb T bits] where
  Same : T → T → Prop
  keys_eq {t t' : T} : LawfulVeb.Inv False t → LawfulVeb.Inv False t' → Same t t' →
    LawfulVeb.keys t = LawfulVeb.keys t'
  of_empty {t t' : T} : LawfulVeb.Inv False t → LawfulVeb.Inv False t' →
    LawfulVeb.keys t = ∅ → LawfulVeb.keys t' = ∅ → Same t t'
  inserted {t t' u u' : T} {k : BitVec w} : LawfulVeb.Inv False t → LawfulVeb.Inv False t' →
    k.toNat < 2 ^ bits → Same t t' → Inserted t k u → Inserted t' k u' → Same u u'
  erased {t t' u u' : T} {k : BitVec w} : LawfulVeb.Inv False t → LawfulVeb.Inv False t' →
    k.toNat < 2 ^ bits → Same t t' → Erased t k u → Erased t' k u' → Same u u'
  forEach_eq {t t' : T} (p : BitVec w) : LawfulVeb.Inv False t → LawfulVeb.Inv False t' →
    Same t t' → VebNode.forEach t p = VebNode.forEach t' p

section Leaves

/-- When the state is the set, only equal states are the same. -/
abbrev LawfulShape.ofInjective {T : Type} {w bits : ℕ} [VebNode T w] [LawfulVeb T bits]
    (hinj : ∀ t t' : T, LawfulVeb.keys t = LawfulVeb.keys t' → t = t') : LawfulShape T where
  Same t t' := t = t'
  keys_eq _ _ h := h ▸ rfl
  of_empty _ _ h h' := hinj _ _ (h.trans h'.symm)
  inserted h h' hk he hu hu' := by
    subst he
    exact hinj _ _ ((hu.spec h hk).2.trans (hu'.spec h' hk).2.symm)
  erased h h' hk he hu hu' := by
    subst he
    exact hinj _ _ ((hu.spec h hk).2.trans (hu'.spec h' hk).2.symm)
  forEach_eq _ _ _ h := h ▸ rfl

instance : LawfulShape VebLeaf6 := .ofInjective fun t t' h => by
  obtain ⟨x⟩ := t
  obtain ⟨x'⟩ := t'
  exact congrArg VebLeaf6.mk (eq_of_bitsOf_eq h)

instance : LawfulShape VebLeaf8 := .ofInjective fun t t' h => by
  obtain ⟨x⟩ := t
  obtain ⟨x'⟩ := t'
  exact congrArg VebLeaf8.mk (indices_injective h)

end Leaves

variable {b w c : ℕ} {C : Type} [VebNode C c] [LawfulVeb C b] [LawfulShape C]

/-- Two clusters of one kind, with one value or the same child. -/
inductive Cluster.Same (b : ℕ) [LawfulVeb C b] [LawfulShape C] :
    Option (Cluster c C) → Option (Cluster c C) → Prop
  | absent : Same b none none
  | inline (v : BitVec c) : Same b (some (.inline v)) (some (.inline v))
  | child {x x' : C} : LawfulShape.Same x x' → Same b (some (.child x)) (some (.child x'))

namespace Cluster.Same

variable {o o' u u' : Option (Cluster c C)} {lo : BitVec c}

theorem isSome_eq (h : Same b o o') : o.isSome = o'.isSome := by
  cases h <;> rfl

theorem keysOf_eq (h : Same b o o') (ho : ∀ cl, o = some cl → cl.Inv b False)
    (ho' : ∀ cl, o' = some cl → cl.Inv b False) : keysOf o = keysOf o' := by
  cases h with
  | absent => rfl
  | inline v => rfl
  | @child x x' hx =>
    rw [keysOf_some, keysOf_some]
    exact LawfulShape.keys_eq (ho _ rfl).1 (ho' _ rfl).1 hx

theorem grows (h : Same b o o') (ho : ∀ cl, o = some cl → cl.Inv b False)
    (ho' : ∀ cl, o' = some cl → cl.Inv b False) (hlo : lo.toNat < 2 ^ b)
    (hu : Grows b False lo o u) (hu' : Grows b False lo o' u') : Same b u u' := by
  cases h with
  | absent =>
    cases hu
    cases hu'
    exact .inline lo
  | inline v =>
    have hv : v.toNat < 2 ^ b := ho _ rfl
    cases hu with
    | present =>
      cases hu' with
      | present => exact .inline lo
      | expand hne => exact (hne rfl).elim
    | @expand _ x y z hne hx _ hxkeys hy hz =>
      cases hu' with
      | present => exact (hne rfl).elim
      | @expand _ x' y' z' _ hx' _ hxkeys' hy' hz' =>
        have hxx' := LawfulShape.of_empty hx hx' (hxkeys id) (hxkeys' id)
        have hyy' := LawfulShape.inserted hx hx' hv hxx' hy hy'
        exact .child (LawfulShape.inserted (hy.spec hx hv).1 (hy'.spec hx' hv).1 hlo hyy' hz hz')
  | child hx =>
    cases hu with
    | child hy =>
      cases hu' with
      | child hy' => exact .child (LawfulShape.inserted (ho _ rfl).1 (ho' _ rfl).1 hlo hx hy hy')

theorem shrinks (h : Same b o o') (ho : ∀ cl, o = some cl → cl.Inv b False)
    (ho' : ∀ cl, o' = some cl → cl.Inv b False) (hlo : lo.toNat < 2 ^ b)
    (hu : Shrinks lo o u) (hu' : Shrinks lo o' u') : Same b u u' := by
  cases h with
  | absent =>
    cases hu
    cases hu'
    exact .absent
  | inline v =>
    cases hu with
    | other hne =>
      cases hu' with
      | other _ => exact .inline v
      | inline => exact (hne rfl).elim
    | inline =>
      cases hu' with
      | other hne => exact (hne rfl).elim
      | inline => exact .absent
  | @child x x' hx =>
    have hinv := (ho _ rfl).1
    have hinv' := (ho' _ rfl).1
    have hempty : ∀ y y', Erased x lo y → Erased x' lo y' →
        (VebNode.empty y = true ↔ VebNode.empty y' = true) := by
      intro y y' hy hy'
      rw [LawfulVeb.empty_spec (hy.spec hinv hlo).1, LawfulVeb.empty_spec (hy'.spec hinv' hlo).1,
        (hy.spec hinv hlo).2, (hy'.spec hinv' hlo).2, LawfulShape.keys_eq hinv hinv' hx]
    cases hu with
    | @keep _ y hy he =>
      cases hu' with
      | keep hy' _ => exact .child (LawfulShape.erased hinv hinv' hlo hx hy hy')
      | @drop _ y' hy' he' =>
        rw [(hempty y y' hy hy').mpr he'] at he
        cases he
    | @drop _ y hy he =>
      cases hu' with
      | @keep _ y' hy' he' =>
        rw [(hempty y y' hy hy').mp he] at he'
        cases he'
      | drop _ _ => exact .absent

end Cluster.Same

namespace View

/-- Two branches with the same summary and the same clusters. -/
structure Same (b : ℕ) [LawfulVeb C b] [LawfulShape C] (v v' : View c C) : Prop where
  summary : LawfulShape.Same v.summary v'.summary
  cluster : ∀ i, Cluster.Same b (v.cluster i) (v'.cluster i)

namespace Same

variable {v v' u u' : View c C} {hi lo : BitVec c}

theorem keys_eq (h : v.Same b v') (hv : v.Inv b False) (hv' : v'.Inv b False) :
    v.keys b = v'.keys b :=
  keys_congr fun i => (h.cluster i).keysOf_eq (hv.cluster i) (hv'.cluster i)

theorem of_empty (hv : v.Inv b False) (hv' : v'.Inv b False) (hk : v.keys b = ∅)
    (hk' : v'.keys b = ∅) : v.Same b v' := by
  have hs := hv.keys_eq_empty_iff.mp hk
  have hs' := hv'.keys_eq_empty_iff.mp hk'
  refine ⟨LawfulShape.of_empty hv.summary hv'.summary hs hs', fun i => ?_⟩
  have hnone : ∀ {v : View c C}, v.Inv b False → LawfulVeb.keys v.summary = ∅ →
      v.cluster i = none := by
    intro v hv hs
    rw [← Option.not_isSome_iff_eq_none, ← hv.mem_summary, hs]
    exact Set.notMem_empty i
  rw [hnone hv hs, hnone hv' hs']
  exact .absent

theorem grows (h : v.Same b v') (hv : v.Inv b False) (hv' : v'.Inv b False)
    (hhi : hi.toNat < 2 ^ b) (hlo : lo.toNat < 2 ^ b) (hu : v.Grows b False hi lo u)
    (hu' : v'.Grows b False hi lo u') : u.Same b u' := by
  have hat := h.cluster hi.toNat
  constructor
  · cases hcl : v.cluster hi.toNat with
    | none =>
      have hcl' : v'.cluster hi.toNat = none := by
        rw [← Option.not_isSome_iff_eq_none, ← hat.isSome_eq, hcl]
        simp
      exact LawfulShape.inserted hv.summary hv'.summary hhi h.summary (hu.summary_new hcl)
        (hu'.summary_new hcl')
    | some cl =>
      have hcl' : (v'.cluster hi.toNat).isSome = true := by
        rw [← hat.isSome_eq, hcl]
        rfl
      rw [hu.summary_old (by simp [hcl]), hu'.summary_old hcl']
      exact h.summary
  · intro j
    by_cases hj : j = hi.toNat
    · rw [hj]
      exact hat.grows (hv.cluster _) (hv'.cluster _) hlo hu.grown hu'.grown
    · rw [hu.others j hj, hu'.others j hj]
      exact h.cluster j

/-- Summaries that stand for one set, each as it was left or made anew. -/
theorem summary_of_erased {s s' a a' : C} (hs : LawfulVeb.Inv False s)
    (hs' : LawfulVeb.Inv False s') (h : LawfulShape.Same s s')
    (ha : a = s ∨ VebNode.empty s = true ∧ a = VebNode.fresh)
    (ha' : a' = s' ∨ VebNode.empty s' = true ∧ a' = VebNode.fresh) : LawfulShape.Same a a' := by
  have hkeys := LawfulShape.keys_eq hs hs' h
  have hfresh : LawfulVeb.Inv False (VebNode.fresh : C) := LawfulVeb.fresh_inv
  rcases ha with rfl | ⟨he, rfl⟩ <;> rcases ha' with rfl | ⟨he', rfl⟩
  · exact h
  · rw [LawfulVeb.empty_spec hs'] at he'
    exact LawfulShape.of_empty hs hfresh (hkeys.trans he') LawfulVeb.keys_fresh
  · rw [LawfulVeb.empty_spec hs] at he
    exact LawfulShape.of_empty hfresh hs' LawfulVeb.keys_fresh (hkeys.symm.trans he)
  · exact LawfulShape.of_empty hfresh hfresh LawfulVeb.keys_fresh LawfulVeb.keys_fresh

theorem shrinks (h : v.Same b v') (hv : v.Inv b False) (hv' : v'.Inv b False)
    (hhi : hi.toNat < 2 ^ b) (hlo : lo.toNat < 2 ^ b) (hu : v.Shrinks hi lo u)
    (hu' : v'.Shrinks hi lo u') : u.Same b u' := by
  have hat := h.cluster hi.toNat
  have hat' := hat.shrinks (hv.cluster _) (hv'.cluster _) hlo hu.shrunk hu'.shrunk
  constructor
  · rcases hu.shrunk.kept_or_gone with hold | ⟨hsome, hnone⟩
    · have hold' : (u'.cluster hi.toNat).isSome = (v'.cluster hi.toNat).isSome := by
        rw [← hat'.isSome_eq, ← hat.isSome_eq]
        exact hold
      rw [hu.summary_old hold, hu'.summary_old hold']
      exact h.summary
    · have hnone' : u'.cluster hi.toNat = none := by
        rw [← Option.not_isSome_iff_eq_none, ← hat'.isSome_eq, hnone]
        simp
      obtain ⟨s, hs, ha⟩ := hu.summary_gone hsome hnone
      obtain ⟨s', hs', ha'⟩ := hu'.summary_gone (hat.isSome_eq ▸ hsome) hnone'
      exact summary_of_erased (hs.spec hv.summary hhi).1 (hs'.spec hv'.summary hhi).1
        (LawfulShape.erased hv.summary hv'.summary hhi h.summary hs hs') ha ha'
  · intro j
    by_cases hj : j = hi.toNat
    · rw [hj]
      exact hat'
    · rw [hu.others j hj, hu'.others j hj]
      exact h.cluster j

/-- The callback sees the same calls. -/
theorem forEach_eq [LawfulTraversal C] (h : v.Same b v') (hv : v.Inv b False)
    (hv' : v'.Inv b False) (pfx : BitVec w) : v.forEach b w pfx = v'.forEach b w pfx := by
  have hvisit : v.visit b w pfx = v'.visit b w pfx := by
    funext i
    have hcl := h.cluster i.toNat
    have hinv := hv.cluster i.toNat
    have hinv' := hv'.cluster i.toNat
    unfold View.visit
    generalize v.cluster i.toNat = o at hcl hinv
    generalize v'.cluster i.toNat = o' at hcl hinv'
    cases hcl with
    | absent => rfl
    | inline u => rfl
    | child hx => exact LawfulShape.forEach_eq _ (hinv _ rfl).1 (hinv' _ rfl).1 hx
  unfold View.forEach
  rw [LawfulTraversal.forEachAll_eq, LawfulTraversal.forEachAll_eq, hvisit,
    LawfulShape.forEach_eq 0 hv.summary hv'.summary h.summary]

end Same

end View

end ParvEB
