import ParvEB.Trees

/-! The indices with which an insertion touches the tables of the nodes that it reaches. -/
namespace ParvEB

open Outcome

/-- An index into `inline_mask_`, `cluster_mask_`, `inline_value_` or `clusters_` of a node, and the
fan-out of that node. -/
structure Access where
  index : ℕ
  fanout : ℕ
  deriving DecidableEq

def Access.InBounds (a : Access) : Prop := a.index < a.fanout

/-- The accesses of `insert` with memory to spare, at the node itself and at every summary and child
that it recurses into. -/
class AccessTrace (T : Type) {w : outParam ℕ} [VebNode T w] where
  insertAccesses : T → BitVec w → List Access

export AccessTrace (insertAccesses)

/-- The accesses of insertions into one node, up to the first that faults. -/
def insertionsAccesses {T : Type} {w : ℕ} [VebNode T w] [AccessTrace T] (t : T) :
    List (BitVec w) → List Access
  | [] => []
  | k :: ks => insertAccesses t k ++
    match VebNode.insert t k .unbounded with
    | .value e _ => insertionsAccesses e.state ks
    | .fault _ => []

/-- The accesses below a cluster that is present: an inline value other than `lo` is moved into the
child first. -/
def clusterAccesses {C : Type} {c : ℕ} [VebNode C c] [AccessTrace C] (inlineOnly : Bool)
    (value lo : BitVec c) (child : Option C) : List Access :=
  if inlineOnly then
    if value = lo then [] else insertionsAccesses (child.getD VebNode.fresh) [value, lo]
  else insertAccesses (child.getD VebNode.fresh) lo

/-- A leaf has none of these tables. -/
instance VebLeaf6.accessTrace : AccessTrace VebLeaf6 where
  insertAccesses _ _ := []

instance VebLeaf8.accessTrace : AccessTrace VebLeaf8 where
  insertAccesses _ _ := []

namespace DenseBranch

variable {b w c : ℕ} {inl : Bool} {C : Type} [VebNode C c] [AccessTrace C]

/-- `insert` touches the tables of its own node at `hi` only. What it does below depends on what
they hold there. -/
def accesses (t : DenseBranch b w c inl C) (key : BitVec w) : List Access :=
  let hi := hiPart b key
  let lo : BitVec c := loPart b key
  ⟨hi.toNat, 2 ^ b⟩ ::
    if h : hi.toNat < 2 ^ b then
      let s := t.slotAt ⟨hi.toNat, h⟩
      if s.active then clusterAccesses s.inlineBit s.value lo s.child
      else insertAccesses (t.summary.getD VebNode.fresh) (hi.setWidth c)
    -- the assertion of `test` has failed
    else []

instance accessTrace : AccessTrace (DenseBranch b w c inl C) where
  insertAccesses := accesses

end DenseBranch

namespace SparseBranch

variable {b w c : ℕ} {M : ℕ → Type → Type} {C : Type} [FlatMap M] [VebNode C c] [AccessTrace C]

/-- The map takes any `hi`, so that the insertion goes on past the fan-out. -/
def accesses (t : SparseBranch b w c M C) (key : BitVec w) : List Access :=
  let hi : BitVec c := hiPart b key
  let lo : BitVec c := loPart b key
  ⟨hi.toNat, 2 ^ b⟩ ::
    match FlatMap.find t.clusters hi with
    | none => insertAccesses t.summary hi
    | some entry => clusterAccesses entry.inlineOnly entry.inlineValue lo entry.child

instance accessTrace : AccessTrace (SparseBranch b w c M C) where
  insertAccesses := accesses

end SparseBranch

/-- Insertions into the universe of a well-formed node keep to the fan-outs. -/
class BoundedTrace (T : Type) {w bits : outParam ℕ} [VebNode T w] [LawfulVeb T bits]
    [AccessTrace T] : Prop where
  inBounds {lax : Prop} {t : T} {k : BitVec w} : LawfulVeb.Inv lax t → k.toNat < 2 ^ bits →
    ∀ a ∈ insertAccesses t k, a.InBounds

theorem insertionsAccesses_inBounds {T : Type} {w bits : ℕ} [VebNode T w] [LawfulVeb T bits]
    [AccessTrace T] [BoundedTrace T] {lax : Prop} {t : T} {ks : List (BitVec w)}
    (h : LawfulVeb.Inv lax t) (hks : ∀ k ∈ ks, k.toNat < 2 ^ bits) :
    ∀ a ∈ insertionsAccesses t ks, a.InBounds := by
  induction ks generalizing t with
  | nil => exact fun a ha => absurd ha List.not_mem_nil
  | cons k ks ih =>
    obtain ⟨hk, hks⟩ := List.forall_mem_cons.mp hks
    obtain ⟨t', ht', h', _⟩ := (LawfulVeb.insert_spec (m := .unbounded) h hk).unbounded
    intro a ha
    rw [insertionsAccesses, ht'] at ha
    rcases List.mem_append.mp ha with ha | ha
    · exact BoundedTrace.inBounds h hk a ha
    · exact ih h' hks a ha

theorem clusterAccesses_inBounds {C : Type} {b c : ℕ} [VebNode C c] [LawfulVeb C b] [AccessTrace C]
    [BoundedTrace C] {lax : Prop} {inlineOnly : Bool} {value lo : BitVec c} {child : Option C}
    (hchild : LawfulVeb.Inv lax (child.getD VebNode.fresh))
    (hval : inlineOnly = true → value.toNat < 2 ^ b) (hlo : lo.toNat < 2 ^ b) :
    ∀ a ∈ clusterAccesses inlineOnly value lo child, a.InBounds := by
  cases inlineOnly with
  | true =>
    rw [clusterAccesses, if_pos rfl]
    split
    next => exact fun a ha => absurd ha List.not_mem_nil
    next =>
      exact insertionsAccesses_inBounds hchild
        (List.forall_mem_cons.mpr ⟨hval rfl, List.forall_mem_singleton.mpr hlo⟩)
  | false => exact BoundedTrace.inBounds hchild hlo

instance VebLeaf6.boundedTrace : BoundedTrace VebLeaf6 where
  inBounds _ _ _ ha := absurd ha List.not_mem_nil

instance VebLeaf8.boundedTrace : BoundedTrace VebLeaf8 where
  inBounds _ _ _ ha := absurd ha List.not_mem_nil

namespace DenseBranch

variable {b w c : ℕ} {inl : Bool} {C : Type} [VebNode C c] [LawfulVeb C b] [Widths b w c]
  [AccessTrace C] [BoundedTrace C] {lax : Prop} {t : DenseBranch b w c inl C} {key : BitVec w}

/-- Only the index into the node's own tables can be past a fan-out. -/
theorem accesses_inBounds_iff (h : t.Inv lax) :
    (∀ a ∈ t.accesses key, a.InBounds) ↔ (hiPart b key).toNat < 2 ^ b := by
  refine List.forall_mem_cons.trans ⟨And.left, fun hhi => ⟨hhi, ?_⟩⟩
  have hslot := h.slot ⟨_, hhi⟩
  have hlo := (loPart_lt C key).2
  dsimp only
  rw [dif_pos hhi]
  split
  next =>
    have hchild : LawfulVeb.Inv lax ((t.slotAt ⟨_, hhi⟩).child.getD VebNode.fresh) := by
      cases hx : (t.slotAt ⟨_, hhi⟩).child with
      | none => exact LawfulVeb.fresh_inv
      | some x => exact (hslot.child x hx).1
    exact clusterAccesses_inBounds hchild hslot.value_lt hlo
  next =>
    refine BoundedTrace.inBounds h.summary.getD.1 ?_
    have hle : 2 ^ b ≤ 2 ^ c := Nat.pow_le_pow_right (by omega) (LawfulVeb.bits_le C)
    rwa [toNat_setWidth_of_lt (hhi.trans_le hle)]

instance boundedTrace : BoundedTrace (DenseBranch b w c inl C) where
  inBounds h hk := (accesses_inBounds_iff h).mpr (hiPart_lt c hk)

end DenseBranch

namespace SparseBranch

variable {b w c : ℕ} {M : ℕ → Type → Type} {C : Type} [FlatMap M] [VebNode C c] [LawfulVeb C b]
  [Widths b w c] [AccessTrace C] [BoundedTrace C] {lax : Prop} {t : SparseBranch b w c M C}
  {key : BitVec w}

theorem accesses_inBounds_iff (h : t.Inv lax) :
    (∀ a ∈ t.accesses key, a.InBounds) ↔ (hiPart b key : BitVec c).toNat < 2 ^ b := by
  refine List.forall_mem_cons.trans ⟨And.left, fun hhi => ⟨hhi, ?_⟩⟩
  have hlo := (loPart_lt C key).2
  cases he : FlatMap.find t.clusters (hiPart b key) with
  | none => exact BoundedTrace.inBounds h.summary hhi
  | some e =>
    have hentry := h.entry _ e he
    have hchild : LawfulVeb.Inv lax (e.child.getD VebNode.fresh) := by
      cases hx : e.child with
      | none => exact LawfulVeb.fresh_inv
      | some x =>
        cases hil : e.inlineOnly with
        | true => exact (hentry.left_over hil x hx).1
        | false =>
          obtain ⟨y, hy, hinv, _⟩ := hentry.child hil
          cases hx.symm.trans hy
          exact hinv
    exact clusterAccesses_inBounds hchild hentry.value_lt hlo

instance boundedTrace : BoundedTrace (SparseBranch b w c M C) where
  inBounds h hk := (accesses_inBounds_iff h).mpr (hiPart_lt C hk)

end SparseBranch

section Levels

variable {M : ℕ → Type → Type} [FlatMap M]

instance VebBranch12.boundedTrace : BoundedTrace VebBranch12 := DenseBranch.boundedTrace
instance VebBranch16.boundedTrace : BoundedTrace VebBranch16 := DenseBranch.boundedTrace
instance VebBranch24.boundedTrace : BoundedTrace (VebBranch24 M) := SparseBranch.boundedTrace
instance VebBranch32.boundedTrace : BoundedTrace (VebBranch32 M) := SparseBranch.boundedTrace

instance Tree.accessTrace : (T : Tree) → AccessTrace (T.State M)
  | .veb24 => (inferInstance : AccessTrace VebTop24)
  | .veb32 => (inferInstance : AccessTrace VebTop32)
  | .veb48 => (inferInstance : AccessTrace (VebBranch48 M))
  | .veb64 => (inferInstance : AccessTrace (VebBranch64 M))

end Levels

end ParvEB
