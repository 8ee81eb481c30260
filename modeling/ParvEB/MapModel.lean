import ParvEB.Failure
import ParvEB.Refinement

/-! The cluster map of the sparse branches as a function. -/
namespace ParvEB

open Outcome

section Images

variable {S R : Type} {x : Outcome (Exit S)} {f : S → R} {m : Mem} {s : S}

/-- The image of a sequence is the sequence of the images. -/
theorem within_andThen {k : S → Mem → Outcome (Exit S)} {l : R → Mem → Outcome (Exit R)}
    (h : ∀ s m, l (f s) m = within f (k s m)) :
    within f (x.andThen k) = (within f x).andThen l := by
  unfold Outcome.within Outcome.andThen
  rw [bind_assoc, bind_assoc]
  refine bind_congr fun e => ?_
  rw [pure_bind]
  cases e with
  | returned s m => exact (h s m).symm
  | threw s => rw [pure_bind]; rfl

theorem within_within {Q : Type} {g : R → Q} :
    within g (within f x) = within (fun s => g (f s)) x := by
  unfold Outcome.within
  rw [bind_assoc]
  refine bind_congr fun e => ?_
  rw [pure_bind]
  cases e <;> rfl

theorem within_returned : within f (pure (.returned s m)) = pure (.returned (f s) m) :=
  within_pure f _

theorem within_alloc {k : Mem → Outcome (Exit S)} :
    within f (m.alloc s k) = m.alloc (f s) fun m => within f (k m) := by
  cases m with
  | unbounded => rfl
  | upTo n =>
    cases n with
    | zero => exact within_pure f _
    | succ n => rfl

end Images

section Maps

variable {M : ℕ → Type → Type} [FlatMap M] {w : ℕ} {V V' : Type}

/-- What a map finds, each value replaced by its image. -/
def lookup (f : V → V') (m : M w V) : FunMap w V' := fun k => (FlatMap.find m k).map f

variable {f : V → V'}

theorem lookup_empty : lookup f (FlatMap.empty : M w V) = FlatMap.empty := by
  funext k
  exact congrArg (Option.map f) (FlatMap.find_empty k)

theorem lookup_emplace (m : M w V) (k : BitVec w) (v : V) :
    lookup f (FlatMap.emplace m k v) = FlatMap.emplace (lookup f m) k (f v) := by
  funext k'
  refine (congrArg (Option.map f) (FlatMap.find_emplace m k k' v)).trans ?_
  change _ = if k' = k then some (((FlatMap.find m k).map f).getD (f v)) else lookup f m k'
  split
  · rw [Option.getD_map]
    rfl
  · rfl

theorem lookup_assign (m : M w V) (k : BitVec w) (v : V) :
    lookup f (FlatMap.assign m k v) = FlatMap.assign (lookup f m) k (f v) := by
  funext k'
  refine (congrArg (Option.map f) (FlatMap.find_assign m k k' v)).trans ?_
  change _ = if k' = k then ((FlatMap.find m k).map f).map (fun _ => f v) else lookup f m k'
  split
  · rw [Option.map_map, Option.map_map]
    rfl
  · rfl

theorem lookup_erase (m : M w V) (k : BitVec w) :
    lookup f (FlatMap.erase m k) = FlatMap.erase (lookup f m) k := by
  funext k'
  refine (congrArg (Option.map f) (FlatMap.find_erase m k k')).trans ?_
  change _ = if k' = k then none else lookup f m k'
  split <;> rfl

end Maps

/-- A map of node types that every member respects. -/
class VebHom (T T' : Type) {w : outParam ℕ} [VebNode T w] [VebNode T' w] where
  image : T → T'
  image_fresh : image VebNode.fresh = VebNode.fresh
  empty_image (t : T) : VebNode.empty (image t) = VebNode.empty t
  insert_image (t : T) (k : BitVec w) (m : Mem) :
    VebNode.insert (image t) k m = within image (VebNode.insert t k m)
  erase_image (t : T) (k : BitVec w) :
    VebNode.erase (image t) k = VebNode.erase t k >>= fun t' => pure (image t')
  contains_image (t : T) (k : BitVec w) : VebNode.contains (image t) k = VebNode.contains t k
  min_image (t : T) : VebNode.min (image t) = VebNode.min t
  max_image (t : T) : VebNode.max (image t) = VebNode.max t
  successor_image (t : T) (k : BitVec w) : VebNode.successor (image t) k = VebNode.successor t k
  predecessor_image (t : T) (k : BitVec w) :
    VebNode.predecessor (image t) k = VebNode.predecessor t k
  forEach_image (t : T) (p : BitVec w) : VebNode.forEach (image t) p = VebNode.forEach t p
  forEachAll_image (t : T) : VebNode.forEachAll (image t) = VebNode.forEachAll t

/-- A type without a map in it is its own image. -/
abbrev VebHom.self (T : Type) {w : ℕ} [VebNode T w] : VebHom T T where
  image t := t
  image_fresh := rfl
  empty_image _ := rfl
  insert_image t k m := by
    have hid : ∀ e : Exit T, e.map (fun t => t) = e := by rintro (_ | _) <;> rfl
    simp [Outcome.within, hid]
  erase_image t k := (bind_pure (VebNode.erase t k)).symm
  contains_image _ _ := rfl
  min_image _ := rfl
  max_image _ := rfl
  successor_image _ _ := rfl
  predecessor_image _ _ := rfl
  forEach_image _ _ := rfl
  forEachAll_image _ := rfl

namespace SparseBranch

variable {b w c : ℕ} {M : ℕ → Type → Type} {C D : Type} [FlatMap M] [VebNode C c] [VebNode D c]
  [VebHom C D]

/-- The entry with the image of its child. -/
def entryImage (e : ClusterEntry c C) : ClusterEntry c D where
  inlineOnly := e.inlineOnly
  inlineValue := e.inlineValue
  child := e.child.map VebHom.image

/-- The branch whose map is a function. -/
def image (t : SparseBranch b w c M C) : SparseBranch b w c FunMap D where
  summary := VebHom.image t.summary
  clusters := lookup entryImage t.clusters

theorem find_image (t : SparseBranch b w c M C) (hi : BitVec c) :
    FlatMap.find (t.image (D := D)).clusters hi = (FlatMap.find t.clusters hi).map entryImage :=
  rfl

theorem setEntry_image (t : SparseBranch b w c M C) (hi : BitVec c) (e : ClusterEntry c C) :
    (t.image (D := D)).setEntry hi (entryImage e) = (t.setEntry hi e).image := by
  rw [setEntry, setEntry, image, image, lookup_assign]

theorem ensureChild_image (e : ClusterEntry c C) (m : Mem) :
    ensureChild (entryImage e : ClusterEntry c D) m = within entryImage (ensureChild e m) := by
  obtain ⟨inlineOnly, inlineValue, child⟩ := e
  cases child with
  | some x => exact within_returned.symm
  | none =>
    change m.alloc _ (fun m => pure _) = within entryImage (m.alloc _ fun m => pure _)
    rw [within_alloc]
    refine congrArg (m.alloc _) (funext fun m => ?_)
    rw [within_returned]
    have hfresh : (VebHom.image (VebNode.fresh : C) : D) = VebNode.fresh := VebHom.image_fresh
    change _ = pure (Exit.returned (ClusterEntry.mk _ _ (some (VebHom.image VebNode.fresh))) m)
    rw [hfresh]
    rfl

theorem childInsert_image (e : ClusterEntry c C) (x : BitVec c) (m : Mem) :
    childInsert (entryImage e : ClusterEntry c D) x m = within entryImage (childInsert e x m) := by
  obtain ⟨inlineOnly, inlineValue, child⟩ := e
  cases child with
  | none => rfl
  | some y =>
    change within _ (VebNode.insert (VebHom.image y) x m) = within _ (within _ _)
    rw [VebHom.insert_image, within_within, within_within]
    rfl

theorem entryInsert_image (e : ClusterEntry c C) (lo : BitVec c) (m : Mem) :
    entryInsert (entryImage e : ClusterEntry c D) lo m =
      within entryImage (entryInsert e lo m) := by
  unfold entryInsert
  rw [ensureChild_image]
  change (if e.inlineOnly = true then if e.inlineValue = lo then _ else _ else _) = _
  split
  next =>
    split
    next => exact within_returned.symm
    next =>
      refine (within_andThen fun e m => ?_).symm
      rw [childInsert_image]
      refine (within_andThen fun e m => ?_).symm
      rw [childInsert_image]
      exact (within_andThen fun e m => within_returned.symm).symm
  next => exact (within_andThen fun e m => childInsert_image e lo m).symm

theorem insert_image (t : SparseBranch b w c M C) (key : BitVec w) (m : Mem) :
    SparseBranch.insert (t.image (D := D)) key m =
      within image (SparseBranch.insert t key m) := by
  unfold SparseBranch.insert
  dsimp only
  rw [find_image]
  cases FlatMap.find t.clusters (hiPart b key) with
  | some e =>
    dsimp only [Option.map_some]
    rw [entryInsert_image, within_within, within_within]
    exact congrArg (fun f => within f _) (funext fun e => setEntry_image t _ e)
  | none =>
    dsimp only [Option.map_none]
    rw [within_alloc]
    refine congrArg (m.alloc _) (funext fun m => ?_)
    rw [within_andThen (f := image) (l := fun (t' : SparseBranch b w c FunMap D) m =>
      pure (.returned (t'.setEntry (hiPart b key) { inlineValue := loPart b key }) m))]
    · rw [within_within]
      change (within _ (VebNode.insert (VebHom.image t.summary) _ _)).andThen _ = _
      rw [VebHom.insert_image, within_within]
      refine congrArg (fun f => (within f _).andThen _) (funext fun s => ?_)
      exact congrArg (SparseBranch.mk _) (lookup_emplace t.clusters (hiPart b key) {}).symm
    · intro t m
      rw [within_returned, ← setEntry_image]
      rfl

theorem removeCluster_image (t : SparseBranch b w c M C) (hi : BitVec c) :
    (t.image (D := D)).removeCluster hi =
      t.removeCluster hi >>= fun t' => pure t'.image := by
  unfold removeCluster
  rw [bind_assoc]
  change VebNode.erase (VebHom.image t.summary) hi >>= _ = _
  rw [VebHom.erase_image, bind_assoc]
  refine bind_congr fun s => ?_
  rw [pure_bind, pure_bind]
  exact congrArg (fun m => pure (SparseBranch.mk _ m)) (lookup_erase t.clusters hi).symm

theorem erase_image (t : SparseBranch b w c M C) (key : BitVec w) :
    (t.image (D := D)).erase key = t.erase key >>= fun t' => pure t'.image := by
  unfold erase
  dsimp only
  rw [find_image]
  cases FlatMap.find t.clusters (hiPart b key) with
  | none => exact (pure_bind _ _).symm
  | some e =>
    obtain ⟨inlineOnly, inlineValue, child⟩ := e
    cases inlineOnly with
    | true =>
      by_cases hv : inlineValue = loPart b key
      · have := removeCluster_image (D := D) t (hiPart b key)
        simpa [entryImage, hv] using this
      · simp [entryImage, hv]
    | false =>
      cases child with
      | none => rfl
      | some x =>
        change (VebNode.erase (VebHom.image x) (loPart b key) >>= _) =
          (VebNode.erase x (loPart b key) >>= _) >>= _
        rw [VebHom.erase_image, bind_assoc, bind_assoc]
        refine bind_congr fun y => ?_
        rw [pure_bind]
        dsimp only
        rw [VebHom.empty_image]
        change (if _ then SparseBranch.removeCluster (t.image.setEntry (hiPart b key)
          (entryImage ⟨false, inlineValue, some y⟩)) _ else pure (t.image.setEntry (hiPart b key)
          (entryImage ⟨false, inlineValue, some y⟩))) = _
        rw [setEntry_image]
        split
        next => exact removeCluster_image _ _
        next => exact (pure_bind _ _).symm

theorem contains_image (t : SparseBranch b w c M C) (key : BitVec w) :
    (t.image (D := D)).contains key = t.contains key := by
  unfold contains
  dsimp only
  rw [find_image]
  cases FlatMap.find t.clusters (hiPart b key) with
  | none => rfl
  | some e =>
    obtain ⟨inlineOnly, inlineValue, child⟩ := e
    cases child with
    | none => rfl
    | some x =>
      change (if inlineOnly = true then _ else VebNode.contains (VebHom.image x) _) = _
      rw [VebHom.contains_image]
      rfl

/-- The end of the order queries: `f` of the cluster that the summary names. -/
def endOf (f : C → Outcome (Option (BitVec c))) (t : SparseBranch b w c M C) (hi : BitVec c) :
    Outcome (Option (BitVec w)) :=
  match FlatMap.find t.clusters hi with
  | none => .fallback none
  | some entry =>
    if entry.inlineOnly then pure (some (combine b w hi entry.inlineValue))
    else
      match entry.child with
      | none => .fallback none
      | some child => do
        match ← f child with
        | none => .fallback none
        | some lo => pure (some (combine b w hi lo))

/-- What the key's own cluster answers, `p` being the test of an inline value. -/
def ownOf (p : BitVec c → Prop) [DecidablePred p] (f : C → Outcome (Option (BitVec c)))
    (t : SparseBranch b w c M C) (hi : BitVec c) : Outcome (Option (BitVec c)) :=
  match FlatMap.find t.clusters hi with
  | none => pure none
  | some entry =>
    if entry.inlineOnly then
      pure (if p entry.inlineValue then some entry.inlineValue else none)
    else
      match entry.child with
      | none => pure none
      | some child => f child

theorem endOf_image {f : C → Outcome (Option (BitVec c))} {f' : D → Outcome (Option (BitVec c))}
    (hf : ∀ x, f' (VebHom.image x) = f x) (t : SparseBranch b w c M C) (hi : BitVec c) :
    endOf f' (t.image (D := D)) hi = endOf f t hi := by
  unfold endOf
  rw [find_image]
  cases FlatMap.find t.clusters hi with
  | none => rfl
  | some e =>
    obtain ⟨inlineOnly, inlineValue, child⟩ := e
    cases child with
    | none => rfl
    | some x =>
      change (if inlineOnly = true then _ else f' (VebHom.image x) >>= _) = _
      rw [hf]
      rfl

theorem ownOf_image {p : BitVec c → Prop} [DecidablePred p] {f : C → Outcome (Option (BitVec c))}
    {f' : D → Outcome (Option (BitVec c))} (hf : ∀ x, f' (VebHom.image x) = f x)
    (t : SparseBranch b w c M C) (hi : BitVec c) :
    ownOf p f' (t.image (D := D)) hi = ownOf p f t hi := by
  unfold ownOf
  rw [find_image]
  cases FlatMap.find t.clusters hi with
  | none => rfl
  | some e =>
    obtain ⟨inlineOnly, inlineValue, child⟩ := e
    cases child with
    | none => rfl
    | some x =>
      change (if inlineOnly = true then _ else f' (VebHom.image x)) = _
      rw [hf]
      rfl

theorem min_image (t : SparseBranch b w c M C) : (t.image (D := D)).min = t.min := by
  change VebNode.min (VebHom.image t.summary) >>= _ = VebNode.min t.summary >>= _
  rw [VebHom.min_image]
  refine bind_congr fun r => ?_
  cases r with
  | none => rfl
  | some hi => exact endOf_image (D := D) VebHom.min_image t hi

theorem max_image (t : SparseBranch b w c M C) : (t.image (D := D)).max = t.max := by
  change VebNode.max (VebHom.image t.summary) >>= _ = VebNode.max t.summary >>= _
  rw [VebHom.max_image]
  refine bind_congr fun r => ?_
  cases r with
  | none => rfl
  | some hi => exact endOf_image (D := D) VebHom.max_image t hi

theorem successor_image (t : SparseBranch b w c M C) (key : BitVec w) :
    (t.image (D := D)).successor key = t.successor key := by
  have hown : (t.image (D := D)).clusterSuccessor (hiPart b key) (loPart b key) =
      t.clusterSuccessor (hiPart b key) (loPart b key) :=
    ownOf_image (D := D) (p := (loPart b key < ·)) (fun x => VebHom.successor_image x _) t _
  unfold successor
  dsimp only
  rw [hown, show (t.image (D := D)).summary = VebHom.image t.summary from rfl,
    VebHom.empty_image, VebHom.successor_image]
  refine ite_congr rfl (fun _ => rfl) fun _ => ite_congr rfl (fun _ => rfl) fun _ => ?_
  refine bind_congr fun r => ?_
  cases r with
  | some l => rfl
  | none =>
    refine bind_congr fun r => ?_
    cases r with
    | none => rfl
    | some hi => exact endOf_image (D := D) VebHom.min_image t hi

theorem predecessor_image (t : SparseBranch b w c M C) (key : BitVec w) :
    (t.image (D := D)).predecessor key = t.predecessor key := by
  have hown : (t.image (D := D)).clusterPredecessor (hiPart b key) (loPart b key) =
      t.clusterPredecessor (hiPart b key) (loPart b key) :=
    ownOf_image (D := D) (p := (· < loPart b key)) (fun x => VebHom.predecessor_image x _) t _
  unfold predecessor
  dsimp only
  rw [hown, show (t.image (D := D)).summary = VebHom.image t.summary from rfl,
    VebHom.empty_image, VebHom.predecessor_image]
  refine ite_congr rfl (fun _ => rfl) fun _ => ite_congr rfl (fun _ => rfl) fun _ => ?_
  refine bind_congr fun r => ?_
  cases r with
  | some l => rfl
  | none =>
    refine bind_congr fun r => ?_
    cases r with
    | none => rfl
    | some hi => exact endOf_image (D := D) VebHom.max_image t hi

theorem visit_image (t : SparseBranch b w c M C) (pfx : BitVec w) (i : BitVec c) :
    (t.image (D := D)).visit pfx i = t.visit pfx i := by
  unfold visit
  rw [find_image]
  cases FlatMap.find t.clusters i with
  | none => rfl
  | some e =>
    obtain ⟨inlineOnly, inlineValue, child⟩ := e
    cases child with
    | none => rfl
    | some x =>
      change (if inlineOnly = true then _ else VebNode.forEach (VebHom.image x) _) = _
      rw [VebHom.forEach_image]
      rfl

theorem forEach_image (t : SparseBranch b w c M C) (pfx : BitVec w) :
    (t.image (D := D)).forEach pfx = t.forEach pfx := by
  change VebNode.forEachAll (VebHom.image t.summary) >>= _ = VebNode.forEachAll t.summary >>= _
  rw [VebHom.forEachAll_image]
  exact bind_congr fun is => congrArg (emitAll · is) (funext fun i => visit_image t pfx i)

instance hom : VebHom (SparseBranch b w c M C) (SparseBranch b w c FunMap D) where
  image := image
  image_fresh := by
    change SparseBranch.mk (VebHom.image VebNode.fresh) (lookup entryImage FlatMap.empty) = _
    rw [VebHom.image_fresh, lookup_empty]
    rfl
  empty_image t := VebHom.empty_image t.summary
  insert_image := insert_image
  erase_image := erase_image
  contains_image := contains_image
  min_image := min_image
  max_image := max_image
  successor_image := successor_image
  predecessor_image := predecessor_image
  forEach_image := forEach_image
  forEachAll_image t := forEach_image t 0

end SparseBranch

/-- Anything that a caller may do, with limited memory too. -/
inductive Probe (w : ℕ)
  | request (r : Request w)
  | call (a : Call w)
  | forEach

/-- What the caller sees of it. -/
inductive Seen
  | answer (a : Answer)
  | ended (returned : Bool)
  | listed (l : List ℕ)

section Probes

variable {T T' : Type} {w : ℕ} [VebNode T w]

def probe (t : T) : Probe w → Outcome (T × Seen)
  | .request r => do
    let served ← serve t r
    pure (served.1, .answer served.2)
  | .call a => do
    let r ← attempt t a
    pure (r.1, .ended r.2)
  | .forEach => do
    let l ← VebNode.forEachAll t
    pure (t, .listed l)

/-- What is seen of calls that come one after the other. -/
def probes (t : T) : List (Probe w) → Outcome (List Seen)
  | [] => pure []
  | p :: ps => do
    let seen ← probe t p
    let rest ← probes seen.1 ps
    pure (seen.2 :: rest)

variable [VebNode T' w] [VebHom T T']

/-- What follows an insertion into the image sees the image of what it left. -/
theorem insert_image_bind {R : Type} (t : T) (k : BitVec w) (m : Mem) (f : Exit T' → Outcome R) :
    VebNode.insert (VebHom.image t : T') k m >>= f =
      VebNode.insert t k m >>= fun e => f (e.map VebHom.image) := by
  rw [VebHom.insert_image, Outcome.within, bind_assoc]
  exact bind_congr fun e => pure_bind _ _

theorem step_image (t : T) (o : Op w) :
    step (VebHom.image t : T') o = step t o >>= fun t' => pure (VebHom.image t') := by
  cases o with
  | insert k =>
    change VebNode.insert (VebHom.image t) k .unbounded >>= _ = (_ >>= _) >>= _
    rw [insert_image_bind, bind_assoc]
    refine bind_congr fun e => ?_
    cases e <;> rfl
  | erase k => exact VebHom.erase_image t k

theorem serve_image (t : T) (r : Request w) :
    serve (VebHom.image t : T') r = serve t r >>= fun p => pure (VebHom.image p.1, p.2) := by
  cases r with
  | update o =>
    change step (VebHom.image t : T') o >>= _ = (_ >>= _) >>= _
    rw [step_image, bind_assoc, bind_assoc]
    simp only [pure_bind]
  | contains k => simp [serve, VebHom.contains_image]
  | empty => simp [serve, VebHom.empty_image]
  | min => simp [serve, VebHom.min_image]
  | max => simp [serve, VebHom.max_image]
  | successor k => simp [serve, VebHom.successor_image]
  | predecessor k => simp [serve, VebHom.predecessor_image]

theorem attempt_image (t : T) (a : Call w) :
    attempt (VebHom.image t : T') a = attempt t a >>= fun r => pure (VebHom.image r.1, r.2) := by
  cases a with
  | insert k m =>
    change VebNode.insert (VebHom.image t) k m >>= _ = (_ >>= _) >>= _
    rw [insert_image_bind, bind_assoc]
    refine bind_congr fun e => ?_
    cases e <;> rfl
  | erase k =>
    change VebNode.erase (VebHom.image t) k >>= _ = (_ >>= _) >>= _
    rw [VebHom.erase_image, bind_assoc, bind_assoc]
    simp only [pure_bind]

theorem attempts_image (t : T) (as : List (Call w)) :
    attempts (VebHom.image t : T') as =
      attempts t as >>= fun rs => pure (VebHom.image rs.1, rs.2) := by
  induction as generalizing t with
  | nil => rfl
  | cons a as ih =>
    rw [attempts, attempts, attempt_image, bind_assoc, bind_assoc]
    refine bind_congr fun r => ?_
    rw [pure_bind, ih, bind_assoc, bind_assoc]
    simp only [pure_bind]

theorem probe_image (t : T) (p : Probe w) :
    probe (VebHom.image t : T') p = probe t p >>= fun q => pure (VebHom.image q.1, q.2) := by
  cases p with
  | request r => simp [probe, serve_image]
  | call a => simp [probe, attempt_image]
  | forEach => simp [probe, VebHom.forEachAll_image]

/-- A node and its image cannot be told apart. -/
theorem probes_image (t : T) (ps : List (Probe w)) :
    probes (VebHom.image t : T') ps = probes t ps := by
  induction ps generalizing t with
  | nil => rfl
  | cons p ps ih =>
    rw [probes, probes, probe_image, bind_assoc]
    refine bind_congr fun q => ?_
    rw [pure_bind, ih]

end Probes

section Levels

variable {M : ℕ → Type → Type} [FlatMap M]

instance : VebHom VebBranch12 VebBranch12 := .self _
instance : VebHom VebBranch16 VebBranch16 := .self _

instance : (T : Tree) → VebHom (T.State M) (T.State FunMap)
  | .veb24 => VebHom.self VebTop24
  | .veb32 => VebHom.self VebTop32
  | .veb48 => (inferInstance : VebHom (VebBranch48 M) (VebBranch48 FunMap))
  | .veb64 => (inferInstance : VebHom (VebBranch64 M) (VebBranch64 FunMap))

end Levels

/-- No caller can tell which map stores the clusters, whatever keys it passes, whatever runs out of
memory, and whatever faults. -/
theorem probes_any_map (M M' : ℕ → Type → Type) [FlatMap M] [FlatMap M'] (T : Tree)
    (ps : List (Probe T.width)) :
    probes (VebNode.fresh : T.State M) ps = probes (VebNode.fresh : T.State M') ps := by
  have hfun : ∀ (N : ℕ → Type → Type) [FlatMap N], probes (VebNode.fresh : T.State N) ps =
      probes (VebNode.fresh : T.State FunMap) ps := by
    intro N _
    have himage : (VebHom.image (VebNode.fresh : T.State N) : T.State FunMap) = VebNode.fresh :=
      VebHom.image_fresh
    rw [← himage, probes_image]
  exact (hfun M).trans (hfun M').symm

end ParvEB
