import AmplitudeTree.Proofs.NodeStore.Representative
import AmplitudeTree.Tree.Basic

/-!
# What a reduction preserves

A walk from the root of a reduced store meets the representatives of the nodes that it meets in the
original store.  So it ends after the same bits, and every scale on it is as close to the original
one as the threshold says.  A reduction does not add nodes, and a second one changes nothing.
-/

namespace AmplitudeTree

namespace Tree

variable {R : Type} [Scalar R] {s : NodeStore R} {id low high : NodeId}

theorem follow_of_leaf (leaf : (s.get id).branches = none) (index : BasisIndex) (levels qubit : ℕ)
    (a : Amplitude R) : follow s index (levels + 1) qubit id a = 0 := by
  rw [follow, NodeStore.branch?, leaf]
  rfl

theorem follow_of_branches (branches : (s.get id).branches = some (low, high)) (index : BasisIndex)
    (levels qubit : ℕ) (a : Amplitude R) :
    follow s index (levels + 1) qubit id a =
      if s.isZero (if index.bit qubit then high else low) then 0
      else follow s index levels (qubit + 1) (if index.bit qubit then high else low)
        (a * (s.get (if index.bit qubit then high else low)).scale) := by
  rw [follow, NodeStore.branch?, branches]
  rfl

theorem amplitude_ofStore (s : NodeStore R) (root : NodeId) (width : ℕ) (index : BasisIndex) :
    (ofStore s root width).amplitude index =
      if s.isZero root then 0 else follow s index width 0 root (s.get root).scale := rfl

end Tree

namespace NodeStore

/-! ## Walks along bits -/

section Walks

variable {R : Type} [Scalar R]

/-- The node that a walk from `id` meets after some bits, or the last one on the way. -/
def nodeAt (s : NodeStore R) (id : NodeId) : List Bool → Option NodeId
  | [] => some id
  | bit :: bits =>
      if s.isZero id then none else (s.branch? id bit).bind fun child => s.nodeAt child bits

end Walks

variable {s t : NodeStore ℝ} {id value low high root : NodeId} {r : Reduction ℝ}

theorem nodeAt_of_isZero (empty : s.isZero id = true) (bit : Bool) (bits : List Bool) :
    s.nodeAt id (bit :: bits) = none := by
  rw [nodeAt, if_pos empty]

theorem nodeAt_of_leaf (leaf : (s.get id).branches = none) (bit : Bool) (bits : List Bool) :
    s.nodeAt id (bit :: bits) = none := by
  rw [nodeAt, branch?, leaf]
  split <;> rfl

theorem nodeAt_of_branches (nonzero : s.isZero id = false)
    (branches : (s.get id).branches = some (low, high)) (bit : Bool) (bits : List Bool) :
    s.nodeAt id (bit :: bits) = s.nodeAt (if bit then high else low) bits := by
  rw [nodeAt, if_neg (by simp [nonzero]), branch?, branches]
  rfl

/-- A representative has amplitude if and only if its node has, with a scale as close as the
threshold says. -/
def Tracks (s t : NodeStore ℝ) (id value : NodeId) : Prop :=
  t.isZero value = s.isZero id ∧ ((t.scale value - s.scale id).normSq : ℝ) ≤ s.threshold

theorem Mirrors.tracks (mirrors : s.Mirrors r.store id value) (indexed : r.Indexed)
    (nonneg : 0 ≤ s.threshold) (forked : s.Forked id) : s.Tracks r.store id value := by
  have close (close : s.Close r.store id value) : s.Tracks r.store id value := by
    have nonzero := indexed.isZero_eq_false close.positive close.stored
    refine ⟨nonzero.trans close.nonzero.symm, ?_⟩
    rw [scale_eq_of_not_isZero nonzero, scale_eq_of_not_isZero close.nonzero]
    exact close.near
  cases mirrors with
  | zero empty =>
      refine ⟨empty.symm, ?_⟩
      rw [scale_of_isZero rfl, scale_of_isZero empty, Amplitude.normSq_eq, Amplitude.toComplex_sub,
        sub_self, Complex.normSq_zero]
      exact nonneg
  | leaf near => exact close near
  | fork near => exact close near
  | dropped nonzero branches first second =>
      have empty := (Mirrors.dropped nonzero branches first second).isZero_of_dropped forked rfl
      rw [empty] at nonzero
      cases nonzero

/-- The walk that starts on a representative meets representatives. -/
theorem Mirrors.nodeAt_tracks (mirrors : s.Mirrors r.store id value) (indexed : r.Indexed)
    (nonneg : 0 ≤ s.threshold) (forked : s.Forked id) (bits : List Bool) :
    Option.Rel (s.Tracks r.store) (s.nodeAt id bits) (r.store.nodeAt value bits) := by
  induction bits generalizing id value with
  | nil => exact .some (mirrors.tracks indexed nonneg forked)
  | cons bit bits ih =>
      cases mirrors with
      | zero empty =>
          rw [nodeAt_of_isZero empty, nodeAt_of_isZero rfl]
          exact .none
      | leaf close leaf found =>
          rw [nodeAt_of_leaf leaf, nodeAt_of_leaf found]
          exact .none
      | fork close branches found first second =>
          rw [nodeAt_of_branches close.nonzero branches,
            nodeAt_of_branches (indexed.isZero_eq_false close.positive close.stored) found]
          cases bit with
          | true => exact ih second (forked.of_high close.nonzero branches)
          | false => exact ih first (forked.of_low close.nonzero branches)
      | dropped nonzero branches first second =>
          have empty := (Mirrors.dropped nonzero branches first second).isZero_of_dropped forked rfl
          rw [empty] at nonzero
          cases nonzero

/-! ## Amplitudes -/

/-- With the threshold zero a representative has the very scale of the node it stands for. -/
theorem Tracks.scale_eq (tracks : s.Tracks t id value) (exact : s.threshold = 0) :
    t.scale value = s.scale id := by
  have close := tracks.2
  rw [exact, Amplitude.normSq_eq, Amplitude.toComplex_sub] at close
  have same := Complex.normSq_eq_zero.mp (le_antisymm close (Complex.normSq_nonneg _))
  rwa [sub_eq_zero, Amplitude.toComplex_inj] at same

theorem Tracks.get_scale_eq (tracks : s.Tracks t id value) (exact : s.threshold = 0)
    (nonzero : s.isZero id = false) : (t.get value).scale = (s.get id).scale := by
  rw [← scale_eq_of_not_isZero nonzero, ← tracks.scale_eq exact,
    scale_eq_of_not_isZero (tracks.1.trans nonzero)]

/-- With the threshold zero the paths below a representative have the same amplitudes. -/
theorem Mirrors.follow_eq (mirrors : s.Mirrors r.store id value) (indexed : r.Indexed)
    (exact : s.threshold = 0) (forked : s.Forked id) (nonzero : s.isZero id = false)
    (index : BasisIndex) (levels qubit : ℕ) (a : Amplitude ℝ) :
    Tree.follow r.store index levels qubit value a = Tree.follow s index levels qubit id a := by
  induction levels generalizing id value qubit a with
  | zero => rfl
  | succ levels ih =>
      cases mirrors with
      | zero empty =>
          rw [empty] at nonzero
          cases nonzero
      | leaf _ leaf found => rw [Tree.follow_of_leaf leaf, Tree.follow_of_leaf found]
      | @fork _ low high _ newLow newHigh _ branches found first second =>
          rw [Tree.follow_of_branches branches, Tree.follow_of_branches found]
          have child : s.Mirrors r.store (if index.bit qubit then high else low)
              (if index.bit qubit then newHigh else newLow) ∧
              s.Forked (if index.bit qubit then high else low) := by
            split
            · exact ⟨second, forked.of_high nonzero branches⟩
            · exact ⟨first, forked.of_low nonzero branches⟩
          generalize (if index.bit qubit then high else low) = child at child ⊢
          generalize (if index.bit qubit then newHigh else newLow) = newChild at child ⊢
          obtain ⟨mirrors, forked⟩ := child
          have tracks := mirrors.tracks indexed exact.ge forked
          rw [tracks.1]
          cases empty : s.isZero child with
          | true => rfl
          | false =>
              rw [tracks.get_scale_eq exact empty]
              exact ih mirrors forked empty _ _
      | dropped _ branches first second =>
          have empty := (Mirrors.dropped nonzero branches first second).isZero_of_dropped forked rfl
          rw [empty] at nonzero
          cases nonzero

theorem Mirrors.amplitude_eq (mirrors : s.Mirrors r.store root value) (indexed : r.Indexed)
    (exact : s.threshold = 0) (forked : s.Forked root) (width : ℕ) (index : BasisIndex) :
    (Tree.ofStore r.store value width).amplitude index =
      (Tree.ofStore s root width).amplitude index := by
  have tracks := mirrors.tracks indexed exact.ge forked
  rw [Tree.amplitude_ofStore, Tree.amplitude_ofStore, tracks.1]
  by_cases empty : s.isZero root = true
  · rw [if_pos empty, if_pos empty]
  · have nonzero : s.isZero root = false := Bool.not_eq_true _ ▸ empty
    rw [if_neg empty, if_neg empty, tracks.get_scale_eq exact nonzero]
    exact mirrors.follow_eq indexed exact forked nonzero index width 0 _

/-! ## The number of nodes and a second reduction -/

theorem Extends.eq_of_size_eq (growth : s.Extends t) (sizes : t.size = s.size) : t = s := by
  obtain ⟨nodes, threshold⟩ := s
  obtain ⟨nodes', threshold'⟩ := t
  have thresholds : threshold' = threshold := growth.threshold_eq
  have same : nodes' = nodes := by
    refine Array.ext sizes fun i stored' stored => ?_
    simpa [get, stored, stored'] using growth.get_eq i stored
  rw [thresholds, same]

/-- A reduced store is reduced to itself. -/
theorem Reduces.reduce_eq {threshold : ℝ} (reduces : s.Reduces root ⟨.empty threshold, ∅⟩ (value, r)) :
    r.store.reduce value = (r.store, value) := by
  have indexed := reduces.indexed
  have thresholds : r.store.threshold = threshold := reduces.growth.threshold_eq
  have started : r.store.Retraces 1 (.start ⟨.empty r.store.threshold, ∅⟩) := by
    refine ⟨.empty indexed.nonneg, ?_, rfl, fun id positive => ?_⟩
    · rw [thresholds]
      exact reduces.growth
    · rw [if_neg (Nat.not_lt.mpr positive), Progress.start]
      simp
  obtain ⟨same, retraces⟩ := reduces.order.retrace indexed Nat.one_pos (le_refl _) 0 started
  have stores := retraces.growth.eq_of_size_eq retraces.size_eq.symm
  exact Prod.ext stores.symm same

theorem growsByOne_reduceVisit (s : NodeStore ℝ) :
    GrowsByOne (fun r : Reduction ℝ => r.store.size) s.reduceVisit where
  answer {depth id result} visited r := by
    obtain ⟨_, rfl⟩ := s.reduceVisit_folds.eq_answer visited
    exact r.size_merge_le _
  descend {depth id given given' combine} visited low high r := by
    obtain ⟨_, _, _, _, _, rfl⟩ := s.reduceVisit_folds.eq_descend visited
    dsimp only
    split
    · exact Nat.le_succ _
    · exact r.size_merge_le _

/-- No more nodes are reached in a reduced store. -/
theorem Ordered.countReachable_reduce_le (ordered : s.Ordered) (nonneg : 0 ≤ s.threshold)
    (root : NodeId) : (s.reduce root).1.countReachable (s.reduce root).2 ≤ s.countReachable root := by
  obtain ⟨r, stores, reduces⟩ := ordered.reduce_reduces nonneg root
  have grown : (s.reduce root).1.size ≤ 1 + s.countReachable root := by
    rw [ordered.countReachable_eq]
    exact ordered.measure_walkFrom_le s.growsByOne_reduceVisit 0 0 root ⟨.empty s.threshold, ∅⟩
  have counted := reduces.indexed.ordered.countReachable_lt_size reduces.indexed.negligible_zero
    (s.reduce root).2
  rw [stores] at counted
  omega

theorem Ordered.reduce_reduce (ordered : s.Ordered) (nonneg : 0 ≤ s.threshold) (root : NodeId) :
    (s.reduce root).1.reduce (s.reduce root).2 = s.reduce root := by
  obtain ⟨r, stores, reduces⟩ := ordered.reduce_reduces nonneg root
  have again := reduces.reduce_eq
  rwa [stores] at again

/-- Along every sequence of bits the old and the new walk meet a node without amplitude at the same
step or not at all, and the squared difference of the scales is at most the threshold.  With threshold
zero all amplitudes stay.  No more nodes are reached, and a second reduction changes nothing. -/
theorem reduce_keeps_walks (s : NodeStore ℝ) (root : NodeId) (ordered : s.Ordered)
    (nonneg : 0 ≤ s.threshold) (forked : s.Forked root) :
    let reduced := s.reduce root
    (∀ bits, Option.Rel (s.Tracks reduced.1) (s.nodeAt root bits) (reduced.1.nodeAt reduced.2 bits)) ∧
      (s.threshold = 0 → ∀ width index,
        (Tree.ofStore reduced.1 reduced.2 width).amplitude index =
          (Tree.ofStore s root width).amplitude index) ∧
      reduced.1.countReachable reduced.2 ≤ s.countReachable root ∧
      reduced.1.reduce reduced.2 = reduced := by
  obtain ⟨r, stores, reduces⟩ := ordered.reduce_reduces nonneg root
  refine ⟨fun bits => ?_, fun exact width index => ?_,
    ordered.countReachable_reduce_le nonneg root, ordered.reduce_reduce nonneg root⟩
  · rw [← stores]
    exact reduces.mirrors.nodeAt_tracks reduces.indexed nonneg forked bits
  · rw [← stores]
    exact reduces.mirrors.amplitude_eq reduces.indexed exact forked width index

noncomputable def leafPair (threshold : ℝ) (top a b : Amplitude ℝ) : NodeStore ℝ :=
  ⟨#[.leaf 0, .leaf a, .leaf b, ⟨top, some (1, 2)⟩], threshold⟩

variable {threshold : ℝ} {top a b : Amplitude ℝ}

theorem branches_leafPair
    (branches : ((leafPair threshold top a b).get id).branches = some (low, high)) :
    id = 3 ∧ low = 1 ∧ high = 2 := by
  match id, branches with
  | 3, branches =>
      cases branches
      exact ⟨rfl, rfl, rfl⟩
  | id + 4, branches =>
      rw [get_of_size_le (s := leafPair threshold top a b) (Nat.le_add_left 4 id)] at branches
      cases branches

theorem ordered_leafPair : (leafPair threshold top a b).Ordered := by
  refine ⟨Nat.succ_pos 3, fun branches => ?_⟩
  obtain ⟨rfl, rfl, rfl⟩ := branches_leafPair branches
  exact ⟨by decide, by decide⟩

theorem forked_leafPair (scaled : a.negligible threshold = false) :
    (leafPair threshold top a b).Forked 3 := fun {id low high} _ branches => by
  obtain ⟨rfl, rfl, rfl⟩ := branches_leafPair branches
  exact .inl (Bool.or_eq_false_iff.mpr ⟨rfl, scaled⟩)

/-- Two leaves that differ by one tenth are merged or kept, as the threshold says. -/
theorem reduce_leafPair :
    let close := leafPair (1 / 4) 1 1 (.ofReal (11 / 10))
    let apart := leafPair 0 1 1 (.ofReal (11 / 10))
    ((∀ bits, Option.Rel (close.Tracks (close.reduce 3).1) (close.nodeAt 3 bits)
      ((close.reduce 3).1.nodeAt (close.reduce 3).2 bits)) ∧
      (close.reduce 3).1.countReachable (close.reduce 3).2 ≤ close.countReachable 3 ∧
      (close.reduce 3).1.reduce (close.reduce 3).2 = close.reduce 3) ∧
      ∀ index, (Tree.ofStore (apart.reduce 3).1 (apart.reduce 3).2 1).amplitude index =
        (Tree.ofStore apart 3 1).amplitude index := by
  intro close apart
  have scaled {threshold : ℝ} (small : threshold < 1) :
      (1 : Amplitude ℝ).negligible threshold = false := by
    rwa [Amplitude.negligible_eq_false, Amplitude.toComplex_one, Complex.normSq_one]
  obtain ⟨walks, -, counts, again⟩ := reduce_keeps_walks close 3 ordered_leafPair
    (by norm_num [close, leafPair]) (forked_leafPair (scaled (by norm_num)))
  obtain ⟨-, amplitudes, -⟩ := reduce_keeps_walks apart 3 ordered_leafPair (le_refl 0)
    (forked_leafPair (scaled one_pos))
  exact ⟨⟨walks, counts, again⟩, amplitudes rfl 1⟩

end NodeStore

/-- A reduction that was due at any moment changes nothing about the next one. -/
theorem Tree.reduce_reduceIfBloated {t : Tree ℝ} (ordered : t.store.Ordered) (nonneg : 0 ≤ t.threshold) :
    t.reduceIfBloated.reduce = t.reduce := by
  unfold reduceIfBloated
  split
  · rw [reduce, show t.reduce.store.reduce t.reduce.root = t.store.reduce t.root from
      ordered.reduce_reduce nonneg t.root]
    rfl
  · rfl

end AmplitudeTree
