import AmplitudeTree.Proofs.NodeStore.Merging
import AmplitudeTree.Proofs.NodeStore.Reachable

/-!
# Representatives

A reduction stores a representative for every node it visits: a node of the same shape whose scales
are close to those it stands for.  The nodes are stored in the order in which the reduction leaves
them, so a second reduction meets them in the order in which they are stored.
-/

namespace AmplitudeTree.NodeStore

variable {s t t' : NodeStore ℝ} {id value low high : NodeId} {before between after depth : ℕ}

/-! ## Shapes -/

/-- A stored node that stands for a node that is not zero has almost the same scale. -/
structure Close (s t : NodeStore ℝ) (id value : NodeId) : Prop where
  nonzero : s.isZero id = false
  positive : 0 < value
  stored : value < t.size
  near : (((t.get value).scale - (s.get id).scale).normSq : ℝ) ≤ s.threshold

/-- The node `value` of `t` stands for the node `id` of `s`; one over two dropped
branches is dropped. -/
inductive Mirrors (s t : NodeStore ℝ) : NodeId → NodeId → Prop where
  | zero {id : NodeId} (empty : s.isZero id = true) : Mirrors s t id 0
  | leaf {id value : NodeId} (close : s.Close t id value) (leaf : (s.get id).branches = none)
      (found : (t.get value).branches = none) : Mirrors s t id value
  | fork {id low high value newLow newHigh : NodeId} (close : s.Close t id value)
      (branches : (s.get id).branches = some (low, high))
      (found : (t.get value).branches = some (newLow, newHigh))
      (first : Mirrors s t low newLow) (second : Mirrors s t high newHigh) : Mirrors s t id value
  | dropped {id low high : NodeId} (nonzero : s.isZero id = false)
      (branches : (s.get id).branches = some (low, high))
      (first : Mirrors s t low 0) (second : Mirrors s t high 0) : Mirrors s t id 0

theorem Close.grow (close : s.Close t id value) (growth : t.Extends t') : s.Close t' id value where
  nonzero := close.nonzero
  positive := close.positive
  stored := close.stored.trans_le growth.size_le
  near := by
    rw [growth.get_eq value close.stored]
    exact close.near

theorem Mirrors.grow (mirrors : s.Mirrors t id value) (growth : t.Extends t') :
    s.Mirrors t' id value := by
  induction mirrors with
  | zero empty => exact .zero empty
  | @leaf _ value close leaf found =>
      rw [← growth.get_eq value close.stored] at found
      exact .leaf (close.grow growth) leaf found
  | @fork _ _ _ value _ _ close branches found _ _ first second =>
      rw [← growth.get_eq value close.stored] at found
      exact .fork (close.grow growth) branches found first second
  | dropped nonzero branches _ _ first second => exact .dropped nonzero branches first second

theorem Mirrors.close (mirrors : s.Mirrors t id value) (kept : value ≠ 0) : s.Close t id value := by
  cases mirrors with
  | zero => exact absurd rfl kept
  | leaf close => exact close
  | fork close => exact close
  | dropped => exact absurd rfl kept

theorem Mirrors.eq_zero_of_isZero (mirrors : s.Mirrors t id value) (empty : s.isZero id = true) :
    value = 0 := by
  by_contra kept
  rw [(mirrors.close kept).nonzero] at empty
  cases empty

/-- Every node with branches that is reached has one that is not zero. -/
def Forked (s : NodeStore ℝ) (root : NodeId) : Prop :=
  ∀ {id low high}, s.Reaches root id → (s.get id).branches = some (low, high) →
    s.isZero low = false ∨ s.isZero high = false

theorem Forked.of_low (forked : s.Forked id) (nonzero : s.isZero id = false)
    (branches : (s.get id).branches = some (low, high)) : s.Forked low :=
  fun reached => forked (.of_low nonzero branches reached)

theorem Forked.of_high (forked : s.Forked id) (nonzero : s.isZero id = false)
    (branches : (s.get id).branches = some (low, high)) : s.Forked high :=
  fun reached => forked (.of_high nonzero branches reached)

/-- No node that is not zero is dropped if none over two zero branches is reached. -/
theorem Mirrors.isZero_of_dropped (mirrors : s.Mirrors t id value) (forked : s.Forked id)
    (dropped : value = 0) : s.isZero id = true := by
  induction mirrors with
  | zero empty => exact empty
  | leaf close => exact absurd dropped close.positive.ne'
  | fork close => exact absurd dropped close.positive.ne'
  | dropped nonzero branches _ _ first second =>
      rcases forked (.root nonzero) branches with some | some
      · rw [first (forked.of_low nonzero branches) rfl] at some
        cases some
      · rw [second (forked.of_high nonzero branches) rfl] at some
        cases some

/-! ## The order of storage -/

section Order

variable {id low high : ℕ}

/-- A walk leaves each node after its branches: with `before` nodes left it comes to `id`, with
`after` it leaves `id`. -/
inductive Postorder (t : NodeStore ℝ) : ℕ → ℕ → ℕ → Prop where
  | known {id stored : ℕ} (less : id < stored) : Postorder t id stored stored
  | leaf {id : ℕ} (leaf : (t.get id).branches = none) : Postorder t id id (id + 1)
  | fork {id low high before between : ℕ} (found : (t.get id).branches = some (low, high))
      (first : Postorder t low before between) (second : Postorder t high between id) :
      Postorder t id before (id + 1)

namespace Postorder

/-- A node was left before, or it is the last that is left. -/
theorem known_or_last (order : t.Postorder id before after) :
    before = after ∧ id < before ∨ before ≤ id ∧ after = id + 1 := by
  induction order with
  | known less => exact .inl ⟨rfl, less⟩
  | leaf => exact .inr ⟨le_refl _, rfl⟩
  | fork _ _ _ first second => omega

theorem lt_after (order : t.Postorder id before after) : id < after := by
  have := order.known_or_last
  omega

theorem le (order : t.Postorder id before after) : before ≤ after := by
  have := order.known_or_last
  omega

theorem grow (order : t.Postorder id before after) (growth : t.Extends t') (le : after ≤ t.size) :
    t'.Postorder id before after := by
  induction order with
  | known less => exact .known less
  | @leaf id leaf =>
      rw [← growth.get_eq id le] at leaf
      exact .leaf leaf
  | @fork id low high before between found first second firstIh secondIh =>
      rw [← growth.get_eq id le] at found
      have := second.le
      exact .fork found (firstIh (by omega)) (secondIh (by omega))

/-- No new node is left below two branches if a node that has them is among those left. -/
theorem eq_of_parent (first : t.Postorder low before between)
    (second : t.Postorder high between after) (lowLt : low < id) (highLt : high < id)
    (stored : id < after) : before = after := by
  have := first.known_or_last
  have := second.known_or_last
  omega

end Postorder

end Order

/-! ## What a reduction ensures -/

section Reduces

variable {r r' r'' : Reduction ℝ} {result : NodeId × Reduction ℝ} {newLow newHigh : NodeId}
  {branches : Option (NodeId × NodeId)}

structure Settles (s : NodeStore ℝ) (id : NodeId) (branches : Option (NodeId × NodeId))
    (r : Reduction ℝ) (result : NodeId × Reduction ℝ) : Prop where
  growth : r.store.Extends result.2.store
  indexed : result.2.Indexed
  close : s.Close result.2.store id result.1
  found : (result.2.store.get result.1).branches = branches
  place : result.1 < r.store.size ∧ result.2 = r ∨
    result.1 = r.store.size ∧ result.2.store.size = r.store.size + 1 ∧
      (result.2.store.get result.1).scale = (s.get id).scale

theorem Reduction.Indexed.settles (indexed : r.Indexed) (thresholds : r.store.threshold = s.threshold)
    (nonzero : s.isZero id = false) (forked : branches ≠ some (0, 0))
    (below : ∀ low high, branches = some (low, high) → low < r.store.size ∧ high < r.store.size) :
    s.Settles id branches r (r.merge ⟨(s.get id).scale, branches⟩) := by
  have close {value : NodeId} {t : NodeStore ℝ} (positive : 0 < value) (stored : value < t.size)
      (near : r.store.negligible ((t.get value).scale - (s.get id).scale) = true) :
      s.Close t id value :=
    ⟨nonzero, positive, stored, thresholds ▸ (Scalar.le_iff _ _).mp near⟩
  have placed := indexed.merge_placed ⟨(s.get id).scale, branches⟩
  generalize r.merge ⟨(s.get id).scale, branches⟩ = result at placed
  cases placed with
  | found positive stored cells near =>
      exact ⟨.refl _, indexed, close positive stored near, congrArg Cell.branches cells,
        .inl ⟨stored, rfl⟩⟩
  | appended novel =>
      have substantial : r.store.negligible (s.get id).scale = false := by
        rw [← not_negligible_of_not_isZero nonzero, negligible, negligible, thresholds]
      have same : (s.get id).scale - (s.get id).scale = 0 := by
        rw [← Amplitude.toComplex_inj, Amplitude.toComplex_sub, sub_self, Amplitude.toComplex_zero]
      refine ⟨r.extends_append _, indexed.append substantial forked below novel,
        close indexed.ordered.nonempty (by simp) ?_, by simp, .inr ⟨rfl, by simp, by simp⟩⟩
      rw [Reduction.get_append, same]
      exact indexed.negligible_zero

/-- What a reduction ensures of a node it visits; a new representative has the
very scale of the node. -/
structure Reduces (s : NodeStore ℝ) (id : NodeId) (r : Reduction ℝ)
    (result : NodeId × Reduction ℝ) : Prop where
  growth : r.store.Extends result.2.store
  indexed : result.2.Indexed
  mirrors : s.Mirrors result.2.store id result.1
  order : result.2.store.Postorder result.1 r.store.size result.2.store.size
  fresh : r.store.size ≤ result.1 → (result.2.store.get result.1).scale = (s.get id).scale

namespace Reduces

theorem of_known (indexed : r.Indexed) (mirrors : s.Mirrors r.store id value)
    (stored : value < r.store.size) : s.Reduces id r (value, r) :=
  ⟨.refl _, indexed, mirrors, .known stored, fun outside => absurd stored (not_lt.mpr outside)⟩

theorem leaf (indexed : r.Indexed) (thresholds : r.store.threshold = s.threshold)
    (nonzero : s.isZero id = false) (leaf : (s.get id).branches = none) :
    s.Reduces id r (r.merge (s.get id)) := by
  have settles : s.Settles id none r (r.merge (s.get id)) := by
    rw [get_eq_leaf leaf]
    exact indexed.settles thresholds nonzero nofun nofun
  have mirrors : s.Mirrors _ id _ := .leaf settles.close leaf settles.found
  rcases settles.place with ⟨stored, same⟩ | ⟨new, size, scale⟩
  · rw [same] at mirrors
    rw [← Prod.mk.eta (p := r.merge (s.get id)), same]
    exact of_known indexed mirrors stored
  · refine ⟨settles.growth, settles.indexed, mirrors, ?_, fun _ => scale⟩
    rw [size, ← new]
    exact .leaf settles.found

theorem fork (indexed : r.Indexed) (first : s.Reduces low r (newLow, r'))
    (second : s.Reduces high r' (newHigh, r'')) (thresholds : r''.store.threshold = s.threshold)
    (nonzero : s.isZero id = false) (branches : (s.get id).branches = some (low, high)) :
    let result := if newLow == 0 && newHigh == 0 then (0, r'')
      else r''.merge ⟨(s.get id).scale, some (newLow, newHigh)⟩
    r''.store.Extends result.2.store ∧ s.Reduces id r result := by
  dsimp only
  have growth := first.growth.trans second.growth
  have firstOrder := first.order.grow second.growth (le_refl _)
  have lowMirrors := first.mirrors.grow second.growth
  split
  · next dropped =>
      rw [Bool.and_eq_true, beq_iff_eq, beq_iff_eq] at dropped
      obtain ⟨rfl, rfl⟩ := dropped
      refine ⟨.refl _, growth, second.indexed, .dropped nonzero branches lowMirrors second.mirrors, ?_,
        fun outside => absurd indexed.ordered.nonempty (not_lt.mpr outside)⟩
      have positive := indexed.ordered.nonempty
      have same : r.store.size = r''.store.size := by
        have firstLast := firstOrder.known_or_last
        have secondLast := second.order.known_or_last
        dsimp only at firstLast secondLast
        omega
      rw [same]
      exact .known second.order.lt_after
  · next kept =>
      have settles : s.Settles id (some (newLow, newHigh)) r''
          (r''.merge ⟨(s.get id).scale, some (newLow, newHigh)⟩) := by
        refine second.indexed.settles thresholds nonzero (by simpa using kept) ?_
        rintro _ _ ⟨⟩
        exact ⟨firstOrder.lt_after.trans_le second.order.le, second.order.lt_after⟩
      have mirrors : s.Mirrors _ id _ := .fork settles.close branches settles.found
        (lowMirrors.grow settles.growth) (second.mirrors.grow settles.growth)
      rcases settles.place with ⟨stored, same⟩ | ⟨new, size, scale⟩
      · -- the branches of a stored node were known, so nothing has been stored since
        obtain ⟨lowLt, highLt⟩ := settles.indexed.ordered.branches_lt settles.found
        have unchanged := firstOrder.eq_of_parent second.order lowLt highLt stored
        refine ⟨settles.growth, growth.trans settles.growth, settles.indexed, mirrors, ?_,
          fun outside => ?_⟩
        · rw [same, unchanged]
          exact .known stored
        · rw [unchanged] at outside
          exact absurd stored (not_lt.mpr outside)
      · refine ⟨settles.growth, growth.trans settles.growth, settles.indexed, mirrors, ?_,
          fun _ => scale⟩
        rw [size, ← new]
        refine .fork settles.found (firstOrder.grow settles.growth second.order.le) ?_
        rw [new]
        exact second.order.grow settles.growth (le_refl _)

end Reduces

/-- A reduction stores a representative of every node that it visits. -/
theorem Ordered.reduces_contract (ordered : s.Ordered) :
    s.Contract 0 s.reduceVisit (fun _ _ => True)
      (fun r => r.Indexed ∧ r.store.threshold = s.threshold)
      (fun r r' => r.store.Extends r'.store)
      (fun _ id r value r' => s.Reduces id r (value, r'))
      (fun id value r => value < r.store.size ∧ s.Mirrors r.store id value) where
  zero _ empty valid := .of_known valid.1 (.zero empty) valid.1.ordered.nonempty
  answer {depth id r result} _ nonzero visited valid := by
    obtain ⟨leaf, rfl⟩ := s.reduceVisit_folds.eq_answer visited
    have reduces := Reduces.leaf valid.1 valid.2 nonzero leaf
    exact ⟨reduces.growth, reduces⟩
  descend {depth id given given' combine} _ nonzero visited := by
    obtain ⟨low, high, branches, rfl, rfl, rfl⟩ := s.reduceVisit_folds.eq_descend visited
    refine ⟨_, ordered.children_eq branches, fun _ => trivial, fun _ => trivial, ?_⟩
    intro before newLow between newHigh after valid _ valid'' first second
    exact Reduces.fork valid.1 first second valid''.2 nonzero branches
  valid_after valid reduces :=
    ⟨reduces.indexed, reduces.growth.threshold_eq.trans valid.2⟩
  record _ _ reduces := ⟨reduces.order.lt_after, reduces.mirrors⟩
  keep _ growth known := ⟨known.1.trans_le growth.size_le, known.2.grow growth⟩
  reuse _ _ valid known := .of_known valid.1 known.2 known.1

end Reduces

/-- Reducing a store is storing representatives of the nodes below the root. -/
theorem Ordered.reduce_reduces (ordered : s.Ordered) (nonneg : 0 ≤ s.threshold) (root : NodeId) :
    ∃ r : Reduction ℝ, r.store = (s.reduce root).1 ∧
      s.Reduces root ⟨.empty s.threshold, ∅⟩ ((s.reduce root).2, r) :=
  ⟨_, rfl, ordered.reduces_contract.walkFrom trivial _ ⟨.empty nonneg, rfl⟩⟩

/-! ## Reducing once more -/

/-- A second reduction that has left the first `stored` nodes of a reduced store. -/
structure Retraces (t : NodeStore ℝ) (stored : ℕ) (progress : Progress (Reduction ℝ) NodeId) :
    Prop where
  indexed : progress.state.Indexed
  growth : progress.state.store.Extends t
  size_eq : progress.state.store.size = stored
  finished : ∀ id, 0 < id → progress.finished[id]? = if id < stored then some id else none

namespace Retraces

variable {progress : Progress (Reduction ℝ) NodeId} {r : Reduction ℝ} {stored : ℕ}

theorem merge (retraces : r.store.Retraces stored progress) (indexed : r.Indexed)
    (less : stored < r.store.size) {node : Node ℝ} (found : r.store.get stored = node) :
    (progress.state.merge node).1 = stored ∧
      r.store.Retraces (stored + 1) ⟨(progress.state.merge node).2,
        progress.finished.insert stored (progress.state.merge node).1⟩ := by
  obtain ⟨state, finished⟩ := progress
  have growth := retraces.growth
  obtain rfl : state.store.size = stored := retraces.size_eq
  have placed := retraces.indexed.merge_placed node
  generalize state.merge node = result at placed
  have cells (node : Node ℝ) : state.cell node = r.cell node := by
    rw [Reduction.cell, Reduction.cell, growth.threshold_eq]
  cases placed with
  | @found other otherPositive otherStored same near =>
      -- the stored node would agree with the one it is compared with in the reduced store
      rw [cells, cells, ← growth.get_eq other otherStored, ← found] at same
      have apart := indexed.apart otherPositive otherStored less same
      rw [negligible, ← growth.threshold_eq, ← growth.get_eq other otherStored, ← found] at near
      rw [negligible, near] at apart
      cases apart
  | appended novel =>
      refine ⟨rfl, ?_, ⟨growth.threshold_eq, ?_, fun other otherStored => ?_⟩, by simp,
        fun other positive => ?_⟩
      · refine retraces.indexed.append ?_ (found ▸ indexed.forked) ?_ novel
        · rw [← found, negligible, ← growth.threshold_eq]
          exact indexed.substantial retraces.indexed.ordered.nonempty less
        · intro low high branches
          rw [← found] at branches
          exact indexed.ordered.branches_lt branches
      · rw [Reduction.size_append]
        exact less
      · rw [Reduction.size_append, Nat.lt_succ_iff_lt_or_eq] at otherStored
        rcases otherStored with otherStored | rfl
        · rw [growth.get_eq other otherStored,
            (state.extends_append node).get_eq other otherStored]
        · rw [found, Reduction.get_append]
      · rw [Std.HashMap.getElem?_insert, retraces.finished other positive]
        rcases lt_trichotomy other state.store.size with known | rfl | outside
        · rw [if_neg (by rw [beq_iff_eq]; exact known.ne'), if_pos known,
            if_pos (Nat.lt_succ_of_lt known)]
        · rw [if_pos (beq_self_eq_true _), if_pos (Nat.lt_succ_self _)]
        · rw [if_neg (by rw [beq_iff_eq]; exact outside.ne), if_neg outside.not_gt,
            if_neg (not_lt.mpr outside)]

end Retraces

/-- A second reduction leaves the nodes of a reduced store in their order and returns
each at its position. -/
theorem Postorder.retrace {r : Reduction ℝ} {id : ℕ} (order : r.store.Postorder id before after)
    (indexed : r.Indexed) (positive : 0 < before) (le : after ≤ r.store.size) (depth : ℕ)
    {progress : Progress (Reduction ℝ) NodeId} (retraces : r.store.Retraces before progress) :
    (r.store.walk 0 r.store.reduceVisit depth id progress).1 = id ∧
      r.store.Retraces after (r.store.walk 0 r.store.reduceVisit depth id progress).2 := by
  induction order generalizing depth progress with
  | @known id stored less =>
      rcases Nat.eq_zero_or_pos id with rfl | above
      · rw [walk]
        exact ⟨rfl, retraces⟩
      · have remembered := (retraces.finished id above).trans (if_pos less)
        rw [walk_of_finished (indexed.isZero_eq_false above (less.trans_le le)) remembered]
        exact ⟨rfl, retraces⟩
  | @leaf id leaf =>
      have missing := (retraces.finished id positive).trans (if_neg (lt_irrefl id))
      rw [walk_of_answer (indexed.isZero_eq_false positive le) missing
        (r.store.reduceVisit_folds.leaf_eq leaf depth)]
      exact retraces.merge indexed le rfl
  | @fork id low high before between found first second firstIh secondIh =>
      have inside : before ≤ between ∧ between ≤ id := ⟨first.le, second.le⟩
      have above : 0 < id := by omega
      have missing := (retraces.finished id above).trans (if_neg (by omega))
      have kept : ¬(low == 0 && high == 0) = true := by
        rw [Bool.and_eq_true, beq_iff_eq, beq_iff_eq]
        rintro ⟨rfl, rfl⟩
        exact indexed.forked found
      rw [indexed.ordered.walk_of_descend (indexed.isZero_eq_false above le) missing found
        (r.store.reduceVisit_folds.fork_eq found depth)]
      obtain ⟨lowSame, lowRetraces⟩ := firstIh positive (by omega) (depth + 1) retraces
      obtain ⟨highSame, highRetraces⟩ := secondIh (by omega) (by omega) (depth + 1) lowRetraces
      dsimp only
      rw [lowSame, highSame, if_neg kept, ← found]
      exact highRetraces.merge indexed le rfl

end AmplitudeTree.NodeStore
