import AmplitudeTree.Proofs.Tree.Tolerant

/-!
# Well-formed trees

A tree with a tolerance is well-formed if its store is tolerant and its root decides the qubits of
the tree.  Fresh trees are well-formed, and gates, measurements, normalization and reduction keep
trees well-formed.
-/

namespace AmplitudeTree

namespace NodeStore

variable {s base t : NodeStore ℝ} {id low high : NodeId} {width depth levels : ℕ}

theorem Tolerant.not_negligible_one (tolerant : s.Tolerant) : s.negligible 1 = false := by
  have small := tolerant.lt_half
  rw [negligible_eq_false, Amplitude.toComplex_one, Complex.normSq_one]
  linarith

theorem OnLevel.stands (onLevel : s.OnLevel False width depth id) (stored : id < s.size) :
    s.Over False (width - depth) id :=
  ⟨stored, onLevel.regular⟩

/-- A node on a level has branches, one of them with amplitude, unless no qubit is left. -/
theorem Tolerant.spans_of_onLevel (tolerant : s.Tolerant) (onLevel : s.OnLevel False width depth id)
    (nonzero : s.isZero id = false) : s.Spans (width - depth) (s.get id).branches :=
  (onLevel.stands (tolerant.lt_size nonzero)).spans tolerant.toOrdered nonzero

theorem OnLevel.returned (onLevel : s.OnLevel False width depth id) (tolerant : s.Tolerant)
    (nonzero : s.isZero id = false) (growth : s.Extends t) (valid : t.Tolerant) :
    t.Forms (width - depth) (id, t) := by
  have stored := tolerant.lt_size nonzero
  exact .of_over valid ((onLevel.stands stored).grow growth)
    ((growth.isZero_eq stored).trans nonzero)

theorem Tolerant.join_level (tolerant : s.Tolerant) (below : depth < width) (c : Amplitude ℝ)
    (lowOver : s.Over False (width - (depth + 1)) low)
    (highOver : s.Over False (width - (depth + 1)) high) :
    s.Forms (width - depth) (s.join c low high) := by
  have levels : width - depth = width - (depth + 1) + 1 := by omega
  rw [levels]
  exact tolerant.join c lowOver highOver

theorem Provided.stands {given : Option NodeId}
    (provided : Provided given (fun t id => t.Rooted levels id) t id) (growth : base.Extends t)
    (child : NodeId) (known : ∀ other, given = some other → other = child)
    (stands : base.Over False levels child) : t.Over False levels id := by
  cases given with
  | none => exact Rooted.toOver provided
  | some other =>
      obtain rfl : id = other := provided
      obtain rfl := known id rfl
      exact stands.grow growth

/-- What the visits of a walk return that rebuilds a tree from its leaves. -/
abbrev RootedBelow (width : ℕ) (depth : ℕ) (_ : NodeId) (t : NodeStore ℝ) (id : NodeId) : Prop :=
  t.Rooted (width - depth) id

end NodeStore

namespace Tree

open NodeStore

variable {t : Tree ℝ} {threshold : ℝ}

/-- A tree over a tolerant store whose root decides the qubits of the tree. -/
structure Formed (threshold : ℝ) (t : Tree ℝ) : Prop where
  tolerant : t.store.Tolerant
  threshold_eq : t.store.threshold = threshold
  rooted : t.store.Rooted t.width t.root

theorem formed_of_forms {s : NodeStore ℝ} {result : NodeId × NodeStore ℝ} {width : ℕ}
    (forms : s.Forms width result) (thresholds : s.threshold = threshold) (reducedSize : ℕ) :
    Formed threshold ⟨result.2, result.1, width, reducedSize⟩ :=
  ⟨forms.tolerant, forms.growth.threshold_eq.trans thresholds, forms.holds⟩

theorem Formed.grow (formed : t.Formed threshold) {s : NodeStore ℝ} (growth : t.store.Extends s)
    (tolerant : s.Tolerant) : Formed threshold { t with store := s } :=
  ⟨tolerant, growth.threshold_eq.trans formed.threshold_eq, formed.rooted.grow growth⟩

theorem Formed.onLevel (formed : t.Formed threshold) :
    t.store.OnLevel False t.width 0 t.root :=
  ⟨Nat.zero_le _, formed.rooted.regular⟩

/-! ## Basis states -/

/-- A path of a basis state decides one more qubit on each of its levels. -/
theorem basisPath_forms (index : BasisIndex) (phase : Amplitude ℝ) (levels : ℕ) {below : ℕ}
    {s : NodeStore ℝ} (tolerant : s.Tolerant) {child : NodeId}
    (stands : s.Over False below child) (nonzero : s.isZero child = false) :
    s.Forms (below + levels) (basisPath index phase levels child s) := by
  induction levels generalizing below s child with
  | zero => exact .of_over tolerant stands nonzero
  | succ level ih =>
      rw [basisPath]
      dsimp only
      have zero := tolerant.over_zero below
      have spans : s.Spans (below + 1) (some (if index.bit level then (0, child) else (child, 0))) := by
        split
        · exact .fork zero stands (.inr nonzero)
        · exact .fork stands zero (.inl nonzero)
      generalize (if index.bit level then (0, child) else (child, 0)) = branches at spans
      have pushed (c : Amplitude ℝ) : s.Forms (below + 1) (s.push ⟨c, some branches⟩) :=
        tolerant.forms_push spans
      cases level with
      | zero => exact pushed phase
      | succ level =>
          have kept := tolerant.isZero_push ⟨1, some branches⟩
          rw [tolerant.not_negligible_one] at kept
          have rest := ih (pushed 1).tolerant (pushed 1).stands kept
          rw [Nat.add_right_comm, Nat.add_assoc] at rest
          exact rest.after (pushed 1).growth

theorem formed_basis (nonneg : 0 ≤ threshold) (small : threshold < 1 / 2) (width : ℕ)
    (index : BasisIndex) (phase : Amplitude ℝ) :
    (basis width index phase threshold).Formed threshold := by
  have empty := Tolerant.empty nonneg small
  cases width with
  | zero => exact formed_of_forms (empty.forms_push .leaf) rfl _
  | succ width =>
      have leaf : (NodeStore.empty threshold).Forms 0
          ((NodeStore.empty threshold).push (.leaf 1)) := empty.forms_push .leaf
      have nonzero := empty.isZero_push (.leaf 1)
      rw [show (Node.leaf 1 : Node ℝ).scale = 1 from rfl, empty.not_negligible_one] at nonzero
      have path := basisPath_forms index phase (width + 1) leaf.tolerant leaf.stands nonzero
      rw [Nat.zero_add] at path
      exact formed_of_forms path rfl _

/-! ## Gates -/

/-- What the visits of a gate's walk return, whatever the controls and the target are. -/
theorem Formed.apply_builds (formed : t.Formed threshold) (gate : Gate ℝ)
    (upper lower : List Control) (target : ℕ) :
    t.store.Builds t.store (t.applyVisit gate upper lower target)
      (t.store.OnLevel False t.width) (RootedBelow t.width) where
  level_unique := NodeStore.OnLevel.unique
  grow := Rooted.grow
  zero _ _ tolerant := tolerant.rooted_zero _
  answer {depth id result s} met nonzero visited growth valid := by
    obtain ⟨-, rfl⟩ | ⟨low, high, branches, -, rfl⟩ := applyVisit_eq_answer visited
    · exact met.returned formed.tolerant nonzero growth valid
    · obtain ⟨below, lowLevel, highLevel⟩ := met.branches formed.tolerant.toOrdered nonzero branches
      obtain ⟨lowLt, highLt⟩ := formed.tolerant.branches_lt branches
      have stored := formed.tolerant.lt_size nonzero
      have mixed := mixable_tolerant.mix valid gate (depth + 1) lower
        ((lowLevel.stands (lowLt.trans stored)).grow growth)
        ((highLevel.stands (highLt.trans stored)).grow growth)
      exact (mixed.kind.join_level below _ mixed.first mixed.second).after mixed.growth
  descend {depth id given given' combine} met nonzero visited := by
    obtain ⟨-, low, high, branches, rfl, rfl, rfl⟩ := applyVisit_eq_descend visited
    obtain ⟨below, lowLevel, highLevel⟩ := met.branches formed.tolerant.toOrdered nonzero branches
    obtain ⟨lowLt, highLt⟩ := formed.tolerant.branches_lt branches
    have stored := formed.tolerant.lt_size nonzero
    refine ⟨_, formed.tolerant.children_eq branches, fun _ => lowLevel, fun _ => highLevel, ?_⟩
    intro s newLow newHigh growth valid lowProvided highProvided
    dsimp only
    split
    · exact met.returned formed.tolerant nonzero growth valid
    · have low := lowProvided.stands growth low (fun _ found => eq_low_of_kept found)
        (lowLevel.stands (lowLt.trans stored))
      have high := highProvided.stands growth high (fun _ found => eq_high_of_kept found)
        (highLevel.stands (highLt.trans stored))
      exact valid.join_level below _ low high

theorem Formed.apply (formed : t.Formed threshold) (gate : Gate ℝ) (controls : List Control)
    (target : ℕ) : (t.apply gate controls target).Formed threshold :=
  formed_of_forms ((formed.apply_builds gate _ _ target).walkFrom formed.onLevel (.refl _)
    formed.tolerant) formed.threshold_eq _

/-! ## Measurement and normalization -/

theorem collapse_builds {s : NodeStore ℝ} (tolerant : s.Tolerant) (width qubit : ℕ)
    (value : Bool) :
    s.Builds s (collapseVisit s qubit value) (s.OnLevel False width) (RootedBelow width) where
  level_unique := NodeStore.OnLevel.unique
  grow := Rooted.grow
  zero _ _ tolerant := tolerant.rooted_zero _
  answer {depth id result t} met nonzero visited growth valid := by
    obtain ⟨-, rfl⟩ | ⟨low, high, branches, -, rfl⟩ := collapseVisit_eq_answer visited
    · exact met.returned tolerant nonzero growth valid
    · obtain ⟨below, lowLevel, highLevel⟩ := met.branches tolerant.toOrdered nonzero branches
      obtain ⟨lowLt, highLt⟩ := tolerant.branches_lt branches
      have stored := tolerant.lt_size nonzero
      have cut := valid.over_zero (width - (depth + 1))
      cases value with
      | true =>
          exact valid.join_level below _ cut ((highLevel.stands (highLt.trans stored)).grow growth)
      | false =>
          exact valid.join_level below _ ((lowLevel.stands (lowLt.trans stored)).grow growth) cut
  descend {depth id given given' combine} met nonzero visited := by
    obtain ⟨-, _, _, branches, rfl, rfl, rfl⟩ := collapseVisit_eq_descend visited
    obtain ⟨below, lowLevel, highLevel⟩ := met.branches tolerant.toOrdered nonzero branches
    refine ⟨_, tolerant.children_eq branches, fun _ => lowLevel, fun _ => highLevel, ?_⟩
    intro t newLow newHigh _ valid lowRooted highRooted
    exact valid.join_level below _ (Rooted.toOver lowRooted) (Rooted.toOver highRooted)

theorem Formed.withUnitRoot (formed : t.Formed threshold)
    (nonzero : t.store.isZero t.root = false) : t.withUnitRoot.Formed threshold :=
  formed_of_forms (formed.tolerant.rescale formed.rooted.toOver _ fun _ => nonzero).1
    formed.threshold_eq _

theorem Formed.collapse (formed : t.Formed threshold) (qubit : ℕ) (value : Bool) :
    (t.collapse qubit value).2.Formed threshold := by
  have forms := (collapse_builds formed.tolerant t.width qubit value).walkFrom formed.onLevel
    (.refl _) formed.tolerant
  unfold Tree.collapse
  generalize t.store.walkFrom 0 (collapseVisit t.store qubit value) 0 t.root t.store = result at *
  obtain ⟨root, store⟩ := result
  dsimp only
  split
  · exact formed.grow forms.growth forms.tolerant
  · next nonempty =>
      have walked : Formed threshold { t with store := store, root := root } :=
        formed_of_forms forms formed.threshold_eq t.reducedSize
      exact walked.withUnitRoot (Bool.not_eq_true _ ▸ nonempty)

/-- Branches whose squared scales add up to nearly one are not both zero. -/
theorem nonzero_of_weights {s : NodeStore ℝ} {low high : NodeId} {tolerance : ℝ}
    (small : tolerance < 1)
    (near : ¬Scalar.lt tolerance (Scalar.abs (s.weight low + s.weight high - 1)) = true) :
    s.isZero low = false ∨ s.isZero high = false := by
  rw [Scalar.lt_iff, not_lt, Scalar.abs_eq] at near
  by_contra both
  rw [not_or, Bool.not_eq_false, Bool.not_eq_false] at both
  have weightless (id : NodeId) (empty : s.isZero id = true) : s.weight id = 0 := by
    rw [weight, scale_of_isZero empty, Amplitude.normSq_eq, Amplitude.toComplex_zero,
      Complex.normSq_zero]
  rw [weightless low both.1, weightless high both.2, zero_add, zero_sub, abs_neg, abs_one] at near
  exact absurd near (not_le.mpr small)

theorem normalize_builds {s : NodeStore ℝ} (tolerant : s.Tolerant) {tolerance : ℝ}
    (small : tolerance < 1) (width : ℕ) :
    s.Builds s (normalizeVisit s tolerance) (s.OnLevel False width) (RootedBelow width) where
  level_unique := NodeStore.OnLevel.unique
  grow := Rooted.grow
  zero _ _ tolerant := tolerant.rooted_zero _
  answer {depth id result t} met nonzero visited growth valid := by
    obtain ⟨_, rfl⟩ := (normalizeVisit_folds s tolerance).eq_answer visited
    exact met.returned tolerant nonzero growth valid
  descend {depth id given given' combine} met nonzero visited := by
    obtain ⟨low, high, branches, rfl, rfl, rfl⟩ :=
      (normalizeVisit_folds s tolerance).eq_descend visited
    obtain ⟨below, lowLevel, highLevel⟩ := met.branches tolerant.toOrdered nonzero branches
    have levels : width - depth = width - (depth + 1) + 1 := by omega
    refine ⟨_, tolerant.children_eq branches, fun _ => lowLevel, fun _ => highLevel, ?_⟩
    intro t newLow newHigh growth valid lowRooted highRooted
    have lowOver : t.Over False (width - (depth + 1)) newLow := Rooted.toOver lowRooted
    have highOver : t.Over False (width - (depth + 1)) newHigh := Rooted.toOver highRooted
    dsimp only
    split
    · exact valid.join_level below _ lowOver highOver
    · next near =>
        split
        · exact met.returned tolerant nonzero growth valid
        · have spans := Spans.fork lowOver highOver (nonzero_of_weights small near)
          rw [← levels] at spans
          exact valid.forms_push spans

theorem Formed.normalize (formed : t.Formed threshold) {tolerance : ℝ} (small : tolerance < 1) :
    (t.normalize tolerance).Formed threshold := by
  have forms := (normalize_builds formed.tolerant small t.width).walkFrom formed.onLevel
    (.refl _) formed.tolerant
  unfold Tree.normalize
  generalize t.store.walkFrom 0 (normalizeVisit t.store tolerance) 0 t.root t.store = result at *
  obtain ⟨root, store⟩ := result
  have walked : Formed threshold { t with store := store, root := root } :=
    formed_of_forms forms formed.threshold_eq t.reducedSize
  dsimp only
  split
  · exact walked
  · next nonempty => exact walked.withUnitRoot (Bool.not_eq_true _ ▸ nonempty)

end Tree

/-! ## Reduction -/

namespace NodeStore

open Reduction

variable {s : NodeStore ℝ} {r : Reduction ℝ} {id : NodeId} {levels width : ℕ}

/-- Every node that is listed in a cell is stored with the branches of the cell and is not zero. -/
structure Reduction.Filed (s : NodeStore ℝ) (r : Reduction ℝ) : Prop where
  tolerant : r.store.Tolerant
  threshold_eq : r.store.threshold = s.threshold
  listed : ∀ {cell id}, id ∈ r.cells.getD cell [] →
    r.store.isZero id = false ∧ (r.store.get id).branches = cell.branches

structure Reduction.Merges (s : NodeStore ℝ) (r : Reduction ℝ) (levels : ℕ)
    (result : NodeId × Reduction ℝ) : Prop where
  growth : r.store.Extends result.2.store
  filed : result.2.Filed s
  stands : result.2.store.Over False levels result.1
  nonzero : result.2.store.isZero result.1 = false

/-- Merging a node that is not zero returns such a node over the same branches. -/
theorem Reduction.Filed.merge (filed : r.Filed s) {node : Node ℝ}
    (scaled : s.negligible node.scale = false) (spans : r.store.Spans levels node.branches) :
    r.Merges s levels (r.merge node) := by
  unfold Reduction.merge
  dsimp only
  split
  · next m found =>
      obtain ⟨nonzero, branches⟩ := filed.listed (List.mem_of_find?_eq_some found)
      rw [show (Cell.ofNode (Cell.width r.store.threshold) node).branches = node.branches from rfl]
        at branches
      rw [← branches] at spans
      exact ⟨.refl _, filed,
        filed.tolerant.over_of_spans (filed.tolerant.lt_size nonzero) spans, nonzero⟩
  · have forms := filed.tolerant.forms_push spans
    have nonzero : (r.store.push node).2.isZero r.store.size = false := by
      rw [filed.tolerant.isZero_push, ← scaled, negligible, negligible, filed.threshold_eq]
    refine ⟨forms.growth, ⟨forms.tolerant,
      forms.growth.threshold_eq.trans filed.threshold_eq, fun {cell id} member => ?_⟩, forms.stands,
      nonzero⟩
    have old (known : id ∈ r.cells.getD cell []) : (r.store.push node).2.isZero id = false ∧
        ((r.store.push node).2.get id).branches = cell.branches := by
      obtain ⟨some, branches⟩ := filed.listed known
      have stored := filed.tolerant.lt_size some
      rw [forms.growth.isZero_eq stored, forms.growth.get_eq id stored]
      exact ⟨some, branches⟩
    dsimp only at member
    rw [Std.HashMap.getD_insert] at member
    split at member
    · next same =>
        rcases List.mem_append.mp member with known | fresh
        · rw [eq_of_beq same] at known
          exact old known
        · obtain rfl := List.mem_singleton.mp fresh
          have pushed : (r.store.push node).2.get r.store.size = node := get_push _ _
          exact ⟨nonzero, (congrArg Node.branches pushed).trans
            (congrArg Cell.branches (eq_of_beq same))⟩
    · exact old member

theorem Reduction.Merges.standsFor {result : NodeId × Reduction ℝ}
    (merges : r.Merges s levels result) (id : NodeId) :
    StandsFor s id levels result.2.store result.1 :=
  ⟨merges.stands.rooted merges.filed.tolerant.toOrdered merges.nonzero, fun _ => merges.nonzero⟩

/-- A reduction returns nodes that stand for those it visits. -/
theorem Tolerant.reduce_contract (tolerant : s.Tolerant) (width : ℕ) :
    s.Contract 0 s.reduceVisit (s.OnLevel False width) (Reduction.Filed s)
      (fun r r' => r.store.Extends r'.store)
      (fun depth id r value r' => r.store.Extends r'.store ∧ r'.Filed s ∧
        StandsFor s id (width - depth) r'.store value)
      (fun id value r => ∃ depth, s.OnLevel False width depth id ∧
        StandsFor s id (width - depth) r.store value) where
  zero _ empty filed := ⟨.refl _, filed, filed.tolerant.standsFor_zero empty _⟩
  answer {depth id r result} met nonzero visited filed := by
    obtain ⟨leaf, rfl⟩ := s.reduceVisit_folds.eq_answer visited
    have spans : r.store.Spans (width - depth) (s.get id).branches := by
      rw [leaf, met.eq_width nonzero leaf, Nat.sub_self]
      exact .leaf
    have merges := filed.merge (not_negligible_of_not_isZero nonzero) spans
    exact ⟨merges.growth, merges.growth, merges.filed, merges.standsFor id⟩
  descend {depth id given given' combine} met nonzero visited := by
    obtain ⟨low, high, branches, rfl, rfl, rfl⟩ := s.reduceVisit_folds.eq_descend visited
    obtain ⟨below, lowLevel, highLevel⟩ := met.branches tolerant.toOrdered nonzero branches
    refine ⟨_, tolerant.children_eq branches, fun _ => lowLevel, fun _ => highLevel, ?_⟩
    intro before lowValue between highValue after _ _ filed lowPost highPost
    obtain ⟨lowGrowth, _, lowStands⟩ := lowPost
    obtain ⟨highGrowth, _, highStands⟩ := highPost
    have spans := met.spans tolerant.toOrdered nonzero branches (lowStands.grow highGrowth)
      highStands
    rw [show width - (depth + 1) + 1 = width - depth by omega] at spans
    have forked : ¬(lowValue == 0 && highValue == 0) = true := by
      rw [Bool.and_eq_true, beq_iff_eq, beq_iff_eq]
      rintro ⟨rfl, rfl⟩
      rcases spans.nonzero with found | found <;> cases found
    have merges : after.Merges s (width - depth)
        (after.merge ⟨(s.get id).scale, Option.some (lowValue, highValue)⟩) :=
      filed.merge (not_negligible_of_not_isZero nonzero) spans
    dsimp only
    rw [if_neg forked]
    exact ⟨merges.growth, (lowGrowth.trans highGrowth).trans merges.growth, merges.filed,
      merges.standsFor id⟩
  valid_after _ post := post.2.1
  record met _ post := ⟨_, met, post.2.2⟩
  keep _ growth known := by
    obtain ⟨depth, met, stands⟩ := known
    exact ⟨depth, met, stands.grow growth⟩
  reuse met nonzero filed known := by
    obtain ⟨depth, again, stands⟩ := known
    obtain rfl := met.unique again nonzero
    exact ⟨.refl _, filed, stands⟩

end NodeStore

namespace Tree

open NodeStore

variable {t : Tree ℝ} {threshold : ℝ}

theorem Formed.reduce (formed : t.Formed threshold) : t.reduce.Formed threshold := by
  have start : Reduction.Filed t.store ⟨.empty t.store.threshold, ∅⟩ := by
    refine ⟨.empty formed.tolerant.nonneg formed.tolerant.lt_half, rfl, fun member => ?_⟩
    simp at member
  obtain ⟨-, filed, stands⟩ := (formed.tolerant.reduce_contract t.width).walkFrom formed.onLevel
    _ start
  unfold Tree.reduce NodeStore.reduce
  generalize t.store.walkFrom 0 t.store.reduceVisit 0 t.root _ = result at *
  obtain ⟨root, r⟩ := result
  exact ⟨filed.tolerant, filed.threshold_eq.trans formed.threshold_eq, stands.rooted⟩

end Tree

/-! ## Trees from amplitude lists -/

namespace NodeStore

variable {s t : NodeStore ℝ} {id : NodeId} {levels levels' width depth : ℕ}

/-- A node as it is staged: it may be without amplitude, but it is met on one level only. -/
inductive Staged (s : NodeStore ℝ) : ℕ → NodeId → Prop where
  | zero (levels : ℕ) : Staged s levels 0
  | leaf {id : NodeId} (stored : id < s.size) (found : (s.get id).branches = none) : Staged s 0 id
  | fork {levels : ℕ} {id low high : NodeId} (stored : id < s.size)
      (found : (s.get id).branches = some (low, high)) (nonzero : low ≠ 0 ∨ high ≠ 0)
      (lowStaged : Staged s levels low) (highStaged : Staged s levels high) :
      Staged s (levels + 1) id

theorem Staged.grow (staged : s.Staged levels id) (growth : s.Extends t) :
    t.Staged levels id := by
  induction staged with
  | zero levels => exact .zero levels
  | @leaf id stored found =>
      rw [← growth.get_eq id stored] at found
      exact .leaf (stored.trans_le growth.size_le) found
  | @fork levels id low high stored found nonzero _ _ lowIh highIh =>
      rw [← growth.get_eq id stored] at found
      exact .fork (stored.trans_le growth.size_le) found nonzero lowIh highIh

theorem Staged.unique (staged : s.Staged levels id) (again : s.Staged levels' id)
    (nonzero : id ≠ 0) : levels = levels' := by
  induction staged generalizing levels' with
  | zero levels => exact absurd rfl nonzero
  | leaf stored found =>
      cases again with
      | zero => exact absurd rfl nonzero
      | leaf => rfl
      | fork _ found' =>
          rw [found] at found'
          cases found'
  | fork stored found some lowStaged highStaged lowIh highIh =>
      cases again with
      | zero => exact absurd rfl nonzero
      | leaf _ found' =>
          rw [found] at found'
          cases found'
      | fork _ found' _ lowStaged' highStaged' =>
          rw [found] at found'
          cases found'
          rcases some with lowSome | highSome
          · rw [lowIh lowStaged' lowSome]
          · rw [highIh highStaged' highSome]

theorem Tolerant.staged_lt_size (tolerant : s.Tolerant) (staged : s.Staged levels id) :
    id < s.size := by
  cases staged with
  | zero => exact tolerant.nonempty
  | leaf stored => exact stored
  | fork stored => exact stored

structure StagedOnLevel (s : NodeStore ℝ) (width depth : ℕ) (id : NodeId) : Prop where
  le : depth ≤ width
  staged : s.Staged (width - depth) id

theorem id_ne_zero (nonzero : s.isZero id = false) : id ≠ 0 := by
  rintro rfl
  cases nonzero

namespace StagedOnLevel

/-- A staged node without branches lies on the level after the last qubit. -/
theorem spans_of_leaf (met : s.StagedOnLevel width depth id) (nonzero : id ≠ 0)
    (leaf : (s.get id).branches = none) : s.Spans (width - depth) (s.get id).branches := by
  have staged := met.staged
  generalize width - depth = levels at staged
  cases staged with
  | zero => exact absurd rfl nonzero
  | leaf _ found =>
      rw [found]
      exact .leaf
  | fork _ found =>
      rw [found] at leaf
      cases leaf

theorem branches {low high : NodeId} (met : s.StagedOnLevel width depth id) (nonzero : id ≠ 0)
    (found : (s.get id).branches = some (low, high)) :
    s.StagedOnLevel width (depth + 1) low ∧ s.StagedOnLevel width (depth + 1) high := by
  have staged := met.staged
  have le := met.le
  generalize remaining : width - depth = levels at staged
  cases staged with
  | zero => exact absurd rfl nonzero
  | leaf _ found' =>
      rw [found'] at found
      cases found
  | @fork levels _ _ _ _ found' _ lowStaged highStaged =>
      rw [found'] at found
      cases found
      obtain rfl : width - (depth + 1) = levels := by omega
      exact ⟨⟨by omega, lowStaged⟩, ⟨by omega, highStaged⟩⟩

end StagedOnLevel

/-- Staged nodes in canonical form decide as many qubits. -/
theorem canonical_builds (tolerant : s.Tolerant) (width : ℕ) :
    s.Builds s (Tree.canonicalVisit s) (s.StagedOnLevel width) (RootedBelow width) where
  level_unique met again nonzero := by
    have levels := met.staged.unique again.staged (id_ne_zero nonzero)
    have first := met.le
    have second := again.le
    omega
  grow := Rooted.grow
  zero _ _ tolerant := tolerant.rooted_zero _
  answer {depth id result t} met nonzero visited growth valid := by
    obtain ⟨leaf, rfl⟩ := (Tree.canonicalVisit_folds s).eq_answer visited
    have stored := tolerant.lt_size nonzero
    have spans := met.spans_of_leaf (id_ne_zero nonzero) leaf
    exact Forms.of_over valid ((tolerant.over_of_spans stored spans).grow growth)
      ((growth.isZero_eq stored).trans nonzero)
  descend {depth id given given' combine} met nonzero visited := by
    obtain ⟨_, _, branches, rfl, rfl, rfl⟩ := (Tree.canonicalVisit_folds s).eq_descend visited
    obtain ⟨lowMet, highMet⟩ := met.branches (id_ne_zero nonzero) branches
    refine ⟨_, tolerant.children_eq branches, fun _ => lowMet, fun _ => highMet, ?_⟩
    intro t newLow newHigh _ valid lowRooted highRooted
    exact valid.join_level lowMet.le _ (Rooted.toOver lowRooted) (Rooted.toOver highRooted)

end NodeStore

/-- The nodes that are appended for a staging tree are staged. -/
theorem StagingTree.build_staged (staging : StagingTree ℝ) (levels slot : ℕ) {s : NodeStore ℝ}
    (tolerant : s.Tolerant) :
    s.Returns (fun t id => t.Staged levels id) (staging.build levels slot s) := by
  induction levels generalizing s slot with
  | zero =>
      rw [StagingTree.build]
      split
      · next a _ =>
          have pushed : s.Forms 0 (s.push (.leaf a)) := tolerant.forms_push .leaf
          exact ⟨pushed.growth, pushed.tolerant,
            .leaf pushed.holds.stored (congrArg Node.branches (NodeStore.get_push s _))⟩
      · exact ⟨.refl s, tolerant, .zero 0⟩
  | succ levels ih =>
      rw [StagingTree.build]
      split
      · exact ⟨.refl s, tolerant, .zero _⟩
      · next first _ =>
          have low := ih first tolerant
          have high := ih (first + 1) low.tolerant
          have growth := low.growth.trans high.growth
          dsimp only
          split
          · exact ⟨growth, high.tolerant, .zero _⟩
          · next some =>
              rw [Bool.and_eq_true, beq_iff_eq, beq_iff_eq, not_and_or] at some
              have lowStaged := low.holds.grow high.growth
              generalize (staging.build levels (first + 1) (staging.build levels first s).2) =
                built at *
              obtain ⟨newHigh, built⟩ := built
              generalize (staging.build levels first s).1 = newLow at *
              dsimp only at *
              have lowStored := high.tolerant.staged_lt_size lowStaged
              have highStored := high.tolerant.staged_lt_size high.holds
              have pushed := NodeStore.extends_push built ⟨1, Option.some (newLow, newHigh)⟩
              refine ⟨growth.trans pushed, high.tolerant.push ?_, ?_⟩
              · rintro _ _ ⟨⟩
                exact ⟨lowStored, highStored⟩
              · exact .fork (by simp) (congrArg Node.branches (NodeStore.get_push _ _)) some
                  (lowStaged.grow pushed) (high.holds.grow pushed)

namespace Tree

theorem formed_ofAmplitudes {threshold : ℝ} (nonneg : 0 ≤ threshold) (small : threshold < 1 / 2)
    (width : ℕ) (source : BasisIndex → Amplitude ℝ) :
    (ofAmplitudes width threshold source).Formed threshold := by
  unfold ofAmplitudes
  dsimp only
  generalize (StagingTree.empty width).insertAll width source (List.range (2 ^ width)) = staging
  have built := staging.build_staged width 0 (NodeStore.Tolerant.empty nonneg small)
  have forms := (NodeStore.canonical_builds built.tolerant width).walkFrom
    ⟨Nat.zero_le width, built.holds⟩ (.refl _) built.tolerant
  exact (formed_of_forms forms built.growth.threshold_eq _).reduce

end Tree

end AmplitudeTree
