import AmplitudeTree.Proofs.Tree.Apply
import AmplitudeTree.Proofs.Tree.Insert
import AmplitudeTree.Proofs.Tree.Measure
import AmplitudeTree.Proofs.Tree.Mix
import AmplitudeTree.Proofs.Tree.Restrict
import AmplitudeTree.Proofs.Tree.Split
import AmplitudeTree.Proofs.Tree.Staging

/-!
# The compressed form of a state

Every tree operation keeps the canonical form, whatever gate, control list and qubit it is given,
as long as qubits are inserted and removed within the width of the tree.
A canonical tree is determined by its amplitudes and a reduced store by the unfolding of its root, so
a reduced tree depends on its state alone and not on the operations that led to it.
-/

namespace AmplitudeTree

/-! ## Gates with any controls -/

namespace NodeStore

variable {canonical : Prop} {levels : ℕ} {s : NodeStore ℝ}

/-- On an exact store every step of a mix returns subtrees over the right number of qubits. -/
theorem mixable_exact (canonical : Prop) : Mixable Exact canonical where
  zero exact levels := ⟨exact.nonempty, by rw [unfold_zero]; exact Unfolding.regular_zero⟩
  rescale {s levels id} exact stands nonzero c := by
    have yields := exact.rescale id c fun empty => absurd empty (by simp [nonzero])
    refine ⟨yields.growth, yields.exact, yields.stored, ?_⟩
    rw [yields.holds]
    exact stands.regular.rescale _
  cofactors {s levels id} exact stands := by
    have yields := exact.cofactors id
    refine ⟨yields.growth, yields.exact, ⟨yields.first_stored, ?_⟩, ⟨yields.second_stored, ?_⟩⟩
    · rw [yields.holds.1]
      exact stands.regular.cofactor false
    · rw [yields.holds.2]
      exact stands.regular.cofactor true
  join {s levels low high} exact lowOver highOver c := by
    have yields := exact.join c low highOver.stored
    refine ⟨yields.growth, yields.exact, yields.stored, ?_⟩
    rw [yields.holds]
    exact lowOver.regular.join highOver.regular _

theorem Offered.stands {base : NodeStore ℝ} {given : Option NodeId} {id : NodeId}
    (offered : Offered given (fun u => u.Regular canonical levels) s id) (growth : base.Extends s)
    (child : NodeId) (known : ∀ other, given = some other → other = child) (stored : child < base.size)
    (regular : (base.unfold child).Regular canonical levels) : s.Over canonical levels id := by
  cases given with
  | none => exact ⟨offered.1, offered.2⟩
  | some other =>
      obtain rfl : id = other := offered
      obtain rfl := known id rfl
      exact (Over.mk stored regular).grow growth

end NodeStore

namespace Tree

variable {t other part : Tree ℝ} {canonical : Prop}

theorem join_regular {s : NodeStore ℝ} (exact : s.Exact) {low high : NodeId} {width depth : ℕ}
    (below : depth < width) (c : Amplitude ℝ) (lowRegular : (s.unfold low).Regular canonical (width - (depth + 1)))
    (highOver : s.Over canonical (width - (depth + 1)) high) :
    s.Yields (s.join c low high) fun u => u.Regular canonical (width - depth) := by
  have levels : width - depth = width - (depth + 1) + 1 := by omega
  refine (exact.join c low highOver.stored).mono fun u result => ?_
  rw [result, levels]
  exact lowRegular.join highOver.regular _

theorem keep_regular {s base : NodeStore ℝ} (exact : base.Exact) (growth : base.Extends s)
    (valid : s.Exact) {id : NodeId} {width depth : ℕ} (met : base.OnLevel canonical width depth id)
    (nonzero : base.isZero id = false) :
    s.Yields (id, s) fun u => u.Regular canonical (width - depth) := by
  have stored := exact.lt_size nonzero
  refine .of_stored valid ((growth.isZero_eq stored).trans nonzero) ?_
  rw [growth.unfold_eq stored]
  exact met.regular

/-- What the visits of a gate's walk keep, whatever the controls and the target are. -/
theorem Sound.apply_regular (sound : t.Sound canonical) (gate : Gate ℝ) (upper lower : List Control)
    (target : ℕ) :
    t.store.Appends t.store (t.applyVisit gate upper lower target)
      (t.store.OnLevel canonical t.width) fun depth _ u => u.Regular canonical (t.width - depth) where
  level_unique := NodeStore.OnLevel.unique
  zero _ _ := Unfolding.regular_zero
  answer {depth id result s} met nonzero visited growth valid := by
    obtain ⟨-, rfl⟩ | ⟨low, high, branches, -, rfl⟩ := applyVisit_eq_answer visited
    · exact keep_regular sound.exact growth valid met nonzero
    · obtain ⟨below, lowLevel, highLevel⟩ := met.branches sound.exact.toOrdered nonzero branches
      obtain ⟨lowLt, highLt⟩ := sound.exact.branches_lt branches
      have stored := sound.exact.lt_size nonzero
      have mixed := (NodeStore.mixable_exact canonical).mix valid gate (depth + 1) lower
        ((NodeStore.Over.mk (lowLt.trans stored) lowLevel.regular).grow growth)
        ((NodeStore.Over.mk (highLt.trans stored) highLevel.regular).grow growth)
      exact (join_regular mixed.kind below _ mixed.first.regular mixed.second).after mixed.growth
  descend {depth id given given' combine} met nonzero visited := by
    obtain ⟨-, low, high, branches, rfl, rfl, rfl⟩ := applyVisit_eq_descend visited
    obtain ⟨below, lowLevel, highLevel⟩ := met.branches sound.exact.toOrdered nonzero branches
    obtain ⟨lowLt, highLt⟩ := sound.exact.branches_lt branches
    have stored := sound.exact.lt_size nonzero
    refine ⟨_, sound.exact.children_eq branches, fun _ => lowLevel, fun _ => highLevel, ?_⟩
    intro s newLow newHigh growth valid lowOffered highOffered
    dsimp only
    split
    · exact keep_regular sound.exact growth valid met nonzero
    · have low := lowOffered.stands growth low (fun _ found => eq_low_of_kept found)
        (lowLt.trans stored) lowLevel.regular
      have high := highOffered.stands growth high (fun _ found => eq_high_of_kept found)
        (highLt.trans stored) highLevel.regular
      exact join_regular valid below _ low.regular high

/-- A gate keeps a tree sound, whatever its controls and its target are. -/
theorem Sound.apply_any (sound : t.Sound canonical) (gate : Gate ℝ) (controls : List Control)
    (target : ℕ) : (t.apply gate controls target).Sound canonical := by
  have yields := (sound.apply_regular gate (controls.takeWhile fun control => control.qubit < target)
    (controls.dropWhile fun control => control.qubit < target) target).walkFrom sound.onLevel
    (.refl _) sound.exact
  exact .of_clean yields.exact yields.stored yields.clean yields.holds

theorem collapse_regular {s : NodeStore ℝ} (exact : s.Exact) (canonical : Prop) (width qubit : ℕ)
    (value : Bool) :
    s.Appends s (collapseVisit s qubit value) (s.OnLevel canonical width)
      fun depth _ u => u.Regular canonical (width - depth) where
  level_unique := NodeStore.OnLevel.unique
  zero _ _ := Unfolding.regular_zero
  answer {depth id result t} met nonzero visited growth valid := by
    obtain ⟨-, rfl⟩ | ⟨low, high, branches, -, rfl⟩ := collapseVisit_eq_answer visited
    · exact keep_regular exact growth valid met nonzero
    · obtain ⟨below, lowLevel, highLevel⟩ := met.branches exact.toOrdered nonzero branches
      obtain ⟨lowLt, highLt⟩ := exact.branches_lt branches
      have stored := exact.lt_size nonzero
      have low := (NodeStore.Over.mk (lowLt.trans stored) lowLevel.regular).grow growth
      have high := (NodeStore.Over.mk (highLt.trans stored) highLevel.regular).grow growth
      have cut := (NodeStore.mixable_exact canonical).zero valid (width - (depth + 1))
      cases value with
      | true => exact join_regular valid below _ cut.regular high
      | false => exact join_regular valid below _ low.regular cut
  descend {depth id given given' combine} met nonzero visited := by
    obtain ⟨-, _, _, branches, rfl, rfl, rfl⟩ := collapseVisit_eq_descend visited
    obtain ⟨below, lowLevel, highLevel⟩ := met.branches exact.toOrdered nonzero branches
    refine ⟨_, exact.children_eq branches, fun _ => lowLevel, fun _ => highLevel, ?_⟩
    intro t newLow newHigh _ valid lowKept highKept
    exact join_regular valid below _ lowKept.2 ⟨highKept.1, highKept.2⟩

/-- A collapse keeps a tree sound, whatever the qubit is. -/
theorem Sound.collapse_any (sound : t.Sound canonical) (qubit : ℕ) (value : Bool) :
    (t.collapse qubit value).2.Sound canonical := by
  have yields := (collapse_regular sound.exact canonical t.width qubit value).walkFrom sound.onLevel
    (.refl _) sound.exact
  unfold Tree.collapse
  generalize t.store.walkFrom 0 (collapseVisit t.store qubit value) 0 t.root t.store = result at *
  obtain ⟨root, store⟩ := result
  dsimp only
  split
  · exact (sound.grow yields.growth yields.exact).1
  · next nonempty =>
      have walked : Sound canonical { t with store := store, root := root } :=
        .of_clean yields.exact yields.stored yields.clean yields.holds
      exact (walked.withUnitRoot (Bool.not_eq_true _ ▸ nonempty)).1

/-! ## Trees made by tree operations -/

/-- The trees that operations lead to; insertion, splitting and restriction stay within the width of
the tree. -/
inductive Made : Tree ℝ → Prop where
  | basis (width : ℕ) (index : BasisIndex) (phase : Amplitude ℝ) : Made (basis width index phase 0)
  | ofAmplitudes (width : ℕ) (source : BasisIndex → Amplitude ℝ) : Made (ofAmplitudes width 0 source)
  | apply {t : Tree ℝ} (made : Made t) (gate : Gate ℝ) (controls : List Control) (target : ℕ) :
      Made (t.apply gate controls target)
  | insert {t other : Tree ℝ} (made : Made t) (otherMade : Made other) {start : ℕ}
      (le : start ≤ t.width) : Made (t.insert other start)
  | split {t : Tree ℝ} (made : Made t) {start length : ℕ} (le : start + length ≤ t.width) :
      Made (t.split start length).2
  | part {t part : Tree ℝ} (made : Made t) {start length : ℕ} (le : start + length ≤ t.width)
      (parted : (t.split start length).1 = some part) : Made part
  | restrict {t : Tree ℝ} (made : Made t) {start length : ℕ} (le : start + length ≤ t.width)
      (index : BasisIndex) : Made (t.restrict start length index).2
  | collapse {t : Tree ℝ} (made : Made t) (qubit : ℕ) (value : Bool) :
      Made (t.collapse qubit value).2
  | normalize {t : Tree ℝ} (made : Made t) (tolerance : ℝ) : Made (t.normalize tolerance)
  | canonicalize {t : Tree ℝ} (made : Made t) : Made t.canonicalize
  | reduce {t : Tree ℝ} (made : Made t) : Made t.reduce
  | reduceIfBloated {t : Tree ℝ} (made : Made t) : Made t.reduceIfBloated

/-- Every operation keeps the canonical form. -/
theorem Made.sound (made : Made t) : t.Sound True := by
  induction made with
  | basis width index phase => exact (sound_basis width index phase).1
  | ofAmplitudes width source => exact sound_ofAmplitudes width source
  | apply _ gate controls target ih => exact ih.apply_any gate controls target
  | insert _ _ le ih otherIh => exact (ih.insert otherIh le).1
  | split _ le ih => exact (ih.split le).sound
  | part _ le parted ih => exact ((ih.split le).parted _ parted).1
  | restrict _ le index ih => exact (ih.restrict le index).sound
  | collapse _ qubit value ih => exact ih.collapse_any qubit value
  | normalize _ tolerance ih => exact (ih.normalize tolerance).1
  | canonicalize _ ih => exact ih.canonicalize.1
  | reduce _ ih => exact ih.reduce
  | reduceIfBloated _ ih => exact ih.reduceIfBloated

/-- In a reduced tree no two nodes agree. -/
theorem Sound.reduce_agrees_iff (sound : t.Sound canonical) {id other : NodeId}
    (stored : id < t.reduce.store.size) (otherStored : other < t.reduce.store.size) :
    t.reduce.store.agrees id other = true ↔ id = other := by
  obtain ⟨exact, _, _, _, distinct⟩ := sound.exact.reduce sound.regular
  rw [show t.reduce.store.agrees id other = true ↔ t.reduce.store.unfold id =
    t.reduce.store.unfold other from exact.agrees_iff id other]
  exact ⟨distinct id other stored otherStored, congrArg _⟩

/-- The reduced form depends on the amplitudes only: two trees that any operations lead to, with
insertions and removals within their width, and that have the same amplitudes are equal after
reduction, node by node. -/
theorem reduce_eq_of_amplitudes {t t' : Tree ℝ} (made : Made t) (made' : Made t')
    (widths : t'.width = t.width)
    (amplitudes : ∀ index < 2 ^ t.width, t.amplitude index = t'.amplitude index) :
    t.reduce = t'.reduce ∧ t.reduce.branchCount = t'.reduce.branchCount ∧
      ∀ id other, id < t.reduce.store.size → other < t'.reduce.store.size →
        (t.reduce.store.agrees id other = true ↔ id = other) := by
  have states := made.sound.state_eq made'.sound widths amplitudes
  have equal := made.sound.reduce_eq made'.sound widths (made.sound.unfold_eq made'.sound widths states)
  refine ⟨equal, congrArg branchCount equal, fun id other stored otherStored => ?_⟩
  rw [← equal] at otherStored
  exact made.sound.reduce_agrees_iff stored otherStored

/-- Two qubits that are put together reduce to the tree of their common basis state. -/
theorem reduce_insert_basis :
    ((basis 1 0 1 0).insert (basis 1 1 1 0) 1).reduce = (basis 2 2 1 (0 : ℝ)).reduce := by
  have first : Made (basis 1 0 1 0) := .basis 1 0 1
  have second : Made (basis 1 1 1 0) := .basis 1 1 1
  have whole : Made (basis 2 2 1 0) := .basis 2 2 1
  have inserted : Made ((basis 1 0 1 0).insert (basis 1 1 1 0) 1) := first.insert second (le_refl 1)
  obtain ⟨_, width, state⟩ := first.sound.insert second.sound (le_refl 1)
  have states : ((basis 1 0 1 0).insert (basis 1 1 1 0) 1).state = (basis 2 2 1 (0 : ℝ)).state := by
    rw [state, (sound_basis 1 0 1).2, (sound_basis 1 1 1).2, (sound_basis 2 2 1).2]
    funext bits
    rw [show (basis 1 1 1 (0 : ℝ)).width = 1 from rfl]
    dsimp only
    rw [basisState_succ 0 one_pos, basisState_succ 1 one_pos, basisState_succ 2 two_pos,
      basisState_succ 2 (show 0 + 1 < 2 from Nat.lt_succ_self 1)]
    simp only [zero_add, Nat.reduceAdd, basisState_self, Amplitude.toComplex_one, one_mul]
    rw [Assignment.dropped_of_lt one_pos, show Assignment.taken 1 1 bits 0 = bits 1 from rfl,
      show Nat.testBit 2 1 = true from rfl]
    cases bits 0 <;> cases bits 1 <;> simp
  exact (reduce_eq_of_amplitudes inserted whole width.symm fun index _ =>
    inserted.sound.amplitude_eq whole.sound states index).1

end Tree

end AmplitudeTree
