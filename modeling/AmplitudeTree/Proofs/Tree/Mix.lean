import AmplitudeTree.Proofs.NodeStore.Basic
import AmplitudeTree.Tree.Apply

/-!
# What a mix keeps

A mix takes two subtrees apart, mixes their halves and joins the results.  On every kind of store on
which these steps return nodes over the number of qubits they should have, a mix does so as well,
whatever gate and controls it is given.
-/

namespace AmplitudeTree.NodeStore

variable {kind : NodeStore ℝ → Prop} {canonical : Prop} {levels depth : ℕ} {controls : List Control}
  {gate : Gate ℝ} {s t : NodeStore ℝ} {id a b : NodeId}

/-! ## Nodes over a number of qubits -/

structure Over (s : NodeStore ℝ) (canonical : Prop) (levels : ℕ) (id : NodeId) : Prop where
  stored : id < s.size
  regular : (s.unfold id).Regular canonical levels

theorem Over.grow (stands : s.Over canonical levels id) (growth : s.Extends t) :
    t.Over canonical levels id where
  stored := stands.stored.trans_le growth.size_le
  regular := by
    rw [growth.unfold_eq stands.stored]
    exact stands.regular

structure ReturnsOver (s : NodeStore ℝ) (kind : NodeStore ℝ → Prop) (canonical : Prop) (levels : ℕ)
    (result : NodeId × NodeStore ℝ) : Prop where
  growth : s.Extends result.2
  kind : kind result.2
  stands : result.2.Over canonical levels result.1

structure ReturnsPair (s : NodeStore ℝ) (kind : NodeStore ℝ → Prop) (canonical : Prop) (levels : ℕ)
    (result : (NodeId × NodeId) × NodeStore ℝ) : Prop where
  growth : s.Extends result.2
  kind : kind result.2
  first : result.2.Over canonical levels result.1.1
  second : result.2.Over canonical levels result.1.2

theorem ReturnsPair.after {result : (NodeId × NodeId) × NodeStore ℝ}
    (returns : t.ReturnsPair kind canonical levels result) (growth : s.Extends t) :
    s.ReturnsPair kind canonical levels result :=
  ⟨growth.trans returns.growth, returns.kind, returns.first, returns.second⟩

theorem ReturnsOver.pair {one two : NodeId × NodeStore ℝ}
    (first : s.ReturnsOver kind canonical levels one)
    (second : one.2.ReturnsOver kind canonical levels two) :
    s.ReturnsPair kind canonical levels ((one.1, two.1), two.2) :=
  ⟨first.growth.trans second.growth, second.kind, first.stands.grow second.growth, second.stands⟩

/-! ## Mixes -/

/-- A kind of store on which the steps of a mix return nodes over the right number of qubits. -/
structure Mixable (kind : NodeStore ℝ → Prop) (canonical : Prop) : Prop where
  zero : ∀ {s}, kind s → ∀ levels, s.Over canonical levels 0
  rescale : ∀ {s levels id}, kind s → s.Over canonical levels id → s.isZero id = false →
    ∀ c, s.ReturnsOver kind canonical levels (s.rescale id c)
  cofactors : ∀ {s levels id}, kind s → s.Over canonical (levels + 1) id →
    s.ReturnsPair kind canonical levels (s.cofactors id)
  join : ∀ {s levels low high}, kind s → s.Over canonical levels low →
    s.Over canonical levels high → ∀ c,
    s.ReturnsOver kind canonical (levels + 1) (s.join c low high)

namespace Mixable

theorem join_halves (mixable : Mixable kind canonical) {aLow aHigh bLow bHigh : NodeId}
    (valid : kind s) (first : s.Over canonical levels aLow) (second : s.Over canonical levels aHigh)
    (third : s.Over canonical levels bLow) (fourth : s.Over canonical levels bHigh) :
    let zero := s.join 1 aLow aHigh
    let one := zero.2.join 1 bLow bHigh
    s.ReturnsPair kind canonical (levels + 1) ((zero.1, one.1), one.2) := by
  intro zero one
  have zeroReturns := mixable.join valid first second 1
  exact zeroReturns.pair (mixable.join zeroReturns.kind (third.grow zeroReturns.growth)
    (fourth.grow zeroReturns.growth) 1)

/-- The short cuts of a mix keep the number of qubits, if what it does otherwise does. -/
theorem shortcuts (mixable : Mixable kind canonical) (valid : kind s)
    (first : s.Over canonical levels a) (second : s.Over canonical levels b)
    {other : (NodeId × NodeId) × NodeStore ℝ}
    (otherwise : s.ReturnsPair kind canonical levels other) :
    let shape := if s.isZero a then b else a
    let scales := gate.apply (s.scale a) (s.scale b)
    let low := s.rescale shape scales.1
    let high := low.2.rescale shape scales.2
    s.ReturnsPair kind canonical levels
      (if s.isZero a && s.isZero b then ((0, 0), s)
      else if controls.isEmpty && (s.isZero a || s.isZero b || s.sameShape a b) then
        ((low.1, high.1), high.2)
      else other) := by
  intro shape scales low high
  split
  · exact ⟨.refl s, valid, mixable.zero valid levels, mixable.zero valid levels⟩
  · next some =>
      split
      · have shaped : s.isZero shape = false ∧ s.Over canonical levels shape := by
          cases aZero : s.isZero a with
          | true =>
              rw [show shape = b from if_pos aZero]
              refine ⟨Bool.not_eq_true _ ▸ fun bZero => some ?_, second⟩
              rw [aZero, bZero]
              rfl
          | false =>
              rw [show shape = a from if_neg (by simp [aZero])]
              exact ⟨aZero, first⟩
        obtain ⟨nonzero, stands⟩ := shaped
        have lowReturns := mixable.rescale valid stands nonzero scales.1
        exact lowReturns.pair (mixable.rescale lowReturns.kind (stands.grow lowReturns.growth)
          ((lowReturns.growth.isZero_eq stands.stored).trans nonzero) scales.2)
      · exact otherwise

/-- A mix keeps the number of qubits of its subtrees, whatever gate and controls it is given. -/
theorem mix (mixable : Mixable kind canonical) (valid : kind s) (gate : Gate ℝ) (depth : ℕ)
    (controls : List Control) (first : s.Over canonical levels a)
    (second : s.Over canonical levels b) :
    s.ReturnsPair kind canonical levels (NodeStore.mix gate levels depth controls a b s) := by
  induction levels generalizing s a b depth controls with
  | zero =>
      rw [NodeStore.mix]
      exact mixable.shortcuts valid first second ⟨.refl s, valid, first, second⟩
  | succ levels ih =>
      rw [NodeStore.mix]
      refine mixable.shortcuts valid first second ?_
      have aHalves := mixable.cofactors valid first
      have bHalves := mixable.cofactors aHalves.kind (second.grow aHalves.growth)
      have aLow := aHalves.first.grow bHalves.growth
      have aHigh := aHalves.second.grow bHalves.growth
      have valid := bHalves.kind
      refine ReturnsPair.after ?_ (aHalves.growth.trans bHalves.growth)
      have both (controls : List Control) :
          let low := NodeStore.mix gate levels (depth + 1) controls (s.cofactors a).1.1
            ((s.cofactors a).2.cofactors b).1.1 ((s.cofactors a).2.cofactors b).2
          let high := NodeStore.mix gate levels (depth + 1) controls (s.cofactors a).1.2
            ((s.cofactors a).2.cofactors b).1.2 low.2
          let zero := high.2.join 1 low.1.1 high.1.1
          let one := zero.2.join 1 low.1.2 high.1.2
          ((s.cofactors a).2.cofactors b).2.ReturnsPair kind canonical (levels + 1)
            ((zero.1, one.1), one.2) := by
        intro low high zero one
        have lows := ih valid (depth + 1) controls aLow bHalves.first
        have highs := ih lows.kind (depth + 1) controls (aHigh.grow lows.growth)
          (bHalves.second.grow lows.growth)
        exact (mixable.join_halves highs.kind (lows.first.grow highs.growth) highs.first
          (lows.second.grow highs.growth) highs.second).after (lows.growth.trans highs.growth)
      cases controls with
      | nil => exact both []
      | cons control rest =>
          obtain ⟨qubit, value⟩ := control
          dsimp only
          by_cases top : qubit = depth
          · -- only the halves that the control selects are mixed
            rw [if_pos (beq_iff_eq.mpr top)]
            cases value with
            | true =>
                have highs := ih valid (depth + 1) rest aHigh bHalves.second
                exact (mixable.join_halves highs.kind (aLow.grow highs.growth) highs.first
                  (bHalves.first.grow highs.growth) highs.second).after highs.growth
            | false =>
                have lows := ih valid (depth + 1) rest aLow bHalves.first
                exact (mixable.join_halves lows.kind lows.first (aHigh.grow lows.growth) lows.second
                  (bHalves.second.grow lows.growth)).after lows.growth
          · rw [if_neg (by rwa [beq_iff_eq])]
            exact both _

end Mixable

end AmplitudeTree.NodeStore
