import AmplitudeTree.Proofs.NodeStore.Reachable
import AmplitudeTree.Proofs.Tree.OneQubit

/-!
# The canonical form at a threshold

A join takes the phase out of the first branch that is not zero before it divides by the common
modulus, and only then drops the branches whose divided scale is negligible.  If the first branch is
dropped, the phase of the other one stays.  So every operation keeps the canonical form just if
nothing but zero is negligible.
-/

namespace AmplitudeTree.Tree

variable {t : Tree ℝ} {canonical : Prop} {threshold : ℝ}

/-- Every node that is reached is balanced up to the threshold, with the first branch on the
non-negative axis. -/
def InCanonicalForm (t : Tree ℝ) : Prop :=
  ∀ {id low high}, t.store.Reaches t.root id → (t.store.get id).branches = some (low, high) →
    |t.store.weight low + t.store.weight high - 1| ≤ t.threshold ∧
      let first := t.store.scale (if t.store.isZero low then high else low)
      0 ≤ first.re ∧ first.im = 0

theorem Sound.exists_onLevel (sound : t.Sound canonical) {id : NodeId}
    (reached : t.store.Reaches t.root id) : ∃ depth, t.store.OnLevel canonical t.width depth id := by
  induction reached with
  | root => exact ⟨0, sound.onLevel⟩
  | low reached found _ ih =>
      obtain ⟨depth, onLevel⟩ := ih
      obtain ⟨_, lowLevel, _⟩ := onLevel.branches sound.exact.toOrdered reached.isZero_eq found
      exact ⟨depth + 1, lowLevel⟩
  | high reached found _ ih =>
      obtain ⟨depth, onLevel⟩ := ih
      obtain ⟨_, _, highLevel⟩ := onLevel.branches sound.exact.toOrdered reached.isZero_eq found
      exact ⟨depth + 1, highLevel⟩

/-- A sound canonical tree is in canonical form. -/
theorem Sound.inCanonicalForm (sound : t.Sound True) : t.InCanonicalForm := by
  intro id low high reached branches
  obtain ⟨depth, onLevel⟩ := sound.exists_onLevel reached
  obtain ⟨_, _, _, _, balanced⟩ :=
    onLevel.fork sound.exact.toOrdered reached.isZero_eq branches
  obtain ⟨total, leadingLow, leadingHigh⟩ := balanced trivial
  have real {child : NodeId} (positive : Unfolding.Positive (t.store.unfold child).scale) :
      0 ≤ (t.store.scale child).re ∧ (t.store.scale child).im = 0 := by
    rw [← NodeStore.toComplex_scale] at positive
    exact ⟨positive.1.le, positive.2⟩
  constructor
  · rw [NodeStore.weight, NodeStore.weight, Amplitude.normSq_eq, Amplitude.normSq_eq,
      NodeStore.toComplex_scale, NodeStore.toComplex_scale, total, sub_self, abs_zero]
    exact sound.exact.threshold_eq.ge
  · cases empty : t.store.isZero low with
    | true => exact real (leadingHigh (NodeStore.unfold_of_isZero empty))
    | false => exact real (leadingLow (NodeStore.unfold_ne_zero.mpr empty))

/-- The first branch is dropped beside an imaginary one that is large enough, and leaves its phase. -/
theorem not_inCanonicalForm_oneQubit (small : threshold < 1) {y : ℝ} (large : 1 ≤ y)
    (dropped : 1 ≤ threshold * y) (kept : 1 ≤ (1 - threshold) * y) :
    ¬(oneQubit threshold 1 1 ⟨0, y⟩).InCanonicalForm := by
  intro canonical
  have one : Complex.normSq (1 : Amplitude ℝ).toComplex = 1 := Complex.normSq_one
  have imaginary : Complex.normSq (Amplitude.mk 0 y).toComplex = y * y := by
    simp [Complex.normSq_apply]
  have total : Complex.normSq (NodeStore.pairFactor 1 ⟨0, y⟩).toComplex = 1 + y * y := by
    rw [NodeStore.normSq_pairFactor, one, imaginary]
  have positive : 0 < 1 + y * y := by positivity
  have oneScaled : (1 : Amplitude ℝ).negligible threshold = false := by
    rwa [Amplitude.negligible_eq_false, one]
  have imaginaryScaled : (Amplitude.mk 0 y).negligible threshold = false := by
    rw [Amplitude.negligible_eq_false, imaginary]
    nlinarith
  have rootScaled : (1 * NodeStore.pairFactor 1 ⟨0, y⟩).negligible threshold = false := by
    rw [Amplitude.negligible_eq_false, Amplitude.toComplex_mul, Complex.normSq_mul, one, total]
    nlinarith
  obtain ⟨-, thresholds, nonzero, low, high, found, lowLeaf, highLeaf⟩ :=
    oneQubit_root small oneScaled oneScaled imaginaryScaled rootScaled
  have thresholds : (oneQubit threshold 1 1 ⟨0, y⟩).store.threshold = threshold := thresholds
  have lowZero : (oneQubit threshold 1 1 ⟨0, y⟩).store.isZero low = true := by
    rw [lowLeaf.isZero_eq, NodeStore.negligible, thresholds, Amplitude.negligible_iff,
      Amplitude.toComplex_div, Complex.normSq_div, one, total, div_le_iff₀ positive]
    nlinarith
  have highScaled : (oneQubit threshold 1 1 ⟨0, y⟩).store.negligible
      (⟨0, y⟩ / NodeStore.pairFactor 1 ⟨0, y⟩) = false := by
    rw [NodeStore.negligible_eq_false, thresholds, Amplitude.toComplex_div, Complex.normSq_div,
      imaginary, total, lt_div_iff₀ positive]
    nlinarith
  obtain ⟨-, -, real⟩ := canonical (.root nonzero) (by rw [found])
  rw [if_pos lowZero, highLeaf.scale_eq highScaled, ← Amplitude.toComplex_im,
    Amplitude.toComplex_div, show (1 : Amplitude ℝ) = .ofReal 1 from rfl,
    NodeStore.toComplex_pairFactor zero_le_one, Complex.div_ofReal_im, Amplitude.toComplex_im,
    div_eq_zero_iff] at real
  rcases real with zero | root
  · exact (zero_lt_one.trans_le large).ne' zero
  · rw [Real.sqrt_eq_zero', Amplitude.normSq_eq, imaginary] at root
    linarith

/-- Every operation keeps the canonical form just if nothing but zero is negligible. -/
theorem canonical_form_kept_iff (nonneg : 0 ≤ threshold) (small : threshold < 1) :
    (∀ t, MadeAt threshold t → t.InCanonicalForm) ↔ threshold = 0 := by
  constructor
  · intro kept
    by_contra nonzero
    have positive : 0 < threshold := lt_of_le_of_ne nonneg (Ne.symm nonzero)
    have rest : 0 < 1 - threshold := sub_pos.mpr small
    have ratio : 0 ≤ threshold / (1 - threshold) := by positivity
    have ratio' : 0 ≤ (1 - threshold) / threshold := by positivity
    have dropped : 1 ≤ threshold * (1 / threshold + 1 / (1 - threshold)) := by
      rw [mul_add, mul_one_div_cancel nonzero, mul_one_div]
      linarith
    have left : 1 ≤ (1 - threshold) * (1 / threshold + 1 / (1 - threshold)) := by
      rw [mul_add, mul_one_div_cancel rest.ne', mul_one_div]
      linarith
    exact not_inCanonicalForm_oneQubit small (by nlinarith) dropped left
      (kept _ (madeAt_oneQubit _ _ _ _))
  · rintro rfl t made
    exact made.made.sound.inCanonicalForm

/-- With the threshold one hundredth some operations leave the canonical form. -/
theorem canonical_form_lost : ¬∀ t, MadeAt (1 / 100) t → t.InCanonicalForm := by
  rw [canonical_form_kept_iff (by norm_num) (by norm_num)]
  norm_num

end AmplitudeTree.Tree
