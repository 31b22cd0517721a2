import Mathlib.Tactic.LinearCombination
import AmplitudeTree.Proofs.Unfolding.Basic

/-!
# Canonical unfoldings

Canonical trees over the same qubits whose amplitudes differ by a factor have one shape, and their
scales differ by that factor.  So a canonical tree is determined by its amplitudes.  `join` makes a
canonical fork from two branches, and every state has a canonical tree.
-/

namespace AmplitudeTree.Unfolding

variable {canonical : Prop} {levels qubit : ℕ} {u v low high : Unfolding}

/-! ## Uniqueness -/

theorem Positive.factor_eq_one {a b z : ℂ} (first : Positive a) (second : Positive b)
    (factor : a = z * b) (modulus : Complex.normSq z = 1) : z = 1 := by
  obtain ⟨firstPos, firstReal⟩ := first
  obtain ⟨secondPos, secondReal⟩ := second
  have reals : a.re = z.re * b.re := by
    rw [factor, Complex.mul_re, secondReal, mul_zero, sub_zero]
  have imaginary : z.im * b.re = 0 := by
    rw [factor, Complex.mul_im, secondReal, mul_zero, zero_add] at firstReal
    exact firstReal
  have imZero : z.im = 0 := (mul_eq_zero.mp imaginary).resolve_right secondPos.ne'
  have rePos : 0 < z.re := by
    rw [reals] at firstPos
    exact (mul_pos_iff_of_pos_right secondPos).mp firstPos
  rw [Complex.normSq_apply, imZero, mul_zero, add_zero] at modulus
  have reOne : z.re = 1 := by nlinarith
  exact Complex.ext reOne imZero

/-- The scales below two canonical forks can only differ by the factor one. -/
theorem Balanced.factor_eq_one {low' high' : Unfolding} {z : ℂ} (first : Balanced low high)
    (second : Balanced low' high') (lowFactor : low.scale = z * low'.scale)
    (highFactor : high.scale = z * high'.scale) (zeros : low = zero ↔ low' = zero) : z = 1 := by
  have modulus : Complex.normSq z = 1 := by
    have total := first.total
    rw [lowFactor, highFactor, Complex.normSq_mul, Complex.normSq_mul, ← mul_add, second.total,
      mul_one] at total
    exact total
  by_cases empty : low = zero
  · exact (first.leading_high empty).factor_eq_one (second.leading_high (zeros.mp empty))
      highFactor modulus
  · exact (first.leading_low empty).factor_eq_one
      (second.leading_low fun found => empty (zeros.mpr found)) lowFactor modulus

/-- Trees with proportional amplitudes are both zero, or none is. -/
theorem Regular.zero_iff_of_proportional (uRegular : u.Regular canonical levels)
    (vRegular : v.Regular canonical levels) {z : ℂ} (nonzero : z ≠ 0)
    (proportional : ∀ bits, u.amplitude qubit bits = z * v.amplitude qubit bits) :
    u = zero ↔ v = zero := by
  constructor
  · rintro rfl
    by_contra some
    obtain ⟨bits, found⟩ := vRegular.exists_amplitude_ne_zero some qubit
    exact mul_ne_zero nonzero found (proportional bits).symm
  · rintro rfl
    by_contra some
    obtain ⟨bits, found⟩ := uRegular.exists_amplitude_ne_zero some qubit
    exact found ((proportional bits).trans (mul_zero z))

/-- Canonical trees with proportional amplitudes have one shape, and their scales are in
the same proportion. -/
theorem Regular.proportional (uRegular : u.Regular True levels) (vRegular : v.Regular True levels)
    {z : ℂ} (nonzero : z ≠ 0)
    (amplitudes : ∀ bits, u.amplitude qubit bits = z * v.amplitude qubit bits) :
    u.withScale 1 = v.withScale 1 ∧ u.scale = z * v.scale := by
  induction levels generalizing u v qubit z with
  | zero =>
      by_cases empty : u = zero
      · have other := (uRegular.zero_iff_of_proportional vRegular nonzero amplitudes).mp empty
        rw [empty, other]
        simp
      · have other : v ≠ zero := fun found =>
          empty ((uRegular.zero_iff_of_proportional vRegular nonzero amplitudes).mpr found)
        obtain ⟨c, _, rfl⟩ := uRegular.leaf_of_zero empty
        obtain ⟨d, _, rfl⟩ := vRegular.leaf_of_zero other
        exact ⟨rfl, amplitudes fun _ => false⟩
  | succ levels ih =>
      by_cases empty : u = zero
      · have other := (uRegular.zero_iff_of_proportional vRegular nonzero amplitudes).mp empty
        rw [empty, other]
        simp
      · have other : v ≠ zero := fun found =>
          empty ((uRegular.zero_iff_of_proportional vRegular nonzero amplitudes).mpr found)
        obtain ⟨c, low, high, rfl, cNonzero, _, lowRegular, highRegular, balanced⟩ :=
          uRegular.fork_of_succ empty
        obtain ⟨d, low', high', rfl, dNonzero, _, lowRegular', highRegular', balanced'⟩ :=
          vRegular.fork_of_succ other
        -- both branches are proportional with the factor that is left of `z` below the scales
        have ratio : z * d / c ≠ 0 := div_ne_zero (mul_ne_zero nonzero dNonzero) cNonzero
        have branch (value : Bool) (bits : Assignment) :
            (if value then high else low).amplitude (qubit + 1) bits =
              z * d / c * (if value then high' else low').amplitude (qubit + 1) bits := by
          have both := amplitudes (Function.update bits qubit value)
          rw [amplitude_fork_update, amplitude_fork_update] at both
          field_simp
          linear_combination both
        obtain ⟨lowShape, lowScale⟩ := ih lowRegular lowRegular' ratio (branch false)
        obtain ⟨highShape, highScale⟩ := ih highRegular highRegular' ratio (branch true)
        have one : z * d / c = 1 :=
          (balanced trivial).factor_eq_one (balanced' trivial) lowScale highScale
            (lowRegular.zero_iff_of_proportional lowRegular' ratio (branch false))
        rw [one, one_mul] at lowScale highScale
        rw [eq_of_scale_of_withScale lowScale lowShape,
          eq_of_scale_of_withScale highScale highShape]
        exact ⟨rfl, ((div_eq_one_iff_eq cNonzero).mp one).symm⟩

/-- A canonical tree is determined by its amplitudes. -/
theorem Regular.unique (uRegular : u.Regular True levels) (vRegular : v.Regular True levels)
    (amplitudes : ∀ bits, u.amplitude qubit bits = v.amplitude qubit bits) : u = v := by
  obtain ⟨shapes, scales⟩ := uRegular.proportional vRegular one_ne_zero
    fun bits => (amplitudes bits).trans (one_mul _).symm
  exact eq_of_scale_of_withScale (scales.trans (one_mul _)) shapes

/-! ## Joining two branches -/

/-- The common modulus of two branches, in the direction of the first one that is not zero. -/
noncomputable def commonFactor (low high : Unfolding) : ℂ :=
  let leading := if low.scale = 0 then high.scale else low.scale
  (Real.sqrt (Complex.normSq low.scale + Complex.normSq high.scale) : ℂ) * (leading / (‖leading‖ : ℂ))

noncomputable def join (c : ℂ) (low high : Unfolding) : Unfolding :=
  if c = 0 ∨ low.scale = 0 ∧ high.scale = 0 then zero
  else
    fork (c * commonFactor low high)
      (low.withScale (low.scale / commonFactor low high))
      (high.withScale (high.scale / commonFactor low high))

theorem normSq_commonFactor (some : ¬(low.scale = 0 ∧ high.scale = 0)) :
    Complex.normSq (commonFactor low high) =
      Complex.normSq low.scale + Complex.normSq high.scale := by
  have leading : (if low.scale = 0 then high.scale else low.scale) ≠ 0 := by
    split
    · next empty => exact fun found => some ⟨empty, found⟩
    · assumption
  have total : 0 ≤ Complex.normSq low.scale + Complex.normSq high.scale :=
    add_nonneg (Complex.normSq_nonneg _) (Complex.normSq_nonneg _)
  unfold commonFactor
  rw [Complex.normSq_mul, Complex.normSq_div, Complex.normSq_ofReal, Complex.normSq_ofReal,
    Complex.norm_mul_self_eq_normSq, div_self (Complex.normSq_eq_zero.not.mpr leading), mul_one,
    Real.mul_self_sqrt total]

theorem commonFactor_ne_zero (some : ¬(low.scale = 0 ∧ high.scale = 0)) :
    commonFactor low high ≠ 0 := by
  intro found
  have total := normSq_commonFactor some
  rw [found, Complex.normSq_zero] at total
  refine some ⟨Complex.normSq_eq_zero.mp ?_, Complex.normSq_eq_zero.mp ?_⟩ <;>
    linarith [Complex.normSq_nonneg low.scale, Complex.normSq_nonneg high.scale]

theorem positive_div_direction {z : ℂ} (nonzero : z ≠ 0) {modulus : ℝ} (positive : 0 < modulus) :
    Positive (z / (modulus * (z / (‖z‖ : ℂ)))) := by
  have norm : (‖z‖ : ℂ) ≠ 0 := Complex.ofReal_ne_zero.mpr (norm_ne_zero_iff.mpr nonzero)
  have size : (modulus : ℂ) ≠ 0 := Complex.ofReal_ne_zero.mpr positive.ne'
  have quotient : z / (modulus * (z / (‖z‖ : ℂ))) = ((‖z‖ / modulus : ℝ) : ℂ) := by
    push_cast
    field_simp
  rw [quotient]
  exact ⟨by
    rw [Complex.ofReal_re]
    exact div_pos (norm_pos_iff.mpr nonzero) positive, Complex.ofReal_im _⟩

theorem withScale_div_scale (u : Unfolding) (factor : ℂ) :
    (u.withScale (u.scale / factor)).scale = u.scale / factor := by
  cases u with
  | zero => exact (zero_div factor).symm
  | leaf => rfl
  | fork => rfl

theorem Regular.balanced_join (lowRegular : low.Regular canonical levels)
    (some : ¬(low.scale = 0 ∧ high.scale = 0)) :
    Balanced (low.withScale (low.scale / commonFactor low high))
      (high.withScale (high.scale / commonFactor low high)) := by
  have total : 0 < Complex.normSq low.scale + Complex.normSq high.scale := by
    rw [← normSq_commonFactor some]
    exact Complex.normSq_pos.mpr (commonFactor_ne_zero some)
  refine ⟨?_, ?_, ?_⟩
  · rw [withScale_div_scale, withScale_div_scale, Complex.normSq_div, Complex.normSq_div,
      normSq_commonFactor some, ← add_div, div_self total.ne']
  · intro nonzero
    have leading : low.scale ≠ 0 := lowRegular.scale_ne_zero (fun found => nonzero (by rw [found]; rfl))
    rw [withScale_div_scale, commonFactor, if_neg leading]
    exact positive_div_direction leading (Real.sqrt_pos.mpr total)
  · intro empty
    have lowZero : low.scale = 0 := by rw [withScale_eq_zero.mp empty]; rfl
    have leading : high.scale ≠ 0 := fun found => some ⟨lowZero, found⟩
    rw [withScale_div_scale, commonFactor, if_pos lowZero]
    exact positive_div_direction leading (Real.sqrt_pos.mpr total)

theorem Regular.withScale_div (regular : u.Regular canonical levels) {factor : ℂ}
    (nonzero : factor ≠ 0) : (u.withScale (u.scale / factor)).Regular canonical levels := by
  by_cases empty : u = zero
  · rw [empty]
    exact regular_zero
  · exact regular.withScale (div_ne_zero (regular.scale_ne_zero empty) nonzero)

/-- A join over regular branches is regular, and canonical over canonical branches. -/
theorem Regular.join (lowRegular : low.Regular canonical levels)
    (highRegular : high.Regular canonical levels) (c : ℂ) :
    (Unfolding.join c low high).Regular canonical (levels + 1) := by
  unfold Unfolding.join
  split
  · exact regular_zero
  · next nonzero =>
      obtain ⟨scaled, some⟩ := not_or.mp nonzero
      have factor := commonFactor_ne_zero some
      refine ⟨mul_ne_zero scaled factor, ?_, lowRegular.withScale_div factor,
        highRegular.withScale_div factor, fun _ => lowRegular.balanced_join some⟩
      simp only [ne_eq, withScale_eq_zero, ← not_and_or]
      rintro ⟨rfl, rfl⟩
      exact some ⟨rfl, rfl⟩

theorem amplitude_withScale_div (u : Unfolding) (factor : ℂ) (bits : Assignment) :
    (u.withScale (u.scale / factor)).amplitude qubit bits = u.amplitude qubit bits / factor := by
  rw [amplitude_withScale, amplitude_eq_scale_mul u]
  ring

theorem Regular.amplitude_join (lowRegular : low.Regular canonical levels)
    (highRegular : high.Regular canonical levels) (c : ℂ) (bits : Assignment) :
    (Unfolding.join c low high).amplitude qubit bits =
      c * if bits qubit then high.amplitude (qubit + 1) bits
        else low.amplitude (qubit + 1) bits := by
  unfold Unfolding.join
  split
  · next empty =>
      rcases empty with rfl | ⟨lowZero, highZero⟩
      · rw [zero_mul, amplitude_zero]
      · rw [lowRegular.scale_eq_zero_iff.mp lowZero, highRegular.scale_eq_zero_iff.mp highZero]
        simp
  · next nonzero =>
      have factor := commonFactor_ne_zero (not_or.mp nonzero).2
      rw [amplitude_fork, amplitude_withScale_div, amplitude_withScale_div]
      split <;> field_simp

/-- A join carries the states of its branches, selected by the topmost qubit. -/
theorem Carries.join {stop : ℕ} {state state' : Assignment → ℂ}
    (lowCarries : low.Carries canonical (qubit + 1) stop state)
    (highCarries : high.Carries canonical (qubit + 1) stop state') (c : ℂ) :
    (Unfolding.join c low high).Carries canonical qubit stop fun bits =>
      c * if bits qubit then state' bits else state bits := by
  have le := lowCarries.le
  have levels : stop - qubit = stop - (qubit + 1) + 1 := by omega
  refine ⟨by omega, ?_, fun bits => ?_⟩
  · rw [levels]
    exact lowCarries.regular.join highCarries.regular c
  · rw [lowCarries.regular.amplitude_join highCarries.regular, lowCarries.amplitude_eq,
      highCarries.amplitude_eq]

theorem Positive.div_norm {z : ℂ} (positive : Positive z) : z / (‖z‖ : ℂ) = 1 := by
  obtain ⟨re, im⟩ := positive
  have real : z = (z.re : ℂ) := Complex.ext rfl im
  have norm : ‖z‖ = z.re := by
    rw [real, Complex.norm_real, Real.norm_eq_abs, Complex.ofReal_re, abs_of_pos re]
  rw [norm, ← real]
  exact div_self fun found => re.ne' (by rw [found]; rfl)

/-- Nothing moves out of the branches of a canonical fork. -/
theorem Balanced.commonFactor_eq_one (balanced : Balanced low high)
    (lowRegular : low.Regular canonical levels) : commonFactor low high = 1 := by
  have direction : (if low.scale = 0 then high.scale else low.scale) /
      (‖if low.scale = 0 then high.scale else low.scale‖ : ℂ) = 1 := by
    split
    · next empty =>
        exact (balanced.leading_high (lowRegular.scale_eq_zero_iff.mp empty)).div_norm
    · next nonzero =>
        exact (balanced.leading_low fun empty => nonzero (by rw [empty]; rfl)).div_norm
  unfold commonFactor
  rw [balanced.total, Real.sqrt_one, Complex.ofReal_one, one_mul, direction]

theorem Balanced.join_eq (balanced : Balanced low high)
    (lowRegular : low.Regular canonical levels) {c : ℂ} (scaled : c ≠ 0) :
    join c low high = fork c low high := by
  have some : ¬(low.scale = 0 ∧ high.scale = 0) := by
    rintro ⟨lowZero, highZero⟩
    have total := balanced.total
    rw [lowZero, highZero, Complex.normSq_zero, add_zero] at total
    exact zero_ne_one total
  unfold join
  rw [if_neg (not_or.mpr ⟨scaled, some⟩), balanced.commonFactor_eq_one lowRegular, mul_one,
    div_one, div_one, withScale_scale, withScale_scale]

/-! ## Existence -/

/-- Every state of the qubits from `qubit` up to `stop` is carried by a canonical tree. -/
theorem exists_canonical {stop : ℕ} (le : qubit ≤ stop) (state : Assignment → ℂ)
    (depends : ∀ bits other, (∀ q, qubit ≤ q → q < stop → bits q = other q) →
      state bits = state other) :
    ∃ u : Unfolding, u.Carries True qubit stop state := by
  induction le using Nat.decreasingInduction generalizing state with
  | self =>
      have constant (bits : Assignment) : state bits = state fun _ => false :=
        depends _ _ fun q lower upper => absurd lower (by omega)
      by_cases empty : state (fun _ => false) = 0
      · exact ⟨zero, carries_zero (le_refl _) fun bits => (constant bits).trans empty⟩
      · refine ⟨leaf (state fun _ => false), le_refl _, ?_, fun bits => (constant bits).symm⟩
        rw [Nat.sub_self]
        exact empty
  | of_succ qubit below ih =>
      have half (value : Bool) : ∃ u : Unfolding, u.Carries True (qubit + 1) stop
          fun bits => state (Function.update bits qubit value) := by
        apply ih
        intro bits other same
        apply depends
        intro q lower upper
        by_cases top : q = qubit
        · rw [top, Function.update_self, Function.update_self]
        · rw [Function.update_of_ne top, Function.update_of_ne top]
          exact same q (by omega) upper
      obtain ⟨low, lowCarries⟩ := half false
      obtain ⟨high, highCarries⟩ := half true
      refine ⟨join 1 low high, (lowCarries.join highCarries 1).congr fun bits => ?_⟩
      rw [one_mul]
      cases value : bits qubit with
      | false => rw [if_neg Bool.false_ne_true, ← value, Function.update_eq_self]
      | true => rw [if_pos rfl, ← value, Function.update_eq_self]

end AmplitudeTree.Unfolding
