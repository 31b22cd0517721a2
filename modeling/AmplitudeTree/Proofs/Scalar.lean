import Mathlib.Analysis.SpecialFunctions.Complex.Arg
import AmplitudeTree.Amplitude

/-!
# Exact scalars

The real numbers as scalars.  Over them an amplitude is a complex number, and every operation on
amplitudes is the operation of the complex numbers.  With threshold zero only the amplitude zero is
negligible.
-/

namespace AmplitudeTree

noncomputable instance : Scalar ℝ where
  toZero := inferInstance
  toOne := inferInstance
  toAdd := inferInstance
  toSub := inferInstance
  toMul := inferInstance
  toDiv := inferInstance
  toNeg := inferInstance
  ofNat n := (n : ℝ)
  pi := Real.pi
  le x y := decide (x ≤ y)
  lt x y := decide (x < y)
  same x y := decide (x = y)
  sqrt := Real.sqrt
  hypot x y := Real.sqrt (x * x + y * y)
  arctan2 y x := Complex.arg ⟨x, y⟩
  cos := Real.cos
  sin := Real.sin
  round x := if 0 ≤ x then ⌊x + 1 / 2⌋ else ⌈x - 1 / 2⌉

-- a quotient of real numbers is that of the field in all modules
attribute [instance (default - 1)] Scalar.toDiv

namespace Scalar

@[simp]
theorem le_iff (x y : ℝ) : Scalar.le x y = true ↔ x ≤ y := by
  simp [Scalar.le]

@[simp]
theorem lt_iff (x y : ℝ) : Scalar.lt x y = true ↔ x < y := by
  simp [Scalar.lt]

@[simp]
theorem same_iff (x y : ℝ) : Scalar.same x y = true ↔ x = y := by
  simp [Scalar.same]

theorem sqrt_eq (x : ℝ) : Scalar.sqrt x = Real.sqrt x := rfl

theorem abs_eq (x : ℝ) : Scalar.abs x = |x| := by
  unfold Scalar.abs
  by_cases negative : x < 0
  · rw [if_pos ((lt_iff x 0).mpr negative), abs_of_neg negative]
  · rw [if_neg (fun found => negative ((lt_iff x 0).mp found)), abs_of_nonneg (not_lt.mp negative)]

end Scalar

namespace Amplitude

def toComplex (a : Amplitude ℝ) : ℂ := ⟨a.re, a.im⟩

def ofComplex (z : ℂ) : Amplitude ℝ := ⟨z.re, z.im⟩

@[simp]
theorem toComplex_re (a : Amplitude ℝ) : a.toComplex.re = a.re := rfl

@[simp]
theorem toComplex_im (a : Amplitude ℝ) : a.toComplex.im = a.im := rfl

@[simp]
theorem toComplex_ofComplex (z : ℂ) : (ofComplex z).toComplex = z := rfl

@[simp]
theorem ofComplex_toComplex (a : Amplitude ℝ) : ofComplex a.toComplex = a := rfl

theorem toComplex_injective : Function.Injective toComplex := fun a b same => by
  rw [← ofComplex_toComplex a, same, ofComplex_toComplex]

@[simp]
theorem toComplex_inj (a b : Amplitude ℝ) : a.toComplex = b.toComplex ↔ a = b :=
  toComplex_injective.eq_iff

@[simp]
theorem toComplex_zero : (0 : Amplitude ℝ).toComplex = 0 := rfl

@[simp]
theorem toComplex_one : (1 : Amplitude ℝ).toComplex = 1 := rfl

theorem toComplex_eq_zero_iff (a : Amplitude ℝ) : a.toComplex = 0 ↔ a = 0 :=
  toComplex_inj a 0

@[simp]
theorem toComplex_add (a b : Amplitude ℝ) : (a + b).toComplex = a.toComplex + b.toComplex := rfl

@[simp]
theorem toComplex_sub (a b : Amplitude ℝ) : (a - b).toComplex = a.toComplex - b.toComplex := rfl

@[simp]
theorem toComplex_neg (a : Amplitude ℝ) : (-a).toComplex = -a.toComplex := rfl

@[simp]
theorem toComplex_mul (a b : Amplitude ℝ) : (a * b).toComplex = a.toComplex * b.toComplex := rfl

@[simp]
theorem toComplex_conj (a : Amplitude ℝ) :
    a.conj.toComplex = (starRingEnd ℂ) a.toComplex := rfl

theorem normSq_eq (a : Amplitude ℝ) : a.normSq = Complex.normSq a.toComplex := by
  rw [Complex.normSq_apply]
  rfl

theorem normSq_ofReal (x : ℝ) : Complex.normSq (ofReal x).toComplex = x * x :=
  Complex.normSq_ofReal x

theorem norm_eq (a : Amplitude ℝ) : a.norm = ‖a.toComplex‖ := by
  rw [Complex.norm_def, Complex.normSq_apply]
  rfl

theorem angle_eq (a : Amplitude ℝ) : a.angle = a.toComplex.arg := rfl

@[simp]
theorem toComplex_div (a b : Amplitude ℝ) : (a / b).toComplex = a.toComplex / b.toComplex := by
  apply Complex.ext
  · change (a.re * b.re + a.im * b.im) / (b.re * b.re + b.im * b.im) = _
    rw [Complex.div_re, Complex.normSq_apply]
    exact add_div _ _ _
  · change (a.im * b.re - a.re * b.im) / (b.re * b.re + b.im * b.im) = _
    rw [Complex.div_im, Complex.normSq_apply]
    exact sub_div _ _ _

@[simp]
theorem toComplex_dividedBy (a : Amplitude ℝ) (x : ℝ) :
    (a.dividedBy x).toComplex = a.toComplex / (x : ℂ) := by
  apply Complex.ext
  · rw [Complex.div_ofReal_re]
    rfl
  · rw [Complex.div_ofReal_im]
    rfl

theorem toComplex_ofPolar (modulus angle : ℝ) :
    (ofPolar modulus angle).toComplex = modulus * Complex.exp (angle * Complex.I) := by
  apply Complex.ext
  · rw [Complex.re_ofReal_mul, Complex.exp_ofReal_mul_I_re]
    rfl
  · rw [Complex.im_ofReal_mul, Complex.exp_ofReal_mul_I_im]
    rfl

theorem normSq_toComplex_ofPolar (modulus angle : ℝ) :
    Complex.normSq (ofPolar modulus angle).toComplex = modulus * modulus := by
  rw [toComplex_ofPolar, Complex.normSq_mul, Complex.normSq_ofReal, Complex.normSq_eq_norm_sq,
    Complex.norm_exp_ofReal_mul_I, one_pow, mul_one]

theorem exp_arg_mul_I {z : ℂ} (nonzero : z ≠ 0) :
    Complex.exp (z.arg * Complex.I) = z / (‖z‖ : ℂ) := by
  have modulus : ((‖z‖ : ℝ) : ℂ) ≠ 0 := Complex.ofReal_ne_zero.mpr (norm_ne_zero_iff.mpr nonzero)
  rw [eq_div_iff modulus, mul_comm]
  exact Complex.norm_mul_exp_arg_mul_I z

theorem unit_of_norm_one {a : Amplitude ℝ} (modulus : ‖a.toComplex‖ = 1) : a.unit = a := by
  apply toComplex_injective
  unfold unit
  split
  · rw [toComplex_dividedBy, norm_eq, modulus, Complex.ofReal_one, div_one]
  · rfl

protected theorem one_ne_zero : (1 : Amplitude ℝ) ≠ 0 :=
  mt (toComplex_inj 1 0).mpr one_ne_zero

theorem normSq_zero : (0 : Amplitude ℝ).normSq = 0 := by
  rw [normSq_eq, toComplex_zero, Complex.normSq_zero]

theorem normSq_one : (1 : Amplitude ℝ).normSq = 1 := by
  rw [normSq_eq, toComplex_one, Complex.normSq_one]

theorem normSq_nonneg (a : Amplitude ℝ) : 0 ≤ a.normSq := by
  rw [normSq_eq]
  exact Complex.normSq_nonneg _

theorem normSq_eq_zero_iff (a : Amplitude ℝ) : a.normSq = 0 ↔ a = 0 := by
  rw [normSq_eq, Complex.normSq_eq_zero, toComplex_eq_zero_iff]

theorem neg_twice (a : Amplitude ℝ) : - -a = a := toComplex_injective (neg_neg a.toComplex)

theorem neg_eq_self_iff (a : Amplitude ℝ) : -a = a ↔ a = 0 := by
  rw [← toComplex_inj, toComplex_neg, neg_eq_self, toComplex_eq_zero_iff]

theorem negated_eq_zero_iff (negated : Prop) [Decidable negated] (a : Amplitude ℝ) :
    (if negated then -a else a) = 0 ↔ a = 0 := by
  split
  · rw [← toComplex_eq_zero_iff, toComplex_neg, neg_eq_zero, toComplex_eq_zero_iff]
  · rfl

/-- A factor that brings some weight to one loses no amplitude. -/
theorem mul_eq_zero_iff_of_unit {factor : Amplitude ℝ} {weight : ℝ}
    (unit : factor.normSq * weight = 1) (a : Amplitude ℝ) : factor * a = 0 ↔ a = 0 := by
  have nonzero : factor.toComplex ≠ 0 := by
    rw [Ne, toComplex_eq_zero_iff, ← normSq_eq_zero_iff]
    exact left_ne_zero_of_mul_eq_one unit
  rw [← toComplex_eq_zero_iff, toComplex_mul, mul_eq_zero_iff_left nonzero, toComplex_eq_zero_iff]

theorem negligible_iff (threshold : ℝ) (a : Amplitude ℝ) :
    a.negligible threshold = true ↔ Complex.normSq a.toComplex ≤ threshold := by
  rw [← normSq_eq]
  exact Scalar.le_iff _ _

theorem negligible_eq_false (threshold : ℝ) (a : Amplitude ℝ) :
    a.negligible threshold = false ↔ threshold < Complex.normSq a.toComplex := by
  rw [← Bool.not_eq_true, negligible_iff, not_le]

@[simp]
theorem negligible_zero_iff (a : Amplitude ℝ) : a.negligible 0 = true ↔ a.toComplex = 0 := by
  rw [negligible_iff]
  constructor
  · intro small
    exact Complex.normSq_eq_zero.mp (le_antisymm small (Complex.normSq_nonneg _))
  · intro zero
    rw [zero, Complex.normSq_zero]

@[simp]
theorem same_iff (a b : Amplitude ℝ) : a.same b = true ↔ a = b := by
  cases a
  cases b
  simp [same]

end Amplitude

end AmplitudeTree
