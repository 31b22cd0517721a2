import AmplitudeTree.Proofs.StateVector.Mass
import AmplitudeTree.StateVector.Parity
import Mathlib.Data.Nat.Bitwise

/-!
# Parity of several qubits

The parity of one qubit is its value.  A state vector takes the mass of odd parity for a probability,
whatever its norm is, and what this leaves of one for the probability of even parity.
-/

namespace AmplitudeTree

namespace BasisIndex

theorem power_ne_zero (qubit : ℕ) : power qubit ≠ 0 := (Nat.two_pow_pos qubit).ne'

@[simp]
theorem oddParity_zero : oddParity 0 = false := by
  rw [oddParity, dif_pos rfl]

theorem oddParity_power (qubit : ℕ) : oddParity (power qubit) = true := by
  induction qubit with
  | zero => simp [power, oddParity]
  | succ qubit ih =>
      have double : power (qubit + 1) = 2 * power qubit := Nat.pow_succ'
      have even : power (qubit + 1) % 2 = 0 := by rw [double, Nat.mul_mod_right]
      have half : power (qubit + 1) / 2 = power qubit := by
        rw [double, Nat.mul_div_cancel_left _ two_pos]
      rw [oddParity, dif_neg (power_ne_zero _)]
      simp [even, half, ih]

@[simp]
theorem highestSet_power (qubit : ℕ) : (power qubit).highestSet = qubit := Nat.log2_two_pow

theorem isPower_power (qubit : ℕ) : (power qubit).isPower = true := by
  simp [isPower, power]

theorem eq_power_of_isPower {mask : BasisIndex} (single : mask.isPower = true) :
    mask = power mask.highestSet := by
  rw [isPower, Bool.and_eq_true, beq_iff_eq] at single
  exact single.2

end BasisIndex

namespace Scalar

theorem machineEpsilon_pos : (0 : ℝ) < machineEpsilon := by
  norm_num [machineEpsilon, ofNat]

theorem one_div_sqrt_pos {x : ℝ} (positive : 0 < x) : 0 < 1 / sqrt x :=
  one_div_pos.mpr (Real.sqrt_pos.mpr positive)

theorem one_div_sqrt_mul_self {x : ℝ} (positive : 0 < x) : 1 / sqrt x * (1 / sqrt x) * x = 1 := by
  rw [div_mul_div_comm, one_mul, sqrt_eq, Real.mul_self_sqrt positive.le]
  exact one_div_mul_cancel positive.ne'

end Scalar

namespace Amplitude

theorem conj_ofPolar (modulus angle : ℝ) :
    (ofPolar modulus angle).conj = ofPolar modulus (-angle) := by
  apply toComplex_injective
  apply Complex.ext <;> simp [ofPolar, conj, Scalar.cos, Scalar.sin]

end Amplitude

namespace StateVector

variable {v : StateVector ℝ} {mask : BasisIndex}

theorem isOdd_power (qubit : ℕ) (index : BasisIndex) :
    isOdd (.power qubit) index = index.testBit qubit := by
  rw [isOdd, BasisIndex.power, Nat.and_two_pow]
  cases index.testBit qubit with
  | true => rw [Bool.toNat_true, one_mul, ← BasisIndex.power, BasisIndex.oddParity_power]
  | false => simp

theorem amplitudeD_projectParity (v : StateVector ℝ) (mask : BasisIndex) (odd : Bool) (factor : ℝ)
    (index : BasisIndex) :
    (v.projectParity mask odd factor).amplitudeD index =
      if isOdd mask index = odd then (v.amplitudeD index).scaledBy factor else 0 := by
  have zero : (0 : Amplitude ℝ).scaledBy factor = 0 := by
    change (⟨0 * factor, 0 * factor⟩ : Amplitude ℝ) = ⟨0, 0⟩
    rw [zero_mul]
  rw [amplitudeD, projectParity, mapIndexed, Array.getElem?_mapIdx, amplitudeD]
  cases v.amplitudes[index]? with
  | none => simp [zero]
  | some a => simp

theorem toComplex_scaledBy (a : Amplitude ℝ) (x : ℝ) :
    (a.scaledBy x).toComplex = x * a.toComplex := by
  apply Complex.ext <;> simp [Amplitude.scaledBy, mul_comm]

theorem size_projectParity (v : StateVector ℝ) (mask : BasisIndex) (odd : Bool) (factor : ℝ) :
    (v.projectParity mask odd factor).amplitudes.size = v.amplitudes.size :=
  Array.size_mapIdx ..

/-- What is kept has the mass of the parity, times the square of the factor. -/
theorem normSq_projectParity (v : StateVector ℝ) (mask : BasisIndex) (odd : Bool) (factor : ℝ) :
    (v.projectParity mask odd factor).normSq =
      factor * factor * v.massWhere fun index => isOdd mask index == odd := by
  rw [normSq_eq_sum, massWhere_eq, size_projectParity, Finset.mul_sum]
  refine Finset.sum_congr rfl fun index _ => ?_
  rw [weightAt, amplitudeD_projectParity]
  by_cases kept : isOdd mask index = odd
  · simp [kept, weightAt, toComplex_scaledBy]
  · simp [kept]

/-- Nothing is left of a state vector just in case the parity that is kept has no mass. -/
theorem vanishes_projectParity_iff {odd : Bool} {factor : ℝ} (nonzero : factor ≠ 0) :
    (v.projectParity mask odd factor).Vanishes ↔
      v.massWhere (fun index => isOdd mask index == odd) = 0 := by
  rw [massWhere_eq, Finset.sum_eq_zero_iff_of_nonneg fun index _ => by
    split
    · exact v.weightAt_nonneg index
    · exact le_refl 0]
  rw [Vanishes, size_projectParity]
  simp only [Finset.mem_range]
  refine forall₂_congr fun index _ => ?_
  rw [amplitudeD_projectParity]
  by_cases kept : isOdd mask index = odd
  · rw [if_pos kept, if_pos (beq_iff_eq.mpr kept), toComplex_scaledBy, weightAt,
      Complex.normSq_eq_zero, mul_eq_zero, or_iff_right (Complex.ofReal_ne_zero.mpr nonzero)]
  · rw [if_neg kept, if_neg (mt beq_iff_eq.mp kept)]
    exact iff_of_true rfl rfl

noncomputable def chosenParity (v : StateVector ℝ) (mask : BasisIndex) (forced : Option Bool) : Bool :=
  forced.getD (Scalar.lt (v.generator.unit : ℝ × Generator).1 (v.massWhere (isOdd mask)))

/-- What a state vector takes for the probability of a parity. -/
noncomputable def assumedProbability (v : StateVector ℝ) (mask : BasisIndex) (odd : Bool) : ℝ :=
  if odd then v.massWhere (isOdd mask) else 1 - v.massWhere (isOdd mask)

/-- In a state of norm one it is the probability. -/
theorem assumedProbability_eq (unit : v.normSq = 1) (mask : BasisIndex) (odd : Bool) :
    v.assumedProbability mask odd = v.massWhere fun index => isOdd mask index == odd := by
  cases odd with
  | true => simp [assumedProbability]
  | false =>
      rw [assumedProbability, if_neg Bool.false_ne_true, sub_eq_iff_eq_add, ← unit, normSq_eq_sum,
        massWhere_eq, massWhere_eq, ← Finset.sum_add_distrib]
      refine Finset.sum_congr rfl fun index _ => ?_
      cases isOdd mask index <;> simp

/-- A measurement divides by the root of what it takes for the probability, and fails if this is
only rounding. -/
theorem measureParity_eq (v : StateVector ℝ) (some : mask ≠ 0) (forced : Option Bool) :
    let odd := v.chosenParity mask forced
    let kept := v.assumedProbability mask odd
    ∃ generator, v.measureParity mask forced =
      if Scalar.le kept Scalar.machineEpsilon then
        (.error (.impossibleParity odd), { v with generator := generator })
      else (.ok odd,
        projectParity { v with generator := generator } mask odd (1 / Scalar.sqrt kept)) := by
  have proper : ¬ (mask == 0) = true := by simpa using some
  have mass : v.probParity mask = v.massWhere (isOdd mask) := if_neg proper
  cases forced with
  | none =>
      refine ⟨(v.generator.unit : ℝ × Generator).2, ?_⟩
      rw [measureParity, if_neg proper, mass]
      rfl
  | some odd =>
      refine ⟨v.generator, ?_⟩
      rw [measureParity, if_neg proper, mass]
      rfl

/-! ## Rotations -/

/-- The controls of a rotation are all set if every one of them within the register is. -/
theorem hasAll_heldControls (width : ℕ) (controls : List ℕ) (held index : BasisIndex) :
    index.hasAll (controls.foldl
        (fun held control => if control < width then held ||| .power control else held) held) = true ↔
      index.hasAll held = true ∧
        ∀ control ∈ controls, control < width → index.testBit control = true := by
  induction controls generalizing held with
  | nil => simp
  | cons control rest ih =>
      rw [List.foldl_cons, ih, List.forall_mem_cons]
      by_cases inside : control < width
      · rw [if_pos inside, BasisIndex.hasAll_or, BasisIndex.hasAll_power, and_assoc,
          forall_prop_of_true inside]
      · rw [if_neg inside, forall_prop_of_false inside, true_and]

theorem amplitudeD_rotateParity (v : StateVector ℝ) (controls : List ℕ) (mask : BasisIndex)
    (angle : ℝ) (index : BasisIndex) :
    ((v.rotateParity controls mask angle).amplitudeD index).toComplex =
      (if ∀ control ∈ controls, control < v.width → index.testBit control = true then
        Complex.exp ((if isOdd mask index then angle else -angle : ℝ) * Complex.I) else 1) *
        (v.amplitudeD index).toComplex := by
  have held := hasAll_heldControls v.width controls 0 index
  rw [and_iff_right (BasisIndex.hasAll_zero index)] at held
  rw [amplitudeD, rotateParity, mapIndexed, Array.getElem?_mapIdx, amplitudeD]
  cases v.amplitudes[index]? with
  | none => simp
  | some a =>
      rw [Option.map_some, Option.getD_some, Option.getD_some, if_congr held rfl rfl]
      by_cases selected : ∀ control ∈ controls, control < v.width → index.testBit control = true
      · rw [if_pos selected, if_pos selected, Amplitude.toComplex_mul, mul_comm,
          Amplitude.conj_ofPolar, ← apply_ite (Amplitude.ofPolar 1), Amplitude.toComplex_ofPolar,
          Complex.ofReal_one, one_mul]
      · rw [if_neg selected, if_neg selected, one_mul]

theorem size_rotateParity (v : StateVector ℝ) (controls : List ℕ) (mask : BasisIndex) (angle : ℝ) :
    (v.rotateParity controls mask angle).amplitudes.size = v.amplitudes.size :=
  Array.size_mapIdx ..

theorem vanishes_rotateParity_iff {controls : List ℕ} {angle : ℝ} :
    (v.rotateParity controls mask angle).Vanishes ↔ v.Vanishes := by
  rw [Vanishes, Vanishes, size_rotateParity]
  refine forall₂_congr fun index _ => ?_
  rw [amplitudeD_rotateParity, mul_eq_zero, or_iff_right]
  split
  · exact Complex.exp_ne_zero _
  · exact one_ne_zero

end StateVector

end AmplitudeTree
