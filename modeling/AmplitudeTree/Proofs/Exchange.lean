import AmplitudeTree.Proofs.Gate
import AmplitudeTree.StateVector.Basic

/-!
# Exchanges of qubits

An exchange of two qubits is a controlled gate between two negations.  Where the qubits differ, the
negations make one qubit of them that tells which is which, and the gate in between mixes the
amplitudes of a basis state and of the one with exchanged qubits.  The exchanges differ in the two
factors of this mixture alone, and those that follow each other multiply.
-/

namespace AmplitudeTree

variable {first second : ℕ} {controls : List Control} {state : Assignment → ℂ} {bits : Assignment}

/-! ## Exchanged qubits -/

def exchanged (first second : ℕ) (bits : Assignment) : Assignment := bits ∘ Equiv.swap first second

@[simp]
theorem exchanged_first : exchanged first second bits first = bits second :=
  congrArg bits (Equiv.swap_apply_left first second)

@[simp]
theorem exchanged_second : exchanged first second bits second = bits first :=
  congrArg bits (Equiv.swap_apply_right first second)

theorem exchanged_of_ne {q : ℕ} (notFirst : q ≠ first) (notSecond : q ≠ second) :
    exchanged first second bits q = bits q :=
  congrArg bits (Equiv.swap_apply_of_ne_of_ne notFirst notSecond)

@[simp]
theorem exchanged_exchanged : exchanged first second (exchanged first second bits) = bits := by
  funext q
  exact congrArg bits (Equiv.swap_apply_self first second q)

theorem exchanged_comm (first second : ℕ) (bits : Assignment) :
    exchanged first second bits = exchanged second first bits := by
  rw [exchanged, exchanged, Equiv.swap_comm]

theorem exchanged_of_eq (same : bits first = bits second) : exchanged first second bits = bits := by
  rw [exchanged, Equiv.comp_swap_eq_update, same, Function.update_eq_self, ← same,
    Function.update_eq_self]

theorem selected_exchanged
    (apart : ∀ control ∈ controls, control.qubit ≠ first ∧ control.qubit ≠ second) :
    selected controls (exchanged first second bits) = selected controls bits :=
  selected_congr fun control member =>
    exchanged_of_ne (apart control member).1 (apart control member).2

theorem StateVector.testBit_swapBits (different : first ≠ second) (index : BasisIndex) :
    (swapBits first second index).testBit = exchanged first second index.testBit := by
  funext q
  by_cases same : index.testBit first = index.testBit second
  · rw [swapBits, BasisIndex.bit, BasisIndex.bit, if_pos (beq_iff_eq.mpr same),
      exchanged_of_eq same]
  · rw [swapBits, BasisIndex.bit, BasisIndex.bit, if_neg (by rwa [beq_iff_eq]), Nat.testBit_xor,
      Nat.testBit_xor, BasisIndex.power, BasisIndex.power, Nat.testBit_two_pow,
      Nat.testBit_two_pow]
    have opposite : index.testBit second = !index.testBit first := (Bool.not_eq.mpr same).symm
    rcases eq_or_ne q first with rfl | notFirst
    · simp [different.symm, opposite]
    · rcases eq_or_ne q second with rfl | notSecond
      · simp [different, opposite]
      · simp [exchanged_of_ne notFirst notSecond, notFirst.symm, notSecond.symm]

/-! ## Mixtures -/

/-- Mixes each amplitude, by `keep` and `cross`, with that of the exchanged qubits
where these differ. -/
noncomputable def mixUnequal (keep cross : ℂ) (controls : List Control) (first second : ℕ)
    (state : Assignment → ℂ) (bits : Assignment) : ℂ :=
  if selected controls bits = true ∧ bits first ≠ bits second then
    keep * state bits + cross * state (exchanged first second bits)
  else state bits

theorem mixUnequal_one_zero : mixUnequal 1 0 controls first second state = state := by
  funext bits
  rw [mixUnequal, one_mul, zero_mul, add_zero, ite_self]

theorem mixUnequal_zero_one : mixUnequal 0 1 controls first second state bits =
    if selected controls bits then state (exchanged first second bits) else state bits := by
  rw [mixUnequal, zero_mul, one_mul, zero_add]
  by_cases same : bits first = bits second
  · rw [if_neg fun both => both.2 same, exchanged_of_eq same, ite_self]
  · simp only [ne_eq, same, not_false_eq_true, and_true]

theorem mixUnequal_comm (keep cross : ℂ) (controls : List Control) (first second : ℕ)
    (state : Assignment → ℂ) :
    mixUnequal keep cross controls first second state =
      mixUnequal keep cross controls second first state := by
  funext bits
  simp only [mixUnequal, exchanged_comm first second, ne_comm (a := bits first)]

/-- Mixtures that follow each other multiply. -/
theorem mixUnequal_mixUnequal
    (apart : ∀ control ∈ controls, control.qubit ≠ first ∧ control.qubit ≠ second)
    (keep cross keep' cross' : ℂ) :
    mixUnequal keep' cross' controls first second
        (mixUnequal keep cross controls first second state) =
      mixUnequal (keep' * keep + cross' * cross) (keep' * cross + cross' * keep) controls
        first second state := by
  funext bits
  unfold mixUnequal
  rw [selected_exchanged apart, exchanged_first, exchanged_second, exchanged_exchanged]
  by_cases mixes : selected controls bits = true ∧ bits first ≠ bits second
  · rw [if_pos mixes, if_pos mixes, if_pos mixes, if_pos ⟨mixes.1, mixes.2.symm⟩]
    ring
  · rw [if_neg mixes, if_neg mixes, if_neg mixes]

namespace Gate

variable {R : Type} {g : Gate R}

/-- A gate that treats both values of a qubit alike. -/
structure IsCirculant (g : Gate R) : Prop where
  diagonal : g.bottomRight = g.topLeft
  antidiagonal : g.bottomLeft = g.topRight

theorem IsCirculant.act {g : Gate ℝ} (circulant : g.IsCirculant) (qubit : ℕ)
    (state : Assignment → ℂ) (bits : Assignment) :
    g.act qubit state bits = g.topLeft.toComplex * state bits +
      g.topRight.toComplex * state (Function.update bits qubit (!bits qubit)) := by
  have self := Function.update_eq_self qubit bits
  unfold Gate.act mixed
  cases value : bits qubit with
  | false =>
      rw [value] at self
      rw [self]
      rfl
  | true =>
      rw [value] at self
      rw [self, circulant.diagonal, circulant.antidiagonal]
      exact add_comm _ _

theorem act_phase (factor : Amplitude ℝ) (qubit : ℕ) (state : Assignment → ℂ) (bits : Assignment) :
    (diagonal 1 factor).act qubit state bits =
      if bits qubit then factor.toComplex * state bits else state bits := by
  rw [act_diagonal ((isDiagonal_iff _).mpr ⟨rfl, rfl⟩), ite_mul]
  exact if_congr Iff.rfl rfl (one_mul _)

theorem pauliX_isCirculant : (pauliX : Gate ℝ).IsCirculant := ⟨rfl, rfl⟩

theorem sqrtX_isCirculant : (sqrtX : Gate ℝ).IsCirculant := ⟨rfl, rfl⟩

theorem sqrtXInverse_isCirculant : (sqrtXInverse : Gate ℝ).IsCirculant := ⟨rfl, rfl⟩

theorem rotateX_isCirculant (angle : ℝ) : (rotateX angle).IsCirculant := ⟨rfl, rfl⟩

theorem sqrtX_after_sqrtX : (sqrtX : Gate ℝ).after sqrtX = pauliX := by
  have two : (Scalar.two : ℝ) = 2 := Nat.cast_ofNat
  apply ext_toComplex <;> apply Complex.ext <;>
    norm_num [after, sqrtX, pauliX, antidiagonal, two]

end Gate

/-! ## A gate between negations -/

def negated (control target : ℕ) (bits : Assignment) : Assignment :=
  Function.update bits target (bits target ^^ bits control)

/-- The qubit that is negated tells which of the two is 1, if only one of them is. -/
theorem negated_target (control target : ℕ) (bits : Assignment) :
    negated control target bits target = (bits target ^^ bits control) := Function.update_self ..

theorem negated_of_ne {control target q : ℕ} (other : q ≠ target) :
    negated control target bits q = bits q := Function.update_of_ne other ..

theorem negated_negated {control target : ℕ} (different : control ≠ target) :
    negated control target (negated control target bits) = bits := by
  rw [negated, negated_of_ne different, negated_target, Bool.xor_assoc, Bool.xor_self,
    Bool.xor_false, negated, Function.update_idem, Function.update_eq_self]

/-- Between the negations, unequal values are exchanged by a negation of the other qubit. -/
theorem negated_update_negated (different : first ≠ second) (unequal : bits first ≠ bits second) :
    negated second first (Function.update (negated second first bits) second (!bits second)) =
      exchanged first second bits := by
  have opposite : bits first = !bits second := Bool.eq_not.mpr unequal
  funext q
  rcases eq_or_ne q first with rfl | notFirst
  · simp [negated, different, opposite]
  · rcases eq_or_ne q second with rfl | notSecond
    · simp [negated, notFirst, opposite]
    · simp [negated, notFirst, notSecond, exchanged_of_ne notFirst notSecond]

end AmplitudeTree
