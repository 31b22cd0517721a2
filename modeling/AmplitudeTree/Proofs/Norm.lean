import AmplitudeTree.Proofs.BasisIndex
import AmplitudeTree.Proofs.PendingGates

/-!
# Norms of states

The squared norm of a state is the sum of the squared moduli of its amplitudes over all values of its
qubits.  Unitary gates keep it.  For a canonical tree it is the squared modulus of the scale at the
top, and the part of it where a qubit has a value is found by descending to this qubit.
-/

namespace AmplitudeTree

/-! ## Sums over qubits -/

def both (qubit : ℕ) (f : Assignment → ℝ) (bits : Assignment) : ℝ :=
  f (Function.update bits qubit false) + f (Function.update bits qubit true)

def summed (qubits : List ℕ) (f : Assignment → ℝ) : Assignment → ℝ := qubits.foldr both f

section Sums

variable {qubits more : List ℕ} {qubit other : ℕ} {f g : Assignment → ℝ}

theorem both_comm (qubit other : ℕ) (f : Assignment → ℝ) :
    both qubit (both other f) = both other (both qubit f) := by
  by_cases same : qubit = other
  · rw [same]
  · funext bits
    unfold both
    simp only [Function.update_comm same]
    ring

theorem summed_nil (f : Assignment → ℝ) : summed [] f = f := rfl

theorem summed_append (qubits more : List ℕ) (f : Assignment → ℝ) :
    summed (qubits ++ more) f = summed qubits (summed more f) :=
  List.foldr_append

theorem summed_cons (qubit : ℕ) (qubits : List ℕ) (f : Assignment → ℝ) :
    summed (qubit :: qubits) f = summed qubits (both qubit f) := by
  induction qubits generalizing f with
  | nil => rfl
  | cons next qubits ih =>
      have swapped : summed (qubit :: next :: qubits) f =
          both next (summed (qubit :: qubits) f) := both_comm qubit next _
      rw [swapped, ih]
      rfl

theorem summed_perm (perm : qubits.Perm more) (f : Assignment → ℝ) :
    summed qubits f = summed more f :=
  perm.foldr_eq' (fun q _ q' _ f => both_comm q' q f) f

theorem summed_congr_both (member : qubit ∈ qubits) (same : both qubit f = both qubit g) :
    summed qubits f = summed qubits g := by
  rw [summed_perm (List.perm_cons_erase member), summed_perm (List.perm_cons_erase member),
    summed_cons, summed_cons, same]

theorem summed_zero (qubits : List ℕ) : summed qubits (fun _ => 0) = fun _ => 0 := by
  induction qubits with
  | nil => rfl
  | cons qubit qubits ih =>
      rw [summed_cons, show both qubit (fun _ => 0) = fun _ => 0 from funext fun _ => add_zero 0, ih]

theorem summed_add (qubits : List ℕ) (f g : Assignment → ℝ) (bits : Assignment) :
    summed qubits (fun bits => f bits + g bits) bits = summed qubits f bits + summed qubits g bits := by
  induction qubits generalizing f g with
  | nil => rfl
  | cons qubit qubits ih =>
      have here : both qubit (fun bits => f bits + g bits) =
          fun bits => both qubit f bits + both qubit g bits := funext fun _ => add_add_add_comm ..
      rw [summed_cons, summed_cons, summed_cons, here, ih]

theorem summed_mul (qubits : List ℕ) (c : ℝ) (f : Assignment → ℝ) (bits : Assignment) :
    summed qubits (fun bits => c * f bits) bits = c * summed qubits f bits := by
  induction qubits generalizing f with
  | nil => rfl
  | cons qubit qubits ih =>
      have here : both qubit (fun bits => c * f bits) = fun bits => c * both qubit f bits :=
        funext fun _ => (mul_add ..).symm
      rw [summed_cons, summed_cons, here, ih]

theorem summed_nonneg (qubits : List ℕ) (nonneg : ∀ bits, 0 ≤ f bits) (bits : Assignment) :
    0 ≤ summed qubits f bits := by
  induction qubits generalizing f with
  | nil => exact nonneg bits
  | cons qubit qubits ih =>
      rw [summed_cons]
      exact ih fun bits => add_nonneg (nonneg _) (nonneg _)

/-- The sum over the first qubits is the sum over the basis states of these qubits. -/
theorem summed_range (width : ℕ) (f : Assignment → ℝ) :
    summed (List.range width) f (fun _ => false) =
      ∑ index ∈ Finset.range (2 ^ width), f index.testBit := by
  induction width generalizing f with
  | zero =>
      have none : Nat.testBit 0 = fun _ => false := funext Nat.zero_testBit
      simp [summed_nil, none]
  | succ width ih =>
      have last : summed (List.range (width + 1)) f = summed (List.range width) (both width f) := by
        rw [List.range_succ, summed_perm (List.perm_append_singleton width _), summed_cons]
      rw [last, ih, pow_succ, mul_two, Finset.sum_range_add, ← Finset.sum_add_distrib]
      refine Finset.sum_congr rfl fun index member => ?_
      have below := Finset.mem_range.mp member
      have joined : 2 ^ width + index = index ||| BasisIndex.power width := by
        rw [Nat.or_comm, BasisIndex.power]
        simpa using Nat.two_pow_add_eq_or_of_lt below 1
      have high : (2 ^ width + index).testBit = Function.update index.testBit width true := by
        rw [joined, BasisIndex.testBit_or_power]
      have low : index.testBit = Function.update index.testBit width false := by
        rw [← Nat.testBit_lt_two_pow below, Function.update_eq_self]
      rw [high]
      exact congrArg (f · + _) low.symm

end Sums

/-! ## Norms -/

/-- The squared norm of a state of the first `width` qubits. -/
noncomputable def mass (width : ℕ) (state : Assignment → ℂ) : ℝ :=
  summed (List.range width) (fun bits => Complex.normSq (state bits)) fun _ => false


section Mass

variable {width : ℕ} {state other : Assignment → ℂ}

theorem mass_nonneg (width : ℕ) (state : Assignment → ℂ) : 0 ≤ mass width state :=
  summed_nonneg _ (fun _ => Complex.normSq_nonneg _) _

theorem mass_zero (width : ℕ) : mass width 0 = 0 := by
  have none (bits : Assignment) : Complex.normSq ((0 : Assignment → ℂ) bits) = 0 := map_zero _
  rw [mass, funext none, summed_zero]

theorem mass_smul (width : ℕ) (c : ℂ) (state : Assignment → ℂ) :
    mass width (c • state) = Complex.normSq c * mass width state := by
  have factor (bits : Assignment) :
      Complex.normSq ((c • state) bits) = Complex.normSq c * Complex.normSq (state bits) :=
    map_mul ..
  rw [mass, funext factor, summed_mul, mass]

theorem mass_eq_sum (width : ℕ) (state : Assignment → ℂ) :
    mass width state =
      ∑ index ∈ Finset.range (2 ^ width), Complex.normSq (state index.testBit) :=
  summed_range width _

end Mass

/-! ## Unitary gates -/

namespace Gate

variable {g : Gate ℝ} {qubit : ℕ}

theorem IsUnitary.orthogonal (unitary : g.IsUnitary) :
    g.topLeft.toComplex * (starRingEnd ℂ) g.topRight.toComplex +
      g.bottomLeft.toComplex * (starRingEnd ℂ) g.bottomRight.toComplex = 0 := by
  have entry := congrArg (fun gate : Gate ℝ => gate.bottomLeft.toComplex) unitary
  simp only [Gate.after, dagger, identity, diagonal, Amplitude.toComplex_add,
    Amplitude.toComplex_mul, Amplitude.toComplex_conj, Amplitude.toComplex_zero] at entry
  rw [mul_comm, mul_comm g.bottomLeft.toComplex]
  exact entry

/-- A unitary gate keeps the norm of a qubit. -/
theorem IsUnitary.normSq_mixed (unitary : g.IsUnitary) (zero one : ℂ) :
    Complex.normSq (g.mixed false zero one) + Complex.normSq (g.mixed true zero one) =
      Complex.normSq zero + Complex.normSq one := by
  obtain ⟨left, right⟩ := unitary.columns
  have cross : g.topLeft.toComplex * zero * (starRingEnd ℂ) (g.topRight.toComplex * one) +
      g.bottomLeft.toComplex * zero * (starRingEnd ℂ) (g.bottomRight.toComplex * one) = 0 := by
    rw [map_mul, map_mul]
    linear_combination zero * (starRingEnd ℂ) one * unitary.orthogonal
  have parts := congrArg Complex.re cross
  rw [Complex.add_re, Complex.zero_re] at parts
  unfold mixed
  rw [if_neg Bool.false_ne_true, if_pos rfl, Complex.normSq_add, Complex.normSq_add,
    Complex.normSq_mul, Complex.normSq_mul, Complex.normSq_mul, Complex.normSq_mul]
  linear_combination Complex.normSq zero * left + Complex.normSq one * right + 2 * parts

/-- A unitary gate on one of the qubits keeps the norm of a state. -/
theorem IsUnitary.mass_act (unitary : g.IsUnitary) {width : ℕ} (inside : qubit < width)
    (state : Assignment → ℂ) : mass width (g.act qubit state) = mass width state := by
  refine congrFun (summed_congr_both (List.mem_range.mpr inside) (funext fun bits => ?_)) _
  unfold both act
  simp only [Function.update_self, Function.update_idem]
  exact unitary.normSq_mixed _ _

end Gate

namespace PendingGates

variable {p : PendingGates ℝ}

theorem Unitary.mass_actOn (unitary : p.Unitary) {qubits : List ℕ} {width : ℕ}
    (inside : ∀ q ∈ qubits, q < width) (state : Assignment → ℂ) :
    mass width (p.actOn qubits state) = mass width state := by
  induction qubits generalizing state with
  | nil => rfl
  | cons qubit qubits ih =>
      obtain ⟨here, later⟩ := List.forall_mem_cons.mp inside
      rw [actOn_cons, ih later]
      cases waits : p.get? qubit with
      | none => rw [actAt_of_none waits]
      | some gate => rw [actAt_of_some waits, (unitary qubit gate waits).mass_act here]

/-- Unitary gates that wait keep the norm of a state. -/
theorem Unitary.mass_act (unitary : p.Unitary) (state : Assignment → ℂ) :
    mass p.width (p.act state) = mass p.width state :=
  unitary.mass_actOn (fun _ member => List.mem_range.mp member) state

end PendingGates

/-! ## Weights of subtrees -/

namespace Unfolding

variable {u : Unfolding} {levels : ℕ}

theorem both_normSq_fork (c : ℂ) (low high : Unfolding) (qubit : ℕ) :
    both qubit (fun bits => Complex.normSq ((fork c low high).amplitude qubit bits)) =
      fun bits => Complex.normSq c * (Complex.normSq (low.amplitude (qubit + 1) bits) +
        Complex.normSq (high.amplitude (qubit + 1) bits)) := by
  funext bits
  unfold both
  dsimp only
  rw [amplitude_fork_update, amplitude_fork_update, map_mul, map_mul, mul_add]
  rfl

noncomputable def weight : Unfolding → ℝ
  | zero => 0
  | leaf c => Complex.normSq c
  | fork c low high => Complex.normSq c * (low.weight + high.weight)

/-- The weight is the squared norm. -/
theorem Deep.summed_weight (deep : u.Deep levels) (qubit : ℕ) (bits : Assignment) :
    summed (List.range' qubit levels) (fun bits => Complex.normSq (u.amplitude qubit bits)) bits =
      u.weight := by
  induction levels generalizing u qubit with
  | zero =>
      by_cases empty : u = zero
      · subst empty
        exact map_zero Complex.normSq
      · obtain ⟨c, rfl⟩ := deep.leaf_of_zero empty
        rfl
  | succ levels ih =>
      by_cases empty : u = zero
      · simp only [empty, amplitude_zero, map_zero, summed_zero, weight]
      · obtain ⟨c, low, high, rfl, lowDeep, highDeep⟩ := deep.fork_of_succ empty
        rw [List.range'_succ, summed_cons, both_normSq_fork, summed_mul, summed_add, ih lowDeep,
          ih highDeep, weight]

/-- The weight of a canonical tree is the squared modulus of its topmost scale. -/
theorem Regular.weight_eq (regular : u.Regular True levels) : u.weight = Complex.normSq u.scale := by
  induction levels generalizing u with
  | zero =>
      by_cases empty : u = zero
      · rw [empty, weight, scale_zero, map_zero]
      · obtain ⟨c, _, rfl⟩ := regular.leaf_of_zero empty
        rfl
  | succ levels ih =>
      by_cases empty : u = zero
      · rw [empty, weight, scale_zero, map_zero]
      · obtain ⟨c, low, high, rfl, _, _, lowRegular, highRegular, balanced⟩ :=
          regular.fork_of_succ empty
        rw [weight, ih lowRegular, ih highRegular, (balanced trivial).total, mul_one, scale_fork]

theorem Regular.summed_normSq (regular : u.Regular True levels) (qubit : ℕ) (bits : Assignment) :
    summed (List.range' qubit levels) (fun bits => Complex.normSq (u.amplitude qubit bits)) bits =
      Complex.normSq u.scale := by
  rw [regular.deep.summed_weight, regular.weight_eq]

end Unfolding

end AmplitudeTree
