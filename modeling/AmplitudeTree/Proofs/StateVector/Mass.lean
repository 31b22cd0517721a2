import AmplitudeTree.Proofs.StateVector.Scatter
import Mathlib.Algebra.BigOperators.Intervals

/-!
# Norms of state vectors

The mass that a state vector sums up in one pass is the sum of the squared moduli over the indices
that pass the test.  Rearranging the amplitudes keeps the norm.
-/

namespace AmplitudeTree.StateVector

variable {v v' : StateVector ℝ} {f : BasisIndex → BasisIndex} {negate : BasisIndex → Bool}

noncomputable def weightAt (v : StateVector ℝ) (index : BasisIndex) : ℝ :=
  Complex.normSq (v.amplitudeD index).toComplex

theorem weightAt_nonneg (v : StateVector ℝ) (index : BasisIndex) : 0 ≤ v.weightAt index :=
  Complex.normSq_nonneg _

/-- The pass over the entries from an index on adds what every entry counts. -/
theorem foldl_sum (count : BasisIndex → Amplitude ℝ → ℝ) (entries : List (Amplitude ℝ)) (first : ℕ)
    (total : ℝ) :
    (entries.zipIdx first).foldl (fun total (a, index) => total + count index a) total =
      total + ∑ i ∈ Finset.range entries.length, count (first + i) (entries[i]?.getD 0) := by
  induction entries generalizing first total with
  | nil => simp
  | cons a rest ih =>
      rw [List.zipIdx_cons, List.foldl_cons, ih, List.length_cons, Finset.sum_range_succ']
      have later : ∀ i, first + 1 + i = first + (i + 1) := fun i => by omega
      simp [later, add_assoc, add_comm]

theorem foldl_amplitudes (v : StateVector ℝ) (count : BasisIndex → Amplitude ℝ → ℝ) :
    v.amplitudes.zipIdx.foldl (fun total (a, index) => total + count index a) 0 =
      ∑ index ∈ Finset.range v.amplitudes.size, count index (v.amplitudeD index) := by
  have pass := foldl_sum count v.amplitudes.toList 0 0
  rw [← Array.toList_zipIdx, Array.foldl_toList, Array.length_toList, zero_add] at pass
  simpa [amplitudeD] using pass

theorem massWhere_eq (v : StateVector ℝ) (keep : BasisIndex → Bool) :
    v.massWhere keep =
      ∑ index ∈ Finset.range v.amplitudes.size, if keep index then v.weightAt index else 0 := by
  have pass := v.foldl_amplitudes fun index a => if keep index then a.normSq else 0
  simpa [massWhere, weightAt, Amplitude.normSq_eq, add_ite] using pass

theorem expectation_eq (v : StateVector ℝ) (range : QubitRange) :
    v.expectation range =
      ∑ index ∈ Finset.range v.amplitudes.size, v.weightAt index * range.read index := by
  have pass := v.foldl_amplitudes fun index a => a.normSq * range.read index
  simp only [Amplitude.normSq_eq] at pass
  simpa [expectation, weightAt, Amplitude.normSq_eq, Scalar.ofNat] using pass

theorem normSq_eq_sum (v : StateVector ℝ) :
    v.normSq = ∑ index ∈ Finset.range v.amplitudes.size, v.weightAt index := by
  simp [normSq, massWhere_eq]

/-- Amplitudes in other places have the norm that they had before. -/
theorem Rearranges.normSq_eq (rearranges : v.Rearranges v' f negate) : v'.normSq = v.normSq := by
  obtain ⟨size, bijective, moved⟩ := rearranges
  rw [normSq_eq_sum, normSq_eq_sum, size]
  rw [← Finset.coe_range] at bijective
  refine (Finset.sum_nbij f bijective.mapsTo bijective.injOn bijective.surjOn ?_).symm
  intro index below
  rw [weightAt, weightAt, moved index (Finset.mem_range.mp below)]
  split
  · rw [Amplitude.toComplex_neg, Complex.normSq_neg]
  · rfl

end AmplitudeTree.StateVector
