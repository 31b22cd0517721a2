import AmplitudeTree.Proofs.Register.Carry
import AmplitudeTree.Proofs.Register.RangeMeasurement

/-!
# Preparations of a range

A range is prepared by a measurement of its qubits and negations of those that differ from the value
that is asked for.  Each measured qubit stays at its outcome while the qubits after it are measured,
whatever gates wait on other qubits, and no gate waits on it any more.
-/

namespace AmplitudeTree

namespace QubitRange

variable {range : QubitRange} {index : BasisIndex} {value : ℕ}

end QubitRange

namespace Register

open AmplitudeTree.Action
open AmplitudeTree.Tree (projected)

variable {reg left measured : Register ℝ} {qubit place length q : ℕ} {outcome value rest : BasisIndex}
  {range : QubitRange} {set : Bool}

/-! ## Outcomes -/

/-- Negates those of `length` qubits from `qubit` on whose bit, from `place` on,
is set in a number. -/
def flipped (qubit place length : ℕ) (difference : BasisIndex) (bits : Assignment) : Assignment :=
  fun q => bits q ^^
    (decide (qubit ≤ q ∧ q < qubit + length) && difference.testBit (place + (q - qubit)))

/-- The basis states with the measured value hold a number there instead, and no others are left. -/
structure Stored (measured : Register ℝ) (range : QubitRange) (outcome : BasisIndex)
    (number : BasisIndex → ℕ) (left : Register ℝ) : Prop where
  width : left.width = measured.width
  kept : ∀ index < 2 ^ measured.width, range.read index = outcome →
    left.represented (range.write index (number index)) = measured.represented index
  only : ∀ index < 2 ^ measured.width, left.represented index ≠ 0 → range.read index = number index

structure RangeMeasured (measured : Register ℝ) (range : QubitRange) (outcome : BasisIndex) :
    Prop where
  inside : range.stop ≤ measured.width
  below : outcome < range.span
  only : ∀ index, measured.represented index ≠ 0 → range.read index = outcome

theorem Stored.totalWeight_eq {number : BasisIndex → ℕ}
    (stored : Stored measured range outcome number left)
    (isMeasured : RangeMeasured measured range outcome)
    (fits : ∀ index, number index < range.span)
    (stays : ∀ index, number (range.write index outcome) = number index) :
    left.totalWeight = measured.totalWeight := by
  have below := isMeasured.below
  have counts {reg : Register ℝ} {index : BasisIndex} :
      (reg.represented index).normSq ≠ 0 ↔ reg.represented index ≠ 0 :=
    (Amplitude.normSq_eq_zero_iff _).not
  have back {index : BasisIndex} (found : range.read index = outcome) (result : ℕ)
      (small : result < range.span) : range.write (range.write index result) outcome = index := by
    rw [QubitRange.write_write small below, ← found, range.write_read]
  rw [totalWeight, totalWeight, stored.width]
  symm
  refine Finset.sum_bij_ne_zero (fun index _ _ => range.write index (number index))
    (fun index member _ => ?_) (fun index _ some index' _ some' same => ?_)
    (fun image member some => ?_) (fun index member some => ?_)
  · exact Finset.mem_range.mpr
      (QubitRange.write_lt (Finset.mem_range.mp member) isMeasured.inside (fits index))
  · rw [← back (isMeasured.only index (counts.mp some)) _ (fits index), same,
      back (isMeasured.only index' (counts.mp some')) _ (fits index')]
  · have inside := Finset.mem_range.mp member
    have origin : range.write image outcome < 2 ^ measured.width :=
      QubitRange.write_lt inside isMeasured.inside below
    have place : range.write (range.write image outcome) (number (range.write image outcome)) =
        image := by
      rw [stays, QubitRange.write_write below (fits image), ← stored.only image inside (counts.mp some),
        range.write_read]
    have same := stored.kept _ origin (QubitRange.read_write below)
    rw [place] at same
    exact ⟨_, Finset.mem_range.mpr origin, same ▸ some, place⟩
  · rw [stored.kept index (Finset.mem_range.mp member) (isMeasured.only index (counts.mp some))]

/-! ## Prepared ranges -/

end Register

end AmplitudeTree
